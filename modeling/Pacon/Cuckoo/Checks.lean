import Pacon.Commit.Agreement
import Pacon.Cuckoo.Tables
import Pacon.PathText

/-!
# The checked directories of a process

In the commit system a client has a set of checked directories. `pacon.c` keeps them in a hash table, each under its
text with the value 0. `init_pacon` puts the workspace there.
-/

set_option linter.unusedSectionVars false

namespace Pacon.Commit
open Function Lib
variable {ι κ : Type} [DecidableEq ι] [DecidableEq κ] {cfg : Config ι κ} {s t : State ι κ}

def ClientPc.adds : ClientPc → Option Path
  | .parentAdd _ p => some p.tail
  | _ => none

theorem ClientPc.running_of_adds {pc : ClientPc} {q : Path} (adds : pc.adds = some q) :
    ∃ call, pc.running = some call ∧ q = call.path.tail := by
  cases pc with
  | parentAdd m p => exact ⟨_, rfl, (Option.some.inj adds).symm⟩
  | _ => cases adds

theorem Local.adds {env : Env} {pc next : ClientPc} (goes : Local cfg s env pc next) : pc.adds = none := by
  cases goes <;> rfl

theorem Move.table {e : Event κ ι} (move : Move cfg s e t) :
    (∃ c env q, e = .client c env ∧ (s.client c).adds = some q ∧
      t.table = update s.table c (update (s.table c) q true)) ∨
    t.table = s.table ∧ ∀ c env, e = .client c env → (s.client c).adds = none := by
  have quiet {c : κ} {env : Env} {pc : ClientPc} (at_pc : s.client c = pc) (other : pc.adds = none) :
      ∀ c' env', (.client c env : Event κ ι) = .client c' env' → (s.client c').adds = none := by
    intro c' env' same
    cases same
    rw [at_pc, other]
  cases move with
  | parentAdd at_pc => exact .inl ⟨_, _, _, rfl, congrArg ClientPc.adds at_pc, rfl⟩
  | goOn at_pc goes => exact .inr ⟨rfl, quiet at_pc goes.adds⟩
  | loadAdd at_pc | childCas at_pc | add at_pc | addAgain at_pc | addSet at_pc | rmCas at_pc | rmLate at_pc
  | writeCas at_pc | send at_pc | ret at_pc => exact .inr ⟨rfl, quiet at_pc rfl⟩
  | succeed =>
      refine .inr ⟨?_, fun _ _ same => by cases same⟩
      unfold Commit.succeed
      split <;> rfl
  | writeBack =>
      refine .inr ⟨?_, fun _ _ same => by cases same⟩
      unfold Commit.writeBack
      split <;> rfl
  | _ => exact .inr ⟨rfl, fun _ _ same => by cases same⟩

end Pacon.Commit

namespace Pacon.Cuckoo
open Function Lib Commit
variable {ι κ : Type} [DecidableEq ι] [DecidableEq κ] {cfg : Config ι κ} {s t : State ι κ} {c : κ}

def addToDirCheckTable (parentDir : CString) : Call := .put .dirCheckTable parentDir 0

def dirCheckLocal (parentDir : CString) : Call := .get .dirCheckTable parentDir

def asked (c : κ) (s : State ι κ) : Event κ ι → Option (Call × Answer)
  | .start c' ⟨.make _, p⟩ =>
      if c' = c ∧ p ≠ [] then
        some (dirCheckLocal (text p.tail), .int (if s.table c p.tail then 0 else -1))
      else none
  | .client c' _ =>
      if c' = c then (s.client c).adds.map fun q => (addToDirCheckTable (text q), .int 0) else none
  | .start _ ⟨.rm, _⟩ | .start _ ⟨.write _ _, _⟩ | .take _ | .server _ _ => none

def Checked (m : Maps) (table : Path → Bool) : Prop :=
  ∀ q, Named q → m .dirCheckTable (text q) = if table q then some 0 else none

theorem Checked.add {m : Maps} {table : Path → Bool} (checked : Checked m table) {q : Path} (named : Named q) :
    Checked (m.after (addToDirCheckTable (text q))) (update table q true) := by
  intro q' named'
  have here := checked q named
  have there := checked q' named'
  simp only [addToDirCheckTable, Maps.after, update_self, putNew]
  by_cases same : q' = q
  · subst same
    rw [update_self]
    by_cases known : table q' = true
    · rw [if_neg, here, if_pos known]
      · rfl
      · rw [here, if_pos known]
        exact Option.some_ne_none _
    · rw [if_pos (by rw [here, if_neg known]), update_self]
      rfl
  · have apart : text q' ≠ text q := fun spelled => same (text_injective named' named spelled)
    rw [update_of_ne same]
    split
    · rw [update_of_ne apart]
      exact there
    · exact there

theorem Checked.answer {m : Maps} {table : Path → Bool} (checked : Checked m table) {q : Path} (named : Named q) :
    m.answer (dirCheckLocal (text q)) = .int (if table q then 0 else -1) := by
  simp only [dirCheckLocal, Maps.answer, checked q named]
  split <;> rfl

theorem Maps.answers_append (m : Maps) (calls more : List Call) :
    m.answers (calls ++ more) = m.answers calls ++ (calls.foldl Maps.after m).answers more := by
  induction calls generalizing m with
  | nil => rfl
  | cons c calls ih => rw [List.cons_append, Maps.answers, Maps.answers, ih, List.foldl_cons, List.cons_append]

def callsOf (cfg : Config ι κ) (record : List (Call × Answer)) : List Call :=
  addToDirCheckTable (text cfg.root) :: record.map Prod.fst

structure Recorded (cfg : Config ι κ) (c : κ) (s : State ι κ) (record : List (Call × Answer)) : Prop where
  answers : noMaps.answers (callsOf cfg record) = .int 0 :: record.map Prod.snd
  checked : Checked ((callsOf cfg record).foldl Maps.after noMaps) (s.table c)

theorem Recorded.initial (named : Named cfg.root) (initial : Initial cfg s) : Recorded cfg c s [] where
  answers := rfl
  checked := by
    have none : Checked noMaps fun _ => false := fun _ _ => rfl
    have root : s.table c = update (fun _ => false) cfg.root true := by
      funext p
      rw [Bool.eq_iff_iff, initial.table, update_apply]
      split <;> simp_all
    rw [root]
    exact none.add named

theorem Recorded.ask {record : List (Call × Answer)} (recorded : Recorded cfg c s record) {call : Call} {answer : Answer}
    (gives : ((callsOf cfg record).foldl Maps.after noMaps).answer call = answer)
    (checked : Checked (((callsOf cfg record).foldl Maps.after noMaps).after call) (t.table c)) :
    Recorded cfg c t (record ++ [(call, answer)]) := by
  have calls : callsOf cfg (record ++ [(call, answer)]) = callsOf cfg record ++ [call] := by
    simp [callsOf]
  constructor
  · rw [calls, Maps.answers_append, recorded.answers, Maps.answers, gives]
    simp [Maps.answers]
  · rw [calls, List.foldl_append]
    exact checked

theorem named_tail {p : Path} (named : Named p) : Named p.tail :=
  fun name member => named name (List.mem_of_mem_tail member)

theorem Recorded.step {record : List (Call × Answer)} (recorded : Recorded cfg c s record) {e : Event κ ι}
    (within : Within cfg (fun call => Named call.path) s) (only : Calls (fun call => Named call.path) s e)
    (step : Commit.step cfg s e = some t) : Recorded cfg c t (record ++ (asked c s e).toList) := by
  have silent (same : t.table c = s.table c) : Recorded cfg c t (record ++ []) := by
    rw [List.append_nil]
    exact ⟨recorded.answers, by rw [same]; exact recorded.checked⟩
  rcases (move_of_step step).table with ⟨c', env, q, rfl, adds, table⟩ | ⟨table, quiet⟩
  · by_cases other : c' = c
    · subst other
      obtain ⟨call, runs, rfl⟩ := ClientPc.running_of_adds adds
      have named := named_tail (within.running runs)
      rw [asked, if_pos rfl, adds]
      apply recorded.ask rfl
      rw [table, update_self]
      exact recorded.checked.add named
    · rw [asked, if_neg other]
      apply silent
      rw [table, update_of_ne (Ne.symm other)]
  · have same := congrFun table c
    cases e with
    | start c' call =>
        obtain ⟨op, p⟩ := call
        cases op with
        | make m =>
            rw [asked]
            split
            · apply recorded.ask (recorded.checked.answer (named_tail only))
              rw [same]
              exact recorded.checked
            · exact silent same
        | rm | write => exact silent same
    | client c' env =>
        rw [asked]
        split
        · rename_i here
          subst here
          rw [quiet c' env rfl]
          exact silent same
        · exact silent same
    | take | server => exact silent same

/-- In every run of the commit system over paths made of names, each client could have kept its checked directories
in the hash table, as `pacon.c` does: all its questions get the same answers, until an insertion finds no room. -/
theorem checks_are_hashed (named : Named cfg.root) (hash : CString → BitVec 64)
    {x : State ι κ × List (Call × Answer)}
    (h : ((system cfg).recording (asked c)).Reachable (fun x e => Calls (fun call => Named call.path) x.1 e) x) :
    ∃ answers us, run hash tables (callsOf cfg x.2) = some (answers, us) ∧
      (answers = .int 0 :: x.2.map Prod.snd ∨ Terminates hash noMaps (callsOf cfg x.2) answers us) := by
  obtain ⟨-, recorded⟩ := @System.Reachable.recorded _ _ (system cfg) (Calls fun call => Named call.path) _ (asked c)
    (Recorded cfg c) (fun s => Recorded.initial named) (fun s record e t reach recorded ok step =>
      recorded.step (within_of_reachable (fun _ _ => id) reach) ok step) x h
  rw [← recorded.answers]
  exact run_represents tables_represent _

theorem checks_are_hashed_run : ∃ x : State Bool Bool × List (Call × Answer),
    ((system (.twoNodes exampleRoot)).recording (asked true)).Reachable
      (fun x e => Calls (fun call => Named call.path) x.1 e) x ∧
    x.2.map Prod.snd = [.int (-1), .int 0] ∧
    ∃ answers us, run (fun _ => 0) tables (callsOf (.twoNodes exampleRoot) x.2) = some (answers, us) ∧
      (answers = .int 0 :: x.2.map Prod.snd ∨
        Terminates (fun _ => 0) noMaps (callsOf (.twoNodes exampleRoot) x.2) answers us) := by
  obtain ⟨x, reach, h⟩ := System.exists_reachable ((system (.twoNodes exampleRoot)).recording (asked true))
    (fun x e => Calls (fun call => Named call.path) x.1 e) (s := (initialState (.twoNodes exampleRoot) .zero, []))
    ⟨initial_initialState _ _ (by simp [exampleRoot, Config.twoNodes]), rfl⟩ makeRun
    (fun x : State Bool Bool × List (Call × Answer) => decide (x.2.map Prod.snd = [.int (-1), .int 0])) rfl
  exact ⟨x, reach, of_decide_eq_true h, checks_are_hashed (by decide) (fun _ => 0) reach⟩

end Pacon.Cuckoo
