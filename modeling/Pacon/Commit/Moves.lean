import Pacon.Commit.Model

namespace Pacon.Commit
open Function Lib

variable {ι κ : Type} [DecidableEq ι] [DecidableEq κ] (cfg : Config ι κ)

inductive Local (s : State ι κ) (env : Env) : ClientPc → ClientPc → Prop
  | parentMiss {m p} (absent : s.cache p.tail = none) :
      Local s env (.parentGet m p) (load cfg (.parent m p))
  | parentHit {m p e} (entry : s.cache p.tail = some e) :
      Local s env (.parentGet m p) (parentFound m p e)
  | parentLost {m p} : Local s env (.parentReget m p) .beyond
  | parentLoaded {m p e} (entry : s.cache p.tail = some e) :
      Local s env (.parentReget m p) (parentFound m p e)
  | opendir {m p v cas} (dir : s.dfs p.tail = some .dir) :
      Local s env (.opendir m p v cas) (.readdir m p v cas)
  | opendirFail {m p v cas} : Local s env (.opendir m p v cas) .beyond
  | readdir {m p v cas name} : Local s env (.readdir m p v cas) (load cfg (.child m p v cas name))
  | readdirEnd {m p v cas} :
      Local s env (.readdir m p v cas) (.childCas m p (flagged v .childCheck) cas)
  | childExists {m p v cas} : Local s env (.childCas m p v cas) (.childReget m p)
  | childLost {m p v cas} : Local s env (.childCas m p v cas) (.returning ⟨.make m, p⟩ (-1))
  | childReget {m p e} (entry : s.cache p.tail = some e) :
      Local s env (.childReget m p) (.childCas m p (flagged e.value .childCheck) e.cas)
  | childRegetLost {m p} : Local s env (.childReget m p) .beyond
  | statFail {l} (absent : s.dfs l.target = none) : Local s env (.loadStat l) (.returning l.call (-1))
  | stat {l node} (there : s.dfs l.target = some node) :
      Local s env (.loadStat l) (.loadAdd l (loadedValue env node))
  | loadExists {l v} (there : l.target = [] ∨ s.cache l.target ≠ none) : Local s env (.loadAdd l v) l.next
  | addExists {m p} (there : p = [] ∨ s.cache p ≠ none) :
      Local s env (.add m p) (.addGet m p (newValue env m))
  | addLost {m p v} (absent : s.cache p = none) :
      Local s env (.addGet m p v) (.returning ⟨.make m, p⟩ (-1))
  | addRemoved {m p v e} (entry : s.cache p = some e) (rm : getStatFlag e.value.stat .rm = true) :
      Local s env (.addGet m p v) (.addSet m p v)
  | addFails {m p v e} (entry : s.cache p = some e) (live : getStatFlag e.value.stat .rm = false)
      (plain : addExisting m p = .returning ⟨.make m, p⟩ (-1)) :
      Local s env (.addGet m p v) (.returning ⟨.make m, p⟩ (-1))
  | rmMiss {p} (absent : s.cache p = none) : Local s env (.rmGet p) (load cfg (.rm p))
  | rmHit {p e} (entry : s.cache p = some e) :
      Local s env (.rmGet p) (.rmCas p (flagged e.value .rm) e.cas)
  | rmLost {p} (absent : s.cache p = none) : Local s env (.rmReget p) .beyond
  | rmLoaded {p e} (entry : s.cache p = some e) :
      Local s env (.rmReget p) (.rmCas p (flagged e.value .rm) e.cas)
  | rmExists {p v cas e} (entry : s.cache p = some e) (stale : e.cas ≠ cas) :
      Local s env (.rmCas p v cas) (.rmReget p)
  | writeMiss {p buf offset} (absent : s.cache p = none) : Local s env (.writeGet p buf offset) .beyond
  | writeHit {p buf offset e} (entry : s.cache p = some e) :
      Local s env (.writeGet p buf offset) (writeFound env p buf offset e)
  | writeExists {p buf offset v cas} : Local s env (.writeCas p buf offset v cas) (.writeGet p buf offset)
  | writeLost {p buf offset v cas} (absent : s.cache p = none) :
      Local s env (.writeCas p buf offset v cas) (.returning ⟨.write buf offset, p⟩ (-1))

inductive DfsEffect (dfs : Path → Option Node) (m : Msg) : (Path → Option Node) → Prop
  | mkdir (opt : m.opt = .mkdir) (notRoot : m.path ≠ []) (free : dfs m.path = none)
      (parent : dfs m.path.tail = some .dir) : DfsEffect dfs m (update dfs m.path (some .dir))
  | create (opt : m.opt = .create) (notRoot : m.path ≠ []) (free : dfs m.path = none)
      (parent : dfs m.path.tail = some .dir) : DfsEffect dfs m (update dfs m.path (some (.file [])))
  | truncate {content} (opt : m.opt = .create) (file : dfs m.path = some (.file content)) :
      DfsEffect dfs m (update dfs m.path (some (.file [])))
  | remove {node} (opt : m.opt = .rm) (there : dfs m.path = some node) :
      DfsEffect dfs m (update dfs m.path none)

inductive Move (s : State ι κ) : Event κ ι → State ι κ → Prop
  | start {c call} (free : s.client c = .idle) :
      Move s (.start c call) (setPc s c (beginCall (s.table c) call))
  | goOn {c env pc next} (at_pc : s.client c = pc) (goes : Local cfg s env pc next) :
      Move s (.client c env) (setPc s c next)
  | parentAdd {c env m p} (at_pc : s.client c = .parentAdd m p) :
      Move s (.client c env) (setPc
        { s with table := update s.table c (update (s.table c) p.tail true) } c (afterParent m p))
  | loadAdd {c env l v} (at_pc : s.client c = .loadAdd l v) (key : l.target ≠ [])
      (absent : s.cache l.target = none) :
      Move s (.client c env) (setPc (store s l.target v) c l.next)
  | childCas {c env m p v cas e} (at_pc : s.client c = .childCas m p v cas)
      (entry : s.cache p.tail = some e) (same : e.cas = cas) :
      Move s (.client c env) (setPc (store s p.tail v) c (.parentAdd m p))
  | add {c env m p} (at_pc : s.client c = .add m p) (key : p ≠ []) (absent : s.cache p = none) :
      Move s (.client c env) (setPc (store s p (newValue env m)) c (.send ⟨.make m, p⟩))
  | addAgain {c env buf p v e} (at_pc : s.client c = .addGet (.createWrite buf) p v)
      (entry : s.cache p = some e) (live : getStatFlag e.value.stat .rm = false) :
      Move s (.client c env) (setPc s c (.send ⟨.make (.createWrite buf), p⟩))
  | addSet {c env m p v} (at_pc : s.client c = .addSet m p v) :
      Move s (.client c env) (setPc (store s p v) c (afterSet m p))
  | rmCas {c env p v cas e} (at_pc : s.client c = .rmCas p v cas) (entry : s.cache p = some e)
      (same : e.cas = cas) : Move s (.client c env) (setPc (store s p v) c (.send ⟨.rm, p⟩))
  | rmLate {c env p v cas} (at_pc : s.client c = .rmCas p v cas) (absent : s.cache p = none) :
      Move s (.client c env) (setPc s c (.send ⟨.rm, p⟩))
  | writeCas {c env p buf offset v cas e} (at_pc : s.client c = .writeCas p buf offset v cas)
      (entry : s.cache p = some e) (same : e.cas = cas) :
      Move s (.client c env) (setPc (store s p v) c (.send ⟨.write buf offset, p⟩))
  | send {c env call} (at_pc : s.client c = .send call) :
      Move s (.client c env) (setPc
        { s with out := update s.out c (s.out c ++ [call.msg]) } c (.returning call call.result))
  | ret {c env call result} (at_pc : s.client c = .returning call result) :
      Move s (.client c env) (setPc
        { s with returned := update s.returned c (s.returned c ++ [(call, result)]) } c .idle)
  | take {c m} (pc : s.server (cfg.home c) = .recv) (head : (s.out c)[s.done c]? = some m) :
      Move s (.take c) { s with server := update s.server (cfg.home c) (dispatch c m) }
  | rmVoid {i env c p} (pc : s.server i = .rmGet c p) (absent : s.cache p = none) :
      Move s (.server i env) (finish s i c)
  | rmFound {i env c p e} (pc : s.server i = .rmGet c p) (entry : s.cache p = some e) :
      Move s (.server i env) { s with server := update s.server i (.attempt c ⟨.rm, p⟩) }
  | succeed {i env c m dfs} (pc : s.server i = .attempt c m ∨ s.server i = .retry c m)
      (call : dfsCall s.dfs env.vacant m = some dfs) : Move s (.server i env) (succeed s i c m dfs)
  | fail {i env c m} (pc : s.server i = .attempt c m ∨ s.server i = .retry c m)
      (call : dfsCall s.dfs env.vacant m = none) :
      Move s (.server i env) { s with server := update s.server i (.retry c m) }
  | rmDel {i env c p} (pc : s.server i = .rmDel c p) :
      Move s (.server i env) (finish (dmkvDel s p) i c)
  | dropWrite {i env c p} (pc : s.server i = .writeOpen c p)
      (noFile : ∀ content, s.dfs p ≠ some (.file content)) : Move s (.server i env) (finish s i c)
  | openWrite {i env c p content} (pc : s.server i = .writeOpen c p)
      (file : s.dfs p = some (.file content)) :
      Move s (.server i env) { s with server := update s.server i (.writeGet c p (s.generation p)) }
  | writeVoid {i env c p g} (pc : s.server i = .writeGet c p g) (absent : s.cache p = none) :
      Move s (.server i env) (finish s i c)
  | writeRead {i env c p g e} (pc : s.server i = .writeGet c p g) (entry : s.cache p = some e) :
      Move s (.server i env) { s with server := update s.server i (writeRead env c p g e.value) }
  | writeBack {i env c p g data} (pc : s.server i = .writeBack c p g data) :
      Move s (.server i env) (finish (writeBack s p g data) i c)

variable {cfg}

theorem afterParent_of {P : ClientPc → Prop} {m : Make} {p : Path}
    (add : (∀ buf, m = .createWrite buf → buf.length < inlineMax - 1) → P (.add m p))
    (refused : P (.returning ⟨.make m, p⟩ (-1))) : P (afterParent m p) := by
  cases m with
  | mkdir | create => exact add fun _ is => by cases is
  | createWrite buf =>
      simp only [afterParent]
      split
      · rename_i short
        apply add
        rintro _ ⟨rfl⟩
        exact short
      · exact refused

theorem beginCall_of {P : ClientPc → Prop} {table : Path → Bool} {call : Call}
    (parent : ∀ m p, call = ⟨.make m, p⟩ → p = [] ∨ table p.tail = true → P (afterParent m p))
    (parentGet : ∀ m p, call = ⟨.make m, p⟩ → p ≠ [] → table p.tail = false → P (.parentGet m p))
    (rmGet : ∀ p, call = ⟨.rm, p⟩ → P (.rmGet p))
    (writeGet : ∀ p buf offset, call = ⟨.write buf offset, p⟩ → P (.writeGet p buf offset)) :
    P (beginCall table call) := by
  obtain ⟨op, p⟩ := call
  cases op with
  | make m =>
      simp only [beginCall]
      split
      · rename_i checked
        exact parent m p rfl checked
      · rename_i unchecked
        push Not at unchecked
        exact parentGet m p rfl unchecked.1 (by simpa using unchecked.2)
  | rm => exact rmGet p rfl
  | write buf offset => exact writeGet p buf offset rfl

theorem dfsCall_effect {dfs dfs' : Path → Option Node} {vacant : Bool} {m : Msg}
    (h : dfsCall dfs vacant m = some dfs') : DfsEffect dfs m dfs' := by
  obtain ⟨opt, p⟩ := m
  unfold dfsCall at h
  split at h
  · rename_i name q opt path free
    cases opt
    cases path
    simp only [Option.ite_none_right_eq_some, Option.some.injEq] at h
    exact h.2 ▸ .mkdir rfl (List.cons_ne_nil _ _) free h.1
  · rename_i name q opt path free
    cases opt
    cases path
    simp only [Option.ite_none_right_eq_some, Option.some.injEq] at h
    exact h.2 ▸ .create rfl (List.cons_ne_nil _ _) free h.1
  · rename_i opt file
    cases opt
    cases h
    exact .truncate rfl file
  · rename_i opt file
    cases opt
    cases h
    exact .remove rfl file
  · rename_i opt path dir
    cases opt
    simp only [Option.ite_none_right_eq_some, Option.some.injEq] at h
    exact h.2 ▸ .remove rfl dir
  · cases h

theorem dfsCall_free {dfs : Path → Option Node} {m : Msg} (vacant : Bool)
    (makes : m.opt = .mkdir ∨ m.opt = .create) (notRoot : m.path ≠ []) (free : dfs m.path = none)
    (parent : dfs m.path.tail = some .dir) : dfsCall dfs vacant m ≠ none := by
  obtain ⟨opt, p⟩ := m
  cases p with
  | nil => exact absurd rfl notRoot
  | cons name q =>
      simp only [List.tail_cons] at free parent
      rcases makes with rfl | rfl <;> simp [dfsCall, free, parent]

theorem clientStep_move {s t : State ι κ} {c : κ} {env : Env} (h : clientStep cfg s c env = some t) :
    Move cfg s (.client c env) t := by
  cases at_pc : s.client c with
  | idle | beyond => simp [clientStep, at_pc] at h
  | parentGet m p =>
      simp only [clientStep, at_pc, Option.some.injEq] at h
      subst h
      split
      · rename_i absent
        exact .goOn at_pc (.parentMiss absent)
      · rename_i entry
        exact .goOn at_pc (.parentHit entry)
  | parentReget m p =>
      simp only [clientStep, at_pc, Option.some.injEq] at h
      subst h
      split
      · exact .goOn at_pc .parentLost
      · rename_i entry
        exact .goOn at_pc (.parentLoaded entry)
  | opendir m p v cas =>
      simp only [clientStep, at_pc, Option.some.injEq] at h
      subst h
      split
      · rename_i dir
        exact .goOn at_pc (.opendir dir)
      · exact .goOn at_pc .opendirFail
  | readdir m p v cas =>
      simp only [clientStep, at_pc, Option.some.injEq] at h
      subst h
      split
      · exact .goOn at_pc .readdir
      · exact .goOn at_pc .readdirEnd
  | childCas m p v cas =>
      simp only [clientStep, at_pc, Option.some.injEq, dmkvCas] at h
      subst h
      cases entry : s.cache p.tail with
      | none => exact .goOn at_pc .childLost
      | some e =>
          by_cases same : e.cas = cas
          · simpa [same] using Move.childCas at_pc entry same
          · simpa [same] using Move.goOn at_pc .childExists
  | childReget m p =>
      simp only [clientStep, at_pc, Option.some.injEq] at h
      subst h
      split
      · exact .goOn at_pc .childRegetLost
      · rename_i entry
        exact .goOn at_pc (.childReget entry)
  | parentAdd m p =>
      simp only [clientStep, at_pc, Option.some.injEq] at h
      exact h ▸ .parentAdd at_pc
  | loadStat l =>
      simp only [clientStep, at_pc, Option.some.injEq] at h
      subst h
      split
      · rename_i absent
        exact .goOn at_pc (.statFail absent)
      · rename_i there
        exact .goOn at_pc (.stat there)
  | loadAdd l v =>
      simp only [clientStep, at_pc, Option.some.injEq, dmkvAdd] at h
      subst h
      split
      · rename_i there
        exact .goOn at_pc (.loadExists (by simpa [Option.isSome_iff_ne_none] using there))
      · rename_i free
        simp only [not_or, Bool.not_eq_true, Option.isSome_eq_false_iff, Option.isNone_iff_eq_none] at free
        exact .loadAdd at_pc free.1 free.2
  | add m p =>
      simp only [clientStep, at_pc, Option.some.injEq, dmkvAdd] at h
      subst h
      by_cases there : p = [] ∨ (s.cache p).isSome = true
      · simpa only [if_pos there] using Move.goOn at_pc
          (.addExists (by simpa [Option.isSome_iff_ne_none] using there))
      · have free := there
        simp only [not_or, Bool.not_eq_true, Option.isSome_eq_false_iff, Option.isNone_iff_eq_none] at free
        simpa only [if_neg there] using Move.add at_pc free.1 free.2
  | addGet m p v =>
      simp only [clientStep, at_pc, Option.some.injEq] at h
      subst h
      split
      · rename_i absent
        exact .goOn at_pc (.addLost absent)
      · rename_i e entry
        by_cases rm : getStatFlag e.value.stat .rm = true
        · simpa only [if_pos rm] using Move.goOn at_pc (.addRemoved entry rm)
        · rw [if_neg rm]
          have live := Bool.not_eq_true _ ▸ rm
          cases m with
          | createWrite buf => exact .addAgain at_pc entry live
          | mkdir | create => exact .goOn at_pc (.addFails entry live rfl)
  | addSet m p v =>
      simp only [clientStep, at_pc, Option.some.injEq] at h
      exact h ▸ .addSet at_pc
  | rmGet p =>
      simp only [clientStep, at_pc, Option.some.injEq] at h
      subst h
      split
      · rename_i absent
        exact .goOn at_pc (.rmMiss absent)
      · rename_i entry
        exact .goOn at_pc (.rmHit entry)
  | rmReget p =>
      simp only [clientStep, at_pc, Option.some.injEq] at h
      subst h
      split
      · rename_i absent
        exact .goOn at_pc (.rmLost absent)
      · rename_i entry
        exact .goOn at_pc (.rmLoaded entry)
  | rmCas p v cas =>
      simp only [clientStep, at_pc, Option.some.injEq, dmkvCas] at h
      subst h
      cases entry : s.cache p with
      | none => exact .rmLate at_pc entry
      | some e =>
          by_cases same : e.cas = cas
          · simpa [same] using Move.rmCas at_pc entry same
          · simpa [same] using Move.goOn at_pc (.rmExists entry same)
  | writeGet p buf offset =>
      simp only [clientStep, at_pc, Option.some.injEq] at h
      subst h
      split
      · rename_i absent
        exact .goOn at_pc (.writeMiss absent)
      · rename_i entry
        exact .goOn at_pc (.writeHit entry)
  | writeCas p buf offset v cas =>
      simp only [clientStep, at_pc, Option.some.injEq, dmkvCas] at h
      subst h
      cases entry : s.cache p with
      | none => exact .goOn at_pc (.writeLost entry)
      | some e =>
          by_cases same : e.cas = cas
          · simpa [same] using Move.writeCas at_pc entry same
          · simpa [same] using Move.goOn at_pc .writeExists
  | send call =>
      simp only [clientStep, at_pc, Option.some.injEq] at h
      exact h ▸ .send at_pc
  | returning call result =>
      simp only [clientStep, at_pc, Option.some.injEq] at h
      exact h ▸ .ret at_pc

theorem takeStep_move {s t : State ι κ} {c : κ} (h : takeStep cfg s c = some t) :
    Move cfg s (.take c) t := by
  unfold takeStep at h
  split at h
  · rename_i pc head
    cases h
    exact .take pc head
  · cases h

theorem serverStep_move {s t : State ι κ} {i : ι} {env : Env} (h : serverStep s i env = some t) :
    Move cfg s (.server i env) t := by
  cases pc : s.server i with
  | recv | overrun c p => simp [serverStep, pc] at h
  | rmGet c p =>
      simp only [serverStep, pc, Option.some.injEq] at h
      subst h
      split
      · rename_i absent
        exact .rmVoid pc absent
      · rename_i entry
        exact .rmFound pc entry
  | attempt c m =>
      simp only [serverStep, pc, Option.some.injEq] at h
      subst h
      split
      · rename_i call
        exact .succeed (.inl pc) call
      · rename_i call
        exact .fail (.inl pc) call
  | retry c m =>
      simp only [serverStep, pc, Option.some.injEq] at h
      subst h
      split
      · rename_i call
        exact .succeed (.inr pc) call
      · rename_i call
        have same : update s.server i (.retry c m) = s.server := by rw [← pc, update_eq_self]
        simpa only [same] using Move.fail (.inr pc) call
  | rmDel c p =>
      simp only [serverStep, pc, Option.some.injEq] at h
      exact h ▸ .rmDel pc
  | writeOpen c p =>
      simp only [serverStep, pc, Option.some.injEq] at h
      subst h
      split
      · rename_i file
        exact .openWrite pc file
      · rename_i noFile
        exact .dropWrite pc noFile
  | writeGet c p g =>
      simp only [serverStep, pc, Option.some.injEq] at h
      subst h
      split
      · rename_i absent
        exact .writeVoid pc absent
      · rename_i entry
        exact .writeRead pc entry
  | writeBack c p g data =>
      simp only [serverStep, pc, Option.some.injEq] at h
      exact h ▸ .writeBack pc

theorem move_of_step {s t : State ι κ} {e : Event κ ι} (h : step cfg s e = some t) :
    Move cfg s e t := by
  cases e with
  | start c call =>
      simp only [step, Option.ite_none_right_eq_some, Option.some.injEq] at h
      obtain ⟨free, rfl⟩ := h
      exact .start free
  | client c env => exact clientStep_move h
  | take c => exact takeStep_move h
  | server i env => exact serverStep_move h

end Pacon.Commit
