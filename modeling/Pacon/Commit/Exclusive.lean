import Pacon.Commit.Versions
import Pacon.Commit.Recreate
import Mathlib.Data.List.Chain

/-!
# Who creates a path

Creates, mkdirs and removals of one path by any clients. A free name goes to one creator, by the add.
A name whose entry is flagged goes to whoever sets it, also if another has set it meanwhile, and an
RM deletes whatever entry stands there.
-/

set_option linter.unusedSectionVars false

namespace Pacon.Commit
open Function Lib

variable {ι κ : Type} [DecidableEq ι] [DecidableEq κ]

/-- The accesses that decide for a call on the path: it will return 0. -/
inductive Deed (κ : Type)
  | claim (c : κ) (m : Make)
  | removal (c : κ)
  deriving DecidableEq

def Deed.IsClaim : Deed κ → Prop
  | .claim .. => True
  | .removal _ => False

def Deed.made (p : Path) (c : κ) : Deed κ → Option Call
  | .claim c' m => if c' = c then some ⟨.make m, p⟩ else none
  | .removal _ => none

def deed (p : Path) (s : State ι κ) : Event κ ι → Option (Deed κ)
  | .client c _ =>
      match s.client c with
      | .add m q => if q = p ∧ q ≠ [] ∧ (s.cache p).isNone then some (.claim c m) else none
      | .addSet m q _ => if q = p then some (.claim c m) else none
      | .rmCas q _ cas =>
          if q = p then
            match dmkvCas s q cas with
            | .stored | .notFound => some (.removal c)
            | .dataExists => none
          else none
      | _ => none
  | .start _ _ | .take _ | .server _ _ => none

def Taken (s : State ι κ) (p : Path) : Prop :=
  ∃ e, s.cache p = some e ∧ getStatFlag e.value.stat .rm = false ∧
    getStatFlag e.value.stat .existedinDfs = false

/-- Nobody sets the entry of a creator or deletes it; `pacon_create_write` is not called. -/
def Unclaimed (p : Path) (s : State ι κ) : Event κ ι → Prop
  | .start _ call => call.path = p → ∀ buf, call.op ≠ .make (.createWrite buf)
  | .client c _ => ∀ m v, s.client c = .addSet m p v → ¬Taken s p
  | .server i _ => ∀ c, s.server i = .rmDel c p → ¬Taken s p
  | .take _ => True

def callResults (s : State ι κ) (c : κ) : List (Call × Int) :=
  s.returned c ++ (s.client c).outcome.toList

def Call.MakesAt (p : Path) (call : Call) : Prop := ∃ m, call = ⟨.make m, p⟩

instance (p : Path) (call : Call) : Decidable (call.MakesAt p) :=
  match call with
  | ⟨.make m, q⟩ => decidable_of_iff (q = p)
      ⟨fun h => ⟨m, by rw [h]⟩, fun h => by obtain ⟨_, same⟩ := h; exact (Call.mk.inj same).2⟩
  | ⟨.rm, _⟩ => .isFalse fun h => by obtain ⟨_, same⟩ := h; cases same
  | ⟨.write .., _⟩ => .isFalse fun h => by obtain ⟨_, same⟩ := h; cases same

def wins (p : Path) (s : State ι κ) (c : κ) : List Call :=
  ((callResults s c).filter fun x => x.1.MakesAt p ∧ x.2 = 0).map Prod.fst

def MakeMsg (p : Path) (m : Msg) : Prop := m.path = p ∧ (m.opt = .mkdir ∨ m.opt = .create)

instance (p : Path) (m : Msg) : Decidable (MakeMsg p m) := inferInstanceAs (Decidable (_ ∧ _))

variable {cfg : Config ι κ} {p : Path} {s t : State ι κ} {deeds : List (Deed κ)}

def NotFast (p : Path) (call : Call) : Prop := call.path = p → ∀ buf, call.op ≠ .make (.createWrite buf)

theorem Unclaimed.calls {e : Event κ ι} (h : Unclaimed p s e) : Calls (NotFast p) s e := by
  cases e with
  | start => exact h
  | client | take | server => trivial

structure Claims (p : Path) (s : State ι κ) (deeds : List (Deed κ)) : Prop where
  once : deeds.IsChain fun d d' => ¬(d.IsClaim ∧ d'.IsClaim)
  taken : (∃ d ∈ deeds.getLast?, d.IsClaim) → Taken s p
  won : ∀ c, wins p s c = deeds.filterMap (Deed.made p c)
  messages : ∀ c, ((issued s c).filter (MakeMsg p ·)).Sublist ((deeds.filterMap (Deed.made p c)).map Call.msg)

theorem made_claim (p : Path) (c d : κ) (m : Make) :
    [Deed.claim c m].filterMap (Deed.made p d) = if c = d then [⟨.make m, p⟩] else [] := by
  by_cases same : c = d <;> simp [Deed.made, same]

theorem made_removal (p : Path) (c d : κ) : [Deed.removal c].filterMap (Deed.made p d) = [] := rfl

theorem Claims.silent (k : Claims p s deeds) (taken : Taken s p → Taken t p)
    (same : ∀ c, wins p t c = wins p s c)
    (sent : ∀ c, (issued t c).filter (MakeMsg p ·) = (issued s c).filter (MakeMsg p ·)) :
    Claims p t (deeds ++ (none : Option (Deed κ)).toList) := by
  rw [Option.toList_none, List.append_nil]
  exact ⟨k.once, fun last => taken (k.taken last), fun c => (same c).trans (k.won c),
    fun c => sent c ▸ k.messages c⟩

theorem Claims.claim (k : Claims p s deeds) {c : κ} {m : Make} (free : ¬Taken s p) (taken : Taken t p)
    (more : ∀ d, wins p t d = wins p s d ++ if c = d then [⟨.make m, p⟩] else [])
    (sent : ∀ d, ∃ new, (issued t d).filter (MakeMsg p ·) =
      (issued s d).filter (MakeMsg p ·) ++ new ∧
        new.Sublist (if c = d then [Call.msg ⟨.make m, p⟩] else [])) :
    Claims p t (deeds ++ (some (Deed.claim c m)).toList) where
  once := by
    rw [Option.toList_some, List.isChain_append]
    refine ⟨k.once, .singleton _, fun d last d' _ both => free (k.taken ⟨d, last, both.1⟩)⟩
  taken _ := taken
  won d := by
    rw [more, k.won, Option.toList_some, List.filterMap_append, made_claim]
  messages d := by
    obtain ⟨new, same, sub⟩ := sent d
    rw [same, Option.toList_some, List.filterMap_append, List.map_append, made_claim]
    refine (k.messages d).append ?_
    split
    · rename_i here
      rwa [if_pos here] at sub
    · rename_i other
      rwa [if_neg other] at sub

theorem Claims.removal (k : Claims p s deeds) {c : κ}
    (same : ∀ c, wins p t c = wins p s c)
    (sent : ∀ c, (issued t c).filter (MakeMsg p ·) = (issued s c).filter (MakeMsg p ·)) :
    Claims p t (deeds ++ (some (Deed.removal c)).toList) where
  once := by
    rw [Option.toList_some, List.isChain_append]
    refine ⟨k.once, .singleton _, fun d last d' is both => ?_⟩
    cases is
    exact both.2
  taken last := by
    obtain ⟨d, last, claims⟩ := last
    simp at last
    exact (last ▸ claims : Deed.IsClaim (Deed.removal c)).elim
  won d := by
    rw [same, k.won, Option.toList_some, List.filterMap_append, made_removal, List.append_nil]
  messages d := by
    rw [sent, Option.toList_some, List.filterMap_append, made_removal, List.append_nil]
    exact k.messages d

theorem wins_setPc {u : State ι κ} {c : κ} {pc : ClientPc} (returned : u.returned = s.returned)
    (client : u.client = s.client) (before : (s.client c).outcome = none) (d : κ) :
    wins p (setPc u c pc) d = wins p s d ++ if c = d then
      (pc.outcome.toList.filter fun x => x.1.MakesAt p ∧ x.2 = 0).map Prod.fst else [] := by
  by_cases here : c = d
  · subst here
    simp [wins, callResults, setPc, returned, before]
  · have away : d ≠ c := Ne.symm here
    simp [wins, callResults, setPc, returned, client, away, here]

theorem wins_goOn {u : State ι κ} {c : κ} {pc : ClientPc} (returned : u.returned = s.returned)
    (client : u.client = s.client) (before : (s.client c).outcome = none)
    (after : ∀ x, pc.outcome = some x → ¬(x.1.MakesAt p ∧ x.2 = 0)) (d : κ) :
    wins p (setPc u c pc) d = wins p s d := by
  rw [wins_setPc returned client before]
  cases result : pc.outcome with
  | none => simp
  | some x => simp [after x result]

theorem wins_congr (returned : t.returned = s.returned) (client : t.client = s.client) (c : κ) :
    wins p t c = wins p s c := by
  simp only [wins, callResults, returned, client]

theorem not_makesAt {q : Path} {m : Make} (other : q ≠ p) : ¬Call.MakesAt p ⟨.make m, q⟩ := by
  rintro ⟨_, same⟩
  exact other (Call.mk.inj same).2

theorem issued_kept {u : State ι κ} {c : κ} {pc : ClientPc} (client : u.client = s.client)
    (out : u.out = s.out) (before : (s.client c).unsent = none) (after : pc.unsent = none) (d : κ) :
    (issued (setPc u c pc) d).filter (MakeMsg p ·) = (issued s d).filter (MakeMsg p ·) := by
  rw [issued_congr client out, issued_goOn before after]

theorem issued_decide_filter {u : State ι κ} {c : κ} {call : Call} (client : u.client = s.client)
    (out : u.out = s.out) (before : (s.client c).unsent = none) (d : κ) :
    (issued (setPc u c (.send call)) d).filter (MakeMsg p ·) =
      (issued s d).filter (MakeMsg p ·) ++ if c = d then [call.msg].filter (MakeMsg p ·) else [] := by
  rw [issued_congr client out, issued_decide before]
  by_cases here : c = d
  · subst here
    rw [update_self, List.filter_append, if_pos rfl]
  · rw [update_of_ne (Ne.symm here), if_neg here, List.append_nil]

theorem not_makeMsg {call : Call} (other : ¬(call.path = p ∧ ∃ m, call.op = .make m)) :
    [call.msg].filter (MakeMsg p ·) = [] := by
  rw [List.filter_eq_nil_iff]
  intro m member makes
  rw [List.mem_singleton] at member
  subst member
  obtain ⟨path, opt⟩ := of_decide_eq_true makes
  refine other ⟨path, ?_⟩
  obtain ⟨op, q⟩ := call
  cases op with
  | make m => exact ⟨m, rfl⟩
  | rm | write => simp [Call.msg, Op.optType] at opt

theorem Taken.congr (cache : t.cache = s.cache) : Taken s p → Taken t p := by
  rintro ⟨e, entry, live⟩
  exact ⟨e, (congrFun cache p).trans entry, live⟩

theorem taken_store_of_ne {q : Path} {v : Value} (other : q ≠ p) (h : Taken s p) :
    Taken (store s q v) p := by
  obtain ⟨e, entry, live⟩ := h
  exact ⟨e, (update_of_ne (Ne.symm other) ..).trans entry, live⟩

theorem taken_store {v : Value} (rm : getStatFlag v.stat .rm = false)
    (existedinDfs : getStatFlag v.stat .existedinDfs = false) : Taken (store s p v) p :=
  ⟨⟨s.clock, v⟩, update_self .., rm, existedinDfs⟩

theorem taken_swap {q : Path} {v : Value} {e : Entry} (copy : CopyOf s.cache s.clock q v e.cas)
    (entry : s.cache q = some e) (h : Taken s p) : Taken (store s q v) p := by
  by_cases here : q = p
  · subst here
    obtain ⟨e', entry', rm, existedinDfs⟩ := h
    cases Option.some.inj (entry.symm.trans entry')
    have alike := copy.2 e entry rfl
    exact taken_store (alike.rm.trans rm) (alike.existedinDfs.trans existedinDfs)
  · exact taken_store_of_ne here h

theorem deed_local {env : Env} {c : κ} {pc next : ClientPc} (at_pc : s.client c = pc)
    (goes : Local cfg s env pc next) : deed (ι := ι) p s (.client c env) = none := by
  cases goes with
  | addExists there =>
      simp only [deed, at_pc]
      rw [if_neg]
      rintro ⟨rfl, named, absent⟩
      rcases there with root | cached
      · exact named root
      · exact cached (by simpa using absent)
  | @rmExists q v cas e entry stale =>
      simp only [deed, at_pc, dmkvCas, entry, if_neg stale]
      split <;> rfl
  | _ => simp [deed, at_pc]

theorem Claims.quiet (k : Claims p s deeds) {u : State ι κ} {c : κ} {pc : ClientPc}
    (taken : Taken s p → Taken u p) (returned : u.returned = s.returned) (client : u.client = s.client)
    (out : u.out = s.out) (before : (s.client c).outcome = none) (unsent : (s.client c).unsent = none)
    (after : ∀ x, pc.outcome = some x → x.2 = -1) (sends : pc.unsent = none) :
    Claims p (setPc u c pc) (deeds ++ (none : Option (Deed κ)).toList) := by
  refine k.silent taken (fun d => wins_goOn returned client before (fun x result both => ?_) d) fun d => ?_
  · rw [after x result] at both
    exact absurd both.2 (by decide)
  · exact issued_kept client out unsent sends d

theorem Claims.decide (k : Claims p s deeds) {u : State ι κ} {c : κ} {call : Call}
    (taken : Taken s p → Taken u p) (returned : u.returned = s.returned) (client : u.client = s.client)
    (out : u.out = s.out) (before : (s.client c).outcome = none) (unsent : (s.client c).unsent = none)
    (other : ¬(call.path = p ∧ ∃ m, call.op = .make m)) :
    Claims p (setPc u c (.send call)) (deeds ++ (none : Option (Deed κ)).toList) := by
  refine k.silent taken (fun d => wins_goOn returned client before (fun x result both => ?_) d) fun d => ?_
  · cases result
    obtain ⟨m, same⟩ := both.1
    exact other ⟨congrArg Call.path same, m, congrArg Call.op same⟩
  · rw [issued_decide_filter client out unsent, not_makeMsg other, ite_self, List.append_nil]

theorem Claims.server (k : Claims p s deeds) (taken : Taken s p → Taken t p)
    (returned : t.returned = s.returned) (client : t.client = s.client) (out : t.out = s.out) :
    Claims p t (deeds ++ (none : Option (Deed κ)).toList) := by
  refine k.silent taken (wins_congr returned client) fun c => ?_
  simp only [issued, client, out]

theorem Claims.win (k : Claims p s deeds) {c : κ} {m : Make} {env : Env} {pc : ClientPc}
    (free : ¬Taken s p) (before : (s.client c).outcome = none) (unsent : (s.client c).unsent = none)
    (after : pc = .send ⟨.make m, p⟩ ∨ pc = .returning ⟨.make m, p⟩ 0) :
    Claims p (setPc (store s p (newValue env m)) c pc)
      (deeds ++ (some (Deed.claim c m)).toList) := by
  obtain ⟨rm, existedinDfs⟩ := newValue_flags env m
  refine k.claim free (taken_store (s := s) rm existedinDfs) (fun d => ?_) fun d => ?_
  · have made : Call.MakesAt p ⟨.make m, p⟩ := ⟨m, rfl⟩
    refine (wins_setPc (s := s) rfl rfl before d).trans ?_
    rcases after with rfl | rfl <;> simp [ClientPc.outcome, Call.result, made]
  · rcases after with rfl | rfl
    · refine ⟨_, issued_decide_filter (s := s) rfl rfl unsent d, ?_⟩
      split
      · exact List.filter_sublist
      · exact List.Sublist.refl _
    · refine ⟨[], ?_, List.nil_sublist _⟩
      rw [List.append_nil]
      exact issued_kept (s := s) rfl rfl unsent rfl d

theorem rm_decided {u : State ι κ} {c : κ} {q : Path} {val : Value} {cas : Nat}
    (at_pc : s.client c = .rmCas q val cas) (returned : u.returned = s.returned) (client : u.client = s.client)
    (out : u.out = s.out) :
    (∀ d, wins p (setPc u c (.send ⟨.rm, q⟩)) d = wins p s d) ∧
      ∀ d, (issued (setPc u c (.send ⟨.rm, q⟩)) d).filter (MakeMsg p ·) = (issued s d).filter (MakeMsg p ·) := by
  constructor
  · refine wins_goOn returned client (by rw [at_pc]; rfl) fun x result both => ?_
    cases result
    obtain ⟨m, same⟩ := both.1
    cases same
  · intro d
    have other : ¬((Call.mk .rm q).path = p ∧ ∃ m, (Call.mk .rm q).op = .make m) := by
      rintro ⟨-, m, is⟩
      cases is
    rw [issued_decide_filter client out (by rw [at_pc]; rfl), not_makeMsg other, ite_self, List.append_nil]

theorem Claims.move {e : Event κ ι} (k : Claims p s deeds) (v : Versioned s)
    (w : Within cfg (NotFast p) s) (ok : Unclaimed p s e) (move : Move cfg s e t) :
    Claims p t (deeds ++ (deed p s e).toList) := by
  have at_client : ∀ {c pc}, s.client c = pc → CopyOk s.cache s.clock pc :=
    fun at_pc => at_pc ▸ v.client _
  cases move with
  | @start c call free =>
      exact k.quiet id rfl rfl rfl (by rw [free]; rfl) (by rw [free]; rfl) (fun x => beginCall_outcome)
        (beginCall_unsent _ _)
  | goOn at_pc goes =>
      rw [deed_local at_pc goes]
      exact k.quiet id rfl rfl rfl (at_pc ▸ goes.outcome.1) (at_pc ▸ goes.unsent.1) goes.outcome.2
        goes.unsent.2
  | parentAdd at_pc =>
      simp only [deed, at_pc]
      exact k.quiet (Taken.congr rfl) rfl rfl rfl (by rw [at_pc]; rfl) (by rw [at_pc]; rfl)
        (fun x => afterParent_outcome) (afterParent_unsent _ _)
  | @loadAdd c env l val at_pc key absent =>
      simp only [deed, at_pc]
      refine k.quiet (fun h => ?_) rfl rfl rfl (by rw [at_pc]; rfl) (by rw [at_pc]; rfl) (fun x result => ?_)
        (Load.next_unsent _)
      · by_cases here : l.target = p
        · obtain ⟨e, entry, -⟩ := h
          rw [← here, absent] at entry
          cases entry
        · exact taken_store_of_ne here h
      · cases l <;> cases result
  | @childCas c env m q val cas e at_pc entry same =>
      subst same
      simp only [deed, at_pc]
      refine k.quiet (taken_swap (at_client at_pc) entry) rfl rfl rfl (by rw [at_pc]; rfl)
        (by rw [at_pc]; rfl) (fun x result => ?_) rfl
      cases result
  | @add c env m q at_pc key absent =>
      simp only [deed, at_pc]
      by_cases here : q = p
      · subst here
        rw [if_pos ⟨rfl, key, by rw [absent]; rfl⟩]
        refine k.win ?_ (by rw [at_pc]; rfl) (by rw [at_pc]; rfl) (.inl rfl)
        rintro ⟨e, entry, -⟩
        rw [absent] at entry
        cases entry
      · rw [if_neg fun h => here h.1]
        exact k.decide (taken_store_of_ne here) rfl rfl rfl (by rw [at_pc]; rfl) (by rw [at_pc]; rfl)
          fun h => here h.1
  | @addAgain c env buf q val e at_pc entry live =>
      simp only [deed, at_pc]
      refine k.decide id rfl rfl rfl (by rw [at_pc]; rfl) (by rw [at_pc]; rfl) fun h => ?_
      have runs : (s.client c).running = some ⟨.make (.createWrite buf), q⟩ := by rw [at_pc]; rfl
      exact w.running runs h.1 buf rfl
  | @addSet c env m q val at_pc =>
      obtain ⟨env', rfl⟩ := at_client at_pc
      simp only [deed, at_pc]
      by_cases here : q = p
      · subst here
        rw [if_pos rfl]
        refine k.win (ok m _ at_pc) (by rw [at_pc]; rfl) (by rw [at_pc]; rfl) ?_
        cases m with
        | mkdir => exact .inr rfl
        | create | createWrite => exact .inl rfl
      · rw [if_neg here]
        have before : (s.client c).outcome = none := by rw [at_pc]; rfl
        have unsent : (s.client c).unsent = none := by rw [at_pc]; rfl
        refine k.silent (taken_store_of_ne here) (fun d => ?_) fun d => ?_
        · refine wins_goOn rfl rfl before (fun x result both => ?_) d
          have call : x.1 = ⟨.make m, q⟩ := by cases m <;> (cases result; rfl)
          rw [call] at both
          exact not_makesAt here both.1
        · cases m with
          | mkdir => exact issued_kept (s := s) rfl rfl unsent rfl d
          | create | createWrite =>
              refine (issued_decide_filter (s := s) rfl rfl unsent d).trans ?_
              rw [not_makeMsg fun h => here h.1, ite_self, List.append_nil]
  | @rmCas c env q val cas e at_pc entry same =>
      subst same
      obtain ⟨won, sent⟩ := rm_decided (u := store s q val) (p := p) at_pc rfl rfl rfl
      simp only [deed, at_pc, dmkvCas, entry, if_true]
      by_cases here : q = p
      · rw [if_pos here]
        exact k.removal won sent
      · rw [if_neg here]
        exact k.silent (taken_store_of_ne here) won sent
  | @rmLate c env q val cas at_pc absent =>
      obtain ⟨won, sent⟩ := rm_decided (u := s) (p := p) at_pc rfl rfl rfl
      simp only [deed, at_pc, dmkvCas, absent]
      by_cases here : q = p
      · rw [if_pos here]
        exact k.removal won sent
      · rw [if_neg here]
        exact k.silent id won sent
  | @writeCas c env q buf offset val cas e at_pc entry same =>
      subst same
      simp only [deed, at_pc]
      refine k.decide (taken_swap (at_client at_pc) entry) rfl rfl rfl (by rw [at_pc]; rfl)
        (by rw [at_pc]; rfl) ?_
      rintro ⟨-, m, is⟩
      cases is
  | @send c env call at_pc =>
      simp only [deed, at_pc]
      refine k.silent (Taken.congr rfl) (fun d => ?_) fun d => by rw [issued_send at_pc]
      by_cases here : d = c
      · subst here
        simp [wins, callResults, setPc, at_pc, ClientPc.outcome]
      · simp [wins, callResults, setPc, here]
  | @ret c env call result at_pc =>
      simp only [deed, at_pc]
      refine k.silent (Taken.congr rfl) (fun d => ?_) fun d => ?_
      · by_cases here : d = c
        · subst here
          simp [wins, callResults, setPc, at_pc, ClientPc.outcome]
        · simp [wins, callResults, setPc, here]
      · exact issued_kept (s := s) rfl rfl (by rw [at_pc]; rfl) rfl d
  | take | rmVoid | rmFound | fail | dropWrite | openWrite | writeVoid | writeRead =>
      exact k.server (Taken.congr rfl) rfl rfl rfl
  | @rmDel i env c q pc =>
      refine k.server (fun h => ?_) rfl rfl rfl
      by_cases here : q = p
      · subst here
        exact absurd h (ok c pc)
      · obtain ⟨e, entry, live⟩ := h
        exact ⟨e, (update_of_ne (Ne.symm here) ..).trans entry, live⟩
  | @succeed i env c m dfs pc call =>
      unfold Commit.succeed
      split <;> exact k.server (Taken.congr rfl) rfl rfl rfl
  | @writeBack i env c q n data pc =>
      unfold Commit.writeBack
      split <;> exact k.server (Taken.congr rfl) rfl rfl rfl

theorem Claims.initial (h : Initial cfg s) : Claims p s [] where
  once := .nil
  taken last := by
    obtain ⟨d, last, -⟩ := last
    cases last
  won c := by simp [wins, callResults, h.returned c, h.client c, ClientPc.outcome]
  messages c := by simp [issued, h.out c, h.client c, ClientPc.unsent]

/-- As long as nobody sets or deletes a creator's entry that is not flagged, between two removals of
the path at most one create or mkdir gets it. The calls that do are those that return 0, and no other
sends a message. -/
theorem one_creator_wins {x : State ι κ × List (Deed κ)}
    (h : ((system cfg).recording (deed p)).Reachable (fun x e => Unclaimed p x.1 e) x) :
    x.2.IsChain (fun d d' => ¬(d.IsClaim ∧ d'.IsClaim)) ∧
    (∀ c, wins p x.1 c = x.2.filterMap (Deed.made p c)) ∧
    ∀ c, ((issued x.1 c).filter (MakeMsg p ·)).Sublist ((x.2.filterMap (Deed.made p c)).map Call.msg) := by
  obtain ⟨-, claims⟩ := @System.Reachable.recorded _ _ (system cfg) (Unclaimed p) _ (deed p) (Claims p)
    (fun s => Claims.initial) (fun s deeds e t reach claims ok step => claims.move (versioned_of_reachable reach)
      (within_of_reachable (fun _ _ => Unclaimed.calls) reach) ok (move_of_step step)) x h
  exact ⟨claims.once, claims.won, claims.messages⟩

instance (s : State ι κ) (p : Path) : Decidable (Taken s p) :=
  decidable_of_iff ((s.cache p).any (fun e =>
    !getStatFlag e.value.stat .rm && !getStatFlag e.value.stat .existedinDfs) = true) (by
      simp [Taken, Option.any_eq_true])

def ClientPc.setsAt (p : Path) : ClientPc → Bool
  | .addSet _ q _ => q = p
  | _ => false

theorem setsAt_addSet (p : Path) (m : Make) (v : Value) : (ClientPc.addSet m p v).setsAt p = true :=
  decide_eq_true rfl

def ServerPc.deletesAt (p : Path) : ServerPc κ → Bool
  | .rmDel _ q => q = p
  | _ => false

def UnclaimedNow (p : Path) (s : State ι κ) (e : Event κ ι) : Prop :=
  Calls (OnPath p) s e ∧ match e with
    | .client c _ => ¬((s.client c).setsAt p ∧ Taken s p)
    | .server i _ => ¬((s.server i).deletesAt p ∧ Taken s p)
    | .start _ _ | .take _ => True

instance (p : Path) (s : State ι κ) (e : Event κ ι) : Decidable (UnclaimedNow p s e) :=
  match e with
  | .start _ _ | .take _ => inferInstanceAs (Decidable (_ ∧ True))
  | .client c _ => inferInstanceAs (Decidable (_ ∧ ¬((s.client c).setsAt p ∧ Taken s p)))
  | .server i _ => inferInstanceAs (Decidable (_ ∧ ¬((s.server i).deletesAt p ∧ Taken s p)))

theorem UnclaimedNow.unclaimed {e : Event κ ι} (h : UnclaimedNow p s e) : Unclaimed p s e := by
  cases e with
  | start c call =>
      obtain ⟨⟨is, -⟩, -⟩ := h
      rintro - buf
      rcases is with is | is <;> simp [is]
  | client c env =>
      intro m v at_pc taken
      exact h.2 ⟨by rw [at_pc]; exact setsAt_addSet p m v, taken⟩
  | take => trivial
  | server i env =>
      intro c pc taken
      exact h.2 ⟨by rw [pc]; exact decide_eq_true rfl, taken⟩

def twoClients : Config Unit Bool := .oneNode Bool [['w']]

def callBy (c : Bool) (op : Op) (steps : Nat) : List (Event Bool Unit) :=
  .start c ⟨op, exampleFile⟩ :: List.replicate steps (.client c .zero)

def bothSet : List (Event Bool Unit) :=
  let client c := Event.client c .zero
  List.flatten [callBy false (.make .create) 3, callBy false .rm 4, callBy false (.make .create) 2,
    callBy true (.make .create) 2, List.replicate 3 (client false), List.replicate 3 (client true)]

theorem two_creators_win :
    ∃ x : State Unit Bool × List (Deed Bool),
      ((system twoClients).recording (deed exampleFile)).Reachable
        (fun x e => Calls (OnPath exampleFile) x.1 e) x ∧
      x.2 = [.claim false .create, .removal false, .claim false .create, .claim true .create] ∧
      x.1.returned true = [(⟨.make .create, exampleFile⟩, 0)] ∧
      x.1.returned false = [(⟨.make .create, exampleFile⟩, 0), (⟨.rm, exampleFile⟩, 0),
        (⟨.make .create, exampleFile⟩, 0)] ∧
      x.1.out true = [⟨.create, exampleFile⟩] := by
  obtain ⟨x, reach, h⟩ := System.exists_reachable ((system twoClients).recording (deed exampleFile))
    (fun x e => Calls (OnPath exampleFile) x.1 e) (s := (initialState twoClients .zero, []))
    ⟨initial_initialState _ _ (List.cons_ne_nil _ _), rfl⟩ bothSet
    (fun x => decide (x.2 = [.claim false .create, .removal false, .claim false .create,
        .claim true .create] ∧ x.1.returned true = [(⟨.make .create, exampleFile⟩, 0)] ∧
      x.1.returned false = [(⟨.make .create, exampleFile⟩, 0), (⟨.rm, exampleFile⟩, 0),
        (⟨.make .create, exampleFile⟩, 0)] ∧ x.1.out true = [⟨.create, exampleFile⟩])) rfl
  exact ⟨x, reach, of_decide_eq_true h⟩

def oneSets : List (Event Bool Unit) :=
  List.flatten [callBy false (.make .create) 3, callBy false .rm 4, callBy false (.make .create) 5,
    callBy true (.make .create) 3]

theorem one_creator_wins_run :
    ∃ x : State Unit Bool × List (Deed Bool),
      ((system twoClients).recording (deed exampleFile)).Reachable (fun x e => Unclaimed exampleFile x.1 e) x ∧
      x.2 = [.claim false .create, .removal false, .claim false .create] ∧
      wins exampleFile x.1 true = [] := by
  obtain ⟨x, reach, h⟩ := System.exists_reachable ((system twoClients).recording (deed exampleFile))
    (fun x e => UnclaimedNow exampleFile x.1 e) (s := (initialState twoClients .zero, []))
    ⟨initial_initialState _ _ (List.cons_ne_nil _ _), rfl⟩ oneSets
    (fun x => decide (x.2 = [.claim false .create, .removal false, .claim false .create])) rfl
  have deeds := of_decide_eq_true h
  have unclaimed := reach.mono fun _ _ _ => UnclaimedNow.unclaimed
  obtain ⟨-, won, -⟩ := one_creator_wins unclaimed
  refine ⟨x, unclaimed, deeds, ?_⟩
  rw [won, deeds]
  rfl

end Pacon.Commit
