import Pacon.Region.Model
import Pacon.Server.Rename

/-!
# Nothing outside the workspace

Two ways lead out of the workspace: a rename onto a path outside, where `load_to_pacon` says -1 as it
does for a path that is missing, and the root of a joined region, which the table of checked parents
takes for one of its own. Without them, and with paths that the server reads as the clients wrote them,
every path that is cached, sent or changed for a request lies in the workspace.
-/

set_option linter.unusedSectionVars false

namespace Pacon.Region
open Lib Function Commit Calls Server

variable {ι κ : Type} [DecidableEq ι] [DecidableEq κ] {cfg : Config ι κ}

structure Sendable (cfg : Config ι κ) (p : Path) : Prop where
  inside : cfg.root <:+ p
  named : Named p
  noColon : ':' ∉ text p

def target : ServerPc κ → Option Path
  | .recv => none
  | .attempt _ m | .retry _ m => some m.path
  | .rmGet _ p | .rmDel _ p | .writeOpen _ p | .writeGet _ p _ | .writeBack _ p _ _ | .overrun _ p => some p

structure Confined (cfg : Config ι κ) (joined : κ → List Path) (s : Commit.State ι κ) : Prop where
  cache : ∀ p, s.cache p ≠ none → cfg.root <:+ p
  out : ∀ c, ∀ m ∈ s.out c, Sendable cfg m.path
  table : ∀ c q, s.table c q = true → cfg.root <:+ q ∨ q ∈ joined c
  server : ∀ i, ∀ p ∈ target (s.server i), cfg.root <:+ p

variable {joined : κ → List Path} {s t u : Commit.State ι κ} {c : κ} {w : World} {d : Disk} {p q : Path}
  {ret : Int}

theorem inside_of_inWorkspace (namedRoot : Named cfg.root) (named : Named p) (inside : inWorkspace cfg p = true) :
    cfg.root <:+ p :=
  suffix_of_childCmpNew namedRoot named (of_decide_eq_true inside)

theorem state_of_run {o : Option (Int × Commit.State ι κ)} {x : Int × Commit.State ι κ} (is : o = some x)
    (run : o = some (ret, t)) : t = x.2 :=
  congrArg Prod.snd (Option.some.inj (run.symm.trans is))

namespace Confined

theorem frame (h : Confined cfg joined s) (cache : ∀ p, t.cache p ≠ none → s.cache p ≠ none ∨ cfg.root <:+ p)
    (out : t.out = s.out) (table : t.table = s.table) (server : t.server = s.server) : Confined cfg joined t where
  cache p there := (cache p there).elim (h.cache p) id
  out := by rw [out]; exact h.out
  table := by rw [table]; exact h.table
  server := by rw [server]; exact h.server

theorem dfs (h : Confined cfg joined s) (dfs : Path → Option Node) : Confined cfg joined { s with dfs := dfs } :=
  h.frame (fun _ there => .inl there) rfl rfl rfl

theorem unlinked (h : Confined cfg joined s) (names : Path → Bool) (dfs : Path → Option Node) :
    Confined cfg joined (Commit.unlinked s names dfs) :=
  h.frame (fun _ there => .inl there) rfl rfl rfl

theorem store (h : Confined cfg joined s) (inside : cfg.root <:+ p) (v : Value) :
    Confined cfg joined (Commit.store s p v) := by
  refine h.frame (fun q there => ?_) rfl rfl rfl
  by_cases here : q = p
  · exact .inr (here ▸ inside)
  · rw [store_cache, update_of_ne here] at there
    exact .inl there

theorem del (h : Confined cfg joined s) (p : Path) : Confined cfg joined (dmkvDel s p) := by
  refine h.frame (fun q there => .inl fun none => ?_) rfl rfl rfl
  by_cases here : q = p
  · rw [here] at there
    exact there (update_self ..)
  · rw [dmkvDel_cache s here] at there
    exact there none

theorem add (h : Confined cfg joined s) (inside : cfg.root <:+ p) (v : Value) :
    Confined cfg joined ((dmkvAdd s p v).getD s) := by
  cases added : dmkvAdd s p v with
  | none => exact h
  | some t =>
      obtain ⟨-, -, rfl⟩ := dmkvAdd_some added
      exact h.store inside v

theorem memo (h : Confined cfg joined s) (c : κ) (inside : cfg.root <:+ q) :
    Confined cfg joined (addToDirCheckTable s c q) where
  cache := h.cache
  out := h.out
  table c' q' checked := by
    rcases (checked_iff s c c' q q').mp checked with before | ⟨-, rfl⟩
    · exact h.table c' q' before
    · exact .inl inside
  server := h.server

theorem send (h : Confined cfg joined s) (c : κ) (opt : OptType) (sendable : Sendable cfg p) :
    Confined cfg joined (addToMq s c ⟨opt, p⟩).2 := by
  have table : (addToMq s c ⟨opt, p⟩).2.table = s.table := by unfold addToMq; split <;> rfl
  have cache : (addToMq s c ⟨opt, p⟩).2.cache = s.cache := by unfold addToMq; split <;> rfl
  have server : (addToMq s c ⟨opt, p⟩).2.server = s.server := by unfold addToMq; split <;> rfl
  refine ⟨by rw [cache]; exact h.cache, fun c' m member => ?_, by rw [table]; exact h.table,
    by rw [server]; exact h.server⟩
  rcases mem_addToMq member with before | rfl
  · exact h.out c' m before
  · exact sendable

theorem load (h : Confined cfg joined s) (namedRoot : Named cfg.root) (named : Named q) (w : World) :
    Confined cfg joined (loadToPacon cfg s w q).2 := by
  unfold loadToPacon
  split
  · rename_i inside
    split
    · exact h
    · exact h.add (inside_of_inWorkspace namedRoot named inside) _
  · exact h

theorem getOrLoad (h : Confined cfg joined s) (namedRoot : Named cfg.root) (named : Named q) (w : World) :
    Confined cfg joined (Calls.getOrLoad cfg s w q).2 := by
  unfold Calls.getOrLoad
  split
  · exact h
  · exact h.load namedRoot named w

theorem loadChildren (h : Confined cfg joined s) (namedRoot : Named cfg.root) (named : Named q) (w : World)
    {names : List CString} (areNames : ∀ name ∈ names, IsName name) :
    Confined cfg joined (Calls.loadChildren cfg w q s names).2 := by
  induction names generalizing s with
  | nil => exact h
  | cons name names ih =>
      have namedChild : Named (name :: q) := List.forall_mem_cons.mpr ⟨areNames name List.mem_cons_self, named⟩
      have first := h.load namedRoot namedChild w
      have later : ∀ name ∈ names, IsName name := fun other member => areNames other (List.mem_cons_of_mem _ member)
      unfold Calls.loadChildren
      split
      · exact h
      · split
        · rename_i load
          rw [load] at first
          exact ih first later
        · rename_i load
          rw [load] at first
          exact first

theorem entryCheck (h : Confined cfg joined s) (namedRoot : Named cfg.root) (named : Named q)
    (areNames : ∀ name ∈ w.entries, IsName name) (inside : cfg.root <:+ q) {e : Entry}
    (check : EntryCheck cfg s c w q e ret t) : Confined cfg joined t := by
  have children := h.loadChildren namedRoot named w areNames
  cases check with
  | file => exact h
  | failed load =>
      rw [load] at children
      exact children
  | loaded load =>
      rw [load] at children
      exact (children.store inside _).memo c inside
  | known => exact h.memo c inside

theorem checkParentDir (h : Confined cfg joined s) (namedRoot : Named cfg.root) (named : Named p)
    (areNames : ∀ name ∈ w.entries, IsName name) (own : p.tail ∈ joined c → cfg.root <:+ p.tail)
    (check : Calls.checkParentDir cfg s c w p = some (ret, t)) :
    Confined cfg joined t ∧ (ret = 0 → p ≠ [] → cfg.root <:+ p.tail) := by
  have namedTail : Named p.tail := fun name member => named name (List.mem_of_mem_tail member)
  have parent := h.getOrLoad namedRoot namedTail w
  cases parentCheck_of_run check with
  | root none => exact ⟨h, fun _ other => absurd none other⟩
  | long => exact ⟨h, fun zero => absurd zero (by decide)⟩
  | checked checked => exact ⟨h, fun _ _ => (h.table c p.tail checked).elim id own⟩
  | missing load =>
      rw [load] at parent
      exact ⟨parent, fun zero => absurd zero (by decide)⟩
  | @entry u _ e _ _ load there check =>
      rw [load] at parent
      have inside : cfg.root <:+ p.tail := parent.cache p.tail (by rw [there]; exact Option.some_ne_none e)
      exact ⟨parent.entryCheck namedRoot namedTail areNames inside check, fun _ _ => inside⟩

theorem addNew (h : Confined cfg joined s) {m : Make} {overMarked overLive : Commit.State ι κ → Int × Commit.State ι κ}
    (sendable : p ≠ [] → Sendable cfg p)
    (marked : ∀ u, cfg.root <:+ p → Confined cfg joined u → Confined cfg joined (overMarked u).2)
    (live : ∀ u, cfg.root <:+ p → Confined cfg joined u → Confined cfg joined (overLive u).2) :
    Confined cfg joined (Calls.addNew s c w m p overMarked overLive).2 := by
  unfold Calls.addNew
  split
  · rename_i t added
    obtain ⟨-, other, rfl⟩ := dmkvAdd_some added
    exact (h.store (sendable other).inside _).send c _ (sendable other)
  · split
    · exact h
    · rename_i e there
      have inside : cfg.root <:+ p := h.cache p (by rw [there]; exact Option.some_ne_none e)
      split
      · exact marked _ inside (h.store inside _)
      · exact live _ inside h

theorem create (h : Confined cfg joined s) (namedRoot : Named cfg.root) (named : Named p) (noColon : ':' ∉ text p)
    (areNames : ∀ name ∈ w.entries, IsName name) (own : p.tail ∈ joined c → cfg.root <:+ p.tail) {m : Make}
    (run : Calls.create cfg s c w p m = some (ret, t)) : Confined cfg joined t := by
  obtain ⟨ret₁, t₁, check⟩ := create_checked run
  have after : Confined cfg joined t₁ ∧ (ret₁ = 0 → p ≠ [] → cfg.root <:+ p.tail) := by
    unfold checked at check
    split at check
    · exact h.checkParentDir namedRoot named areNames own check
    · cases check
      exact ⟨h, fun zero => absurd zero (by decide)⟩
  by_cases zero : ret₁ = 0
  · subst zero
    by_cases small : Small m
    · have result := Option.some.inj ((create_adds check small).symm.trans run)
      have sendable : p ≠ [] → Sendable cfg p := fun other =>
        ⟨(after.2 rfl other).trans (List.tail_suffix p), named, noColon⟩
      have send : ∀ u, cfg.root <:+ p → Confined cfg joined u → Confined cfg joined (addToMq u c ⟨.create, p⟩).2 :=
        fun u inside confined => confined.send c .create ⟨inside, named, noColon⟩
      rw [state_of_run (create_adds check small) run]
      refine after.1.addNew sendable ?_ ?_
      · cases m with
        | mkdir => exact fun u _ confined => confined
        | create | createWrite buf => exact send
      · cases m with
        | mkdir | create => exact fun u _ confined => confined
        | createWrite buf => exact send
    · rw [state_of_run (create_large check small) run]
      exact after.1
  · rw [state_of_run (create_refused check zero) run]
    exact after.1

theorem rm (h : Confined cfg joined s) (namedRoot : Named cfg.root) (named : Named p) (noColon : ':' ∉ text p)
    (run : paconRm cfg s c w p = some (ret, t)) : Confined cfg joined t := by
  have loaded := h.getOrLoad namedRoot named w
  unfold paconRm at run
  split at run
  · split at run
    · rename_i u load
      rw [load] at loaded
      split at run
      · cases run
      · rename_i e there
        have inside : cfg.root <:+ p := loaded.cache p (by rw [there]; exact Option.some_ne_none e)
        rw [state_of_run rfl run]
        exact (loaded.store inside _).send c .rm ⟨inside, named, noColon⟩
    · rename_i load
      rw [load] at loaded
      cases run
      exact loaded
  · cases run
    exact h

theorem viaJoined (h : Confined cfg joined s) (w : World) : Confined cfg joined (Calls.viaJoined s w).2 := by
  unfold Calls.viaJoined
  split
  · exact h
  · exact h.dfs _

theorem getattr (h : Confined cfg joined s) (namedRoot : Named cfg.root) (named : Named p) :
    Confined cfg joined (paconGetattr cfg s w p).2 := by
  unfold paconGetattr
  split
  · split
    · split
      · rename_i inside
        split
        · exact h.add (inside_of_inWorkspace namedRoot named inside) _
        · exact h.viaJoined w
      · exact h.viaJoined w
    · split <;> exact h
  · exact h

theorem openFile (h : Confined cfg joined s) (namedRoot : Named cfg.root) (named : Named p)
    {flags : Evict.OpenFlags} {file : PFile} {x : Int × Commit.State ι κ × PFile}
    (run : paconOpen cfg s w p flags file = some x) : Confined cfg joined x.2.1 := by
  unfold paconOpen at run
  split at run
  swap
  · cases run
    exact h
  dsimp only at run
  split at run
  · split at run
    · rename_i inside
      split at run
      · cases run
        exact h
      · cases run
        exact h.dfs _
      · rename_i dfs node _ _
        obtain ⟨t, added, rfl⟩ := Option.map_eq_some_iff.mp run
        obtain ⟨-, -, rfl⟩ := dmkvAdd_some added
        exact (h.dfs dfs).store (inside_of_inWorkspace namedRoot named inside) _
    · have via := h.viaJoined w
      split at run
      all_goals
        rename_i via_eq
        rw [via_eq] at via
        cases run
        exact via
  · rename_i e there
    have inside : cfg.root <:+ p := h.cache p (by rw [there]; exact Option.some_ne_none e)
    split at run
    · split at run
      · cases run
        exact h
      · rename_i dfs _
        cases run
        exact (h.dfs dfs).store inside _
    · cases run
      exact h

variable {es : Listing CString} {old new : Path} {mesg : CString}

theorem delKey (h : Confined cfg joined s) (p : Path) : Confined cfg joined ((Server.delKey d s p).getD s) := by
  cases del : Server.delKey d s p with
  | none => exact h
  | some t =>
      obtain ⟨-, rfl⟩ := (delKey_some s p).mp del
      exact h.del p

theorem rmdirCall {x : Commit.State ι κ × Bool} (h : Confined cfg joined x.1) :
    Confined cfg joined (Server.rmdirCall d q x).1 := by
  unfold Server.rmdirCall
  split
  · exact h.unlinked _ _
  · exact h

theorem delLoop (h : Confined cfg joined s) {x : Commit.State ι κ × Bool}
    (loop : Server.delLoop d q es s = some x) : Confined cfg joined x.1 := by
  induction es generalizing q s x with
  | nil =>
      cases loop
      exact h
  | file name rest ih =>
      unfold Server.delLoop at loop
      dsimp only at loop
      split at loop
      · cases loop
        exact h.delKey _
      · exact ih ((h.delKey _).unlinked _ _) loop
  | dir name sub rest ihSub ihRest =>
      unfold Server.delLoop at loop
      dsimp only at loop
      split at loop
      · cases loop
      split at loop
      · cases loop
      rename_i y inside
      obtain ⟨z, later, rfl⟩ := Option.map_eq_some_iff.mp loop
      have confined := ihRest (ihSub (h.delKey _) inside).rmdirCall later
      exact confined

theorem flushLoop (h : Confined cfg joined s) (loop : Server.flushLoop d q es s = some t) :
    Confined cfg joined t := by
  induction es generalizing q s t with
  | nil =>
      cases loop
      exact h
  | file name rest ih => exact ih (h.delKey _) loop
  | dir name sub rest ihSub ihRest =>
      unfold Server.flushLoop at loop
      split at loop
      · cases loop
      obtain ⟨u, inside, later⟩ := Option.bind_eq_some_iff.mp loop
      exact ihRest (ihSub (h.delKey _) inside) later

theorem renameLoop (h : Confined cfg joined s) (loop : Server.renameLoop d q es s = some t) :
    Confined cfg joined t := by
  induction es generalizing q s t with
  | nil =>
      cases loop
      exact h
  | file name rest ih =>
      unfold Server.renameLoop at loop
      split at loop
      · cases loop
        exact h
      · rename_i u del
        obtain ⟨-, rfl⟩ := (delKey_some s _).mp del
        exact ih (h.del _) loop
  | dir name sub rest ihSub ihRest =>
      unfold Server.renameLoop at loop
      split at loop
      · cases loop
        exact h
      split at loop
      · cases loop
      rename_i u del _
      obtain ⟨-, rfl⟩ := (delKey_some s _).mp del
      obtain ⟨v, inside, later⟩ := Option.bind_eq_some_iff.mp loop
      exact ihRest (ihSub (h.del _) inside) later

theorem traversedirDmkvDel (h : Confined cfg joined s) (walk : Server.traversedirDmkvDel d q s = some t) :
    Confined cfg joined t := by
  unfold Server.traversedirDmkvDel at walk
  split at walk
  · obtain ⟨x, loop, rfl⟩ := Option.map_eq_some_iff.mp walk
    exact (h.delLoop loop).rmdirCall
  · cases walk

theorem renameUpdateDc {path : CString} (h : Confined cfg joined s) (update : Server.renameUpdateDc d path s = some t) :
    Confined cfg joined t := by
  unfold Server.renameUpdateDc at update
  split at update
  · cases update
    exact h
  split at update
  · obtain ⟨u, walk, rfl⟩ := Option.map_eq_some_iff.mp update
    unfold traversedirDmkvRename at walk
    split at walk
    · have walked := h.renameLoop walk
      split
      · exact walked
      · exact walked.unlinked _ _
    · cases walk
  · cases update

theorem commitToFsBarrier (h : Confined cfg joined s) (commit : Server.commitToFsBarrier d mesg s = some (ret, t)) :
    Confined cfg joined t := by
  unfold Server.commitToFsBarrier at commit
  split at commit
  · cases commit
  split at commit
  · obtain ⟨u, walk, result⟩ := Option.map_eq_some_iff.mp commit
    cases result
    exact h.traversedirDmkvDel walk
  · cases commit
    exact h
  · cases commit
    exact h
  · obtain ⟨u, walk, result⟩ := Option.map_eq_some_iff.mp commit
    cases result
    exact h.renameUpdateDc walk
  · obtain ⟨u, walk, result⟩ := Option.map_eq_some_iff.mp commit
    cases result
    unfold traversedirDmkvFlush at walk
    split at walk
    · exact h.flushLoop walk
    · cases walk
  · cases commit
    exact h

end Confined

theorem rpc_cases {message : Message.Formatted} (run : addToLocalRpc (listenLocalRpc d) s message = some (ret, t)) :
    t = s ∨ ∃ mesg a, message.sent = some mesg ∧ commitToFsBarrier d mesg s = some (a, t) := by
  unfold addToLocalRpc at run
  split at run
  · cases run
    exact .inl rfl
  · rename_i mesg sent
    obtain ⟨x, served, result⟩ := Option.map_eq_some_iff.mp run
    unfold listenLocalRpc at served
    split at served
    · cases served
    · rename_i mesg' received
      have same : mesg' = mesg := by
        unfold Message.received at received
        split at received
        · exact (Option.some.inj received).symm
        · cases received
      subst same
      obtain ⟨y, commit, rfl⟩ := Option.map_eq_some_iff.mp served
      exact .inr ⟨mesg', y.1, sent, by rw [commit, ← show y.2 = t from congrArg Prod.snd result]⟩

theorem Confined.rpc {message : Message.Formatted} (h : Confined cfg joined s)
    (run : addToLocalRpc (listenLocalRpc d) s message = some (ret, t)) : Confined cfg joined t := by
  rcases rpc_cases run with rfl | ⟨mesg, a, -, commit⟩
  · exact h
  · exact h.commitToFsBarrier commit

def ChangesInside (cfg : Config ι κ) (s t : Commit.State ι κ) : Prop := ∀ p, t.dfs p ≠ s.dfs p → cfg.root <:+ p

theorem ChangesInside.of_eq (same : t.dfs = s.dfs) : ChangesInside cfg s t :=
  fun p changed => absurd (congrFun same p) changed

theorem ChangesInside.after (load : t.dfs = s.dfs) (changes : ChangesInside cfg t u) : ChangesInside cfg s u := by
  intro p changed
  rw [← load] at changed
  exact changes p changed

theorem traversedirDmkvDel_inside (inside : cfg.root <:+ q) (walk : traversedirDmkvDel d q s = some t) :
    ChangesInside cfg s t := by
  intro p changed
  refine inside.trans ?_
  by_contra apart
  unfold traversedirDmkvDel at walk
  split at walk
  · obtain ⟨x, loop, rfl⟩ := Option.map_eq_some_iff.mp walk
    have listed : ¬(d.listing q).Has q p := fun has => apart (Listing.below_of_has has).1
    have other : p ≠ q := by
      rintro rfl
      exact apart List.suffix_rfl
    refine changed (Eq.trans ?_ (delLoop_dfs loop listed))
    unfold rmdirCall
    split
    · exact update_of_ne other ..
    · rfl
  · cases walk

theorem renamed_inside {old new : Path} (insideOld : cfg.root <:+ old) (insideNew : cfg.root <:+ new) :
    ChangesInside cfg s (renamed d old new s) := by
  intro p changed
  unfold renamed at changed
  split at changed
  · exact absurd rfl changed
  · rename_i dfs call
    obtain ⟨-, ⟨-, rfl⟩ | ⟨-, -, -, -, rfl⟩⟩ := renameCall_some call
    · exact absurd rfl changed
    · dsimp only [moved, unlinked_dfs] at changed
      split at changed
      · rename_i below
        exact insideNew.trans below
      split at changed
      · rename_i below
        exact insideOld.trans below
      · exact absurd rfl changed

theorem getOrLoad_inside (h : Confined cfg joined s) (namedRoot : Named cfg.root) (named : Named p)
    (found : (getOrLoad cfg s w p).1 = 0) : cfg.root <:+ p := by
  unfold getOrLoad at found
  split at found
  · rename_i e there
    exact h.cache p (by rw [there]; exact Option.some_ne_none e)
  · unfold loadToPacon at found
    split at found
    · rename_i inside
      exact inside_of_inWorkspace namedRoot named inside
    · cases found

theorem rmdirRequest_inside (inside : cfg.root <:+ p) (named : Named p) (noColon : ':' ∉ text p)
    (run : addToLocalRpc (listenLocalRpc d) s (Message.paconRmdir w.barrierId (text p) w.timestamp) = some (ret, t)) :
    ChangesInside cfg s t := by
  rcases rpc_cases run with rfl | ⟨mesg, a, sent, commit⟩
  · exact .of_eq rfl
  · obtain ⟨b, read⟩ := Message.prefixedRpc_read (head_text p) noColon sent
    unfold commitToFsBarrier at commit
    rw [read] at commit
    dsimp only at commit
    rw [resolve_text named] at commit
    obtain ⟨u, walk, result⟩ := Option.map_eq_some_iff.mp commit
    cases result
    exact traversedirDmkvDel_inside inside walk

theorem opendirRequest_inside (noColon : ':' ∉ text p)
    (run : addToLocalRpc (listenLocalRpc d) s (Message.paconOpendir w.barrierId (text p) w.timestamp) = some (ret, t)) :
    t = s := by
  rcases rpc_cases run with rfl | ⟨mesg, a, sent, commit⟩
  · rfl
  · obtain ⟨b, read⟩ := Message.prefixedRpc_read (head_text p) noColon sent
    unfold commitToFsBarrier at commit
    rw [read] at commit
    cases commit
    rfl

theorem renameRequest_inside {newp : Path} (inside : cfg.root <:+ p) (insideNew : cfg.root <:+ newp)
    (plain : Plain p) (plainNew : Plain newp)
    (run : addToLocalRpc (listenLocalRpc d) s
      (Message.paconRename w.barrierId (text p) (text newp) w.timestamp) = some (ret, t)) :
    ChangesInside cfg s t := by
  rcases rpc_cases run with rfl | ⟨mesg, a, sent, commit⟩
  · exact .of_eq rfl
  · obtain ⟨b, read⟩ := rename_read plain plainNew sent
    unfold commitToFsBarrier at commit
    rw [read] at commit
    dsimp only at commit
    obtain ⟨u, update, result⟩ := Option.map_eq_some_iff.mp commit
    cases result
    rw [renameUpdateDc_joint plain plainNew] at update
    obtain ⟨-, update⟩ := Option.ite_none_right_eq_some.mp update
    obtain ⟨v, walk, rfl⟩ := Option.map_eq_some_iff.mp update
    exact .after (traversedirDmkvRename_dfs walk).2 (renamed_inside inside insideNew)

theorem Confined.opendir (h : Confined cfg joined s) (namedRoot : Named cfg.root) (named : Named p)
    (noColon : ':' ∉ text p) (run : paconOpendir cfg (listenLocalRpc d) s w p = some (ret, t)) :
    Confined cfg joined t ∧ t.dfs = s.dfs := by
  have loaded := h.getOrLoad namedRoot named w
  have same : (Calls.getOrLoad cfg s w p).2.dfs = s.dfs := (getOrLoad_loaded (p := p) s w p).dfs
  unfold paconOpendir at run
  split at run
  · split at run
    · rename_i u load
      rw [load] at loaded same
      split at run
      · rename_i u' request
        cases run
        rw [opendirRequest_inside noColon request]
        exact ⟨loaded, same⟩
      · rw [opendirRequest_inside noColon run]
        exact ⟨loaded, same⟩
    · rename_i load
      rw [load] at loaded same
      cases run
      exact ⟨loaded, same⟩
  · cases run
    exact ⟨h, rfl⟩

theorem Confined.rmdir (h : Confined cfg joined s) (namedRoot : Named cfg.root) (named : Named p)
    (noColon : ':' ∉ text p) (run : paconRmdir cfg (listenLocalRpc d) s w p = some (ret, t)) :
    Confined cfg joined t ∧ ChangesInside cfg s t := by
  have loaded := h.getOrLoad namedRoot named w
  have same : (Calls.getOrLoad cfg s w p).2.dfs = s.dfs := (getOrLoad_loaded (p := p) s w p).dfs
  unfold paconRmdir at run
  split at run
  · split at run
    · rename_i u load
      have inside : cfg.root <:+ p := getOrLoad_inside h namedRoot named (by rw [load])
      rw [load] at loaded same
      split at run
      · rename_i v request
        cases run
        have served : ChangesInside cfg u v := rmdirRequest_inside inside named noColon request
        exact ⟨(loaded.rpc request).del p, .after same served⟩
      · exact ⟨loaded.rpc run, .after same (rmdirRequest_inside inside named noColon run)⟩
    · rename_i load
      rw [load] at loaded same
      cases run
      exact ⟨loaded, .of_eq same⟩
  · cases run
    exact ⟨h, .of_eq rfl⟩

theorem Confined.checkRename {newp : Path} (h : Confined cfg joined s) (namedRoot : Named cfg.root)
    (named : Named p) (namedNew : Named newp) :
    match checkRename cfg s w p newp with
    | .denied => True
    | .missing t | .newNameExisted t => Confined cfg joined t ∧ t.dfs = s.dfs
    | .passed t => (Confined cfg joined t ∧ t.dfs = s.dfs) ∧ cfg.root <:+ p := by
  have loaded := h.getOrLoad namedRoot named w
  have same : (Calls.getOrLoad cfg s w p).2.dfs = s.dfs := (getOrLoad_loaded (p := p) s w p).dfs
  generalize result : Calls.checkRename cfg s w p newp = x
  unfold Calls.checkRename at result
  split at result
  swap
  · subst result
    trivial
  split at result
  swap
  · rename_i load
    rw [load] at loaded same
    subst result
    exact ⟨loaded, same⟩
  rename_i u load
  have inside : cfg.root <:+ p := getOrLoad_inside h namedRoot named (by rw [load])
  rw [load] at loaded same
  split at result
  · subst result
    exact ⟨loaded, same⟩
  have second := loaded.load namedRoot namedNew w
  have same' : (loadToPacon cfg u w newp).2.dfs = u.dfs := (loadToPacon_loaded (p := p) u w newp).dfs
  split at result
  all_goals
    rename_i load'
    rw [load'] at second same'
    subst result
  · exact ⟨⟨second, same'.trans same⟩, inside⟩
  · exact ⟨second, same'.trans same⟩

theorem Confined.rename {newp : Path} (h : Confined cfg joined s) (namedRoot : Named cfg.root) (plain : Plain p)
    (plainNew : Plain newp) (insideNew : cfg.root <:+ newp)
    (run : paconRename cfg (listenLocalRpc d) s w p newp = some (ret, t)) :
    Confined cfg joined t ∧ ChangesInside cfg s t := by
  have check := h.checkRename (w := w) namedRoot plain.named plainNew.named
  unfold paconRename at run
  split at run
  · cases run
    exact ⟨h, .of_eq rfl⟩
  · rename_i missing
    rw [missing] at check
    cases run
    exact ⟨check.1, .of_eq check.2⟩
  · rename_i existed
    rw [existed] at check
    cases run
    exact ⟨check.1, .of_eq check.2⟩
  · rename_i passed
    rw [passed] at check
    exact ⟨check.1.1.rpc run, .after check.1.2 (renameRequest_inside check.2 insideNew plain plainNew run)⟩

end Pacon.Region
