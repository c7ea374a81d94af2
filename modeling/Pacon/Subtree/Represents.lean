import Pacon.Server.Requests
import Pacon.Subtree.Walk

namespace Pacon.Subtree
open Lib Function Commit

section
variable {ι κ : Type}

structure Represents (s : State) (t : Commit.State ι κ) : Prop where
  cache : ∀ p, p ≠ [] → Named p → t.cache p = s.cache (text p)
  dfs : t.dfs = s.dfs

structure Matches (d : Disk) (e : Server.Disk) : Prop where
  opendir : e.opendir = d.opendir
  remove : e.remove = d.remove
  rmdir : e.rmdir = d.rmdir
  listing : e.listing = d.listing
  dmkvDel : ∀ p, e.dmkvDel p = false

variable {d : Disk} {e : Server.Disk} {s : State} {t : Commit.State ι κ} {q p : Path} {name : CString}
variable {es : Listing CString}

theorem Represents.delKey (h : Represents s t) (same : Matches d e) (root : q ≠ []) (isName : IsName name)
    (named : Named (name :: q)) :
    Represents (dmkvDel s (text q ++ '/' :: name)) ((Server.delKey e t (name :: q)).getD t) := by
  have deleted : ((Server.delKey e t (name :: q)).getD t).cache = update t.cache (name :: q) none := by
    unfold Server.delKey
    by_cases missing : t.cache (name :: q) = none
    · rw [if_pos (.inr missing), Option.getD_none, ← missing, update_eq_self]
    · rw [if_neg (by simp [same.dmkvDel, missing]), Option.getD_some]
      rfl
  refine ⟨fun p other namedP => ?_, (Server.delKey_getD_dfs e t _).trans h.dfs⟩
  rw [deleted, dmkvDel_cache, memcKey_child isName, ← text_cons root]
  by_cases here : p = name :: q
  · rw [here, update_self, update_self]
  · have apart : text p ≠ text (name :: q) := fun spelled => here (text_injective namedP named spelled)
    rw [update_of_ne here, update_of_ne apart, h.cache p other namedP]

theorem Represents.removeNode (h : Represents s t) (p : Path) :
    Represents (removeNode s p) (Server.removeNode t p) :=
  ⟨h.cache, by rw [Server.removeNode_dfs, removeNode_dfs, h.dfs]⟩

theorem Represents.rmdirCall {x : State × Bool} {y : Commit.State ι κ × Bool} (h : Represents x.1 y.1)
    (emptied : x.2 = y.2) (same : Matches d e) (named : Named q) :
    Represents (rmdirCall d (text q) x).1 (Server.rmdirCall e q y).1 ∧
      (rmdirCall d (text q) x).2 = (Server.rmdirCall e q y).2 := by
  unfold Subtree.rmdirCall Server.rmdirCall
  rw [resolve_text named, emptied, same.rmdir]
  split
  · exact ⟨h.removeNode q, rfl⟩
  · exact ⟨h, rfl⟩

structure Walked (dfs : Path → Option Node) (q : Path) (es : Listing CString) (x : State × Bool)
    (y : Commit.State ι κ × Bool) : Prop where
  state : Represents x.1 y.1
  emptied : x.2 = y.2
  outside : ∀ p, ¬es.Has q p → x.1.dfs p = dfs p

theorem rmdirCall_dfs (x : State × Bool) (named : Named q) (other : p ≠ q) :
    (rmdirCall d (text q) x).1.dfs p = x.1.dfs p := by
  unfold Subtree.rmdirCall
  split
  · rw [resolve_text named]
    exact update_of_ne other ..
  · rfl

theorem delLoop_represents (same : Matches d e) (root : q ≠ []) (named : Named q) (lists : Lists s.dfs q es)
    (fits : Fits (text q) es) (h : Represents s t) :
    Option.Rel (Walked s.dfs q es) (delLoop d (text q) es s) (Server.delLoop e q es t) := by
  induction es generalizing q s t with
  | nil => exact .some ⟨h, rfl, fun _ _ => rfl⟩
  | file name rest ih =>
      obtain ⟨isName, -, fresh, later⟩ := lists
      have namedChild : Named (name :: q) := List.forall_mem_cons.mpr ⟨isName, named⟩
      have deleted := h.delKey same root isName namedChild
      rw [delLoop, dirNew_of_fits fits (.inl rfl), Server.delLoop]
      simp only [← text_cons root, resolve_text namedChild, same.remove] at deleted ⊢
      split
      · exact .some ⟨deleted, rfl, fun _ _ => rfl⟩
      · have kept : ∀ p, p ≠ name :: q →
            (removeNode (dmkvDel s (text (name :: q))) (name :: q)).dfs p = s.dfs p :=
          fun p other => update_of_ne other ..
        have next := ih root named
          (later.congr fun p has => kept p fun here => Listing.not_has_rest fresh List.suffix_rfl (here ▸ has))
          (fun r has => fits r (.inr has)) (deleted.removeNode (name :: q))
        generalize delLoop d (text q) rest _ = x at next ⊢
        generalize Server.delLoop e q rest _ = y at next ⊢
        cases next with
        | none => exact .none
        | some walked =>
            refine .some ⟨walked.state, walked.emptied, fun p out => ?_⟩
            rw [walked.outside p fun has => out (.inr has), kept p fun here => out (.inl here)]
  | dir name sub rest ihSub ihRest =>
      obtain ⟨isName, dir, inner, fresh, later⟩ := lists
      have namedChild : Named (name :: q) := List.forall_mem_cons.mpr ⟨isName, named⟩
      have deleted := h.delKey same root isName namedChild
      have fitsSub := fits.inner
      rw [delLoop, dirNew_of_fits fits (.inl rfl), Server.delLoop]
      rw [← text_cons root] at deleted fitsSub ⊢
      have opened : opens d (dmkvDel s (text (name :: q))) (text (name :: q)) ↔ ¬e.opendir (name :: q) = true := by
        unfold opens
        rw [resolve_text namedChild, dmkvDel_dfs, dir, same.opendir]
        simp [text_ne_nil]
      simp only [opened]
      by_cases closed : e.opendir (name :: q) = true
      · rw [if_neg (not_not_intro closed), if_pos closed]
        exact .none
      · rw [if_pos closed, if_neg closed]
        have below := ihSub (s := dmkvDel s (text (name :: q))) (List.cons_ne_nil name q) namedChild inner fitsSub deleted
        generalize delLoop d (text (name :: q)) sub _ = x at below ⊢
        generalize Server.delLoop e (name :: q) sub _ = y at below ⊢
        cases below with
        | none => exact .none
        | @some x y inside =>
            obtain ⟨state, emptied⟩ := inside.state.rmdirCall inside.emptied same namedChild
            have kept : ∀ p, ¬name :: q <:+ p → (rmdirCall d (text (name :: q)) x).1.dfs p = s.dfs p := by
              intro p out
              rw [rmdirCall_dfs x namedChild fun here => out (here ▸ List.suffix_rfl)]
              exact inside.outside p fun has => out (Listing.below_of_has has).1
            have next := ihRest root named
              (later.congr fun p has => kept p fun below => Listing.not_has_rest fresh below has)
              (fun r has => fits r (.inr (.inr has))) state
            dsimp only
            generalize delLoop d (text q) rest _ = z at next ⊢
            generalize Server.delLoop e q rest _ = w at next ⊢
            cases next with
            | none => exact .none
            | some walked =>
                refine .some ⟨walked.state, congrArg₂ (· && ·) emptied walked.emptied, fun p out => ?_⟩
                rw [walked.outside p fun has => out (.inr (.inr has))]
                by_cases here : p = name :: q
                · exact absurd (.inl here) out
                · rw [rmdirCall_dfs x namedChild here]
                  exact inside.outside p fun has => out (.inr (.inl has))

theorem traversedirDmkvDel_represents (same : Matches d e) (root : q ≠ []) (named : Named q)
    (lists : Lists s.dfs q (d.listing q)) (fits : Fits (text q) (d.listing q)) (h : Represents s t) :
    Option.Rel Represents (traversedirDmkvDel d (text q) s)
      (Server.traversedirDmkvDel (e.spelled (text q)) q t) := by
  have own : e.spelled (text q) = e := by
    unfold Server.Disk.spelled
    rw [resolve_text named, if_pos (text_of_ne root)]
  have opened : opens d s (text q) ↔ Server.opens e t q := by
    unfold opens Server.opens
    rw [resolve_text named, same.opendir, h.dfs]
    exact and_iff_right (text_ne_nil q)
  unfold traversedirDmkvDel Server.traversedirDmkvDel
  rw [own, resolve_text named, same.listing]
  simp only [opened]
  split
  · have walked := delLoop_represents same root named lists fits h
    generalize delLoop d (text q) (d.listing q) s = x at walked ⊢
    generalize Server.delLoop e q (d.listing q) t = y at walked ⊢
    cases walked with
    | none => exact .none
    | some inside => exact .some (inside.state.rmdirCall inside.emptied same named).1
  · exact .none

end
end Pacon.Subtree
