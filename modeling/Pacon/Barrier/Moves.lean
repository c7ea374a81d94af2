import Pacon.Barrier.Model

namespace Pacon.Barrier
open Function Lib

variable {ι κ : Type} [DecidableEq ι] [DecidableEq κ] [Fintype κ] (cfg : Config ι κ)

inductive Move (s : State ι κ) : Event ι κ → State ι κ → Prop
  | send {c} (free : s.call c = .none) :
      Move s (.send c) { s with mq := update s.mq c (s.mq c ++ [.op]) }
  | barrier {c} (free : s.call c = .none) : Move s (.barrier c) (paconBarrier cfg s c)
  | request {c opt} (free : s.call c = .none) (notFlush : opt ≠ .flushdir) :
      Move s (.request c opt) (addToLocalRpc s (s.request c opt))
  | flush {c} (free : s.call c = .none) : Move s (.flush c) (flushDir s c)
  | receive {c m} (pc : s.commit (cfg.home c) = .recv) (head : (s.mq c)[s.committed c]? = some m) :
      Move s (.receive c) { s with commit := update s.commit (cfg.home c) (.hold c m) }
  | commitOp {i ok c} (pc : s.commit i = .hold c .op)
      (clear : s.barrier i (s.waitingBarrierId i) = false) : Move s (.commit i ok) (finish s i c)
  | commitFlushdir {i ok c} (pc : s.commit i = .hold c .flushdir)
      (clear : s.barrier i (s.waitingBarrierId i) = false) :
      Move s (.commit i ok) { s with commit := update s.commit i (.reachBarrier c)
                                     reachBarrier := update s.reachBarrier i 2 }
  | declare {i ok c path slot} (pc : s.commit i = .hold c (.barrier path))
      (clear : s.barrier i (s.waitingBarrierId i) = false) (index : barrierIndex path = some slot)
      (declares : declaresOpts path = true) :
      Move s (.commit i ok)
        { s with commit := update s.commit i (.getOptc c slot (barrierOptNum path)) }
  | declareNone {i ok c path slot} (pc : s.commit i = .hold c (.barrier path))
      (clear : s.barrier i (s.waitingBarrierId i) = false) (index : barrierIndex path = some slot)
      (declares : declaresOpts path = false) :
      Move s (.commit i ok) { s with commit := update s.commit i (.reach c slot) }
  | getOptc {i ok c slot n} (pc : s.commit i = .getOptc c slot n) :
      Move s (.commit i ok)
        { s with commit := update s.commit i (.casOptc c slot n (s.optCount slot) (s.optCas slot)) }
  | casOptc {i ok c slot n v cas} (pc : s.commit i = .casOptc c slot n v cas)
      (current : s.optCas slot = cas) :
      Move s (.commit i ok) { s with optCount := update s.optCount slot (v + n)
                                     optCas := update s.optCas slot (cas + 1)
                                     commit := update s.commit i (.reach c slot) }
  | casOptcFail {i ok c slot n v cas} (pc : s.commit i = .casOptc c slot n v cas) :
      Move s (.commit i ok) { s with commit := update s.commit i (.getOptc c slot n) }
  | count {i ok c slot} (pc : s.commit i = .reach c slot)
      (more : s.barrierInfo i slot + 1 ≠ cfg.clientNum i) :
      Move s (.commit i ok) (finish (counting s i c slot) i c)
  | countLast {i ok c slot} (pc : s.commit i = .reach c slot)
      (last : s.barrierInfo i slot + 1 = cfg.clientNum i) :
      Move s (.commit i ok) { counting s i c slot with
        barrier := set₂ s.barrier i slot true
        commit := update s.commit i (.setKey c slot) }
  | setKey {i c slot} (pc : s.commit i = .setKey c slot) :
      Move s (.commit i true) (finish { s with nodeKey := set₂ s.nodeKey i slot true } i c)
  | setKeyFail {i c slot} (pc : s.commit i = .setKey c slot) :
      Move s (.commit i false) (finish s i c)
  | leaveReachBarrier {i ok c} (pc : s.commit i = .reachBarrier c) (reset : s.reachBarrier i = 0) :
      Move s (.commit i ok) (finish s i c)
  | take {c garbage r slot} (call : s.call c = .sent r) (pc : s.rpc (cfg.home c) = .recv)
      (id : optBarrierId r garbage = some slot) :
      Move s (.take c garbage) { s with call := update s.call c (.received r)
                                        rpc := update s.rpc (cfg.home c) (.waitBarrier r slot) }
  | takeUndefined {c garbage r} (call : s.call c = .sent r) (pc : s.rpc (cfg.home c) = .recv)
      (id : optBarrierId r garbage = none) :
      Move s (.take c garbage) { s with call := update s.call c (.received r)
                                        rpc := update s.rpc (cfg.home c) (.undefined r) }
  | waitBarrier {i ok r slot} (pc : s.rpc i = .waitBarrier r slot) (set : s.barrier i slot = true) :
      Move s (.rpc i ok) { s with rpc := update s.rpc i (.waitNodes r slot (others cfg i)) }
  | waitNode {i ok r slot j rest} (pc : s.rpc i = .waitNodes r slot (j :: rest))
      (set : s.nodeKey j slot = true) :
      Move s (.rpc i ok) { s with rpc := update s.rpc i (.waitNodes r slot rest) }
  | begun {i ok r slot} (pc : s.rpc i = .waitNodes r slot []) :
      Move s (.rpc i ok) { s with rpc := update s.rpc i (.opt r slot) }
  | opt {i ok r slot} (pc : s.rpc i = .opt r slot) :
      Move s (.rpc i ok)
        { s with executed := set₂ s.executed r.client slot (s.executed r.client slot + 1)
                 rpc := update s.rpc i (.getOptc r slot) }
  | endGetOptc {i ok r slot} (pc : s.rpc i = .getOptc r slot) :
      Move s (.rpc i ok)
        { s with rpc := update s.rpc i (.casOptc r slot (s.optCount slot) (s.optCas slot)) }
  | decrement {i ok r slot v cas} (pc : s.rpc i = .casOptc r slot v cas)
      (current : s.optCas slot = cas) : Move s (.rpc i ok) (decrement s i r slot v)
  | decrementFail {i ok r slot v cas} (pc : s.rpc i = .casOptc r slot v cas) :
      Move s (.rpc i ok) { s with rpc := update s.rpc i (.getOptc r slot) }
  | clear {i ok r slot} (pc : s.rpc i = .clear r slot) :
      Move s (.rpc i ok) { s with barrier := set₂ s.barrier i slot false
                                  released := update s.released i (s.released i ++ [slot])
                                  rpc := update s.rpc i (.reset r slot) }
  | reset {i r slot} (pc : s.rpc i = .reset r slot) :
      Move s (.rpc i true) { s with nodeKey := set₂ s.nodeKey i slot false
                                    rpc := update s.rpc i (.broadcast r slot (others cfg i)) }
  | broadcasted {i ok r slot} (pc : s.rpc i = .broadcast r slot []) :
      Move s (.rpc i ok) { s with rpc := update s.rpc i (.advance r slot) }
  | advance {i ok r slot} (pc : s.rpc i = .advance r slot) :
      Move s (.rpc i ok)
        { s with waitingBarrierId := update s.waitingBarrierId i (s.waitingBarrierId i + 1)
                 rpc := update s.rpc i (.reply r) }
  | reply {i ok r} (pc : s.rpc i = .reply r) :
      Move s (.rpc i ok) { s with call := update s.call r.client .none
                                  rpc := update s.rpc i .recv }
  | delClear {i sender r slot rest} (pc : s.rpc sender = .broadcast r slot (i :: rest))
      (free : s.cluster i = none) :
      Move s (.cluster i sender)
        { s with barrier := set₂ s.barrier i (s.waitingBarrierId i) false
                 released := update s.released i (s.released i ++ [s.waitingBarrierId i])
                 cluster := update s.cluster i (some sender) }
  | delAdvance {i sender r slot rest} (pc : s.rpc sender = .broadcast r slot (i :: rest))
      (mid : s.cluster i = some sender) :
      Move s (.cluster i sender)
        { s with waitingBarrierId := update s.waitingBarrierId i (s.waitingBarrierId i + 1)
                 cluster := update s.cluster i none
                 rpc := update s.rpc sender (.broadcast r slot rest) }

variable {cfg}

theorem dispatch_move {s t : State ι κ} {i : ι} {ok : Bool} {c : κ} {m : Msg}
    (pc : s.commit i = .hold c m) (clear : s.barrier i (s.waitingBarrierId i) = false)
    (h : dispatch s i c m = some t) : Move cfg s (.commit i ok) t := by
  cases m with
  | op =>
      cases h
      exact .commitOp pc clear
  | flushdir =>
      cases h
      exact .commitFlushdir pc clear
  | barrier path =>
      obtain ⟨slot, index, rfl⟩ := Option.map_eq_some_iff.mp h
      cases declares : declaresOpts path with
      | true => simpa [declares] using Move.declare pc clear index declares
      | false => simpa [declares] using Move.declareNone pc clear index declares

theorem commitStep_move {s t : State ι κ} {i : ι} {ok : Bool}
    (h : commitStep cfg s i ok = some t) : Move cfg s (.commit i ok) t := by
  unfold commitStep at h
  split at h
  · cases h
  · rename_i c m pc
    split at h
    · cases h
    · rename_i clear
      exact dispatch_move pc (by simpa using clear) h
  · rename_i pc
    cases h
    exact .getOptc pc
  · rename_i pc
    split at h <;> cases h
    · rename_i won
      exact .casOptc pc won.2
    · exact .casOptcFail pc
  · rename_i c slot pc
    cases h
    unfold countBarrier
    split
    · rename_i last
      exact .countLast pc last
    · rename_i more
      exact .count pc more
  · rename_i pc
    cases h
    cases ok with
    | true => exact .setKey pc
    | false => exact .setKeyFail pc
  · rename_i pc
    split at h <;> cases h
    rename_i reset
    exact .leaveReachBarrier pc reset

theorem takeStep_move {s t : State ι κ} {c : κ} {garbage : Nat}
    (h : takeStep cfg s c garbage = some t) : Move cfg s (.take c garbage) t := by
  unfold takeStep at h
  split at h
  · rename_i r call pc
    cases h
    cases id : optBarrierId r garbage with
    | some slot => simpa [id] using Move.take call pc id
    | none => simpa [id] using Move.takeUndefined call pc id
  · cases h

theorem rpcStep_move {s t : State ι κ} {i : ι} {ok : Bool}
    (h : rpcStep cfg s i ok = some t) : Move cfg s (.rpc i ok) t := by
  unfold rpcStep at h
  split at h
  · cases h
  · cases h
  · rename_i pc
    split at h <;> cases h
    rename_i set
    exact .waitBarrier pc set
  · rename_i pc
    split at h <;> cases h
    rename_i set
    exact .waitNode pc set
  · rename_i pc
    cases h
    exact .begun pc
  · rename_i pc
    cases h
    exact .opt pc
  · rename_i pc
    cases h
    exact .endGetOptc pc
  · rename_i pc
    split at h <;> cases h
    · rename_i won
      exact .decrement pc won.2
    · exact .decrementFail pc
  · rename_i pc
    cases h
    exact .clear pc
  · rename_i pc
    split at h <;> cases h
    rename_i won
    subst won
    exact .reset pc
  · cases h
  · rename_i pc
    cases h
    exact .broadcasted pc
  · rename_i pc
    cases h
    exact .advance pc
  · rename_i pc
    cases h
    exact .reply pc

theorem clusterStep_move {s t : State ι κ} {i sender : ι}
    (h : clusterStep s i sender = some t) : Move cfg s (.cluster i sender) t := by
  unfold clusterStep at h
  split at h
  · rename_i j rest pc
    split at h
    · cases h
    · rename_i same
      cases not_not.mp same
      split at h
      · rename_i free
        cases h
        exact .delClear pc free
      · rename_i mid
        split at h <;> cases h
        rename_i same
        exact .delAdvance pc (same ▸ mid)
  · cases h

theorem move_of_step {s t : State ι κ} {e : Event ι κ} (h : step cfg s e = some t) :
    Move cfg s e t := by
  cases e with
  | send c =>
      simp only [step, Option.ite_none_right_eq_some, Option.some.injEq] at h
      obtain ⟨free, rfl⟩ := h
      exact .send free
  | barrier c =>
      simp only [step, Option.ite_none_right_eq_some, Option.some.injEq] at h
      obtain ⟨free, rfl⟩ := h
      exact .barrier free
  | request c opt =>
      simp only [step, Option.ite_none_right_eq_some, Option.some.injEq] at h
      obtain ⟨⟨free, notFlush⟩, rfl⟩ := h
      exact .request free notFlush
  | flush c =>
      simp only [step, Option.ite_none_right_eq_some, Option.some.injEq] at h
      obtain ⟨free, rfl⟩ := h
      exact .flush free
  | receive c =>
      simp only [step, Option.ite_none_right_eq_some] at h
      obtain ⟨pc, h⟩ := h
      obtain ⟨m, head, rfl⟩ := Option.map_eq_some_iff.mp h
      exact .receive pc head
  | commit i ok => exact commitStep_move h
  | take c garbage => exact takeStep_move h
  | rpc i ok => exact rpcStep_move h
  | cluster i sender => exact clusterStep_move h

end Pacon.Barrier
