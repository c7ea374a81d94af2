import Mathlib.Algebra.Ring.Nat

/-!
# Breadth-first search

A search takes one node after the other from a queue. The node either is what the search is for or has successors,
which go to the end of the queue. Looking at a node may tidy up the state in which the nodes are looked up.
-/

namespace Pacon.Lib
variable {σ α β : Type*}

section
variable (prepare : σ → α → σ) (expand : σ → α → Except β (List α))

def search : Nat → σ → List α → σ × Option β
  | 0, s, _ => (s, none)
  | _ + 1, s, [] => (s, none)
  | n + 1, s, x :: queue =>
      match expand (prepare s x) x with
      | .error found => (prepare s x, some found)
      | .ok successors => search n (prepare s x) (queue ++ successors)

/-- From `start` the node can be come upon. -/
inductive Met (s : σ) (start : List α) : α → Prop
  | start {x : α} (member : x ∈ start) : Met s start x
  | next {x y : α} {successors : List α} (met : Met s start x) (expands : expand s x = .ok successors)
      (member : y ∈ successors) : Met s start y

structure Tidies (good : σ → Prop) (ready : σ → α → Prop) (depth : α → Nat) : Prop where
  stays : ∀ {s} x, good s → good (prepare s x)
  makes : ∀ s x, ready (prepare s x) x
  keeps : ∀ {s y} x, ready s y → ready (prepare s x) y
  same : ∀ {s y} x, good s → ready s y → expand (prepare s x) y = expand s y
  deeper : ∀ {s x successors}, expand s x = .ok successors → ∀ y ∈ successors, depth y = depth x + 1

variable {prepare expand} {good : σ → Prop} {ready : σ → α → Prop} {depth : α → Nat} {start queue visited : List α} {s t : σ} {x y : α}

def Passed (expand : σ → α → Except β (List α)) (ready : σ → α → Prop) (s : σ) (x : α) : Prop :=
  ready s x ∧ ∃ successors, expand s x = .ok successors

structure Searching (expand : σ → α → Except β (List α)) (ready : σ → α → Prop) (start : List α) (s : σ)
    (visited queue : List α) : Prop where
  begun : ∀ x ∈ start, x ∈ visited ∨ x ∈ queue
  passed : ∀ x ∈ visited, Passed expand ready s x
  closed : ∀ x ∈ visited, ∀ successors, expand s x = .ok successors → ∀ y ∈ successors, y ∈ visited ∨ y ∈ queue

structure Queued (depth : α → Nat) (queue : List α) : Prop where
  ordered : queue.Pairwise fun x y => depth x ≤ depth y
  close : ∀ x ∈ queue, ∀ y ∈ queue, depth y ≤ depth x + 1

theorem Searching.initial : Searching expand ready start s [] start where
  begun _ member := .inr member
  passed _ member := by cases member
  closed _ member := by cases member

theorem Searching.prepared (tidies : Tidies prepare expand good ready depth) (holds : good s)
    (searching : Searching expand ready start s visited queue) (x : α) :
    Searching expand ready start (prepare s x) visited queue := by
  constructor
  · exact searching.begun
  · intro y member
    obtain ⟨ready, old, expanded⟩ := searching.passed y member
    exact ⟨tidies.keeps x ready, old, (tidies.same x holds ready).trans expanded⟩
  · intro y member successors expanded
    rw [tidies.same x holds (searching.passed y member).1] at expanded
    exact searching.closed y member successors expanded

theorem Searching.next (tidies : Tidies prepare expand good ready depth) (holds : good s)
    (searching : Searching expand ready start s visited (x :: queue)) {successors : List α}
    (expands : expand (prepare s x) x = .ok successors) :
    Searching expand ready start (prepare s x) (x :: visited) (queue ++ successors) := by
  have searching := searching.prepared tidies holds x
  have carry {y : α} (member : y ∈ visited ∨ y ∈ x :: queue) : y ∈ x :: visited ∨ y ∈ queue ++ successors := by
    rcases member with member | member
    · exact .inl (List.mem_cons_of_mem _ member)
    · rcases List.mem_cons.mp member with rfl | member
      · exact .inl List.mem_cons_self
      · exact .inr (List.mem_append_left _ member)
  constructor
  · intro y member
    exact carry (searching.begun y member)
  · intro y member
    rcases List.mem_cons.mp member with rfl | member
    · exact ⟨tidies.makes s y, successors, expands⟩
    · exact searching.passed y member
  · intro y member next expanded z follows
    rcases List.mem_cons.mp member with rfl | member
    · cases expands.symm.trans expanded
      exact .inr (List.mem_append_right _ follows)
    · exact carry (searching.closed y member next expanded z follows)

theorem Queued.next (tidies : Tidies prepare expand good ready depth) (queued : Queued depth (x :: queue))
    {successors : List α} (expands : expand s x = .ok successors) : Queued depth (queue ++ successors) := by
  have deeper := tidies.deeper expands
  obtain ⟨first, rest⟩ := List.pairwise_cons.mp queued.ordered
  have near {y : α} (member : y ∈ queue) : depth y ≤ depth x + 1 :=
    queued.close x List.mem_cons_self y (List.mem_cons_of_mem _ member)
  constructor
  · apply List.pairwise_append.mpr
    refine ⟨rest, ?_, ?_⟩
    · apply List.pairwise_of_forall_mem_list
      intro y member z member'
      rw [deeper y member, deeper z member']
    · intro y member z member'
      rw [deeper z member']
      exact near member
  · intro y member z member'
    rcases List.mem_append.mp member with member | member <;> rcases List.mem_append.mp member' with member' | member'
    · exact queued.close y (List.mem_cons_of_mem _ member) z (List.mem_cons_of_mem _ member')
    · rw [deeper z member']
      exact Nat.succ_le_succ (first y member)
    · rw [deeper y member]
      exact Nat.le_succ_of_le (near member')
    · rw [deeper y member, deeper z member']
      exact Nat.le_succ _

theorem Searching.before (tidies : Tidies prepare expand good ready depth) (searching : Searching expand ready start s visited queue)
    {bound : Nat} (later : ∀ x ∈ queue, bound ≤ depth x) (met : Met expand s start y) (less : depth y < bound) :
    y ∈ visited := by
  have decide {z : α} (member : z ∈ visited ∨ z ∈ queue) (less : depth z < bound) : z ∈ visited :=
    member.resolve_right fun queued => Nat.not_lt.mpr (later z queued) less
  induction met with
  | start member => exact decide (searching.begun _ member) less
  | next met expands member ih =>
      have step := tidies.deeper expands _ member
      exact decide (searching.closed _ (ih (by omega)) _ expands _ member) less

theorem Searching.over (tidies : Tidies prepare expand good ready depth) (searching : Searching expand ready start s visited [])
    (met : Met expand s start y) : Passed expand ready s y := by
  apply searching.passed
  exact searching.before tidies (fun _ member => by cases member) met (Nat.lt_succ_self _)

theorem search_found (tidies : Tidies prepare expand good ready depth) {P : σ → α → Prop}
    (keeps : ∀ {s x} y, good s → P s x → P (prepare s y) x)
    (follows : ∀ {s x successors}, P s x → ready s x → expand s x = .ok successors → ∀ y ∈ successors, P s y)
    {n : Nat} (holds : good s) (searching : Searching expand ready start s visited queue) (queued : Queued depth queue)
    (known : ∀ x ∈ queue, P s x) {found : β} (h : search prepare expand n s queue = (t, some found)) :
    good t ∧ ∃ x, P t x ∧ ready t x ∧ expand t x = .error found ∧
      ∀ y, Met expand t start y → depth y < depth x → Passed expand ready t y := by
  induction n generalizing s visited queue with
  | zero => cases h
  | succ n ih =>
      cases queue with
      | nil => cases h
      | cons x queue =>
          have holds' := tidies.stays x holds
          have ready := tidies.makes s x
          have known' {y : α} (member : y ∈ x :: queue) : P (prepare s x) y := keeps x holds (known y member)
          cases expands : expand (prepare s x) x with
          | error other =>
              simp only [search, expands] at h
              cases h
              refine ⟨holds', x, known' List.mem_cons_self, ready, expands, fun y met less => ?_⟩
              have still := searching.prepared tidies holds x
              have later : ∀ z ∈ x :: queue, depth x ≤ depth z := by
                intro z member
                rcases List.mem_cons.mp member with rfl | member
                · exact Nat.le_refl _
                · exact (List.pairwise_cons.mp queued.ordered).1 z member
              exact still.passed y (still.before tidies later met less)
          | ok successors =>
              simp only [search, expands] at h
              apply ih holds' (searching.next tidies holds expands) (queued.next tidies expands) _ h
              intro y member
              rcases List.mem_append.mp member with member | member
              · exact known' (List.mem_cons_of_mem _ member)
              · exact follows (known' List.mem_cons_self) ready expands y member

theorem search_missed (tidies : Tidies prepare expand good ready depth) {weight : α → Nat}
    (positive : ∀ x, 0 < weight x)
    (lighter : ∀ {s x successors}, expand s x = .ok successors → (successors.map weight).sum < weight x)
    {n : Nat} (enough : (queue.map weight).sum ≤ n) (holds : good s)
    (searching : Searching expand ready start s visited queue)
    (h : search prepare expand n s queue = (t, none)) :
    good t ∧ ∀ y, Met expand t start y → Passed expand ready t y := by
  induction n generalizing s visited queue with
  | zero =>
      cases queue with
      | nil =>
          cases h
          exact ⟨holds, fun y => searching.over tidies⟩
      | cons x queue =>
          rw [List.map_cons, List.sum_cons] at enough
          have := positive x
          omega
  | succ n ih =>
      cases queue with
      | nil =>
          cases h
          exact ⟨holds, fun y => searching.over tidies⟩
      | cons x queue =>
          cases expands : expand (prepare s x) x with
          | error found =>
              simp only [search, expands] at h
              cases h
          | ok successors =>
              simp only [search, expands] at h
              apply ih _ (tidies.stays x holds) (searching.next tidies holds expands) h
              have less := lighter expands
              rw [List.map_cons, List.sum_cons] at enough
              rw [List.map_append, List.sum_append_nat]
              omega

end
end Pacon.Lib
