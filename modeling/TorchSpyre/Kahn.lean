import Mathlib

/-!
# Topological sorting by Kahn's algorithm

Nodes are the indices below `n`, and `parents i` lists the nodes that come before `i`,
possibly with repeats. A node waits in the heap once all its parents have been output; the
least index leaves first.

Every node enters the heap at most once, so the loop ends within `n` rounds. If the parents
of a node have smaller rank than the node, for ranks in any linear order, then a set of nodes
left over would have a member of least rank with no parent left over. So nothing is left over
and the output is a permutation of the nodes (`run_perm`). Whatever is output comes after its
parents (`run_ordered`).
-/

open List Function

namespace Kahn

/-- The state of the loop. `inDegree` counts the parents that have not been output. -/
structure State where
  heap : List ℕ
  inDegree : ℕ → ℤ
  result : List ℕ

variable (n : ℕ) (parents : ℕ → List ℕ)

/-- The children of a node, one entry for each time they name it. -/
def children (p : ℕ) : List ℕ :=
  (List.range n).flatMap fun i => List.replicate ((parents i).count p) i

/-- Count one parent of `j` as output. -/
def release (s : State) (j : ℕ) : State :=
  { s with
    inDegree := Function.update s.inDegree j (s.inDegree j - 1)
    heap := if s.inDegree j - 1 = 0 then s.heap ++ [j] else s.heap }

/-- Output the least waiting node. -/
def step (s : State) : Option State :=
  s.heap.min?.map fun i => (children n parents i).foldl release
    { s with heap := s.heap.erase i, result := s.result ++ [i] }

/-- The nodes without parents are ready. -/
def init : State where
  heap := (List.range n).filter fun i => (parents i).length = 0
  inDegree := fun i => (parents i).length
  result := []

/-- The loop. `none` if it has not ended within the fuel. -/
def run : ℕ → State → Option (List ℕ)
  | 0, s => if s.heap = [] then some s.result else none
  | fuel + 1, s =>
    match step n parents s with
    | none => some s.result
    | some s' => run fuel s'

/-! ## One round -/

theorem count_children (p j : ℕ) :
    (children n parents p).count j = if j < n then (parents j).count p else 0 := by
  unfold children
  induction n with
  | zero => simp
  | succ n ih =>
    rw [range_succ, flatMap_append, count_append, ih]
    simp only [flatMap_cons, flatMap_nil, append_nil, count_replicate, beq_iff_eq]
    split_ifs with h₁ h₂ h₃ h₄ <;> first | omega | (subst_vars; omega)

theorem foldl_release_result (l : List ℕ) (s : State) : (l.foldl release s).result = s.result := by
  induction l generalizing s with
  | nil => rfl
  | cons k l ih => exact ih (release s k)

theorem foldl_release_inDegree (l : List ℕ) (s : State) (j : ℕ) :
    (l.foldl release s).inDegree j = s.inDegree j - l.count j := by
  induction l generalizing s with
  | nil => simp
  | cons k l ih =>
    rw [foldl_cons, ih, count_cons]
    by_cases h : k = j
    · subst h
      simp [release]
      ring
    · simp [release, h, update_of_ne (Ne.symm h)]

/-- No node is released more often than it has parents, and none that waits is released. -/
structure Releasable (l : List ℕ) (s : State) : Prop where
  count_le : ∀ j ∈ l, (l.count j : ℤ) ≤ s.inDegree j
  waiting : ∀ j ∈ s.heap, s.inDegree j = 0
  nodup : s.heap.Nodup

variable {l r : List ℕ} {s : State} {ρ : Type*} {fuel i j : ℕ}

theorem Releasable.release {k : ℕ} (h : Releasable (k :: l) s) :
    Releasable l (Kahn.release s k) := by
  have hk : (l.count k : ℤ) + 1 ≤ s.inDegree k := by
    have := h.count_le k mem_cons_self
    rwa [count_cons_self, Nat.cast_add_one] at this
  have hnot : k ∉ s.heap := by
    intro hmem
    have := h.waiting k hmem
    omega
  refine ⟨fun j hj => ?_, fun j hj => ?_, ?_⟩
  · by_cases hjk : j = k
    · subst hjk
      simp only [Kahn.release, update_self]
      omega
    · have := h.count_le j (mem_cons_of_mem k hj)
      rw [count_cons_of_ne (Ne.symm hjk)] at this
      simpa [Kahn.release, update_of_ne hjk] using this
  · simp only [Kahn.release] at hj ⊢
    by_cases hjk : j = k
    · subst hjk
      rw [update_self]
      split_ifs at hj with hz
      · exact hz
      · exact absurd hj hnot
    · rw [update_of_ne hjk]
      split_ifs at hj
      · exact h.waiting j (by simpa [hjk] using hj)
      · exact h.waiting j hj
  · simp only [Kahn.release]
    split_ifs
    · exact nodup_append.2 ⟨h.nodup, nodup_singleton k, by
        rintro a ha b hb rfl
        exact hnot (mem_singleton.1 hb ▸ ha)⟩
    · exact h.nodup

/-- After the releases a node waits if it did before, or if its last parent was counted. -/
theorem mem_heap_foldl_release (h : Releasable l s) :
    j ∈ (l.foldl release s).heap ↔ j ∈ s.heap ∨ j ∈ l ∧ s.inDegree j = l.count j := by
  induction l generalizing s with
  | nil => simp
  | cons k l ih =>
    rw [foldl_cons, ih h.release]
    by_cases hjk : j = k
    · subst hjk
      have hcount := h.count_le j mem_cons_self
      rw [count_cons_self] at hcount ⊢
      push_cast at hcount ⊢
      have hzero : j ∉ l ↔ l.count j = 0 := count_eq_zero.symm
      simp only [release, update_self, mem_cons, true_or, true_and]
      split_ifs with hz
      · simp only [mem_append, mem_singleton, or_true, true_or, true_iff]
        omega
      · by_cases hmem : j ∈ l
        · simp only [hmem, true_and]
          constructor
          · exact Or.imp_right fun h => by omega
          · exact Or.imp_right fun h => by omega
        · have := hzero.1 hmem
          simp only [hmem, false_and, or_false]
          constructor
          · exact Or.inl
          · exact fun h => h.resolve_right (by omega)
    · rw [count_cons_of_ne (Ne.symm hjk)]
      simp only [release, update_of_ne hjk, mem_cons, hjk, false_or]
      split_ifs
      · simp [hjk]
      · rfl

theorem nodup_heap_foldl_release (h : Releasable l s) :
    (l.foldl release s).heap.Nodup := by
  induction l generalizing s with
  | nil => exact h.nodup
  | cons k l ih => exact ih h.release

/-! ## The loop -/

/-- What the loop maintains : the degrees count the parents still to come, and exactly the
nodes with none to come wait. -/
structure Inv (s : State) : Prop where
  degree : ∀ j < n, s.inDegree j = (parents j).countP (· ∉ s.result)
  heap : ∀ j, j ∈ s.heap ↔ j < n ∧ j ∉ s.result ∧ s.inDegree j = 0
  nodup_heap : s.heap.Nodup
  nodup : s.result.Nodup
  lt : ∀ j ∈ s.result, j < n
  done : ∀ j ∈ s.result, s.inDegree j = 0

theorem Inv.init : Inv n parents (init n parents) where
  degree j _ := by simp [Kahn.init]
  heap j := by simp [Kahn.init]
  nodup_heap := nodup_range.filter _
  nodup := nodup_nil
  lt := by simp [Kahn.init]
  done := by simp [Kahn.init]

theorem countP_not_mem_append (hi : i ∉ r) (l : List ℕ) :
    l.countP (· ∉ r) = l.countP (· ∉ r ++ [i]) + l.count i := by
  induction l with
  | nil => rfl
  | cons p l ih =>
    rw [countP_cons, countP_cons, count_cons, ih]
    by_cases hp : p = i
    · subst hp
      simp [hi]
      omega
    · simp [hp]
      omega

variable {n parents}

section Step

variable {s : State} {i : ℕ}

theorem Inv.releasable (h : Inv n parents s) (hi : i ∈ s.heap) :
    Releasable (children n parents i)
      { s with heap := s.heap.erase i, result := s.result ++ [i] } where
  count_le j hj := by
    have hlt : j < n := by
      by_contra hge
      have := count_pos_iff.2 hj
      rw [count_children, if_neg hge] at this
      omega
    have hsplit := countP_not_mem_append ((h.heap i).1 hi).2.1 (parents j)
    rw [count_children, if_pos hlt]
    change _ ≤ s.inDegree j
    rw [h.degree j hlt, hsplit]
    omega
  waiting j hj := ((h.heap j).1 (mem_of_mem_erase hj)).2.2
  nodup := h.nodup_heap.erase i

/-- A round keeps the invariant. -/
theorem Inv.round (h : Inv n parents s) (hi : i ∈ s.heap) :
    Inv n parents ((children n parents i).foldl release
      { s with heap := s.heap.erase i, result := s.result ++ [i] }) := by
  obtain ⟨hlt, hnew, hzero⟩ := (h.heap i).1 hi
  have hdegree : ∀ j < n, s.inDegree j - (children n parents i).count j =
      (parents j).countP (· ∉ s.result ++ [i]) := by
    intro j hj
    rw [h.degree j hj, count_children, if_pos hj, countP_not_mem_append hnew]
    omega
  -- a node with no parent to come has nothing to be released
  have hfree : ∀ j < n, s.inDegree j = 0 → (children n parents i).count j = 0 := by
    intro j hj hz
    have := hdegree j hj
    omega
  have hdone : ∀ j ∈ s.result ++ [i], j < n ∧ s.inDegree j = 0 := by
    intro j hj
    rcases mem_append.1 hj with hj | hj
    · exact ⟨h.lt j hj, h.done j hj⟩
    · rw [mem_singleton.1 hj]
      exact ⟨hlt, hzero⟩
  refine ⟨fun j hj => ?_, fun j => ?_, nodup_heap_foldl_release (h.releasable hi), ?_,
    fun j hj => ?_, fun j hj => ?_⟩
  · rw [foldl_release_inDegree, foldl_release_result]
    exact hdegree j hj
  · rw [mem_heap_foldl_release (h.releasable hi), foldl_release_inDegree, foldl_release_result]
    dsimp only
    rw [h.nodup_heap.mem_erase_iff, h.heap j]
    constructor
    · rintro (⟨hne, hj, hout, hz⟩ | ⟨hchild, hcount⟩)
      · have := hfree j hj hz
        exact ⟨hj, by simp [hout, hne], by omega⟩
      · have hpos := count_pos_iff.2 hchild
        have hj : j < n := by
          by_contra hge
          rw [count_children, if_neg hge] at hpos
          omega
        exact ⟨hj, fun hmem => by have := hfree j hj (hdone j hmem).2; omega, by omega⟩
    · rintro ⟨hj, hout, hz⟩
      have hne : j ≠ i ∧ j ∉ s.result := by
        simp only [mem_append, mem_singleton, not_or] at hout
        exact hout.symm
      by_cases hchild : j ∈ children n parents i
      · exact .inr ⟨hchild, by omega⟩
      · rw [count_eq_zero.2 hchild] at hz
        exact .inl ⟨hne.1, hj, hne.2, by omega⟩
  · rw [foldl_release_result]
    refine nodup_append.2 ⟨h.nodup, nodup_singleton i, ?_⟩
    rintro a ha b hb rfl
    exact hnew (mem_singleton.1 hb ▸ ha)
  · rw [foldl_release_result] at hj
    exact (hdone j hj).1
  · rw [foldl_release_result] at hj
    obtain ⟨hj, hz⟩ := hdone j hj
    rw [foldl_release_inDegree, hfree j hj hz]
    exact (sub_zero _).trans hz

end Step

/-- While nodes of smaller rank come first, an empty heap means that every node is output. -/
theorem Inv.complete [LinearOrder ρ] {rank : ℕ → ρ}
    (hrank : ∀ j < n, ∀ p ∈ parents j, p < n ∧ rank p < rank j) (h : Inv n parents s)
    (hheap : s.heap = []) (hj : j < n) : j ∈ s.result := by
  by_contra hout
  obtain ⟨k, hk, hmin⟩ := ((Finset.range n).filter (· ∉ s.result)).exists_min_image rank
    ⟨j, by simp [hj, hout]⟩
  simp only [Finset.mem_filter, Finset.mem_range] at hk hmin
  have hdeg : (parents k).countP (· ∉ s.result) ≠ 0 := by
    intro hz
    have hmem := (h.heap k).2 ⟨hk.1, hk.2, by rw [h.degree k hk.1, hz]; rfl⟩
    simp [hheap] at hmem
  obtain ⟨p, hp, hpout⟩ := countP_pos_iff.1 (Nat.pos_of_ne_zero hdeg)
  obtain ⟨hpn, hlt⟩ := hrank k hk.1 p hp
  exact absurd (hmin p ⟨hpn, by simpa using hpout⟩) (not_le.2 hlt)

/-- With all nodes output nothing waits. -/
theorem Inv.heap_eq_nil (h : Inv n parents s) (hlen : s.result.length = n) :
    s.heap = [] := by
  have hperm : s.result.Perm (List.range n) :=
    (h.nodup.subperm fun j hj => mem_range.2 (h.lt j hj)).perm_of_length_le (by simp [hlen])
  refine eq_nil_iff_forall_not_mem.2 fun j hj => ?_
  obtain ⟨hlt, hout, -⟩ := (h.heap j).1 hj
  exact hout (hperm.mem_iff.2 (mem_range.2 hlt))

/-- From a state of the loop, one round for each node that is left is enough. -/
theorem Inv.run_perm [LinearOrder ρ] {rank : ℕ → ρ}
    (hrank : ∀ j < n, ∀ p ∈ parents j, p < n ∧ rank p < rank j) (h : Inv n parents s)
    (hfuel : s.result.length + fuel = n) :
    ∃ r, run n parents fuel s = some r ∧ r.Perm (List.range n) := by
  have hend : ∀ {s : State}, Inv n parents s → s.heap = [] → s.result.Perm (List.range n) := by
    intro s h hheap
    refine (perm_ext_iff_of_nodup h.nodup nodup_range).2 fun j => ?_
    rw [mem_range]
    exact ⟨h.lt j, h.complete hrank hheap⟩
  induction fuel generalizing s with
  | zero =>
    have hheap := h.heap_eq_nil hfuel
    exact ⟨s.result, if_pos hheap, hend h hheap⟩
  | succ fuel ih =>
    cases hmin : s.heap.min? with
    | none => exact ⟨s.result, by simp [run, step, hmin], hend h (min?_eq_none_iff.1 hmin)⟩
    | some i =>
      obtain ⟨r, hrun, hr⟩ := ih (h.round (min?_eq_some_iff.1 hmin).1) (by
        rw [foldl_release_result]
        simp
        omega)
      exact ⟨r, by simp [run, step, hmin, hrun], hr⟩

/-- If parents have smaller rank, the loop ends and outputs every node once. -/
theorem run_perm [LinearOrder ρ] {rank : ℕ → ρ}
    (hrank : ∀ j < n, ∀ p ∈ parents j, p < n ∧ rank p < rank j) :
    ∃ r, run n parents n (init n parents) = some r ∧ r.Perm (List.range n) :=
  (Inv.init n parents).run_perm hrank (by simp [init])

/-- Every node comes after its parents. -/
def Ordered (parents : ℕ → List ℕ) (l : List ℕ) : Prop :=
  ∀ pre j post, l = pre ++ j :: post → ∀ p ∈ parents j, p ∈ pre

theorem Ordered.concat (h : Ordered parents l) (hi : ∀ p ∈ parents i, p ∈ l) :
    Ordered parents (l ++ [i]) := by
  intro pre j post hl
  rcases eq_nil_or_concat post with rfl | ⟨post', k, rfl⟩
  · obtain ⟨rfl, hij⟩ := append_inj' hl rfl
    exact (singleton_inj.1 hij) ▸ hi
  · rw [concat_eq_append, ← cons_append, ← append_assoc] at hl
    exact h pre j post' (append_inj' hl rfl).1

theorem Inv.run_ordered (h : Inv n parents s) (ho : Ordered parents s.result)
    (hr : run n parents fuel s = some r) : Ordered parents r := by
  induction fuel generalizing s with
  | zero =>
    unfold run at hr
    split_ifs at hr
    exact Option.some.inj hr ▸ ho
  | succ fuel ih =>
    cases hmin : s.heap.min? with
    | none =>
      simp only [run, step, hmin, Option.map_none, Option.some.injEq] at hr
      exact hr ▸ ho
    | some i =>
      simp only [run, step, hmin, Option.map_some] at hr
      have hi := (min?_eq_some_iff.1 hmin).1
      refine ih (h.round hi) ?_ hr
      rw [foldl_release_result]
      refine ho.concat fun p hp => ?_
      -- A node that waits has no parent to come.
      obtain ⟨hlt, -, hzero⟩ := (h.heap i).1 hi
      rw [h.degree i hlt, Nat.cast_eq_zero, countP_eq_zero] at hzero
      simpa using hzero p hp

/-- The output is ordered. -/
theorem run_ordered (hr : run n parents fuel (init n parents) = some r) :
    Ordered parents r := by
  refine (Inv.init n parents).run_ordered (fun pre j post hl => ?_) hr
  simp [init] at hl

end Kahn
