import Mathlib

/-!
# Contiguous elements of a list

The elements of a list that satisfy `p` are contiguous if they are an infix of it. Then no other
element stands between two of them, and conversely (`contiguous_iff`), so they are contiguous
in every sublist too.

Where a list is cut into runs of one key, contiguous elements of a key are one run
(`splitBy_of_contiguous`). The last parts are about two elements in order, as a sublist of length
two, and about lists of keys with their values.
-/

open List

namespace Lists

variable {α β : Type} {p : α → Bool} {l : List α}

/-- The elements of `l` that satisfy `p` stand next to each other. -/
def Contiguous (p : α → Bool) (l : List α) : Prop :=
  l.filter p <:+: l

variable {post pre : List α} {a b x : α} {key : α → ℕ}

/-- Elements around an infix that holds as many elements of `p` as the list. -/
theorem not_of_length_filter_le {mid : List α} (hl : l = pre ++ mid ++ post)
    (hlen : (l.filter p).length ≤ mid.length) (hmid : ∀ x ∈ mid, p x = true) :
    (∀ x ∈ pre, p x = false) ∧ (∀ x ∈ post, p x = false) ∧ l.filter p = mid := by
  have hself : mid.filter p = mid := filter_eq_self.2 hmid
  subst hl
  rw [filter_append, filter_append, hself] at hlen ⊢
  simp only [length_append] at hlen
  have hpre : pre.filter p = [] := length_eq_zero_iff.1 (by omega)
  have hpost : post.filter p = [] := length_eq_zero_iff.1 (by omega)
  refine ⟨fun x hx => ?_, fun x hx => ?_, by simp [hpre, hpost]⟩
  · simpa using filter_eq_nil_iff.1 hpre x hx
  · simpa using filter_eq_nil_iff.1 hpost x hx

/-- What is around contiguous elements does not satisfy `p`. -/
theorem Contiguous.split (h : Contiguous p l) :
    ∃ pre post, l = pre ++ l.filter p ++ post ∧ (∀ x ∈ pre, p x = false) ∧
      ∀ x ∈ post, p x = false := by
  obtain ⟨pre, post, hl⟩ := h
  obtain ⟨hpre, hpost, -⟩ := not_of_length_filter_le hl.symm le_rfl
    fun x hx => (mem_filter.1 hx).2
  exact ⟨pre, post, hl.symm, hpre, hpost⟩

theorem isPrefix_filter : ∀ {l : List α},
    (∀ y z, [y, z].Sublist l → p z = true → p y = true) → l.filter p <+: l
  | [], _ => nil_prefix
  | x :: l, h => by
    by_cases hx : p x = true
    · rw [filter_cons_of_pos hx]
      exact prefix_cons_inj x |>.2
        (isPrefix_filter fun y z hsub => h y z (hsub.trans (sublist_cons_self x l)))
    · have hnil : l.filter p = [] := filter_eq_nil_iff.2 fun z hz hpz =>
        hx (h x z ((singleton_sublist.2 hz).cons_cons x) hpz)
      rw [filter_cons_of_neg hx, hnil]
      exact nil_prefix

theorem isInfix_filter : ∀ {l : List α},
    (∀ x y z, [x, y, z].Sublist l → p x = true → p z = true → p y = true) → l.filter p <:+: l
  | [], _ => nil_infix
  | x :: l, h => by
    by_cases hx : p x = true
    · rw [filter_cons_of_pos hx]
      refine (prefix_cons_inj x |>.2 (isPrefix_filter fun y z hsub hz => ?_)).isInfix
      exact h x y z (hsub.cons_cons x) hx hz
    · rw [filter_cons_of_neg hx]
      exact infix_cons (isInfix_filter fun a b c hsub =>
        h a b c (hsub.trans (sublist_cons_self x l)))

/-- Elements are contiguous if no other stands between two of them. -/
theorem contiguous_iff :
    Contiguous p l ↔ ∀ x y z, [x, y, z].Sublist l → p x = true → p z = true → p y = true := by
  refine ⟨fun h x y z hsub hx hz => ?_, isInfix_filter⟩
  obtain ⟨pre, post, hl, hpre, hpost⟩ := h.split
  rw [hl] at hsub
  obtain ⟨s, t, hst, hs, ht⟩ := sublist_append_iff.1 hsub
  obtain ⟨u, v, rfl, hu, hv⟩ := sublist_append_iff.1 hs
  -- the first element is not in `pre` and the last is not in `post`
  have hu' : u = [] := by
    cases u with
    | nil => rfl
    | cons a u =>
      obtain rfl : x = a := by simpa using congrArg List.head? hst
      exact absurd hx (by simp [hpre x (hu.subset mem_cons_self)])
  have ht' : t = [] := by
    rcases eq_nil_or_concat' t with rfl | ⟨t, a, rfl⟩
    · rfl
    · obtain rfl : z = a := by simpa using congrArg List.getLast? hst
      exact absurd hz (by simp [hpost z (ht.subset (by simp))])
  subst hu' ht'
  rw [nil_append, append_nil] at hst
  rw [← hst] at hv
  exact (mem_filter.1 (hv.subset (by simp))).2

theorem Contiguous.of_sublist (h : Contiguous p l) {m : List α} (hm : m.Sublist l) :
    Contiguous p m :=
  contiguous_iff.2 fun x y z hsub => contiguous_iff.1 h x y z (hsub.trans hm)

/-- In a list without repeats, what comes before an element. -/
theorem eq_of_append_cons {pre' post' : List α} (hnd : (pre ++ x :: post).Nodup)
    (h : pre ++ x :: post = pre' ++ x :: post') : pre = pre' := by
  classical
  have htake : ∀ {p q : List α}, (p ++ x :: q).Nodup → (p ++ x :: q).takeWhile (· ≠ x) = p := by
    intro p q hpq
    have hx : x ∉ p := fun hp => (nodup_middle.1 hpq).notMem (mem_append_left q hp)
    rw [takeWhile_append_of_pos fun y hy => by simpa using ne_of_mem_of_not_mem hy hx]
    simp
  rw [← htake hnd, h, htake (h ▸ hnd)]

/-! ## Runs -/

section Runs

variable [DecidableEq β] {r : α → α → Bool} (key : α → Option β)

/-- Contiguous elements of a key are one run, if neighbours are in one run where they have one
key. -/
theorem splitBy_of_contiguous (hr : ∀ a b, r a b = decide (key a = key b ∧ key a ≠ none)) {k : β}
    (h : Contiguous (fun x => key x = some k) l) (hmem : ∃ x ∈ l, key x = some k) :
    ∃ before after, l.splitBy r = before ++ l.filter (fun x => key x = some k) :: after ∧
      (∀ run ∈ before, ∀ x ∈ run, key x ≠ some k) ∧
      ∀ run ∈ after, ∀ x ∈ run, key x ≠ some k := by
  obtain ⟨pre, post, hl, hpre, hpost⟩ := h.split
  obtain ⟨mid, hmid⟩ : ∃ mid, mid = l.filter fun x => key x = some k := ⟨_, rfl⟩
  have hall : ∀ x ∈ mid, key x = some k := fun x hx => by
    rw [hmid] at hx
    simpa using (mem_filter.1 hx).2
  have hne : mid ≠ [] := by
    obtain ⟨x, hx, hxk⟩ := hmem
    exact ne_nil_of_mem (hmid ▸ mem_filter.2 ⟨hx, by simpa using hxk⟩)
  rw [← hmid] at hl ⊢
  have hchain : mid.IsChain fun x y => r x y = true := by
    refine List.Pairwise.isChain (pairwise_of_forall_mem_list fun x hx y hy => ?_)
    simp [hr, hall x hx, hall y hy]
  have hleft : (pre ++ mid).splitBy r = pre.splitBy r ++ mid.splitBy r := by
    refine splitBy_append fun x hx y hy => ?_
    have hx' := hpre x (mem_of_mem_getLast? hx)
    have hy' := hall y (mem_of_mem_head? hy)
    rw [decide_eq_false_iff_not] at hx'
    rw [hr, decide_eq_false_iff_not, hy']
    exact fun h => hx' h.1
  have hright : (pre ++ mid ++ post).splitBy r = (pre ++ mid).splitBy r ++ post.splitBy r := by
    refine splitBy_append fun x hx y hy => ?_
    have hy' := hpost y (mem_of_mem_head? hy)
    have hx' : x ∈ mid := by
      rw [getLast?_append_of_ne_nil _ hne] at hx
      exact mem_of_mem_getLast? hx
    rw [decide_eq_false_iff_not] at hy'
    rw [hr, decide_eq_false_iff_not, hall x hx']
    exact fun h => hy' h.1.symm
  have hruns : ∀ m : List α, (∀ x ∈ m, decide (key x = some k) = false) →
      ∀ run ∈ m.splitBy r, ∀ x ∈ run, key x ≠ some k := by
    intro m hm run hrun x hx
    have : x ∈ m := by
      rw [← flatten_splitBy r m]
      exact mem_flatten.2 ⟨run, hrun, hx⟩
    simpa using hm x this
  refine ⟨pre.splitBy r, post.splitBy r, ?_, hruns pre hpre, hruns post hpost⟩
  conv_lhs => rw [hl]
  rw [hright, hleft, splitBy_of_isChain hne hchain]
  simp

end Runs

/-! ## Classes -/

/-- The elements class by class. -/
theorem perm_flatMap_filter [DecidableEq β] (f : α → β) :
    ∀ {ks : List β} {l : List α}, ks.Nodup → (∀ x ∈ l, f x ∈ ks) →
      (ks.flatMap fun k => l.filter fun x => f x = k).Perm l
  | [], l, _, hl => by
    obtain rfl : l = [] := eq_nil_iff_forall_not_mem.2 fun x hx => by simpa using hl x hx
    exact List.Perm.nil
  | k :: ks, l, hnd, hl => by
    obtain ⟨hk, hnd⟩ := nodup_cons.1 hnd
    have hrest : ∀ k' ∈ ks, (l.filter fun x => f x = k') =
        (l.filter fun x => !decide (f x = k)).filter fun x => f x = k' := by
      intro k' hk'
      rw [filter_filter]
      refine filter_congr fun x _ => ?_
      by_cases hx : f x = k'
      · have : k' ≠ k := fun h => hk (h ▸ hk')
        simp [hx, this]
      · simp [hx]
    rw [flatMap_cons, flatMap_congr hrest]
    refine (List.Perm.append_left _ (perm_flatMap_filter f hnd fun x hx => ?_)).trans
      (filter_append_perm _ l)
    obtain ⟨hx, hne⟩ := mem_filter.1 hx
    exact (mem_cons.1 (hl x hx)).resolve_left (by simpa using hne)

theorem eq_singleton_of_mem_iff (hl : l.Nodup) (h : ∀ x, x ∈ l ↔ x = a) : l = [a] :=
  perm_singleton.mp ((perm_ext_iff_of_nodup hl (nodup_singleton a)).mpr (by simpa))

theorem isLeast_min? {l : List ℤ} (hl : l ≠ []) : IsLeast {x | x ∈ l} (l.min?.getD 0) := by
  obtain ⟨m, hm⟩ := Option.ne_none_iff_exists'.mp (mt min?_eq_none_iff.mp hl)
  rw [hm]
  exact min?_eq_some_iff.mp hm

theorem isGreatest_max? {l : List ℤ} (hl : l ≠ []) : IsGreatest {x | x ∈ l} (l.max?.getD 0) := by
  obtain ⟨m, hm⟩ := Option.ne_none_iff_exists'.mp (mt max?_eq_none_iff.mp hl)
  rw [hm]
  exact max?_eq_some_iff.mp hm

/-! ## Dictionaries -/

theorem lookup_eq_of_mem [BEq α] [LawfulBEq α] {d : List (α × β)} (hnd : (d.map Prod.fst).Nodup)
    {p : α × β} (hp : p ∈ d) : d.lookup p.1 = some p.2 := by
  obtain ⟨l₁, l₂, rfl⟩ := append_of_mem hp
  refine lookup_eq_some_iff.2 ⟨l₁, l₂, rfl, fun q hq => ?_⟩
  rw [map_append, nodup_append] at hnd
  have hne := hnd.2.2 q.1 (mem_map_of_mem hq) p.1 (by simp)
  simpa using hne.symm

theorem mem_of_lookup [BEq α] [LawfulBEq α] {d : List (α × β)} {k : α} {b : β}
    (h : d.lookup k = some b) : (k, b) ∈ d := by
  obtain ⟨l₁, l₂, rfl, -⟩ := lookup_eq_some_iff.1 h
  simp

theorem lookup_eq_some_iff_mem [BEq α] [LawfulBEq α] {d : List (α × β)}
    (hnd : (d.map Prod.fst).Nodup) {k : α} {b : β} : d.lookup k = some b ↔ (k, b) ∈ d :=
  ⟨mem_of_lookup, fun h => lookup_eq_of_mem hnd h⟩

/-- A dictionary that gives each key of a list its value under a function. -/
theorem lookup_map_pair [DecidableEq α] (f : α → β) (x : α) :
    ∀ l : List α, (l.map fun y => (y, f y)).lookup x = if x ∈ l then some (f x) else none
  | [] => rfl
  | y :: l => by
    rw [map_cons, lookup_cons, lookup_map_pair f x l]
    by_cases hxy : x = y
    · simp [hxy]
    · have hne : (x == y) = false := beq_eq_false_iff_ne.2 hxy
      simp [hne, hxy]

/-- A permutation of a mapped list is the map of a permutation. -/
theorem exists_perm_of_map_perm {f : α → β} {m : List β} (h : (l.map f).Perm m) :
    ∃ l' : List α, l.Perm l' ∧ l'.map f = m := by
  have hrel : Relation.Comp (List.Forall₂ fun x y => f x = y) List.Perm l m :=
    ⟨l.map f, forall₂_map_right_iff.2 (forall₂_same.2 fun _ _ => rfl), h⟩
  rw [forall₂_comp_perm_eq_perm_comp_forall₂] at hrel
  obtain ⟨l', hperm, hmap⟩ := hrel
  rw [← forall₂_map_left_iff, forall₂_eq_eq_eq] at hmap
  exact ⟨l', hperm, hmap⟩

/-- A sum with one term that is not zero. -/
theorem sum_map_single {M : Type} [AddMonoid M] {f : α → M} {k : α → β} (hnd : (l.map k).Nodup)
    {x : α} (hx : x ∈ l) (hf : ∀ y ∈ l, k y ≠ k x → f y = 0) : (l.map f).sum = f x := by
  classical
  rw [sum_map_eq_nsmul_single x f fun y hne hy => hf y hy fun h =>
    hne (inj_on_of_nodup_map hnd hy hx h), count_eq_one_of_mem (hnd.of_map k) hx, one_nsmul]

end Lists
