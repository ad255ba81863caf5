import Mathlib
import TorchSpyre.Contiguous
import TorchSpyre.Layout.Resize
import TorchSpyre.Layout.TileStride
import TorchSpyre.Tiling.Advance

/-!
# Resizing commutes with building

The layout of a dense tensor, resized to a tile, is the layout of the tile. The matches of the
first pass are followed by what a device dimension was built from : a dimension that is not
cut into sticks is matched to itself, by its size or by its stride (`classify_whole`) ; a
dimension of size one is matched, if at all, to one of size one (`classify_one`) ; the sticks
are left over or are matched by their number alone, which the pass after finds out, since
their stride is no stride of a dimension of that size (`classify_sticks`). So every pass
writes what the layout of the tile has at that place (`put`), and no place that differs is
left out.
-/

open List

namespace TorchSpyre

open Checked SpyreTensorLayout Tiling

/-! ## Copying from another layout -/

section Copy

variable {α : Type} {z : α}

theorem getElem?_foldl_set {t : List α} {i : ℕ} :
    ∀ (js : List ℕ) (l : List α), l.length = t.length →
      (js.foldl (fun l j => l.set j (t.getD j z)) l)[i]? = if i ∈ js then t[i]? else l[i]?
  | [], l, _ => by simp
  | j :: js, l, hlen => by
    rw [foldl_cons, getElem?_foldl_set js _ (by simpa using hlen)]
    by_cases hi : i ∈ js
    · simp [hi]
    · by_cases hij : i = j
      · subst hij
        by_cases hlt : i < t.length
        · simp [hi, hlt, hlen]
        · simp [hi, hlt, hlen]
      · simp [hi, hij, getElem?_set_ne (Ne.symm hij)]

end Copy

namespace SpyreTensorLayout

/-- Copy device dimension `j` of another layout. -/
def put (target layout : SpyreTensorLayout) (j : ℕ) : SpyreTensorLayout where
  deviceSize := layout.deviceSize.set j (target.deviceSize.getD j 0)
  strideMap := layout.strideMap.set j (target.strideMap.getD j 0)

theorem foldl_put (target layout : SpyreTensorLayout) (js : List ℕ) :
    js.foldl (put target) layout =
      ⟨js.foldl (fun l j => l.set j (target.deviceSize.getD j 0)) layout.deviceSize,
        js.foldl (fun l j => l.set j (target.strideMap.getD j 0)) layout.strideMap⟩ := by
  induction js generalizing layout with
  | nil => rfl
  | cons j js ih => exact ih _

theorem length_foldl_put (target layout : SpyreTensorLayout) (js : List ℕ) :
    (js.foldl (put target) layout).strideMap.length = layout.strideMap.length := by
  induction js generalizing layout with
  | nil => rfl
  | cons j js ih =>
    rw [foldl_cons, ih]
    exact length_set

end SpyreTensorLayout

/-! ## The passes over the layout of a dense tensor -/

namespace ResizeInput

section General

variable {r : ResizeInput} {j p : ℕ}

theorem mem_sizeCands {n : ℕ} :
    p ∈ r.sizeCands n ↔ p < r.ndim ∧ r.oldSize p = n ∧ r.stickHostDim ≠ some p := by
  simp [sizeCands]

variable {matched : List (ℕ × ℕ)} {l : List ℕ}

theorem eq_singleton_of_length (h : l.length = 1) : l = [l.headD 0] := by
  obtain ⟨a, rfl⟩ := length_eq_one_iff.mp h
  rfl

theorem headD_mem_of_length (h : l.length = 1) : l.headD 0 ∈ l := by
  obtain ⟨a, rfl⟩ := length_eq_one_iff.mp h
  simp

/-- A match has the size of the device dimension. -/
theorem mem_sizeCands_of_classify (h : r.classify j = .host p) :
    p ∈ r.sizeCands (r.origDs j) := by
  simp only [classify] at h
  split_ifs at h with h₁ h₂ h₃ h₄ h₅
  · cases h
    exact headD_mem_of_length h₃
  · cases h
    exact headD_mem_of_length h₄
  · cases h
    exact (mem_filter.mp (headD_mem_of_length h₅)).1

/-- A device dimension of size above one is matched where the stride decides. -/
theorem classify_of_stride (hj : r.origDs j ≠ 1) (hp : p ∈ r.sizeCands (r.origDs j))
    (hstride : (r.oldStride p : ℤ) = r.origSm j)
    (hunique : ∀ q ∈ r.sizeCands (r.origDs j), (r.oldStride q : ℤ) = r.origSm j → q = p) :
    r.classify j = .host p := by
  simp only [classify, if_neg hj]
  by_cases hone : (r.sizeCands (r.origDs j)).length = 1
  · rw [if_pos hone]
    have hmem := hp
    rw [eq_singleton_of_length hone, mem_singleton] at hmem
    rw [hmem]
  · have hnodup : (r.sizeCands (r.origDs j)).Nodup := nodup_range.filter _
    have hsingle : (r.sizeCands (r.origDs j)).filter
        (fun q => (r.oldStride q : ℤ) = r.origSm j) = [p] := by
      refine Lists.eq_singleton_of_mem_iff (hnodup.filter _) fun q => ?_
      simp only [mem_filter, decide_eq_true_eq]
      constructor
      · rintro ⟨hq, hstr⟩
        exact hunique q hq hstr
      · rintro rfl
        exact ⟨hp, hstride⟩
    rw [if_neg hone, hsingle]
    rfl

/-- A device dimension of size one and no stride is not left to the sticks. -/
theorem classify_of_one (hj : r.origDs j = 1) (hsm : r.origSm j = -1) :
    r.classify j = .placeholder ∨ ∃ p, r.classify j = .host p := by
  simp only [classify, if_pos hj, hsm, ne_eq, not_true_eq_false, if_false]
  split_ifs
  · exact .inr ⟨_, rfl⟩
  · exact .inl rfl

/-- A device dimension of size above one is matched or left to the sticks. -/
theorem classify_of_ne_one (hj : r.origDs j ≠ 1) :
    r.classify j = .unmatched ∨ ∃ p, r.classify j = .host p := by
  simp only [classify, if_neg hj]
  split_ifs
  · exact .inr ⟨_, rfl⟩
  · exact .inr ⟨_, rfl⟩
  · exact .inl rfl

theorem mem_matchedHost :
    (j, p) ∈ r.matchedHost ↔ j < r.ndev - 1 ∧ r.classify j = .host p := by
  simp only [matchedHost, mem_filterMap, mem_range]
  constructor
  · rintro ⟨i, hi, h⟩
    cases hc : r.classify i with
    | host q =>
      rw [hc] at h
      obtain ⟨rfl, rfl⟩ : i = j ∧ q = p := by simpa using h
      exact ⟨hi, hc⟩
    | unmatched => simp [hc] at h
    | placeholder => simp [hc] at h
  · rintro ⟨hj, hc⟩
    exact ⟨j, hj, by rw [hc]⟩

theorem mem_unmatchedJ : j ∈ r.unmatchedJ ↔ j < r.ndev - 1 ∧ r.classify j = .unmatched := by
  simp [unmatchedJ]

theorem mem_unmatchedAll :
    p ∈ r.unmatchedAll matched ↔ p < r.ndim ∧ p ∉ matched.map Prod.snd := by
  simp [unmatchedAll]

theorem mem_unmatchedAll_of_mem_pstarCands (h : p ∈ r.pstarCands matched) :
    p ∈ r.unmatchedAll matched := by
  simp only [pstarCands] at h
  split_ifs at h
  · exact h
  · exact (mem_filter.mp h).1

/-- A stick dimension is one that is left over. -/
theorem pstar_cases (matched : List (ℕ × ℕ)) (unmatched : List ℕ) :
    (∃ e, r.pstar matched unmatched = .error e) ∨ r.pstar matched unmatched = .ok none ∨
      ∃ p ∈ r.unmatchedAll matched, r.pstar matched unmatched = .ok (some p) := by
  rw [pstar]
  cases r.stickHostDim with
  | some s =>
    by_cases hs : s ∈ r.unmatchedAll matched
    · exact .inr (.inr ⟨s, hs, by simp only [guardE, if_pos hs]; rfl⟩)
    · exact .inl ⟨_, by simp only [guardE, if_neg hs]; rfl⟩
  | none =>
    by_cases hleft : r.unmatchedAll matched = []
    · simp only [if_pos hleft]
      by_cases hempty : unmatched = []
      · exact .inr (.inl (by simp only [guardE, if_pos hempty]; rfl))
      · exact .inl ⟨_, by simp only [guardE, if_neg hempty]; rfl⟩
    · simp only [if_neg hleft]
      by_cases hone : (r.pstarCands matched).length = 1
      · obtain ⟨p, hp⟩ := length_eq_one_iff.mp hone
        have hmem : p ∈ r.unmatchedAll matched :=
          mem_unmatchedAll_of_mem_pstarCands (hp ▸ mem_singleton_self p)
        exact .inr (.inr ⟨p, hmem, by simp only [guardE, hp]; rfl⟩)
      · exact .inl ⟨_, by simp only [guardE, if_neg hone]; rfl⟩

end General

end ResizeInput

/-! ## What a device dimension was built from -/

section Dims

variable {T : DenseTensor} {o : DimOrder T.rank} {S : ℕ} {j d : ℕ} {h : Option ℕ}

theorem deviceSize_getD (hj : o.deviceDims[j]? = some h) :
    (ofOrder T o S).deviceSize.getD j 0 = extent T o S h := by
  obtain ⟨hlt, hget⟩ := List.getElem?_eq_some_iff.mp hj
  simp [ofOrder, getElem?_append, hlt, hget]

theorem strideMap_getD (hj : o.deviceDims[j]? = some h) :
    (ofOrder T o S).strideMap.getD j 0 = outerStride T o S h := by
  obtain ⟨hlt, hget⟩ := List.getElem?_eq_some_iff.mp hj
  simp [ofOrder, getElem?_append, hlt, hget]

theorem mem_toList_of_getElem? (hj : o.deviceDims[j]? = some (some d)) : d < T.rank := by
  have hmem := mem_of_getElem? hj
  suffices htoList : some d ∈ o.toList from DimOrder.some_mem_toList.mp htoList
  cases hlist : o.toList with
  | nil => simp [DimOrder.deviceDims, hlist] at hmem
  | cons a l => simpa [DimOrder.deviceDims, hlist, or_comm] using hmem

theorem stick_lt_rank (hs : o.stickDim = some d) : d < T.rank := by
  suffices htoList : some d ∈ o.toList from DimOrder.some_mem_toList.mp htoList
  cases hlist : o.toList with
  | nil => simp [DimOrder.stickDim, hlist] at hs
  | cons a l =>
    rw [DimOrder.stickDim, hlist, getLastD_cons] at hs
    exact hs ▸ getLastD_mem_cons

theorem stickStride_of_trivial (ht : ∀ s, o.stickDim = some s → T.size s = 1) :
    stickStride T o = -1 := by
  cases hs : o.stickDim with
  | none => simp [stickStride, hs]
  | some s => simp [stickStride, hs, ht s hs]

theorem exists_getElem? (hd : d < T.rank) : ∃ j : ℕ, o.deviceDims[j]? = some (some d) :=
  mem_iff_getElem?.mp (some_mem_deviceDims hd)

/-- A device dimension of no host dimension, or of one of size one. -/
def Trivial (T : DenseTensor) (h : Option ℕ) : Prop :=
  ∀ d, h = some d → T.size d = 1

theorem extent_of_trivial (hS : 0 < S) (hj : o.deviceDims[j]? = some h) (ht : Trivial T h) :
    extent T o S h = 1 := by
  cases h with
  | none => rfl
  | some d =>
    have hd := mem_toList_of_getElem? hj
    by_cases hs : o.stickDim = some d
    · rw [extent_stick hd hs, ht d rfl, Nat.add_sub_cancel_left, Nat.div_self hS]
    · rw [extent_of_ne_stick hd hs, ht d rfl]

theorem outerStride_of_trivial (ht : Trivial T h) : outerStride T o S h = -1 := by
  cases h with
  | none => rfl
  | some d => rw [outerStride, if_pos (ht d rfl)]

/-- The stride of the sticks is the stride of no dimension as long as there are sticks. -/
theorem stick_stride_ne {s p : ℕ} (hS : 0 < S) (hs : s < T.rank) (hp : p < T.rank) (hps : p ≠ s)
    (hlong : S < T.size s) (hsize : T.size p ≠ 1) :
    T.hostStride s * S ≠ T.hostStride p := by
  have hs₁ := T.hostStride_pos s
  have hp₁ := T.hostStride_pos p
  have hp₀ := T.size_pos p hp
  rcases DenseTensor.span_dvd_hostStride hs hp (Ne.symm hps) with hdvd | hdvd
  · have hle := Nat.le_of_dvd hp₁ hdvd
    have hlt : T.hostStride s * S < T.hostStride s * T.size s :=
      Nat.mul_lt_mul_of_pos_left hlong hs₁
    rw [mul_comm] at hle
    omega
  · have hle := Nat.le_of_dvd hs₁ hdvd
    have htwo : 2 * T.hostStride p ≤ T.size p * T.hostStride p := Nat.mul_le_mul_right _ (by omega)
    have hle' : T.hostStride s ≤ T.hostStride s * S := Nat.le_mul_of_pos_right _ hS
    omega

/-- Sticks of two elements or more are fewer than the elements. -/
theorem sticks_lt {n : ℕ} (hS : 1 < S) (hn : 1 < n) : (n + S - 1) / S < n := by
  rw [Nat.div_lt_iff_lt_mul (by omega)]
  nlinarith [Nat.sub_add_cancel (show 1 ≤ n + S by omega)]

end Dims

namespace ResizeInput

/-- The call for a dense tensor. -/
def ofDense (T : DenseTensor) (o : DimOrder T.rank) (S : ℕ) (named : Option ℕ) : ResizeInput where
  orig := ofOrder T o S
  elemsPerStick := S
  oldHostSize := T.hostSize
  oldHs := T.hostStrides
  stickHostDim := named

/-- A call for the layout of a dense tensor : a stick holds more than one element, and a stick
dimension that is named is the tensor's. -/
structure DenseCall (T : DenseTensor) (o : DimOrder T.rank) (S : ℕ) where
  named : Option ℕ
  one_lt : 1 < S
  named_ok : named = none ∨ named = o.stickDim

section Dense

variable {T : DenseTensor} {o : DimOrder T.rank} {S : ℕ} {c : DenseCall T o S} {j p d s : ℕ}
  {h : Option ℕ}

/-- The arguments of the call. -/
def DenseCall.input (c : DenseCall T o S) : ResizeInput :=
  ofDense T o S c.named

theorem DenseCall.pos (c : DenseCall T o S) : 0 < S :=
  Nat.zero_lt_of_lt c.one_lt

theorem ofDense_ndim : c.input.ndim = T.rank := by
  simp [DenseCall.input, ofDense, ndim, DenseTensor.hostSize]

theorem ofDense_ndev : c.input.ndev = o.deviceDims.length + 1 := by
  simp [DenseCall.input, ofDense, ndev, ofOrder]

theorem ofDense_oldSize (hp : p < T.rank) : c.input.oldSize p = T.size p :=
  DenseTensor.hostSize_getD hp

theorem ofDense_oldStride (hp : p < T.rank) :
    c.input.oldStride p = T.hostStride p :=
  DenseTensor.hostStrides_getD hp

theorem ofDense_origDs (hj : o.deviceDims[j]? = some h) :
    c.input.origDs j = extent T o S h :=
  deviceSize_getD hj

theorem ofDense_origSm (hj : o.deviceDims[j]? = some h) :
    c.input.origSm j = outerStride T o S h :=
  strideMap_getD hj

theorem lt_ndev_iff : j < c.input.ndev - 1 ↔ ∃ h, o.deviceDims[j]? = some h := by
  rw [ofDense_ndev, Nat.add_sub_cancel, ← Option.isSome_iff_exists]
  simp

theorem mem_sizeCands_ofDense {n : ℕ} : p ∈ c.input.sizeCands n ↔
    p < T.rank ∧ T.size p = n ∧ c.named ≠ some p := by
  rw [mem_sizeCands, ofDense_ndim]
  refine and_congr_right fun hp => ?_
  rw [ofDense_oldSize hp]
  rfl

variable (c) in
/-- A dimension that is not cut into sticks is matched to itself. -/
theorem classify_whole (hj : o.deviceDims[j]? = some (some d)) (hs : o.stickDim ≠ some d)
    (hsize : T.size d ≠ 1) : c.input.classify j = .host d := by
  have hd := mem_toList_of_getElem? hj
  have hds : c.input.origDs j = T.size d := by
    rw [ofDense_origDs hj, extent_of_ne_stick hd hs]
  have hsm : c.input.origSm j = T.hostStride d := by
    rw [ofDense_origSm hj, outerStride, if_neg hsize, if_neg hs]
  have hne : c.named ≠ some d := by
    rcases c.named_ok with h | h
    · simp [h]
    · rwa [h]
  refine classify_of_stride (hds ▸ hsize) ?_ ?_ fun q hq hstride => ?_
  · exact mem_sizeCands_ofDense.mpr ⟨hd, hds.symm, hne⟩
  · rw [ofDense_oldStride hd, hsm]
  · obtain ⟨hq, hqsize, -⟩ := mem_sizeCands_ofDense.mp hq
    rw [ofDense_oldStride hq, hsm, Nat.cast_inj] at hstride
    by_contra hqd
    exact DenseTensor.hostStride_ne hq hd hqd (hqsize.trans hds ▸ hsize) hsize hstride

variable (c) in
/-- A dimension of size one is matched, if at all, to one of size one. -/
theorem classify_one (hj : o.deviceDims[j]? = some h) (ht : Trivial T h) :
    c.input.classify j = .placeholder ∨
      ∃ p, c.input.classify j = .host p ∧ p < T.rank ∧ T.size p = 1 := by
  have hds : c.input.origDs j = 1 := by
    rw [ofDense_origDs hj, extent_of_trivial c.pos hj ht]
  have hsm : c.input.origSm j = -1 := by
    rw [ofDense_origSm hj, outerStride_of_trivial ht]
  refine (classify_of_one hds hsm).imp_right ?_
  rintro ⟨p, hp⟩
  obtain ⟨hlt, hsize, -⟩ := mem_sizeCands_ofDense.mp (mem_sizeCands_of_classify hp)
  exact ⟨p, hp, hlt, hsize.trans hds⟩

variable (c) in
/-- The sticks are left over, or matched by their number alone. -/
theorem classify_sticks (hj : o.deviceDims[j]? = some (some s)) (hs : o.stickDim = some s)
    (hsize : T.size s ≠ 1) :
    c.input.classify j = .unmatched ∨
      ∃ p, c.input.classify j = .host p ∧ p ≠ s ∧
        c.input.Collides s (j, p) := by
  have hlt := mem_toList_of_getElem? hj
  have hS := c.one_lt
  have hpos := T.size_pos s hlt
  have hds : c.input.origDs j = extent T o S (some s) := ofDense_origDs hj
  have hsm : c.input.origSm j =
      ((T.hostStride s * min S (T.size s) : ℕ) : ℤ) := by
    rw [ofDense_origSm hj, outerStride, if_neg hsize, if_pos hs]
  by_cases hone : c.input.origDs j = 1
  · left
    simp only [classify, if_pos hone]
    rw [if_pos (by rw [hsm]; omega)]
  · refine (classify_of_ne_one hone).imp_right ?_
    rintro ⟨p, hp⟩
    obtain ⟨hplt, hpsize, -⟩ := mem_sizeCands_ofDense.mp (mem_sizeCands_of_classify hp)
    have hext : 0 < extent T o S (some s) := by
      rw [extent_stick hlt hs]
      exact Nat.div_pos (by omega) (by omega)
    have hmany : 1 < extent T o S (some s) := by omega
    have hlong : S < T.size s := (one_lt_extent_stick_iff (by omega) hlt hs).mp hmany
    have hps : p ≠ s := by
      rintro rfl
      have hfew := sticks_lt (n := T.size p) hS (by omega)
      rw [← extent_stick hlt hs] at hfew
      omega
    have hdiff := stick_stride_ne (by omega) hlt hplt hps hlong (by omega)
    refine ⟨p, hp, hps, ?_, ?_, ?_⟩
    · exact hds ▸ hmany
    · rw [ofDense_oldStride hplt, hsm, min_eq_left hlong.le]
      exact_mod_cast hdiff
    · rw [ofDense_oldSize hlt, hds, extent_stick hlt hs]
      rfl

/-! ## After the first passes -/

/-- What the first passes find : the device dimensions that are matched, and those that hold
sticks. -/
structure Found (T : DenseTensor) (o : DimOrder T.rank) (matched : List (ℕ × ℕ))
    (unmatched : List ℕ) : Prop where
  matched_dim : ∀ m ∈ matched, ∃ h, o.deviceDims[m.1]? = some h ∧
    (h = some m.2 ∧ o.stickDim ≠ some m.2 ∨ Trivial T h ∧ m.2 < T.rank ∧ T.size m.2 = 1)
  whole_mem : ∀ j d : ℕ, o.deviceDims[j]? = some (some d) → o.stickDim ≠ some d → T.size d ≠ 1 →
    (j, d) ∈ matched
  unmatched_iff : ∀ j : ℕ, j ∈ unmatched ↔
    ∃ s, o.deviceDims[j]? = some (some s) ∧ o.stickDim = some s ∧ T.size s ≠ 1

/-- Every dimension but the stick dimension is matched, if it is not of size one. -/
def Covers (T : DenseTensor) (o : DimOrder T.rank) (matched : List (ℕ × ℕ)) : Prop :=
  ∀ d < T.rank, o.stickDim ≠ some d → T.size d ≠ 1 → d ∈ matched.map Prod.snd

variable {matched : List (ℕ × ℕ)}

theorem covers_of_whole_mem
    (hwhole : ∀ j d : ℕ, o.deviceDims[j]? = some (some d) → o.stickDim ≠ some d → T.size d ≠ 1 →
      (j, d) ∈ matched) : Covers T o matched := by
  intro d hd hs hsize
  obtain ⟨j, hj⟩ := exists_getElem? (o := o) hd
  exact mem_map.mpr ⟨(j, d), hwhole j d hj hs hsize, rfl⟩

/-- The stick dimension is what is left. -/
theorem pstarCands_of_stick (hcovers : Covers T o matched) (hlt : s < T.rank)
    (hs : o.stickDim = some s) (hsize : T.size s ≠ 1) (hnot : s ∉ matched.map Prod.snd) :
    c.input.pstarCands matched = [s] := by
  have hpos := T.size_pos s hlt
  have hsingle : (c.input.unmatchedAll matched).filter
      (fun p => 1 < c.input.oldSize p) = [s] := by
    refine Lists.eq_singleton_of_mem_iff ((nodup_range.filter _).filter _) fun p => ?_
    rw [mem_filter, decide_eq_true_eq, mem_unmatchedAll, ofDense_ndim]
    constructor
    · rintro ⟨⟨hp, hpnot⟩, hpsize⟩
      rw [ofDense_oldSize hp] at hpsize
      by_contra hps
      refine hpnot (hcovers p hp (fun h => hps ?_) (by omega))
      exact Option.some_injective ℕ (h.symm.trans hs)
    · rintro rfl
      rw [ofDense_oldSize hlt]
      exact ⟨⟨hlt, hnot⟩, by omega⟩
  rw [pstarCands, hsingle]
  rfl

/-- With no stick dimension to find, only dimensions of size one are left. -/
theorem size_eq_one_of_unmatched (hcovers : Covers T o matched)
    (hnone : ∀ s, o.stickDim = some s → T.size s = 1)
    (hp : p ∈ c.input.unmatchedAll matched) : p < T.rank ∧ T.size p = 1 := by
  rw [mem_unmatchedAll, ofDense_ndim] at hp
  refine ⟨hp.1, ?_⟩
  by_contra hsize
  exact hp.2 (hcovers p hp.1 (fun h => hsize (hnone p h)) hsize)

/-- What the first pass matches a device dimension to. -/
theorem matchedHost_cases {m : ℕ × ℕ} (hm : m ∈ c.input.matchedHost) :
    ∃ h, o.deviceDims[m.1]? = some h ∧
      ((h = some m.2 ∧ o.stickDim ≠ some m.2 ∧ T.size m.2 ≠ 1) ∨
        (Trivial T h ∧ m.2 < T.rank ∧ T.size m.2 = 1) ∨
          ∃ s, h = some s ∧ o.stickDim = some s ∧ T.size s ≠ 1 ∧ m.2 ≠ s ∧
            c.input.Collides s m) := by
  obtain ⟨j, p⟩ := m
  obtain ⟨hj, hc⟩ := mem_matchedHost.mp hm
  obtain ⟨h, hget⟩ := lt_ndev_iff.mp hj
  refine ⟨h, hget, ?_⟩
  by_cases ht : Trivial T h
  · rcases classify_one c hget ht with hp | ⟨q, hq, hlt, hsize⟩
    · simp [hp] at hc
    · obtain rfl : q = p := by simpa [hq] using hc
      exact .inr (.inl ⟨ht, hlt, hsize⟩)
  · obtain ⟨d, rfl, hsize⟩ : ∃ d, h = some d ∧ T.size d ≠ 1 := by
      simpa [Trivial] using ht
    by_cases hs : o.stickDim = some d
    · rcases classify_sticks c hget hs hsize with hp | ⟨q, hq, hne, hcol⟩
      · simp [hp] at hc
      · obtain rfl : q = p := by simpa [hq] using hc
        exact .inr (.inr ⟨d, rfl, hs, hsize, hne, hcol⟩)
    · have hq := classify_whole c hget hs hsize
      obtain rfl : d = p := by simpa [hq] using hc
      exact .inl ⟨rfl, hs, hsize⟩

theorem mem_unmatchedJ_ofDense (hj : j ∈ c.input.unmatchedJ) :
    ∃ s, o.deviceDims[j]? = some (some s) ∧ o.stickDim = some s ∧ T.size s ≠ 1 := by
  obtain ⟨hlt, hc⟩ := mem_unmatchedJ.mp hj
  obtain ⟨h, hget⟩ := lt_ndev_iff.mp hlt
  by_cases ht : Trivial T h
  · rcases classify_one c hget ht with hp | ⟨q, hq, -⟩
    · simp [hp] at hc
    · simp [hq] at hc
  · obtain ⟨d, rfl, hsize⟩ : ∃ d, h = some d ∧ T.size d ≠ 1 := by
      simpa [Trivial] using ht
    refine ⟨d, hget, ?_, hsize⟩
    by_contra hs
    simp [classify_whole c hget hs hsize] at hc

theorem whole_mem_matchedHost (hj : o.deviceDims[j]? = some (some d)) (hs : o.stickDim ≠ some d)
    (hsize : T.size d ≠ 1) : (j, d) ∈ c.input.matchedHost :=
  mem_matchedHost.mpr ⟨lt_ndev_iff.mpr ⟨_, hj⟩, classify_whole c hj hs hsize⟩

/-- A dimension that is matched to itself is not given back. -/
theorem not_collides_whole (hj : o.deviceDims[j]? = some (some d)) (hs : o.stickDim ≠ some d)
    (hsize : T.size d ≠ 1) : ¬c.input.Collides s (j, d) := by
  rintro ⟨-, hne, -⟩
  refine hne ?_
  rw [ofDense_origSm hj, outerStride, if_neg hsize, if_neg hs,
    ofDense_oldStride (mem_toList_of_getElem? hj)]

/-- A device dimension of size one is not given back. -/
theorem not_collides_trivial (hj : o.deviceDims[j]? = some h) (ht : Trivial T h) :
    ¬c.input.Collides s (j, p) := by
  rintro ⟨hlt, -, -⟩
  rw [ofDense_origDs hj, extent_of_trivial c.pos hj ht] at hlt
  omega

variable (c) in
/-- The sticks are given back, and nothing else is. -/
theorem found_of_stick (hlt : s < T.rank) (hs : o.stickDim = some s) (hsize : T.size s ≠ 1) :
    Found T o c.input.reclassify.1 c.input.reclassify.2 := by
  have hcovers : Covers T o c.input.matchedHost :=
    covers_of_whole_mem fun j d hj hd hne => whole_mem_matchedHost hj hd hne
  have hnot : s ∉ c.input.matchedHost.map Prod.snd := by
    intro hmem
    obtain ⟨m, hm, rfl⟩ := mem_map.mp hmem
    obtain ⟨h, -, ⟨-, hne, -⟩ | ⟨-, -, hone⟩ | ⟨s', -, hs', -, hne, -⟩⟩ :=
      matchedHost_cases hm
    · exact hne hs
    · exact hsize hone
    · exact hne (Option.some_injective ℕ (hs.symm.trans hs'))
  have hpstar : c.input.findPstar c.input.matchedHost = some s := by
    rw [findPstar, pstarCands_of_stick hcovers hlt hs hsize hnot]
    rfl
  rw [reclassify, hpstar]
  refine ⟨fun m hm => ?_, fun j d hj hd hne => ?_, fun j => ⟨fun hj => ?_, ?_⟩⟩
  · obtain ⟨hm, hcol⟩ := mem_filter.mp hm
    obtain ⟨h, hget, ⟨hh, hne, -⟩ | htriv | ⟨s', -, hs', -, -, hcol'⟩⟩ :=
      matchedHost_cases hm
    · exact ⟨h, hget, .inl ⟨hh, hne⟩⟩
    · exact ⟨h, hget, .inr htriv⟩
    · obtain rfl : s = s' := Option.some_injective ℕ (hs.symm.trans hs')
      simp [hcol'] at hcol
  · refine mem_filter.mpr ⟨whole_mem_matchedHost hj hd hne, ?_⟩
    simpa using not_collides_whole hj hd hne
  · rcases mem_append.mp hj with hj | hj
    · exact mem_unmatchedJ_ofDense hj
    · obtain ⟨m, hm, rfl⟩ := mem_map.mp hj
      obtain ⟨hm, hcol⟩ := mem_filter.mp hm
      have hcol : c.input.Collides s m := by simpa using hcol
      obtain ⟨h, hget, ⟨rfl, hne, hsize'⟩ | ⟨htriv, -⟩ | ⟨s', rfl, hs', hsize', -⟩⟩ :=
        matchedHost_cases hm
      · exact absurd hcol (not_collides_whole hget hne hsize')
      · exact absurd hcol (not_collides_trivial hget htriv)
      · exact ⟨s', hget, hs', hsize'⟩
  · rintro ⟨s', hget, hs', hsize'⟩
    obtain rfl : s = s' := Option.some_injective ℕ (hs.symm.trans hs')
    have hj : j < c.input.ndev - 1 := lt_ndev_iff.mpr ⟨_, hget⟩
    rcases classify_sticks c hget hs hsize with hc | ⟨p, hc, -, hcol⟩
    · exact mem_append_left _ (mem_unmatchedJ.mpr ⟨hj, hc⟩)
    · refine mem_append_right _ (mem_map.mpr ⟨(j, p), ?_, rfl⟩)
      exact mem_filter.mpr ⟨mem_matchedHost.mpr ⟨hj, hc⟩, by simpa using hcol⟩

variable (c) in
/-- Without a stick dimension to find, the matches stay as they are. -/
theorem found_of_none (hnone : ∀ s, o.stickDim = some s → T.size s = 1) :
    Found T o c.input.reclassify.1 c.input.reclassify.2 ∧
      c.input.reclassify.2 = [] := by
  have hcovers : Covers T o c.input.matchedHost :=
    covers_of_whole_mem fun j d hj hd hne => whole_mem_matchedHost hj hd hne
  have hunmatched : c.input.unmatchedJ = [] := by
    refine eq_nil_iff_forall_not_mem.mpr fun j hj => ?_
    obtain ⟨s, -, hs, hsize⟩ := mem_unmatchedJ_ofDense hj
    exact hsize (hnone s hs)
  have hkeep : ∀ m ∈ c.input.matchedHost, ∀ p,
      ¬c.input.Collides p m := by
    intro m hm p
    obtain ⟨h, hget, ⟨rfl, hne, hsize⟩ | ⟨htriv, -⟩ | ⟨s, -, hs, hsize, -⟩⟩ :=
      matchedHost_cases hm
    · exact not_collides_whole hget hne hsize
    · exact not_collides_trivial hget htriv
    · exact absurd (hnone s hs) hsize
  have hreclassify : c.input.reclassify =
      (c.input.matchedHost, []) := by
    rw [reclassify]
    cases c.input.findPstar c.input.matchedHost with
    | none => rw [hunmatched]
    | some p =>
      have hfilter : c.input.matchedHost.filter
          (fun m => ¬c.input.Collides p m) = c.input.matchedHost :=
        filter_eq_self.mpr fun m hm => by simpa using hkeep m hm p
      have hempty : c.input.matchedHost.filter
          (fun m => c.input.Collides p m) = [] :=
        filter_eq_nil_iff.mpr fun m hm => by simpa using hkeep m hm p
      simp only [hfilter, hempty, hunmatched, map_nil, append_nil]
  rw [hreclassify]
  refine ⟨⟨fun m hm => ?_, fun j d hj hd hne => whole_mem_matchedHost hj hd hne,
    fun j => ⟨by simp, ?_⟩⟩, rfl⟩
  · obtain ⟨h, hget, ⟨hh, hne, -⟩ | htriv | ⟨s, -, hs, hsize, -⟩⟩ :=
      matchedHost_cases hm
    · exact ⟨h, hget, .inl ⟨hh, hne⟩⟩
    · exact ⟨h, hget, .inr htriv⟩
    · exact absurd (hnone s hs) hsize
  · rintro ⟨s, -, hs, hsize⟩
    exact absurd (hnone s hs) hsize

end Dense

/-! ## The passes that write -/

/-- A tile of a dense tensor, whose sizes divide the tensor's, with strides that are the tile's
where they are read. -/
structure TileOf (T : DenseTensor) where
  size : ℕ → ℕ
  strides : List ℕ
  pos : ∀ d < T.rank, 0 < size d
  dvd : ∀ d < T.rank, size d ∣ T.size d
  stride : ∀ d < T.rank, size d ≠ 1 → strides.getD d 0 = (T.tile size pos).hostStride d

section Tile

variable {T : DenseTensor} {o : DimOrder T.rank} {S : ℕ} {c : DenseCall T o S} {U : TileOf T}
  {j s : ℕ} {h : Option ℕ}

/-- The tensor of the tile. -/
abbrev TileOf.tensor (U : TileOf T) : DenseTensor :=
  T.tile U.size U.pos

theorem trivial_tile (ht : Trivial T h) (hj : o.deviceDims[j]? = some h) : Trivial U.tensor h := by
  rintro d rfl
  exact Nat.dvd_one.mp (ht d rfl ▸ U.dvd d (mem_toList_of_getElem? hj))

theorem tile_hostSize_getD {d : ℕ} (hd : d < T.rank) :
    U.tensor.hostSize.getD d 0 = U.size d :=
  DenseTensor.hostSize_getD (T := U.tensor) hd

/-- Pass 2 copies the tile's layout. -/
theorem resizeMatched_eq_put {matched : List (ℕ × ℕ)} {unmatched : List ℕ}
    (hfound : Found T o matched unmatched) {m : ℕ × ℕ} (hm : m ∈ matched)
    (layout : SpyreTensorLayout) :
    c.input.resizeMatched U.tensor.hostSize U.strides layout m =
      put (ofOrder U.tensor o S) layout m.1 := by
  obtain ⟨h, hget, ⟨rfl, hs⟩ | ⟨ht, hlt, hone⟩⟩ := hfound.matched_dim m hm
  · have hd := mem_toList_of_getElem? hget
    have hext : extent U.tensor o S (some m.2) = U.size m.2 :=
      extent_of_ne_stick (T := U.tensor) hd hs
    rw [resizeMatched, put, deviceSize_getD (T := U.tensor) hget,
      strideMap_getD (T := U.tensor) hget, hext,
      tile_hostSize_getD hd, outerStride]
    by_cases htile : U.size m.2 = 1
    · rw [if_pos htile, if_pos (show U.tensor.size m.2 = 1 from htile)]
    · have hsize : T.size m.2 ≠ 1 := fun h => htile (Nat.dvd_one.mp (h ▸ U.dvd m.2 hd))
      have hsm : c.input.origSm m.1 = c.input.oldStride m.2 := by
        rw [ofDense_origSm hget, outerStride, if_neg hsize, if_neg hs, ofDense_oldStride hd]
      rw [if_neg htile, if_pos hsm, U.stride m.2 hd htile,
        if_neg (show ¬U.tensor.size m.2 = 1 from htile), if_neg hs]
  · have htile : U.size m.2 = 1 := Nat.dvd_one.mp (hone ▸ U.dvd m.2 hlt)
    have ht' : Trivial U.tensor h := trivial_tile ht hget
    rw [resizeMatched, put, deviceSize_getD (T := U.tensor) hget,
      strideMap_getD (T := U.tensor) hget,
      extent_of_trivial (T := U.tensor) c.pos hget ht', outerStride_of_trivial ht',
      tile_hostSize_getD hlt, if_pos htile, htile]

/-- Pass 3 accepts the sticks and copies the tile's layout. -/
theorem resizeTileCount_eq_put (matched : List (ℕ × ℕ)) (hget : o.deviceDims[j]? = some (some s))
    (hs : o.stickDim = some s) (hsize : T.size s ≠ 1) (layout : SpyreTensorLayout) :
    c.input.resizeTileCount U.tensor.hostSize U.strides matched s layout j =
      .ok (put (ofOrder U.tensor o S) layout j) := by
  have hd := mem_toList_of_getElem? hget
  have hds : c.input.origDs j =
      c.input.sticks (c.input.oldSize s) := by
    rw [ofDense_origDs hget, extent_stick hd hs, ofDense_oldSize hd]
    rfl
  have hsm : c.input.origSm j = c.input.tcStride s := by
    rw [ofDense_origSm hget, outerStride, if_neg hsize, if_pos hs, tcStride, ofDense_oldSize hd,
      ofDense_oldStride hd, mul_comm]
    rfl
  have hext : extent U.tensor o S (some s) =
      c.input.sticks (U.size s) := extent_stick (T := U.tensor) hd hs
  have hguard : c.input.origDs j =
      c.input.sticks (c.input.oldSize s) ∧
        (c.input.Ambiguous matched s j →
          c.input.origSm j = c.input.tcStride s) :=
    ⟨hds, fun _ => hsm⟩
  rw [resizeTileCount, put, deviceSize_getD (T := U.tensor) hget,
      strideMap_getD (T := U.tensor) hget, hext,
    tile_hostSize_getD hd, outerStride]
  simp only [guardE, if_pos hguard, if_pos hsm, if_pos hs]
  by_cases htile : U.size s = 1
  · rw [if_pos htile, if_pos (show U.tensor.size s = 1 from htile)]
    rfl
  · rw [if_neg htile, if_neg (show ¬U.tensor.size s = 1 from htile), U.stride s hd htile, mul_comm]
    rfl

/-- Pass 4 writes the stride of the tile's stick. -/
theorem resizeStick_eq (hlt : s < T.rank) (hs : o.stickDim = some s) (layout : SpyreTensorLayout) :
    c.input.resizeStick U.tensor.hostSize U.strides s layout =
      { layout with strideMap :=
          layout.strideMap.set o.deviceDims.length (stickStride U.tensor o) } := by
  have hlast : c.input.ndev - 1 = o.deviceDims.length := by
    rw [ofDense_ndev, Nat.add_sub_cancel]
  rw [resizeStick, hlast, tile_hostSize_getD hlt, stickStride, hs]
  dsimp only
  by_cases htile : U.size s = 1
  · rw [if_pos htile, if_pos (show U.tensor.size s = 1 from htile)]
  · have hsize : T.size s ≠ 1 := fun h => htile (Nat.dvd_one.mp (h ▸ U.dvd s hlt))
    have hsm : c.input.origSm o.deviceDims.length =
        c.input.oldStride s := by
      rw [ofDense_oldStride hlt]
      refine stick_stride.trans ?_
      rw [stickStride, hs]
      exact if_neg hsize
    rw [if_neg htile, if_pos hsm, U.stride s hlt htile,
      if_neg (show ¬U.tensor.size s = 1 from htile)]

variable (U) in
/-- Where nothing is copied the two layouts agree. -/
theorem foldl_put_eq (hS : 0 < S) {js : List ℕ}
    (hjs : ∀ (j : ℕ) h, o.deviceDims[j]? = some h → j ∈ js ∨ Trivial T h) (i : ℕ) :
    (js.foldl (put (ofOrder U.tensor o S)) (ofOrder T o S)).deviceSize[i]? =
        (ofOrder U.tensor o S).deviceSize[i]? ∧
      (i ≠ o.deviceDims.length →
        (js.foldl (put (ofOrder U.tensor o S)) (ofOrder T o S)).strideMap[i]? =
          (ofOrder U.tensor o S).strideMap[i]?) := by
  rw [foldl_put]
  dsimp only
  rw [getElem?_foldl_set js _ (by simp [ofOrder]), getElem?_foldl_set js _ (by simp [ofOrder])]
  by_cases hi : i ∈ js
  · simp [hi]
  rw [if_neg hi, if_neg hi]
  cases hget : o.deviceDims[i]? with
  | none =>
    have hlen := List.getElem?_eq_none_iff.mp hget
    refine ⟨?_, fun hne => ?_⟩
    · simp [ofOrder, getElem?_append, Nat.not_lt.mpr hlen]
    · have hbeyond : o.deviceDims.length + 1 ≤ i := by omega
      rw [getElem?_eq_none (by simpa [ofOrder] using hbeyond),
        getElem?_eq_none (by simpa [ofOrder] using hbeyond)]
  | some h =>
    have ht := (hjs i h hget).resolve_left hi
    have ht' : Trivial U.tensor h := trivial_tile ht hget
    obtain ⟨hlt, hh⟩ := List.getElem?_eq_some_iff.mp hget
    have hext : extent T o S h = extent U.tensor o S h := by
      rw [extent_of_trivial hS hget ht, extent_of_trivial (T := U.tensor) hS hget ht']
    have hstride : outerStride T o S h = outerStride U.tensor o S h := by
      rw [outerStride_of_trivial ht, outerStride_of_trivial ht']
    constructor
    · simp [ofOrder, getElem?_append, hlt, hh, hext]
    · simp [ofOrder, getElem?_append, hlt, hh, hstride]

/-- Every device dimension of a host dimension of size above one is written. -/
theorem Found.covers {matched : List (ℕ × ℕ)} {unmatched : List ℕ}
    (hfound : Found T o matched unmatched) (j : ℕ) (h : Option ℕ)
    (hget : o.deviceDims[j]? = some h) : j ∈ matched.map Prod.fst ++ unmatched ∨ Trivial T h := by
  by_cases ht : Trivial T h
  · exact .inr ht
  · obtain ⟨d, rfl, hsize⟩ : ∃ d, h = some d ∧ T.size d ≠ 1 := by
      simpa [Trivial] using ht
    left
    by_cases hs : o.stickDim = some d
    · exact mem_append_right _ ((hfound.unmatched_iff j).mpr ⟨d, hget, hs, hsize⟩)
    · exact mem_append_left _ (mem_map.mpr ⟨(j, d), hfound.whole_mem j d hget hs hsize, rfl⟩)

section Run

variable {r : ResizeInput} {newHostSize : List ℕ} {matched : List (ℕ × ℕ)} {unmatched : List ℕ}

theorem resize_of_pstar_error {e : ResizeUnsupported} (hre : r.reclassify = (matched, unmatched))
    (h : r.pstar matched unmatched = .error e) : r.resize newHostSize U.strides = .error e := by
  rw [resize, hre]
  simp only [h]
  rfl

theorem resize_of_pstar_none (hre : r.reclassify = (matched, unmatched))
    (h : r.pstar matched unmatched = .ok none) :
    r.resize newHostSize U.strides =
      .ok (matched.foldl (r.resizeMatched newHostSize U.strides) r.orig) := by
  rw [resize, hre]
  simp only [h]
  rfl

theorem resize_of_pstar_some {p : ℕ} {layout : SpyreTensorLayout}
    (hre : r.reclassify = (matched, unmatched)) (h : r.pstar matched unmatched = .ok (some p))
    (hcount : foldE (r.resizeTileCount newHostSize U.strides matched p)
      (matched.foldl (r.resizeMatched newHostSize U.strides) r.orig) unmatched = .ok layout) :
    r.resize newHostSize U.strides = .ok (r.resizeStick newHostSize U.strides p layout) := by
  rw [resize, hre]
  simp only [h]
  exact bind_eq_ok_iff.mpr ⟨some p, rfl, bind_eq_ok_iff.mpr ⟨layout, hcount, rfl⟩⟩

end Run

variable (c U) in
/-- Pass 2 over all matches. -/
theorem foldl_resizeMatched {matched : List (ℕ × ℕ)} {unmatched : List ℕ}
    (hfound : Found T o matched unmatched) :
    matched.foldl (c.input.resizeMatched U.tensor.hostSize U.strides)
        c.input.orig =
      (matched.map Prod.fst).foldl (put (ofOrder U.tensor o S)) (ofOrder T o S) := by
  rw [foldl_map]
  exact foldl_ext _ _ _ fun layout m hm => resizeMatched_eq_put hfound hm layout

/-- A layout into which every changed dimension and the stick were copied is the tile's. -/
theorem eq_ofOrder_tile (hS : 0 < S) {js : List ℕ}
    (hjs : ∀ (j : ℕ) h, o.deviceDims[j]? = some h → j ∈ js ∨ Trivial T h) {strideMap : List ℤ}
    (hother : ∀ i, i ≠ o.deviceDims.length → strideMap[i]? =
      (js.foldl (put (ofOrder U.tensor o S)) (ofOrder T o S)).strideMap[i]?)
    (hstick : strideMap[o.deviceDims.length]? = some (stickStride U.tensor o)) :
    ⟨(js.foldl (put (ofOrder U.tensor o S)) (ofOrder T o S)).deviceSize, strideMap⟩ =
      ofOrder U.tensor o S := by
  have hentry := foldl_put_eq U hS hjs
  have hsize := ext_getElem? fun i => (hentry i).1
  have hstride : strideMap = (ofOrder U.tensor o S).strideMap := by
    refine ext_getElem? fun i => ?_
    by_cases hi : i = o.deviceDims.length
    · rw [hi, hstick]
      simp [ofOrder]
    · rw [hother i hi, (hentry i).2 hi]
  rw [hsize, hstride]

/-- A stick dimension that is not of size one is found, and the resize succeeds. -/
theorem resize_of_stick (hs : o.stickDim = some s) (hlt : s < T.rank) (hsize : T.size s ≠ 1) :
    c.input.resize U.tensor.hostSize U.strides =
      .ok (ofOrder U.tensor o S) := by
  have hfound := found_of_stick c hlt hs hsize
  cases hre : c.input.reclassify with
  | mk matched unmatched =>
  rw [hre] at hfound
  have hnot : s ∉ matched.map Prod.snd := by
    intro hmem
    obtain ⟨m, hm, rfl⟩ := mem_map.mp hmem
    obtain ⟨h, -, ⟨-, hne⟩ | ⟨-, -, hone⟩⟩ := hfound.matched_dim m hm
    · exact hne hs
    · exact hsize hone
  have hleft : s ∈ c.input.unmatchedAll matched :=
    mem_unmatchedAll.mpr ⟨ofDense_ndim.symm ▸ hlt, hnot⟩
  have hcands : c.input.pstarCands matched = [s] :=
    pstarCands_of_stick (covers_of_whole_mem hfound.whole_mem) hlt hs hsize hnot
  have hpstar : c.input.pstar matched unmatched = .ok (some s) := by
    have hstick : c.input.stickHostDim = c.named := rfl
    rw [pstar, hstick]
    rcases c.named_ok with hn | hn
    · rw [hn]
      simp only [if_neg (ne_nil_of_mem hleft), hcands]
      rfl
    · rw [hn, hs]
      simp only [guardE, if_pos hleft]
      rfl
  have hcount : foldE (c.input.resizeTileCount U.tensor.hostSize U.strides
      matched s) (matched.foldl (c.input.resizeMatched
        U.tensor.hostSize U.strides) c.input.orig) unmatched =
      .ok ((matched.map Prod.fst ++ unmatched).foldl (put (ofOrder U.tensor o S))
        (ofOrder T o S)) := by
    rw [foldl_resizeMatched c U hfound, foldl_append]
    refine foldE_eq_foldl (fun j hj layout => ?_) _
    obtain ⟨s', hget, hs', -⟩ := (hfound.unmatched_iff j).mp hj
    obtain rfl : s = s' := Option.some_injective ℕ (hs.symm.trans hs')
    exact resizeTileCount_eq_put matched hget hs hsize layout
  rw [resize_of_pstar_some hre hpstar hcount, resizeStick_eq hlt hs]
  refine congrArg Except.ok (eq_ofOrder_tile c.pos hfound.covers (fun i hi => ?_) ?_)
  · exact getElem?_set_ne (Ne.symm hi)
  · refine getElem?_set_self ?_
    rw [length_foldl_put]
    simp [ofOrder]

/-- Without a stick dimension to find, the resize succeeds if it finds none or takes one of size
one for it. -/
theorem resize_of_none (hnone : ∀ s, o.stickDim = some s → T.size s = 1) :
    (∃ e, c.input.resize U.tensor.hostSize U.strides = .error e) ∨
      c.input.resize U.tensor.hostSize U.strides =
        .ok (ofOrder U.tensor o S) := by
  obtain ⟨hfound, hempty⟩ := found_of_none c hnone
  cases hre : c.input.reclassify with
  | mk matched unmatched =>
  rw [hre] at hfound hempty
  dsimp only at hempty
  subst hempty
  have hcovers : Covers T o matched := covers_of_whole_mem hfound.whole_mem
  have hnone' : ∀ s, o.stickDim = some s → U.tensor.size s = 1 := fun s hs =>
    Nat.dvd_one.mp (hnone s hs ▸ U.dvd s (stick_lt_rank hs))
  have hlast : (ofOrder T o S).strideMap[o.deviceDims.length]? = some (-1) := by
    rw [← stickStride_of_trivial hnone]
    simp [ofOrder]
  have hstick := stickStride_of_trivial (T := U.tensor) hnone'
  have hfirst := foldl_resizeMatched c U hfound
  have hjs : ∀ (j : ℕ) h, o.deviceDims[j]? = some h → j ∈ matched.map Prod.fst ∨ Trivial T h := by
    simpa using hfound.covers
  rcases pstar_cases (r := c.input) matched [] with ⟨e, he⟩ | hp | ⟨p, hp, hpstar⟩
  · exact .inl ⟨e, resize_of_pstar_error hre he⟩
  · right
    rw [resize_of_pstar_none hre hp, hfirst]
    refine congrArg Except.ok (eq_ofOrder_tile c.pos hjs (fun _ _ => rfl) ?_)
    rw [foldl_put]
    dsimp only
    rw [getElem?_foldl_set _ _ (by simp [ofOrder])]
    split_ifs
    · simp [ofOrder]
    · rw [hlast, hstick]
  · right
    obtain ⟨hlt, hone⟩ := size_eq_one_of_unmatched hcovers hnone hp
    have htile : U.size p = 1 := Nat.dvd_one.mp (hone ▸ U.dvd p hlt)
    rw [resize_of_pstar_some hre hpstar rfl, hfirst, resizeStick, tile_hostSize_getD hlt,
      if_pos htile, ofDense_ndev, Nat.add_sub_cancel]
    refine congrArg Except.ok (eq_ofOrder_tile c.pos hjs (fun i hi => ?_) ?_)
    · exact getElem?_set_ne (Ne.symm hi)
    · rw [hstick]
      refine getElem?_set_self ?_
      rw [length_foldl_put]
      simp [ofOrder]

variable (c U) in
/-- The passes resize the layout of a dense tensor to that of its tile, or give up. -/
theorem resize_ofDense :
    (∃ e, c.input.resize U.tensor.hostSize U.strides = .error e) ∨
      c.input.resize U.tensor.hostSize U.strides =
        .ok (ofOrder U.tensor o S) := by
  by_cases hnone : ∀ s, o.stickDim = some s → T.size s = 1
  · exact resize_of_none hnone
  · push Not at hnone
    obtain ⟨s, hs, hsize⟩ := hnone
    exact .inr (resize_of_stick hs (stick_lt_rank hs) hsize)

variable (c) in
/-- The true stick dimension passes the check. -/
theorem validate_ofDense : c.input.validate = c.input := by
  rw [validate]
  cases hn : c.input.stickHostDim with
  | none => rfl
  | some s =>
    have hs : o.stickDim = some s := by
      have hn : c.named = some s := hn
      rcases c.named_ok with h | h
      · rw [h] at hn
        cases hn
      · rw [← h, hn]
    have hlt : s < T.rank := stick_lt_rank hs
    have hmem : c.input.sticks (c.input.oldSize s) ∈
        c.input.orig.deviceSize.dropLast := by
      rw [ofDense_oldSize hlt]
      have hext : c.input.sticks (T.size s) = extent T o S (some s) :=
        (extent_stick hlt hs).symm
      rw [hext]
      simp only [DenseCall.input, ofDense, ofOrder, dropLast_concat]
      exact mem_map_of_mem (some_mem_deviceDims hlt)
    exact if_pos ⟨ofDense_ndim.symm ▸ hlt, hmem⟩

end Tile

end ResizeInput

/-! ## Resizing and building -/

/-- Resizing the layout of a dense tensor to a tile is building the layout of the tile with the
same order, unless the resize gives up with a `RuntimeError`. With a stick dimension of size above
one it does not. A stick holds more than one element. -/
theorem resizeDeviceLayout_commutes (T : DenseTensor) (o : DimOrder T.rank) {S : ℕ} (hS : 1 < S)
    (tile : ℕ → ℕ) (hdvd : ∀ d < T.rank, tile d ∣ T.size d) (stickHostDim : Option ℕ)
    (hstick : stickHostDim = none ∨ stickHostDim = o.stickDim) :
    ∃ tileStride layout tileLayout,
      computeTileStride T.hostSize T.hostStrides ((List.range T.rank).map tile) =
          .ok tileStride ∧
        init T.hostSize T.hostStrides S o.toList = .ok layout ∧
          init ((List.range T.rank).map tile) tileStride S o.toList = .ok tileLayout ∧
            ((∃ reason, resizeDeviceLayout layout S T.hostSize ((List.range T.rank).map tile)
                stickHostDim (some (T.hostStrides, tileStride)) = .error (.runtimeError reason)) ∨
              resizeDeviceLayout layout S T.hostSize ((List.range T.rank).map tile)
                stickHostDim (some (T.hostStrides, tileStride)) = .ok tileLayout) ∧
            ((∃ s, o.stickDim = some s ∧ T.size s ≠ 1) →
              resizeDeviceLayout layout S T.hostSize ((List.range T.rank).map tile)
                stickHostDim (some (T.hostStrides, tileStride)) = .ok tileLayout) := by
  have hpos : ∀ d < T.rank, 0 < tile d := fun d hd =>
    Nat.pos_of_dvd_of_pos (hdvd d hd) (T.size_pos d hd)
  obtain ⟨newHs, hnewHs⟩ : ∃ l, l = (List.range T.rank).map fun d =>
      if 1 < tile d then (T.tile tile hpos).hostStride d else 0 := ⟨_, rfl⟩
  have hnew : ∀ d < T.rank, tile d ≠ 1 → newHs.getD d 0 = (T.tile tile hpos).hostStride d := by
    intro d hd htile
    have hlt : 1 < tile d := by have := hpos d hd; omega
    simp [hnewHs, hd, hlt]
  refine ⟨newHs, ofOrder T o S, ofOrder (T.tile tile hpos) o S, ?_, init_eq_ofOrder (by omega),
    ?_, ?_⟩
  · rw [hnewHs]
    exact computeTileStride_eq hpos hdvd
  · rw [← init_eq_ofOrder (T := T.tile tile hpos) (by omega)]
    refine init_congr (by simp [hnewHs, DenseTensor.hostStrides]) fun d hd => ?_
    by_cases hlt : d < T.rank
    · rw [DenseTensor.hostStrides_getD (T := T.tile tile hpos) hlt]
      exact hnew d hlt (by simpa [hlt] using hd)
    · simp [hnewHs, DenseTensor.hostStrides, hlt]
  · have hguard : T.hostSize.length = ((List.range T.rank).map tile).length ∧
        ∀ p ∈ T.hostSize.zip ((List.range T.rank).map tile), p.2 ≤ p.1 := by
      refine ⟨by simp [DenseTensor.hostSize], fun p hp => ?_⟩
      obtain ⟨d, hd, rfl⟩ : ∃ d < T.rank, (T.size d, tile d) = p := by
        simpa [DenseTensor.hostSize, zip_map'] using hp
      exact Nat.le_of_dvd (T.size_pos d hd) (hdvd d hd)
    let c : ResizeInput.DenseCall T o S := ⟨stickHostDim, hS, hstick⟩
    have hresize : resizeDeviceLayout (ofOrder T o S) S T.hostSize ((List.range T.rank).map tile)
        stickHostDim (some (T.hostStrides, newHs)) =
          (c.input.resize (T.tile tile hpos).hostSize newHs).mapError .runtimeError := by
      rw [← ResizeInput.validate_ofDense c, resizeDeviceLayout]
      simp only [guardE, if_pos hguard]
      rfl
    rw [hresize]
    let U : ResizeInput.TileOf T := ⟨tile, newHs, hpos, hdvd, hnew⟩
    constructor
    · rcases ResizeInput.resize_ofDense c U with ⟨e, he⟩ | hok
      · exact .inl ⟨e, by rw [he]; rfl⟩
      · exact .inr (by rw [hok]; rfl)
    · rintro ⟨s, hs, hsize⟩
      rw [ResizeInput.resize_of_stick (c := c) (U := U) hs (stick_lt_rank hs) hsize]
      rfl

/-- Two rows of two sticks, stored column by column : there are as many sticks as rows. -/
def columns : DenseTensor where
  rank := 2
  size d := if d = 0 then 2 else 128
  order := [1, 0]
  order_perm := .swap 0 1 []
  size_pos d _ := by split_ifs <;> omega

/-- The sticks run along the second dimension. -/
def columnsOrder : DimOrder columns.rank where
  dims := [0, 1]
  perm := .refl _
  sparse := false

/-- One row of half a stick is cut out of `columns`, without naming the stick dimension. -/
theorem resizeDeviceLayout_commutes_columns :
    ∃ tileStride layout tileLayout,
      computeTileStride columns.hostSize columns.hostStrides [1, 32] = .ok tileStride ∧
        init columns.hostSize columns.hostStrides 64 columnsOrder.toList = .ok layout ∧
          init [1, 32] tileStride 64 columnsOrder.toList = .ok tileLayout ∧
            resizeDeviceLayout layout 64 columns.hostSize [1, 32] none
              (some (columns.hostStrides, tileStride)) = .ok tileLayout := by
  obtain ⟨tileStride, layout, tileLayout, hstride, hlayout, htile, -, hok⟩ :=
    resizeDeviceLayout_commutes columns columnsOrder (S := 64) (by decide)
      (fun d => if d = 0 then 1 else 32) (by decide) none (.inl rfl)
  exact ⟨tileStride, layout, tileLayout, hstride, hlayout, htile, hok ⟨1, rfl, by decide⟩⟩

end TorchSpyre
