import Mathlib
import TorchSpyre.Pool.Safe

/-!
# What the live ranges of a bundle cover

`_compute_live_ranges` keeps one start for each name and overwrites it at every write, so the
range of a name begins at its last write. A name that is not written gets no range, and its
reads do not widen the range of the storage it shares.

The ranges cover every access exactly where each storage is first accessed by the only write
of one of its names, and is last accessed by a read of a name that is written, or holds a name
that is written and never read (`computeLiveRanges_covers_iff`).
-/

namespace TorchSpyre

namespace Pool

open Loops

/-! ## The last step -/

section LastStep

variable {nodes : List Node} {candidates : List String} {names : Node → List String}

/-- The node at step `i` has `name` among its `names`. -/
def At (nodes : List Node) (names : Node → List String) (name : String) (i : ℕ) : Prop :=
  ∃ node, nodes[i]? = some node ∧ name ∈ names node

/-- What one node records. -/
theorem record_eq (l : List String) (i : ℕ) (name : String) (d : String → Option ℕ) :
    l.foldl (fun d n => if n ∈ candidates then Function.update d n (some i) else d) d name =
      if name ∈ candidates ∧ name ∈ l then some i else d name := by
  have hfilter := @List.foldl_filter _ _ (fun n => decide (n ∈ candidates))
    (fun (d : String → Option ℕ) n => Function.update d n (some i)) l d
  simp only [decide_eq_true_eq] at hfilter
  rw [← hfilter, Loops.foldl_update]
  simp [and_comm]

/-- The value is the last of the steps below `n` that satisfy `P`, if there is one. -/
def IsLast (P : ℕ → Prop) (n : ℕ) : Option ℕ → Prop
  | none => ∀ i < n, ¬ P i
  | some s => P s ∧ ∀ i < n, P i → i ≤ s

theorem isLast_lastStep (nodes : List Node) (candidates : List String)
    (names : Node → List String) (name : String) :
    IsLast (fun i => name ∈ candidates ∧ At nodes names name i) nodes.length
      (lastStep nodes candidates names name) := by
  refine foldl_zipIdx (I := fun n (d : String → Option ℕ) =>
    IsLast (fun i => name ∈ candidates ∧ At nodes names name i) n (d name))
    (fun i node d hi h => ?_) (fun i hi => absurd hi (Nat.not_lt_zero i))
  have hat : At nodes names name i ↔ name ∈ names node := by
    simp [At, hi]
  change IsLast _ (i + 1) ((names node).foldl _ d name)
  rw [record_eq]
  by_cases hnew : name ∈ candidates ∧ name ∈ names node
  · rw [if_pos hnew]
    exact ⟨⟨hnew.1, hat.2 hnew.2⟩, fun j hj _ => Nat.lt_succ_iff.1 hj⟩
  · rw [if_neg hnew]
    have hskip : ∀ j < i + 1, (name ∈ candidates ∧ At nodes names name j) → j < i := by
      intro j hj hP
      rcases Nat.lt_succ_iff_lt_or_eq.1 hj with hj | rfl
      · exact hj
      · exact absurd ⟨hP.1, hat.1 hP.2⟩ hnew
    cases hd : d name with
    | none =>
      rw [hd] at h
      exact fun j hj hP => h j (hskip j hj hP) hP
    | some s =>
      rw [hd] at h
      exact ⟨h.1, fun j hj hP => h.2 j (hskip j hj hP) hP⟩

theorem At.lt {name : String} {i : ℕ} (h : At nodes names name i) : i < nodes.length := by
  obtain ⟨node, hnode, -⟩ := h
  exact (List.getElem?_eq_some_iff.1 hnode).1

variable {name : String} (hname : name ∈ candidates)
include hname

theorem lastStep_eq_some {s : ℕ} (h : lastStep nodes candidates names name = some s) :
    At nodes names name s ∧ ∀ i, At nodes names name i → i ≤ s := by
  have hlast := isLast_lastStep nodes candidates names name
  rw [h] at hlast
  exact ⟨hlast.1.2, fun i hi => hlast.2 i hi.lt ⟨hname, hi⟩⟩

theorem lastStep_eq_none (h : lastStep nodes candidates names name = none) (i : ℕ) :
    ¬ At nodes names name i := by
  have hlast := isLast_lastStep nodes candidates names name
  rw [h] at hlast
  exact fun hi => hlast i hi.lt ⟨hname, hi⟩

end LastStep

/-! ## The range of a storage -/

section Ranges

variable {nodes : List Node} {candidates : List String} {allocId : String → Option ℕ}

/-- The range is the union of the ranges that satisfy `P`. -/
structure IsUnion (P : LiveRange → Prop) (r : LiveRange) : Prop where
  start : ∃ s, P s ∧ s.start = r.start
  stop : ∃ s, P s ∧ s.stop = r.stop
  bounds : ∀ s, P s → r.start ≤ s.start ∧ s.stop ≤ r.stop

/-- The ranges among `items` of the names with one allocation object. -/
def OwnOf (allocId : String → Option ℕ) (items : List (String × LiveRange)) (id : ℕ)
    (r : LiveRange) : Prop :=
  ∃ n, (n, r) ∈ items ∧ allocId n = some id

theorem groupRange_isUnion {id : ℕ} {r : LiveRange}
    (h : groupRange nodes candidates allocId id = some r) :
    IsUnion (OwnOf allocId (ownRanges nodes candidates) id) r := by
  refine foldl_inv (l := ownRanges nodes candidates)
    (I := fun done (groups : ℕ → Option LiveRange) =>
    (∀ r, groups id = some r → IsUnion (OwnOf allocId done id) r) ∧
      (groups id = none → ∀ s, ¬ OwnOf allocId done id s))
    (fun pre item post groups _ hI => ?_) ⟨fun _ h => (by cases h), fun _ _ h => ?_⟩ |>.1 r h
  · have hown : ∀ s, OwnOf allocId (pre ++ [item]) id s ↔
        OwnOf allocId pre id s ∨ allocId item.1 = some id ∧ s = item.2 := by
      intro s
      constructor
      · rintro ⟨n, hn, hid⟩
        rcases List.mem_append.1 hn with hn | hn
        · exact .inl ⟨n, hn, hid⟩
        · rw [List.mem_singleton] at hn
          subst hn
          exact .inr ⟨hid, rfl⟩
      · rintro (⟨n, hn, hid⟩ | ⟨hid, rfl⟩)
        · exact ⟨n, List.mem_append_left _ hn, hid⟩
        · exact ⟨item.1, by simp, hid⟩
    by_cases hid : allocId item.1 = some id
    · simp only [mergeRange, hid, Function.update_self]
      refine ⟨fun r hr => ?_, fun h => (by cases h)⟩
      obtain rfl := Option.some.inj hr
      cases hgroup : groups id with
      | none =>
        have hnone := hI.2 hgroup
        refine ⟨⟨item.2, (hown _).2 (.inr ⟨hid, rfl⟩), by simp⟩,
          ⟨item.2, (hown _).2 (.inr ⟨hid, rfl⟩), by simp⟩, fun s hs => ?_⟩
        rcases (hown s).1 hs with hs | ⟨-, rfl⟩
        · exact absurd hs (hnone s)
        · simp
      | some g =>
        obtain ⟨⟨s₁, hs₁, he₁⟩, ⟨s₂, hs₂, he₂⟩, hb⟩ := hI.1 g hgroup
        simp only [Option.getD_some]
        refine ⟨?_, ?_, fun s hs => ?_⟩
        · rcases min_choice g.start item.2.start with hm | hm
          · exact ⟨s₁, (hown _).2 (.inl hs₁), by rw [he₁, hm]⟩
          · exact ⟨item.2, (hown _).2 (.inr ⟨hid, rfl⟩), hm.symm⟩
        · rcases max_choice g.stop item.2.stop with hm | hm
          · exact ⟨s₂, (hown _).2 (.inl hs₂), by rw [he₂, hm]⟩
          · exact ⟨item.2, (hown _).2 (.inr ⟨hid, rfl⟩), hm.symm⟩
        · rcases (hown s).1 hs with hs | ⟨-, rfl⟩
          · exact ⟨(min_le_left _ _).trans (hb s hs).1, (hb s hs).2.trans (le_max_left _ _)⟩
          · exact ⟨min_le_right _ _, le_max_right _ _⟩
    · have hsame : mergeRange allocId groups item id = groups id := by
        unfold mergeRange
        cases hid' : allocId item.1 with
        | none => rfl
        | some id' => exact Function.update_of_ne (fun h => hid (by rw [hid', h])) _ _
      have hown' : OwnOf allocId (pre ++ [item]) id = OwnOf allocId pre id := by
        funext s
        rw [hown, eq_iff_iff, or_iff_left fun h => hid h.1]
      rw [hsame, hown']
      exact hI
  · obtain ⟨n, hn, -⟩ := h
    cases hn

theorem mem_ownRanges {name : String} {r : LiveRange} :
    (name, r) ∈ ownRanges nodes candidates ↔ name ∈ candidates ∧
      lastStep nodes candidates Node.writes name = some r.start ∧
        (lastStep nodes candidates Node.reads name).getD (nodes.length + 1) = r.stop := by
  simp only [ownRanges, List.mem_filterMap, Option.map_eq_some_iff, Prod.mk.injEq]
  constructor
  · rintro ⟨m, hm, s, hs, rfl, rfl⟩
    exact ⟨hm, hs, rfl⟩
  · rintro ⟨hm, hs, he⟩
    exact ⟨name, hm, r.start, hs, rfl, by rw [he]⟩

/-- The ranges of the written names of a storage. -/
def OwnIn (nodes : List Node) (candidates : List String) (allocId : String → Option ℕ)
    (name : String) (r : LiveRange) : Prop :=
  ∃ m, (m, r) ∈ ownRanges nodes candidates ∧ storage allocId m = storage allocId name

/-- The range of a name is the union of those of its storage. -/
theorem isUnion_of_mem {name : String} {r : LiveRange}
    (h : (name, r) ∈ computeLiveRanges nodes candidates allocId) :
    (∃ s, (name, s) ∈ ownRanges nodes candidates) ∧
      IsUnion (OwnIn nodes candidates allocId name) r := by
  obtain ⟨⟨m, s⟩, hs, he⟩ := List.mem_map.1 h
  obtain ⟨rfl, rfl⟩ := Prod.mk.inj he
  refine ⟨⟨s, hs⟩, ?_⟩
  cases hid : allocId m with
  | none =>
    have hst : storage allocId m = .inl m := by simp [storage, hid]
    have huniq : ∀ t, OwnIn nodes candidates allocId m t → t = s := by
      rintro t ⟨n, hn, hnst⟩
      have hnm : n = m := by
        rw [hst] at hnst
        unfold storage at hnst
        cases hidn : allocId n with
        | none => simpa [hidn] using hnst
        | some id => simp [hidn] at hnst
      subst hnm
      obtain ⟨-, h₁, h₂⟩ := mem_ownRanges.1 hn
      obtain ⟨-, h₃, h₄⟩ := mem_ownRanges.1 hs
      cases t
      cases s
      exact congrArg₂ LiveRange.mk (Option.some.inj (h₁.symm.trans h₃)) (h₂.symm.trans h₄)
    refine ⟨⟨s, ⟨m, hs, rfl⟩, rfl⟩, ⟨s, ⟨m, hs, rfl⟩, rfl⟩, fun t ht => ?_⟩
    rw [huniq t ht]
    exact ⟨le_rfl, le_rfl⟩
  | some id =>
    obtain ⟨r, hr⟩ := Option.isSome_iff_exists.1 (isSome_groupRange hs hid)
    have hown : OwnIn nodes candidates allocId m =
        OwnOf allocId (ownRanges nodes candidates) id := by
      funext t
      simp only [OwnIn, OwnOf, storage_eq_inr.2 hid, storage_eq_inr]
    simp only [Option.bind_some, hr, Option.getD_some, hown]
    exact groupRange_isUnion hr

/-- A written candidate has a range. -/
theorem exists_mem_computeLiveRanges (allocId : String → Option ℕ) {name : String}
    (hname : name ∈ candidates) {w : ℕ} (hw : At nodes Node.writes name w) :
    ∃ r, (name, r) ∈ computeLiveRanges nodes candidates allocId := by
  cases hs : lastStep nodes candidates Node.writes name with
  | none => exact absurd hw (lastStep_eq_none hname hs w)
  | some s =>
    exact ⟨_, List.mem_map.2 ⟨(name, ⟨s, _⟩), mem_ownRanges.2 ⟨hname, hs, rfl⟩, rfl⟩⟩

end Ranges

/-! ## Coverage -/

section Coverage

variable (nodes : List Node) (candidates : List String) (allocId : String → Option ℕ)

/-- The node at step `i` reads or writes a candidate with the storage of `name`. -/
def Accessed (name : String) (i : ℕ) : Prop :=
  ∃ m ∈ candidates, storage allocId m = storage allocId name ∧
    (At nodes Node.reads m i ∨ At nodes Node.writes m i)

/-- Every range is one, and holds every access to the storage of its name. -/
def Covers : Prop :=
  ∀ name r, (name, r) ∈ computeLiveRanges nodes candidates allocId →
    r.start ≤ r.stop ∧ ∀ i, Accessed nodes candidates allocId name i → r.start ≤ i ∧ i ≤ r.stop

/-- The storage of `name` is first accessed by the only write of one of its names. -/
def WrittenFirst (name : String) : Prop :=
  ∃ m ∈ candidates, storage allocId m = storage allocId name ∧
    ∃ w, At nodes Node.writes m w ∧ (∀ i, At nodes Node.writes m i → i = w) ∧
      ∀ i, Accessed nodes candidates allocId name i → w ≤ i

/-- The storage of `name` is last accessed by a read of a written name, or holds a written name
that is not read. -/
def ReadLast (name : String) : Prop :=
  ∃ m ∈ candidates, storage allocId m = storage allocId name ∧ (∃ w, At nodes Node.writes m w) ∧
    ((∀ i, ¬ At nodes Node.reads m i) ∨
      ∃ e, At nodes Node.reads m e ∧ ∀ i, Accessed nodes candidates allocId name i → i ≤ e)

variable {nodes candidates allocId} {name : String} {r : LiveRange}

theorem Accessed.lt {i : ℕ} (h : Accessed nodes candidates allocId name i) : i < nodes.length := by
  obtain ⟨m, -, -, h | h⟩ := h
  · exact h.lt
  · exact h.lt

theorem accessed_of_write {m : String} (hm : m ∈ candidates)
    (hst : storage allocId m = storage allocId name) {w : ℕ} (hw : At nodes Node.writes m w) :
    Accessed nodes candidates allocId name w :=
  ⟨m, hm, hst, .inr hw⟩

/-- A range starts no later than every access exactly where the storage is written first. -/
theorem start_le_iff (hr : IsUnion (OwnIn nodes candidates allocId name) r) :
    (∀ i, Accessed nodes candidates allocId name i → r.start ≤ i) ↔
      WrittenFirst nodes candidates allocId name := by
  constructor
  · intro h
    obtain ⟨s, ⟨m, hm, hst⟩, hs⟩ := hr.start
    obtain ⟨hmem, hlast, -⟩ := mem_ownRanges.1 hm
    obtain ⟨hw, hmax⟩ := lastStep_eq_some hmem hlast
    rw [hs] at hw hmax
    refine ⟨m, hmem, hst, r.start, hw, fun i hi => ?_, h⟩
    exact le_antisymm (hmax i hi) (h i (accessed_of_write hmem hst hi))
  · rintro ⟨m, hmem, hst, w, hw, honly, hfirst⟩ i hi
    cases hlast : lastStep nodes candidates Node.writes m with
    | none => exact absurd hw (lastStep_eq_none hmem hlast w)
    | some s =>
      have hsw : s = w := honly s (lastStep_eq_some hmem hlast).1
      have := (hr.bounds ⟨s, _⟩ ⟨m, mem_ownRanges.2 ⟨hmem, hlast, rfl⟩, hst⟩).1
      exact this.trans (hsw.le.trans (hfirst i hi))

/-- A range stops no earlier than every access exactly where the storage is read last. -/
theorem le_stop_iff (hr : IsUnion (OwnIn nodes candidates allocId name) r) :
    (∀ i, Accessed nodes candidates allocId name i → i ≤ r.stop) ↔
      ReadLast nodes candidates allocId name := by
  constructor
  · intro h
    obtain ⟨s, ⟨m, hm, hst⟩, hs⟩ := hr.stop
    obtain ⟨hmem, hwrite, hread⟩ := mem_ownRanges.1 hm
    refine ⟨m, hmem, hst, ⟨_, (lastStep_eq_some hmem hwrite).1⟩, ?_⟩
    cases hlast : lastStep nodes candidates Node.reads m with
    | none => exact .inl (lastStep_eq_none hmem hlast)
    | some e =>
      have he : e = r.stop := by rw [← hs, ← hread, hlast, Option.getD_some]
      exact .inr ⟨e, (lastStep_eq_some hmem hlast).1, fun i hi => he ▸ h i hi⟩
  · rintro ⟨m, hmem, hst, ⟨w, hw⟩, hread⟩ i hi
    cases hwrite : lastStep nodes candidates Node.writes m with
    | none => exact absurd hw (lastStep_eq_none hmem hwrite w)
    | some s =>
      have hstop := (hr.bounds ⟨s, _⟩ ⟨m, mem_ownRanges.2 ⟨hmem, hwrite, rfl⟩, hst⟩).2
      refine le_trans ?_ hstop
      cases hlast : lastStep nodes candidates Node.reads m with
      | none => exact hi.lt.le.trans (Nat.le_succ _)
      | some e =>
        rcases hread with hread | ⟨e', he', hmax⟩
        · exact absurd (lastStep_eq_some hmem hlast).1 (hread e)
        · exact (hmax i hi).trans ((lastStep_eq_some hmem hlast).2 e' he')

/-- The ranges cover every access exactly where the storage of every written candidate is written
first and read last. -/
theorem computeLiveRanges_covers_iff (nodes : List Node) (candidates : List String)
    (allocId : String → Option ℕ) :
    Covers nodes candidates allocId ↔
      ∀ name ∈ candidates, (∃ w, At nodes Node.writes name w) →
        WrittenFirst nodes candidates allocId name ∧ ReadLast nodes candidates allocId name := by
  constructor
  · rintro hcov name hname ⟨w, hw⟩
    obtain ⟨r, hr⟩ := exists_mem_computeLiveRanges allocId hname hw
    have hacc := (hcov name r hr).2
    have hunion := (isUnion_of_mem hr).2
    exact ⟨(start_le_iff hunion).1 fun i hi => (hacc i hi).1,
      (le_stop_iff hunion).1 fun i hi => (hacc i hi).2⟩
  · intro h name r hr
    obtain ⟨⟨s, hs⟩, hunion⟩ := isUnion_of_mem hr
    obtain ⟨hname, hlast, -⟩ := mem_ownRanges.1 hs
    have hw := (lastStep_eq_some hname hlast).1
    obtain ⟨hfirst, hread⟩ := h name hname ⟨_, hw⟩
    have hstart := (start_le_iff hunion).2 hfirst
    have hstop := (le_stop_iff hunion).2 hread
    have hown : Accessed nodes candidates allocId name _ := accessed_of_write hname rfl hw
    exact ⟨(hstart _ hown).trans (hstop _ hown), fun i hi => ⟨hstart i hi, hstop i hi⟩⟩

/-- An accumulator is initialised, updated in place, and read. -/
def accumulatorNodes : List Node :=
  [⟨[], ["acc"]⟩, ⟨["acc", "x"], ["acc"]⟩, ⟨["acc"], ["out"]⟩]

/-- The range of the accumulator starts at its update, after the step that initialises it. -/
theorem accumulator_uncovered :
    computeLiveRanges accumulatorNodes ["acc"] (fun _ => none) = [("acc", ⟨1, 2⟩)] ∧
      ¬ Covers accumulatorNodes ["acc"] (fun _ => none) := by
  refine ⟨by decide, fun h => ?_⟩
  have := (h "acc" ⟨1, 2⟩ (by decide)).2 0 ⟨"acc", by simp, rfl, .inr ⟨_, rfl, by simp⟩⟩
  exact absurd this.1 (by decide)

end Coverage

end Pool

end TorchSpyre
