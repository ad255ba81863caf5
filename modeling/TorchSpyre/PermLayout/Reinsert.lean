import Mathlib
import TorchSpyre.PermLayout.Run

/-!
# Moving one buffer in the order

Both annealers take a buffer out of the allocation order and put it back elsewhere
(`annealing_step_rotate` in `scratchpad/simulated_annealing.py`, `_step_reorder` in
`scratchpad/sa_cooptimizer.py`). The further back it goes, the more it has to rest on, and the
rule never puts a buffer lower because there is more to rest on (`Placed.subset`,
`Placed.exists_le`).

A buffer that is evicted keeps every later buffer that is live with it out. Moved further back it
is still evicted (`decideOne_evicted_later`) and moves no buffer that is placed (`extends_later`),
but the ones it alone kept out are now placed (`build_without_eq`, `exists_newly_placed`).
-/

open List

namespace TorchSpyre

open Checked

namespace PermLayout

/-! ## More to rest on -/

section Rule

variable {st : StaticData} {sizes : ℕ → ℤ} {address address' : ℕ → Option ℤ} {idx : ℕ}
  {cand cand' : List ℕ} {a : ℤ}

theorem alignUp_le (hal : 0 < st.alignment) {m : ℤ} (hm : 0 ≤ m) (hma : m ≤ a)
    (ha : st.alignment ∣ a) : alignUp st m ≤ a := by
  obtain ⟨c, rfl⟩ := ha
  unfold alignUp
  rw [Int.tdiv_eq_ediv_of_nonneg (by omega), mul_comm]
  refine mul_le_mul_of_nonneg_left (Int.lt_add_one_iff.mp ?_) hal.le
  refine Int.ediv_lt_of_lt_mul hal ?_
  linarith

/-- Where a buffer clears its candidates it clears some of them. -/
theorem Placed.subset (h : Placed st sizes address' idx cand' a) (hsub : cand ⊆ cand')
    (hsame : ∀ p ∈ cand, address p = address' p) : Placed st sizes address idx cand a := by
  have htop : ∀ p ∈ cand, top sizes address p = top sizes address' p := fun p hp => by
    rw [top, top, hsame p hp]
  refine ⟨h.nonneg, h.aligned, h.fits, fun p hp => hsame p hp ▸ h.support p (hsub hp), ?_⟩
  rcases h.clear with hclear | ⟨partner, hpartner, haddr, hslot⟩
  · exact .inl fun p hp => htop p hp ▸ hclear p (hsub hp)
  have hothers : ∀ p ∈ cand, p ≠ partner → top sizes address p ≤ a := by
    intro p hp hne
    have := hslot.others p (hsub hp) hne
    rwa [haddr, Option.getD_some, ← htop p hp] at this
  by_cases hmem : partner ∈ cand
  · have haddr' := (hsame partner hmem).trans haddr
    refine .inr ⟨partner, hpartner, haddr', hmem, hslot.fits, ?_, ?_⟩
    · rwa [haddr', Option.getD_some]
    · rw [haddr', Option.getD_some]
      exact h.nonneg
  · exact .inl fun p hp => hothers p hp fun heq => hmem (heq ▸ hp)

/-- The rule puts a buffer no higher than where it clears its candidates. -/
theorem Placed.exists_le (h : Placed st sizes address idx cand a) (hal : 0 < st.alignment)
    (hs : ∀ p ∈ cand, 0 ≤ sizes p) (hnn : ∀ p ∈ cand, ∀ b, address p = some b → 0 ≤ b) :
    ∃ b ≤ a, placeDecision st sizes address idx cand = some b := by
  have hgate : ∀ b ≤ a, gate st sizes idx b = some b := fun b hb =>
    gate_eq_some_iff.mpr ⟨rfl, by linarith [h.fits]⟩
  unfold placeDecision
  split_ifs with hnil hnone
  · exact ⟨0, h.nonneg, hgate 0 h.nonneg⟩
  · obtain ⟨p, hp, hn⟩ := any_isNone_iff.mp hnone
    exact absurd hn (h.support p hp)
  cases htry : tryPartners st sizes address idx cand (st.inplacePartners idx) with
  | some d =>
    obtain ⟨q, hq, hfit, rfl⟩ := tryPartners_eq_some htry
    obtain ⟨b, hb⟩ := Option.ne_none_iff_exists'.mp (h.support q hfit.mem)
    have hle : b ≤ a := by
      have hsize := hs q hfit.mem
      have htop : top sizes address q = b + sizes q := by rw [top, hb, Option.getD_some]
      rcases h.clear with hclear | ⟨partner, hpartner, haddr, hslot⟩
      · linarith [hclear q hfit.mem]
      · by_cases hqp : q = partner
        · rw [← hqp, hb] at haddr
          exact (Option.some.inj haddr).le
        · have := hslot.others q hfit.mem hqp
          rw [haddr, Option.getD_some] at this
          linarith
    rw [hb, Option.getD_some]
    exact ⟨b, hle, hgate b hle⟩
  | none =>
    have hclear : ∀ p ∈ cand, top sizes address p ≤ a := by
      rcases h.clear with hclear | ⟨partner, hpartner, -, hslot⟩
      · exact hclear
      · exact absurd hslot (tryPartners_eq_none_iff.mp htry partner hpartner)
    obtain ⟨p, hp⟩ := exists_mem_of_ne_nil cand hnil
    have hmax : 0 ≤ maxTop sizes address (-2 ^ 63) cand := by
      obtain ⟨b, hb⟩ := Option.ne_none_iff_exists'.mp (h.support p hp)
      have hb0 := hnn p hp b hb
      have hsize := hs p hp
      have htop := (maxTop_le_iff.mp (le_refl (maxTop sizes address (-2 ^ 63) cand))).2 p hp
      rw [top, hb, Option.getD_some] at htop
      linarith
    have hle := alignUp_le hal hmax (maxTop_le_iff.mpr ⟨by linarith [h.nonneg], hclear⟩) h.aligned
    exact ⟨_, hle, hgate _ hle⟩

end Rule

/-! ## One buffer of a layout -/

section Build

variable {st : StaticData} {sizes : ℕ → ℤ} {eligible : ℕ → Bool}

variable {P R l : List ℕ} {x : ℕ}

theorem placeOne_address_self {prior : List ℕ} {L : Layout} (h : L.address x = none) :
    (placeOne st sizes eligible prior x L).address x = decideOne st sizes eligible prior x L := by
  rw [placeOne]
  cases hd : decideOne st sizes eligible prior x L with
  | none => exact h
  | some a => exact Function.update_self _ _ _

theorem buildFrom_address_of_notMem (h : x ∉ l) (prior : List ℕ) (L : Layout) :
    (buildFrom st sizes eligible prior l L).address x = L.address x := by
  induction l generalizing prior L with
  | nil => rfl
  | cons y l ih =>
    rw [mem_cons, not_or] at h
    rw [buildFrom, ih h.2, placeOne, Layout.put_address_of_ne h.1]

theorem build_append (l l' : List ℕ) :
    build st sizes eligible (l ++ l') =
      buildFrom st sizes eligible l l' (build st sizes eligible l) := by
  rw [build, build, buildFrom_append, nil_append]

theorem build_concat (l : List ℕ) (y : ℕ) :
    build st sizes eligible (l ++ [y]) =
      placeOne st sizes eligible l y (build st sizes eligible l) := by
  rw [build_append]
  rfl

theorem build_address_of_notMem (h : x ∉ l) :
    (build st sizes eligible l).address x = none := by
  rw [build, buildFrom_address_of_notMem h]
  rfl

/-- The address of a buffer is decided when it is its turn. -/
theorem build_address_self (hnd : (P ++ x :: R).Nodup) :
    (build st sizes eligible (P ++ x :: R)).address x =
      decideOne st sizes eligible P x (build st sizes eligible P) := by
  have hx : x ∉ P ++ R := (nodup_cons.mp (nodup_middle.mp hnd)).1
  rw [mem_append, not_or] at hx
  rw [build_append, buildFrom, buildFrom_address_of_notMem hx.2,
    placeOne_address_self (build_address_of_notMem hx.1)]

theorem build_address_append (hR : x ∉ R) :
    (build st sizes eligible (P ++ R)).address x = (build st sizes eligible P).address x := by
  rw [build_append, buildFrom_address_of_notMem hR]

theorem build_address_left (hnd : (P ++ R).Nodup) (hx : x ∈ P) :
    (build st sizes eligible (P ++ R)).address x = (build st sizes eligible P).address x :=
  build_address_append fun hR => disjoint_of_nodup_append hnd hx hR

variable (st sizes eligible) in
/-- The rule does not place `x` after the layout of `P`. -/
abbrev Evicted (P : List ℕ) (x : ℕ) : Prop :=
  decideOne st sizes eligible P x (build st sizes eligible P) = none

/-- Some earlier buffers less, the others as they were : a buffer is placed no higher. -/
theorem decideOne_le_of_subset (hst : RuleOk st) (hnn : ∀ i, 0 ≤ sizes i) {P' : List ℕ}
    {L L' : Layout} (hsafe : Safe st sizes eligible P' L') (hsub : P ⊆ P')
    (hsame : ∀ p ∈ P, L.address p = L'.address p) {a : ℤ}
    (h : decideOne st sizes eligible P' x L' = some a) :
    ∃ b ≤ a, decideOne st sizes eligible P x L = some b := by
  unfold decideOne at h ⊢
  split_ifs at h with he
  rw [if_pos he]
  have hbounds : ∀ p b, L'.address p = some b → 0 ≤ b ∧ st.alignment ∣ b := fun p b hb =>
    ⟨(hsafe.bounds p b hb).1, (hsafe.bounds p b hb).2.1⟩
  have hsame' : ∀ p ∈ candidates st eligible P x, L.address p = L'.address p := fun p hp =>
    hsame p (mem_candidates.mp hp).1
  have hplaced := Placed.of_placeDecision hst.alignment_pos (fun p _ => hnn p)
    (fun p _ => hbounds p) h
  refine (hplaced.subset (fun p hp => ?_) hsame').exists_le hst.alignment_pos (fun p _ => hnn p)
    fun p hp b hb => (hbounds p b (hsame' p hp ▸ hb)).1
  obtain ⟨hmem, hrest⟩ := mem_candidates.mp hp
  exact mem_candidates.mpr ⟨hsub hmem, hrest⟩

/-- A buffer evicted at its place is evicted at every later place. -/
theorem decideOne_evicted_later (hst : RuleOk st) (hnn : ∀ i, 0 ≤ sizes i) {M : List ℕ}
    (hnd : (P ++ M).Nodup) (h : Evicted st sizes eligible P x) :
    Evicted st sizes eligible (P ++ M) x := by
  by_contra hne
  obtain ⟨a, ha⟩ := Option.ne_none_iff_exists'.mp hne
  have hsame : ∀ p ∈ P, (build st sizes eligible P).address p =
      (build st sizes eligible (P ++ M)).address p := fun p hp => (build_address_left hnd hp).symm
  obtain ⟨b, -, hb⟩ := decideOne_le_of_subset hst hnn (Safe.build hst hnn (P ++ M))
    (subset_append_left P M) hsame ha
  rw [h] at hb
  cases hb

end Build

/-! ## Layouts that place more -/

/-- `L'` has every buffer of `L` where `L` has it. -/
def Extends (L L' : Layout) : Prop :=
  ∀ y a, L.address y = some a → L'.address y = some a

section Extends

variable {st : StaticData} {sizes : ℕ → ℤ} {eligible : ℕ → Bool} {P P' : List ℕ} {L L' : Layout}

/-- What a buffer that is placed rests on is placed, so buffers that are evicted do not
matter. -/
theorem Extends.decideOne_eq (h : Extends L L') (hnn : ∀ i, 0 ≤ sizes i) (hsub : P' ⊆ P)
    (hgone : ∀ z ∈ P, z ∉ P' → L.address z = none) {y : ℕ} {a : ℤ}
    (ha : decideOne st sizes eligible P y L = some a) :
    decideOne st sizes eligible P' y L' = some a := by
  unfold decideOne at ha ⊢
  split_ifs at ha with he
  rw [if_pos he, ← ha]
  have hplaced : ∀ p ∈ candidates st eligible P y, L.address p ≠ none := fun p hp hn => by
    rw [placeDecision_of_evicted hp hn] at ha
    cases ha
  symm
  refine placeDecision_congr (.refl st) ⟨fun p => ⟨fun hp => ?_, fun hp => ?_⟩, rfl,
    fun _ _ => rfl, fun p hp => ?_⟩ fun p _ => hnn p
  · obtain ⟨hmem, hrest⟩ := mem_candidates.mp hp
    refine mem_candidates.mpr ⟨?_, hrest⟩
    by_contra hout
    exact hplaced p hp (hgone p hmem hout)
  · obtain ⟨hmem, hrest⟩ := mem_candidates.mp hp
    exact mem_candidates.mpr ⟨hsub hmem, hrest⟩
  · obtain ⟨b, hb⟩ := Option.ne_none_iff_exists'.mp (hplaced p hp)
    rw [hb, h p b hb]

theorem Extends.placeOne (h : Extends L L') (hnn : ∀ i, 0 ≤ sizes i) (hsub : P' ⊆ P)
    (hgone : ∀ z ∈ P, z ∉ P' → L.address z = none) {y : ℕ} (hnone : L'.address y = none) :
    Extends (placeOne st sizes eligible P y L) (placeOne st sizes eligible P' y L') := by
  intro z a hz
  by_cases hzy : z = y
  · subst hzy
    have hL : L.address z = none := by
      by_contra hne
      obtain ⟨b, hb⟩ := Option.ne_none_iff_exists'.mp hne
      rw [h z b hb] at hnone
      cases hnone
    rw [placeOne_address_self hL] at hz
    rw [placeOne_address_self hnone]
    exact h.decideOne_eq hnn hsub hgone hz
  · rw [PermLayout.placeOne, Layout.put_address_of_ne hzy] at hz ⊢
    exact h z a hz

/-- Placing the same buffers, in the same order, after fewer evicted ones. -/
theorem Extends.buildFrom {l : List ℕ} (hnn : ∀ i, 0 ≤ sizes i) (h : Extends L L') (hsub : P' ⊆ P)
    (hgone : ∀ z ∈ P, z ∉ P' → L.address z = none) (hnd : l.Nodup) (hdisj : ∀ z ∈ P, z ∉ l)
    (hnone : ∀ y ∈ l, L'.address y = none) :
    Extends (buildFrom st sizes eligible P l L) (buildFrom st sizes eligible P' l L') := by
  induction l generalizing P P' L L' with
  | nil => exact h
  | cons y l ih =>
    rw [nodup_cons] at hnd
    refine ih (h.placeOne hnn hsub hgone (hnone y (mem_cons_self ..))) ?_ ?_ hnd.2 ?_ ?_
    · exact fun z hz => by
        simp only [mem_append] at hz ⊢
        exact hz.imp_left fun hz => hsub hz
    · intro z hz hz'
      simp only [mem_append, mem_singleton, not_or] at hz hz'
      have hzP := hz.resolve_right hz'.2
      rw [PermLayout.placeOne, Layout.put_address_of_ne hz'.2]
      exact hgone z hzP hz'.1
    · intro z hz
      rcases mem_append.mp hz with hz | hz
      · exact fun hl => hdisj z hz (mem_cons_of_mem _ hl)
      · exact mem_singleton.mp hz ▸ hnd.1
    · intro z hz
      have hzy : z ≠ y := fun heq => hnd.1 (heq ▸ hz)
      rw [PermLayout.placeOne, Layout.put_address_of_ne hzy]
      exact hnone z (mem_cons_of_mem _ hz)

end Extends

/-! ## Quality -/

/-- What a buffer adds to the quality of a layout. -/
def Layout.share (st : StaticData) (sizes : ℕ → ℤ) (L : Layout) (y : ℕ) : ℚ :=
  if L.address y = none then 0 else st.weight y * sizes y

section Quality

theorem bufferWeight_pos (b : LifetimeBoundBuffer) : 0 < bufferWeight b := by
  have hlen : 0 < b.uses.length := length_pos_iff.mpr b.uses_ne
  have hcast : (0 : ℚ) < b.uses.length := by exact_mod_cast hlen
  unfold bufferWeight
  split_ifs <;> linarith

variable {st : StaticData} {sizes : ℕ → ℤ} {eligible : ℕ → Bool}

variable {L : Layout} {prior : List ℕ}

theorem quality_placeOne {y : ℕ} (h : L.address y = none) :
    (placeOne st sizes eligible prior y L).quality =
      L.quality + (placeOne st sizes eligible prior y L).share st sizes y := by
  rw [Layout.share, placeOne_address_self h, placeOne]
  cases decideOne st sizes eligible prior y L with
  | none => simp [Layout.put]
  | some a => simp [Layout.put]

theorem quality_buildFrom {l : List ℕ} (hnd : l.Nodup) (h : ∀ y ∈ l, L.address y = none) :
    (buildFrom st sizes eligible prior l L).quality =
      L.quality + (l.map ((buildFrom st sizes eligible prior l L).share st sizes)).sum := by
  induction l generalizing prior L with
  | nil => simp [buildFrom]
  | cons y l ih =>
    obtain ⟨hy, hnd⟩ := nodup_cons.mp hnd
    have hnone : ∀ z ∈ l, (placeOne st sizes eligible prior y L).address z = none := by
      intro z hz
      have hzy : z ≠ y := fun heq => hy (heq ▸ hz)
      rw [placeOne, Layout.put_address_of_ne hzy]
      exact h z (mem_cons_of_mem _ hz)
    have hshare : (buildFrom st sizes eligible prior (y :: l) L).share st sizes y =
        (placeOne st sizes eligible prior y L).share st sizes y := by
      rw [Layout.share, Layout.share, buildFrom, buildFrom_address_of_notMem hy]
    rw [map_cons, sum_cons, hshare, buildFrom, ih hnd hnone,
      quality_placeOne (h y (mem_cons_self ..)), add_assoc]

/-- The quality is the sum of the shares. -/
theorem quality_build {l : List ℕ} (hnd : l.Nodup) :
    (build st sizes eligible l).quality =
      (l.map ((build st sizes eligible l).share st sizes)).sum := by
  rw [build, quality_buildFrom hnd fun _ _ => rfl]
  exact zero_add _

variable {l l' : List ℕ}

theorem quality_build_congr (hnd : l.Nodup) (hperm : l'.Perm l)
    (h : ∀ y ∈ l, (build st sizes eligible l').address y = (build st sizes eligible l).address y) :
    (build st sizes eligible l').quality = (build st sizes eligible l).quality := by
  rw [quality_build hnd, quality_build (hperm.nodup_iff.mpr hnd), (hperm.map _).sum_eq]
  refine congrArg List.sum (map_congr_left fun y hy => ?_)
  rw [Layout.share, Layout.share, h y hy]

/-- A layout that places a buffer more has a higher quality. -/
theorem Extends.quality_lt (hnd : l.Nodup) (hperm : l'.Perm l)
    (h : Extends (build st sizes eligible l) (build st sizes eligible l'))
    (hpos : ∀ y ∈ l, 0 < st.weight y * sizes y) {y : ℕ} (hy : y ∈ l)
    (hold : (build st sizes eligible l).address y = none)
    (hnew : (build st sizes eligible l').address y ≠ none) :
    (build st sizes eligible l).quality < (build st sizes eligible l').quality := by
  rw [quality_build hnd, quality_build (hperm.nodup_iff.mpr hnd), (hperm.map _).sum_eq]
  refine sum_lt_sum _ _ (fun z hz => ?_) ⟨y, hy, ?_⟩
  · rw [Layout.share, Layout.share]
    split_ifs with hz₁ hz₂ hz₂
    · exact le_rfl
    · exact (hpos z hz).le
    · obtain ⟨a, ha⟩ := Option.ne_none_iff_exists'.mp hz₁
      rw [h z a ha] at hz₂
      cases hz₂
    · exact le_rfl
  · rw [Layout.share, Layout.share, if_pos hold, if_neg hnew]
    exact hpos y hy

end Quality

/-! ## Moving an evicted buffer -/

section Evicted

variable {st : StaticData} {sizes : ℕ → ℤ} {eligible : ℕ → Bool} {P M Q R : List ℕ} {x : ℕ}

theorem build_of_evicted (hev : Evicted st sizes eligible P x) (R : List ℕ) :
    build st sizes eligible (P ++ x :: R) =
      buildFrom st sizes eligible (P ++ [x]) R (build st sizes eligible P) := by
  rw [build_append, buildFrom, placeOne, hev, Layout.put]

/-- Without an evicted buffer nothing moves that is placed. -/
theorem extends_without (hnn : ∀ i, 0 ≤ sizes i) (hnd : (P ++ x :: R).Nodup)
    (hev : Evicted st sizes eligible P x) :
    Extends (build st sizes eligible (P ++ x :: R)) (build st sizes eligible (P ++ R)) := by
  obtain ⟨hP, hR, hdisj⟩ := nodup_append.mp hnd
  obtain ⟨hxR, hR⟩ := nodup_cons.mp hR
  have hxP : x ∉ P := fun hx => hdisj x hx x (mem_cons_self ..) rfl
  have hPR : ∀ z ∈ P, z ∉ R := fun z hz hzR => hdisj z hz z (mem_cons_of_mem _ hzR) rfl
  rw [build_of_evicted hev, build_append]
  refine Extends.buildFrom hnn (fun _ _ h => h) (subset_append_left P [x]) ?_ hR ?_ ?_
  · intro z hz hzP
    rw [mem_append, mem_singleton] at hz
    rw [hz.resolve_left hzP]
    exact build_address_of_notMem hxP
  · intro z hz
    rw [mem_append, mem_singleton] at hz
    rcases hz with hz | rfl
    · exact hPR z hz
    · exact hxR
  · exact fun z hz => build_address_of_notMem fun hzP => hPR z hzP hz

/-- Neither does it if the evicted buffer goes further back. -/
theorem extends_later (hst : RuleOk st) (hnn : ∀ i, 0 ≤ sizes i) (hnd : (P ++ x :: (M ++ Q)).Nodup)
    (hev : Evicted st sizes eligible P x) :
    Extends (build st sizes eligible (P ++ x :: (M ++ Q)))
      (build st sizes eligible (P ++ (M ++ x :: Q))) := by
  have hperm : (P ++ (M ++ x :: Q)).Perm (P ++ x :: (M ++ Q)) :=
    perm_middle.append_left P
  have hnd' := hperm.nodup_iff.mpr hnd
  rw [← append_assoc] at hnd'
  obtain ⟨hPM, hxQ, hdisj⟩ := nodup_append.mp hnd'
  obtain ⟨hx, hQ⟩ := nodup_cons.mp hxQ
  have hxPM : (P ++ x :: M).Nodup :=
    hnd.sublist ((List.Sublist.refl P).append ((sublist_append_left M Q).cons_cons x))
  rw [← append_assoc, build_of_evicted (decideOne_evicted_later hst hnn hPM hev),
    ← cons_append, ← append_assoc, build_append]
  refine Extends.buildFrom hnn (extends_without hnn hxPM hev) ?_ ?_ hQ ?_ ?_
  · intro z hz
    simp only [mem_append, mem_cons, not_mem_nil, or_false] at hz ⊢
    tauto
  · intro z hz hz'
    simp only [mem_append, mem_cons, not_mem_nil, or_false] at hz hz'
    tauto
  · intro z hz hzQ
    simp only [mem_append, mem_cons] at hz
    rcases hz with hz | rfl | hz
    · exact hdisj z (mem_append_left _ hz) z (mem_cons_of_mem _ hzQ) rfl
    · exact hx hzQ
    · exact hdisj z (mem_append_right _ hz) z (mem_cons_of_mem _ hzQ) rfl
  · exact fun z hz => build_address_of_notMem fun hzPM =>
      hdisj z hzPM z (mem_cons_of_mem _ hz) rfl

theorem decideOne_congr (hnn : ∀ i, 0 ≤ sizes i) {prior : List ℕ} {y : ℕ} {L L' : Layout}
    (h : ∀ p ∈ prior, L.address p = L'.address p) :
    decideOne st sizes eligible prior y L = decideOne st sizes eligible prior y L' := by
  unfold decideOne
  split_ifs with he
  · exact placeDecision_congr (.refl st) ⟨fun _ => Iff.rfl, rfl, fun _ _ => rfl, fun p hp =>
      h p (mem_candidates.mp hp).1⟩ fun p _ => hnn p
  · rfl

/-- If an evicted buffer alone keeps no other out, the layout without it is the same. -/
theorem build_without_eq (hnn : ∀ i, 0 ≤ sizes i) (hnd : (P ++ x :: R).Nodup)
    (hev : Evicted st sizes eligible P x)
    (hkept : ∀ R₁ y R₂, R = R₁ ++ y :: R₂ →
      (build st sizes eligible (P ++ x :: R)).address y = none →
      decideOne st sizes eligible (P ++ R₁) y (build st sizes eligible (P ++ x :: R)) = none) :
    build st sizes eligible (P ++ R) = build st sizes eligible (P ++ x :: R) := by
  -- Both layouts are the same after each prefix of what comes after the buffer.
  suffices h : ∀ R₁ R₂, R = R₁ ++ R₂ →
      build st sizes eligible (P ++ R₁) = build st sizes eligible (P ++ x :: R₁) from
    h R [] (append_nil R).symm
  intro R₁
  induction R₁ using List.reverseRecOn with
  | nil =>
    intro R₂ _
    rw [build_of_evicted hev, append_nil, buildFrom]
  | append_singleton R₁ y ih =>
    intro R₂ hR
    have hsplit : R = R₁ ++ y :: R₂ := by simpa using hR
    have hih := ih (y :: R₂) hsplit
    have hsuffix : P ++ x :: R = (P ++ x :: R₁) ++ y :: R₂ := by simp [hsplit]
    have hnd' : ((P ++ x :: R₁) ++ y :: R₂).Nodup := hsuffix ▸ hnd
    have hsub : P ++ R₁ ⊆ P ++ x :: R₁ :=
      ((List.Sublist.refl P).append (sublist_cons_self x R₁)).subset
    have hdecide : decideOne st sizes eligible (P ++ R₁) y
        (build st sizes eligible (P ++ x :: R₁)) = decideOne st sizes eligible (P ++ x :: R₁) y
        (build st sizes eligible (P ++ x :: R₁)) := by
      cases hd : decideOne st sizes eligible (P ++ x :: R₁) y
          (build st sizes eligible (P ++ x :: R₁)) with
      | some a =>
        refine Extends.decideOne_eq (fun _ _ h => h) hnn hsub (fun z hz hz' => ?_) hd
        have hzx : z = x := by
          simp only [mem_append, mem_cons] at hz hz'
          tauto
        rw [hzx, build_address_self (nodup_append.mp hnd').1, hev]
      | none =>
        have haddr : ∀ p ∈ P ++ R₁, (build st sizes eligible (P ++ x :: R₁)).address p =
            (build st sizes eligible (P ++ x :: R)).address p := by
          intro p hp
          rw [hsuffix, build_address_left hnd' (hsub hp)]
        rw [decideOne_congr hnn haddr]
        refine hkept R₁ y R₂ hsplit ?_
        rw [hsuffix, build_address_self hnd', hd]
    have hlast : P ++ x :: (R₁ ++ [y]) = (P ++ x :: R₁) ++ [y] := by simp
    rw [← append_assoc, build_concat, hlast, build_concat, hih, placeOne, placeOne, hdecide]

/-- If it does, the layout without it places one more. -/
theorem exists_newly_placed (hnn : ∀ i, 0 ≤ sizes i) {R₁ R₂ : List ℕ} {y : ℕ}
    (hnd : (P ++ x :: (R₁ ++ y :: R₂)).Nodup) (hev : Evicted st sizes eligible P x)
    (hnone : (build st sizes eligible (P ++ x :: (R₁ ++ y :: R₂))).address y = none)
    (hkept : decideOne st sizes eligible (P ++ R₁) y
      (build st sizes eligible (P ++ x :: (R₁ ++ y :: R₂))) ≠ none) :
    ∃ z ∈ P ++ (R₁ ++ y :: R₂),
      (build st sizes eligible (P ++ x :: (R₁ ++ y :: R₂))).address z = none ∧
      (build st sizes eligible (P ++ (R₁ ++ y :: R₂))).address z ≠ none := by
  by_contra hcon
  push Not at hcon
  have hextends := extends_without hnn hnd hev
  have hmem : y ∈ P ++ (R₁ ++ y :: R₂) := by simp
  have hnd' : ((P ++ R₁) ++ y :: R₂).Nodup := by
    rw [append_assoc]
    exact hnd.sublist ((List.Sublist.refl P).append (sublist_cons_self _ _))
  have hsame : ∀ p ∈ P ++ R₁, (build st sizes eligible (P ++ R₁)).address p =
      (build st sizes eligible (P ++ x :: (R₁ ++ y :: R₂))).address p := by
    intro p hp
    rw [← build_address_left hnd' hp, append_assoc]
    cases hb : (build st sizes eligible (P ++ x :: (R₁ ++ y :: R₂))).address p with
    | none =>
      refine hcon p ?_ hb
      rw [← append_assoc]
      exact mem_append_left _ hp
    | some a => exact hextends p a hb
  refine hkept ?_
  rw [← decideOne_congr hnn hsame, ← build_address_self hnd', append_assoc]
  exact hcon y hmem hnone

end Evicted

end PermLayout

end TorchSpyre
