import Mathlib
import TorchSpyre.FirstFit.Safe
import TorchSpyre.Loops

/-!
# What a buffer placed by first fit or best fit rests on

The gaps are all there is of free space : a range large enough for the buffer that misses every
subtracted slot lies in one of them (`Covered.foldl`). A gap starts at the bottom of the scratchpad
or on top of a buffer that was subtracted (`Founded.foldl`).

So a placed buffer is in the slot of a declared parent, or on the first aligned address above the
bottom or above a buffer it is live with. If that one is a declared parent with a slot, the slot was
not free : a third buffer is in it (`Rests`).
-/

open List

namespace TorchSpyre

namespace FirstFit

/-! ## The gaps are complete -/

section Gaps

variable {limit alignment : ℕ} {address : String → Option ℕ} {buffer : LifetimeBoundBuffer}
  {parentNames : List String}

/-- The range from `lo` to `hi` lies in a gap. -/
def Covered (gaps : List Gap) (lo hi : ℕ) : Prop :=
  ∃ g ∈ gaps, g.start ≤ lo ∧ hi ≤ g.stop

variable {g gap : Gap} {gaps : List Gap} {placed : List LifetimeBoundBuffer} {hi lo size : ℕ}
  {interval : ℕ × ℕ}

theorem Covered.minus (hlt : lo < hi) (hlen : lo + size ≤ hi) (hlo : gap.start ≤ lo)
    (hhi : hi ≤ gap.stop) (hclear : hi ≤ interval.1 ∨ interval.2 ≤ lo) :
    Covered (minus interval size gap) lo hi := by
  unfold FirstFit.minus
  rcases hclear with hclear | hclear
  · by_cases hstop : gap.stop < interval.1
    · refine ⟨⟨gap.start, gap.stop, []⟩, mem_append_left _ ?_, hlo, hhi⟩
      rw [if_pos (by omega), if_pos hstop, if_pos (by omega)]
      exact mem_singleton_self _
    · refine ⟨⟨gap.start, interval.1, []⟩, mem_append_left _ ?_, hlo, hclear⟩
      rw [if_pos (by omega), if_neg hstop, if_pos (by omega)]
      exact mem_singleton_self _
  · by_cases hstart : interval.2 < gap.start
    · refine ⟨⟨gap.start, gap.stop, []⟩, mem_append_right _ ?_, hlo, hhi⟩
      rw [if_pos (by omega), if_pos hstart, if_pos (by omega)]
      exact mem_singleton_self _
    · refine ⟨⟨interval.2, gap.stop, []⟩, mem_append_right _ ?_, hclear, hhi⟩
      rw [if_pos (by omega), if_neg hstart, if_pos (by omega)]
      exact mem_singleton_self _

theorem Covered.foldl (hlt : lo < hi) (hlen : lo + buffer.size ≤ hi)
    (h : Covered gaps lo hi) (hclear : Clear address buffer parentNames placed lo hi) :
    Covered (placed.foldl (subtract address buffer parentNames) gaps) lo hi := by
  refine List.foldlRecOn (motive := fun gaps => Covered gaps lo hi) placed _ h ?_
  intro gaps h other hother
  unfold subtract
  split
  · exact h
  · rename_i a ha
    split_ifs with hp hov
    · exact h
    · obtain ⟨g, hg, hlo, hhi⟩ := h
      have hcover : Covered (FirstFit.minus (a, a + other.size) buffer.size g) lo hi :=
        Covered.minus hlt hlen hlo hhi (hclear other hother a ha hp hov)
      obtain ⟨g', hg', hcov⟩ := hcover
      exact ⟨g', mem_flatMap.2 ⟨g, hg, hg'⟩, hcov⟩
    · exact h

/-- An address is the bottom of the scratchpad or the top of a placed buffer that `buffer` is live
with. -/
def Founded (address : String → Option ℕ) (buffer : LifetimeBoundBuffer)
    (placed : List LifetimeBoundBuffer) (start : ℕ) : Prop :=
  start = 0 ∨ ∃ w ∈ placed, ∃ a, address w.name = some a ∧ w.overlapsInTime buffer = true ∧
    start = a + w.size

theorem start_of_mem_minus (h : g ∈ minus interval size gap) :
    g.start = gap.start ∨ g.start = interval.2 := by
  unfold minus at h
  rcases mem_append.1 h with h | h
  · split_ifs at h <;> simp only [mem_singleton, not_mem_nil] at h
    · exact .inl (h ▸ rfl)
    · exact .inl (h ▸ rfl)
  · split_ifs at h <;> simp only [mem_singleton, not_mem_nil] at h
    · exact .inl (h ▸ rfl)
    · exact .inr (h ▸ rfl)

theorem Founded.foldl (h : ∀ g ∈ gaps, Founded address buffer placed g.start) :
    ∀ g ∈ placed.foldl (subtract address buffer parentNames) gaps,
      Founded address buffer placed g.start := by
  refine List.foldlRecOn
    (motive := fun gaps : List Gap => ∀ g ∈ gaps, Founded address buffer placed g.start)
    placed _ h ?_
  intro gaps h other hother g hg
  unfold subtract at hg
  split at hg
  · exact h g hg
  · rename_i a ha
    split_ifs at hg with hp hov
    · exact h g hg
    · obtain ⟨g₀, hg₀, hg⟩ := mem_flatMap.1 hg
      rcases start_of_mem_minus hg with hstart | hstart
      · rw [hstart]
        exact h g₀ hg₀
      · exact .inr ⟨other, hother, a, ha, hov, hstart⟩
    · exact h g hg

theorem pickGap_ne_none {policy : Policy} (hg : g ∈ gaps) (hfit : fits alignment size g = true) :
    pickGap alignment policy gaps size ≠ none := by
  cases policy with
  | firstFit =>
    intro hnone
    exact find?_eq_none.1 hnone g hg hfit
  | bestFit =>
    refine Loops.foldl_of_mem (P := (· ≠ none)) hg (fun best => ?_) (fun y _ best hbest => ?_) none
    · unfold tighter
      rw [if_pos hfit]
      cases best with
      | none => simp
      | some b =>
        dsimp only
        split_ifs <;> simp
    · unfold tighter
      split_ifs
      · cases best with
        | none => simp
        | some b =>
          dsimp only
          split_ifs <;> simp
      · exact hbest

end Gaps

/-! ## One placement -/

/-- A buffer that is live with `buffer`, is none of its declared parents and takes part of the slot
of `w`. -/
def Blocked (address : String → Option ℕ) (buffer : LifetimeBoundBuffer)
    (placed : List LifetimeBoundBuffer) (w : LifetimeBoundBuffer) (a : ℕ) : Prop :=
  ∃ u ∈ placed, ∃ b, address u.name = some b ∧ u.name ∉ buffer.inPlaceParents ∧
    u.overlapsInTime buffer = true ∧ b < a + w.size ∧ a < b + u.size

/-- What a buffer at `a` rests on. -/
inductive Rests (alignment : ℕ) (address : String → Option ℕ) (placed : List LifetimeBoundBuffer)
    (buffer : LifetimeBoundBuffer) (a : ℕ) : Prop
  | inPlace (parent : LifetimeBoundBuffer) (mem : parent ∈ placed)
      (declared : parent.name ∈ buffer.inPlaceParents) (same : address parent.name = some a)
  | bottom (zero : a = 0)
  | above (w : LifetimeBoundBuffer) (mem : w ∈ placed) (b : ℕ) (placedAt : address w.name = some b)
      (live : w.overlapsInTime buffer = true)
      (start : a = roundUpToAlignment (b + w.size) alignment)
      (blocked : 0 < w.size → w.name ∈ buffer.inPlaceParents → Blocked address buffer placed w b)

section Place

variable {limit alignment : ℕ} {address : String → Option ℕ} {policy : Policy}
  {placed : List LifetimeBoundBuffer} {buffer : LifetimeBoundBuffer}

theorem roundUpToAlignment_le_of_dvd (hal : 0 < alignment) {m a : ℕ} (hma : m ≤ a)
    (ha : alignment ∣ a) : roundUpToAlignment m alignment ≤ a := by
  obtain ⟨c, rfl⟩ := ha
  unfold roundUpToAlignment
  rw [mul_comm]
  refine Nat.mul_le_mul_left _ (Nat.le_of_lt_succ ?_)
  rw [Nat.div_lt_iff_lt_mul hal]
  calc m + alignment - 1 < alignment * c + alignment := by omega
    _ = (c + 1) * alignment := by ring

/-- Where the slot of a declared parent is free, the first attempt succeeds. -/
theorem blocked_of_pickGap_eq_none (hal : 0 < alignment) (hu : UniquelyNamed placed)
    {w : LifetimeBoundBuffer} (hsize : 0 < w.size) (hw : w ∈ placed) {b : ℕ}
    (hb : address w.name = some b) (hdecl : w.name ∈ buffer.inPlaceParents) (hdvd : alignment ∣ b)
    (hlimit : b + w.size ≤ limit) (hfit : buffer.size ≤ w.size)
    (hnone : pickGap alignment policy
      ((buildGaps limit address buffer placed true).filter (·.inPlaceParents ≠ []))
      buffer.size = none) : Blocked address buffer placed w b := by
  by_contra hfree
  have hclear : Clear address buffer buffer.inPlaceParents placed b (b + w.size) := by
    intro u hu' c hc hnot hov
    by_contra hcon
    exact hfree ⟨u, hu', c, hc, hnot, hov, by omega, by omega⟩
  have hstart : Covered [⟨0, limit, []⟩] b (b + w.size) :=
    ⟨_, mem_singleton_self _, Nat.zero_le _, hlimit⟩
  obtain ⟨g, hg, hlo, hhi⟩ := hstart.foldl (by omega) (by omega) hclear
  have hwithin : w.name ∈ parentsWithin address buffer placed g := by
    refine mem_filter.2 ⟨hdecl, ?_⟩
    rw [(bufByName_eq_some_iff hu).2 ⟨hw, rfl⟩]
    simp [hb, hlo, hhi]
  refine pickGap_ne_none (g := { g with
    inPlaceParents := g.inPlaceParents ++ parentsWithin address buffer placed g })
    (mem_filter.2 ⟨mem_map.2 ⟨g, hg, rfl⟩, ?_⟩) ?_ hnone
  · simp [ne_nil_of_mem hwithin]
  · have hround := roundUpToAlignment_le_of_dvd hal hlo hdvd
    simp only [fits, decide_eq_true_eq]
    omega

variable (policy) in
theorem place_rests (hal : 0 < alignment) (h : Solvable (placed ++ [buffer]))
    (hsafe : Safe limit alignment placed address) :
    place limit alignment address policy placed buffer = address ∨
      ∃ a, Rests alignment address placed buffer a ∧
        place limit alignment address policy placed buffer =
          Function.update address buffer.name (some a) := by
  have hu : UniquelyNamed placed :=
    h.named.sublist ((sublist_append_left placed [buffer]).map _)
  unfold place
  split
  · rename_i gap hpick
    obtain ⟨hgap, hne⟩ := mem_filter.1 (pickGap_spec hpick).1
    obtain ⟨-, -, hparents⟩ := buildGaps_spec hgap
    cases hlist : gap.inPlaceParents with
    | nil => simp [hlist] at hne
    | cons name names =>
      obtain ⟨hdecl, parent, a, rfl, hin⟩ := hparents name (by simp [hlist])
      refine .inr ⟨a, .inPlace parent hin.mem hdecl hin.placedAt, ?_⟩
      rw [head?_cons, Option.bind_some, hin.placedAt]
  · rename_i hnone
    split
    · rename_i gap hpick
      obtain ⟨g, hg, rfl⟩ := mem_map.1 (pickGap_spec hpick).1
      refine .inr ⟨_, ?_, rfl⟩
      have hfirst : ∀ g ∈ [(⟨0, limit, []⟩ : Gap)], Founded address buffer placed g.start := by
        intro g hg
        rw [mem_singleton.1 hg]
        exact .inl rfl
      rcases Founded.foldl hfirst g hg with hzero | ⟨w, hw, b, hb, hlive, hstart⟩
      · refine .bottom ?_
        simp only [hzero, roundUpToAlignment]
        rw [Nat.div_eq_of_lt (by omega), Nat.zero_mul]
      · refine .above w hw b hb hlive (by rw [← hstart]) fun hsize hdecl => ?_
        obtain ⟨w', hw', hname, hdvd, hlimit⟩ := hsafe.bounded _ _ hb
        obtain rfl := hu.eq_of_name_eq hw' hw hname
        have hpair := h.pair w' (mem_append_left _ hw) buffer (by simp) hdecl
        exact blocked_of_pickGap_eq_none hal hu hsize hw hb hdecl hdvd hlimit hpair.fits hnone
    · exact .inl rfl

theorem Rests.congr {address' : String → Option ℕ} {a : ℕ}
    (h : Rests alignment address placed buffer a)
    (hsame : ∀ x ∈ placed, address' x.name = address x.name) :
    Rests alignment address' placed buffer a := by
  cases h with
  | inPlace parent mem declared same =>
    exact .inPlace parent mem declared ((hsame parent mem).trans same)
  | bottom zero => exact .bottom zero
  | above w mem b placedAt live start blocked =>
    refine .above w mem b ((hsame w mem).trans placedAt) live start fun hsize hdecl => ?_
    obtain ⟨u, hu, c, hc, hrest⟩ := blocked hsize hdecl
    exact ⟨u, hu, c, (hsame u hu).trans hc, hrest⟩

end Place

/-! ## The whole plan -/

section Plan

variable {limit alignment : ℕ} {policy : Policy}

variable {rest : List LifetimeBoundBuffer}

/-- A buffer is placed once. -/
theorem placeAll_of_notMem (hal : 0 < alignment) :
    ∀ {placed : List LifetimeBoundBuffer} {address : String → Option ℕ} {name : String},
      name ∉ rest.map (·.name) →
      placeAll limit alignment policy address placed rest name = address name := by
  induction rest with
  | nil => exact fun _ => rfl
  | cons buffer rest ih =>
    intro placed address name hname
    rw [map_cons, mem_cons, not_or] at hname
    rw [placeAll, ih hname.2]
    rcases place_cases hal with h | ⟨a, -, h⟩
    · rw [h]
    · rw [h, Function.update_of_ne hname.1]

variable (policy) in
/-- Every buffer of a plan rests on what was placed before it. -/
theorem placeAll_rests (hal : 0 < alignment) :
    ∀ {placed : List LifetimeBoundBuffer} {address : String → Option ℕ},
      Solvable (placed ++ rest) → Safe limit alignment placed address →
      ∀ pre b post, rest = pre ++ b :: post → ∀ a,
        placeAll limit alignment policy address placed rest b.name = some a →
        Rests alignment (placeAll limit alignment policy address placed rest) (placed ++ pre) b
          a := by
  induction rest with
  | nil =>
    intro placed address _ _ pre b post hrest
    simp at hrest
  | cons buffer rest ih =>
    intro placed address h hsafe pre b post hrest a ha
    have hsplit : placed ++ buffer :: rest = (placed ++ [buffer]) ++ rest := by simp
    have hnd := h.named
    rw [UniquelyNamed, map_append, map_cons] at hnd
    have hfresh : buffer.name ∉ rest.map (·.name) :=
      (nodup_cons.1 (nodup_append.1 hnd).2.1).1
    have hnew : buffer.name ∉ placed.map (·.name) := fun hmem =>
      disjoint_of_nodup_append hnd hmem (mem_cons_self ..)
    cases pre with
    | nil =>
      obtain ⟨rfl, rfl⟩ := List.cons.inj hrest
      rw [placeAll, placeAll_of_notMem hal hfresh] at ha
      have hnone : address buffer.name = none := by
        by_contra hne
        obtain ⟨c, hc⟩ := Option.ne_none_iff_exists'.1 hne
        obtain ⟨x, hx, hname, -⟩ := hsafe.bounded _ _ hc
        exact hnew (mem_map.2 ⟨x, hx, hname⟩)
      rw [append_nil]
      rcases place_rests policy hal h.head hsafe with hkeep | ⟨c, hc, hput⟩
      · rw [hkeep, hnone] at ha
        cases ha
      · rw [hput, Function.update_self] at ha
        obtain rfl := Option.some.inj ha
        refine hc.congr fun x hx => ?_
        have hxname : x.name ∉ (buffer :: rest).map (·.name) := fun hmem =>
          disjoint_of_nodup_append hnd (mem_map_of_mem hx) (by simpa using hmem)
        exact placeAll_of_notMem hal hxname
    | cons b' pre =>
      obtain ⟨rfl, htail⟩ := List.cons.inj hrest
      have := ih (hsplit ▸ h) (hsafe.place policy hal h.head) pre b post htail a ha
      rwa [append_assoc, singleton_append] at this

end Plan

end FirstFit

end TorchSpyre
