import Mathlib
import TorchSpyre.FirstFit.Solver
import TorchSpyre.Loops

/-!
# First fit and best fit never overwrite a live buffer

A gap is clear of every placed buffer that was subtracted from it. An ordinary placement lies
in a gap from which all buffers live with it were subtracted. An in-place placement lies in the
slot of a declared parent, inside a gap that is clear of all buffers but declared parents. The
other declared parents are live with the first one, on the tick they all hand over, so they are
disjoint from it already.

The order of placement exists : a buffer that declares parents is written on its first use, so
as a parent it lives for two ticks at least and its children start strictly later. A cycle of
declarations would go on forever (`rank_lt`).
-/

open List Function

namespace TorchSpyre

open Checked

namespace FirstFit

/-! ## Gaps -/

theorem minus_clear {interval : ℕ × ℕ} {size : ℕ} {gap g : Gap} (h : g ∈ minus interval size gap) :
    gap.start ≤ g.start ∧ g.stop ≤ gap.stop ∧ (g.stop ≤ interval.1 ∨ interval.2 ≤ g.start) ∧
      g.inPlaceParents = [] := by
  unfold minus at h
  rcases mem_append.1 h with h | h
  · split_ifs at h <;> simp only [mem_singleton, not_mem_nil] at h
    · subst h
      exact ⟨le_rfl, le_rfl, .inl (by dsimp only; omega), rfl⟩
    · subst h
      exact ⟨le_rfl, by dsimp only; omega, .inl le_rfl, rfl⟩
  · split_ifs at h <;> simp only [mem_singleton, not_mem_nil] at h
    · subst h
      exact ⟨le_rfl, le_rfl, .inr (by dsimp only; omega), rfl⟩
    · subst h
      exact ⟨by dsimp only; omega, le_rfl, .inr le_rfl, rfl⟩

section Gaps

variable {limit alignment : ℕ} {address : String → Option ℕ} {buffer : LifetimeBoundBuffer}

/-- The range from `lo` to `hi` misses every placed buffer of `seen` that `buffer` is live with
and that is not in `parentNames`. -/
def Clear (address : String → Option ℕ) (buffer : LifetimeBoundBuffer)
    (parentNames : List String) (seen : List LifetimeBoundBuffer) (lo hi : ℕ) : Prop :=
  ∀ other ∈ seen, ∀ a, address other.name = some a → other.name ∉ parentNames →
    other.overlapsInTime buffer = true → hi ≤ a ∨ a + other.size ≤ lo

variable {g : Gap} {gaps : List Gap} {placed seen : List LifetimeBoundBuffer}
  {parentNames : List String}

theorem Clear.mono {lo hi lo' hi' : ℕ} (h : Clear address buffer parentNames seen lo hi)
    (hlo : lo ≤ lo') (hhi : hi' ≤ hi) : Clear address buffer parentNames seen lo' hi' := by
  intro other hother a ha hp hov
  have := h other hother a ha hp hov
  omega

/-- A gap left after the buffers of `seen` are subtracted. -/
structure GapOk (limit : ℕ) (address : String → Option ℕ) (buffer : LifetimeBoundBuffer)
    (parentNames : List String) (seen : List LifetimeBoundBuffer) (gap : Gap) : Prop where
  bounded : gap.stop ≤ limit
  bare : gap.inPlaceParents = []
  clear : Clear address buffer parentNames seen gap.start gap.stop

/-- One subtraction. -/
theorem GapOk.subtract {other : LifetimeBoundBuffer}
    (h : ∀ g ∈ gaps, GapOk limit address buffer parentNames seen g)
    (hg : g ∈ subtract address buffer parentNames gaps other) :
    GapOk limit address buffer parentNames (seen ++ [other]) g := by
  -- it remains to clear the gap of `other`
  have key : ∀ {g₀ : Gap}, g₀ ∈ gaps → g₀.start ≤ g.start → g.stop ≤ g₀.stop →
      g.inPlaceParents = [] → Clear address buffer parentNames [other] g.start g.stop →
      GapOk limit address buffer parentNames (seen ++ [other]) g := by
    intro g₀ hg₀ hlo hhi hbare hclear
    have h₀ := h g₀ hg₀
    refine ⟨hhi.trans h₀.bounded, hbare, fun o ho => ?_⟩
    rcases mem_append.1 ho with ho | ho
    · exact h₀.clear.mono hlo hhi o ho
    · exact hclear o ho
  unfold FirstFit.subtract at hg
  cases haddr : address other.name with
  | none =>
    rw [haddr] at hg
    refine key hg le_rfl le_rfl (h g hg).bare fun o ho a ha => ?_
    rw [mem_singleton.1 ho, haddr] at ha
    cases ha
  | some a =>
    simp only [haddr] at hg
    split_ifs at hg with hp hov
    · refine key hg le_rfl le_rfl (h g hg).bare fun o ho _ _ hnot => ?_
      rw [mem_singleton.1 ho] at hnot
      exact absurd hp hnot
    · obtain ⟨g₀, hg₀, hmem⟩ := mem_flatMap.1 hg
      obtain ⟨hlo, hhi, hcl, hbare⟩ := minus_clear hmem
      refine key hg₀ hlo hhi hbare fun o ho a' ha' _ _ => ?_
      rw [mem_singleton.1 ho] at ha' ⊢
      obtain rfl := Option.some.inj (haddr.symm.trans ha')
      exact hcl
    · refine key hg le_rfl le_rfl (h g hg).bare fun o ho _ _ _ hov' => ?_
      rw [mem_singleton.1 ho] at hov'
      exact absurd hov' hov

/-- The parent is placed, and its slot lies in the gap. -/
structure ParentIn (address : String → Option ℕ) (placed : List LifetimeBoundBuffer) (gap : Gap)
    (parent : LifetimeBoundBuffer) (a : ℕ) : Prop where
  mem : parent ∈ placed
  placedAt : address parent.name = some a
  above : gap.start ≤ a
  below : a + parent.size ≤ gap.stop

theorem mem_parentsWithin {gap : Gap} {name : String}
    (h : name ∈ parentsWithin address buffer placed gap) :
    name ∈ buffer.inPlaceParents ∧
      ∃ parent a, parent.name = name ∧ ParentIn address placed gap parent a := by
  unfold parentsWithin at h
  obtain ⟨hdecl, hin⟩ := mem_filter.1 h
  refine ⟨hdecl, ?_⟩
  split at hin
  · cases hin
  · rename_i parent hparent
    split at hin
    · cases hin
    · rename_i a ha
      obtain ⟨hmem, hname⟩ := mem_of_bufByName hparent
      simp only [Bool.and_eq_true, decide_eq_true_eq] at hin
      exact ⟨parent, a, hname, hmem, ha, hin.1, hin.2⟩

/-- A gap for `buffer` is clear of all it is live with, but for its parents where they may be
reused. The parents listed with it lie inside. -/
theorem buildGaps_spec {reuse : Bool} (hg : g ∈ buildGaps limit address buffer placed reuse) :
    g.stop ≤ limit ∧
      Clear address buffer (if reuse then buffer.inPlaceParents else []) placed g.start g.stop ∧
      ∀ name ∈ g.inPlaceParents, name ∈ buffer.inPlaceParents ∧
        ∃ parent a, parent.name = name ∧ ParentIn address placed g parent a := by
  unfold buildGaps at hg
  obtain ⟨g₀, hg₀, rfl⟩ := mem_map.1 hg
  have hstart : ∀ g ∈ [(⟨0, limit, []⟩ : Gap)],
      GapOk limit address buffer (if reuse then buffer.inPlaceParents else []) [] g := by
    intro g hg
    rw [mem_singleton.1 hg]
    exact ⟨le_rfl, rfl, by simp [Clear]⟩
  have hok := Loops.foldl_inv
    (I := fun seen gaps => ∀ g ∈ gaps, GapOk limit address buffer _ seen g)
    (fun _ _ _ _ _ h _ hg => GapOk.subtract h hg) hstart g₀ hg₀
  refine ⟨hok.bounded, hok.clear, fun name hname => ?_⟩
  dsimp only at hname
  rw [hok.bare, nil_append] at hname
  obtain ⟨hdecl, parent, a, hn, hin⟩ := mem_parentsWithin hname
  exact ⟨hdecl, parent, a, hn, hin.mem, hin.placedAt, hin.above, hin.below⟩

/-- Either policy picks a gap that holds an aligned block. -/
theorem pickGap_spec {policy : Policy} {size : ℕ}
    (h : pickGap alignment policy gaps size = some g) :
    g ∈ gaps ∧ roundUpToAlignment g.start alignment + size ≤ g.stop := by
  cases policy with
  | firstFit =>
    have hfit := find?_some h
    simp only [fits, decide_eq_true_eq] at hfit
    exact ⟨mem_of_find?_eq_some h, hfit⟩
  | bestFit =>
    -- whatever is best so far fits and was seen
    have key : ∀ b ∈ gaps.foldl (tighter alignment size) none,
        b ∈ gaps ∧ fits alignment size b = true := by
      refine Loops.foldl_inv (I := fun seen best : _ => ∀ b ∈ best, b ∈ seen ∧
        fits alignment size b = true) (fun seen gap _ best _ hbest b hb => ?_) (by simp)
      have hold : ∀ b ∈ best, b ∈ seen ++ [gap] ∧ fits alignment size b = true := fun b hb =>
        ⟨mem_append_left _ (hbest b hb).1, (hbest b hb).2⟩
      unfold tighter at hb
      split_ifs at hb with hfit
      · have hnew : gap ∈ seen ++ [gap] ∧ fits alignment size gap = true := ⟨by simp, hfit⟩
        cases best with
        | none =>
          obtain rfl := Option.some.inj hb
          exact hnew
        | some g =>
          dsimp only at hb
          split_ifs at hb
          · obtain rfl := Option.some.inj hb
            exact hnew
          · exact hold b hb
      · exact hold b hb
    obtain ⟨hmem, hfit⟩ := key g h
    simp only [fits, decide_eq_true_eq] at hfit
    exact ⟨hmem, hfit⟩

end Gaps

/-! ## Placing one buffer -/

/-- What a placement at `a` is : in the slot of a declared parent, clear of all but declared
parents, or anywhere clear of everything. -/
inductive Choice (limit alignment : ℕ) (address : String → Option ℕ)
    (placed : List LifetimeBoundBuffer) (buffer : LifetimeBoundBuffer) (a : ℕ) : Prop
  | inPlace (parent : LifetimeBoundBuffer) (mem : parent ∈ placed)
      (declared : parent.name ∈ buffer.inPlaceParents) (same : address parent.name = some a)
      (clear : Clear address buffer buffer.inPlaceParents placed a (a + parent.size))
  | fresh (aligned : alignment ∣ a) (bounded : a + buffer.size ≤ limit)
      (clear : Clear address buffer [] placed a (a + buffer.size))

section Place

variable {limit alignment : ℕ} {address : String → Option ℕ} {policy : Policy}
  {placed : List LifetimeBoundBuffer} {buffer : LifetimeBoundBuffer}

/-- A buffer is placed at an admissible address, or not at all. -/
theorem place_cases (hal : 0 < alignment) :
    place limit alignment address policy placed buffer = address ∨
      ∃ a, Choice limit alignment address placed buffer a ∧
        place limit alignment address policy placed buffer =
          Function.update address buffer.name (some a) := by
  unfold place
  split
  · rename_i gap hpick
    obtain ⟨hgap, -⟩ := pickGap_spec hpick
    obtain ⟨hgap, hne⟩ := mem_filter.1 hgap
    obtain ⟨-, hclear, hparents⟩ := buildGaps_spec hgap
    cases hlist : gap.inPlaceParents with
    | nil => simp [hlist] at hne
    | cons name names =>
      obtain ⟨hdecl, parent, a, rfl, hin⟩ := hparents name (by simp [hlist])
      refine .inr ⟨a, .inPlace parent hin.mem hdecl hin.placedAt ?_, ?_⟩
      · exact hclear.mono hin.above hin.below
      · rw [head?_cons, Option.bind_some, hin.placedAt]
  · split
    · rename_i gap hpick
      obtain ⟨hgap, hfit⟩ := pickGap_spec hpick
      obtain ⟨hbound, hclear, -⟩ := buildGaps_spec hgap
      refine .inr ⟨_, .fresh (dvd_roundUpToAlignment _ _) (hfit.trans hbound) ?_, rfl⟩
      exact hclear.mono (le_roundUpToAlignment hal _) hfit
    · exact .inl rfl

end Place

/-- The child is placed at the address of a declared parent, inside its slot. -/
structure InPlace (parent child : LifetimeBoundBuffer) (a b : ℕ) : Prop where
  declared : parent.name ∈ child.inPlaceParents
  same : b = a
  inside : slot child b ⊆ slot parent a

/-- Of two placed buffers one is below the other, or one is in the slot of the other. -/
def Apart (x y : LifetimeBoundBuffer) (a b : ℕ) : Prop :=
  (a + x.size ≤ b ∨ b + y.size ≤ a) ∨ InPlace x y a b ∨ InPlace y x b a

variable {b c p : LifetimeBoundBuffer} {buffers rest : List LifetimeBoundBuffer} {policy : Policy}
  {a alignment limit : ℕ}

theorem Apart.symm {x y : LifetimeBoundBuffer} {b : ℕ} (h : Apart x y a b) : Apart y x b a := by
  rcases h with h | h | h
  · exact .inl h.symm
  · exact .inr (.inr h)
  · exact .inr (.inl h)

/-- Every address is that of a buffer placed so far, aligned and within the limit. -/
def Bounded (limit alignment : ℕ) (placed : List LifetimeBoundBuffer)
    (address : String → Option ℕ) : Prop :=
  ∀ name a, address name = some a →
    ∃ b ∈ placed, b.name = name ∧ alignment ∣ a ∧ a + b.size ≤ limit

/-- The addresses given to the buffers placed so far. -/
structure Safe (limit alignment : ℕ) (placed : List LifetimeBoundBuffer)
    (address : String → Option ℕ) : Prop where
  bounded : Bounded limit alignment placed address
  apart : ∀ x ∈ placed, ∀ y ∈ placed, x ≠ y → ∀ a b, address x.name = some a →
    address y.name = some b → x.overlapsInTime y = true → Apart x y a b

theorem safe_nil : Safe limit alignment [] fun _ => none :=
  ⟨fun _ _ h => (nomatch h), by simp⟩

/-- What is known of the buffers of a solve. Buffers that declare parents are written on their
first use. -/
structure Solvable (buffers : List LifetimeBoundBuffer) : Prop where
  named : UniquelyNamed buffers
  pair : ∀ p ∈ buffers, ∀ c ∈ buffers, p.name ∈ c.inPlaceParents → InPlacePairOk p c
  written : ∀ b ∈ buffers, b.firstUseIsRead = true → b.inPlaceParents = []

theorem Solvable.subset {l : List LifetimeBoundBuffer} (h : Solvable buffers) (hl : UniquelyNamed l)
    (hsub : l ⊆ buffers) : Solvable l where
  named := hl
  pair p hp c hc := h.pair p (hsub hp) c (hsub hc)
  written b hb := h.written b (hsub hb)

/-- A buffer that declares parents and hands its storage on lives for two ticks at least. -/
theorem Solvable.startTime_add_one_lt (h : Solvable buffers) (hb : b ∈ buffers)
    (hp : b.inPlaceParents ≠ []) (hread : b.canHandOver = true) : b.startTime + 1 < b.endTime := by
  have hwritten : b.firstUseIsRead = false := by
    by_contra hr
    exact hp (h.written b hb (by simpa using hr))
  simp only [LifetimeBoundBuffer.canHandOver, hwritten, Bool.false_or, Bool.and_eq_true,
    decide_eq_true_eq] at hread
  have h₁ := b.startTime_le_firstUse
  have h₂ := b.lastUse_lt_endTime
  omega

/-- No declared parent of a buffer is a declared parent of another one. -/
theorem Solvable.not_declared (h : Solvable buffers) {q : LifetimeBoundBuffer} (hp : p ∈ buffers)
    (hq : q ∈ buffers) (hc : c ∈ buffers) (hpc : p.name ∈ c.inPlaceParents)
    (hqc : q.name ∈ c.inPlaceParents) :
    p.name ∉ q.inPlaceParents := by
  intro hpq
  have h₁ := (h.pair p hp c hc hpc).handoff
  have h₂ := h.pair q hq c hc hqc
  have h₃ := (h.pair p hp q hq hpq).handoff
  have h₄ := h.startTime_add_one_lt hq (ne_nil_of_mem hpq) h₂.isRead
  have h₅ := h₂.handoff
  omega

section Step

variable {limit alignment : ℕ} {address : String → Option ℕ}
  {placed : List LifetimeBoundBuffer} {buffer : LifetimeBoundBuffer} {a : ℕ}

variable {x : LifetimeBoundBuffer}

/-- A new placement is apart from every earlier one. -/
theorem Choice.apart (h : Solvable (placed ++ [buffer]))
    (hsafe : Safe limit alignment placed address)
    (hch : Choice limit alignment address placed buffer a) (hx : x ∈ placed) {b : ℕ}
    (hb : address x.name = some b) (hov : x.overlapsInTime buffer = true) : Apart x buffer b a := by
  have hin : ∀ {y}, y ∈ placed → y ∈ placed ++ [buffer] := mem_append_left _
  have hbuf : buffer ∈ placed ++ [buffer] := by simp
  cases hch with
  | fresh _ _ hclear =>
    have := hclear x hx b hb not_mem_nil hov
    exact .inl (by omega)
  | inPlace parent hmem hdecl hsame hclear =>
    have hpair := h.pair parent (hin hmem) buffer hbuf hdecl
    have hsize := hpair.fits
    by_cases hxp : x = parent
    · subst hxp
      obtain rfl := Option.some.inj (hsame.symm.trans hb)
      exact .inr (.inl ⟨hdecl, rfl, Set.Ico_subset_Ico_right (by omega)⟩)
    by_cases hxdecl : x.name ∈ buffer.inPlaceParents
    · -- both parents hand over on the tick `buffer` starts, so they are live together
      have hxpair := h.pair x (hin hx) buffer hbuf hxdecl
      have hov' : x.overlapsInTime parent = true := by
        rw [LifetimeBoundBuffer.overlapsInTime_iff]
        have h₁ := hpair.handoff
        have h₂ := hxpair.handoff
        have h₃ := x.startTime_lt_endTime
        have h₄ := parent.startTime_lt_endTime
        omega
      rcases hsafe.apart x hx parent hmem hxp b a hb hsame hov' with hdis | hpp | hpp
      · exact .inl (by omega)
      · exact absurd hpp.declared (h.not_declared (hin hx) (hin hmem) hbuf hxdecl hdecl)
      · exact absurd hpp.declared (h.not_declared (hin hmem) (hin hx) hbuf hdecl hxdecl)
    · have := hclear x hx b hb hxdecl hov
      exact .inl (by omega)

/-- Names do not come up again. -/
theorem Solvable.name_ne (h : Solvable (placed ++ [buffer])) (hx : x ∈ placed) :
    x.name ≠ buffer.name := by
  intro heq
  have hnd := h.named
  rw [UniquelyNamed, map_append, nodup_append] at hnd
  exact hnd.2.2 _ (mem_map_of_mem hx) _ (by simp) heq

/-- Leaving a buffer out keeps the plan safe. -/
theorem Safe.skip (h : Solvable (placed ++ [buffer]))
    (hsafe : Safe limit alignment placed address) :
    Safe limit alignment (placed ++ [buffer]) address := by
  have hin : ∀ x ∈ placed ++ [buffer], ∀ {b : ℕ}, address x.name = some b → x ∈ placed := by
    intro x hx b hb
    obtain ⟨y, hy, hname, -⟩ := hsafe.bounded _ _ hb
    rw [mem_append, mem_singleton] at hx
    rcases hx with hx | rfl
    · exact hx
    · exact absurd hname (h.name_ne hy)
  refine ⟨fun name b hb => ?_, fun x hx y hy hxy b c hb hc hov => ?_⟩
  · obtain ⟨x, hx, hrest⟩ := hsafe.bounded name b hb
    exact ⟨x, mem_append_left _ hx, hrest⟩
  · exact hsafe.apart x (hin x hx hb) y (hin y hy hc) hxy b c hb hc hov

/-- Recording an admissible placement keeps the addresses aligned and within the limit. -/
theorem Bounded.update (hpair : ∀ p ∈ placed, p.name ∈ buffer.inPlaceParents → buffer.size ≤ p.size)
    (hbounded : Bounded limit alignment placed address)
    (hch : Choice limit alignment address placed buffer a) :
    Bounded limit alignment (placed ++ [buffer])
      (Function.update address buffer.name (some a)) := by
  intro name b hb
  by_cases hn : name = buffer.name
  · subst hn
    rw [update_self] at hb
    obtain rfl := Option.some.inj hb
    refine ⟨buffer, by simp, rfl, ?_⟩
    cases hch with
    | fresh hal hlim _ => exact ⟨hal, hlim⟩
    | inPlace parent hmem hdecl hsame _ =>
      obtain ⟨p, hp, hpn, hal, hlim⟩ := hbounded _ _ hsame
      have hfits := hpair p hp (hpn ▸ hdecl)
      exact ⟨hal, by omega⟩
  · rw [update_of_ne hn] at hb
    obtain ⟨p, hp, hrest⟩ := hbounded name b hb
    exact ⟨p, mem_append_left _ hp, hrest⟩

/-- Recording an admissible placement keeps the plan safe. -/
theorem Safe.update (h : Solvable (placed ++ [buffer]))
    (hsafe : Safe limit alignment placed address)
    (hch : Choice limit alignment address placed buffer a) :
    Safe limit alignment (placed ++ [buffer])
      (Function.update address buffer.name (some a)) := by
  have hold : ∀ x ∈ placed, ∀ {b : ℕ},
      Function.update address buffer.name (some a) x.name = some b →
        address x.name = some b := by
    intro x hx b hb
    rwa [update_of_ne (h.name_ne hx)] at hb
  have hnew : ∀ {b : ℕ},
      Function.update address buffer.name (some a) buffer.name = some b → a = b := by
    intro b hb
    rw [update_self] at hb
    exact Option.some.inj hb
  refine ⟨fun name b hb => ?_, fun x hx y hy hxy b c hb hc hov => ?_⟩
  · exact Bounded.update (fun p hp hdecl =>
      (h.pair p (mem_append_left _ hp) buffer (by simp) hdecl).fits) hsafe.bounded hch
      name b hb
  · rw [mem_append, mem_singleton] at hx hy
    rcases hx with hx | rfl <;> rcases hy with hy | rfl
    · exact hsafe.apart x hx y hy hxy b c (hold x hx hb) (hold y hy hc) hov
    · obtain rfl := hnew hc
      exact hch.apart h hsafe hx (hold x hx hb) hov
    · obtain rfl := hnew hb
      rw [LifetimeBoundBuffer.overlapsInTime_iff, and_comm,
        ← LifetimeBoundBuffer.overlapsInTime_iff] at hov
      exact (hch.apart h hsafe hy (hold y hy hc) hov).symm
    · exact absurd rfl hxy

end Step

/-! ## The order of placement -/

/-- Parents rank below their children : first the buffers without parents, then by start. -/
def rank (b : LifetimeBoundBuffer) : WithBot ℤ :=
  if b.inPlaceParents = [] then ⊥ else b.startTime

theorem Solvable.rank_lt (h : Solvable buffers) (hp : p ∈ buffers) (hc : c ∈ buffers)
    (hpc : p.name ∈ c.inPlaceParents) : rank p < rank c := by
  have hpair := h.pair p hp c hc hpc
  rw [rank, rank, if_neg (ne_nil_of_mem hpc)]
  split_ifs with hroot
  · exact WithBot.bot_lt_coe _
  · have h₁ := h.startTime_add_one_lt hp hroot hpair.isRead
    have h₂ := hpair.handoff
    exact WithBot.coe_lt_coe.2 (by omega)

theorem nameToIdx_spec {name : String} {i : ℕ} (h : nameToIdx buffers name = some i) :
    ∃ b, buffers[i]? = some b ∧ b.name = name := by
  obtain ⟨p, hp, rfl⟩ := Option.map_eq_some_iff.1 h
  have hname := find?_some hp
  have hmem := mem_reverse.1 (mem_of_find?_eq_some hp)
  exact ⟨p.1, mem_zipIdx_iff_getElem?.1 hmem, by simpa using hname⟩

theorem filterMap_getElem?_range (l : List LifetimeBoundBuffer) :
    (List.range l.length).filterMap (l[·]?) = l := by
  induction l with
  | nil => rfl
  | cons b l ih =>
    rw [length_cons, range_succ_eq_map, filterMap_cons, filterMap_map]
    simpa [comp_def] using ih

/-- Declared parents can be placed first, so the sort trips no assertion. -/
theorem topologicalSort_perm (h : Solvable buffers) :
    ∃ sorted, topologicalSort buffers = .ok sorted ∧ sorted.Perm buffers := by
  have hrank : ∀ j < buffers.length, ∀ p ∈ parentIdxs buffers j, p < buffers.length ∧
      (buffers[p]?.elim ⊥ rank) < buffers[j]?.elim ⊥ rank := by
    intro j hj p hp
    unfold parentIdxs at hp
    rw [getElem?_eq_getElem hj] at hp ⊢
    obtain ⟨name, hname, hidx⟩ := mem_filterMap.1 hp
    obtain ⟨b, hb, rfl⟩ := nameToIdx_spec hidx
    rw [hb]
    exact ⟨(List.getElem?_eq_some_iff.1 hb).1,
      h.rank_lt (mem_of_getElem? hb) (getElem_mem hj) hname⟩
  obtain ⟨order, hrun, hperm⟩ := Kahn.run_perm hrank
  have hsorted : (order.filterMap (buffers[·]?)).Perm buffers := by
    exact (hperm.filterMap _).trans (.of_eq (filterMap_getElem?_range buffers))
  refine ⟨_, ?_, hsorted⟩
  rw [topologicalSort, hrun]
  exact bind_eq_ok_iff.2 ⟨(), guardE_eq_ok_iff.2 hsorted.length_eq, rfl⟩

/-- A buffer comes after those of its declared parents that are there. -/
def ParentsBefore (l : List LifetimeBoundBuffer) : Prop :=
  ∀ pre c post, l = pre ++ c :: post → ∀ p ∈ l, p.name ∈ c.inPlaceParents → p ∈ pre

theorem topologicalSort_parentsBefore {sorted : List LifetimeBoundBuffer}
    (hu : UniquelyNamed buffers) (h : topologicalSort buffers = .ok sorted) :
    ParentsBefore sorted := by
  unfold topologicalSort at h
  split at h
  · cases h
  · rename_i order hrun
    obtain ⟨-, -, h⟩ := bind_eq_ok_iff.1 h
    obtain rfl := Except.ok.inj h
    intro pre c post hsplit p hp hdecl
    obtain ⟨o₁, o₂, rfl, rfl, ho₂⟩ := filterMap_eq_append_iff.1 hsplit
    obtain ⟨o₃, j, o₄, rfl, hnone, hj, -⟩ := filterMap_eq_cons_iff.1 ho₂
    obtain ⟨k, -, hk⟩ := mem_filterMap.1 hp
    have hpmem := mem_of_getElem? hk
    obtain ⟨m, hm⟩ : ∃ m, nameToIdx buffers p.name = some m := by
      rw [← Option.isSome_iff_exists, nameToIdx, Option.isSome_map, find?_isSome]
      exact ⟨(p, k), mem_reverse.2 (mem_zipIdx_iff_getElem?.2 hk), by simp⟩
    obtain ⟨b, hb, hname⟩ := nameToIdx_spec hm
    obtain rfl := hu.eq_of_name_eq (mem_of_getElem? hb) hpmem hname
    have hparent : m ∈ parentIdxs buffers j := by
      rw [parentIdxs, hj]
      exact mem_filterMap.2 ⟨_, hdecl, hm⟩
    have hbefore := Kahn.run_ordered hrun (o₁ ++ o₃) j o₄ (by simp) m hparent
    rcases mem_append.1 hbefore with ho | ho
    · exact mem_filterMap.2 ⟨m, ho, hb⟩
    · rw [hnone m ho] at hb
      cases hb

/-! ## The whole plan -/

/-- Placing one buffer keeps the plan safe. -/
theorem Safe.place (policy : Policy) (hal : 0 < alignment) {placed : List LifetimeBoundBuffer}
    {buffer : LifetimeBoundBuffer} {address : String → Option ℕ} (h : Solvable (placed ++ [buffer]))
    (hsafe : Safe limit alignment placed address) :
    Safe limit alignment (placed ++ [buffer])
      (FirstFit.place limit alignment address policy placed buffer) := by
  rcases place_cases hal with hnone | ⟨a, hch, hsome⟩
  · rw [hnone]
    exact hsafe.skip h
  · rw [hsome]
    exact hsafe.update h hch

theorem Solvable.head {placed : List LifetimeBoundBuffer} (h : Solvable (placed ++ b :: rest)) :
    Solvable (placed ++ [b]) := by
  rw [← singleton_append, ← append_assoc] at h
  exact h.subset (h.named.sublist ((sublist_append_left _ _).map _)) (subset_append_left _ _)

/-- What every placement keeps holds in the end. -/
theorem placeAll_inv {I : List LifetimeBoundBuffer → (String → Option ℕ) → Prop}
    {placed : List LifetimeBoundBuffer} {address : String → Option ℕ}
    (hstep : ∀ pre b post address, placed ++ rest = pre ++ b :: post → I pre address →
      I (pre ++ [b]) (place limit alignment address policy pre b)) (h : I placed address) :
    I (placed ++ rest) (placeAll limit alignment policy address placed rest) := by
  induction rest generalizing placed address with
  | nil => rwa [append_nil]
  | cons b rest ih =>
    have hsplit : placed ++ b :: rest = placed ++ [b] ++ rest := by simp
    rw [hsplit]
    exact ih (hsplit ▸ hstep) (hstep placed b rest address rfl h)

/-- The plan of a list that passes the check : its placeable buffers one by one, parents first. -/
theorem exists_sorted (hal : 0 < alignment) (policy : Policy) (hnil : buffers ≠ [])
    (hall : Solvable buffers) (hcheck : checkInPlaceRelationships buffers = .ok ()) :
    ∃ sorted plan, planLayout limit alignment policy buffers = .ok plan ∧
      plan = placeAll limit alignment policy (fun _ => none) [] sorted ∧
      Solvable sorted ∧ ParentsBefore sorted ∧
      (∀ b ∈ sorted, b ∈ buffers ∧ excluded limit false b = none) ∧
      Safe limit alignment sorted plan ∧ ∀ b ∈ buffers, ∀ a, plan b.name = some a →
        b ∈ sorted ∧ alignment ∣ a ∧ a + b.size ≤ limit := by
  obtain ⟨filtered, hfiltered⟩ : ∃ l, l =
      (placeable limit buffers).filter fun b => b.startTime + 1 ≤ b.endTime := ⟨_, rfl⟩
  have hsub : filtered.Sublist buffers := by
    rw [hfiltered]
    exact filter_sublist.trans filter_sublist
  have hexcl : ∀ b ∈ filtered, excluded limit false b = none := by
    intro b hb
    rw [hfiltered] at hb
    exact (mem_placeable.1 (mem_of_mem_filter hb)).2
  have hperm : (sortByKey filtered).Perm filtered := perm_insertionSort _ _
  have hkeyed : Solvable (sortByKey filtered) :=
    hall.subset ((hperm.map _).nodup_iff.2 (hall.named.sublist (hsub.map _)))
      fun b hb => hsub.subset (hperm.mem_iff.1 hb)
  obtain ⟨sorted, hsort, hsorted⟩ := topologicalSort_perm hkeyed
  have hsolv := hkeyed.subset ((hsorted.map _).nodup_iff.2 hkeyed.named) hsorted.subset
  have hmem : ∀ b ∈ sorted, b ∈ buffers ∧ excluded limit false b = none := fun b hb =>
    have hfil := hperm.mem_iff.1 (hsorted.mem_iff.1 hb)
    ⟨hsub.subset hfil, hexcl b hfil⟩
  have hsafe : Safe limit alignment ([] ++ sorted)
      (placeAll limit alignment policy (fun _ => none) [] sorted) := by
    refine placeAll_inv (fun pre b post _ hsplit hpre => ?_) safe_nil
    rw [nil_append] at hsplit
    exact hpre.place policy hal (hsplit ▸ hsolv).head
  refine ⟨sorted, _, ?_, rfl, hsolv, topologicalSort_parentsBefore hkeyed.named hsort, hmem, hsafe,
    fun b hb a ha => ?_⟩
  · rw [planLayout, if_neg hnil]
    refine bind_eq_ok_iff.2 ⟨(), hcheck, ?_⟩
    exact bind_eq_ok_iff.2 ⟨sorted, hfiltered ▸ hsort, rfl⟩
  · obtain ⟨b', hb', hname, hrest⟩ := hsafe.bounded b.name a ha
    obtain rfl := hall.named.eq_of_name_eq (hmem b' hb').1 hb hname
    exact ⟨hb', hrest⟩

theorem Bounded.place (hal : 0 < alignment) {placed : List LifetimeBoundBuffer}
    {address : String → Option ℕ}
    (hpair : ∀ p ∈ placed, p.name ∈ b.inPlaceParents → b.size ≤ p.size)
    (hbounded : Bounded limit alignment placed address) :
    Bounded limit alignment (placed ++ [b])
      (FirstFit.place limit alignment address policy placed b) := by
  rcases place_cases hal with hnone | ⟨a, hch, hsome⟩
  · rw [hnone]
    intro name a ha
    obtain ⟨b, hb, hrest⟩ := hbounded name a ha
    exact ⟨b, mem_append_left _ hb, hrest⟩
  · rw [hsome]
    exact hbounded.update hpair hch

/-- Whatever the lifetimes, a plan that is returned is aligned and within the limit, and places no
excluded buffer. -/
theorem planLayout_bounded (hal : 0 < alignment) (hu : UniquelyNamed buffers)
    {plan : String → Option ℕ} (h : planLayout limit alignment policy buffers = .ok plan)
    (hb : b ∈ buffers) (ha : plan b.name = some a) :
    alignment ∣ a ∧ a + b.size ≤ limit ∧ excluded limit false b = none := by
  unfold planLayout at h
  split_ifs at h with hnil
  · obtain rfl := Except.ok.inj h
    exact nomatch ha
  · obtain ⟨u, hcheck, h⟩ := bind_eq_ok_iff.1 h
    obtain ⟨sorted, hsort, h⟩ := bind_eq_ok_iff.1 h
    obtain rfl := Except.ok.inj h
    have hsub : ∀ x ∈ sorted, x ∈ placeable limit buffers := by
      intro x hx
      unfold topologicalSort at hsort
      split at hsort
      · exact nomatch hsort
      · obtain ⟨-, -, hsort⟩ := bind_eq_ok_iff.1 hsort
        obtain rfl := Except.ok.inj hsort
        obtain ⟨i, -, hi⟩ := mem_filterMap.1 hx
        have hkeyed := mem_of_getElem? hi
        exact mem_of_mem_filter ((mem_insertionSort _).1 hkeyed)
    have hbounded : Bounded limit alignment ([] ++ sorted)
        (placeAll limit alignment policy (fun _ => none) [] sorted) := by
      refine placeAll_inv (fun pre c post _ hsplit => Bounded.place hal fun p hp hpc => ?_)
        fun _ _ hnone => nomatch hnone
      rw [nil_append] at hsplit
      exact (InPlacePairOk.of_check hu hcheck ⟨(mem_placeable.1 (hsub p (by simp [hsplit, hp]))).1,
        (mem_placeable.1 (hsub c (by simp [hsplit]))).1, hpc⟩).fits
    obtain ⟨b', hb', hname, hdvd, hfit⟩ := hbounded b.name a ha
    obtain ⟨hmem, hexcluded⟩ := mem_placeable.1 (hsub b' hb')
    obtain rfl := hu.eq_of_name_eq hmem hb hname
    exact ⟨hdvd, hfit, hexcluded⟩

/-- Both solvers end without a failed assertion. Their plans are aligned and within the limit,
place no excluded buffer, and give buffers that are live together disjoint slots, unless one is
placed in the slot of the other as its declared child. -/
theorem firstFit_safe {limit alignment : ℕ} (hal : 0 < alignment) (policy : Policy)
    {buffers : List LifetimeBoundBuffer} (hu : UniquelyNamed buffers)
    (hcheck : checkInPlaceRelationships buffers = .ok ())
    (hwritten : ∀ b ∈ buffers, b.firstUseIsRead = true → b.inPlaceParents = []) :
    ∃ plan, planLayout limit alignment policy buffers = .ok plan ∧
      (∀ b ∈ buffers, ∀ a, plan b.name = some a →
        alignment ∣ a ∧ a + b.size ≤ limit ∧ excluded limit false b = none) ∧
      ∀ x ∈ buffers, ∀ y ∈ buffers, x ≠ y → ∀ a b,
        plan x.name = some a → plan y.name = some b → x.overlapsInTime y = true →
        Disjoint (slot x a) (slot y b) ∨ InPlace x y a b ∨ InPlace y x b a := by
  by_cases hnil : buffers = []
  · exact ⟨fun _ => none, if_pos hnil, by simp, by simp⟩
  have hall : Solvable buffers :=
    ⟨hu, fun p hp c hc hpc => InPlacePairOk.of_check hu hcheck ⟨hp, hc, hpc⟩, hwritten⟩
  obtain ⟨sorted, plan, hplan, -, -, -, hsub, hsafe, hplaced⟩ :=
    exists_sorted hal policy hnil hall hcheck
  refine ⟨plan, hplan, fun b hb a ha => ?_, fun x hx y hy hxy a b ha hb hov => ?_⟩
  · obtain ⟨hmem, hdvd, hfit⟩ := hplaced b hb a ha
    exact ⟨hdvd, hfit, (hsub b hmem).2⟩
  · exact (hsafe.apart x (hplaced x hx a ha).1 y (hplaced y hy b hb).1 hxy a b ha hb hov).imp_left
      disjoint_slot

/-- A buffer whose storage `reuser` may take on tick 2. -/
def reused : LifetimeBoundBuffer where
  name := "p"
  size := 256
  uses := [0, 2]
  uses_ne := by decide
  uses_increasing := by decide

/-- An in-place child of `reused`. -/
def reuser : LifetimeBoundBuffer where
  name := "c"
  size := 128
  uses := [2, 5]
  inPlaceParents := ["p"]
  uses_ne := by decide
  uses_increasing := by decide

/-- A buffer live with both. -/
def bystander : LifetimeBoundBuffer where
  name := "q"
  size := 128
  uses := [1, 3]
  firstUseIsRead := true
  uses_ne := by decide
  uses_increasing := by decide

example : ((planLayout 512 128 .bestFit [bystander, reuser, reused]).map
    fun plan => ["p", "c", "q"].map plan).toOption = some [some 0, some 0, some 256] := by
  decide +kernel

theorem firstFit_safe_reuser :
    ∃ plan, planLayout 512 128 .bestFit [bystander, reuser, reused] = .ok plan ∧
      ∀ b ∈ [bystander, reuser, reused], ∀ a, plan b.name = some a →
        128 ∣ a ∧ a + b.size ≤ 512 ∧ excluded 512 false b = none := by
  obtain ⟨plan, hplan, hfit, -⟩ := firstFit_safe (show 0 < 128 by decide) .bestFit
    (show UniquelyNamed [bystander, reuser, reused] by decide +kernel) (by rfl)
    (by decide +kernel)
  exact ⟨plan, hplan, hfit⟩

end FirstFit

end TorchSpyre
