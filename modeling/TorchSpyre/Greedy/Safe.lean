import Mathlib
import TorchSpyre.Greedy.Groups
import TorchSpyre.Scratchpad

/-!
# The greedy solver never overwrites a live buffer

Every buffer that is placed and has not ended is in the usage table, also a group member
whose own lifetime has not begun. Two entries of the table have disjoint slots unless a
chain of hand-offs leads from one to the other, and every buffer on such a chain but the
last has handed its slot on (`Core`). So a slot that has not been handed on is the end of
its chain, and may be handed on once more.

`planLayout_safe` is the result for whole plans.
-/

open List Function

namespace TorchSpyre

open Checked

namespace Greedy

/-! ## Finding a block -/

section Block

variable {limit alignment : ℕ} {s : State}

variable {p : ℕ × ℕ}

theorem mem_usageSpans :
    p ∈ usageSpans s ↔ ∃ b ∈ s.usage, ∃ a, s.address b.name = some a ∧ (a, a + b.size) = p := by
  simp [usageSpans]

theorem alignUp_eq {x : ℕ} (hal : 0 < alignment) (hx : x < 2 ^ 53) :
    alignUp alignment x = roundUpToAlignment x alignment := by
  rw [alignUp, Binary64.ceilDiv_eq hx hal, roundUpToAlignment]

theorem le_alignUp {x : ℕ} (hal : 0 < alignment) (hx : x < 2 ^ 53) : x ≤ alignUp alignment x := by
  rw [alignUp_eq hal hx]
  exact le_roundUpToAlignment hal x

theorem dvd_alignUp (x : ℕ) : alignment ∣ alignUp alignment x :=
  Dvd.intro_left _ rfl

theorem getLowestAddrInUse_le (hp : p ∈ usageSpans s) :
    getLowestAddrInUse s ≤ p.1 := by
  unfold getLowestAddrInUse
  have hmem : p.1 ∈ (usageSpans s).map Prod.fst := mem_map_of_mem hp
  cases hmin : ((usageSpans s).map Prod.fst).min? with
  | none =>
    rw [min?_eq_none_iff] at hmin
    simp [hmin] at hmem
  | some m => exact (min?_eq_some_iff.1 hmin).2 p.1 hmem

theorem le_getHighestAddrInUse (hp : p ∈ usageSpans s) :
    p.2 ≤ getHighestAddrInUse s := by
  unfold getHighestAddrInUse
  have hmem : p.2 ∈ (usageSpans s).map Prod.snd := mem_map_of_mem hp
  cases hmax : ((usageSpans s).map Prod.snd).max? with
  | none =>
    rw [max?_eq_none_iff] at hmax
    simp [hmax] at hmem
  | some m => exact (max?_eq_some_iff.1 hmax).2 p.2 hmem

theorem getHighestAddrInUse_le (h : ∀ p ∈ usageSpans s, p.2 ≤ limit) :
    getHighestAddrInUse s ≤ limit := by
  unfold getHighestAddrInUse
  cases hmax : ((usageSpans s).map Prod.snd).max? with
  | none => exact Nat.zero_le _
  | some m =>
    obtain ⟨p, hp, rfl⟩ := mem_map.1 (max?_eq_some_iff.1 hmax).1
    exact h p hp

instance : Std.Total tupleLe := ⟨by
  intro p q
  unfold tupleLe
  omega⟩

instance : IsTrans (ℕ × ℕ) tupleLe := ⟨by
  intro p q r
  unfold tupleLe
  omega⟩

theorem sorted_usageSpans (s : State) :
    ((usageSpans s).insertionSort tupleLe).Pairwise fun p q => p.1 ≤ q.1 := by
  refine (List.pairwise_insertionSort tupleLe _).imp fun h => ?_
  unfold tupleLe at h
  omega

/-- A block found is aligned, within the limit, and clear of everything in use. -/
theorem freeBlock_clear (hal : 0 < alignment) (hlim : limit < 2 ^ 53)
    (hfit : ∀ p ∈ usageSpans s, p.2 ≤ limit) {size a : ℕ}
    (h : freeBlock limit alignment s size = some a) :
    alignment ∣ a ∧ a + size ≤ limit ∧ ∀ p ∈ usageSpans s, p.2 ≤ a ∨ a + size ≤ p.1 := by
  unfold freeBlock at h
  split_ifs at h with hbig hlow hhigh
  · obtain rfl := Option.some.inj h
    refine ⟨dvd_zero _, by omega, fun p hp => .inr ?_⟩
    rcases hlow with hnil | hlow
    · simp [usageSpans, hnil] at hp
    · have := getLowestAddrInUse_le hp
      omega
  · obtain rfl := Option.some.inj h
    have hle := le_alignUp hal ((getHighestAddrInUse_le hfit).trans_lt hlim)
    exact ⟨dvd_alignUp _, hhigh, fun p hp => .inl ((le_getHighestAddrInUse hp).trans hle)⟩
  · have hspan : ∀ p ∈ (usageSpans s).insertionSort tupleLe, p.1 ≤ p.2 := by
      intro p hp
      obtain ⟨b, -, a, -, rfl⟩ := mem_usageSpans.1 ((mem_insertionSort tupleLe).1 hp)
      exact Nat.le_add_right _ _
    have hsep := Spans.merge_separated hspan (sorted_usageSpans s)
    have hend : ∀ q ∈ occupiedSpans s, q.2 ≤ limit := by
      intro q hq
      obtain ⟨p, hp, hqp⟩ := Spans.exists_end_of_mem_merge hq
      rw [hqp]
      exact hfit p ((mem_insertionSort tupleLe).1 hp)
    obtain ⟨⟨r, hr, rfl⟩, ⟨q, hq, hqa⟩, hclear⟩ := Spans.firstGap_clear hsep
      (fun q hq => le_alignUp hal ((hend q hq).trans_lt hlim)) h
    refine ⟨dvd_alignUp _, ?_, fun p hp => ?_⟩
    · have := hsep.le q hq
      have := hend q hq
      omega
    · obtain ⟨q, hq, hq₁, hq₂⟩ := Spans.exists_mem_merge hspan (sorted_usageSpans s)
        ((mem_insertionSort tupleLe).2 hp)
      rcases hclear q hq with h | h
      · exact .inl (hq₂.trans h)
      · exact .inr (h.trans hq₁)

end Block

/-! ## Hand-offs -/

/-- `c` declares `p` as an in-place parent and sits at its address. -/
structure HandOff (buffers : List LifetimeBoundBuffer) (address : String → Option ℕ)
    (p c : LifetimeBoundBuffer) : Prop where
  declared : DeclaredPair buffers p c
  placed : address p.name ≠ none
  address : address c.name = address p.name

/-- A chain of hand-offs from `p` down to `c`. -/
abbrev Chain (buffers : List LifetimeBoundBuffer) (address : String → Option ℕ) :
    LifetimeBoundBuffer → LifetimeBoundBuffer → Prop :=
  Relation.TransGen (HandOff buffers address)

variable {c p : LifetimeBoundBuffer} {buffers : List LifetimeBoundBuffer}
  {address : String → Option ℕ}

/-- Placing one more buffer keeps every chain. -/
theorem Chain.update {n : String} (hn : address n = none) (d : Option ℕ)
    (h : Chain buffers address p c) : Chain buffers (Function.update address n d) p c := by
  refine Relation.TransGen.mono ?_ p c h
  rintro p c ⟨hd, hp, hc⟩
  have hpn : p.name ≠ n := by
    rintro rfl
    exact hp hn
  have hcn : c.name ≠ n := by
    rintro rfl
    exact hp (hc.symm.trans hn)
  exact ⟨hd, by rwa [update_of_ne hpn],
    by rwa [update_of_ne hcn, update_of_ne hpn]⟩

/-- Down a chain the address stays, the size does not grow and lifetimes begin no earlier. -/
theorem Chain.same_address (hpair : ∀ p c, DeclaredPair buffers p c → InPlacePairOk p c)
    (h : Chain buffers address p c) :
    address c.name = address p.name ∧ c.size ≤ p.size ∧ p.startTime ≤ c.startTime := by
  have hstep : ∀ p c : LifetimeBoundBuffer, HandOff buffers address p c →
      c.size ≤ p.size ∧ p.startTime ≤ c.startTime := by
    intro p c hpc
    have hok := hpair _ _ hpc.declared
    have := hok.handoff
    have := p.startTime_lt_endTime
    exact ⟨hok.fits, by omega⟩
  induction h with
  | single h => exact ⟨h.address, hstep _ _ h⟩
  | tail _ h ih =>
    exact ⟨h.address.trans ih.1, (hstep _ _ h).1.trans ih.2.1, ih.2.2.trans (hstep _ _ h).2⟩

/-! ## The invariant -/

section Core

variable (limit alignment : ℕ) (buffers : List LifetimeBoundBuffer)

/-- What holds of the addresses and the usage table at tick `now`. -/
structure Core (now : ℤ) (s : State) : Prop where
  placed : ∀ n a, s.address n = some a →
    ∃ b ∈ placeable limit buffers, b.name = n ∧ alignment ∣ a ∧ a + b.size ≤ limit
  used : ∀ b ∈ s.usage, b ∈ placeable limit buffers ∧ s.address b.name ≠ none
  live : ∀ b ∈ placeable limit buffers, s.address b.name ≠ none →
    b ∈ s.usage ∨ b.endTime ≤ now
  clear : ∀ x ∈ s.usage, ∀ y ∈ s.usage, x ≠ y → ∀ a b,
    s.address x.name = some a → s.address y.name = some b →
      Disjoint (slot x a) (slot y b) ∨
        Chain buffers s.address x y ∧ x.name ∈ s.reusedParents ∨
        Chain buffers s.address y x ∧ y.name ∈ s.reusedParents
  safe : ∀ x ∈ placeable limit buffers, ∀ y ∈ placeable limit buffers, x ≠ y → ∀ a b,
    s.address x.name = some a → s.address y.name = some b → x.overlapsInTime y = true →
      Disjoint (slot x a) (slot y b) ∨
        Chain buffers s.address x y ∨ Chain buffers s.address y x

variable {limit alignment buffers}

theorem Core.empty (now : ℤ) (reused rejected : List String) :
    Core limit alignment buffers now ⟨[], fun _ => none, reused, rejected⟩ :=
  ⟨by simp, by simp, by simp, by simp, by simp⟩

variable {now : ℤ} {s : State}

/-- Time passes. -/
theorem Core.mono (h : Core limit alignment buffers now s) {later : ℤ} (hle : now ≤ later) :
    Core limit alignment buffers later s :=
  ⟨h.placed, h.used, fun b hb hp => (h.live b hb hp).imp_right fun he => he.trans hle, h.clear,
    h.safe⟩

variable {b : LifetimeBoundBuffer}

/-- A buffer that has ended leaves the table. -/
theorem Core.tryDeallocate (h : Core limit alignment buffers now s) (hb : b.endTime ≤ now) :
    Core limit alignment buffers now (tryDeallocate s b) := by
  have hsub : ∀ x ∈ s.usage.erase b, x ∈ s.usage := fun x hx => mem_of_mem_erase hx
  refine ⟨h.placed, fun x hx => h.used x (hsub x hx), fun x hx hp => ?_,
    fun x hx y hy => h.clear x (hsub x hx) y (hsub y hy), h.safe⟩
  by_cases hxb : x = b
  · exact .inr (hxb ▸ hb)
  · exact (h.live x hx hp).imp_left fun hu => (mem_erase_of_ne hxb).2 hu

theorem usageSpans_le (h : Core limit alignment buffers now s) (hu : UniquelyNamed buffers) :
    ∀ p ∈ usageSpans s, p.2 ≤ limit := by
  intro p hp
  obtain ⟨b, hb, a, ha, rfl⟩ := mem_usageSpans.1 hp
  obtain ⟨b', hb', hn, -, hfit⟩ := h.placed b.name a ha
  rwa [(hu.placeable limit).eq_of_name_eq hb' (h.used b hb).1 hn] at hfit

/-- Placing a buffer that has not begun on a slot that is clear of the table, up to hand-offs
that are recorded. -/
theorem Core.place (hu : UniquelyNamed buffers) (h : Core limit alignment buffers now s)
    (hb : b ∈ placeable limit buffers) (hnone : s.address b.name = none)
    (hstart : now ≤ b.startTime) {c : ℕ} (hdvd : alignment ∣ c) (hfit : c + b.size ≤ limit)
    {reused : List String} (hreused : ∀ n ∈ s.reusedParents, n ∈ reused)
    (hclear : ∀ x ∈ s.usage, ∀ a, s.address x.name = some a →
      Disjoint (slot x a) (slot b c) ∨
        Chain buffers (Function.update s.address b.name (some c)) x b ∧ x.name ∈ reused) :
    Core limit alignment buffers now
      { s with
        address := Function.update s.address b.name (some c)
        usage := s.usage ++ [b]
        reusedParents := reused } := by
  set address := Function.update s.address b.name (some c)
  have hold : ∀ x ∈ placeable limit buffers, x ≠ b → address x.name = s.address x.name :=
    fun x hx hne => update_of_ne (fun heq => hne ((hu.placeable limit).eq_of_name_eq hx hb heq)) _ _
  have hmem : ∀ x, x ∈ s.usage ++ [b] → x ∈ s.usage ∨ x = b := by simp
  have hub : ∀ x ∈ s.usage, x ≠ b := by
    rintro x hx rfl
    exact (h.used x hx).2 hnone
  have hself : ∀ d, address b.name = some d → c = d := by
    simp [address]
  -- what holds between an old buffer of the table and the new one
  have hnew : ∀ x ∈ s.usage, ∀ a d, address x.name = some a → address b.name = some d →
      Disjoint (slot x a) (slot b d) ∨ Chain buffers address x b ∧ x.name ∈ reused := by
    intro x hx a d ha hd
    rw [hold x (h.used x hx).1 (hub x hx)] at ha
    rw [← hself d hd]
    exact hclear x hx a ha
  refine ⟨fun n a ha => ?_, fun x hx => ?_, fun x hx hp => ?_, fun x hx y hy hxy a d ha hd => ?_,
    fun x hx y hy hxy a d ha hd hov => ?_⟩ <;> dsimp only at *
  · by_cases hn : n = b.name
    · subst hn
      rw [← hself a ha]
      exact ⟨b, hb, rfl, hdvd, hfit⟩
    · exact h.placed n a ((update_of_ne hn _ _).symm.trans ha)
  · rcases hmem x hx with hx | rfl
    · exact ⟨(h.used x hx).1, by rw [hold x (h.used x hx).1 (hub x hx)]; exact (h.used x hx).2⟩
    · exact ⟨hb, by simp [address]⟩
  · by_cases hxb : x = b
    · exact .inl (by simp [hxb])
    · rw [hold x hx hxb] at hp
      exact (h.live x hx hp).imp_left fun hxu => by simp [hxu]
  · rcases hmem x hx with hxu | hxb
    · rcases hmem y hy with hyu | rfl
      · rw [hold x (h.used x hxu).1 (hub x hxu)] at ha
        rw [hold y (h.used y hyu).1 (hub y hyu)] at hd
        rcases h.clear x hxu y hyu hxy a d ha hd with hdis | ⟨hch, hr⟩ | ⟨hch, hr⟩
        · exact .inl hdis
        · exact .inr (.inl ⟨hch.update hnone _, hreused _ hr⟩)
        · exact .inr (.inr ⟨hch.update hnone _, hreused _ hr⟩)
      · exact (hnew x hxu a d ha hd).imp_right .inl
    · have hyu := (hmem y hy).resolve_right fun hyb => hxy (hxb.trans hyb.symm)
      subst hxb
      exact (hnew y hyu d a hd ha).imp (fun hdis => hdis.symm) .inr
  · -- a placed buffer that has left the table has ended before `b` begins
    have huse : ∀ x ∈ placeable limit buffers, x ≠ b → ∀ a, address x.name = some a →
        b.startTime < x.endTime → x ∈ s.usage := by
      intro x hx hxb a ha hlt
      rw [hold x hx hxb] at ha
      refine (h.live x hx (by simp [ha])).resolve_right fun he => ?_
      omega
    obtain ⟨hov₁, hov₂⟩ := LifetimeBoundBuffer.overlapsInTime_iff.1 hov
    by_cases hxb : x = b
    · subst hxb
      have hyu := huse y hy (Ne.symm hxy) d hd hov₁
      rcases hnew y hyu d a hd ha with hdis | ⟨hch, -⟩
      · exact .inl hdis.symm
      · exact .inr (.inr hch)
    · by_cases hyb : y = b
      · subst hyb
        have hxu := huse x hx hxb a ha hov₂
        exact (hnew x hxu a d ha hd).imp_right fun hch => .inl hch.1
      · rw [hold x hx hxb] at ha
        rw [hold y hy hyb] at hd
        rcases h.safe x hx y hy hxy a d ha hd hov with hdis | hch | hch
        · exact .inl hdis
        · exact .inr (.inl (hch.update hnone _))
        · exact .inr (.inr (hch.update hnone _))

variable {s' : State}

theorem Core.reject (h : Core limit alignment buffers now s) (G : List LifetimeBoundBuffer) :
    Core limit alignment buffers now (s.reject G) :=
  ⟨h.placed, h.used, h.live, h.clear, h.safe⟩

/-- Allocating one buffer keeps the invariant. -/
theorem Core.tryAllocateOne (hal : 0 < alignment) (hlim : limit < 2 ^ 53)
    (hu : UniquelyNamed buffers) (h : Core limit alignment buffers now s)
    (hb : b ∈ placeable limit buffers) (hnone : s.address b.name = none)
    (hstart : now ≤ b.startTime) (hok : tryAllocateOne limit alignment s b = .ok s') :
    Core limit alignment buffers now s' := by
  unfold Greedy.tryAllocateOne at hok
  cases hpar : inPlaceParent s b b.inPlaceParents with
  | some p =>
    rw [hpar] at hok
    obtain rfl := Except.ok.inj hok
    obtain ⟨hpu, hpn, hpr, hsize⟩ := inPlaceParent_spec hpar
    obtain ⟨c, hc⟩ := Option.ne_none_iff_exists'.1 (h.used p hpu).2
    have hpb : p.name ≠ b.name := fun heq => (h.used p hpu).2 (heq ▸ hnone)
    obtain ⟨p', hp', hpn', hdvd, hfit⟩ := h.placed p.name c hc
    obtain rfl := (hu.placeable limit).eq_of_name_eq hp' (h.used p hpu).1 hpn'
    have hand : HandOff buffers (Function.update s.address b.name (some c)) p' b :=
      ⟨⟨(mem_placeable.1 hp').1, (mem_placeable.1 hb).1, hpn⟩,
        by rw [update_of_ne hpb]; exact (h.used p' hpu).2,
        by rw [update_self, update_of_ne hpb, hc]⟩
    rw [hc]
    refine h.place hu hb hnone hstart hdvd (by omega) (fun n hn => by simp [hn])
      fun x hx a ha => ?_
    by_cases hxp : x = p'
    · exact .inr ⟨.single (hxp ▸ hand), by simp [hxp]⟩
    · rcases h.clear x hx p' hpu hxp a c ha hc with hdis | ⟨hch, hr⟩ | ⟨-, hr⟩
      · refine .inl (hdis.mono_right ?_)
        exact Set.Ico_subset_Ico_right (by omega)
      · exact .inr ⟨(hch.update hnone _).tail hand, by simp [hr]⟩
      · exact absurd hr hpr
  | none =>
    simp only [hpar] at hok
    obtain ⟨block, hfind, hok⟩ := bind_eq_ok_iff.1 hok
    obtain ⟨-, -, hblock⟩ := bind_eq_ok_iff.1 hfind
    cases block with
    | some c =>
      obtain rfl := Except.ok.inj hok
      obtain ⟨hdvd, hfit, hclear⟩ := freeBlock_clear hal hlim (usageSpans_le h hu)
        (Except.ok.inj hblock)
      refine h.place hu hb hnone hstart hdvd hfit (fun n hn => hn) fun x hx a ha => .inl ?_
      exact disjoint_slot (hclear _ (mem_usageSpans.2 ⟨x, hx, a, ha, rfl⟩))
    | none =>
      obtain rfl := Except.ok.inj hok
      rw [← hnone, update_eq_self]
      exact h

/-- Dropping the buffers that end at `idx`. -/
theorem Core.deallocate {idx : ℤ} (l : List LifetimeBoundBuffer)
    (h : Core limit alignment buffers idx s) : Core limit alignment buffers idx
      (l.foldl (fun s b => if idx = b.endTime then Greedy.tryDeallocate s b else s) s) :=
  List.foldlRecOn (motive := Core limit alignment buffers idx) l _ h fun s hs b _ => by
    split_ifs with hend
    · exact hs.tryDeallocate hend.ge
    · exact hs

end Core

/-! ## The walk -/

section Walk

variable {limit alignment : ℕ} {buffers : List LifetimeBoundBuffer} {now : ℤ} {s s' : State}
  {g : Groups} {tried : LifetimeBoundBuffer → Prop}

/-- What holds of the groups during the walk : those barred from the start are rejected, and a
grouped buffer that has been tried is placed or rejected. -/
structure Walked (limit : ℕ) (buffers : List LifetimeBoundBuffer) (g : Groups)
    (tried : LifetimeBoundBuffer → Prop) (s : State) : Prop where
  steady : Steady g s
  barred : ∀ n ∈ g.rejected, n ∈ s.rejected
  tried : ∀ b ∈ placeable limit buffers, tried b → g.byName b.name ≠ none →
    s.address b.name ≠ none ∨ b.name ∈ s.rejected

theorem Walked.later (h : Walked limit buffers g tried s) (hs : Steady g s') (hlater : Later s s')
    {tried' : LifetimeBoundBuffer → Prop}
    (htried : ∀ b ∈ placeable limit buffers, tried' b → g.byName b.name ≠ none →
      tried b ∨ s'.address b.name ≠ none ∨ b.name ∈ s'.rejected) :
    Walked limit buffers g tried' s' := by
  refine ⟨hs, fun n hn => hlater.rejected n (h.barred n hn), fun b hb hb' hgr => ?_⟩
  rcases htried b hb hb' hgr with hold | hnew
  · exact (h.tried b hb hold hgr).imp (hlater.placed _) (hlater.rejected _)
  · exact hnew

/-- Trying a buffer succeeds and keeps both invariants. -/
theorem tryAllocate_ok (hal : 0 < alignment) (hlim : limit < 2 ^ 53) (hu : UniquelyNamed buffers)
    (hg : GroupsOk limit buffers g) (hcore : Core limit alignment buffers now s)
    (hwalk : Walked limit buffers g tried s)
    (hnext : ∀ b ∈ placeable limit buffers, ¬tried b → now ≤ b.startTime) {b : LifetimeBoundBuffer}
    (hb : b ∈ placeable limit buffers) (hstart : now ≤ b.startTime) :
    ∃ s', tryAllocate limit alignment g.byName s b = .ok s' ∧
      Core limit alignment buffers now s' ∧
      Walked limit buffers g (fun x => tried x ∨ x = b) s' := by
  have hmem : s.address b.name = none → b.name ∉ s.rejected → ∀ m, TriedWith g b m →
      m ∈ placeable limit buffers ∧ now ≤ m.startTime := by
    rintro hnone hnrej m (⟨-, rfl⟩ | ⟨G, hgb, hm⟩)
    · exact ⟨hb, hstart⟩
    obtain ⟨b', hb', hbn⟩ := mem_map.1 (hg.self _ G hgb)
    obtain rfl := hu.eq_of_name_eq (hg.mem _ G hgb b' hb').1 (mem_placeable.1 hb).1 hbn
    have hmp : m ∈ placeable limit buffers := by
      by_contra hmp
      exact hnrej (hwalk.barred _ (hg.barred _ G hgb ⟨m, hm, hmp⟩ b' hb'))
    refine ⟨hmp, hnext m hmp fun htried => ?_⟩
    rcases hwalk.tried m hmp htried (by simp [(hg.mem _ G hgb m hm).2]) with h | h
    · exact hwalk.steady.whole _ G hgb ⟨m, hm, h⟩ b' hb' hnone
    · exact hnrej (hwalk.steady.together _ G hgb ⟨m, hm, h⟩ b' hb')
  obtain ⟨s', hrun, hcore', hs', hlater, hout⟩ := tryAllocate_spec hg hwalk.steady hcore
    (fun G => hcore.reject G) fun hnone hnrej m hm s₁ s₂ haddr hone hs₁ =>
      hs₁.tryAllocateOne hal hlim hu (hmem hnone hnrej m hm).1 haddr (hmem hnone hnrej m hm).2 hone
  refine ⟨s', hrun, hcore', hwalk.later hs' hlater ?_⟩
  rintro x - (hx | rfl) hgr
  · exact .inl hx
  · refine .inr ?_
    rcases hout with ⟨rfl, hskip⟩ | ⟨-, hin⟩ | ⟨hplaced, -⟩
    · exact hskip
    · exact .inr hin
    · exact .inl (hplaced hgr)

variable {idx : ℤ}

/-- One tick of the walk. -/
theorem tick_ok (hal : 0 < alignment) (hlim : limit < 2 ^ 53) (hu : UniquelyNamed buffers)
    (hg : GroupsOk limit buffers g) {before : List ℤ} (hcore : Core limit alignment buffers idx s)
    (hwalk : Walked limit buffers g (fun b => b.startTime ∈ before) s)
    (hnext : ∀ b ∈ placeable limit buffers, b.startTime ∉ before → idx ≤ b.startTime) :
    ∃ s', tick limit alignment g.byName (placeable limit buffers) s idx = .ok s' ∧
      Core limit alignment buffers idx s' ∧
      Walked limit buffers g (fun b => b.startTime ∈ before ++ [idx]) s' := by
  obtain ⟨hsteady, hlater⟩ := deallocate_steady idx (placeable limit buffers) hwalk.steady
  have hmem : ∀ b, b ∈ (placeable limit buffers).filter (fun b => idx = b.startTime) →
      b ∈ placeable limit buffers ∧ idx = b.startTime := by
    intro b hb
    simpa using hb
  obtain ⟨s', hrun, hcore', hwalk'⟩ := foldE_ok (I := fun pre s =>
      Core limit alignment buffers idx s ∧
        Walked limit buffers g (fun b => b.startTime ∈ before ∨ b ∈ pre) s)
    (l := (placeable limit buffers).filter fun b => idx = b.startTime)
    (f := tryAllocate limit alignment g.byName) (fun pre x post s hl hI => by
      obtain ⟨hx, hstart⟩ := hmem x (by simp [hl])
      obtain ⟨s', hstep, hcore', hwalk'⟩ := tryAllocate_ok hal hlim hu hg hI.1 hI.2
        (fun b hb hb' => hnext b hb fun hin => hb' (.inl hin)) hx hstart.le
      refine ⟨s', hstep, hcore', hwalk'.later hwalk'.steady (.refl s') ?_⟩
      rintro b - (hb | hb) -
      · exact .inl (.inl (.inl hb))
      · rcases mem_append.1 hb with hb | hb
        · exact .inl (.inl (.inr hb))
        · exact .inl (.inr (mem_singleton.1 hb)))
    ⟨hcore.deallocate _, hwalk.later hsteady hlater fun b _ hb _ => .inl (by simpa using hb)⟩
  refine ⟨s', hrun, hcore', hwalk'.later hwalk'.steady (.refl s') fun b hb ht _ => .inl ?_⟩
  rcases mem_append.1 ht with ht | ht
  · exact .inl ht
  · exact .inr (by simpa using ⟨hb, (mem_singleton.1 ht).symm⟩)

/-- The whole walk. -/
theorem walk_ok (hal : 0 < alignment) (hlim : limit < 2 ^ 53) (hu : UniquelyNamed buffers)
    (hg : GroupsOk limit buffers g) :
    ∃ s, foldE (tick limit alignment g.byName (placeable limit buffers))
        ⟨[], fun _ => none, [], g.rejected⟩ (sortedTimes (placeable limit buffers)) = .ok s ∧
      ∃ now, Core limit alignment buffers now s := by
  have hsorted : (sortedTimes (placeable limit buffers)).Pairwise (· < ·) :=
    Timeline.pairwise_cutPoints _
  have hstart : ∀ b ∈ placeable limit buffers,
      b.startTime ∈ sortedTimes (placeable limit buffers) :=
    fun b hb => Timeline.mem_cutPoints.2 (mem_append_left _ (mem_map_of_mem hb))
  obtain ⟨first, hfirst⟩ := (finite_toSet (sortedTimes (placeable limit buffers))).bddBelow
  have hinit : (∃ now, (∀ t ∈ sortedTimes (placeable limit buffers), t ∉ ([] : List ℤ) → now ≤ t) ∧
      Core limit alignment buffers now ⟨[], fun _ => none, [], g.rejected⟩) ∧
      Walked limit buffers g (fun b => b.startTime ∈ ([] : List ℤ))
        ⟨[], fun _ => none, [], g.rejected⟩ :=
    ⟨⟨first, fun t ht _ => hfirst ht, Core.empty first [] g.rejected⟩,
      ⟨Steady.start hg, fun _ hn => hn, by simp⟩⟩
  obtain ⟨s, hrun, hcore, -⟩ := foldE_ok (I := fun pre s =>
      (∃ now, (∀ t ∈ sortedTimes (placeable limit buffers), t ∉ pre → now ≤ t) ∧
        Core limit alignment buffers now s) ∧
        Walked limit buffers g (fun b => b.startTime ∈ pre) s)
    (l := sortedTimes (placeable limit buffers))
    (f := tick limit alignment g.byName (placeable limit buffers))
    (s := ⟨[], fun _ => none, [], g.rejected⟩) (fun pre idx post s hl hI => by
      obtain ⟨⟨now, hnow, hcore⟩, hwalk⟩ := hI
      have hlater : ∀ t ∈ sortedTimes (placeable limit buffers), t ∉ pre → idx ≤ t := by
        intro t ht hpre
        rw [hl] at ht hsorted
        rcases mem_cons.1 ((mem_append.1 ht).resolve_left hpre) with rfl | hpost
        · exact le_rfl
        · exact ((pairwise_cons.1 (pairwise_append.1 hsorted).2.1).1 t hpost).le
      have hidx : now ≤ idx := by
        refine hnow idx (by simp [hl]) fun hpre => ?_
        rw [hl] at hsorted
        exact lt_irrefl idx ((pairwise_append.1 hsorted).2.2 idx hpre idx (by simp))
      obtain ⟨s', hstep, hcore', hwalk'⟩ := tick_ok hal hlim hu hg (hcore.mono hidx) hwalk
        fun b hb hb' => hlater _ (hstart b hb) hb'
      refine ⟨s', hstep, ⟨idx, fun t ht hpre => hlater t ht fun hin => hpre ?_, hcore'⟩, hwalk'⟩
      exact mem_append_left _ hin) hinit
  obtain ⟨now, -, hcore⟩ := hcore
  exact ⟨s, hrun, now, hcore⟩

end Walk

/-! ## Plans -/

/-- When a plan is made. -/
theorem planLayout_eq_ok_iff {limit alignment : ℕ} (hnil : buffers ≠ [])
    {plan : String → Option ℕ} :
    planLayout limit alignment buffers = .ok plan ↔
      checkInPlaceRelationships buffers = .ok () ∧
        (placeable limit buffers = [] ∧ plan = (fun _ => none) ∨
          placeable limit buffers ≠ [] ∧ ∃ g e,
            pairedGroups buffers (placeable limit buffers) = .ok g ∧
            foldE (tick limit alignment g.byName (placeable limit buffers))
              ⟨[], fun _ => none, [], g.rejected⟩ (sortedTimes (placeable limit buffers)) = .ok e ∧
            e.address = plan) := by
  rw [planLayout, if_neg hnil, bind_eq_ok_iff]
  constructor
  · rintro ⟨u, hcheck, h⟩
    refine ⟨hcheck, ?_⟩
    split_ifs at h with hempty
    · exact .inl ⟨hempty, (Except.ok.inj h).symm⟩
    · obtain ⟨g, hgroups, h⟩ := bind_eq_ok_iff.1 h
      obtain ⟨e, hwalk, h⟩ := bind_eq_ok_iff.1 h
      exact .inr ⟨hempty, g, e, hgroups, hwalk, Except.ok.inj h⟩
  · rintro ⟨hcheck, ⟨hempty, rfl⟩ | ⟨hempty, g, e, hgroups, hwalk, rfl⟩⟩
    · exact ⟨(), hcheck, if_pos hempty⟩
    · refine ⟨(), hcheck, (if_neg hempty).trans ?_⟩
      exact bind_eq_ok_iff.2 ⟨g, hgroups, bind_eq_ok_iff.2 ⟨e, hwalk, rfl⟩⟩

/-- A chain of hand-offs leads from `x` to `y`, which begins no earlier and lies inside the
slot of `x`. -/
structure Nested (buffers : List LifetimeBoundBuffer) (plan : String → Option ℕ)
    (x y : LifetimeBoundBuffer) (a b : ℕ) : Prop where
  chain : Chain buffers plan x y
  later : x.startTime ≤ y.startTime
  inside : slot y b ⊆ slot x a

theorem Nested.of_chain {plan : String → Option ℕ}
    (hpair : ∀ p c, DeclaredPair buffers p c → InPlacePairOk p c) {x y : LifetimeBoundBuffer}
    {a b : ℕ} (ha : plan x.name = some a) (hb : plan y.name = some b) (h : Chain buffers plan x y) :
    Nested buffers plan x y a b := by
  obtain ⟨haddr, hsize, hstart⟩ := h.same_address hpair
  rw [ha, hb] at haddr
  obtain rfl := Option.some.inj haddr
  exact ⟨h, hstart, Set.Ico_subset_Ico_right (by omega)⟩

/-- Every plan of the greedy solver is aligned and within the limit, places no excluded
buffer, and gives buffers that are live together disjoint slots unless hand-offs lead from
one to the other. The solver divides in floating point, which is exact below `2⁵³`, and so
for every capacity the allocator asks for (`lxPlanningSize_lt`). -/
theorem planLayout_safe {limit alignment : ℕ} (hal : 0 < alignment) (hlim : limit < 2 ^ 53)
    {buffers : List LifetimeBoundBuffer} (hu : UniquelyNamed buffers)
    (hcheck : checkInPlaceRelationships buffers = .ok ())
    (hgroups : placeable limit buffers = [] ∨
      (pairedGroups buffers (placeable limit buffers)).isOk = true) :
    ∃ plan, planLayout limit alignment buffers = .ok plan ∧
      (∀ b ∈ buffers, ∀ a, plan b.name = some a →
        alignment ∣ a ∧ a + b.size ≤ limit ∧ excluded limit false b = none) ∧
      ∀ x ∈ buffers, ∀ y ∈ buffers, x ≠ y → ∀ a b,
        plan x.name = some a → plan y.name = some b → x.overlapsInTime y = true →
        Disjoint (slot x a) (slot y b) ∨ Nested buffers plan x y a b ∨
          Nested buffers plan y x b a := by
  have hpair : ∀ p c, DeclaredPair buffers p c → InPlacePairOk p c := fun p c hd =>
    InPlacePairOk.of_check hu hcheck hd
  by_cases hnil : buffers = []
  · exact ⟨fun _ => none, if_pos hnil, by simp, by simp⟩
  simp only [planLayout_eq_ok_iff hnil]
  by_cases hplace : placeable limit buffers = []
  · exact ⟨fun _ => none, ⟨hcheck, .inl ⟨hplace, rfl⟩⟩, by simp, by simp⟩
  obtain ⟨g, hg⟩ := exists_eq_ok (hgroups.resolve_left hplace)
  obtain ⟨s, hrun, now, hcore⟩ :=
    walk_ok hal hlim hu (GroupsOk.of_pairedGroups hu hg)
  have hplaced : ∀ b ∈ buffers, ∀ a, s.address b.name = some a →
      b ∈ placeable limit buffers ∧ alignment ∣ a ∧ a + b.size ≤ limit := by
    intro b hb a ha
    obtain ⟨b', hb', hn, hdvd, hfit⟩ := hcore.placed b.name a ha
    obtain rfl := hu.eq_of_name_eq (mem_placeable.1 hb').1 hb hn
    exact ⟨hb', hdvd, hfit⟩
  refine ⟨s.address, ⟨hcheck, .inr ⟨hplace, g, s, hg, hrun, rfl⟩⟩, fun b hb a ha => ?_,
    fun x hx y hy hxy a b ha hb hov => ?_⟩
  · obtain ⟨hmem, hdvd, hfit⟩ := hplaced b hb a ha
    exact ⟨hdvd, hfit, (mem_placeable.1 hmem).2⟩
  · rcases hcore.safe x (hplaced x hx a ha).1 y (hplaced y hy b hb).1 hxy a b ha hb hov with
      hdis | hch | hch
    · exact .inl hdis
    · exact .inr (.inl (Nested.of_chain hpair ha hb hch))
    · exact .inr (.inr (Nested.of_chain hpair hb ha hch))

/-- A relayout source, paired with its destination. -/
def pairedSource : LifetimeBoundBuffer where
  name := "s"
  size := 256
  uses := [0, 3]
  pairedWith := ["d"]
  uses_ne := by decide
  uses_increasing := by decide

/-- The destination of `pairedSource`. -/
def pairedDestination : LifetimeBoundBuffer where
  name := "d"
  size := 128
  uses := [2, 4]
  uses_ne := by decide
  uses_increasing := by decide

/-- An in-place child of `pairedSource`. -/
def sourceChild : LifetimeBoundBuffer where
  name := "c"
  size := 128
  uses := [3, 5]
  inPlaceParents := ["s"]
  uses_ne := by decide
  uses_increasing := by decide

example : ((planLayout 512 128 [pairedSource, pairedDestination, sourceChild]).map
    fun plan => ["s", "d", "c"].map plan).toOption = some [some 0, some 256, some 0] := by
  decide +kernel

theorem planLayout_safe_paired :
    ∃ plan, planLayout 512 128 [pairedSource, pairedDestination, sourceChild] = .ok plan ∧
      ∀ b ∈ [pairedSource, pairedDestination, sourceChild], ∀ a, plan b.name = some a →
        128 ∣ a ∧ a + b.size ≤ 512 ∧ excluded 512 false b = none := by
  obtain ⟨plan, hplan, hfit, -⟩ := planLayout_safe (show 0 < 128 by decide)
    (show 512 < 2 ^ 53 by decide)
    (show UniquelyNamed [pairedSource, pairedDestination, sourceChild] by decide +kernel) (by rfl)
    (.inr (by decide +kernel))
  exact ⟨plan, hplan, hfit⟩

end Greedy

end TorchSpyre
