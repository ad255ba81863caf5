import Mathlib
import TorchSpyre.PermLayout.Reinsert

/-!
# Layouts the packer reproduces

A layout is supported if every buffer in it is at the bottom, in the slot of a declared parent, or
directly above a buffer it is live with, whose slot it could not share. Given the buffers in the
order of their addresses, the packer puts every one of them where it was
(`Supported.build_address`) : it cannot be put higher, as it clears what is placed below it, and
not lower, as what it rests on is there already.

Buffers at one address are given in the order of their indices. A child that came before the parent
whose slot it shares would not find it, so parents have the lower index. A buffer of size zero would
be put on top of a buffer at its address that came before it, so it comes first.
-/

open List

namespace TorchSpyre

namespace PermLayout

/-- What a buffer at `a` rests on in the layout `ff`. -/
inductive RestsOn (st : StaticData) (sizes : ℕ → ℤ) (ff : ℕ → Option ℤ) (i : ℕ) (a : ℤ) : Prop
  | inPlace (p : ℕ) (declared : p ∈ st.declaredParents i) (same : ff p = some a)
  | bottom (zero : a = 0)
  | above (w : ℕ) (b : ℤ) (other : w ≠ i) (placedAt : ff w = some b)
      (live : overlaps st i w = true) (start : a = alignUp st (b + sizes w))
      (notChild : i ∉ st.declaredParents w)
      (blocked : 0 < sizes w → w ∈ st.declaredParents i → ∃ u c, ff u = some c ∧
        u ∉ st.declaredParents i ∧ overlaps st i u = true ∧ c < b + sizes w ∧ b < c + sizes u)

/-- A layout `ff` in which every buffer rests on something. At one address parents are listed before
their children, and otherwise what is listed later is not empty. -/
structure Supported (st : StaticData) (sizes : ℕ → ℤ) (ff : ℕ → Option ℤ) : Prop where
  bounds : ∀ i a, ff i = some a → 0 ≤ a ∧ st.alignment ∣ a ∧ a + sizes i ≤ st.capacity
  size_nonneg : ∀ i, 0 ≤ sizes i
  apart : ∀ i j a b, i ≠ j → ff i = some a → ff j = some b → overlaps st i j = true →
    Apart st sizes i j a b
  rests : ∀ i a, ff i = some a → RestsOn st sizes ff i a
  partner : ∀ i j, j ∈ st.declaredParents i → j ∈ st.inplacePartners i
  handoff : ∀ i j, j ∈ st.declaredParents i → overlaps st i j = true
  listed : ∀ i j a, j ∈ st.declaredParents i → ff i = some a → ff j = some a → j < i
  filled : ∀ i j a, i < j → ff i = some a → ff j = some a → overlaps st j i = true →
    i ∉ st.declaredParents j → 0 < sizes j
  rivals : ∀ i p q, p ∈ st.declaredParents i → q ∈ st.declaredParents i → p ≠ q →
    overlaps st p q = true ∧ p ∉ st.declaredParents q

/-- The order of the addresses, then of the indices. -/
def Earlier (i j : ℕ) (a b : ℤ) : Prop :=
  a < b ∨ a = b ∧ i < j

namespace Supported

variable {st : StaticData} {sizes : ℕ → ℤ} {eligible : ℕ → Bool} {ff : ℕ → Option ℤ}
  {P : List ℕ} {L : Layout} {i : ℕ} {a : ℤ}

/-- Of two buffers that are live together the earlier one is below, or it is the parent whose slot
the other shares. -/
theorem below_or_parent (h : Supported st sizes ff) {p : ℕ} {b : ℤ} (hi : ff i = some a)
    (hp : ff p = some b) (hov : overlaps st i p = true) (hlt : Earlier p i b a) :
    b + sizes p ≤ a ∨ b = a ∧ p ∈ st.declaredParents i ∧ sizes i ≤ sizes p := by
  have hne : i ≠ p := by
    rintro rfl
    rw [hi] at hp
    obtain rfl := Option.some.inj hp
    rcases hlt with hlt | ⟨-, hlt⟩
    · exact absurd hlt (lt_irrefl _)
    · exact absurd hlt (lt_irrefl _)
  have hsize := h.size_nonneg i
  have hsize' := h.size_nonneg p
  have hle : b ≤ a := hlt.elim le_of_lt fun h => h.1.le
  rcases h.apart i p a b hne hi hp hov with habove | hbelow | ⟨rfl, hpair⟩
  · -- an empty buffer at the address of an earlier one
    obtain rfl : a = b := by omega
    by_cases hparent : p ∈ st.declaredParents i
    · exact .inr ⟨rfl, hparent, by omega⟩
    · have := h.filled p i a (hlt.resolve_left (lt_irrefl _)).2 hp hi hov hparent
      omega
  · exact .inl hbelow
  · rcases hpair with ⟨hparent, hfit⟩ | ⟨hchild, -⟩
    · exact .inr ⟨rfl, hparent, hfit⟩
    · have hlisted := h.listed p i a hchild hp hi
      have hpi := (hlt.resolve_left (lt_irrefl _)).2
      omega

/-- What the step needs of the buffers already placed. -/
structure Before (ff : ℕ → Option ℤ) (P : List ℕ) (L : Layout) (i : ℕ) (a : ℤ) : Prop where
  placed : ∀ p ∈ P, ∃ b, ff p = some b ∧ L.address p = some b ∧ Earlier p i b a
  complete : ∀ w b, ff w = some b → Earlier w i b a → w ∈ P

variable (eligible) in
/-- The buffer clears what is placed before it. -/
theorem placed (h : Supported st sizes ff) (hi : ff i = some a) (hb : Before ff P L i a) :
    Placed st sizes L.address i (candidates st eligible P i) a := by
  have hcand : ∀ p ∈ candidates st eligible P i, ∃ b, ff p = some b ∧ L.address p = some b ∧
      (b + sizes p ≤ a ∨ b = a ∧ p ∈ st.declaredParents i ∧ sizes i ≤ sizes p) := by
    intro p hp
    obtain ⟨hmem, hov, -⟩ := mem_candidates.mp hp
    obtain ⟨b, hfp, hLp, hlt⟩ := hb.placed p hmem
    exact ⟨b, hfp, hLp, h.below_or_parent hi hfp hov hlt⟩
  have htop : ∀ p b, L.address p = some b → top sizes L.address p = b + sizes p := fun p b hp => by
    rw [top, hp, Option.getD_some]
  obtain ⟨h0, hdvd, hfits⟩ := h.bounds i a hi
  refine ⟨h0, hdvd, hfits, fun p hp => ?_, ?_⟩
  · obtain ⟨b, -, hLp, -⟩ := hcand p hp
    simp [hLp]
  by_cases hshared : ∃ p ∈ candidates st eligible P i, L.address p = some a ∧ 0 < sizes p
  · obtain ⟨p, hp, hLp, hsize⟩ := hshared
    obtain ⟨b, hfp, hLp', hrel⟩ := hcand p hp
    obtain rfl : b = a := Option.some.inj (hLp'.symm.trans hLp)
    obtain ⟨-, hparent, hfit⟩ := hrel.resolve_left (by omega)
    refine .inr ⟨p, h.partner i p hparent, hLp, hp, ?_, fun q hq hne => ?_, ?_⟩
    · rw [inPlacePair, if_pos hparent]
      exact hfit
    · obtain ⟨c, hfq, hLq, hrel⟩ := hcand q hq
      rw [htop q c hLq, hLp, Option.getD_some]
      rcases hrel with hbelow | ⟨rfl, hparent', -⟩
      · exact hbelow
      · -- Two parents in one slot would be a pair themselves.
        obtain ⟨hov, hnot⟩ := h.rivals i q p hparent' hparent hne
        have hnot' := (h.rivals i p q hparent hparent' hne.symm).2
        rcases h.apart q p c c hne hfq hfp hov with h₁ | h₁ | ⟨-, ⟨h₁, -⟩ | ⟨h₁, -⟩⟩
        · exact h₁
        · omega
        · exact absurd h₁ hnot'
        · exact absurd h₁ hnot
    · rw [hLp, Option.getD_some]
      exact h0
  · refine .inl fun p hp => ?_
    obtain ⟨b, -, hLp, hrel⟩ := hcand p hp
    rw [htop p b hLp]
    rcases hrel with hbelow | ⟨rfl, -⟩
    · exact hbelow
    · have : ¬0 < sizes p := fun hsize => hshared ⟨p, hp, hLp, hsize⟩
      omega

/-- What the buffer rests on is there, so it is not put lower. -/
theorem le_of_placed (h : Supported st sizes ff) (hst : RuleOk st) (hi : ff i = some a)
    (helP : ∀ p ∈ P, eligible p = true) (hb : Before ff P L i a) {b : ℤ}
    (hplaced : Placed st sizes L.address i (candidates st eligible P i) b) : a ≤ b := by
  -- A candidate is below, or it is the partner whose slot is taken.
  have hrest : ∀ w c, ff w = some c → overlaps st i w = true → Earlier w i c a →
      c + sizes w ≤ b ∨ c = b ∧ w ∈ st.inplacePartners i ∧
        ∀ u d, ff u = some d → overlaps st i u = true → Earlier u i d a → u ≠ w →
          d + sizes u ≤ c := by
    have hmem : ∀ w c, ff w = some c → overlaps st i w = true → Earlier w i c a →
        w ∈ candidates st eligible P i ∧ L.address w = some c := by
      intro w c hw hov hlt
      have hwP := hb.complete w c hw hlt
      obtain ⟨c', hw', hLw, -⟩ := hb.placed w hwP
      obtain rfl := Option.some.inj (hw'.symm.trans hw)
      exact ⟨mem_candidates.mpr ⟨hwP, hov, helP w hwP⟩, hLw⟩
    intro w c hw hov hlt
    obtain ⟨hwC, hLw⟩ := hmem w c hw hov hlt
    rcases hplaced.clear with hclear | ⟨q, hq, hLq, hslot⟩
    · have := hclear w hwC
      rw [top, hLw, Option.getD_some] at this
      exact .inl this
    · by_cases hwq : w = q
      · subst hwq
        obtain rfl := Option.some.inj (hLw.symm.trans hLq)
        refine .inr ⟨rfl, hq, fun u d hu hov hlt hne => ?_⟩
        obtain ⟨huC, hLu⟩ := hmem u d hu hov hlt
        have := hslot.others u huC hne
        rwa [top, hLu, Option.getD_some, hLw, Option.getD_some] at this
      · have := hslot.others w hwC hwq
        rw [top, hLw, Option.getD_some, hLq, Option.getD_some] at this
        exact .inl this
  cases h.rests i a hi with
  | inPlace p declared same =>
    have hsize := h.size_nonneg p
    rcases hrest p a same (h.handoff i p declared) (.inr ⟨rfl, h.listed i p a declared hi same⟩)
      with hle | ⟨rfl, -⟩
    · omega
    · exact le_rfl
  | bottom zero => exact zero ▸ hplaced.nonneg
  | above w c other placedAt live start notChild blocked =>
    have hsize := h.size_nonneg w
    obtain ⟨hc0, hdvd, -⟩ := h.bounds w c placedAt
    have hle : c + sizes w ≤ a := start ▸ le_alignUp hst.alignment_pos (by omega)
    have hearlier : Earlier w i c a := by
      rcases hsize.eq_or_lt with hzero | hpos
      · -- an empty buffer is at the address itself, and listed first
        have hca : a ≤ c := by
          rw [start, ← hzero, add_zero]
          exact alignUp_le hst.alignment_pos hc0 le_rfl hdvd
        obtain rfl : c = a := by omega
        refine .inr ⟨rfl, ?_⟩
        by_cases hparent : w ∈ st.declaredParents i
        · exact h.listed i w c hparent hi placedAt
        · by_contra hnot
          have hlt : i < w := by omega
          have := h.filled i w c hlt hi placedAt (by rwa [overlaps_comm]) notChild
          omega
      · exact .inl (by omega)
    rcases hrest w c placedAt live hearlier with hle' | ⟨rfl, hpartner, hothers⟩
    · rw [start]
      exact alignUp_le hst.alignment_pos (by omega) hle' hplaced.aligned
    · have hdeclared := (hst.partner i w hpartner).resolve_right notChild
      rcases hsize.eq_or_lt with hzero | hpos
      · rw [start, ← hzero, add_zero]
        exact alignUp_le hst.alignment_pos hc0 le_rfl hdvd
      · obtain ⟨u, d, hu, hnot, hov, hlow, hhigh⟩ := blocked hpos hdeclared
        have := hothers u d hu hov (.inl (by omega)) fun heq => hnot (heq ▸ hdeclared)
        omega

/-- The packer puts the next buffer where the layout has it. -/
theorem decideOne_eq (h : Supported st sizes ff) (hst : RuleOk st)
    (hel : eligible i = true) (helP : ∀ p ∈ P, eligible p = true) (hi : ff i = some a)
    (hb : Before ff P L i a) : decideOne st sizes eligible P i L = some a := by
  have hbounds : ∀ p ∈ candidates st eligible P i, ∀ c, L.address p = some c →
      0 ≤ c ∧ st.alignment ∣ c := by
    intro p hp c hc
    obtain ⟨c', hfp, hLp, -⟩ := hb.placed p (mem_candidates.mp hp).1
    obtain rfl := Option.some.inj (hLp.symm.trans hc)
    exact ⟨(h.bounds p c' hfp).1, (h.bounds p c' hfp).2.1⟩
  obtain ⟨b, hle, hdec⟩ := (h.placed eligible hi hb).exists_le hst.alignment_pos
    (fun p _ => h.size_nonneg p) fun p hp c hc => (hbounds p hp c hc).1
  have hplaced :=
    Placed.of_placeDecision hst.alignment_pos (fun p _ => h.size_nonneg p) hbounds hdec
  rw [decideOne, if_pos hel, hdec, le_antisymm hle (h.le_of_placed hst hi helP hb hplaced)]

/-- In the order of the addresses, the packer reproduces a supported layout. -/
theorem build_address (h : Supported st sizes ff) (hst : RuleOk st) {l : List ℕ}
    (hnd : l.Nodup) (hel : ∀ i ∈ l, eligible i = true)
    (hmem : ∀ i a, ff i = some a → i ∈ l)
    (hsorted : l.Pairwise fun i j => ∀ b, ff j = some b → ∃ a, ff i = some a ∧ Earlier i j a b)
    {i : ℕ} {a : ℤ} (hi : ff i = some a) : (build st sizes eligible l).address i = some a := by
  suffices hprefix : ∀ P R, l = P ++ R → ∀ p ∈ P, ∀ b, ff p = some b →
      (build st sizes eligible P).address p = some b from
    hprefix l [] (append_nil l).symm i (hmem i a hi) a hi
  intro P
  induction P using List.reverseRecOn with
  | nil =>
    intro R _ p hp
    cases hp
  | append_singleton P x ih =>
    intro R hl p hp b hpb
    have hl' : l = P ++ x :: R := by simpa using hl
    have hndP : (P ++ [x]).Nodup := (nodup_append.mp (hl ▸ hnd)).1
    rw [mem_append, mem_singleton] at hp
    rcases hp with hp | rfl
    · rw [build_address_left hndP hp]
      exact ih (x :: R) hl' p hp b hpb
    · rw [build_address_self hndP]
      rw [hl', pairwise_append, pairwise_cons] at hsorted
      obtain ⟨-, ⟨hafter, -⟩, hbefore⟩ := hsorted
      refine h.decideOne_eq hst (hel p (by simp [hl'])) (fun q hq => hel q (by simp [hl', hq]))
        hpb ⟨fun q hq => ?_, fun w c hw hlt => ?_⟩
      · obtain ⟨c, hqc, hlt⟩ := hbefore q hq p (mem_cons_self ..) b hpb
        exact ⟨c, hqc, ih (p :: R) hl' q hq c hqc, hlt⟩
      · have hwl := hmem w c hw
        rw [hl', mem_append, mem_cons] at hwl
        rcases hwl with hwP | rfl | hwR
        · exact hwP
        · obtain rfl := Option.some.inj (hw.symm.trans hpb)
          rcases hlt with hlt | ⟨-, hlt⟩
          · exact absurd hlt (lt_irrefl _)
          · exact absurd hlt (lt_irrefl _)
        · obtain ⟨b', hpb', hlt'⟩ := hafter w hwR c hw
          obtain rfl := Option.some.inj (hpb'.symm.trans hpb)
          unfold Earlier at hlt hlt'
          omega

end Supported

end PermLayout

end TorchSpyre
