import Mathlib
import TorchSpyre.Views.Faithful

/-!
# Multiples, remainders and digits

The indices that `compute_coordinates` is meant for : a variable is multiplied, or occurs in one
remainder, or in a complete chain of digits, with coefficients that are multiples of the stride they
fall on. Such an index is reproduced where its variables are represented.

What can go wrong is the choice of what is spread. A variable that occurs in a remainder only is
taken for the variable itself when the index also has a constant, because `find_repeat_vars`
compares the whole index with the remainder. And a step may fall on a dimension of size zero.
`sum_coordinates_iff` says that nothing else does.
-/

open List

namespace TorchSpyre

namespace Views

/-- The term is a multiple of the variable. -/
def Multiple (v : LoopVar) : Prop :=
  ∃ a, v.term.addends = [⟨a, .var⟩]

/-- The term is a multiple of `Mod(v, m)`, with `m` below the range. -/
def LoneMod (v : LoopVar) : Prop :=
  ∃ m a, v.term.addends = [⟨a, .mod 1 m⟩] ∧ m < v.range

/-- A variable is multiplied, or occurs in one remainder below its range, or in a complete chain
of digits. A coefficient is a positive multiple of the largest wide stride up to it. -/
structure Admitted (D : Dims) (v : LoopVar) : Prop where
  pos : ∀ a ∈ v.term.addends, 0 < a.coeff
  dvd : ∀ a ∈ v.term.addends, ∀ d ∈ D.wide, D.stride d ≤ a.coeff →
    (∀ e ∈ D.wide, D.stride e ≤ a.coeff → D.stride e ≤ D.stride d) → D.stride d ∣ a.coeff
  kind : Multiple v ∨ LoneMod v ∨ CompleteDigits v

/-- No step of the variable falls on a dimension without elements. -/
def OffEmpty (D : Dims) (v : LoopVar) : Prop :=
  ∀ a ∈ v.term.addends, ∀ p, Primary D a.coeff p → D.size p ≠ 0

/-- The index has no constant or no lone remainder, and no step falls on a dimension without
elements. -/
def Spreads (D : Dims) (ix : Index) : Prop :=
  (ix.offset = 0 ∨ ∀ v ∈ ix.vars, ¬LoneMod v) ∧ ∀ v ∈ ix.vars, 1 < v.range → OffEmpty D v

section Variable

variable {D : Dims} {ix : Index} {v : LoopVar}

/-- A coefficient lands where its dimension has elements. -/
theorem Admitted.lands_iff (hD : Nested D) (hv : Admitted D v) {a : Addend}
    (ha : a ∈ v.term.addends) : Lands D a.coeff ↔ ∀ p, Primary D a.coeff p → D.size p ≠ 0 := by
  constructor
  · rintro ⟨p, hp, hsize, -⟩ q hq
    exact hq.unique hp ▸ hsize
  · intro hoff
    obtain ⟨p, hp⟩ := exists_primary hD (hv.pos a ha)
    have hwide : p ∈ D.wide := mem_wide.mpr ⟨hp.lt, by
      have := hp.size_ne
      have := hoff p hp
      omega⟩
    refine ⟨p, hp, hoff p hp, hv.dvd a ha p hwide hp.le fun e he hle => ?_⟩
    exact (hp.max e (mem_wide.mp he).1 (by have := (mem_wide.mp he).2; omega) hle).1

theorem Admitted.offEmpty_iff (hD : Nested D) (hv : Admitted D v) :
    OffEmpty D v ↔ ∀ a ∈ v.term.addends, Lands D a.coeff :=
  forall₂_congr fun _ ha => (hv.lands_iff hD ha).symm

theorem represented_multiple (h : Multiple v) (hpos : ∀ a ∈ v.term.addends, 0 < a.coeff) :
    Represented D ix v ↔ ∀ a ∈ v.term.addends, Lands D a.coeff := by
  obtain ⟨a, haddends⟩ := h
  have heval : ∀ x, v.term.eval x = a * x := fun x => by simp [VarTerm.eval, haddends, Part.eval]
  have hone : v.term.eval 1 = a := by rw [heval, Nat.cast_one, mul_one]
  have hmods : v.term.mods = [] := by rw [VarTerm.mods, haddends]; rfl
  have hfalls : FallsThrough ix v :=
    ⟨by simp [hmods], fun c d m h => by simpa [haddends] using h.addends⟩
  rw [haddends, forall_mem_singleton] at hpos ⊢
  dsimp only at hpos ⊢
  constructor
  · intro hrep
    cases hrep with
    | digits hmany _ _ => exact absurd hmany hfalls.mods
    | remainder c d m hlone _ => exact absurd hlone (hfalls.lone c d m)
    | multiple _ _ hsteps =>
      rcases hsteps with hzero | hlands | hneg
      · omega
      · exact hone ▸ hlands
      · omega
  · refine fun hlands => .multiple hfalls (fun x _ => ?_) (.inr (.inl (hone.symm ▸ hlands)))
    rw [hone, heval, mul_comm]

theorem represented_loneMod (h : LoneMod v) (hpos : ∀ a ∈ v.term.addends, 0 < a.coeff) :
    Represented D ix v ↔ ix.offset = 0 ∧ ∀ a ∈ v.term.addends, Lands D a.coeff := by
  obtain ⟨m, a, haddends, hmr⟩ := h
  have hm : 1 < m := (v.term.normal ⟨a, .mod 1 m⟩ (by simp [haddends])).2.2
  have hmods : v.term.mods = [⟨1, m, a⟩] := by rw [VarTerm.mods, haddends]; rfl
  rw [haddends, forall_mem_singleton] at hpos ⊢
  dsimp only at hpos ⊢
  constructor
  · intro hrep
    cases hrep with
    | digits hmany _ _ => simp [hmods] at hmany
    | remainder c d m' hlone hlands =>
      have heq := hlone.addends.symm.trans haddends
      simp only [List.cons.injEq, Addend.mk.injEq, Part.mod.injEq, and_true] at heq
      obtain ⟨rfl, rfl, rfl⟩ := heq
      exact ⟨hlone.offset, hlands (hm.trans hmr)⟩
    | multiple _ hlinear _ =>
      -- The remainder is zero at the modulus.
      have hzero := hlinear m hmr
      simp only [VarTerm.eval, haddends, Part.eval, map_cons, map_nil, sum_singleton, Nat.div_one,
        Nat.mod_self, Nat.mod_eq_of_lt hm, Nat.cast_zero, Nat.cast_one, mul_zero, mul_one,
        zero_eq_mul] at hzero
      omega
  · rintro ⟨hoffset, hlands⟩
    exact .remainder a 1 m ⟨haddends, hmr, hoffset⟩ fun _ => hlands

/-- The coefficients of a complete chain are those of its digits. -/
theorem CompleteDigits.forall_coeff_iff (h : CompleteDigits v) {P : ℤ → Prop} :
    (∀ d ∈ v.term.mods, P d.coeff) ↔ ∀ a ∈ v.term.addends, P a.coeff := by
  have hsome : ∀ a ∈ v.term.addends, a.digit.isSome = true :=
    filterMap_length_eq_length.mp h.length.symm
  constructor
  · intro hall a ha
    obtain ⟨d, hd⟩ := Option.isSome_iff_exists.mp (hsome a ha)
    rw [← (digit_eq_some hd).2]
    exact hall d (mem_filterMap.mpr ⟨a, ha, hd⟩)
  · intro hall d hd
    obtain ⟨a, ha, hdigit⟩ := mem_filterMap.mp hd
    rw [(digit_eq_some hdigit).2]
    exact hall a ha

/-- A chain of one digit is refused : it is not below the range, so it falls through, and its value
at the range is zero. -/
theorem CompleteDigits.one_lt_length (h : CompleteDigits v) (hrange : 1 < v.range)
    (hnot : ¬Rejected ix v) : 1 < v.term.mods.length := by
  by_contra hfew
  obtain ⟨low, hperm, hlow⟩ := h.chain.chain
  have heval := h.eval
  have hpos := h.pos
  cases hmods : v.term.mods with
  | nil =>
    rw [hmods] at hperm
    obtain rfl := perm_nil.mp hperm
    exact absurd (show 1 = v.range from hlow) hrange.ne
  | cons d rest =>
    obtain rfl : rest = [] := by simpa [hmods] using hfew
    rw [hmods] at hperm hpos
    obtain rfl := perm_singleton.mp hperm
    obtain ⟨hdiv, hend⟩ := hlow
    have hmod : d.modulus = v.range := by simpa [IsDigitChain] using hend
    refine hnot (.backwards hrange ⟨hfew, fun c e m hlone => ?_⟩ ?_)
    · rw [VarTerm.mods, hlone.addends] at hmods
      obtain rfl := List.singleton_inj.mp hmods
      exact absurd hlone.lt hmod.ge.not_gt
    · have hone : 1 / d.divisor % d.modulus = 1 := by
        rw [hdiv, hmod, Nat.div_one, Nat.mod_eq_of_lt hrange]
      have hzero : v.range / d.divisor % d.modulus = 0 := by
        rw [hdiv, hmod, Nat.div_one, Nat.mod_self]
      rw [heval, heval, hmods, map_singleton, map_singleton, sum_singleton, sum_singleton, hone,
        hzero, Nat.cast_zero, mul_zero, Nat.cast_one, mul_one]
      exact hpos d mem_cons_self

theorem represented_completeDigits (h : CompleteDigits v) (hmany : 1 < v.term.mods.length) :
    Represented D ix v ↔ ∀ a ∈ v.term.addends, Lands D a.coeff := by
  rw [← h.forall_coeff_iff]
  constructor
  · intro hrep
    cases hrep with
    | digits _ _ hlands => exact hlands
    | remainder c d m hlone _ =>
      have hlength := hlone.length_mods
      omega
    | multiple hfalls _ _ => exact absurd hmany hfalls.mods
  · exact .digits hmany h

/-- A variable that is not refused is represented where its remainder is not missed and its steps
land. -/
theorem Admitted.represented_iff (hD : Nested D) (hv : Admitted D v) (hrange : 1 < v.range)
    (hnot : ¬Rejected ix v) :
    Represented D ix v ↔ (ix.offset = 0 ∨ ¬LoneMod v) ∧ OffEmpty D v := by
  rw [hv.offEmpty_iff hD]
  rcases hv.kind with hmultiple | hlone | hdigits
  · have hnotLone : ¬LoneMod v := by
      rintro ⟨m, a, haddends, -⟩
      obtain ⟨b, hb⟩ := hmultiple
      simp [hb] at haddends
    rw [and_iff_right (Or.inr hnotLone), represented_multiple hmultiple hv.pos]
  · rw [or_iff_left (not_not.mpr hlone), represented_loneMod hlone hv.pos]
  · have hmany := hdigits.one_lt_length hrange hnot
    have hnotLone : ¬LoneMod v := by
      rintro ⟨m, a, haddends, -⟩
      have hlength := hdigits.length
      rw [haddends, length_singleton] at hlength
      omega
    rw [and_iff_right (Or.inr hnotLone), represented_completeDigits hdigits hmany]

end Variable

/-- The coordinates times the strides are the index at every point exactly when the index is
spread, or there is no point. -/
theorem sum_coordinates_iff (D : Dims) (hD : Nested D) (ix : Index)
    (hix : ∀ v ∈ ix.vars, Admitted D v) (coords : Coordinates)
    (h : computeCoordinates D ix = .ok coords) :
    (∀ pt, ix.InRange pt → sumAt D coords pt = ix.eval pt) ↔
      (∃ v ∈ ix.vars, v.range = 0) ∨ Spreads D ix := by
  obtain ⟨hnot, hiff⟩ := computeCoordinates_eq_ok hD h
  have hrep : ∀ v ∈ ix.vars, 1 < v.range →
      (Represented D ix v ↔ (ix.offset = 0 ∨ ¬LoneMod v) ∧ OffEmpty D v) := fun v hv hrange =>
    (hix v hv).represented_iff hD hrange (hnot v hv)
  rw [hiff]
  refine or_congr Iff.rfl ⟨fun hall => ⟨?_, fun v hv hrange => ?_⟩, fun hspread v hv hrange => ?_⟩
  · by_contra hmissed
    push Not at hmissed
    obtain ⟨hoffset, v, hv, hlone⟩ := hmissed
    obtain ⟨m, a, haddends, hmr⟩ := hlone
    have hm : 1 < m := (v.term.normal ⟨a, .mod 1 m⟩ (by simp [haddends])).2.2
    have hrange : 1 < v.range := hm.trans hmr
    exact ((hrep v hv hrange).mp (hall v hv hrange)).1.resolve_left hoffset ⟨m, a, haddends, hmr⟩
  · exact ((hrep v hv hrange).mp (hall v hv hrange)).2
  · exact (hrep v hv hrange).mpr ⟨hspread.1.imp_right fun hs => hs v hv, hspread.2 v hv hrange⟩

/-- The index `3 + Mod(v, 4)`, with six values of `v`. -/
def shiftedRepeat : Index where
  offset := 3
  vars := [⟨"v", 6, ⟨[⟨1, .mod 1 4⟩], by decide, by decide⟩⟩]

/-- The coordinate of `3 + Mod(v, 4)` is `v + 3`. -/
theorem shiftedRepeat_misread :
    Nested row ∧ (∀ v ∈ shiftedRepeat.vars, Admitted row v) ∧
      ∃ coords, computeCoordinates row shiftedRepeat = .ok coords ∧
        shiftedRepeat.InRange (fun _ => 4) ∧ sumAt row coords (fun _ => 4) = 7 ∧
          shiftedRepeat.eval (fun _ => 4) = 3 := by
  refine ⟨⟨by decide, by decide, by decide, by decide⟩, fun v hv => ?_, _, rfl,
    by simp [Index.InRange, shiftedRepeat], by decide +kernel, by decide⟩
  obtain rfl := mem_singleton.mp hv
  exact ⟨by decide, by decide, .inr (.inl ⟨4, 1, rfl, by decide⟩)⟩

/-- Four rows of eight elements. -/
def rows : Dims where
  n := 2
  size d := if d = 0 then 4 else 8
  stride d := if d = 0 then 8 else 1

/-- The index `5 + Mod(v, 8) + 8 * Mod(FloorDiv(v, 8), 3)`, with 24 values of `v`. -/
def shiftedDigits : Index where
  offset := 5
  vars := [⟨"v", 24, ⟨[⟨1, .mod 1 8⟩, ⟨8, .mod 8 3⟩], by decide, by decide⟩⟩]

theorem sum_coordinates_shiftedDigits :
    ∃ coords, computeCoordinates rows shiftedDigits = .ok coords ∧
      ∀ pt, shiftedDigits.InRange pt → sumAt rows coords pt = shiftedDigits.eval pt := by
  have hnested : Nested rows := ⟨by decide, by decide, by decide, by decide⟩
  have hadmitted : ∀ v ∈ shiftedDigits.vars, Admitted rows v := by
    intro v hv
    obtain rfl := mem_singleton.mp hv
    refine ⟨by decide, by decide, .inr (.inr ⟨rfl, by decide, by decide, _, .refl _, ?_⟩)⟩
    exact ⟨rfl, rfl, rfl⟩
  refine ⟨_, rfl, (sum_coordinates_iff rows hnested shiftedDigits hadmitted _ rfl).mpr
    (Or.inr ⟨Or.inr ?_, ?_⟩)⟩
  · rintro v hv ⟨m, a, hone, -⟩
    obtain rfl := mem_singleton.mp hv
    simp at hone
  · intro v hv hrange a ha p hp
    unfold rows
    dsimp only
    split_ifs <;> simp

end Views

end TorchSpyre
