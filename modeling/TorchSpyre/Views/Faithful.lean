import Mathlib
import TorchSpyre.Views.Spread

/-!
# Which indices are reproduced

The term of a variable may hold the variable itself, quotients of it and one or more remainders,
with coefficients of either sign. `find_repeat_vars` recognises a remainder that is
the whole term and a complete chain of digits. Everything else falls through : `compute_coordinates`
takes the value of the term at 1 for the step and its value at the range for the limit, and spreads
the variable times the step. A limit below the step is refused.

So a term that falls through is represented only where it is a multiple of the variable, and its
value at 1 has to fall on a dimension that divides it (`Represented`). A quotient is zero at 1 and
disappears. `computeCoordinates_faithful_iff` is the exact condition.
-/

open List

namespace TorchSpyre

open Checked

namespace Views

/-! ## Which terms are recognised -/

section Kinds

/-- The term is one remainder, below the range, and the index has no constant. -/
structure Lone (ix : Index) (v : LoopVar) (coeff : ℤ) (divisor modulus : ℕ) : Prop where
  addends : v.term.addends = [⟨coeff, .mod divisor modulus⟩]
  lt : modulus < v.range
  offset : ix.offset = 0

/-- The term is a complete chain of digits. -/
structure CompleteDigits (v : LoopVar) : Prop where
  length : v.term.addends.length = v.term.mods.length
  pos : ∀ d ∈ v.term.mods, 0 < d.coeff
  chain : DigitChain v.range v.term.mods

/-- The term is neither. -/
structure FallsThrough (ix : Index) (v : LoopVar) : Prop where
  mods : ¬ 1 < v.term.mods.length
  lone : ∀ coeff divisor modulus, ¬ Lone ix v coeff divisor modulus

variable {ix : Index} {v : LoopVar}

variable {d : Digit} {low mods : List Digit} {range : ℕ}

theorem digit_eq_some {a : Addend} (h : a.digit = some d) :
    a.part = .mod d.divisor d.modulus ∧ d.coeff = a.coeff := by
  obtain ⟨coeff, part⟩ := a
  cases part with
  | var => exact nomatch h
  | floorDiv divisor => exact nomatch h
  | mod divisor modulus =>
    obtain rfl := Option.some.inj h
    exact ⟨rfl, rfl⟩

theorem normal_of_mem_mods (h : d ∈ v.term.mods) : 0 < d.divisor ∧ 1 < d.modulus := by
  obtain ⟨a, ha, hd⟩ := mem_filterMap.mp h
  have hnormal := (v.term.normal a ha).2
  rw [(digit_eq_some hd).1] at hnormal
  exact hnormal

/-- Digits where each starts where the one before ends. -/
theorem isDigitChain_of_zip
    (hzip : ∀ p ∈ (d :: low).zip low, p.1.divisor * p.1.modulus = p.2.divisor)
    (hlast : ((d :: low).getLast?.map fun e => e.divisor * e.modulus) = some range) :
    IsDigitChain d.divisor (d :: low) range := by
  induction low generalizing d with
  | nil => exact ⟨rfl, by simpa [IsDigitChain] using hlast⟩
  | cons e low ih =>
    refine ⟨rfl, ?_⟩
    have hnext : d.divisor * d.modulus = e.divisor := hzip (d, e) (by simp)
    rw [hnext]
    exact ih (fun p hp => hzip p (by simp [hp])) (by simpa [getLast?_cons_cons] using hlast)

theorem zip_of_isDigitChain {start : ℕ} (h : IsDigitChain start (d :: low) range) :
    (∀ p ∈ (d :: low).zip low, p.1.divisor * p.1.modulus = p.2.divisor) ∧
      ((d :: low).getLast?.map fun e => e.divisor * e.modulus) = some range := by
  induction low generalizing start d with
  | nil =>
    obtain ⟨rfl, h⟩ := h
    exact ⟨by simp, by simpa [IsDigitChain] using h⟩
  | cons e low ih =>
    obtain ⟨rfl, h⟩ := h
    obtain ⟨hzip, hlast⟩ := ih h
    refine ⟨fun p hp => ?_, by simpa [getLast?_cons_cons] using hlast⟩
    rcases mem_cons.mp hp with rfl | hp
    · exact h.1.symm
    · exact hzip p hp

/-- The digits of a chain, in the order of their divisors, are the chain. -/
theorem insertionSort_eq_of_chain (hnormal : ∀ d ∈ mods, 0 < d.divisor ∧ 1 < d.modulus)
    (hperm : low.Perm mods) (hchain : IsDigitChain 1 low range) :
    (mods.insertionSort fun a b => a.divisor ≤ b.divisor) = low := by
  have hstrict := (hchain.strict Nat.one_pos fun d hd => (hnormal d (hperm.mem_iff.mp hd)).2).1
  have hinj : ∀ a ∈ low, ∀ b ∈ low, a.divisor = b.divisor → a = b := by
    intro a ha b hb heq
    by_contra hne
    have hsymm : Std.Symm fun a b : Digit => a.divisor ≠ b.divisor := ⟨fun a b hab => hab.symm⟩
    have hdistinct : low.Pairwise fun a b => a.divisor ≠ b.divisor := hstrict.imp fun h => h.ne
    exact hdistinct.forall ha hb hne heq
  have hsorted := perm_insertionSort (fun a b : Digit => a.divisor ≤ b.divisor) mods
  refine List.Perm.eq_of_pairwise (fun a b ha hb hab hba => ?_)
    (List.pairwise_insertionSort (fun a b : Digit => a.divisor ≤ b.divisor) mods)
    (hstrict.imp fun h => h.le) (hsorted.trans hperm.symm)
  exact hinj a (hperm.mem_iff.mpr (hsorted.mem_iff.mp ha)) b hb (le_antisymm hab hba)

theorem mixedRadixDigits_iff (hne : v.term.mods ≠ []) :
    (∃ digits, mixedRadixDigits v = some digits) ↔ CompleteDigits v := by
  have hnormal : ∀ d ∈ v.term.mods, 0 < d.divisor ∧ 1 < d.modulus := fun d => normal_of_mem_mods
  have hsorted := perm_insertionSort (fun a b : Digit => a.divisor ≤ b.divisor) v.term.mods
  have hguard : (v.term.mods.any fun d => d.coeff ≤ 0 || d.divisor = 0 || d.modulus = 0) = true ↔
      ¬ ∀ d ∈ v.term.mods, 0 < d.coeff := by
    rw [any_eq_true]
    push Not
    refine exists_congr fun d => and_congr_right fun hd => ?_
    have := hnormal d hd
    simp only [Bool.or_eq_true, decide_eq_true_eq]
    omega
  unfold mixedRadixDigits
  dsimp only
  constructor
  · rintro ⟨digits, h⟩
    split_ifs at h with hlength hany hhead hzip hlast
    refine ⟨not_not.mp hlength, not_not.mp fun hpos => hany (hguard.mpr hpos),
      fun d hd => (hnormal d hd).2, _, hsorted, ?_⟩
    generalize v.term.mods.insertionSort (fun a b : Digit => a.divisor ≤ b.divisor) = sorted at *
    cases sorted with
    | nil => simp at hhead
    | cons d low =>
      have hone : d.divisor = 1 := by simpa using hhead
      rw [← hone]
      refine isDigitChain_of_zip (fun p hp => ?_) (by simpa using hlast)
      by_contra hne
      exact hzip (any_eq_true.mpr ⟨p, hp, by simpa using hne⟩)
  · rintro ⟨hlength, hpos, -, low, hperm, hchain⟩
    have heq := insertionSort_eq_of_chain hnormal hperm hchain
    rw [if_neg (not_not.mpr hlength), if_neg fun hany => hguard.mp hany hpos, heq]
    cases low with
    | nil => exact absurd hperm.symm.eq_nil hne
    | cons d low =>
      obtain ⟨hzip, hlast⟩ := zip_of_isDigitChain hchain
      have hany : ¬ (((d :: low).zip (d :: low).tail).any fun p =>
          p.1.divisor * p.1.modulus ≠ p.2.divisor) = true := by
        intro h
        obtain ⟨p, hp, hne⟩ := any_eq_true.mp h
        exact of_decide_eq_true hne (hzip p hp)
      rw [if_neg (by simp [hchain.1]), if_neg hany, if_neg (by simpa using hlast)]
      exact ⟨_, rfl⟩

/-- A sum of remainders is that of its digits. -/
theorem sum_filterMap_digit {x : ℕ} {addends : List Addend}
    (hlength : addends.length = (addends.filterMap Addend.digit).length) :
    (addends.map fun a => a.coeff * (a.part.eval x : ℤ)).sum =
      ((addends.filterMap Addend.digit).map fun d =>
        d.coeff * ((x / d.divisor % d.modulus : ℕ) : ℤ)).sum := by
  induction addends with
  | nil => rfl
  | cons a rest ih =>
    cases hd : a.digit with
    | none =>
      have hle := length_filterMap_le Addend.digit rest
      rw [filterMap_cons_none hd, length_cons] at hlength
      omega
    | some d =>
      rw [filterMap_cons_some hd] at hlength ⊢
      obtain ⟨hpart, hcoeff⟩ := digit_eq_some hd
      rw [map_cons, map_cons, sum_cons, sum_cons, ih (by simpa using hlength), hpart, hcoeff]
      rfl

theorem CompleteDigits.eval (h : CompleteDigits v) (x : ℕ) :
    v.term.eval x =
      (v.term.mods.map fun d => d.coeff * ((x / d.divisor % d.modulus : ℕ) : ℤ)).sum :=
  sum_filterMap_digit h.length

/-- What `find_repeat_vars` makes of a variable. -/
inductive Finds (ix : Index) (v : LoopVar) : Except CoordError (Option RepeatInfo) → Prop
  | incomplete (hmany : 1 < v.term.mods.length) (h : ¬ CompleteDigits v) (e : CoordError) :
      Finds ix v (.error e)
  | digits (hmany : 1 < v.term.mods.length) (h : CompleteDigits v) (digits : List Digit)
      (hperm : digits.Perm v.term.mods) : Finds ix v (.ok (some (.mixedRadix digits)))
  | remainder (coeff : ℤ) (divisor modulus : ℕ) (h : Lone ix v coeff divisor modulus) :
      Finds ix v (.ok (some (.mulMod coeff divisor modulus)))
  | nothing (h : FallsThrough ix v) : Finds ix v (.ok none)

theorem finds_findRepeat : Finds ix v (findRepeat ix v) := by
  unfold findRepeat
  by_cases hmany : 1 < v.term.mods.length
  · rw [if_pos hmany]
    have hiff := mixedRadixDigits_iff (v := v) (ne_nil_of_length_pos (by omega))
    cases hdigits : mixedRadixDigits v with
    | none =>
      refine .incomplete hmany (fun h => ?_) _
      obtain ⟨digits, hsome⟩ := hiff.mpr h
      exact nomatch hdigits.symm.trans hsome
    | some digits =>
      exact .digits hmany (hiff.mp ⟨digits, hdigits⟩) digits (mixedRadixDigits_perm hdigits)
  · rw [if_neg hmany]
    split
    · rename_i coeff divisor modulus haddends
      split_ifs with hlone
      · exact .remainder coeff divisor modulus ⟨haddends, hlone.1, hlone.2⟩
      · refine .nothing ⟨hmany, fun c d m h => hlone ?_⟩
        obtain ⟨heq, hlt, hoffset⟩ := h
        rw [haddends] at heq
        simp only [List.cons.injEq, Addend.mk.injEq, Part.mod.injEq] at heq
        exact ⟨heq.1.2.2 ▸ hlt, hoffset⟩
    · rename_i hother
      exact .nothing ⟨hmany, fun c d m h => hother c d m h.addends⟩

end Kinds

/-! ## One variable -/

section Variable

variable {D : Dims} {ix : Index} {v : LoopVar} {i : ℕ} {ts : List AddedTerm}

/-- A variable is refused : several remainders that are no chain of digits, a negative multiple of
a remainder, or a term that ends below its value at 1. -/
inductive Rejected (ix : Index) (v : LoopVar) : Prop
  | mods (hmany : 1 < v.term.mods.length) (h : ¬ CompleteDigits v)
  | remainder (hrange : 1 < v.range) (coeff : ℤ) (divisor modulus : ℕ)
      (h : Lone ix v coeff divisor modulus) (hneg : coeff < 0)
  | backwards (hrange : 1 < v.range) (h : FallsThrough ix v)
      (hlt : v.term.eval v.range < v.term.eval 1)

/-- The value of the term at 1 is spread times the variable : it is zero, it lands, or it is
negative and the value at the range, which is the limit, leaves a dimension. -/
def Steps (D : Dims) (v : LoopVar) : Prop :=
  v.term.eval 1 = 0 ∨ Lands D (v.term.eval 1) ∨ v.term.eval 1 < 0 ∧ 1 < v.term.eval v.range

/-- A variable is represented : a chain of digits or a remainder that land, or a multiple of the
variable in its range. -/
inductive Represented (D : Dims) (ix : Index) (v : LoopVar) : Prop
  | digits (hmany : 1 < v.term.mods.length) (h : CompleteDigits v)
      (hlands : ∀ d ∈ v.term.mods, Lands D d.coeff)
  | remainder (coeff : ℤ) (divisor modulus : ℕ) (h : Lone ix v coeff divisor modulus)
      (hlands : divisor < v.range → Lands D coeff)
  | multiple (h : FallsThrough ix v) (hlinear : ∀ x < v.range, v.term.eval x = x * v.term.eval 1)
      (hsteps : Steps D v)

/-- The calls of `add_term` for a variable. -/
inductive Adds (ix : Index) (v : LoopVar) (i : ℕ) : List AddedTerm → Prop
  | skipped (hrange : v.range ≤ 1) (h : 1 < v.term.mods.length → CompleteDigits v) :
      Adds ix v i []
  | digits (hrange : 1 < v.range) (hmany : 1 < v.term.mods.length) (h : CompleteDigits v)
      (digits : List Digit) (hperm : digits.Perm v.term.mods) :
      Adds ix v i (digits.map fun d => remainderTerm i d.coeff d.divisor d.modulus)
  | remainder (hrange : 1 < v.range) (coeff : ℤ) (divisor modulus : ℕ)
      (h : Lone ix v coeff divisor modulus) :
      Adds ix v i [remainderTerm i coeff divisor modulus]
  | whole (hrange : 1 < v.range) (h : FallsThrough ix v) :
      Adds ix v i [wholeTerm i v]

variable {divisor modulus : ℕ} {pt : ℕ → ℕ} {coeff : ℤ}

theorem eval_remainderTerm :
    (remainderTerm i coeff divisor modulus).node.eval pt = pt i / divisor % modulus :=
  rfl

theorem Lone.length_mods (h : Lone ix v coeff divisor modulus) :
    v.term.mods.length = 1 := by
  rw [VarTerm.mods, h.addends]
  rfl

theorem Lone.normal (h : Lone ix v coeff divisor modulus) :
    coeff ≠ 0 ∧ 0 < divisor ∧ 1 < modulus :=
  v.term.normal ⟨coeff, .mod divisor modulus⟩ (by rw [h.addends]; exact mem_cons_self)

theorem Lone.eval (h : Lone ix v coeff divisor modulus) (x : ℕ) :
    v.term.eval x = coeff * ((x / divisor % modulus : ℕ) : ℤ) := by
  rw [VarTerm.eval, h.addends]
  simp [Part.eval]

variable (ix v i) in
theorem varTerms_cases :
    (∃ e, varTerms ix v i = .error e ∧ 1 < v.term.mods.length ∧ ¬ CompleteDigits v) ∨
      ∃ ts, varTerms ix v i = .ok ts ∧ Adds ix v i ts := by
  have hfinds : Finds ix v (findRepeat ix v) := finds_findRepeat
  unfold varTerms
  generalize findRepeat ix v = found at hfinds ⊢
  cases hfinds with
  | incomplete hmany h e => exact Or.inl ⟨e, rfl, hmany, h⟩
  | digits hmany h digits hperm =>
    by_cases hrange : v.range ≤ 1
    · exact Or.inr ⟨[], if_pos hrange, .skipped hrange fun _ => h⟩
    · exact Or.inr ⟨_, if_neg hrange, .digits (not_le.mp hrange) hmany h digits hperm⟩
  | remainder coeff divisor modulus h =>
    have hrange : ¬ v.range ≤ 1 := by
      have hmod := h.normal.2.2
      have hlt := h.lt
      omega
    exact Or.inr ⟨_, if_neg hrange, .remainder (not_le.mp hrange) coeff divisor modulus h⟩
  | nothing h =>
    by_cases hrange : v.range ≤ 1
    · exact Or.inr ⟨[], if_pos hrange, .skipped hrange fun hmany => absurd hmany h.mods⟩
    · exact Or.inr ⟨_, if_neg hrange, .whole (not_le.mp hrange) h⟩

theorem step_le_limit_iff (hrange : 1 < v.range) :
    v.term.eval 1 ≤ v.limit ↔ v.term.eval 1 ≤ v.term.eval v.range := by
  unfold LoopVar.limit
  split_ifs with h
  · obtain ⟨hpos, haddends⟩ := h
    have heval : v.term.eval v.range = v.term.eval 1 * v.range := by
      conv_lhs => rw [VarTerm.eval, haddends]
      simp [Part.eval]
    rw [heval]
    have hrange' : (1 : ℤ) < v.range := by exact_mod_cast hrange
    constructor
    · intro _
      nlinarith
    · intro _
      nlinarith
  · rfl

/-- No call runs backwards exactly when the variable is not refused. -/
theorem Adds.forall_le_iff (h : Adds ix v i ts) :
    (∀ t ∈ ts, t.step ≤ t.limit) ↔ ¬ Rejected ix v := by
  cases h with
  | skipped hrange hmods =>
    refine iff_of_true (by simp) ?_
    rintro (⟨hmany, hnot⟩ | ⟨hwide, _⟩ | ⟨hwide, _⟩)
    · exact hnot (hmods hmany)
    · omega
    · omega
  | digits hrange hmany hdigits digits hperm =>
    refine iff_of_true (fun t ht => ?_) ?_
    · obtain ⟨d, hd, rfl⟩ := mem_map.mp ht
      have hpos := hdigits.pos d (hperm.mem_iff.mp hd)
      have hmod := (normal_of_mem_mods (hperm.mem_iff.mp hd)).2
      have hmod' : (1 : ℤ) < d.modulus := by exact_mod_cast hmod
      unfold remainderTerm
      dsimp only
      nlinarith
    · rintro (⟨-, hnot⟩ | ⟨-, c, d, m, hlone, -⟩ | ⟨-, hfalls, -⟩)
      · exact hnot hdigits
      · have := hlone.length_mods
        omega
      · exact hfalls.mods hmany
  | remainder hrange coeff divisor modulus hlone =>
    obtain ⟨hne, -, hmod⟩ := hlone.normal
    have hmod' : (1 : ℤ) < modulus := by exact_mod_cast hmod
    rw [forall_mem_singleton]
    unfold remainderTerm
    dsimp only
    constructor
    · rintro hle (⟨hmany, -⟩ | ⟨-, c, d, m, hlone', hneg⟩ | ⟨-, hfalls, -⟩)
      · have := hlone.length_mods
        omega
      · have haddends := hlone.addends.symm.trans hlone'.addends
        simp only [List.cons.injEq, Addend.mk.injEq] at haddends
        rw [← haddends.1.1] at hneg
        nlinarith
      · exact hfalls.lone _ _ _ hlone
    · intro hnot
      have hpos : 0 < coeff := by
        by_contra hle
        exact hnot (.remainder hrange coeff divisor modulus hlone (by omega))
      nlinarith
  | whole hrange hfalls =>
    rw [forall_mem_singleton, wholeTerm, step_le_limit_iff hrange]
    constructor
    · rintro hle (⟨hmany, -⟩ | ⟨-, c, d, m, hlone, -⟩ | ⟨-, -, hlt⟩)
      · exact hfalls.mods hmany
      · exact hfalls.lone _ _ _ hlone
      · omega
    · intro hnot
      by_contra hlt
      exact hnot (.backwards hrange hfalls (by omega))

/-- What a call adds to the sum. -/
noncomputable def gain (D : Dims) (t : AddedTerm) (pt : ℕ → ℕ) : ℤ :=
  contribution D t.node t.step (some t.limit) pt

/-- What the calls for a variable add to the sum. -/
noncomputable def gains (D : Dims) (ts : List AddedTerm) (pt : ℕ → ℕ) : ℤ :=
  (ts.map fun t => gain D t pt).sum

theorem VarTerm.eval_zero (t : VarTerm) : t.eval 0 = 0 := by
  refine sum_eq_zero fun x hx => ?_
  obtain ⟨a, -, rfl⟩ := mem_map.mp hx
  cases a.part <;> simp [Part.eval]

/-- The calls refer to variable `i` only, and add nothing where it is zero. -/
theorem Adds.gains_zero (h : Adds ix v i ts) (hpt : pt i = 0) : gains D ts pt = 0 := by
  refine sum_eq_zero fun x hx => ?_
  obtain ⟨t, ht, rfl⟩ := mem_map.mp hx
  refine contribution_of_eval_zero ?_
  cases h with
  | skipped _ _ => cases ht
  | digits _ _ _ digits _ =>
    obtain ⟨d, hd, rfl⟩ := mem_map.mp ht
    rw [eval_remainderTerm, hpt, Nat.zero_div, Nat.zero_mod]
  | remainder _ coeff divisor modulus _ =>
    obtain rfl := mem_singleton.mp ht
    rw [eval_remainderTerm, hpt, Nat.zero_div, Nat.zero_mod]
  | whole _ _ =>
    obtain rfl := mem_singleton.mp ht
    exact hpt

theorem Steps.gain_eq (hD : Nested D) (h : Steps D v) :
    gain D (wholeTerm i v) pt = pt i * v.term.eval 1 := by
  rcases h with hzero | hlands | ⟨hneg, hlimit⟩
  · rw [hzero, mul_zero]
    exact contribution_of_zero (by rw [wholeTerm, hzero, mul_zero])
  · exact contribution_of_lands hD hlands
  · have hlimit' : 1 < v.limit := by rwa [LoopVar.limit, if_neg (by omega)]
    exact (contribution_of_neg hD hneg v.limit).trans (if_pos hlimit')

theorem steps_of_gain (hD : Nested D) (hpt : pt i = 1)
    (h : gain D (wholeTerm i v) pt = v.term.eval 1) : Steps D v := by
  rcases lt_trichotomy (v.term.eval 1) 0 with hneg | hzero | hpos
  · have hgain := (contribution_of_neg hD hneg v.limit).symm.trans h
    split_ifs at hgain with hlimit
    · rw [LoopVar.limit, if_neg (by omega)] at hlimit
      exact Or.inr (Or.inr ⟨hneg, hlimit⟩)
    · omega
  · exact Or.inl hzero
  · have hone : Node.eval pt (.var i) = 1 := hpt
    exact Or.inr (Or.inl (lands_of_contribution hD hpos hone h))

/-- A represented variable is reproduced. -/
theorem Adds.gains_eq (hD : Nested D) (h : Adds ix v i ts)
    (hrep : 1 < v.range → Represented D ix v) (hpt : pt i < v.range) :
    gains D ts pt = v.term.eval (pt i) := by
  cases h with
  | skipped hrange _ =>
    obtain hzero : pt i = 0 := by omega
    rw [hzero, VarTerm.eval_zero]
    rfl
  | digits hrange hmany hdigits digits hperm =>
    cases hrep hrange with
    | remainder c d m hlone _ =>
      have := hlone.length_mods
      omega
    | multiple hfalls _ _ => exact absurd hmany hfalls.mods
    | digits _ _ hlands =>
      rw [hdigits.eval, gains, map_map, ← (hperm.map _).sum_eq]
      refine congrArg sum (map_congr_left fun d hd => ?_)
      exact (contribution_of_lands hD (hlands d (hperm.mem_iff.mp hd))).trans (mul_comm _ _)
  | remainder hrange coeff divisor modulus hlone =>
    rw [hlone.eval, gains, map_singleton, sum_singleton]
    cases hrep hrange with
    | digits hmany _ _ =>
      have := hlone.length_mods
      omega
    | multiple hfalls _ _ => exact absurd hlone (hfalls.lone _ _ _)
    | remainder c d m hlone' hlands =>
      have haddends := hlone.addends.symm.trans hlone'.addends
      simp only [List.cons.injEq, Addend.mk.injEq, Part.mod.injEq, and_true] at haddends
      obtain ⟨rfl, rfl, rfl⟩ := haddends
      by_cases hlt : divisor < v.range
      · exact (contribution_of_lands hD (hlands hlt)).trans (mul_comm _ _)
      · have hzero : pt i / divisor % modulus = 0 := by
          rw [Nat.div_eq_of_lt (by omega), Nat.zero_mod]
        rw [hzero, Nat.cast_zero, mul_zero]
        exact contribution_of_eval_zero hzero
  | whole hrange hfalls =>
    rw [gains, map_singleton, sum_singleton]
    cases hrep hrange with
    | digits hmany _ _ => exact absurd hmany hfalls.mods
    | remainder c d m hlone _ => exact absurd hlone (hfalls.lone _ _ _)
    | multiple _ hlinear hsteps => rw [hlinear _ hpt, hsteps.gain_eq hD]

/-- Two functions that are zero off `d` and have the same sum over a list with `d` agree at
`d`. -/
theorem eq_of_sum_eq {α : Type} [DecidableEq α] {l : List α} {d : α} (hd : d ∈ l) {f g : α → ℤ}
    (hf : ∀ e, e ≠ d → e ∈ l → f e = 0) (hg : ∀ e, e ≠ d → e ∈ l → g e = 0)
    (h : (l.map f).sum = (l.map g).sum) : f d = g d := by
  rw [sum_map_eq_nsmul_single d f hf, sum_map_eq_nsmul_single d g hg] at h
  exact (nsmul_right_inj (count_pos_iff.mpr hd).ne').mp h

/-- A variable that is reproduced is represented. -/
theorem Adds.represented (hD : Nested D) (h : Adds ix v i ts)
    (hle : ∀ t ∈ ts, t.step ≤ t.limit) (hrange : 1 < v.range)
    (hall : ∀ x < v.range, ∃ pt, pt i = x ∧ gains D ts pt = v.term.eval x) :
    Represented D ix v := by
  cases h with
  | skipped hle _ => omega
  | digits _ hmany hdigits digits hperm =>
    refine .digits hmany hdigits fun d hd => ?_
    -- At its divisor the digit is one and the others are zero.
    obtain ⟨hlt, hone, hothers⟩ := hdigits.chain.eval_divisor (by omega) hd
    obtain ⟨pt, hpt, hsum⟩ := hall d.divisor hlt
    rw [gains, map_map, hdigits.eval, ← (hperm.map _).sum_eq] at hsum
    have hself := eq_of_sum_eq (hperm.mem_iff.mpr hd) (fun e hne he => ?_) (fun e hne he => ?_) hsum
    · rw [hone, Nat.cast_one, mul_one] at hself
      have heval : (remainderTerm i d.coeff d.divisor d.modulus).node.eval pt = 1 := by
        rw [eval_remainderTerm, hpt, hone]
      exact lands_of_contribution hD (hdigits.pos d hd) heval hself
    · refine contribution_of_eval_zero ?_
      rw [eval_remainderTerm, hpt, hothers e (hperm.mem_iff.mp he) hne]
    · rw [hothers e (hperm.mem_iff.mp he) hne, Nat.cast_zero, mul_zero]
  | remainder _ coeff divisor modulus hlone =>
    refine .remainder coeff divisor modulus hlone fun hlt => ?_
    obtain ⟨hne, hdivisor, hmod⟩ := hlone.normal
    have hle := hle _ (mem_singleton_self _)
    have hone : divisor / divisor % modulus = 1 := by
      rw [Nat.div_self hdivisor, Nat.mod_eq_of_lt hmod]
    obtain ⟨pt, hpt, hsum⟩ := hall divisor hlt
    rw [gains, map_singleton, sum_singleton, hlone.eval, hone, Nat.cast_one, mul_one] at hsum
    have hpos : 0 < coeff := by
      have hmod' : (1 : ℤ) < modulus := by exact_mod_cast hmod
      rw [remainderTerm] at hle
      dsimp only at hle
      rcases lt_or_gt_of_ne hne with hneg | hpos
      · nlinarith
      · exact hpos
    have heval : (remainderTerm i coeff divisor modulus).node.eval pt = 1 := by
      rw [eval_remainderTerm, hpt, hone]
    exact lands_of_contribution hD hpos heval hsum
  | whole _ hfalls =>
    simp only [gains, map_singleton, sum_singleton] at hall
    obtain ⟨pt, hpt, hone⟩ := hall 1 hrange
    have hsteps : Steps D v := steps_of_gain hD hpt hone
    refine .multiple hfalls (fun x hx => ?_) hsteps
    obtain ⟨pt, hpt, hsum⟩ := hall x hx
    rw [← hsum, hsteps.gain_eq hD, hpt]

end Variable

/-! ## All variables -/

section All

variable {D : Dims} {ix : Index}

/-- Every variable has a value in its range. -/
def Index.InRange (ix : Index) (pt : ℕ → ℕ) : Prop :=
  ∀ v ∈ ix.vars.zipIdx, pt v.2 < v.1.range

/-- The calls of `add_term` for a variable that is not refused. -/
def callsOf (ix : Index) (v : LoopVar × ℕ) : List AddedTerm :=
  match varTerms ix v.1 v.2 with
  | .ok ts => ts
  | .error _ => []

theorem foldE_addTerm_cases (coords : Coordinates) (ts : List AddedTerm) :
    (∃ coords', foldE (addCall D) coords ts = .ok coords' ∧ (∀ t ∈ ts, t.step ≤ t.limit) ∧
      ∀ pt, sumAt D coords' pt = sumAt D coords pt + gains D ts pt) ∨
    ∃ e, foldE (addCall D) coords ts = .error e ∧ ∃ t ∈ ts, t.limit < t.step := by
  refine foldE_cases (s := coords) (I := fun done c => (∀ t ∈ done, t.step ≤ t.limit) ∧
      ∀ pt, sumAt D c pt = sumAt D coords pt + gains D done pt)
    (E := fun _ => ∃ t ∈ ts, t.limit < t.step) (fun pre t post c hsplit _ hI => ?_)
    ⟨by simp, by simp [gains]⟩
  rcases addTerm_cases c t.limit with ⟨c', hok, hle, hsum⟩ | ⟨e, herr, hlt⟩
  · refine Or.inl ⟨c', hok, fun u hu => ?_, fun pt => ?_⟩
    · rcases mem_append.mp hu with hu | hu
      · exact hI.1 u hu
      · exact mem_singleton.mp hu ▸ hle
    · rw [hsum, hI.2, gains, gains, map_append, sum_append, map_singleton, sum_singleton, add_assoc]
      rfl
  · exact Or.inr ⟨e, herr, t, by simp [hsplit], hlt⟩

/-- The calls for a variable succeed exactly when it is not refused. -/
theorem addVar_cases (coords : Coordinates) (v : LoopVar × ℕ) :
    (∃ coords', addVar D ix coords v = .ok coords' ∧
      ((¬ Rejected ix v.1 ∧ Adds ix v.1 v.2 (callsOf ix v)) ∧
        ∀ pt, sumAt D coords' pt = sumAt D coords pt + gains D (callsOf ix v) pt)) ∨
    ∃ e, addVar D ix coords v = .error e ∧ Rejected ix v.1 := by
  rcases varTerms_cases ix v.1 v.2 with ⟨e, hterms, hmany, hnot⟩ | ⟨ts, hterms, hadds⟩
  · refine Or.inr ⟨e, ?_, .mods hmany hnot⟩
    rw [addVar, hterms]
    rfl
  · have hadded : callsOf ix v = ts := by rw [callsOf, hterms]
    have hrun : addVar D ix coords v = foldE (addCall D) coords ts := by
      rw [addVar, hterms]
      rfl
    rw [hrun, hadded]
    rcases foldE_addTerm_cases (D := D) coords ts with ⟨coords', hok, hle, hsum⟩ | ⟨e, herr, hlt⟩
    · exact Or.inl ⟨coords', hok, ⟨hadds.forall_le_iff.mp hle, hadds⟩, hsum⟩
    · refine Or.inr ⟨e, herr, ?_⟩
      by_contra hnot
      obtain ⟨t, ht, hlt⟩ := hlt
      exact absurd (hadds.forall_le_iff.mpr hnot t ht) (not_le.mpr hlt)

variable (ix) in
/-- A call succeeds exactly when no variable is refused. -/
theorem computeCoordinates_cases (hD : Nested D) :
    (∃ coords, computeCoordinates D ix = .ok coords ∧
      (∀ v ∈ ix.vars.zipIdx, ¬ Rejected ix v.1 ∧ Adds ix v.1 v.2 (callsOf ix v)) ∧
        ∀ pt, sumAt D coords pt =
          ix.offset + (ix.vars.zipIdx.map fun v => gains D (callsOf ix v) pt).sum) ∨
    ∃ e, computeCoordinates D ix = .error e ∧ ∃ v ∈ ix.vars, Rejected ix v := by
  obtain ⟨start, hstart, hoffset⟩ := exists_offsetCoordinates hD ix.offset
  rw [computeCoordinates, hstart]
  refine foldE_cases (s := start) (I := fun done c =>
      (∀ v ∈ done, ¬ Rejected ix v.1 ∧ Adds ix v.1 v.2 (callsOf ix v)) ∧
        ∀ pt, sumAt D c pt = ix.offset + (done.map fun v => gains D (callsOf ix v) pt).sum)
    (E := fun _ => ∃ v ∈ ix.vars, Rejected ix v) (fun pre v post c hsplit _ hI => ?_)
    ⟨by simp, by simp [hoffset]⟩
  rcases addVar_cases (D := D) c v with ⟨c', hok, hv, hsum⟩ | ⟨e, herr, hv⟩
  · refine Or.inl ⟨c', hok, fun w hw => ?_, fun pt => ?_⟩
    · rcases mem_append.mp hw with hw | hw
      · exact hI.1 w hw
      · exact mem_singleton.mp hw ▸ hv
    · rw [hsum, hI.2]
      simp [add_assoc]
  · have hmem : v ∈ ix.vars.zipIdx := by simp [hsplit]
    exact Or.inr ⟨e, herr, v.1, fst_mem_of_mem_zipIdx hmem, hv⟩

/-- An index that is reproduced at every point is reproduced variable by variable. -/
theorem gains_eq_of_forall (hrange : ∀ v ∈ ix.vars, v.range ≠ 0)
    (hadds : ∀ v ∈ ix.vars.zipIdx, ¬ Rejected ix v.1 ∧ Adds ix v.1 v.2 (callsOf ix v))
    (h : ∀ pt, ix.InRange pt → (ix.vars.zipIdx.map fun v => gains D (callsOf ix v) pt).sum =
      (ix.vars.zipIdx.map fun v => v.1.term.eval (pt v.2)).sum)
    {v : LoopVar × ℕ} (hv : v ∈ ix.vars.zipIdx) {x : ℕ} (hx : x < v.1.range) :
    ∃ pt, pt v.2 = x ∧ gains D (callsOf ix v) pt = v.1.term.eval x := by
  have hself : (Pi.single v.2 x : ℕ → ℕ) v.2 = x := by simp
  have hother : ∀ j, j ≠ v.2 → (Pi.single v.2 x : ℕ → ℕ) j = 0 := fun j hj => by simp [hj]
  have hin : ix.InRange (Pi.single v.2 x) := by
    intro w hw
    by_cases hwv : w.2 = v.2
    · have heq : w.1 = v.1 := by
        have hw' := mem_zipIdx_iff_getElem?.mp hw
        have hv' := mem_zipIdx_iff_getElem?.mp hv
        rw [hwv, hv'] at hw'
        exact (Option.some.inj hw').symm
      rw [hwv, hself, heq]
      exact hx
    · rw [hother _ hwv]
      exact Nat.pos_of_ne_zero (hrange w.1 (fst_mem_of_mem_zipIdx hw))
  have hsum := h _ hin
  rw [sum_zipIdx_single hv fun w hw hne => (hadds w hw).2.gains_zero (hother _ hne),
    sum_zipIdx_single hv fun w _ hne => by rw [hother _ hne, VarTerm.eval_zero], hself] at hsum
  exact ⟨_, hself, hsum⟩

/-- A call that succeeds refused no variable, and reproduces the index where there is no point or
every variable is represented. -/
theorem computeCoordinates_eq_ok (hD : Nested D) {coords : Coordinates}
    (h : computeCoordinates D ix = .ok coords) :
    (∀ v ∈ ix.vars, ¬ Rejected ix v) ∧
      ((∀ pt, ix.InRange pt → sumAt D coords pt = ix.eval pt) ↔
        (∃ v ∈ ix.vars, v.range = 0) ∨ ∀ v ∈ ix.vars, 1 < v.range → Represented D ix v) := by
  rcases computeCoordinates_cases ix hD with ⟨coords', hok, hadds, hsum⟩ | ⟨e, herr, -⟩
  · obtain rfl := Except.ok.inj (hok.symm.trans h)
    have hmem : ∀ v ∈ ix.vars, ∃ i, (v, i) ∈ ix.vars.zipIdx := fun v hv => by
      obtain ⟨i, hi⟩ := mem_iff_getElem?.mp hv
      exact ⟨i, mem_zipIdx_iff_getElem?.mpr hi⟩
    have hle : ∀ v ∈ ix.vars.zipIdx, ∀ t ∈ callsOf ix v, t.step ≤ t.limit := fun v hv =>
      (hadds v hv).2.forall_le_iff.mpr (hadds v hv).1
    refine ⟨fun v hv => ?_, fun hall => ?_, fun hrep pt hpt => ?_⟩
    · obtain ⟨i, hi⟩ := hmem v hv
      exact (hadds (v, i) hi).1
    · by_contra hneither
      obtain ⟨hrange, hrep⟩ := not_or.mp hneither
      push Not at hrange
      refine hrep fun v hv hwide => ?_
      obtain ⟨i, hi⟩ := hmem v hv
      refine (hadds _ hi).2.represented hD (hle _ hi) hwide fun x hx => ?_
      refine gains_eq_of_forall hrange hadds (fun pt hpt => ?_) hi hx
      have heq := hall pt hpt
      rw [hsum, Index.eval] at heq
      exact add_left_cancel heq
    · rcases hrep with ⟨v, hv, hzero⟩ | hrep
      · obtain ⟨i, hi⟩ := hmem v hv
        exact absurd hzero (Nat.ne_of_gt (Nat.zero_lt_of_lt (hpt (v, i) hi)))
      · rw [hsum, Index.eval]
        congr 2
        refine map_congr_left fun v hv => ?_
        exact (hadds v hv).2.gains_eq hD (hrep v.1 (fst_mem_of_mem_zipIdx hv)) (hpt v hv)
  · exact nomatch herr.symm.trans h

/-- A call refuses the index or its coordinates times the strides are the index at every point,
exactly when a variable is refused, there is no point, or every variable is represented. -/
theorem computeCoordinates_faithful_iff (D : Dims) (hD : Nested D) (ix : Index) :
    (∀ coords, computeCoordinates D ix = .ok coords →
      ∀ pt, ix.InRange pt → sumAt D coords pt = ix.eval pt) ↔
      (∃ v ∈ ix.vars, Rejected ix v) ∨ (∃ v ∈ ix.vars, v.range = 0) ∨
        ∀ v ∈ ix.vars, 1 < v.range → Represented D ix v := by
  rcases computeCoordinates_cases ix hD with ⟨coords, hok, -⟩ | ⟨e, herr, hrejected⟩
  · obtain ⟨hnot, hiff⟩ := computeCoordinates_eq_ok hD hok
    rw [or_iff_right fun ⟨v, hv, hrejected⟩ => hnot v hv hrejected, ← hiff]
    refine ⟨fun hall => hall coords hok, fun hall coords' hok' => ?_⟩
    exact Except.ok.inj (hok.symm.trans hok') ▸ hall
  · refine iff_of_true (fun coords hok => ?_) (Or.inl hrejected)
    exact nomatch herr.symm.trans hok

/-- A row of eight elements. -/
def row : Dims where
  n := 1
  size _ := 8
  stride _ := 1

/-- The index `Mod(v, 4) + 4 * FloorDiv(v, 4)`, with eight values of `v`. -/
def splitRow : Index where
  offset := 0
  vars := [⟨"v", 8, ⟨[⟨1, .mod 1 4⟩, ⟨4, .floorDiv 4⟩], by decide, by decide⟩⟩]

theorem computeCoordinates_faithful_splitRow :
    ∃ coords, computeCoordinates row splitRow = .ok coords ∧ splitRow.InRange (fun _ => 6) ∧
      sumAt row coords (fun _ => 6) = splitRow.eval (fun _ => 6) := by
  have hnested : Nested row := ⟨by decide, by decide, by decide, by decide⟩
  have hin : splitRow.InRange fun _ => 6 := by simp [Index.InRange, splitRow]
  refine ⟨_, rfl, hin, (computeCoordinates_faithful_iff row hnested splitRow).mpr
    (Or.inr (Or.inr fun v hv _ => ?_)) _ rfl _ hin⟩
  obtain rfl := mem_singleton.mp hv
  refine .multiple ⟨by decide, fun c d m h => ?_⟩ (by decide)
    (Or.inr (Or.inl ⟨0, ?_, by decide, by decide⟩))
  · simpa using h.addends
  · exact ⟨by decide, by decide, by decide, by decide, by decide⟩

/-- The index `FloorDiv(v, 2)`, with four values of `v` : each element is read twice. -/
def interleaved : Index where
  offset := 0
  vars := [⟨"v", 4, ⟨[⟨1, .floorDiv 2⟩], by decide, by decide⟩⟩]

/-- The coordinate of `FloorDiv(v, 2)` is zero. -/
theorem interleaved_dropped :
    Nested row ∧ ∃ coords, computeCoordinates row interleaved = .ok coords ∧
      interleaved.InRange (fun _ => 2) ∧ sumAt row coords (fun _ => 2) = 0 ∧
        interleaved.eval (fun _ => 2) = 1 :=
  ⟨⟨by decide, by decide, by decide, by decide⟩, _, rfl,
    by simp [Index.InRange, interleaved], by decide +kernel, by decide⟩

end All

end Views

end TorchSpyre
