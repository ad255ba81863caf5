import Mathlib
import TorchSpyre.Checked

/-!
# Signed 64-bit arithmetic

A signed 64-bit operation whose result does not fit has no result in C++, and two's complement
hardware wraps it. A program written over an arbitrary `fit : ℤ → Except Overflow ℤ`, applied to
every result, can be run with `checked` or with `wrapped`. Where the checked run ends, so does the
wrapped one, in the same way.
-/

namespace Words

open Checked

/-- An integer a signed 64-bit word can hold. -/
def Fits (x : ℤ) : Prop :=
  -2 ^ 63 ≤ x ∧ x < 2 ^ 63

instance : DecidablePred Fits := fun x => by
  unfold Fits
  infer_instance

/-- A result that does not fit. -/
inductive Overflow where
  | overflow
deriving DecidableEq

/-- The result, if it fits. -/
def checked (x : ℤ) : Except Overflow ℤ :=
  if Fits x then .ok x else .error .overflow

/-- The result, wrapped. -/
def wrapped (x : ℤ) : Except Overflow ℤ :=
  .ok (Int64.ofInt x).toInt

theorem checked_of_fits {x : ℤ} (h : Fits x) : checked x = .ok x :=
  if_pos h

theorem checked_eq_ok_iff {x y : ℤ} : checked x = .ok y ↔ Fits x ∧ x = y := by
  unfold checked
  split_ifs with h <;> simp [h]

/-- An operation whose result fits can be left out. -/
theorem checked_bind {α : Type} {x : ℤ} (h : Fits x) (f : ℤ → Except Overflow α) :
    checked x >>= f = f x := by
  rw [checked_of_fits h]
  rfl

theorem fits_toInt (x : Int64) : Fits x.toInt :=
  ⟨Int64.le_toInt x, Int64.toInt_lt x⟩

theorem wrapped_of_fits {x : ℤ} (h : Fits x) : wrapped x = .ok x := by
  rw [wrapped, Int64.toInt_ofInt_of_le h.1 h.2]

section Refines

variable {ε α β : Type}

/-- Where the first ends, the second ends in the same way. -/
def Refines (x y : Except ε α) : Prop :=
  ∀ r, x = .ok r → y = .ok r

theorem Refines.refl (x : Except ε α) : Refines x x :=
  fun _ h => h

theorem Refines.bind {x y : Except ε α} {f g : α → Except ε β} (hxy : Refines x y)
    (hfg : ∀ a, Refines (f a) (g a)) : Refines (x >>= f) (y >>= g) := by
  intro r hr
  obtain ⟨a, ha, hfa⟩ := bind_eq_ok_iff.mp hr
  exact bind_eq_ok_iff.mpr ⟨a, hxy a ha, hfg a r hfa⟩

theorem Refines.ite {p : Prop} [Decidable p] {x x' y y' : Except ε α} (hx : Refines x x')
    (hy : Refines y y') : Refines (if p then x else y) (if p then x' else y') := by
  split_ifs
  · exact hx
  · exact hy

/-- One operation, and what follows it. -/
theorem Refines.fit {x : ℤ} {f g : ℤ → Except Overflow β} (hfg : ∀ a, Refines (f a) (g a)) :
    Refines (checked x >>= f) (wrapped x >>= g) := by
  refine .bind (fun r hr => ?_) hfg
  obtain ⟨hfits, rfl⟩ := checked_eq_ok_iff.mp hr
  exact wrapped_of_fits hfits

end Refines

end Words
