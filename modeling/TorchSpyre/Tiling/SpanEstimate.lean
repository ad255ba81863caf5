import Mathlib
import TorchSpyre.Contiguous

/-!
# The span estimate of a tile

`_coordinate_span_elems` in `wsr/span_overflow_hint_analysis.py` bounds the span of a device
coordinate over a tile. The coordinate is a sum of terms of one symbol each, and the span is added
up from the values of each term at a few points : the ends of the tile, and for a term with `Mod`
the points before the first wrap of each modulus as well. A term without `Mod` counts as growing.

The points are in the tile, so no term counts with more than its own span, and the estimate is
large enough exactly if every term takes its extremes at the points that are evaluated for them
(`covers_iff_reaches`). A term does if its coefficients have one sign and all its moduli are
highest at one of the points (`reaches_of_signed`). For a term of one modulus, with a step `a` for
each wrap and a step `c` in between, it is an inequality between the two and the steps that are
left in the last period (`reaches_iff_fitsPeriod`). A sum of two remainders of one symbol takes its
largest value before a later wrap.
-/

open List

namespace TorchSpyre

namespace SpanEstimate

/-- A term of one symbol. -/
inductive SymTerm where
  | const (c : ℤ)
  | sym
  | add (a b : SymTerm)
  | mul (c : ℤ) (a : SymTerm)
  | floorDiv (a : SymTerm) (d : ℕ)
  | mod (m : ℕ)

namespace SymTerm

/-- The value of a term where the symbol is `x`. -/
def eval (x : ℕ) : SymTerm → ℤ
  | const c => c
  | sym => x
  | add a b => a.eval x + b.eval x
  | mul c a => c * a.eval x
  | floorDiv a d => a.eval x / d
  | mod m => x % m

/-- The moduli of the `Mod` atoms. -/
def moduli : SymTerm → List ℕ
  | const _ => []
  | sym => []
  | add a b => a.moduli ++ b.moduli
  | mul _ a => a.moduli
  | floorDiv a _ => a.moduli
  | mod m => [m]

/-- The points at which the largest value is looked for. -/
def highPoints (t : SymTerm) (size : ℕ) : List ℕ :=
  if t.moduli = [] then [size - 1]
  else 0 :: (size - 1) :: t.moduli.map fun m => min size m - 1

/-- The points at which the smallest value is looked for. -/
def lowPoints (t : SymTerm) (size : ℕ) : List ℕ :=
  if t.moduli = [] then [0] else t.highPoints size

end SymTerm

/-- A device coordinate over `n` symbols. -/
structure Coordinate (n : ℕ) where
  constant : ℤ
  terms : Fin n → SymTerm

variable {n : ℕ}

/-- The value of a coordinate at a point. -/
def Coordinate.eval (coord : Coordinate n) (p : Fin n → ℕ) : ℤ :=
  coord.constant + ∑ i, (coord.terms i).eval (p i)

/-- The coordinate with all symbols but one set to zero. -/
def Coordinate.term (coord : Coordinate n) (i : Fin n) (x : ℕ) : ℤ :=
  coord.eval (Function.update 0 i x)

/-- The ranges of the symbols where they are known, and their splits. -/
structure Tile (n : ℕ) where
  ranges : Fin n → Option ℕ+
  splits : Fin n → ℕ

/-- The splits divide the ranges. -/
def Tile.Divides (tile : Tile n) : Prop :=
  ∀ i, ∃ r ∈ tile.ranges i, tile.splits i ∣ r

instance (tile : Tile n) : Decidable tile.Divides :=
  inferInstanceAs (Decidable (∀ i, ∃ r, r ∈ tile.ranges i ∧ tile.splits i ∣ r))

/-- The values of a symbol in a tile. -/
def Tile.size (tile : Tile n) (i : Fin n) : ℕ :=
  (tile.ranges i).elim 0 fun r => r / tile.splits i

/-- `_coordinate_span_elems`. -/
def coordinateSpanElems (coord : Coordinate n) (tile : Tile n) : Option ℤ :=
  if tile.Divides then
    let perCoreMax := ∑ i,
      ((((coord.terms i).highPoints (tile.size i)).map (coord.term i)).max?.getD 0)
    let perCoreMin := ∑ i,
      ((((coord.terms i).lowPoints (tile.size i)).map (coord.term i)).min?.getD 0)
    some (perCoreMax - perCoreMin + 1)
  else none

/-! ## What the estimate covers -/

theorem Tile.size_pos {tile : Tile n} (h : tile.Divides) (i : Fin n) : 0 < tile.size i := by
  obtain ⟨r, hr, hdvd⟩ := h i
  rw [Tile.size, Option.mem_def.mp hr, Option.elim_some]
  exact Nat.div_pos (Nat.le_of_dvd r.pos hdvd) (Nat.pos_of_dvd_of_pos hdvd r.pos)

/-- The points that are evaluated are in the tile. -/
theorem SymTerm.highPoints_lt (t : SymTerm) {size : ℕ} (h : 0 < size) :
    ∀ x ∈ t.highPoints size, x < size := by
  intro x hx
  unfold highPoints at hx
  split_ifs at hx
  · rw [mem_singleton.mp hx]
    omega
  · rcases mem_cons.mp hx with rfl | hx
    · exact h
    · rcases mem_cons.mp hx with rfl | hx
      · omega
      · obtain ⟨m, -, rfl⟩ := mem_map.mp hx
        omega

theorem SymTerm.lowPoints_lt (t : SymTerm) {size : ℕ} (h : 0 < size) :
    ∀ x ∈ t.lowPoints size, x < size := by
  intro x hx
  unfold lowPoints at hx
  split_ifs at hx
  · rwa [mem_singleton.mp hx]
  · exact t.highPoints_lt h x hx

/-- Changing one symbol changes the value of its term. -/
theorem Coordinate.eval_update (coord : Coordinate n) (p : Fin n → ℕ) (i : Fin n) (x : ℕ) :
    coord.eval (Function.update p i x) =
      coord.eval p + ((coord.terms i).eval x - (coord.terms i).eval (p i)) := by
  unfold Coordinate.eval
  rw [← Finset.add_sum_erase _ _ (Finset.mem_univ i),
    ← Finset.add_sum_erase Finset.univ (fun j => (coord.terms j).eval (p j)) (Finset.mem_univ i),
    Function.update_self, Finset.sum_congr rfl fun j hj => by
      rw [Function.update_of_ne (Finset.ne_of_mem_erase hj)]]
  ring

theorem exists_max (f : ℕ → ℤ) {l : List ℕ} (hl : l ≠ []) :
    ∃ a ∈ l, (l.map f).max?.getD 0 = f a ∧ ∀ x ∈ l, f x ≤ f a := by
  obtain ⟨hmem, hge⟩ := Lists.isGreatest_max? (mt map_eq_nil_iff.mp hl : l.map f ≠ [])
  obtain ⟨a, ha, heq⟩ := mem_map.mp hmem
  exact ⟨a, ha, heq.symm, fun x hx => heq ▸ hge (mem_map_of_mem hx)⟩

theorem exists_min (f : ℕ → ℤ) {l : List ℕ} (hl : l ≠ []) :
    ∃ a ∈ l, (l.map f).min?.getD 0 = f a ∧ ∀ x ∈ l, f a ≤ f x := by
  obtain ⟨hmem, hle⟩ := Lists.isLeast_min? (mt map_eq_nil_iff.mp hl : l.map f ≠ [])
  obtain ⟨a, ha, heq⟩ := mem_map.mp hmem
  exact ⟨a, ha, heq.symm, fun x hx => heq ▸ hle (mem_map_of_mem hx)⟩

theorem SymTerm.highPoints_ne (t : SymTerm) (size : ℕ) : t.highPoints size ≠ [] := by
  unfold highPoints
  split_ifs <;> exact cons_ne_nil _ _

theorem SymTerm.lowPoints_ne (t : SymTerm) (size : ℕ) : t.lowPoints size ≠ [] := by
  unfold lowPoints
  split_ifs
  · exact cons_ne_nil _ _
  · exact t.highPoints_ne size

/-- The estimate is the difference between two points, at which every term is largest and smallest
among the points that are evaluated for it. -/
theorem exists_points (coord : Coordinate n) {tile : Tile n} (h : tile.Divides) :
    ∃ high low : Fin n → ℕ,
      (∀ i, high i ∈ (coord.terms i).highPoints (tile.size i) ∧
        ∀ x ∈ (coord.terms i).highPoints (tile.size i),
          (coord.terms i).eval x ≤ (coord.terms i).eval (high i)) ∧
      (∀ i, low i ∈ (coord.terms i).lowPoints (tile.size i) ∧
        ∀ x ∈ (coord.terms i).lowPoints (tile.size i),
          (coord.terms i).eval (low i) ≤ (coord.terms i).eval x) ∧
      coordinateSpanElems coord tile = some (coord.eval high - coord.eval low + 1) := by
  choose high hhigh hmax hge using fun i =>
    exists_max (coord.term i) ((coord.terms i).highPoints_ne (tile.size i))
  choose low hlow hmin hle using fun i =>
    exists_min (coord.term i) ((coord.terms i).lowPoints_ne (tile.size i))
  have hterm : ∀ i x, coord.term i x =
      coord.eval 0 + ((coord.terms i).eval x - (coord.terms i).eval 0) := fun i x =>
    coord.eval_update 0 i x
  refine ⟨high, low, fun i => ⟨hhigh i, fun x hx => ?_⟩, fun i => ⟨hlow i, fun x hx => ?_⟩, ?_⟩
  · simpa [hterm] using hge i x hx
  · simpa [hterm] using hle i x hx
  · simp only [coordinateSpanElems, if_pos h, hmax, hmin, hterm, Coordinate.eval,
      Finset.sum_add_distrib, Finset.sum_sub_distrib]
    congr 1
    ring

/-- Where there is an estimate, it is at least the span of the coordinate over the tile. -/
def Coordinate.Covers (coord : Coordinate n) (tile : Tile n) : Prop :=
  ∀ b, coordinateSpanElems coord tile = some b → ∀ p q : Fin n → ℕ,
    (∀ i, p i < tile.size i) → (∀ i, q i < tile.size i) → coord.eval p - coord.eval q + 1 ≤ b

/-- A term takes its extremes at the points that are evaluated for them. -/
def SymTerm.Reaches (t : SymTerm) (size : ℕ) : Prop :=
  ∀ x < size, (∃ y ∈ t.highPoints size, t.eval x ≤ t.eval y) ∧
    ∃ y ∈ t.lowPoints size, t.eval y ≤ t.eval x

theorem covers_iff_reaches (coord : Coordinate n) (tile : Tile n) :
    coord.Covers tile ↔ ¬tile.Divides ∨ ∀ i, (coord.terms i).Reaches (tile.size i) := by
  by_cases hdiv : tile.Divides
  · obtain ⟨high, low, hhigh, hlow, hspan⟩ := exists_points coord hdiv
    have hsize := Tile.size_pos hdiv
    have hhigh_lt : ∀ i, high i < tile.size i := fun i =>
      (coord.terms i).highPoints_lt (hsize i) _ (hhigh i).1
    have hlow_lt : ∀ i, low i < tile.size i := fun i =>
      (coord.terms i).lowPoints_lt (hsize i) _ (hlow i).1
    simp only [Coordinate.Covers, hspan, Option.some.injEq, forall_eq', hdiv, not_true_eq_false,
      false_or,
      add_le_add_iff_right]
    constructor
    · -- a value beyond the points of its term, with all other terms at their points
      intro h i x hx
      have hupdate : ∀ {p : Fin n → ℕ}, (∀ j, p j < tile.size j) →
          ∀ j, Function.update p i x j < tile.size j := by
        intro p hp j
        by_cases hj : j = i
        · subst hj
          simpa using hx
        · simpa [hj] using hp j
      have hmax := h _ low (hupdate hhigh_lt) hlow_lt
      have hmin := h high _ hhigh_lt (hupdate hlow_lt)
      rw [coord.eval_update] at hmax hmin
      exact ⟨⟨high i, (hhigh i).1, by linarith⟩, low i, (hlow i).1, by linarith⟩
    · intro h p q hp hq
      have hpq : ∀ i, (coord.terms i).eval (p i) - (coord.terms i).eval (q i) ≤
          (coord.terms i).eval (high i) - (coord.terms i).eval (low i) := by
        intro i
        obtain ⟨y, hy, hle⟩ := (h i (p i) (hp i)).1
        obtain ⟨z, hz, hge⟩ := (h i (q i) (hq i)).2
        linarith [(hhigh i).2 y hy, (hlow i).2 z hz]
      have hsum := Finset.sum_le_sum fun i (_ : i ∈ Finset.univ) => hpq i
      rw [Finset.sum_sub_distrib, Finset.sum_sub_distrib] at hsum
      unfold Coordinate.eval
      linarith
  · simp [Coordinate.Covers, coordinateSpanElems, hdiv]

/-! ## Terms of one sign -/

namespace SymTerm

/-- The term grows with the symbol and its remainders (`up`), or shrinks with them. -/
def Signed : Bool → SymTerm → Prop
  | _, const _ => True
  | up, sym => up = true
  | up, add a b => a.Signed up ∧ b.Signed up
  | up, mul c a => c = 0 ∨ 0 < c ∧ a.Signed up ∨ c < 0 ∧ a.Signed !up
  | up, floorDiv a _ => a.Signed up
  | up, mod _ => up = true

/-- The symbol occurs outside `Mod`. -/
def HasSym : SymTerm → Prop
  | const _ => False
  | sym => True
  | add a b => a.HasSym ∨ b.HasSym
  | mul _ a => a.HasSym
  | floorDiv a _ => a.HasSym
  | mod _ => False

/-- All remainders, and the symbol itself where it occurs, are highest at `level - 1` : the level
is the size of the tile or one of the moduli, every modulus divides it or does not wrap at all. -/
structure Level (t : SymTerm) (size level : ℕ) : Prop where
  pos : 0 < level
  mem : level = size ∨ level ∈ t.moduli ∧ level ≤ size
  moduli : ∀ m ∈ t.moduli, m ∣ level ∨ level = size ∧ size ≤ m
  bare : t.HasSym → level = size

theorem eval_le {x y : ℕ} : ∀ {t : SymTerm} {up : Bool}, t.Signed up → (t.HasSym → x ≤ y) →
    (∀ m ∈ t.moduli, x % m ≤ y % m) → if up then t.eval x ≤ t.eval y else t.eval y ≤ t.eval x
  | const c, up, _, _, _ => by cases up <;> exact le_rfl
  | sym, _, rfl, hsym, _ => Int.ofNat_le.mpr (hsym trivial)
  | add a b, up, ⟨ha, hb⟩, hsym, hmod => by
    have hle := eval_le ha (fun h => hsym (Or.inl h)) fun m hm => hmod m (mem_append_left _ hm)
    have hle' := eval_le hb (fun h => hsym (Or.inr h)) fun m hm => hmod m (mem_append_right _ hm)
    cases up with
    | true => exact add_le_add hle hle'
    | false => exact add_le_add hle hle'
  | mul c a, up, h, hsym, hmod => by
    rcases h with rfl | ⟨hc, ha⟩ | ⟨hc, ha⟩
    · cases up <;> simp [eval]
    · have hle := eval_le ha hsym hmod
      cases up with
      | true => exact mul_le_mul_of_nonneg_left hle hc.le
      | false => exact mul_le_mul_of_nonneg_left hle hc.le
    · have hle := eval_le ha hsym hmod
      cases up with
      | true => exact mul_le_mul_of_nonpos_left hle hc.le
      | false => exact mul_le_mul_of_nonpos_left hle hc.le
  | floorDiv a d, up, h, hsym, hmod => by
    have ha : a.Signed up := h
    have hle := eval_le ha hsym hmod
    rcases Nat.eq_zero_or_pos d with rfl | hd
    · cases up <;> simp [eval]
    · cases up with
      | true => exact Int.ediv_le_ediv (Int.ofNat_lt.mpr hd) hle
      | false => exact Int.ediv_le_ediv (Int.ofNat_lt.mpr hd) hle
  | mod m, _, rfl, _, hmod => by
    have := hmod m (mem_singleton_self m)
    simp only [eval, if_true]
    omega

theorem zero_mem_lowPoints (t : SymTerm) (size : ℕ) : 0 ∈ t.lowPoints size := by
  unfold lowPoints highPoints
  split_ifs
  · exact mem_singleton_self 0
  · exact mem_cons_self

theorem lowPoints_of_moduli {t : SymTerm} (h : t.moduli ≠ []) (size : ℕ) :
    t.lowPoints size = t.highPoints size :=
  if_neg h

theorem Level.mem_highPoints {t : SymTerm} {size level : ℕ} (h : t.Level size level) :
    level - 1 ∈ t.highPoints size := by
  unfold highPoints
  split_ifs with hnil
  · rcases h.mem with rfl | ⟨hmem, -⟩
    · exact mem_singleton_self _
    · rw [hnil] at hmem
      exact absurd hmem not_mem_nil
  · rcases h.mem with rfl | ⟨hmem, hle⟩
    · exact mem_cons_of_mem _ mem_cons_self
    · refine mem_cons_of_mem _ (mem_cons_of_mem _ (mem_map.mpr ⟨level, hmem, ?_⟩))
      rw [min_eq_right hle]

/-- A term of one sign takes its extremes at zero and at its level. A term without `Mod` has to
grow. -/
theorem reaches_of_signed {t : SymTerm} {size level : ℕ} {up : Bool} (hsign : t.Signed up)
    (hup : t.moduli = [] → up = true) (hlevel : t.Level size level) : t.Reaches size := by
  intro x hx
  have hzero := eval_le (x := 0) (y := x) hsign (fun _ => Nat.zero_le x) fun m _ =>
    (Nat.zero_mod m).trans_le (Nat.zero_le _)
  have hpos := hlevel.pos
  have htop := eval_le (x := x) (y := level - 1) hsign
    (fun hsym => by
      have := hlevel.bare hsym
      omega)
    fun m hm => by
      rcases hlevel.moduli m hm with ⟨q, hq⟩ | ⟨heq, hle⟩
      · have hm : 0 < m := Nat.pos_of_mul_pos_right (hq ▸ hpos)
        obtain ⟨q, rfl⟩ := Nat.exists_eq_succ_of_ne_zero (Nat.pos_of_mul_pos_left (hq ▸ hpos)).ne'
        have hlast : level - 1 = m - 1 + m * q := by
          rw [hq, Nat.mul_succ]
          omega
        rw [hlast, Nat.add_mul_mod_self_left, Nat.mod_eq_of_lt (Nat.sub_one_lt hm.ne')]
        exact Nat.le_sub_one_of_lt (Nat.mod_lt x hm)
      · rw [Nat.mod_eq_of_lt (hx.trans_le hle), Nat.mod_eq_of_lt (by omega)]
        omega
  cases up with
  | true => exact ⟨⟨_, hlevel.mem_highPoints, htop⟩, 0, t.zero_mem_lowPoints size, hzero⟩
  | false =>
    have hlow := lowPoints_of_moduli (fun hnil => by simpa using hup hnil) size
    refine ⟨⟨0, hlow ▸ t.zero_mem_lowPoints size, hzero⟩, level - 1, ?_, htop⟩
    rw [hlow]
    exact hlevel.mem_highPoints

/-! ## Terms of one modulus -/

/-- A sum of multiples of the symbol, its quotient by `m` and its remainder. -/
def Periodic (m : ℕ) : SymTerm → Prop
  | const _ => True
  | sym => True
  | add a b => a.Periodic m ∧ b.Periodic m
  | mul _ a => a.Periodic m
  | floorDiv a d => a = sym ∧ d = m
  | mod d => d = m

/-- What a term of one modulus grows by with each wrap. -/
def perWrap (m : ℕ) : SymTerm → ℤ
  | const _ => 0
  | sym => m
  | add a b => a.perWrap m + b.perWrap m
  | mul c a => c * a.perWrap m
  | floorDiv _ _ => 1
  | mod _ => 0

/-- What it grows by with each step between two wraps. -/
def perStep : SymTerm → ℤ
  | const _ => 0
  | sym => 1
  | add a b => a.perStep + b.perStep
  | mul c a => c * a.perStep
  | floorDiv _ _ => 0
  | mod _ => 1

theorem eval_periodic {m : ℕ} (x : ℕ) : ∀ {t : SymTerm}, t.Periodic m →
    t.eval x = t.eval 0 + (t.perWrap m * (x / m : ℕ) + t.perStep * (x % m : ℕ))
  | const c, _ => by simp [eval, perWrap, perStep]
  | sym, _ => by
    have := Nat.div_add_mod x m
    simp only [eval, perWrap, perStep]
    norm_cast
    omega
  | add a b, ⟨ha, hb⟩ => by
    rw [eval, eval, eval_periodic x ha, eval_periodic x hb, perWrap, perStep]
    ring
  | mul c a, h => by
    have ha : a.Periodic m := h
    rw [eval, eval, eval_periodic x ha, perWrap, perStep]
    ring
  | floorDiv _ _, ⟨rfl, rfl⟩ => by simp [eval, perWrap, perStep]
  | mod _, rfl => by simp [eval, perWrap, perStep]

/-- With `k` wraps and `r` steps after the last one, the largest value is at one of the points : it
is before the last wrap only if the steps that are missing weigh no more than the wrap. -/
def PeakSeen (m k r : ℕ) (a c : ℤ) : Prop :=
  k = 0 ∨ a ≤ 0 ∨ if 0 ≤ c then k = 1 ∨ c * (m - 1 - r) ≤ a else r = 0

/-- What the steps of a term of one modulus have to fulfil. -/
def FitsPeriod (t : SymTerm) (m size : ℕ) : Prop :=
  let k := (size - 1) / m
  let r := (size - 1) % m
  if t.moduli = [] then
    size = 1 ∨ (0 ≤ t.perStep ∨ m = 1) ∧ (k = 0 ∨ t.perStep * (m - 1 - r) ≤ t.perWrap m)
  else PeakSeen m k r (t.perWrap m) t.perStep ∧ PeakSeen m k r (-t.perWrap m) (-t.perStep)

/-- Wraps and steps of a point of the tile. -/
def InTile (m k r j s : ℕ) : Prop :=
  s < m ∧ (j < k ∨ j = k ∧ s ≤ r)

theorem forall_inTile {m size : ℕ} (hm : 0 < m) (hsize : 0 < size) {P : ℕ → ℕ → Prop} :
    (∀ x < size, P (x / m) (x % m)) ↔
      ∀ j s, InTile m ((size - 1) / m) ((size - 1) % m) j s → P j s := by
  have hlast := Nat.div_add_mod (size - 1) m
  constructor
  · rintro h j s ⟨hs, hjs⟩
    have hx : m * j + s < size := by
      rcases hjs with hj | ⟨rfl, hs⟩
      · have := Nat.mul_le_mul_left m (Nat.succ_le_of_lt hj)
        rw [Nat.mul_succ] at this
        omega
      · omega
    have := h _ hx
    rwa [Nat.mul_add_div hm, Nat.div_eq_of_lt hs, Nat.add_zero, Nat.mul_add_mod,
      Nat.mod_eq_of_lt hs] at this
  · intro h x hx
    refine h _ _ ⟨Nat.mod_lt x hm, ?_⟩
    rcases (Nat.div_le_div_right (c := m) (Nat.le_sub_one_of_lt hx)).lt_or_eq with hlt | heq
    · exact Or.inl hlt
    · refine Or.inr ⟨heq, ?_⟩
      have := Nat.div_add_mod x m
      rw [heq] at this
      omega

/-- Every value is below that of zero, of the last point or of the first wrap exactly if the peak
is seen. -/
theorem peakSeen_iff {m k r : ℕ} (hr : r < m) (a c : ℤ) :
    (∀ j s, InTile m k r j s → a * j + c * s ≤ 0 ∨ a * j + c * s ≤ a * k + c * r ∨
      0 < k ∧ a * j + c * s ≤ c * (m - 1)) ↔ PeakSeen m k r a c := by
  have hm : ((m - 1 : ℕ) : ℤ) = m - 1 := by omega
  constructor
  · intro h
    by_cases hk : k = 0
    · exact Or.inl hk
    by_cases ha : a ≤ 0
    · exact Or.inr (Or.inl ha)
    refine Or.inr (Or.inr ?_)
    have hk' : (1 : ℤ) ≤ k := by omega
    split_ifs with hc
    · -- the last point before the last wrap
      by_cases hone : k = 1
      · exact Or.inl hone
      right
      have hlast := h (k - 1) (m - 1) ⟨by omega, Or.inl (by omega)⟩
      rw [hm, Nat.cast_sub (by omega), Nat.cast_one] at hlast
      have hk2 : (2 : ℤ) ≤ k := by omega
      have hsteps : 0 ≤ c * ((m : ℤ) - 1) := mul_nonneg hc (by omega)
      rcases hlast with hle | hle | ⟨-, hle⟩ <;> nlinarith
    · -- the last wrap itself
      have hwrap := h k 0 ⟨by omega, Or.inr ⟨rfl, Nat.zero_le r⟩⟩
      simp only [Nat.cast_zero, mul_zero, add_zero] at hwrap
      have hsteps : c * ((m : ℤ) - 1) ≤ 0 := mul_nonpos_of_nonpos_of_nonneg (by omega) (by omega)
      by_contra hne
      have hr' : (1 : ℤ) ≤ r := by omega
      rcases hwrap with hle | hle | ⟨-, hle⟩ <;> nlinarith
  · rintro h j s ⟨hs, hjs⟩
    have hs' : (s : ℤ) ≤ m - 1 := by omega
    rcases le_or_gt 0 c with hc | hc
    · have hstep : c * s ≤ c * (m - 1) := mul_le_mul_of_nonneg_left hs' hc
      rcases hjs with hj | ⟨rfl, hsr⟩
      · rcases le_or_gt a 0 with ha | ha
        · have := mul_nonpos_of_nonpos_of_nonneg ha (Int.natCast_nonneg j)
          exact Or.inr (Or.inr ⟨by omega, by linarith⟩)
        · have hj' : (j : ℤ) ≤ k - 1 := by omega
          rcases h with rfl | ha' | h
          · exact absurd hj (Nat.not_lt_zero j)
          · exact absurd ha' ha.not_ge
          · rw [if_pos hc] at h
            rcases h with rfl | h
            · obtain rfl : j = 0 := by omega
              exact Or.inr (Or.inr ⟨Nat.one_pos, by simpa using hstep⟩)
            · have := mul_le_mul_of_nonneg_left hj' ha.le
              exact Or.inr (Or.inl (by linarith))
      · have := mul_le_mul_of_nonneg_left (Int.ofNat_le.mpr hsr) hc
        exact Or.inr (Or.inl (by simpa using this))
    · have hstep : c * s ≤ 0 := mul_nonpos_of_nonpos_of_nonneg hc.le (Int.natCast_nonneg s)
      rcases le_or_gt a 0 with ha | ha
      · have := mul_nonpos_of_nonpos_of_nonneg ha (Int.natCast_nonneg j)
        exact Or.inl (by linarith)
      · have hjk : (j : ℤ) ≤ k := by omega
        have := mul_le_mul_of_nonneg_left hjk ha.le
        rcases h with rfl | ha' | h
        · exact Or.inl (by linarith [Int.natCast_zero ▸ this])
        · exact absurd ha' ha.not_ge
        · rw [if_neg hc.not_ge] at h
          subst h
          exact Or.inr (Or.inl (by simpa using by linarith))

/-- Every value is between those of zero and of the last point exactly if wraps and steps go up and
the steps that are missing weigh no more than a wrap. -/
theorem risesTo_iff {m k r : ℕ} (hr : r < m) (a c : ℤ) :
    (∀ j s, InTile m k r j s → a * j + c * s ≤ a * k + c * r ∧ 0 ≤ a * j + c * s) ↔
      k = 0 ∧ r = 0 ∨ (0 ≤ c ∨ m = 1) ∧ (k = 0 ∨ c * (m - 1 - r) ≤ a) := by
  have hm : ((m - 1 : ℕ) : ℤ) = m - 1 := by omega
  constructor
  · intro h
    by_cases hsingle : k = 0 ∧ r = 0
    · exact Or.inl hsingle
    refine Or.inr ⟨or_iff_not_imp_right.mpr fun hm1 => ?_, or_iff_not_imp_left.mpr fun hk => ?_⟩
    · simpa using (h 0 1 ⟨by omega, by omega⟩).2
    · have hlast := (h (k - 1) (m - 1) ⟨by omega, Or.inl (by omega)⟩).1
      rw [hm, Nat.cast_sub (by omega), Nat.cast_one] at hlast
      linarith
  · rintro h j s ⟨hs, hjs⟩
    rcases h with ⟨rfl, rfl⟩ | ⟨hc, h⟩
    · obtain ⟨rfl, rfl⟩ : j = 0 ∧ s = 0 := by omega
      simp
    · have hsteps : 0 ≤ c * s ∧ c * s ≤ c * (m - 1) ∧ 0 ≤ c * (m - 1 - r) ∧
          (s ≤ r → c * s ≤ c * r) := by
        rcases hc with hc | rfl
        · exact ⟨mul_nonneg hc (Int.natCast_nonneg s), mul_le_mul_of_nonneg_left (by omega) hc,
            mul_nonneg hc (by omega), fun hsr => mul_le_mul_of_nonneg_left (by omega) hc⟩
        · obtain ⟨rfl, rfl⟩ : s = 0 ∧ r = 0 := by omega
          simp
      obtain ⟨hpos, hle, hmissing, hlast⟩ := hsteps
      rcases hjs with hj | ⟨rfl, hsr⟩
      · have hwrap := h.resolve_left (by omega)
        have ha : 0 ≤ a := hmissing.trans hwrap
        have := mul_le_mul_of_nonneg_left (show (j : ℤ) ≤ k - 1 by omega) ha
        have := mul_nonneg ha (Int.natCast_nonneg j)
        exact ⟨by linarith, by linarith⟩
      · have hjump : 0 ≤ a * j := by
          rcases h with rfl | hwrap
          · simp
          · exact mul_nonneg (hmissing.trans hwrap) (Int.natCast_nonneg j)
        exact ⟨by linarith [hlast hsr], by linarith⟩

theorem eq_of_mem_moduli {m d : ℕ} : ∀ {t : SymTerm}, t.Periodic m → d ∈ t.moduli → d = m
  | add _ _, ⟨ha, hb⟩, hd =>
    (mem_append.mp hd).elim (eq_of_mem_moduli ha) (eq_of_mem_moduli hb)
  | mul _ a, h, hd => eq_of_mem_moduli (t := a) h hd
  | floorDiv _ _, ⟨rfl, _⟩, hd => absurd hd not_mem_nil
  | mod _, rfl, hd => mem_singleton.mp hd

theorem exists_highPoints_iff {t : SymTerm} {m size : ℕ} (hm : 0 < m) (ht : t.Periodic m)
    (hmod : t.moduli ≠ []) {Q : ℕ → Prop} :
    (∃ y ∈ t.highPoints size, Q y) ↔ Q 0 ∨ Q (size - 1) ∨ 0 < (size - 1) / m ∧ Q (m - 1) := by
  obtain ⟨d, hd⟩ := exists_mem_of_ne_nil _ hmod
  obtain rfl := eq_of_mem_moduli ht hd
  have hwraps : 0 < (size - 1) / d ↔ d ≤ size - 1 := Nat.div_pos_iff.trans (and_iff_right hm)
  rw [highPoints, if_neg hmod]
  constructor
  · rintro ⟨y, hy, hQ⟩
    rcases mem_cons.mp hy with rfl | hy
    · exact Or.inl hQ
    rcases mem_cons.mp hy with rfl | hy
    · exact Or.inr (Or.inl hQ)
    obtain ⟨e, he, rfl⟩ := mem_map.mp hy
    obtain rfl := eq_of_mem_moduli ht he
    rcases le_or_gt size e with hle | hlt
    · rw [min_eq_left hle] at hQ
      exact Or.inr (Or.inl hQ)
    · rw [min_eq_right hlt.le] at hQ
      exact Or.inr (Or.inr ⟨hwraps.mpr (by omega), hQ⟩)
  · rintro (hQ | hQ | ⟨hk, hQ⟩)
    · exact ⟨0, mem_cons_self, hQ⟩
    · exact ⟨size - 1, mem_cons_of_mem _ mem_cons_self, hQ⟩
    · have hle := hwraps.mp hk
      refine ⟨d - 1, mem_cons_of_mem _ (mem_cons_of_mem _ (mem_map.mpr ⟨d, hd, ?_⟩)), hQ⟩
      rw [min_eq_right (by omega)]

/-- A term of one modulus takes its extremes at the points exactly if its steps fit the period. -/
theorem reaches_iff_fitsPeriod {t : SymTerm} {m size : ℕ} (hm : 0 < m) (hsize : 0 < size)
    (ht : t.Periodic m) : t.Reaches size ↔ t.FitsPeriod m size := by
  have hr : (size - 1) % m < m := Nat.mod_lt _ hm
  have hlast := eval_periodic (size - 1) ht
  have hwrap : t.eval (m - 1) = t.eval 0 + t.perStep * (m - 1) := by
    rw [eval_periodic (m - 1) ht, Nat.div_eq_of_lt (by omega), Nat.mod_eq_of_lt (by omega),
      Nat.cast_sub hm]
    simp
  unfold FitsPeriod
  by_cases hmod : t.moduli = []
  · have hone : size = 1 ↔ (size - 1) / m = 0 ∧ (size - 1) % m = 0 := by
      have := Nat.div_add_mod (size - 1) m
      constructor
      · rintro rfl
        simp
      · rintro ⟨hdiv, hrest⟩
        rw [hdiv, hrest] at this
        omega
    have hends : t.Reaches size ↔ ∀ x < size,
        t.perWrap m * (x / m : ℕ) + t.perStep * (x % m : ℕ) ≤
            t.perWrap m * ((size - 1) / m : ℕ) + t.perStep * ((size - 1) % m : ℕ) ∧
          0 ≤ t.perWrap m * (x / m : ℕ) + t.perStep * (x % m : ℕ) := by
      refine forall₂_congr fun x _ => ?_
      simp only [lowPoints, highPoints, if_pos hmod, mem_singleton, exists_eq_left, hlast,
        eval_periodic x ht, add_le_add_iff_left, le_add_iff_nonneg_right]
    rw [if_pos hmod, hone, hends]
    exact (forall_inTile (P := fun j s => t.perWrap m * j + t.perStep * s ≤ _ ∧
      0 ≤ t.perWrap m * j + t.perStep * s) hm hsize).trans (risesTo_iff hr _ _)
  · have hvalue : ∀ x, t.eval x = t.eval 0 +
        (t.perWrap m * (x / m : ℕ) + t.perStep * (x % m : ℕ)) := fun x => eval_periodic x ht
    rw [if_neg hmod, ← peakSeen_iff hr, ← peakSeen_iff hr, ← forall_inTile hm hsize,
      ← forall_inTile hm hsize, ← forall₂_and, Reaches, lowPoints_of_moduli hmod]
    refine forall₂_congr fun x _ => and_congr ?_ ?_
    · rw [exists_highPoints_iff hm ht hmod, hlast, hwrap, hvalue x]
      simp only [add_le_add_iff_left, add_le_iff_nonpos_right]
    · rw [exists_highPoints_iff hm ht hmod, hlast, hwrap, hvalue x]
      simp only [add_le_add_iff_left, le_add_iff_nonneg_right, neg_mul, ← neg_add, neg_le_neg_iff,
        neg_nonpos]

/-- What makes a term take its extremes at the points, by its moduli and coefficients and the size
of the tile. -/
inductive Covered (t : SymTerm) (size : ℕ) : Prop
  | point (hsize : size = 1)
  | signed (up : Bool) (level : ℕ) (hsign : t.Signed up) (hup : t.moduli = [] → up = true)
      (hlevel : t.Level size level)
  | periodic (m : ℕ) (hm : 0 < m) (ht : t.Periodic m) (hfits : t.FitsPeriod m size)

theorem Covered.reaches {t : SymTerm} {size : ℕ} (h : t.Covered size) : t.Reaches size := by
  cases h with
  | point hsize =>
    subst hsize
    intro x hx
    obtain rfl := Nat.lt_one_iff.mp hx
    refine ⟨?_, 0, t.zero_mem_lowPoints 1, le_rfl⟩
    unfold highPoints
    split_ifs
    · exact ⟨0, mem_singleton_self 0, le_rfl⟩
    · exact ⟨0, mem_cons_self, le_rfl⟩
  | signed up level hsign hup hlevel => exact reaches_of_signed hsign hup hlevel
  | periodic m hm ht hfits =>
    intro x hx
    exact (reaches_iff_fitsPeriod hm (Nat.zero_lt_of_lt hx) ht).mpr hfits x hx

end SymTerm

/-- The coordinate `2 * floor(x / 64) + Mod(x, 64) + 2 * Mod(y, 8) + Mod(y, 16)`. -/
def sticks : Coordinate 2 :=
  ⟨0, ![.add (.mul 2 (.floorDiv .sym 64)) (.mod 64), .add (.mul 2 (.mod 8)) (.mod 16)]⟩

/-- The coordinate `Mod(x, 4) + Mod(x, 6)`. -/
def interleaved : Coordinate 1 :=
  ⟨0, ![.add (.mod 4) (.mod 6)]⟩

end SpanEstimate

end TorchSpyre
