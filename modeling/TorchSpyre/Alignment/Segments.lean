import Mathlib
import TorchSpyre.Alignment.Align

/-!
# Segments of a variable

Every new variable counts the digit of an old variable between two neighbouring boundaries. If
the boundaries of each variable run from one to its range and divide each other, the digits
determine the old point and every choice of digits is that of an old point : the map from old
points to new ones is a bijection (`digits_bijOn`).
-/

open List

namespace TorchSpyre

namespace Alignment

/-- The boundaries of a variable : at most one, or from one to the range, each dividing the
next. -/
def Cut (range : ℕ) (split : List ℕ) : Prop :=
  split = [] ∨ split = [1] ∨
    split.head? = some 1 ∧ split.getLast? = some range ∧ split.IsChain (· ∣ ·)

/-- The point of the new variables : the digit of each segment. -/
def digits (segs : List Segment) (pt : Var → ℕ) (w : Var) : ℕ :=
  match segs.find? fun s => s.new = w with
  | some s => pt s.old / s.lower % s.range
  | none => 0

/-! ## One variable -/

section Variable

variable {v : Var}

/-- The digits above a boundary and the rest below it are the number. -/
theorem sum_laterSegments (x : ℕ) :
    ∀ (next b : ℕ) (rest : List ℕ), (b :: rest).IsChain (· ∣ ·) →
      ((laterSegments v next (b :: rest)).map fun s => s.lower * (x / s.lower % s.range)).sum +
        x % b = x % (rest.getLastD b)
  | _, b, [], _ => by simp [laterSegments]
  | next, b, c :: rest, hchain => by
    obtain ⟨⟨q, rfl⟩, hrest⟩ := isChain_cons_cons.mp hchain
    have ih := sum_laterSegments x (next + 1) (b * q) rest hrest
    rw [laterSegments, map_cons, sum_cons, getLastD_cons, ← ih]
    rcases Nat.eq_zero_or_pos b with rfl | hpos
    · simp
    · rw [Nat.mul_div_cancel_left q hpos, Nat.mod_mul]
      ring

/-- Digits above a boundary can be chosen freely. -/
theorem exists_of_laterSegments (value : Var → ℕ) :
    ∀ (next b : ℕ) (rest : List ℕ), (b :: rest).IsChain (· ∣ ·) → (b :: rest).Pairwise (· < ·) →
      (∀ s ∈ laterSegments v next (b :: rest), value s.new < s.range) → ∀ y < b,
      ∃ x < rest.getLastD b, x % b = y ∧
        ∀ s ∈ laterSegments v next (b :: rest), x / s.lower % s.range = value s.new
  | _, b, [], _, _, _, y, hy => ⟨y, hy, Nat.mod_eq_of_lt hy, fun s hs => absurd hs not_mem_nil⟩
  | next, b, c :: rest, hchain, hsorted, hvalue, y, hy => by
    obtain ⟨⟨q, rfl⟩, hrest⟩ := isChain_cons_cons.mp hchain
    have hpos : 0 < b := Nat.zero_lt_of_lt hy
    rw [laterSegments, Nat.mul_div_cancel_left q hpos] at hvalue
    obtain ⟨hfirst, hlater⟩ := forall_mem_cons.mp hvalue
    set a := value (.synth next) with ha
    have hbound : b * a + y < b * q := by
      calc b * a + y < b * a + b := by omega
        _ = b * (a + 1) := by ring
        _ ≤ b * q := Nat.mul_le_mul_left b hfirst
    obtain ⟨x, hx, hmod, hdigits⟩ := exists_of_laterSegments value (next + 1) (b * q) rest hrest
      (pairwise_cons.mp hsorted).2 hlater (b * a + y) hbound
    rw [laterSegments, Nat.mul_div_cancel_left q hpos]
    refine ⟨x, by rwa [getLastD_cons], ?_, forall_mem_cons.mpr ⟨?_, hdigits⟩⟩
    · rw [← Nat.mod_mod_of_dvd x (Dvd.intro q rfl), hmod, Nat.mul_add_mod, Nat.mod_eq_of_lt hy]
    · rw [← Nat.mod_mul_right_div_self, hmod, Nat.mul_add_div hpos, Nat.div_eq_of_lt hy,
        Nat.add_zero]

/-- A later segment is fresh and lies above the boundaries before it. -/
theorem mem_laterSegments :
    ∀ {next : ℕ} {l : List ℕ} {s : Segment}, s ∈ laterSegments v next l →
      s.old = v ∧ ∃ k, s.new = .synth k ∧ next ≤ k ∧ k + 1 < next + l.length
  | next, b :: c :: rest, s, h => by
    rcases mem_cons.mp h with rfl | h
    · exact ⟨rfl, next, rfl, le_rfl, by simp⟩
    · obtain ⟨hold, k, hnew, hle, hlt⟩ := mem_laterSegments h
      exact ⟨hold, k, hnew, by omega, by simp only [length_cons] at hlt ⊢; omega⟩
  | _, [], _, h => absurd h not_mem_nil
  | _, [_], _, h => absurd h not_mem_nil

theorem nodup_laterSegments :
    ∀ (next : ℕ) (l : List ℕ), ((laterSegments v next l).map Segment.new).Nodup
  | next, b :: c :: rest => by
    refine nodup_cons.mpr ⟨fun hmem => ?_, nodup_laterSegments (next + 1) (c :: rest)⟩
    obtain ⟨s, hs, hnew⟩ := mem_map.mp hmem
    obtain ⟨-, k, hk, hle, -⟩ := mem_laterSegments hs
    rw [hk] at hnew
    cases hnew
    omega
  | _, [] => nodup_nil
  | _, [_] => nodup_nil

variable {split : List ℕ} {next range : ℕ}

/-- A segment counts with the variable itself or with a fresh one. -/
theorem mem_segmentsOf {s : Segment} (h : s ∈ segmentsOf v range next split) :
    s.old = v ∧ (s.new = v ∨ ∃ k, s.new = .synth k ∧ next ≤ k ∧ k < next + (split.length - 2)) := by
  match split, h with
  | b :: c :: rest, h =>
    rcases mem_cons.mp h with rfl | h
    · exact ⟨rfl, Or.inl rfl⟩
    · obtain ⟨hold, k, hk, hle, hlt⟩ := mem_laterSegments h
      refine ⟨hold, Or.inr ⟨k, hk, hle, ?_⟩⟩
      simp only [length_cons] at hlt ⊢
      omega
  | [], h => exact mem_singleton.mp h ▸ ⟨rfl, Or.inl rfl⟩
  | [_], h => exact mem_singleton.mp h ▸ ⟨rfl, Or.inl rfl⟩

theorem nodup_segmentsOf (split : List ℕ) (hfresh : ∀ k, v = .synth k → k < next) :
    ((segmentsOf v range next split).map Segment.new).Nodup := by
  match split with
  | b :: c :: rest =>
    refine nodup_cons.mpr ⟨fun hmem => ?_, nodup_laterSegments next (c :: rest)⟩
    obtain ⟨s, hs, hnew⟩ := mem_map.mp hmem
    obtain ⟨-, k, hk, hle, -⟩ := mem_laterSegments hs
    have := hfresh k (hnew.symm.trans hk)
    omega
  | [] => exact nodup_singleton v
  | [_] => exact nodup_singleton v

theorem getLastD_of_getLast? {b c : ℕ} {rest : List ℕ}
    (h : (b :: c :: rest).getLast? = some range) : rest.getLastD c = range := by
  rw [getLast?_cons_cons, getLast?_cons] at h
  rw [getLastD_eq_getLast?]
  exact Option.some.inj h

/-- The digits of a variable make it up. -/
theorem sum_segmentsOf (v : Var) (next : ℕ) {x : ℕ} (hcut : Cut range split) (hx : x < range) :
    ((segmentsOf v range next split).map fun s => s.lower * (x / s.lower % s.range)).sum = x := by
  have hwhole : ([⟨v, v, 1, range⟩].map fun s : Segment =>
      s.lower * (x / s.lower % s.range)).sum = x := by
    simp [Nat.mod_eq_of_lt hx]
  match split, hcut with
  | [], _ => exact hwhole
  | [_], _ => exact hwhole
  | b :: c :: rest, hcut =>
    rcases hcut with hnil | hone | ⟨hhead, hlast, hchain⟩
    · cases hnil
    · cases hone
    · obtain rfl : b = 1 := by simpa using hhead
      obtain ⟨-, hrest⟩ := isChain_cons_cons.mp hchain
      have hsum := sum_laterSegments (v := v) x next c rest hrest
      have hend : rest.getLastD c = range := getLastD_of_getLast? hlast
      rw [segmentsOf, map_cons, sum_cons, Nat.one_mul, Nat.div_one, Nat.div_one,
        Nat.add_comm, hsum, hend, Nat.mod_eq_of_lt hx]

/-- The digits of a variable can be chosen freely. -/
theorem exists_of_segmentsOf (hcut : Cut range split) (hsorted : split.Pairwise (· < ·))
    {value : Var → ℕ} (hvalue : ∀ s ∈ segmentsOf v range next split, value s.new < s.range) :
    ∃ x < range, ∀ s ∈ segmentsOf v range next split, x / s.lower % s.range = value s.new := by
  have hwhole : value v < range → ∃ x < range, ∀ s ∈ [(⟨v, v, 1, range⟩ : Segment)],
      x / s.lower % s.range = value s.new := fun hlt =>
    ⟨value v, hlt, forall_mem_singleton.mpr (by simp [Nat.mod_eq_of_lt hlt])⟩
  match split, hcut, hsorted, hvalue with
  | [], _, _, hvalue => exact hwhole (hvalue _ (mem_singleton_self _))
  | [_], _, _, hvalue => exact hwhole (hvalue _ (mem_singleton_self _))
  | b :: c :: rest, hcut, hsorted, hvalue =>
    rcases hcut with hnil | hone | ⟨hhead, hlast, hchain⟩
    · cases hnil
    · cases hone
    · obtain rfl : b = 1 := by simpa using hhead
      obtain ⟨-, hrest⟩ := isChain_cons_cons.mp hchain
      have hend : rest.getLastD c = range := getLastD_of_getLast? hlast
      rw [segmentsOf, Nat.div_one] at hvalue
      obtain ⟨hfirst, hlater⟩ := forall_mem_cons.mp hvalue
      obtain ⟨x, hx, hmod, hdigits⟩ := exists_of_laterSegments value next c rest hrest
        (pairwise_cons.mp hsorted).2 hlater (value v) hfirst
      rw [segmentsOf, Nat.div_one]
      refine ⟨x, hend ▸ hx, forall_mem_cons.mpr ⟨?_, hdigits⟩⟩
      rw [Nat.div_one]
      exact hmod

theorem range_pos_of_mem_laterSegments :
    ∀ {next b : ℕ} {rest : List ℕ}, (b :: rest).Pairwise (· < ·) → 0 < b →
      ∀ s ∈ laterSegments v next (b :: rest), 0 < s.range
  | _, _, [], _, _, _, h => absurd h not_mem_nil
  | _, b, c :: rest, hsorted, hpos, s, h => by
    obtain ⟨hlt, hrest⟩ := pairwise_cons.mp hsorted
    have hbc := hlt c mem_cons_self
    rcases mem_cons.mp h with rfl | h
    · exact Nat.div_pos hbc.le hpos
    · exact range_pos_of_mem_laterSegments hrest (by omega) s h

/-- The segments of a variable that has values count something. -/
theorem range_pos_of_mem_segmentsOf (hrange : 0 < range) (hcut : Cut range split)
    (hsorted : split.Pairwise (· < ·)) :
    ∀ s ∈ segmentsOf v range next split, 0 < s.range := by
  match split, hcut, hsorted with
  | [], _, _ => exact forall_mem_singleton.mpr hrange
  | [_], _, _ => exact forall_mem_singleton.mpr hrange
  | b :: c :: rest, hcut, hsorted =>
    have hb : 0 < b := by
      rcases hcut with hnil | hone | ⟨hhead, -, -⟩
      · cases hnil
      · cases hone
      · have : b = 1 := by simpa using hhead
        omega
    obtain ⟨hlt, hrest⟩ := pairwise_cons.mp hsorted
    have hbc := hlt c mem_cons_self
    exact forall_mem_cons.mpr
      ⟨Nat.div_pos hbc.le hb, range_pos_of_mem_laterSegments hrest (by omega)⟩

/-- The `i`th later segment lies between boundaries `i` and `i + 1`. -/
theorem getElem?_laterSegments :
    ∀ {next i : ℕ} {l : List ℕ}, i + 1 < l.length →
      (laterSegments v next l)[i]? =
        some ⟨.synth (next + i), v, l.getD i 0, l.getD (i + 1) 0 / l.getD i 0⟩
  | _, i, [], h => absurd h (Nat.not_lt_zero _)
  | _, i, [_], h => by simp at h
  | next, 0, b :: c :: rest, _ => rfl
  | next, i + 1, b :: c :: rest, h => by
    have ih : (laterSegments v (next + 1) (c :: rest))[i]? = _ :=
      getElem?_laterSegments (by simpa using h)
    rw [laterSegments, getElem?_cons_succ, ih]
    simp [Nat.add_comm, Nat.add_left_comm]

/-- The `i`th segment of a variable lies between boundaries `i` and `i + 1`. -/
theorem getElem?_segmentsOf (v : Var) (range next : ℕ) {i : ℕ} (hi : i + 1 < split.length) :
    ∃ w, (segmentsOf v range next split)[i]? =
        some ⟨w, v, split.getD i 0, split.getD (i + 1) 0 / split.getD i 0⟩ ∧ (i = 0 → w = v) := by
  match split, hi with
  | b :: c :: rest, hi =>
    cases i with
    | zero => exact ⟨v, rfl, fun _ => rfl⟩
    | succ i =>
      refine ⟨.synth (next + i), ?_, fun h => absurd h (Nat.succ_ne_zero i)⟩
      rw [segmentsOf, getElem?_cons_succ, getElem?_laterSegments (by simpa using hi)]
      simp
  | [_], hi => simp at hi
  | [], hi => simp at hi

end Variable

/-! ## All variables -/

section Variables

variable {range : Var → ℕ} {split : Var → List ℕ}

theorem mem_segments :
    ∀ {vars : List Var} {next : ℕ} {s : Segment}, s ∈ segments range split next vars →
      s.old ∈ vars ∧ (s.new = s.old ∨ ∃ k, s.new = .synth k ∧ next ≤ k)
  | [], _, _, h => absurd h not_mem_nil
  | v :: vars, next, s, h => by
    rcases mem_append.mp h with h | h
    · obtain ⟨hold, hnew⟩ := mem_segmentsOf h
      refine ⟨hold ▸ mem_cons_self, hnew.imp (fun hv => hv.trans hold.symm) ?_⟩
      rintro ⟨k, hk, hle, -⟩
      exact ⟨k, hk, hle⟩
    · obtain ⟨hold, hnew⟩ := mem_segments h
      refine ⟨mem_cons_of_mem v hold, hnew.imp_right ?_⟩
      rintro ⟨k, hk, hle⟩
      exact ⟨k, hk, by omega⟩

/-- The new variables are different. -/
theorem nodup_segments :
    ∀ {vars : List Var} {next : ℕ}, vars.Nodup → (∀ k, Var.synth k ∈ vars → k < next) →
      ((segments range split next vars).map Segment.new).Nodup
  | [], _, _, _ => nodup_nil
  | v :: vars, next, hnodup, hfresh => by
    obtain ⟨hv, hvars⟩ := nodup_cons.mp hnodup
    have hrest : ∀ k, Var.synth k ∈ vars → k < next := fun k hk =>
      hfresh k (mem_cons_of_mem v hk)
    rw [segments, map_append, nodup_append]
    refine ⟨nodup_segmentsOf _ fun k hk => hfresh k (hk ▸ mem_cons_self),
      nodup_segments hvars fun k hk => (hrest k hk).trans_le (Nat.le_add_right _ _), ?_⟩
    intro a ha b hb heq
    obtain ⟨s, hs, rfl⟩ := mem_map.mp ha
    obtain ⟨t, ht, rfl⟩ := mem_map.mp hb
    obtain ⟨-, hsnew⟩ := mem_segmentsOf hs
    obtain ⟨htold, htnew⟩ := mem_segments ht
    rcases hsnew with hsv | ⟨k, hk, hle, hlt⟩
    · rcases htnew with htv | ⟨j, hj, hj'⟩
      · exact hv (by rw [← hsv, heq, htv]; exact htold)
      · have := hfresh j (by rw [← hj, ← heq, hsv]; exact mem_cons_self)
        omega
    · rcases htnew with htv | ⟨j, hj, hj'⟩
      · have := hrest k (by rw [← hk, heq, htv]; exact htold)
        omega
      · rw [hk, hj] at heq
        cases heq
        omega

/-- The segments of one variable. -/
theorem filter_segments (range : Var → ℕ) (split : Var → List ℕ) :
    ∀ {vars : List Var} (next : ℕ), vars.Nodup → ∀ v ∈ vars,
      ∃ next', (segments range split next vars).filter (fun s => s.old = v) =
        segmentsOf v (range v) next' (split v)
  | [], _, _, _, h => absurd h not_mem_nil
  | w :: vars, next, hnodup, v, hv => by
    obtain ⟨hw, hvars⟩ := nodup_cons.mp hnodup
    rw [segments, filter_append]
    by_cases hvw : w = v
    · subst hvw
      refine ⟨next, ?_⟩
      have hfirst : ∀ s ∈ segmentsOf w (range w) next (split w), decide (s.old = w) = true :=
        fun s hs => decide_eq_true (mem_segmentsOf hs).1
      have hlater : (segments range split (next + ((split w).length - 2)) vars).filter
          (fun s => s.old = w) = [] :=
        filter_eq_nil_iff.mpr fun s hs hold =>
          hw (of_decide_eq_true hold ▸ (mem_segments hs).1)
      rw [filter_eq_self.mpr hfirst, hlater, append_nil]
    · have hfirst : (segmentsOf w (range w) next (split w)).filter (fun s => s.old = v) = [] :=
        filter_eq_nil_iff.mpr fun s hs hold =>
          hvw ((mem_segmentsOf hs).1.symm.trans (of_decide_eq_true hold))
      rw [hfirst, nil_append]
      exact filter_segments range split _ hvars v (mem_of_ne_of_mem (Ne.symm hvw) hv)

variable {segs : List Segment}

/-- A new variable has the digit of its segment. -/
theorem digits_new (hnodup : (segs.map Segment.new).Nodup) {s : Segment} (hs : s ∈ segs)
    (pt : Var → ℕ) : digits segs pt s.new = pt s.old / s.lower % s.range := by
  have hfind : segs.find? (fun t => t.new = s.new) = some s := by
    obtain ⟨t, ht⟩ : ∃ t, segs.find? (fun t => t.new = s.new) = some t :=
      Option.isSome_iff_exists.mp (find?_isSome.mpr ⟨s, hs, decide_eq_true rfl⟩)
    have hmem := mem_of_find?_eq_some ht
    have hnew : t.new = s.new := by simpa using find?_some ht
    rw [ht, inj_on_of_nodup_map hnodup hmem hs hnew]
  rw [digits, hfind]

theorem digits_of_notMem {w : Var} (hw : w ∉ segs.map Segment.new) (pt : Var → ℕ) :
    digits segs pt w = 0 := by
  have hfind : segs.find? (fun t => t.new = w) = none :=
    find?_eq_none.mpr fun t ht hnew => hw (mem_map.mpr ⟨t, ht, of_decide_eq_true hnew⟩)
  rw [digits, hfind]

/-- The points of some variables with ranges. Other variables are zero. -/
def Points (vars : List (Var × ℕ)) : Set (Var → ℕ) :=
  {pt | (∀ p ∈ vars, pt p.1 < p.2) ∧ ∀ v, v ∉ vars.map Prod.fst → pt v = 0}

/-- The digits of the segments are a bijection. -/
theorem digits_bijOn {vars : List Var} {next : ℕ} (hnodup : vars.Nodup)
    (hfresh : ∀ k, Var.synth k ∈ vars → k < next) (hcut : ∀ v ∈ vars, Cut (range v) (split v))
    (hsorted : ∀ v ∈ vars, (split v).Pairwise (· < ·)) :
    Set.BijOn (digits (segments range split next vars)) (Points (vars.map fun v => (v, range v)))
      (Points ((segments range split next vars).map fun s => (s.new, s.range))) := by
  set segs := segments range split next vars with hsegs
  have hnews : (segs.map Segment.new).Nodup := nodup_segments hnodup hfresh
  have hof : ∀ s ∈ segs, s.old ∈ vars ∧ ∃ next',
      s ∈ segmentsOf s.old (range s.old) next' (split s.old) := by
    intro s hs
    have hold := (mem_segments hs).1
    obtain ⟨next', hfilter⟩ := filter_segments range split next hnodup s.old hold
    refine ⟨hold, next', ?_⟩
    rw [← hfilter]
    exact mem_filter.mpr ⟨hs, decide_eq_true rfl⟩
  have hpoint : ∀ {pt : Var → ℕ}, pt ∈ Points (vars.map fun v => (v, range v)) ↔
      (∀ v ∈ vars, pt v < range v) ∧ ∀ v, v ∉ vars → pt v = 0 := by
    intro pt
    simp [Points]
  have hnewPoint : ∀ {pt : Var → ℕ}, pt ∈ Points (segs.map fun s => (s.new, s.range)) ↔
      (∀ s ∈ segs, pt s.new < s.range) ∧ ∀ v, v ∉ segs.map Segment.new → pt v = 0 := by
    intro pt
    simp [Points]
  refine ⟨fun pt hpt => ?_, fun pt hpt qt hqt heq => ?_, fun qt hqt => ?_⟩
  · obtain ⟨hlt, hzero⟩ := hpoint.mp hpt
    refine hnewPoint.mpr ⟨fun s hs => ?_, fun w hw => digits_of_notMem hw pt⟩
    obtain ⟨hold, next', hs'⟩ := hof s hs
    rw [digits_new hnews hs]
    exact Nat.mod_lt _ (range_pos_of_mem_segmentsOf (Nat.zero_lt_of_lt (hlt _ hold))
      (hcut _ hold) (hsorted _ hold) s hs')
  · obtain ⟨hlt, hzero⟩ := hpoint.mp hpt
    obtain ⟨hlt', hzero'⟩ := hpoint.mp hqt
    funext v
    by_cases hv : v ∈ vars
    · obtain ⟨next', hfilter⟩ := filter_segments range split next hnodup v hv
      rw [← sum_segmentsOf v next' (hcut v hv) (hlt v hv),
        ← sum_segmentsOf v next' (hcut v hv) (hlt' v hv)]
      refine congrArg List.sum (map_congr_left fun s hs => ?_)
      rw [← hfilter] at hs
      obtain ⟨hs, hold⟩ := mem_filter.mp hs
      have hdigit := congrFun heq s.new
      rw [digits_new hnews hs, digits_new hnews hs, of_decide_eq_true hold] at hdigit
      rw [hdigit]
    · rw [hzero v hv, hzero' v hv]
  · obtain ⟨hlt, hzero⟩ := hnewPoint.mp hqt
    have hexists : ∀ v ∈ vars, ∃ x < range v,
        ∀ s ∈ segs, s.old = v → x / s.lower % s.range = qt s.new := by
      intro v hv
      obtain ⟨next', hfilter⟩ := filter_segments range split next hnodup v hv
      have hmem : ∀ s, s ∈ segmentsOf v (range v) next' (split v) ↔ s ∈ segs ∧ s.old = v := by
        intro s
        rw [← hfilter, mem_filter, decide_eq_true_iff]
      obtain ⟨x, hx, hdigits⟩ := exists_of_segmentsOf (hcut v hv) (hsorted v hv)
        fun s hs => hlt s ((hmem s).mp hs).1
      exact ⟨x, hx, fun s hs hold => hdigits s ((hmem s).mpr ⟨hs, hold⟩)⟩
    choose x hx hdigits using hexists
    refine ⟨fun v => if hv : v ∈ vars then x v hv else 0, hpoint.mpr ⟨fun v hv => ?_,
      fun v hv => dif_neg hv⟩, ?_⟩
    · rw [dif_pos hv]
      exact hx v hv
    · funext w
      by_cases hw : w ∈ segs.map Segment.new
      · obtain ⟨s, hs, rfl⟩ := mem_map.mp hw
        have hold := (hof s hs).1
        rw [digits_new hnews hs, dif_pos hold]
        exact hdigits s.old hold s hs rfl
      · rw [digits_of_notMem hw, hzero w hw]

end Variables

end Alignment

end TorchSpyre
