import Mathlib

/-!
# Objects kept in the cells of one memory

A program is a list of steps that read and write objects by name. `run` gives every object a
store of its own. `runAt` keeps the objects in cells of one memory, and different objects may
have cells in common. If no step writes to the cells of another object that is still needed
(`Undisturbed`), then every step reads the same contents in both, and so do those who look at
the objects `outs` at the end (`Undisturbed.refines`).
-/

open List Function

namespace Residency

variable {ν κ α : Type} {size : ν → ℕ}

/-- The contents of every object. -/
abbrev Store (size : ν → ℕ) (α : Type) :=
  ∀ n, Fin (size n) → α

/-- A step overwrites the objects in `writes`, with contents that depend on those in `reads`. -/
structure Step (size : ν → ℕ) (α : Type) where
  reads : Set ν
  writes : List ν
  result : Store size α → Store size α
  result_congr : ∀ {σ τ : Store size α}, (∀ n ∈ reads, σ n = τ n) → ∀ n ∈ writes,
    result σ n = result τ n

section Runs

variable [DecidableEq ν]

/-- Run one step. -/
def Step.exec (σ : Store size α) (s : Step size α) : Store size α :=
  fun n => if n ∈ s.writes then s.result σ n else σ n

/-- Run the steps in order. -/
def run (σ : Store size α) (l : List (Step size α)) : Store size α :=
  l.foldl Step.exec σ

end Runs

variable (cell : ∀ n, Fin (size n) → κ)

/-- The objects as the memory has them. -/
def load (m : κ → α) : Store size α :=
  fun n k => m (cell n k)

/-- A step reads all it needs before it writes. -/
noncomputable def Step.execAt (m : κ → α) (s : Step size α) : κ → α :=
  s.writes.foldl (fun m' n => extend (cell n) (s.result (load cell m) n) m') m

/-- Run the steps in order, in memory. -/
noncomputable def runAt (m : κ → α) (l : List (Step size α)) : κ → α :=
  l.foldl (Step.execAt cell) m

variable (outs : Set ν)

/-- The contents of `n` are read in `rest`, or at the end, before they are overwritten. -/
def Needed (rest : List (Step size α)) (n : ν) : Prop :=
  (n ∈ outs ∧ ∀ s ∈ rest, n ∉ s.writes) ∨
    ∃ mid c post, rest = mid ++ c :: post ∧ n ∈ c.reads ∧ ∀ s ∈ mid, n ∉ s.writes

/-- No step writes to the cells of another object that is needed after it. -/
def Undisturbed (l : List (Step size α)) : Prop :=
  ∀ pre s post, l = pre ++ s :: post → ∀ w ∈ s.writes, ∀ n, Needed outs post n → n ≠ w →
    Disjoint (Set.range (cell w)) (Set.range (cell n))

variable {cell outs} {m m' : κ → α} {σ : Store size α} {s : Step size α} {n : ν}
  {l pre post : List (Step size α)}

theorem Needed.cons (h : Needed outs post n) (hn : n ∉ s.writes) : Needed outs (s :: post) n := by
  rcases h with ⟨hout, hquiet⟩ | ⟨mid, c, post, rfl, hread, hquiet⟩
  · exact .inl ⟨hout, forall_mem_cons.2 ⟨hn, hquiet⟩⟩
  · exact .inr ⟨s :: mid, c, post, rfl, hread, forall_mem_cons.2 ⟨hn, hquiet⟩⟩

theorem needed_of_mem_reads (hn : n ∈ s.reads) : Needed outs (s :: post) n :=
  .inr ⟨[], s, post, rfl, hn, by simp⟩

theorem load_extend_of_disjoint {w : ν} (h : Disjoint (Set.range (cell w)) (Set.range (cell n)))
    (v : Fin (size w) → α) : load cell (extend (cell w) v m) n = load cell m n := by
  funext k
  refine extend_apply' _ _ _ fun hk => ?_
  exact Set.disjoint_left.1 h hk ⟨k, rfl⟩

/-- What a step leaves in the cells of an object that the other ones it writes do not meet. -/
theorem load_foldl_extend [DecidableEq ν] (hinj : ∀ n, Injective (cell n)) (v : Store size α)
    {ws : List ν} (h : ∀ w ∈ ws, n ≠ w → Disjoint (Set.range (cell w)) (Set.range (cell n))) :
    load cell (ws.foldl (fun m' w => extend (cell w) (v w) m') m) n =
      if n ∈ ws then v n else load cell m n := by
  induction ws using reverseRecOn with
  | nil => simp
  | append_singleton ws w ih =>
    rw [foldl_append, foldl_cons, foldl_nil]
    by_cases hw : n = w
    · subst hw
      rw [if_pos (by simp)]
      exact funext fun k => (hinj n).extend_apply _ _ k
    · rw [load_extend_of_disjoint (h w (by simp) hw), ih fun w' hw' => h w' (mem_append_left _ hw')]
      simp [hw]

variable [DecidableEq ν]

/-- One step keeps the needed objects. -/
theorem load_execAt (hinj : ∀ n, Injective (cell n))
    (h : ∀ n, Needed outs (s :: post) n → load cell m n = σ n)
    (hs : ∀ w ∈ s.writes, n ≠ w → Disjoint (Set.range (cell w)) (Set.range (cell n)))
    (hn : Needed outs post n) : load cell (s.execAt cell m) n = s.exec σ n := by
  rw [Step.execAt, load_foldl_extend hinj _ hs, Step.exec]
  split_ifs with hw
  · exact s.result_congr (fun r hr => h r (needed_of_mem_reads hr)) n hw
  · exact h n (hn.cons hw)

/-- The needed objects are in memory after any part of a program. -/
theorem Undisturbed.load_runAt (hinj : ∀ n, Injective (cell n))
    (h : Undisturbed cell outs (pre ++ post))
    (hinit : ∀ n, Needed outs (pre ++ post) n → load cell m n = σ n) (hn : Needed outs post n) :
    load cell (runAt cell m pre) n = run σ pre n := by
  induction pre using reverseRecOn generalizing post n with
  | nil => exact hinit n hn
  | append_singleton pre s ih =>
    rw [append_assoc, singleton_append] at h hinit
    rw [runAt, run, foldl_append, foldl_append]
    exact load_execAt hinj (fun n' hn' => ih h hinit hn')
      (fun w hw hne => h pre s post rfl w hw n hn hne) hn

/-- The program computes the same with its objects in memory : every step reads what it reads
with stores of its own, and the objects `outs` end up the same. -/
def Refines (cell : ∀ n, Fin (size n) → κ) (outs : Set ν) (l : List (Step size α)) (m : κ → α)
    (σ : Store size α) : Prop :=
  (∀ pre s post, l = pre ++ s :: post → ∀ n ∈ s.reads,
    load cell (runAt cell m pre) n = run σ pre n) ∧
  ∀ n ∈ outs, load cell (runAt cell m l) n = run σ l n

theorem Undisturbed.refines (h : Undisturbed cell outs l) (hinj : ∀ n, Injective (cell n))
    (hinit : ∀ n, Needed outs l n → load cell m n = σ n) : Refines cell outs l m σ := by
  constructor
  · rintro pre s post rfl n hn
    exact h.load_runAt hinj hinit (needed_of_mem_reads hn)
  · intro n hn
    rw [← append_nil l] at h hinit
    exact h.load_runAt hinj hinit (.inl ⟨hn, by simp⟩)

end Residency
