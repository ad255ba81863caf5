import Mathlib
import TorchSpyre.Checked

/-!
# Backtracking over one shared assignment

A search tries every combination of options for a list of keys, depth first. There is one
assignment, changed on the way down and set back on the way up, and the best combination so far
is copied out of it. Scoring a combination may fail, and then the search does.

`search_explored` says what a call does, from any state : it leaves the assignment as it found
it, scores every combination, and ends with the best of what it had and what it scored. From a
state that has found nothing yet, that is a combination of least score (`search_optimal`).
-/

open List Function

namespace Backtracking

open Checked

variable {κ : Type} [DecidableEq κ] {ε : Type}

/-- The shared assignment, and the best combination so far with its score, `none` before there is
one. -/
structure State (κ : Type) where
  assignment : κ → ℕ
  bestTotal : Option ℤ
  best : κ → ℕ

/-- Some score so far is at most `x`. -/
def AtMost (total : Option ℤ) (x : ℤ) : Prop :=
  ∃ y, total = some y ∧ y ≤ x

instance (total : Option ℤ) (x : ℤ) : Decidable (AtMost total x) :=
  match total with
  | none => isFalse fun h => nomatch h
  | some y => decidable_of_iff (y ≤ x) ⟨fun h => ⟨y, rfl, h⟩, fun h => by
      obtain ⟨z, hz, hle⟩ := h
      exact Option.some.inj hz ▸ hle⟩

/-- Try every option of the keys listed. -/
def search (score : (κ → ℕ) → Except ε ℤ) : List (κ × ℕ) → State κ → Except ε (State κ)
  | [], s => do
    let total ← score s.assignment
    return if AtMost s.bestTotal total then s
      else { s with bestTotal := some total, best := s.assignment }
  | v :: rest, s => do
    let s' ← foldE (fun t option =>
      search score rest { t with assignment := Function.update t.assignment v.1 option }) s
        (List.range v.2)
    return { s' with assignment := Function.update s'.assignment v.1 (s.assignment v.1) }

/-- `f` takes an option for every key listed and is `base` elsewhere. -/
def Completes (vars : List (κ × ℕ)) (base f : κ → ℕ) : Prop :=
  (∀ k, k ∉ vars.map Prod.fst → f k = base k) ∧ ∀ v ∈ vars, f v.1 < v.2

section Completes

variable {v : κ × ℕ} {rest : List (κ × ℕ)} {base f : κ → ℕ}

omit [DecidableEq κ] in
theorem completes_nil : Completes [] base f ↔ f = base := by
  constructor
  · intro h
    exact funext fun k => h.1 k (by simp)
  · rintro rfl
    exact ⟨fun _ _ => rfl, by simp⟩

theorem Completes.tail (h : Completes (v :: rest) base f) :
    Completes rest (Function.update base v.1 (f v.1)) f := by
  refine ⟨fun k hk => ?_, fun w hw => h.2 w (mem_cons_of_mem _ hw)⟩
  by_cases hkv : k = v.1
  · rw [hkv, update_self]
  · rw [update_of_ne hkv]
    exact h.1 k (by simp only [map_cons, mem_cons, not_or]; exact ⟨hkv, hk⟩)

theorem Completes.cons {option : ℕ} (h : Completes rest (Function.update base v.1 option) f)
    (hv : v.1 ∉ rest.map Prod.fst) (hoption : option < v.2) : Completes (v :: rest) base f := by
  refine ⟨fun k hk => ?_, fun w hw => ?_⟩
  · simp only [map_cons, mem_cons, not_or] at hk
    rw [h.1 k hk.2, update_of_ne hk.1]
  · rcases mem_cons.1 hw with rfl | hw
    · rw [h.1 w.1 hv, update_self]
      exact hoption
    · exact h.2 w hw

end Completes

variable {score : (κ → ℕ) → Except ε ℤ} {vars : List (κ × ℕ)} {s s' : State κ}

/-- The best of a state is that of an earlier one, or a combination with its score. -/
def Found (score : (κ → ℕ) → Except ε ℤ) (P : (κ → ℕ) → Prop) (s s' : State κ) : Prop :=
  s'.bestTotal = s.bestTotal ∧ s'.best = s.best ∨
    P s'.best ∧ ∃ total, score s'.best = .ok total ∧ s'.bestTotal = some total

/-- `f` was scored, and the best is at least as good. -/
def Beaten (score : (κ → ℕ) → Except ε ℤ) (s' : State κ) (f : κ → ℕ) : Prop :=
  ∃ total, score f = .ok total ∧ AtMost s'.bestTotal total

omit [DecidableEq κ] in
theorem Beaten.mono {f : κ → ℕ} (h : Beaten score s f)
    (hle : ∀ x, AtMost s.bestTotal x → AtMost s'.bestTotal x) : Beaten score s' f := by
  obtain ⟨total, htotal, hs⟩ := h
  exact ⟨total, htotal, hle total hs⟩

/-- What a search does. -/
structure Explored (score : (κ → ℕ) → Except ε ℤ) (vars : List (κ × ℕ)) (s s' : State κ) :
    Prop where
  restores : s'.assignment = s.assignment
  improves : ∀ x, AtMost s.bestTotal x → AtMost s'.bestTotal x
  covers : ∀ f, Completes vars s.assignment f → Beaten score s' f
  found : Found score (Completes vars s.assignment) s s'

theorem explored_nil (h : search score [] s = .ok s') : Explored score [] s s' := by
  obtain ⟨total, htotal, hs'⟩ := bind_eq_ok_iff.1 h
  obtain rfl := Except.ok.inj hs'
  by_cases hle : AtMost s.bestTotal total
  · rw [if_pos hle]
    refine ⟨rfl, fun _ h => h, fun f hf => ?_, .inl ⟨rfl, rfl⟩⟩
    exact ⟨total, completes_nil.1 hf ▸ htotal, hle⟩
  · rw [if_neg hle]
    refine ⟨rfl, fun x hx => ⟨total, rfl, ?_⟩, fun f hf => ?_,
      .inr ⟨completes_nil.2 rfl, total, htotal, rfl⟩⟩
    · obtain ⟨y, hy, hyx⟩ := hx
      by_contra hlt
      exact hle ⟨y, hy, by omega⟩
    · exact ⟨total, completes_nil.1 hf ▸ htotal, total, rfl, le_rfl⟩

/-- What the loop over the options of a key has done, after the options listed. -/
structure Tried (score : (κ → ℕ) → Except ε ℤ) (v : κ × ℕ) (rest : List (κ × ℕ)) (s : State κ)
    (done : List ℕ) (t : State κ) : Prop where
  assignment : ∃ x, t.assignment = Function.update s.assignment v.1 x
  improves : ∀ x, AtMost s.bestTotal x → AtMost t.bestTotal x
  covers : ∀ f, Completes (v :: rest) s.assignment f → f v.1 ∈ done → Beaten score t f
  found : Found score (Completes (v :: rest) s.assignment) s t

theorem Tried.step {v : κ × ℕ} {rest : List (κ × ℕ)} {done : List ℕ} {t t' : State κ} {option : ℕ}
    (h : Tried score v rest s done t) (hv : v.1 ∉ rest.map Prod.fst) (hoption : option < v.2)
    (hrun : Explored score rest
      { t with assignment := Function.update t.assignment v.1 option } t') :
    Tried score v rest s (done ++ [option]) t' := by
  obtain ⟨x, hx⟩ := h.assignment
  have hbase : Function.update t.assignment v.1 option =
      Function.update s.assignment v.1 option := by
    rw [hx, update_idem]
  refine ⟨⟨option, hrun.restores.trans hbase⟩, fun x hx => hrun.improves x (h.improves x hx),
    fun f hf hmem => ?_, ?_⟩
  · rcases mem_append.1 hmem with hdone | hlast
    · exact (h.covers f hf hdone).mono hrun.improves
    · refine hrun.covers f ?_
      dsimp only
      rw [hbase, ← mem_singleton.1 hlast]
      exact hf.tail
  · rcases hrun.found with ⟨htotal, hbest⟩ | ⟨hcompletes, hscore⟩
    · unfold Found
      rw [htotal, hbest]
      exact h.found
    · dsimp only at hcompletes
      rw [hbase] at hcompletes
      exact .inr ⟨hcompletes.cons hv hoption, hscore⟩

/-- A search restores the assignment, scores every combination and keeps the best. -/
theorem search_explored (hnodup : (vars.map Prod.fst).Nodup) (h : search score vars s = .ok s') :
    Explored score vars s s' := by
  induction vars generalizing s s' with
  | nil => exact explored_nil h
  | cons v rest ih =>
    obtain ⟨hv, hrest⟩ := nodup_cons.1 hnodup
    obtain ⟨t, hloop, hs'⟩ := bind_eq_ok_iff.1 h
    obtain rfl := Except.ok.inj hs'
    have htried : Tried score v rest s (List.range v.2) t := by
      refine foldE_inv (fun pre option post u u' hl hu hrun => ?_) ?_ hloop
      · have hoption : option < v.2 := mem_range.1 (by rw [hl]; simp)
        exact hu.step hv hoption (ih hrest hrun)
      · exact ⟨⟨s.assignment v.1, (update_eq_self _ _).symm⟩, fun _ h => h,
          fun f _ hf => absurd hf not_mem_nil, .inl ⟨rfl, rfl⟩⟩
    obtain ⟨x, hx⟩ := htried.assignment
    refine ⟨?_, htried.improves, fun f hf => ?_, htried.found⟩
    · dsimp only
      rw [hx, update_idem, update_eq_self]
    · exact htried.covers f hf (mem_range.2 (hf.2 v mem_cons_self))

/-- A search ends where every combination can be scored. -/
theorem search_ok (hscore : ∀ f, ∃ total, score f = .ok total) (vars : List (κ × ℕ))
    (s : State κ) : ∃ s', search score vars s = .ok s' := by
  induction vars generalizing s with
  | nil =>
    obtain ⟨total, htotal⟩ := hscore s.assignment
    exact ⟨_, bind_eq_ok_iff.2 ⟨total, htotal, rfl⟩⟩
  | cons v rest ih =>
    obtain ⟨t, ht, -⟩ := foldE_ok (I := fun _ _ => True) (l := List.range v.2)
      (fun _ option _ t _ _ =>
        (ih { t with assignment := Function.update t.assignment v.1 option }).imp
          fun _ h => ⟨h, trivial⟩) (s := s) trivial
    exact ⟨_, bind_eq_ok_iff.2 ⟨t, ht, rfl⟩⟩

/-- A search that starts with nothing ends with a combination of least score. -/
theorem search_optimal (hnodup : (vars.map Prod.fst).Nodup) (hstart : s.bestTotal = none)
    (hoptions : ∀ v ∈ vars, 0 < v.2) (h : search score vars s = .ok s') :
    Completes vars s.assignment s'.best ∧ ∃ total, score s'.best = .ok total ∧
      ∀ f, Completes vars s.assignment f → ∃ other, score f = .ok other ∧ total ≤ other := by
  obtain ⟨-, -, hcovers, hfound⟩ := search_explored hnodup h
  have hfirst : Completes vars s.assignment fun k =>
      if k ∈ vars.map Prod.fst then 0 else s.assignment k := by
    refine ⟨fun k hk => if_neg hk, fun v hv => ?_⟩
    dsimp only
    rw [if_pos (mem_map.2 ⟨v, hv, rfl⟩)]
    exact hoptions v hv
  rcases hfound with ⟨htop, -⟩ | ⟨hcompletes, total, htotal, hbest⟩
  · obtain ⟨total, -, x, hx, -⟩ := hcovers _ hfirst
    rw [htop, hstart] at hx
    exact nomatch hx
  · refine ⟨hcompletes, total, htotal, fun f hf => ?_⟩
    obtain ⟨other, hother, x, hx, hle⟩ := hcovers f hf
    obtain rfl := Option.some.inj (hbest.symm.trans hx)
    exact ⟨other, hother, hle⟩

end Backtracking
