import Mathlib

/-!
# Loops over lists

A loop is a left fold. `foldl_inv` is the invariant rule, where the invariant speaks of the
elements done so far; `foldl_zipIdx` is the rule for a loop that counts. `foldl_of_mem` is for
a property that one element brings about and no element undoes.
-/

open List

namespace Loops

variable {α σ : Type} {l : List α}

theorem foldl_inv {f : σ → α → σ} {I : List α → σ → Prop}
    (hstep : ∀ pre x post s, l = pre ++ x :: post → I pre s → I (pre ++ [x]) (f s x)) {s : σ}
    (hs : I [] s) : I l (l.foldl f s) := by
  induction l using List.reverseRecOn with
  | nil => exact hs
  | append_singleton l x ih =>
    rw [foldl_append]
    refine hstep l x [] _ (by simp) (ih fun pre y post s hl => hstep pre y (post ++ [x]) s ?_)
    rw [hl, append_assoc, cons_append]

theorem foldl_zipIdx {f : σ → α × ℕ → σ} {I : ℕ → σ → Prop}
    (hstep : ∀ i x s, l[i]? = some x → I i s → I (i + 1) (f s (x, i))) {s : σ} (hs : I 0 s) :
    I l.length (l.zipIdx.foldl f s) := by
  induction l using List.reverseRecOn with
  | nil => exact hs
  | append_singleton l x ih =>
    rw [zipIdx_append, foldl_append]
    simp only [zipIdx_singleton, foldl_cons, foldl_nil, length_append,
      length_singleton, Nat.zero_add]
    refine hstep _ x _ (by simp) (ih fun i y s hi => hstep i y s ?_)
    rw [getElem?_append_left (List.getElem?_eq_some_iff.1 hi).1]
    exact hi

theorem foldl_of_mem {f : σ → α → σ} {P : σ → Prop} {x : α} (hx : x ∈ l)
    (hbring : ∀ s, P (f s x)) (hkeep : ∀ y ∈ l, ∀ s, P s → P (f s y)) (s : σ) :
    P (l.foldl f s) := by
  obtain ⟨pre, post, rfl⟩ := append_of_mem hx
  rw [foldl_append, foldl_cons]
  exact List.foldlRecOn post f (hbring _) fun s hs y hy =>
    hkeep y (mem_append_right _ (mem_cons_of_mem _ hy)) s hs

theorem foldl_update {κ β : Type} [DecidableEq κ] (d : κ → Option β) (keys : List κ) (v : β)
    (x : κ) : keys.foldl (fun d k => Function.update d k (some v)) d x =
      if x ∈ keys then some v else d x := by
  induction keys generalizing d with
  | nil => simp
  | cons k keys ih =>
    rw [foldl_cons, ih]
    by_cases hk : x = k
    · subst hk
      simp
    · simp [hk]

end Loops
