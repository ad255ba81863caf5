import Mathlib
import TorchSpyre.Checked

/-!
# Ordering by depth-first search

A key is visited once : it is marked, then the keys it depends on are visited, then it is put
out. If the keys a key depends on have smaller rank, a marked key that is not out yet is above
everything visited below it, so no search comes back to it. Then every key comes out after the
keys it depends on (`run_ok`). A fuel above every rank is enough.
-/

open List

namespace DepthFirst

open Checked

variable {κ : Type} [DecidableEq κ] (deps : κ → List κ)

/-- The marked keys, and the keys in the order in which they come out. -/
structure State (κ : Type) where
  seen : List κ
  ordered : List κ

/-- Visit a key. An error if the fuel runs out. -/
def visit : ℕ → State κ → κ → Except String (State κ)
  | 0, _, _ => .error "RecursionError"
  | fuel + 1, s, key =>
    if key ∈ s.seen then .ok s
    else do
      let s' ← foldE (visit fuel) ⟨key :: s.seen, s.ordered⟩ (deps key)
      return { s' with ordered := s'.ordered ++ [key] }

/-- Visit keys one after the other. -/
def run (fuel : ℕ) (keys : List κ) : Except String (List κ) := do
  let s ← foldE (visit deps fuel) ⟨[], []⟩ keys
  return s.ordered

/-- Every key of the list comes after the keys it depends on. -/
def InOrder (l : List κ) : Prop :=
  ∀ pre k post, l = pre ++ k :: post → ∀ d ∈ deps k, d ∈ pre

variable {deps}

omit [DecidableEq κ] in
theorem InOrder.append_singleton {l : List κ} (h : InOrder deps l) {k : κ}
    (hk : ∀ d ∈ deps k, d ∈ l) : InOrder deps (l ++ [k]) := by
  intro pre x post hl d hd
  rcases append_eq_append_iff.1 hl with ⟨mid, rfl, hmid⟩ | ⟨mid, rfl, hmid⟩
  · rcases cons_eq_append_iff.1 hmid with ⟨rfl, hx⟩ | ⟨mid', rfl, hx⟩
    · obtain ⟨rfl, -⟩ := List.cons.inj hx
      simpa using hk d hd
    · simp at hx
  · cases mid with
    | nil =>
      obtain ⟨rfl, -⟩ := List.cons.inj hmid
      simpa using hk d hd
    | cons y mid =>
      obtain ⟨rfl, -⟩ := List.cons.inj hmid
      exact h pre x mid rfl d hd

/-- What holds between two visits. -/
structure Inv (deps : κ → List κ) (U : κ → Prop) (s : State κ) : Prop where
  nodup : s.ordered.Nodup
  marked : ∀ k ∈ s.ordered, k ∈ s.seen
  inOrder : InOrder deps s.ordered
  within : ∀ k ∈ s.ordered, U k

/-- What comes out of a visit was not marked before, and what is marked now but not out was so
before. -/
structure Beyond (s s' : State κ) : Prop where
  kept : ∀ k ∈ s.ordered, k ∈ s'.ordered
  marked : ∀ k ∈ s.seen, k ∈ s'.seen
  fresh : ∀ k ∈ s'.ordered, k ∈ s.ordered ∨ k ∉ s.seen
  open_ : ∀ k ∈ s'.seen, k ∉ s'.ordered → k ∈ s.seen ∧ k ∉ s.ordered

omit [DecidableEq κ] in
theorem Beyond.refl (s : State κ) : Beyond s s :=
  ⟨fun _ h => h, fun _ h => h, fun _ h => .inl h, fun _ h h' => ⟨h, h'⟩⟩

omit [DecidableEq κ] in
theorem Beyond.trans {s t u : State κ} (h : Beyond s t) (h' : Beyond t u) : Beyond s u where
  kept k hk := h'.kept k (h.kept k hk)
  marked k hk := h'.marked k (h.marked k hk)
  fresh k hk := by
    rcases h'.fresh k hk with hk | hk
    · exact h.fresh k hk
    · exact .inr fun hs => hk (h.marked k hs)
  open_ k hk hout := by
    obtain ⟨hk, hout⟩ := h'.open_ k hk hout
    exact h.open_ k hk hout

section Rank

variable {U : κ → Prop} {rank : κ → ℕ}
  (hdeps : ∀ k, U k → ∀ d ∈ deps k, U d ∧ rank d < rank k)
include hdeps

/-- A visit succeeds, and the key is out, if everything marked and not out has larger rank. -/
theorem visit_ok {fuel : ℕ} : ∀ {s : State κ} {k : κ}, rank k < fuel → U k → Inv deps U s →
    (∀ x ∈ s.seen, x ∉ s.ordered → rank k < rank x) →
    ∃ s', visit deps fuel s k = .ok s' ∧ Inv deps U s' ∧ Beyond s s' ∧ k ∈ s'.ordered := by
  induction fuel with
  | zero => exact fun h => absurd h (Nat.not_lt_zero _)
  | succ fuel ih =>
    intro s k hfuel hk hinv hopen
    rw [visit]
    by_cases hseen : k ∈ s.seen
    · refine ⟨s, if_pos hseen, hinv, .refl s, ?_⟩
      by_contra hout
      exact lt_irrefl _ (hopen k hseen hout)
    have hkout : k ∉ s.ordered := fun h => hseen (hinv.marked k h)
    have hinv₁ : Inv deps U ⟨k :: s.seen, s.ordered⟩ :=
      ⟨hinv.nodup, fun x hx => mem_cons_of_mem _ (hinv.marked x hx), hinv.inOrder,
        hinv.within⟩
    -- the dependencies are visited with `k` marked
    obtain ⟨s₂, hrun, hinv₂, hbeyond, hall⟩ := foldE_ok (l := deps k) (f := visit deps fuel)
      (I := fun done t => Inv deps U t ∧ Beyond ⟨k :: s.seen, s.ordered⟩ t ∧
        ∀ d ∈ done, d ∈ t.ordered) (fun pre d post t hl hI => by
          obtain ⟨hU, hlt⟩ := hdeps k hk d (by simp [hl])
          obtain ⟨t', hvisit, hinv', hbeyond', hd⟩ := ih (by omega) hU hI.1 fun x hx hout => by
            obtain ⟨hx, hout⟩ := hI.2.1.open_ x hx hout
            rcases mem_cons.1 hx with rfl | hx
            · exact hlt
            · exact hlt.trans (hopen x hx hout)
          refine ⟨t', hvisit, hinv', hI.2.1.trans hbeyond', fun x hx => ?_⟩
          rcases mem_append.1 hx with hx | hx
          · exact hbeyond'.kept x (hI.2.2 x hx)
          · rw [mem_singleton.1 hx]
            exact hd) (s := ⟨k :: s.seen, s.ordered⟩) ⟨hinv₁, .refl _, by simp⟩
    have hknew : k ∉ s₂.ordered := fun h => by
      rcases hbeyond.fresh k h with h | h
      · exact hkout h
      · exact h mem_cons_self
    refine ⟨{ s₂ with ordered := s₂.ordered ++ [k] }, ?_, ⟨?_, ?_, ?_, ?_⟩, ⟨?_, ?_, ?_, ?_⟩, ?_⟩
    · rw [if_neg hseen]
      exact bind_eq_ok_iff.2 ⟨s₂, hrun, rfl⟩
    · exact nodup_append.2 ⟨hinv₂.nodup, nodup_singleton k, fun x hx y hy h =>
        hknew (mem_singleton.1 hy ▸ h ▸ hx)⟩
    · intro x hx
      rcases mem_append.1 hx with hx | hx
      · exact hinv₂.marked x hx
      · rw [mem_singleton.1 hx]
        exact hbeyond.marked k mem_cons_self
    · exact hinv₂.inOrder.append_singleton hall
    · intro x hx
      rcases mem_append.1 hx with hx | hx
      · exact hinv₂.within x hx
      · exact mem_singleton.1 hx ▸ hk
    · exact fun x hx => mem_append_left _ (hbeyond.kept x hx)
    · exact fun x hx => hbeyond.marked x (mem_cons_of_mem _ hx)
    · intro x hx
      rcases mem_append.1 hx with hx | hx
      · exact (hbeyond.fresh x hx).imp_right fun h h' => h (mem_cons_of_mem _ h')
      · rw [mem_singleton.1 hx]
        exact .inr hseen
    · intro x hx hout
      simp only [mem_append, mem_singleton, not_or] at hout
      obtain ⟨hx, hxout⟩ := hbeyond.open_ x hx hout.1
      exact ⟨(mem_cons.1 hx).resolve_left hout.2, hxout⟩
    · exact mem_append_right _ (mem_singleton_self k)

/-- The search puts out every key once, after the keys it depends on. -/
theorem run_ok {fuel : ℕ} {keys : List κ} (hkeys : ∀ k ∈ keys, U k ∧ rank k < fuel) :
    ∃ l, run deps fuel keys = .ok l ∧ l.Nodup ∧ (∀ k ∈ keys, k ∈ l) ∧ (∀ k ∈ l, U k) ∧
      InOrder deps l := by
  obtain ⟨s, hrun, hinv, -, hall⟩ := foldE_ok (l := keys) (f := visit deps fuel)
    (I := fun done s => Inv deps U s ∧ (∀ x ∈ s.seen, x ∈ s.ordered) ∧ ∀ k ∈ done, k ∈ s.ordered)
    (fun pre k post s hl hI => by
      obtain ⟨hU, hfuel⟩ := hkeys k (by simp [hl])
      obtain ⟨s', hvisit, hinv', hbeyond, hk⟩ := visit_ok hdeps hfuel hU hI.1
        fun x hx hout => absurd (hI.2.1 x hx) hout
      refine ⟨s', hvisit, hinv', fun x hx => ?_, fun x hx => ?_⟩
      · by_contra hout
        obtain ⟨hx, hout⟩ := hbeyond.open_ x hx hout
        exact hout (hI.2.1 x hx)
      · rcases mem_append.1 hx with hx | hx
        · exact hbeyond.kept x (hI.2.2 x hx)
        · rw [mem_singleton.1 hx]
          exact hk) (s := ⟨[], []⟩)
    ⟨⟨nodup_nil, by simp, fun pre k post h => by simp at h, by simp⟩, by simp, by simp⟩
  exact ⟨s.ordered, bind_eq_ok_iff.2 ⟨s, hrun, rfl⟩, hinv.nodup, hall, hinv.within, hinv.inOrder⟩

end Rank

end DepthFirst
