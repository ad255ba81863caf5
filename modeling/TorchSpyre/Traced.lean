import Mathlib

/-!
# Programs that mark states

Code that works on one state by side effects is a function from the state to a result and a
state after it. Such a program can mark states on its way, for statements about every moment
and not only about the end. A triple (`Triple`) bounds both : started in `P` the program ends
in `Q`, and every state it marks satisfies `M`.
-/

namespace Traced

/-- A result, the state after, and the states marked on the way. -/
def Prog (σ α : Type) : Type :=
  σ → α × σ × List σ

variable {σ α β : Type}

instance : Monad (Prog σ) where
  pure a := fun s => (a, s, [])
  bind p f := fun s =>
    let r := p s
    let q := f r.1 r.2.1
    (q.1, q.2.1, r.2.2 ++ q.2.2)

/-- Read the state. -/
def get : Prog σ σ :=
  fun s => (s, s, [])

/-- Change the state. -/
def modify (f : σ → σ) : Prog σ Unit :=
  fun s => ((), f s, [])

/-- Mark the state. -/
def mark : Prog σ Unit :=
  fun s => ((), s, [s])

@[simp] theorem pure_apply (a : α) (s : σ) : (pure a : Prog σ α) s = (a, s, []) :=
  rfl

@[simp] theorem bind_apply (p : Prog σ α) (f : α → Prog σ β) (s : σ) :
    (p >>= f) s = ((f (p s).1 (p s).2.1).1, (f (p s).1 (p s).2.1).2.1,
      (p s).2.2 ++ (f (p s).1 (p s).2.1).2.2) :=
  rfl

@[simp] theorem get_apply (s : σ) : (get : Prog σ σ) s = (s, s, []) :=
  rfl

@[simp] theorem modify_apply (f : σ → σ) (s : σ) : modify f s = ((), f s, []) :=
  rfl

@[simp] theorem mark_apply (s : σ) : mark s = ((), s, [s]) :=
  rfl

/-- Run a body for each element of a list. -/
def forEach (f : β → Prog σ Unit) : List β → Prog σ Unit
  | [] => pure ()
  | b :: l => do
    f b
    forEach f l

/-- Started in a state of `P`, the program ends in `Q` and marks only states of `M`. -/
def Triple (M P : σ → Prop) (p : Prog σ α) (Q : α → σ → Prop) : Prop :=
  ∀ s, P s → Q (p s).1 (p s).2.1 ∧ ∀ t ∈ (p s).2.2, M t

namespace Triple

variable {M P P' : σ → Prop} {Q Q' : α → σ → Prop} {R : β → σ → Prop} {p : Prog σ α}

theorem pure {a : α} (h : ∀ s, P s → Q a s) : Triple M P (pure a) Q :=
  fun s hs => ⟨h s hs, fun _ ht => absurd ht List.not_mem_nil⟩

theorem bind {f : α → Prog σ β} (hp : Triple M P p Q) (hf : ∀ a, Triple M (Q a) (f a) R) :
    Triple M P (p >>= f) R := by
  intro s hs
  obtain ⟨hq, hm⟩ := hp s hs
  obtain ⟨hr, hm'⟩ := hf _ _ hq
  refine ⟨hr, fun t ht => ?_⟩
  rcases List.mem_append.mp ht with ht | ht
  · exact hm t ht
  · exact hm' t ht

theorem conseq (hp : Triple M P p Q) (hpre : ∀ s, P' s → P s) (hpost : ∀ a s, Q a s → Q' a s) :
    Triple M P' p Q' :=
  fun s hs => ⟨hpost _ _ (hp s (hpre s hs)).1, (hp s (hpre s hs)).2⟩

theorem get {Q : σ → σ → Prop} (h : ∀ s, P s → Q s s) : Triple M P get Q :=
  fun s hs => ⟨h s hs, fun _ ht => absurd ht List.not_mem_nil⟩

/-- What follows a read may use the state that was read. -/
theorem get_bind {f : σ → Prog σ β} (h : ∀ s, Triple M (fun t => P t ∧ t = s) (f s) R) :
    Triple M P (Traced.get >>= f) R :=
  bind (get fun _ hs => And.intro hs rfl) h

/-- What follows a read may use what was known of the state, also after it has changed. -/
theorem read {f : σ → Prog σ β} (h : ∀ s, P s → Triple M P (f s) R) :
    Triple M P (Traced.get >>= f) R := by
  intro s hs
  exact h s hs s hs

theorem modify {f : σ → σ} {Q : Unit → σ → Prop} (h : ∀ s, P s → Q () (f s)) :
    Triple M P (modify f) Q :=
  fun s hs => ⟨h s hs, fun _ ht => absurd ht List.not_mem_nil⟩

theorem mark (h : ∀ s, P s → M s) : Triple M P mark (fun _ => P) :=
  fun s hs => ⟨hs, fun _ ht => List.mem_singleton.mp ht ▸ h s hs⟩

/-- A fact that does not mention the state can be used before the program runs. -/
theorem of_pre {c : Prop} (h : c → Triple M P p Q) : Triple M (fun s => P s ∧ c) p Q :=
  fun s hs => h hs.2 s hs.1

theorem ite {c : Prop} [Decidable c] {q : Prog σ α} (hp : c → Triple M P p Q)
    (hq : ¬c → Triple M P q Q) : Triple M P (if c then p else q) Q := by
  split_ifs with h
  · exact hp h
  · exact hq h

end Triple

end Traced
