import Mathlib

/-!
# Checked computations

Code that validates its input is a computation in `Except`. A check that runs over
a list stops at the first failure, so it succeeds exactly when every element passes
(`checkAll_eq_ok_iff`). A guard succeeds exactly when its condition holds
(`guardE_eq_ok_iff`). A function that may fail maps over a list when it succeeds on every
element (`mem_of_mapE`). A step that may fail runs over a list with an invariant, to show
that the run succeeds (`foldE_ok`), to describe one that did (`foldE_inv`) or to describe both
outcomes (`foldE_cases`). One run follows
another where each step does (`foldE_rel`, `foldE_follow`).
-/

open List

namespace Checked

variable {ε α β : Type}

/-- Fail with `e` unless `p` holds. -/
def guardE (p : Prop) [Decidable p] (e : ε) : Except ε Unit :=
  if p then .ok () else .error e

variable {l : List α} {ys : List β} {u : Unit} {x : α} {f : α → Except ε β} {h : α → β}

@[simp] theorem guardE_eq_ok_iff {p : Prop} [Decidable p] {e : ε} :
    guardE p e = .ok u ↔ p := by
  unfold guardE
  split_ifs with h <;> simp [h]

/-- A sequence succeeds when its first part does and the rest does on its result. -/
theorem bind_eq_ok_iff {x : Except ε α} {b : β} :
    (x >>= f) = .ok b ↔ ∃ a, x = .ok a ∧ f a = .ok b := by
  cases x with
  | error e => simp [bind, Except.bind]
  | ok a => simp [bind, Except.bind]

theorem exists_eq_ok {x : Except ε α} (h : x.isOk = true) : ∃ a, x = .ok a := by
  cases x with
  | error e => cases h
  | ok a => exact ⟨a, rfl⟩

/-- Run the check `f` on each element in order, stopping at the first failure. -/
def checkAll (f : α → Except ε Unit) : List α → Except ε Unit
  | [] => .ok ()
  | x :: l => do
    f x
    checkAll f l

theorem checkAll_map {f : β → Except ε Unit} :
    ∀ l : List α, checkAll f (l.map h) = checkAll (fun x => f (h x)) l
  | [] => rfl
  | x :: l => by
    rw [map_cons, checkAll, checkAll, checkAll_map l]

/-- A check over a list succeeds when every element passes it. -/
theorem checkAll_eq_ok_iff {f : α → Except ε Unit} :
    checkAll f l = .ok u ↔ ∀ x ∈ l, f x = .ok () := by
  induction l with
  | nil => simp [checkAll]
  | cons x l ih =>
    simp only [checkAll, bind_eq_ok_iff, ih, forall_mem_cons]
    constructor
    · rintro ⟨⟨⟩, hx, hl⟩
      exact ⟨hx, hl⟩
    · rintro ⟨hx, hl⟩
      exact ⟨(), hx, hl⟩

/-- Map a function that may fail over a list, stopping at the first failure. -/
def mapE (f : α → Except ε β) : List α → Except ε (List β)
  | [] => .ok []
  | x :: l => do
    let y ← f x
    let ys ← mapE f l
    .ok (y :: ys)

theorem mapE_cons (h : mapE f (x :: l) = .ok ys) :
    ∃ z zs, f x = .ok z ∧ mapE f l = .ok zs ∧ ys = z :: zs := by
  obtain ⟨z, hz, h⟩ := bind_eq_ok_iff.1 h
  obtain ⟨zs, hzs, h⟩ := bind_eq_ok_iff.1 h
  exact ⟨z, zs, hz, hzs, (Except.ok.inj h).symm⟩

theorem mem_of_mapE (h : mapE f l = .ok ys) {y : β} (hy : y ∈ ys) : ∃ x ∈ l, f x = .ok y := by
  induction l generalizing ys with
  | nil =>
    cases Except.ok.inj h
    cases hy
  | cons x l ih =>
    obtain ⟨z, zs, hz, hzs, rfl⟩ := mapE_cons h
    rcases mem_cons.1 hy with rfl | hy
    · exact ⟨x, mem_cons_self, hz⟩
    · obtain ⟨w, hw, hwy⟩ := ih hzs hy
      exact ⟨w, mem_cons_of_mem x hw, hwy⟩

theorem mapE_append {m : List α} :
    ∀ {l : List α} {ys : List β}, mapE f (l ++ m) = .ok ys →
      ∃ ys₁ ys₂, mapE f l = .ok ys₁ ∧ mapE f m = .ok ys₂ ∧ ys = ys₁ ++ ys₂
  | [], ys, h => ⟨[], ys, rfl, h, rfl⟩
  | x :: l, _, h => by
    obtain ⟨z, zs, hz, hzs, rfl⟩ := mapE_cons h
    obtain ⟨ys₁, ys₂, h₁, h₂, rfl⟩ := mapE_append hzs
    exact ⟨z :: ys₁, ys₂, bind_eq_ok_iff.2 ⟨z, hz, bind_eq_ok_iff.2 ⟨ys₁, h₁, rfl⟩⟩, h₂, rfl⟩

theorem mapE_ok :
    ∀ {l : List α}, (∀ x ∈ l, ∃ y, f x = .ok y) → ∃ ys, mapE f l = .ok ys
  | [], _ => ⟨[], rfl⟩
  | x :: l, h => by
    obtain ⟨y, hy⟩ := h x mem_cons_self
    obtain ⟨ys, hys⟩ := mapE_ok fun w hw => h w (mem_cons_of_mem x hw)
    exact ⟨y :: ys, bind_eq_ok_iff.2 ⟨y, hy, bind_eq_ok_iff.2 ⟨ys, hys, rfl⟩⟩⟩

/-- The arguments with their results. -/
theorem pairs_of_mapE :
    ∀ {l : List α} {ys : List β}, mapE f l = .ok ys →
      ∃ ps : List (α × β), ps.map Prod.fst = l ∧ ps.map Prod.snd = ys ∧
        ∀ p ∈ ps, f p.1 = .ok p.2
  | [], _, h => ⟨[], rfl, Except.ok.inj h, fun p hp => absurd hp not_mem_nil⟩
  | x :: l, _, h => by
    obtain ⟨z, zs, hz, hzs, rfl⟩ := mapE_cons h
    obtain ⟨ps, rfl, rfl, hps⟩ := pairs_of_mapE hzs
    exact ⟨(x, z) :: ps, rfl, rfl, forall_mem_cons.2 ⟨hz, hps⟩⟩

theorem length_of_mapE (h : mapE f l = .ok ys) :
    ys.length = l.length := by
  obtain ⟨ps, rfl, rfl, -⟩ := pairs_of_mapE h
  simp

theorem mapE_congr {g : α → Except ε β} (h : mapE f l = .ok ys)
    (hfg : ∀ x ∈ l, ∀ y, f x = .ok y → g x = .ok y) : mapE g l = .ok ys := by
  induction l generalizing ys with
  | nil => exact h
  | cons x l ih =>
    obtain ⟨z, zs, hz, hzs, rfl⟩ := mapE_cons h
    exact bind_eq_ok_iff.2 ⟨z, hfg x mem_cons_self z hz, bind_eq_ok_iff.2
      ⟨zs, ih hzs fun w hw => hfg w (mem_cons_of_mem x hw), rfl⟩⟩

theorem getElem?_of_mapE (h : mapE f l = .ok ys) {i : ℕ} (hx : l[i]? = some x) :
    ∃ y, ys[i]? = some y ∧ f x = .ok y := by
  obtain ⟨ps, rfl, rfl, hps⟩ := pairs_of_mapE h
  rw [getElem?_map] at hx ⊢
  obtain ⟨p, hp, rfl⟩ := Option.map_eq_some_iff.1 hx
  exact ⟨p.2, by rw [hp]; rfl, hps p (mem_of_getElem? hp)⟩

/-- A function that succeeds everywhere on the list maps as a plain one. -/
theorem mapE_eq_map {g : α → β} :
    ∀ {l : List α}, (∀ x ∈ l, f x = .ok (g x)) → mapE f l = .ok (l.map g)
  | [], _ => rfl
  | x :: l, h =>
    bind_eq_ok_iff.2 ⟨g x, h x mem_cons_self, bind_eq_ok_iff.2
      ⟨l.map g, mapE_eq_map fun w hw => h w (mem_cons_of_mem x hw), rfl⟩⟩

/-- A function of the results that is known from the arguments. -/
theorem map_eq_of_mapE {γ : Type*} {g : β → γ} {h : α → γ} :
    ∀ {l : List α} {ys : List β}, mapE f l = .ok ys → (∀ x ∈ l, ∀ y, f x = .ok y → g y = h x) →
      ys.map g = l.map h
  | [], _, hl, _ => by
    cases Except.ok.inj hl
    rfl
  | x :: l, _, hl, hf => by
    obtain ⟨z, zs, hz, hzs, rfl⟩ := mapE_cons hl
    rw [map_cons, map_cons, hf x mem_cons_self z hz,
      map_eq_of_mapE hzs fun w hw => hf w (mem_cons_of_mem x hw)]

variable {σ : Type}

/-- Run a step that may fail over a list. -/
def foldE (f : σ → α → Except ε σ) : σ → List α → Except ε σ
  | s, [] => .ok s
  | s, x :: l => do
    let s' ← f s x
    foldE f s' l

/-- A run none of whose steps fails is a fold. -/
theorem foldE_eq_foldl {f : σ → α → Except ε σ} {g : σ → α → σ} :
    ∀ {l : List α}, (∀ x ∈ l, ∀ s, f s x = .ok (g s x)) → ∀ s, foldE f s l = .ok (l.foldl g s)
  | [], _, _ => rfl
  | x :: _, h, s => by
    rw [foldE, h x (by simp)]
    exact foldE_eq_foldl (fun y hy => h y (by simp [hy])) (g s x)

theorem foldE_append {f : σ → α → Except ε σ} {m : List α} {s' : σ} :
    ∀ {l : List α} {s : σ}, foldE f s (l ++ m) = .ok s' ↔
      ∃ t, foldE f s l = .ok t ∧ foldE f t m = .ok s'
  | [], s => by simp [foldE]
  | y :: l, s => by
    rw [cons_append, foldE, foldE, bind_eq_ok_iff]
    simp only [bind_eq_ok_iff, foldE_append]
    constructor
    · rintro ⟨t, ht, u, hu, hm⟩
      exact ⟨u, ⟨t, ht, hu⟩, hm⟩
    · rintro ⟨u, ⟨t, ht, hu⟩, hm⟩
      exact ⟨t, ht, u, hu, hm⟩

theorem foldE_concat {f : σ → α → Except ε σ} {x : α} {l : List α} {s s' : σ} :
    foldE f s (l ++ [x]) = .ok s' ↔ ∃ t, foldE f s l = .ok t ∧ f t x = .ok s' := by
  simp [foldE_append, foldE, bind_eq_ok_iff]

/-- The invariant rule : a step that succeeds and keeps an invariant of what has been done
makes the whole run succeed and keep it. -/
theorem foldE_ok {f : σ → α → Except ε σ} {I : List α → σ → Prop} {l : List α}
    (hstep : ∀ pre x post s, l = pre ++ x :: post → I pre s →
      ∃ s', f s x = .ok s' ∧ I (pre ++ [x]) s') {s : σ} (hs : I [] s) :
    ∃ s', foldE f s l = .ok s' ∧ I l s' := by
  suffices h : ∀ post pre s, l = pre ++ post → I pre s →
      ∃ s', foldE f s post = .ok s' ∧ I l s' from h l [] s rfl hs
  intro post
  induction post with
  | nil =>
    intro pre s hl hI
    rw [append_nil] at hl
    exact ⟨s, rfl, hl ▸ hI⟩
  | cons x post ih =>
    intro pre s hl hI
    obtain ⟨s', hf, hI'⟩ := hstep pre x post s hl hI
    obtain ⟨s'', hrun, hend⟩ := ih (pre ++ [x]) s' (by simpa using hl) hI'
    exact ⟨s'', bind_eq_ok_iff.2 ⟨s', hf, hrun⟩, hend⟩

theorem foldE_snoc {f : σ → α → Except ε σ} {x : α} {l : List α} {s s' s'' : σ}
    (h : foldE f s l = .ok s') (hx : f s' x = .ok s'') : foldE f s (l ++ [x]) = .ok s'' :=
  foldE_concat.2 ⟨s', h, hx⟩

/-- The invariant rule for a step that may fail : each state reached keeps the invariant, and a
failure says `E`. -/
theorem foldE_cases {f : σ → α → Except ε σ} {I : List α → σ → Prop} {E : ε → Prop} {l : List α}
    {s : σ} (hstep : ∀ pre x post t, l = pre ++ x :: post → foldE f s pre = .ok t → I pre t →
      (∃ t', f t x = .ok t' ∧ I (pre ++ [x]) t') ∨ ∃ e, f t x = .error e ∧ E e) (hs : I [] s) :
    (∃ t, foldE f s l = .ok t ∧ I l t) ∨ ∃ e, foldE f s l = .error e ∧ E e := by
  suffices h : ∀ post pre t, l = pre ++ post → foldE f s pre = .ok t → I pre t →
      (∃ t', foldE f t post = .ok t' ∧ I l t') ∨ ∃ e, foldE f t post = .error e ∧ E e from
    h l [] s rfl rfl hs
  intro post
  induction post with
  | nil =>
    intro pre t hl _ hI
    rw [append_nil] at hl
    exact .inl ⟨t, rfl, hl ▸ hI⟩
  | cons x post ih =>
    intro pre t hl hrun hI
    rcases hstep pre x post t hl hrun hI with ⟨t', hx, hI'⟩ | ⟨e, hx, hE⟩
    · rcases ih (pre ++ [x]) t' (by simpa using hl) (foldE_snoc hrun hx) hI' with
        ⟨u, hu, hIu⟩ | ⟨e, he, hE⟩
      · exact .inl ⟨u, bind_eq_ok_iff.2 ⟨t', hx, hu⟩, hIu⟩
      · exact .inr ⟨e, by rw [foldE, hx]; exact he, hE⟩
    · exact .inr ⟨e, by rw [foldE, hx]; rfl, hE⟩

/-- What each step keeps holds of the result of a run that succeeded. -/
theorem foldE_inv {f : σ → α → Except ε σ} {I : List α → σ → Prop} {l : List α}
    (hstep : ∀ pre x post s s', l = pre ++ x :: post → I pre s → f s x = .ok s' →
      I (pre ++ [x]) s') {s s' : σ} (hs : I [] s) (h : foldE f s l = .ok s') : I l s' := by
  suffices hrun : ∀ post pre s, l = pre ++ post → I pre s → foldE f s post = .ok s' → I l s' from
    hrun l [] s rfl hs h
  intro post
  induction post with
  | nil =>
    intro pre s hl hI hf
    rw [append_nil] at hl
    exact hl ▸ Except.ok.inj hf ▸ hI
  | cons x post ih =>
    intro pre s hl hI hf
    obtain ⟨s₁, hx, hrun⟩ := bind_eq_ok_iff.1 hf
    exact ih (pre ++ [x]) s₁ (by simpa using hl) (hstep pre x post s s₁ hl hI hx) hrun

/-- A run follows another step by step. -/
theorem foldE_rel {τ ε' : Type} {f : σ → α → Except ε σ} {g : τ → α → Except ε' τ}
    {R : σ → τ → Prop} :
    ∀ {l : List α}, (∀ x ∈ l, ∀ s t s', R s t → f s x = .ok s' → ∃ t', g t x = .ok t' ∧ R s' t') →
      ∀ {s s' : σ} {t : τ}, R s t → foldE f s l = .ok s' → ∃ t', foldE g t l = .ok t' ∧ R s' t'
  | [], _, _, _, t, hR, h => ⟨t, rfl, Except.ok.inj h ▸ hR⟩
  | x :: l, hstep, s, s', t, hR, h => by
    obtain ⟨s₁, hx, hrun⟩ := bind_eq_ok_iff.1 h
    obtain ⟨t₁, hx', hR₁⟩ := hstep x (by simp) s t s₁ hR hx
    obtain ⟨t', hrun', hR'⟩ := foldE_rel (fun y hy => hstep y (mem_cons_of_mem _ hy)) hR₁ hrun
    exact ⟨t', bind_eq_ok_iff.2 ⟨t₁, hx', hrun'⟩, hR'⟩

/-- A run seen through `φ`, without the elements whose steps `φ` does not see. What a step shows
may rest on the state `e` the run leads to : `L` relates a state to the later ones. -/
theorem foldE_follow {f g : σ → α → Except ε σ} {φ : σ → σ} {I : σ → Prop} {L : σ → σ → Prop}
    {p : α → Bool} {e : σ} (hrefl : ∀ s, L s s) (htrans : ∀ s t u, L s t → L t u → L s u) :
    ∀ {l : List α}, (∀ x ∈ l, ∀ s s', I s → f s x = .ok s' → I s' ∧ L s s' ∧
        (L s' e → if p x then g (φ s) x = .ok (φ s') else φ s' = φ s)) →
      ∀ {s s' : σ}, I s → foldE f s l = .ok s' → I s' ∧ L s s' ∧
        (L s' e → foldE g (φ s) (l.filter p) = .ok (φ s'))
  | [], _, s, s', hI, h => by
    obtain rfl := Except.ok.inj h
    exact ⟨hI, hrefl s, fun _ => rfl⟩
  | x :: l, hstep, s, s', hI, h => by
    obtain ⟨s₁, hx, hrun⟩ := bind_eq_ok_iff.1 h
    obtain ⟨hI₁, hL₁, hsim⟩ := hstep x (by simp) s s₁ hI hx
    obtain ⟨hI', hL', hrest⟩ := foldE_follow hrefl htrans
      (fun y hy => hstep y (mem_cons_of_mem _ hy)) hI₁ hrun
    refine ⟨hI', htrans _ _ _ hL₁ hL', fun he => ?_⟩
    have hone := hsim (htrans _ _ _ hL' he)
    by_cases hp : p x = true
    · rw [if_pos hp] at hone
      rw [filter_cons_of_pos hp]
      exact bind_eq_ok_iff.2 ⟨φ s₁, hone, hrest he⟩
    · rw [if_neg hp] at hone
      rw [filter_cons_of_neg hp, ← hone]
      exact hrest he

theorem foldE_map {f : σ → β → Except ε σ} :
    ∀ (s : σ) (l : List α), foldE f s (l.map h) = foldE (fun s x => f s (h x)) s l
  | _, [] => rfl
  | s, x :: l => by
    rw [map_cons, foldE, foldE]
    exact congrArg _ (funext fun s' => foldE_map s' l)

end Checked
