import Mathlib
import TorchSpyre.Annealer.Engine

/-!
# What a move keeps

The packer holds a flag and a size for every buffer, and the engine a count of the eligible
ones. All three follow from the vector of divisions, and a move refreshes them for the buffers
it changes and their parents only. `StateOk` says that they are what a computation from
scratch gives, and `applied_ok` that this is so after any change of divisions : eligibility of
a buffer depends on no other buffers than itself and its children.

A move writes to the live objects only (`Frame`). So it keeps every snapshot as it was, and a
program made of moves keeps whatever does not depend on the live objects (`Keeps`).
-/

open List Function

namespace TorchSpyre

open Traced PermLayout

namespace Annealer

variable {P : Problem}

/-! ## Where divisions come from -/

/-- A config of buffer `i` : a generated one, or one of its menu. -/
def OfBuffer (P : Problem) (i : ℕ) (c : DivisionConfig) : Prop :=
  (∃ d, c = configFor d) ∨ ∃ b, P.bufs[i]? = some b ∧ c ∈ b.menu

theorem ofBuffer_map {P : Problem} {i : ℕ} {o : Option CoreDivision} {c : DivisionConfig}
    (h : o.map configFor = some c) : OfBuffer P i c := by
  obtain ⟨d, -, rfl⟩ := Option.map_eq_some_iff.1 h
  exact .inl ⟨d, rfl⟩

section Sources

variable {i : ℕ} {b : CoreDivisionBuffer} {c d : DivisionConfig}

theorem ofBuffer_seed (hb : P.bufs[i]? = some b) : OfBuffer P i b.seed :=
  .inr ⟨b, hb, head_mem b.menu_ne⟩

theorem ofBuffer_neighbours (hb : P.bufs[i]? = some b) (hd : d ∈ b.neighbours c) :
    OfBuffer P i d := by
  unfold CoreDivisionBuffer.neighbours at hd
  cases hs : b.divisionSpace with
  | none =>
    rw [hs] at hd
    exact .inr ⟨b, hb, mem_of_mem_filter hd⟩
  | some space =>
    rw [hs] at hd
    obtain ⟨d', -, rfl⟩ := mem_map.1 hd
    exact .inl ⟨d', rfl⟩

theorem ofBuffer_retiled {tiling : TileSpec} (hc : OfBuffer P i c)
    (hd : b.retiled c tiling = some d) : OfBuffer P i d := by
  unfold CoreDivisionBuffer.retiled at hd
  cases hs : b.divisionSpace with
  | none =>
    rw [hs] at hd
    dsimp only at hd
    split_ifs at hd
    exact Option.some.inj hd ▸ hc
  | some space =>
    rw [hs] at hd
    exact ofBuffer_map hd

theorem ofBuffer_anchor {rng : Rng} (hb : P.bufs[i]? = some b) (hd : (b.anchor c rng).1 = some d) :
    OfBuffer P i d := by
  unfold CoreDivisionBuffer.anchor at hd
  cases hs : b.divisionSpace with
  | none =>
    rw [hs] at hd
    dsimp only at hd
    split_ifs at hd
    exact .inr ⟨b, hb, mem_of_mem_filter (mem_of_getElem? hd)⟩
  | some space =>
    rw [hs] at hd
    exact ofBuffer_map hd

theorem mem_resolvePairs {pairs : List (ℕ × ℕ)} {parentMenu childMenu : List DivisionConfig}
    {p : DivisionConfig × DivisionConfig} (h : p ∈ resolvePairs pairs parentMenu childMenu) :
    p.1 ∈ parentMenu ∧ p.2 ∈ childMenu := by
  obtain ⟨q, -, hq⟩ := mem_filterMap.1 h
  cases hp : parentMenu[q.1]? with
  | none => simp [hp] at hq
  | some parent =>
    cases hc : childMenu[q.2]? with
    | none => simp [hp, hc] at hq
    | some child =>
      simp only [hp, hc] at hq
      split_ifs at hq
      obtain rfl := Option.some.inj hq
      exact ⟨mem_of_getElem? hp, mem_of_getElem? hc⟩

/-- The relation on an edge is that of its two buffers. -/
theorem relation_eq {p c : ℕ} {r : EdgeRelation} (h : P.relation p c = some r) :
    ∃ parent child, P.bufs[p]? = some parent ∧ P.bufs[c]? = some child ∧
      r = P.edgeRelation parent child := by
  obtain ⟨e, he, rfl⟩ := Option.map_eq_some_iff.1 h
  have hmem := mem_reverse.1 (mem_of_find?_eq_some he)
  obtain rfl : e.1 = c := by simpa using find?_some he
  obtain ⟨parent, child, hparent, hchild, hr, -⟩ := Problem.mem_children hmem
  exact ⟨parent, child, hparent, hchild, hr⟩

variable {p q : ℕ} {r : EdgeRelation}

theorem ofBuffer_childFor (hr : P.relation p q = some r) (hd : r.childFor c = some d) :
    OfBuffer P q d := by
  obtain ⟨parent, child, -, hchild, rfl⟩ := relation_eq hr
  unfold Problem.edgeRelation at hd
  split at hd
  · split at hd
    · exact ofBuffer_map hd
    · exact ofBuffer_map hd
  · obtain ⟨pair, hpair, rfl⟩ := Option.map_eq_some_iff.1 hd
    exact .inr ⟨child, hchild, (mem_resolvePairs (mem_of_find?_eq_some hpair)).2⟩

theorem ofBuffer_parentFor (hr : P.relation p q = some r) (hd : r.parentFor c = some d) :
    OfBuffer P p d := by
  obtain ⟨parent, child, hparent, -, rfl⟩ := relation_eq hr
  unfold Problem.edgeRelation at hd
  split at hd
  · split at hd
    · exact ofBuffer_map hd
    · exact ofBuffer_map hd
  · obtain ⟨pair, hpair, rfl⟩ := Option.map_eq_some_iff.1 hd
    exact .inr ⟨parent, hparent, (mem_resolvePairs (mem_of_find?_eq_some hpair)).1⟩

end Sources

/-! ## Where assignments come from -/

/-- Every buffer is assigned a config of its own. -/
def Assignment.Own (P : Problem) (a : Assignment) : Prop :=
  ∀ i c, a i = some c → OfBuffer P i c

section Assignments

variable {a : Assignment} {c : DivisionConfig} {anchor i : ℕ}

theorem Assignment.forall_update {Q : ℕ → DivisionConfig → Prop} (ha : ∀ i c, a i = some c → Q i c)
    (hc : Q i c) :
    ∀ j d, Function.update a i (some c) j = some d → Q j d := by
  intro j d hd
  by_cases hj : j = i
  · subst hj
    rw [update_self] at hd
    exact Option.some.inj hd ▸ hc
  · rw [update_of_ne hj] at hd
    exact ha j d hd

theorem Assignment.Own.update (ha : a.Own P) (hc : OfBuffer P i c) :
    Assignment.Own P (Function.update a i (some c)) :=
  Assignment.forall_update ha hc

theorem Assignment.own_none : Assignment.Own P fun _ => none :=
  fun _ _ h => nomatch h

theorem own_retileWalk {chosen : Divisions} (hchosen : ∀ i < P.n, OfBuffer P i (chosen i))
    (tiling : TileSpec) (forward : Bool) (position stop fuel at' : ℕ) (ha : a.Own P) :
    (retileWalk P chosen tiling forward position stop fuel at' a).Own P := by
  induction fuel generalizing at' a with
  | zero => exact ha
  | succ fuel ih =>
    unfold retileWalk
    split
    · exact ha
    · rename_i target _
      split
      · exact ha
      · split
        · exact ha
        · rename_i retiled hretiled
          obtain ⟨b, hb, hret⟩ := Option.bind_eq_some_iff.1 hretiled
          have htarget : target < P.n := (List.getElem?_eq_some_iff.1 hb).1
          have hown := ha.update (ofBuffer_retiled (hchosen target htarget) hret)
          dsimp only
          split
          · exact hown
          · exact ih _ hown

section Joined

variable {Q : ℕ → DivisionConfig → Prop}

variable {f : Flood}

theorem Flood.forall_join (hf : ∀ i c, f.assignment i = some c → Q i c) {v : ℕ}
    {joined : Option DivisionConfig} (hj : ∀ c, joined = some c → Q v c) :
    ∀ i c, (f.join v joined).assignment i = some c → Q i c := by
  unfold Flood.join
  split
  · exact Assignment.forall_update hf (hj _ rfl)
  · exact hf

variable (hdown : ∀ p q r c d, P.relation p q = some r → r.childFor c = some d → Q q d)
  (hup : ∀ p q r c d, P.relation p q = some r → r.parentFor c = some d → Q p d)

include hdown hup

theorem Flood.forall_spread (hf : ∀ i c, f.assignment i = some c → Q i c) (u : ℕ) :
    ∀ i c, (f.spread P u).assignment i = some c → Q i c := by
  unfold Flood.spread
  refine List.foldlRecOn (motive := fun f : Flood => ∀ i c, f.assignment i = some c → Q i c) _ _
    (List.foldlRecOn (motive := fun f : Flood => ∀ i c, f.assignment i = some c → Q i c) _ _ hf
      fun f hf c _ => ?_) fun f hf p _ => ?_
  · refine Flood.forall_join hf fun d hd => ?_
    obtain ⟨r, hr, hd⟩ := Option.bind_eq_some_iff.1 hd
    obtain ⟨cu, -, hd⟩ := Option.bind_eq_some_iff.1 hd
    exact hdown _ _ r cu d hr hd
  · refine Flood.forall_join hf fun d hd => ?_
    obtain ⟨r, hr, hd⟩ := Option.bind_eq_some_iff.1 hd
    obtain ⟨cu, -, hd⟩ := Option.bind_eq_some_iff.1 hd
    exact hup _ _ r cu d hr hd

theorem forall_floodLoop (fuel : ℕ) (hf : ∀ i c, f.assignment i = some c → Q i c) :
    ∀ i c, (floodLoop P fuel f).assignment i = some c → Q i c := by
  induction fuel generalizing f with
  | zero => exact hf
  | succ fuel ih =>
    unfold floodLoop
    split
    · exact hf
    · rename_i u _
      exact ih (Flood.forall_spread hdown hup (f := { f with frontier := f.frontier.erase u }) hf u)

/-- What holds of the anchor's config and of every answer of an edge holds of the flood. -/
theorem forall_floodRegion {anchor : ℕ} {config : DivisionConfig} (hconfig : Q anchor config) :
    ∀ i c, floodRegion P anchor config i = some c → Q i c := by
  have hempty : ∀ i c, (fun _ => none : Assignment) i = some c → Q i c := fun _ _ h => nomatch h
  exact forall_floodLoop hdown hup P.n (Assignment.forall_update hempty hconfig)

end Joined

theorem own_floodRegion (hc : OfBuffer P anchor c) :
    (floodRegion P anchor c).Own P :=
  forall_floodRegion (fun _ _ _ _ _ hr hd => ofBuffer_childFor hr hd)
    (fun _ _ _ _ _ hr hd => ofBuffer_parentFor hr hd) hc

theorem own_trim (chosen : Divisions) (anchor : ℕ) (ha : a.Own P) :
    (trimTilingsToAnchorRun P chosen anchor a).Own P := by
  intro i d hd
  obtain ⟨c, hc, rfl⟩ := Option.map_eq_some_iff.1 hd
  dsimp only
  split_ifs
  · exact ha i c hc
  · cases hr : P.bufs[i]?.bind fun b => b.retiled c {} with
    | none => exact ha i c hc
    | some c' =>
      obtain ⟨b, -, hret⟩ := Option.bind_eq_some_iff.1 hr
      exact ofBuffer_retiled (ha i c hc) hret

end Assignments

/-! ## Exact bookkeeping -/

/-- The flags and sizes of the packer and the count are what the divisions imply. -/
structure StateOk (P : Problem) (s : Solver) (v : Divisions) (k : ℤ) : Prop where
  valid : Valid s
  n : s.st.n = P.n
  eligible : ∀ i < P.n, s.eligible i = P.eligible v i
  sizes : ∀ i < P.n, s.sizes i = P.perCoreSize i (v i)
  count : k = P.countEligible v (List.range P.n)
  ofBuffer : ∀ i < P.n, OfBuffer P i (v i)

variable {a : Assignment} {v : Divisions} {s : Solver} {idx : ℕ} {k : ℤ}

/-- A call that rearranges the order keeps the bookkeeping. -/
theorem StateOk.step (h : StateOk P s v k) {c : Call} (hs : (s.config.apply c).sizes = s.sizes)
    (he : (s.config.apply c).eligible = s.eligible) :
    StateOk P (PermLayout.step s c) v k := by
  obtain ⟨hv, hst, hcfg, -⟩ := step_ok h.valid c
  have hsizes : (PermLayout.step s c).sizes = s.sizes := (congrArg Config.sizes hcfg).trans hs
  have helig : (PermLayout.step s c).eligible = s.eligible :=
    (congrArg Config.eligible hcfg).trans he
  exact ⟨hv, hst ▸ h.n, helig ▸ h.eligible, hsizes ▸ h.sizes, h.count, h.ofBuffer⟩

theorem StateOk.rotate (h : StateOk P s v k) (i j : ℤ) :
    StateOk P (PermLayout.step s (.rotate i j)) v k := by
  refine h.step ?_ ?_
  · simp only [Config.apply]
    split_ifs <;> rfl
  · simp only [Config.apply]
    split_ifs <;> rfl

theorem StateOk.swap (h : StateOk P s v k) (i : ℤ) :
    StateOk P (PermLayout.step s (.swap i)) v k := by
  refine h.step ?_ ?_
  · simp only [Config.apply]
    split_ifs <;> rfl
  · simp only [Config.apply]
    split_ifs <;> rfl

/-! ## Many calls -/

section Calls

variable {g : Config} {l : List ℕ}

/-- Writing one more value of `f`. -/
theorem ite_mem_update {β : Type} (f d : ℕ → β) (x : ℕ) (l : List ℕ) :
    (fun i => if i ∈ l then f i else Function.update d x (f x) i) =
      fun i => if i ∈ x :: l then f i else d i := by
  funext i
  by_cases hi : i = x
  · subst hi
    simp
  · simp [hi]

theorem foldl_resize {f : ℕ → ℤ} (hf : ∀ x, 0 ≤ f x) (hl : ∀ x ∈ l, x < g.permutation.length) :
    (l.map fun x : ℕ => Call.resize x (f x)).foldl Config.apply g =
      { g with sizes := fun i => if i ∈ l then f i else g.sizes i } := by
  induction l generalizing g with
  | nil => simp
  | cons x l ih =>
    have hx : g.apply (.resize x (f x)) = { g with sizes := Function.update g.sizes x (f x) } := by
      have := hl x mem_cons_self
      simp [Config.apply, this, hf]
    rw [map_cons, foldl_cons, hx]
    refine (ih (g := { g with sizes := Function.update g.sizes x (f x) })
      fun y hy => hl y (mem_cons_of_mem x hy)).trans ?_
    rw [← ite_mem_update]

theorem foldl_setEligible {f : ℕ → Bool} (hl : ∀ x ∈ l, x < g.permutation.length) :
    (l.map fun x : ℕ => Call.setEligible x (f x)).foldl Config.apply g =
      { g with eligible := fun i => if i ∈ l then f i else g.eligible i } := by
  induction l generalizing g with
  | nil => simp
  | cons x l ih =>
    have hx : g.apply (.setEligible x (f x)) =
        { g with eligible := Function.update g.eligible x (f x) } := by
      have := hl x mem_cons_self
      simp [Config.apply, this]
    rw [map_cons, foldl_cons, hx]
    refine (ih (g := { g with eligible := Function.update g.eligible x (f x) })
      fun y hy => hl y (mem_cons_of_mem x hy)).trans ?_
    rw [← ite_mem_update]

end Calls

/-! ## A change of divisions -/

section Change

variable (P)

/-- The vector after an assignment. -/
def assigned (a : Assignment) (v : Divisions) : Divisions :=
  fun x => (a x).getD (v x)

/-- The calls an assignment makes. -/
def assignmentCalls (a : Assignment) (v : Divisions) : List Call :=
  (((List.range P.n).filter fun x => (a x).isSome).map fun x : ℕ =>
      Call.resize x (P.perCoreSize x (assigned a v x))) ++
    (affected P fun x => (a x).isSome).map fun x : ℕ =>
      Call.setEligible x (P.eligible (assigned a v) x)

variable {P}

theorem mem_affected {changed : ℕ → Bool} {x : ℕ} :
    x ∈ affected P changed ↔ x < P.n ∧
      (changed x = true ∨ ∃ c < P.n, changed c = true ∧ x ∈ P.parentsIdx c) := by
  simp [affected]

variable {a : Assignment}

/-- A buffer that is not affected is as eligible as before. -/
theorem eligible_of_not_affected {i : ℕ} (hi : i < P.n) (h : i ∉ affected P fun x => (a x).isSome)
    (v : Divisions) :
    P.eligible (assigned a v) i = P.eligible v i := by
  have hsame : ∀ x, (a x).isSome = false → assigned a v x = v x := by
    intro x hx
    rw [assigned, Option.isSome_eq_false_iff.1 hx |> Option.isNone_iff_eq_none.1, Option.getD_none]
  rw [mem_affected, not_and, not_or] at h
  obtain ⟨hself, hparents⟩ := h hi
  refine Problem.eligible_congr (hsame i (Bool.eq_false_iff.2 hself)) fun c hc => hsame c.1 ?_
  rw [Bool.eq_false_iff]
  exact fun hsome => hparents ⟨c.1, Problem.lt_of_mem_children hc, hsome,
    Problem.mem_parentsIdx_of_mem_children hc⟩

/-- The count follows from the change among the affected buffers. -/
theorem count_assigned (a : Assignment) (v : Divisions) :
    P.countEligible (assigned a v) (List.range P.n) = P.countEligible v (List.range P.n) +
      (P.countEligible (assigned a v) (affected P fun x => (a x).isSome) -
        P.countEligible v (affected P fun x => (a x).isSome)) := by
  set q : ℕ → Bool := fun i => decide (i ∈ affected P fun x => (a x).isSome) with hq
  have hfilter : (List.range P.n).filter q = affected P fun x => (a x).isSome := by
    conv_rhs => rw [affected]
    refine filter_congr fun i hi => ?_
    rw [hq, Bool.eq_iff_iff, decide_eq_true_iff, affected, mem_filter]
    exact and_iff_right hi
  have hrest : ((List.range P.n).filter fun i => !q i).countP (P.eligible (assigned a v)) =
      ((List.range P.n).filter fun i => !q i).countP (P.eligible v) := by
    refine countP_congr fun i hi => ?_
    obtain ⟨hn, hnot⟩ := mem_filter.1 hi
    rw [eligible_of_not_affected (mem_range.1 hn) (by simpa [hq] using hnot)]
  have hsplit : ∀ p : ℕ → Bool, (List.range P.n).countP p =
      (affected P fun x => (a x).isSome).countP p +
        ((List.range P.n).filter fun i => !q i).countP p := by
    intro p
    rw [← hfilter, countP_eq_countP_filter_add]
  have hbefore := hsplit (P.eligible v)
  have hafter := hsplit (P.eligible (assigned a v))
  rw [hrest] at hafter
  unfold Problem.countEligible
  change (((List.range P.n).countP (P.eligible (assigned a v)) : ℕ) : ℤ) =
    ((List.range P.n).countP (P.eligible v) : ℕ) +
      (((affected P fun x => (a x).isSome).countP (P.eligible (assigned a v)) : ℕ) -
        ((affected P fun x => (a x).isSome).countP (P.eligible v) : ℕ))
  omega

/-- After an assignment the bookkeeping is exact again. -/
theorem StateOk.assign {s : Solver} {v : Divisions} {k : ℤ} (h : StateOk P s v k) (ha : a.Own P) :
    StateOk P (run s (assignmentCalls P a v)) (assigned a v)
      (k + (P.countEligible (assigned a v) (affected P fun x => (a x).isSome) -
        P.countEligible v (affected P fun x => (a x).isSome))) := by
  obtain ⟨hv, hst, hcfg⟩ := run_ok h.valid (assignmentCalls P a v)
  have hlen : s.config.permutation.length = P.n := h.valid.order.length.trans h.n
  rw [assignmentCalls, foldl_append,
    foldl_resize (fun x => Problem.perCoreSize_nonneg x _) (by simp [hlen]; tauto),
    foldl_setEligible fun x hx => hlen.symm ▸ (mem_affected.1 hx).1] at hcfg
  refine ⟨hv, hst ▸ h.n, fun i hi => ?_, fun i hi => ?_, ?_, fun i hi => ?_⟩
  · refine (congrFun (congrArg Config.eligible hcfg) i).trans ?_
    dsimp only
    split_ifs with hmem
    · rfl
    · rw [eligible_of_not_affected hi hmem]
      exact h.eligible i hi
  · refine (congrFun (congrArg Config.sizes hcfg) i).trans ?_
    dsimp only
    split_ifs with hmem
    · rfl
    · have hnone : a i = none := by simpa [hi] using hmem
      rw [assigned, hnone]
      exact h.sizes i hi
  · rw [count_assigned, h.count]
  · unfold assigned
    cases hc : a i with
    | none => exact h.ofBuffer i hi
    | some c => exact ha i c hc

end Change

/-! ## What draws keep -/

/-- What does not depend on how many draws were made. -/
def RngFree (Φ : Engine → Prop) : Prop :=
  ∀ e g, Φ e → Φ { e with rng := g }

namespace RngFree

variable {M Φ : Engine → Prop}

theorem draw (h : RngFree Φ) : Triple M Φ draw fun _ => Φ :=
  fun e he => ⟨h e _ he, fun _ ht => absurd ht not_mem_nil⟩

theorem randrange (h : RngFree Φ) (n : ℕ) : Triple M Φ (randrange n) fun _ => Φ :=
  h.draw.bind fun _ => .pure fun _ he => he

theorem coin (h : RngFree Φ) : Triple M Φ coin fun _ => Φ :=
  h.draw.bind fun _ => .pure fun _ he => he

theorem choices (h : RngFree Φ) (weights : List ℕ) : Triple M Φ (choices weights) fun _ => Φ :=
  (h.randrange _).bind fun _ => .pure fun _ he => he

theorem chooseMove (h : RngFree Φ) : Triple M Φ (chooseMove P) fun _ => Φ :=
  Triple.read fun _ _ => Triple.ite (fun _ => .pure fun _ he => he) fun _ =>
    (h.choices _).bind fun _ => .pure fun _ he => he

theorem metropolis (h : RngFree Φ) (delta : ℤ) : Triple M Φ (metropolis delta) fun _ => Φ :=
  Triple.ite (fun _ => .pure fun _ he => he) fun _ => h.coin

end RngFree

/-! ## What a move writes to -/

/-- The bookkeeping of the live state is exact. -/
def LiveOk (P : Problem) (e : Engine) : Prop :=
  StateOk P e.solver e.divisions e.nEligible

theorem liveOk_setSolver {e : Engine} :
    LiveOk P (e.setSolver s) ↔ StateOk P s e.divisions e.nEligible := by
  rw [LiveOk, Engine.solver_setSolver, Engine.divisions_setSolver]
  rfl

/-- From `e₀` to `e` only the live objects changed. -/
structure Frame (e₀ e : Engine) : Prop where
  packer : e.packer = e₀.packer
  chosen : e.chosen = e₀.chosen
  next : e.heap.next = e₀.heap.next
  bestScore : e.bestScore = e₀.bestScore
  bestSnap : e.bestSnap = e₀.bestSnap
  taken : e.taken = e₀.taken
  packers : ∀ r ≠ e₀.packer, e.heap.packers r = e₀.heap.packers r
  vectors : ∀ r ≠ e₀.chosen, e.heap.vectors r = e₀.heap.vectors r

namespace Frame

variable {e₀ e : Engine}

theorem refl (e : Engine) : Frame e e :=
  ⟨rfl, rfl, rfl, rfl, rfl, rfl, fun _ _ => rfl, fun _ _ => rfl⟩

theorem setSolver (h : Frame e₀ e) (s : Solver) : Frame e₀ (e.setSolver s) :=
  ⟨h.packer, h.chosen, h.next, h.bestScore, h.bestSnap, h.taken,
    fun r hr => (update_of_ne (h.packer ▸ hr) _ _).trans (h.packers r hr), h.vectors⟩

theorem setDivisions (h : Frame e₀ e) (v : Divisions) : Frame e₀ (e.setDivisions v) :=
  ⟨h.packer, h.chosen, h.next, h.bestScore, h.bestSnap, h.taken, h.packers,
    fun r hr => (update_of_ne (h.chosen ▸ hr) _ _).trans (h.vectors r hr)⟩

theorem setRng (h : Frame e₀ e) (g : Rng) : Frame e₀ { e with rng := g } :=
  ⟨h.packer, h.chosen, h.next, h.bestScore, h.bestSnap, h.taken, h.packers, h.vectors⟩

theorem setNEligible (h : Frame e₀ e) (k : ℤ) : Frame e₀ { e with nEligible := k } :=
  ⟨h.packer, h.chosen, h.next, h.bestScore, h.bestSnap, h.taken, h.packers, h.vectors⟩

end Frame

/-- Exact, and only the live objects changed since `e₀`. -/
def Inv (P : Problem) (e₀ e : Engine) : Prop :=
  Frame e₀ e ∧ LiveOk P e

theorem rngFree_inv (e₀ : Engine) : RngFree (Inv P e₀) :=
  fun _ g h => ⟨h.1.setRng g, h.2⟩

/-- Whenever the program starts, it keeps the bookkeeping exact and writes to the live objects
only, at its end and at every mark. -/
def Keeps (P : Problem) {α : Type} (p : Prog Engine α) : Prop :=
  ∀ e₀, Triple (Inv P e₀) (Inv P e₀) p fun _ => Inv P e₀

namespace Keeps

variable {α β : Type} {p : Prog Engine α} {f : α → Prog Engine β}

theorem pure (a : α) : Keeps P (pure a) :=
  fun _ => Triple.pure fun _ h => h

theorem bind (hp : Keeps P p) (hf : ∀ a, Keeps P (f a)) : Keeps P (p >>= f) :=
  fun e₀ => (hp e₀).bind fun a => hf a e₀

theorem read {f : Engine → Prog Engine β} (hf : ∀ e, LiveOk P e → Keeps P (f e)) :
    Keeps P (get >>= f) :=
  fun e₀ => Triple.read fun e he => hf e he.2 e₀

theorem mark : Keeps P mark :=
  fun _ => Triple.mark fun _ h => h

theorem randrange (n : ℕ) : Keeps P (randrange n) :=
  fun e₀ => (rngFree_inv e₀).randrange n

theorem coin : Keeps P coin :=
  fun e₀ => (rngFree_inv e₀).coin

/-- What is chosen from a list is in it. -/
theorem choice_bind {l : List α} {f : Option α → Prog Engine β} (hnone : Keeps P (f none))
    (hsome : ∀ a ∈ l, Keeps P (f (some a))) : Keeps P (choice l >>= f) := by
  intro e₀
  refine Triple.bind (Q := fun a e => Inv P e₀ e ∧ ∀ x, a = some x → x ∈ l) ?_ fun a => ?_
  · refine (randrange (P := P) l.length e₀).bind fun k => Triple.pure fun e he => ⟨he, ?_⟩
    exact fun x hx => mem_of_getElem? hx
  · refine Triple.of_pre fun ha => ?_
    cases a with
    | none => exact hnone e₀
    | some a => exact hsome a (ha a rfl) e₀

theorem ite {c : Prop} [Decidable c] {q : Prog Engine α} (hp : c → Keeps P p)
    (hq : ¬c → Keeps P q) : Keeps P (if c then p else q) :=
  fun e₀ => Triple.ite (fun h => hp h e₀) fun h => hq h e₀

end Keeps

/-! ## The moves -/

theorem keeps_rotate (i j : ℕ) : Keeps P (rotate i j) := by
  have hcall : Keeps P (call (.rotate i j)) := fun _ e h =>
    ⟨⟨h.1.setSolver _, liveOk_setSolver.2 (h.2.rotate i j)⟩,
      fun _ ht => absurd ht not_mem_nil⟩
  exact hcall.bind fun _ => Keeps.mark.bind fun _ => .pure _

theorem keeps_swap (i : ℕ) : Keeps P (swap i) := by
  have hcall : Keeps P (call (.swap i)) := fun _ e h =>
    ⟨⟨h.1.setSolver _, liveOk_setSolver.2 (h.2.swap i)⟩,
      fun _ ht => absurd ht not_mem_nil⟩
  exact hcall.bind fun _ => Keeps.mark.bind fun _ => .pure _

/-- The engine after an assignment. -/
def applied (P : Problem) (a : Assignment) (e : Engine) : Engine :=
  { (e.setDivisions (assigned a e.divisions)).setSolver
      (run e.solver (assignmentCalls P a e.divisions)) with
    nEligible := e.nEligible +
      (P.countEligible (assigned a e.divisions) (affected P fun x => (a x).isSome) -
        P.countEligible e.divisions (affected P fun x => (a x).isSome)) }

theorem setSolver_solver (e : Engine) : e.setSolver e.solver = e := by
  unfold Engine.setSolver Engine.solver
  rw [update_eq_self]

theorem setSolver_setSolver (e : Engine) (s t : Solver) :
    (e.setSolver s).setSolver t = e.setSolver t := by
  unfold Engine.setSolver
  dsimp only
  rw [update_idem]

theorem refresh_eq (l : List ℕ) (e : Engine) :
    refresh P l e = (P.countEligible e.divisions l,
      e.setSolver (run e.solver (l.map fun x : ℕ =>
        Call.setEligible x (P.eligible e.divisions x))), []) := by
  induction l generalizing e with
  | nil => exact congrArg (fun t => ((0 : ℤ), t, ([] : List Engine))) (setSolver_solver e).symm
  | cons x l ih =>
    have hcount : P.countEligible e.divisions (x :: l) =
        (if P.eligible e.divisions x then 1 else 0) + P.countEligible e.divisions l := by
      unfold Problem.countEligible
      rw [countP_cons]
      push_cast
      split_ifs <;> ring
    have hrest := ih (e.setSolver (PermLayout.step e.solver
      (.setEligible x (P.eligible e.divisions x))))
    simp only [Engine.divisions_setSolver, Engine.solver_setSolver, setSolver_setSolver] at hrest
    simp only [refresh, bind_apply, get_apply, call, hrest, hcount, pure_apply]
    rfl

theorem resizeAll_eq (l : List ℕ) (e : Engine) :
    forEach (fun x : ℕ => do
      let e ← Traced.get
      let _ ← call (.resize x (P.perCoreSize x (e.divisions x)))
      pure ()) l e = ((), e.setSolver (run e.solver (l.map fun x : ℕ =>
        Call.resize x (P.perCoreSize x (e.divisions x)))), []) := by
  induction l generalizing e with
  | nil => exact congrArg (fun t => ((), t, ([] : List Engine))) (setSolver_solver e).symm
  | cons x l ih =>
    have hrest := ih (e.setSolver (PermLayout.step e.solver
      (.resize x (P.perCoreSize x (e.divisions x)))))
    simp only [Engine.divisions_setSolver, Engine.solver_setSolver, setSolver_setSolver] at hrest
    simp only [forEach, bind_apply, get_apply, call, pure_apply] at hrest ⊢
    rw [hrest]
    rfl

theorem applyAssignment_eq (a : Assignment) (e : Engine) :
    applyAssignment P a e = ((), applied P a e, [applied P a e]) := by
  simp only [applyAssignment, bind_apply, get_apply, modify_apply, mark_apply, resizeAll_eq,
    refresh_eq, Engine.divisions_setSolver, Engine.solver_setSolver, setSolver_setSolver,
    Engine.divisions_setDivisions, Engine.solver_setDivisions]
  simp only [applied, assignmentCalls, run, foldl_append]
  rfl

/-- A flip is an assignment to one buffer. -/
theorem atomicFlip_eq (hidx : idx < P.n) (config : DivisionConfig) (e : Engine) :
    atomicFlip P idx config e =
      applyAssignment P (Function.update (fun _ => none) idx (some config)) e := by
  set a : Assignment := Function.update (fun _ => none) idx (some config) with ha
  have hsome : (fun x => (a x).isSome) = fun x => decide (x = idx) := by
    funext x
    by_cases hx : x = idx
    · subst hx
      simp [ha]
    · simp [ha, hx]
  have hassigned : assigned a e.divisions = Function.update e.divisions idx config := by
    funext x
    by_cases hx : x = idx
    · subst hx
      simp [assigned, ha]
    · simp [assigned, ha, hx]
  have honly : ((List.range P.n).filter fun x => decide (x = idx)) = [idx] := by
    rw [filter_eq, count_eq_one_of_mem nodup_range (mem_range.2 hidx)]
    rfl
  have hself : Function.update e.divisions idx config idx = config := update_self _ _ _
  rw [applyAssignment_eq, applied, assignmentCalls, hsome, hassigned, honly]
  simp only [atomicFlip, bind_apply, get_apply, modify_apply, mark_apply, call, refresh_eq,
    Engine.divisions_setSolver, Engine.solver_setSolver, setSolver_setSolver,
    Engine.divisions_setDivisions, Engine.solver_setDivisions, map_cons, map_nil,
    singleton_append, hself]
  rfl

theorem Inv.applied {e₀ e : Engine} (h : Inv P e₀ e) (ha : a.Own P) :
    Inv P e₀ (applied P a e) := by
  refine ⟨((h.1.setDivisions _).setSolver _).setNEligible _, ?_⟩
  have hok := h.2.assign ha
  have hsolver : (Annealer.applied P a e).solver = run e.solver (assignmentCalls P a e.divisions) :=
    Engine.solver_setSolver _ _
  have hdiv : (Annealer.applied P a e).divisions = assigned a e.divisions :=
    Engine.divisions_setDivisions e (assigned a e.divisions)
  rw [LiveOk, hsolver, hdiv]
  exact hok

theorem keeps_applyAssignment (ha : a.Own P) : Keeps P (applyAssignment P a) := by
  intro e₀ e he
  rw [applyAssignment_eq]
  exact ⟨he.applied ha, fun t ht => mem_singleton.1 ht ▸ he.applied ha⟩

theorem keeps_atomicFlip (hidx : idx < P.n) {config : DivisionConfig} (hc : OfBuffer P idx config) :
    Keeps P (atomicFlip P idx config) := by
  rw [show atomicFlip P idx config = _ from funext (atomicFlip_eq hidx config)]
  exact keeps_applyAssignment (Assignment.own_none.update hc)

theorem keeps_retileBoundary (idx : ℕ) (config : DivisionConfig) :
    Keeps P (retileBoundary P idx config) := by
  refine Keeps.read fun e he => ?_
  cases P.positionOf idx with
  | none => exact .pure _
  | some position =>
    refine Keeps.coin.bind fun forward => Keeps.ite (fun _ => ?_) fun _ => .pure _
    exact keeps_applyAssignment (own_retileWalk he.ofBuffer _ _ _ _ _ _ Assignment.own_none)

theorem keeps_burst : Keeps P (burst P) := by
  have hloop : ∀ k, Keeps P (burstLoop P k) := by
    intro k
    induction k with
    | zero => exact .pure _
    | succ k ih =>
      refine Keeps.read fun e _ => Keeps.ite (fun _ => .pure _) fun _ => ?_
      refine (Keeps.randrange _).bind fun i => (Keeps.randrange _).bind fun j => ?_
      refine (keeps_rotate i j).bind fun q => Keeps.ite (fun _ => ?_) fun _ => ih
      exact (keeps_rotate j i).bind fun _ => ih
  exact Keeps.ite (fun _ => .pure _) fun _ => hloop _

/-- What an anchor draws is a config of the buffer. -/
theorem keeps_drawAnchor_bind {β : Type} {f : Option DivisionConfig → Prog Engine β}
    (hnone : Keeps P (f none)) (hsome : ∀ c, OfBuffer P idx c → Keeps P (f (some c))) :
    Keeps P (drawAnchor P idx >>= f) := by
  intro e₀
  refine Triple.bind (Q := fun a e => Inv P e₀ e ∧ ∀ c, a = some c → OfBuffer P idx c) ?_
    fun a => ?_
  · intro e he
    unfold drawAnchor
    cases hb : P.bufs[idx]? with
    | none => exact ⟨⟨he, fun _ h => nomatch h⟩, fun _ ht => absurd ht not_mem_nil⟩
    | some b =>
      exact ⟨⟨⟨he.1.setRng _, he.2⟩, fun c hc => ofBuffer_anchor hb hc⟩,
        fun _ ht => absurd ht not_mem_nil⟩
  · refine Triple.of_pre fun ha => ?_
    cases a with
    | none => exact hnone e₀
    | some c => exact hsome c (ha c rfl) e₀

theorem keeps_recolor : Keeps P (recolor P) := by
  refine Keeps.choice_bind (.pure _) fun anchor _ => ?_
  refine keeps_drawAnchor_bind (.pure _) fun config hc => Keeps.read fun e _ => ?_
  exact (keeps_applyAssignment (own_trim _ _ (own_floodRegion hc))).bind fun _ => keeps_burst

theorem keeps_flip : Keeps P (flip P) := by
  refine Keeps.choice_bind (.pure _) fun idx hidx => Keeps.read fun e _ => ?_
  have hlt : idx < P.n := mem_range.1 (mem_of_mem_filter hidx)
  refine Keeps.ite (fun _ => .pure _) fun _ => Keeps.choice_bind (.pure _) fun config hc => ?_
  have hown : OfBuffer P idx config := by
    obtain ⟨b, hb⟩ : ∃ b, P.bufs[idx]? = some b := ⟨_, getElem?_eq_getElem hlt⟩
    rw [hb] at hc
    exact ofBuffer_neighbours hb hc
  refine Keeps.ite (fun _ => ?_) fun _ => ?_
  · exact (keeps_atomicFlip hlt hown).bind fun _ => keeps_burst
  · exact (keeps_retileBoundary idx config).bind fun _ => keeps_burst

/-- Every move keeps the bookkeeping exact and every snapshot as it was. -/
theorem keeps_executeMove (move : Option Move) : Keeps P (executeMove P move) := by
  match move with
  | none => exact .pure _
  | some .reorder =>
    refine (Keeps.randrange _).bind fun i => (Keeps.randrange _).bind fun j => ?_
    exact (keeps_rotate i j).bind fun _ => .pure _
  | some .flip => exact keeps_flip
  | some .recolor => exact keeps_recolor

theorem keeps_liftToFront (i : ℕ) : Keeps P (liftToFront i) :=
  Keeps.ite (fun _ => .pure _) fun _ =>
    (keeps_rotate i 0).bind fun _ => Keeps.read fun _ _ => .pure _

theorem keeps_sweep (i : ℕ) (ps : List ℕ) : Keeps P (sweep i ps) := by
  induction ps with
  | nil => exact .pure _
  | cons p ps ih =>
    exact (keeps_swap _).bind fun _ => Keeps.read fun _ _ => ih.bind fun _ => .pure _

end Annealer

end TorchSpyre
