import Mathlib
import TorchSpyre.Annealer.Moves

/-!
# What the search keeps and what it publishes

Between two steps of `_anneal` the live state and the best snapshot are exact and share no
object (`Searching`). A step holds one more snapshot, of the state it started in (`Ready`).
Moves write to the live objects only, so both snapshots stay as they were taken. Adopting
the held one restores the score the step started with, and adopting the best one at the end
publishes the state that scored `_best_score`.

`bookkeeping_exact` is about the flags, sizes and the count at every moment of a search.
`writes_back_best` is about the scores and about the plan that is written back.
-/

open List Function

namespace TorchSpyre

open Checked Traced PermLayout

namespace Annealer

variable {P : Problem}

/-! ## Between two steps -/

/-- The best snapshot is what the live state was when it was taken, and that state scores
`_best_score`. -/
structure Intact (P : Problem) (e : Engine) : Prop where
  packer : e.heap.packers e.bestSnap.packer = e.taken.1
  chosen : e.heap.vectors e.bestSnap.chosen = e.taken.2
  score : P.score e.taken.2 e.taken.1.address = e.bestScore

/-- The references of a snapshot are in use, and not by the live state. -/
structure Detached (snap : Snap) (e : Engine) : Prop where
  packer_lt : snap.packer < e.heap.next
  chosen_lt : snap.chosen < e.heap.next
  packer_ne : snap.packer ≠ e.packer
  chosen_ne : snap.chosen ≠ e.chosen

/-- A state between two steps of a search whose seed scored `seedScore`. -/
structure Searching (P : Problem) (seedScore : ℤ) (e : Engine) : Prop where
  live : LiveOk P e
  packer_lt : e.packer < e.heap.next
  chosen_lt : e.chosen < e.heap.next
  intact : Intact P e
  best : StateOk P e.taken.1 e.taken.2 e.bestSnap.nEligible
  detached : Detached e.bestSnap e
  le : e.bestScore ≤ seedScore

/-- A state between two steps, with its score. -/
def Scored (P : Problem) (seedScore cur : ℤ) (e : Engine) : Prop :=
  Searching P seedScore e ∧ liveScore P e = cur

/-- A snapshot holds a state that scored `cur`, apart from the live state and the best one. -/
structure Ready (P : Problem) (seedScore cur : ℤ) (snap : Snap) (e : Engine) : Prop where
  searching : Searching P seedScore e
  detached : Detached snap e
  packer_ne : snap.packer ≠ e.bestSnap.packer
  chosen_ne : snap.chosen ≠ e.bestSnap.chosen
  ok : StateOk P (e.heap.packers snap.packer) (e.heap.vectors snap.chosen) snap.nEligible
  score : P.score (e.heap.vectors snap.chosen) (e.heap.packers snap.packer).address = cur

/-- What is marked : the bookkeeping is exact and the best snapshot intact. -/
def Marked (P : Problem) (e : Engine) : Prop :=
  LiveOk P e ∧ Intact P e

section Frames

variable {e₀ e : Engine} {seedScore cur : ℤ} {snap : Snap}

theorem Detached.frame (h : Detached snap e₀) (hf : Frame e₀ e) : Detached snap e :=
  ⟨hf.next ▸ h.packer_lt, hf.next ▸ h.chosen_lt, hf.packer ▸ h.packer_ne, hf.chosen ▸ h.chosen_ne⟩

theorem Intact.frame (h : Intact P e₀) (ha : Detached e₀.bestSnap e₀) (hf : Frame e₀ e) :
    Intact P e := by
  refine ⟨?_, ?_, ?_⟩
  · rw [hf.bestSnap, hf.taken, hf.packers _ ha.packer_ne, h.packer]
  · rw [hf.bestSnap, hf.taken, hf.vectors _ ha.chosen_ne, h.chosen]
  · rw [hf.taken, hf.bestScore, h.score]

/-- A move leads from a state between two steps to such a state. -/
theorem Searching.frame (h : Searching P seedScore e₀) (hi : Inv P e₀ e) :
    Searching P seedScore e where
  live := hi.2
  packer_lt := by rw [hi.1.packer, hi.1.next]; exact h.packer_lt
  chosen_lt := by rw [hi.1.chosen, hi.1.next]; exact h.chosen_lt
  intact := h.intact.frame h.detached hi.1
  best := by rw [hi.1.taken, hi.1.bestSnap]; exact h.best
  detached := by rw [hi.1.bestSnap]; exact h.detached.frame hi.1
  le := hi.1.bestScore ▸ h.le

/-- A move keeps the snapshot a step holds. -/
theorem Ready.frame (h : Ready P seedScore cur snap e₀) (hi : Inv P e₀ e) :
    Ready P seedScore cur snap e where
  searching := h.searching.frame hi
  detached := h.detached.frame hi.1
  packer_ne := hi.1.bestSnap ▸ h.packer_ne
  chosen_ne := hi.1.bestSnap ▸ h.chosen_ne
  ok := by
    rw [hi.1.packers _ h.detached.packer_ne, hi.1.vectors _ h.detached.chosen_ne]
    exact h.ok
  score := by
    rw [hi.1.packers _ h.detached.packer_ne, hi.1.vectors _ h.detached.chosen_ne]
    exact h.score

theorem Searching.marked (h : Searching P seedScore e) : Marked P e :=
  ⟨h.live, h.intact⟩

/-- What moves keep from state to state, a program of moves keeps. -/
theorem Keeps.ready {α : Type} {p : Prog Engine α} (hp : Keeps P p) :
    Triple (Marked P) (Ready P seedScore cur snap) p fun _ => Ready P seedScore cur snap := by
  intro e he
  obtain ⟨hq, hm⟩ := hp e e ⟨.refl e, he.searching.live⟩
  exact ⟨he.frame hq, fun t ht => (he.frame (hm t ht)).searching.marked⟩

theorem rngFree_ready : RngFree (Ready P seedScore cur snap) :=
  fun e g h => h.frame ⟨(Frame.refl e).setRng g, h.searching.live⟩

theorem rngFree_scored : RngFree (Scored P seedScore cur) :=
  fun e g h => ⟨h.1.frame ⟨(Frame.refl e).setRng g, h.1.live⟩, h.2⟩

end Frames

/-! ## Snapshots -/

section Snapshots

variable {seedScore cur : ℤ} {snap : Snap}

/-- A snapshot holds the live state, and nothing else refers to its objects. -/
theorem triple_snapshot :
    Triple (Marked P) (Scored P seedScore cur) snapshot (Ready P seedScore cur) := by
  rintro e ⟨h, rfl⟩
  refine ⟨?_, fun _ ht => absurd ht not_mem_nil⟩
  have hpacker : ∀ r < e.heap.next, (snapshot e).2.1.heap.packers r = e.heap.packers r :=
    fun r hr => update_of_ne hr.ne _ _
  have hvector : ∀ r < e.heap.next, (snapshot e).2.1.heap.vectors r = e.heap.vectors r :=
    fun r hr => update_of_ne hr.ne _ _
  have hsolver : (snapshot e).2.1.solver = e.solver := hpacker _ h.packer_lt
  have hdivisions : (snapshot e).2.1.divisions = e.divisions := hvector _ h.chosen_lt
  have hcopy : (snapshot e).2.1.heap.packers (snapshot e).1.packer = e.solver :=
    update_self _ _ _
  have hcopy' : (snapshot e).2.1.heap.vectors (snapshot e).1.chosen = e.divisions :=
    update_self _ _ _
  have hlive : LiveOk P (snapshot e).2.1 := by
    rw [LiveOk, hsolver, hdivisions]
    exact h.live
  refine ⟨⟨hlive, h.packer_lt.trans (Nat.lt_succ_self _), h.chosen_lt.trans (Nat.lt_succ_self _),
    ⟨?_, ?_, h.intact.score⟩, h.best, ⟨h.detached.packer_lt.trans (Nat.lt_succ_self _),
      h.detached.chosen_lt.trans (Nat.lt_succ_self _), h.detached.packer_ne,
      h.detached.chosen_ne⟩, h.le⟩, ⟨Nat.lt_succ_self _, Nat.lt_succ_self _, h.packer_lt.ne',
      h.chosen_lt.ne'⟩, h.detached.packer_lt.ne', h.detached.chosen_lt.ne', ?_, ?_⟩
  · exact (hpacker _ h.detached.packer_lt).trans h.intact.packer
  · exact (hvector _ h.detached.chosen_lt).trans h.intact.chosen
  · rw [hcopy, hcopy']
    exact h.live
  · rw [hcopy, hcopy']
    rfl

/-- Adopting the held snapshot restores the score. -/
theorem triple_adopt :
    Triple (Marked P) (Ready P seedScore cur snap) (adopt snap)
      fun _ => Scored P seedScore cur := by
  refine Triple.bind (Q := fun _ => Scored P seedScore cur) (Triple.modify fun e h => ?_)
    fun _ => Triple.mark fun e he => he.1.marked
  have hbest := h.searching.intact
  exact ⟨⟨h.ok, h.detached.packer_lt, h.detached.chosen_lt,
    ⟨hbest.packer, hbest.chosen, hbest.score⟩, h.searching.best,
    ⟨h.searching.detached.packer_lt, h.searching.detached.chosen_lt, h.packer_ne.symm,
      h.chosen_ne.symm⟩, h.searching.le⟩, h.score⟩

/-- What a search starts from. -/
structure Start (P : Problem) (seedScore cur : ℤ) (e : Engine) : Prop where
  live : LiveOk P e
  packer_lt : e.packer < e.heap.next
  chosen_lt : e.chosen < e.heap.next
  score : liveScore P e = cur
  le : cur ≤ seedScore

/-- The live state becomes the best one, whatever the best one was. -/
theorem triple_keepBest :
    Triple (Marked P) (Start P seedScore cur) (keepBest cur) fun _ => Scored P seedScore cur := by
  intro e h
  have hkept : Scored P seedScore cur (keepBest cur e).2.1 := by
    have hsolver : (keepBest cur e).2.1.solver = e.solver :=
      update_of_ne h.packer_lt.ne _ _
    have hdivisions : (keepBest cur e).2.1.divisions = e.divisions :=
      update_of_ne h.chosen_lt.ne _ _
    have htaken : (keepBest cur e).2.1.taken = (e.solver, e.divisions) :=
      Prod.ext hsolver hdivisions
    have hcopy : (keepBest cur e).2.1.heap.packers (keepBest cur e).2.1.bestSnap.packer =
        e.solver := update_self _ _ _
    have hcopy' : (keepBest cur e).2.1.heap.vectors (keepBest cur e).2.1.bestSnap.chosen =
        e.divisions := update_self _ _ _
    refine ⟨⟨?_, h.packer_lt.trans (Nat.lt_succ_self _), h.chosen_lt.trans (Nat.lt_succ_self _),
      ⟨?_, ?_, ?_⟩, ?_, ⟨Nat.lt_succ_self _, Nat.lt_succ_self _, h.packer_lt.ne',
        h.chosen_lt.ne'⟩, h.le⟩, ?_⟩
    · rw [LiveOk, hsolver, hdivisions]
      exact h.live
    · rw [hcopy, htaken]
    · rw [hcopy', htaken]
    · rw [htaken]
      exact h.score
    · rw [htaken]
      exact h.live
    · rw [liveScore, hsolver, hdivisions]
      exact h.score
  exact ⟨hkept, fun t ht => mem_singleton.1 ht ▸ hkept.1.marked⟩

theorem triple_accept :
    Triple (Marked P) (Scored P seedScore cur) (accept cur) (Scored P seedScore) := by
  refine Triple.get_bind fun e => Triple.ite (fun hlt => ?_) fun _ => .pure fun t ht => ht.1
  refine Triple.bind (Triple.conseq triple_keepBest (fun t ht => ?_) fun _ _ ht => ht)
    fun _ => .pure fun _ ht => ht
  obtain ⟨⟨hs, hcur⟩, rfl⟩ := ht
  exact ⟨hs.live, hs.packer_lt, hs.chosen_lt, hcur, hlt.le.trans hs.le⟩

end Snapshots

/-! ## Steps -/

section Steps

variable {seedScore cur : ℤ} {snap : Snap}

/-- A step that has moved is accepted at the score it reached, or goes on as `p`. -/
theorem triple_judge {p : Prog Engine ℤ}
    (hp : Triple (Marked P) (Ready P seedScore cur snap) p (Scored P seedScore)) :
    Triple (Marked P) (Ready P seedScore cur snap) (do
      let e ← Traced.get
      let accepted ← metropolis (liveScore P e - cur)
      if accepted then accept (liveScore P e) else p) (Scored P seedScore) := by
  refine Triple.get_bind fun e => ?_
  have hfree : RngFree fun t => Ready P seedScore cur snap t ∧ liveScore P t = liveScore P e :=
    fun t g h => ⟨rngFree_ready t g h.1, h.2⟩
  refine Triple.bind (Triple.conseq (hfree.metropolis _) (fun t ht => ?_) fun _ _ ht => ht)
    fun accepted => Triple.ite (fun _ => ?_) fun _ => ?_
  · exact ⟨ht.1, by rw [ht.2]⟩
  · exact triple_accept.conseq (fun t ht => ⟨ht.1.searching, ht.2⟩) fun _ _ ht => ht
  · exact hp.conseq (fun t ht => ht.1) fun _ _ ht => ht

theorem triple_restore :
    Triple (Marked P) (Ready P seedScore cur snap) (do
      adopt snap
      pure cur) (Scored P seedScore) :=
  triple_adopt.bind fun _ => .pure fun _ h => h

theorem triple_tryPositions (pos : ℕ) (order : List ℕ) :
    Triple (Marked P) (Ready P seedScore cur snap) (tryPositions P snap cur pos order)
      (Scored P seedScore) := by
  induction order generalizing pos with
  | nil => exact triple_restore
  | cons j rest ih => exact (keeps_rotate pos j).ready.bind fun _ => triple_judge (ih j)

theorem triple_mark_ready :
    Triple (Marked P) (Ready P seedScore cur snap) mark fun _ => Ready P seedScore cur snap :=
  Triple.mark fun _ h => h.searching.marked

theorem triple_stepReorder :
    Triple (Marked P) (Scored P seedScore cur) (stepReorder P cur) (Scored P seedScore) := by
  refine Triple.read fun e _ => (rngFree_scored.choices _).bind fun i => ?_
  refine triple_snapshot.bind fun snap => triple_mark_ready.bind fun _ => ?_
  refine (keeps_liftToFront i).ready.bind fun first => ?_
  exact (keeps_sweep i _).ready.bind fun rest => triple_tryPositions _ _

theorem triple_step (move : Move) :
    Triple (Marked P) (Scored P seedScore cur) (step P move cur) (Scored P seedScore) := by
  refine Triple.ite (fun _ => triple_stepReorder) fun _ => ?_
  refine triple_snapshot.bind fun snap => triple_mark_ready.bind fun _ => ?_
  exact (keeps_executeMove _).ready.bind fun _ => triple_judge triple_restore

theorem triple_calibrate (base : ℤ) (k : ℕ) :
    Triple (Marked P) (Scored P seedScore cur) (calibrate P base k)
      fun _ => Scored P seedScore cur := by
  induction k with
  | zero => exact .pure fun _ h => h
  | succ k ih =>
    refine triple_snapshot.bind fun snap => triple_mark_ready.bind fun _ => ?_
    refine rngFree_ready.chooseMove.bind fun move => (keeps_executeMove move).ready.bind fun _ => ?_
    exact Triple.read fun _ _ => triple_adopt.bind fun _ => ih.bind fun _ => .pure fun _ h => h

theorem triple_annealLoop (k : ℕ) :
    Triple (Marked P) (Scored P seedScore cur) (annealLoop P k cur) (Scored P seedScore) := by
  induction k generalizing cur with
  | zero => exact .pure fun _ h => h
  | succ k ih =>
    refine rngFree_scored.chooseMove.bind fun move => ?_
    match move with
    | none => exact .pure fun _ h => h
    | some move => exact (triple_step move).bind fun _ => ih

/-- A search returns the score of its live state, however many steps it makes. -/
theorem triple_search (steps : ℕ) :
    Triple (Marked P) (Start P seedScore seedScore) (search P steps) (Scored P seedScore) := by
  refine Triple.get_bind fun e => ?_
  refine Triple.bind (Q := fun _ => Scored P seedScore (liveScore P e)) ?_ fun _ => ?_
  · refine Triple.conseq (P := Start P seedScore (liveScore P e)) triple_keepBest
      (fun t ht => ?_) fun _ _ ht => ht
    obtain ⟨ht, rfl⟩ := ht
    exact ⟨ht.live, ht.packer_lt, ht.chosen_lt, rfl, ht.score.le⟩
  · refine Triple.ite (fun _ => .pure fun _ h => h) fun _ => ?_
    exact (triple_calibrate _ _).bind fun _ => triple_annealLoop _

/-- What `_anneal` ends with : an exact state that scores the best score. -/
theorem triple_anneal (steps : ℕ) :
    Triple (Marked P) (Start P seedScore seedScore) (anneal P steps) fun _ e =>
      LiveOk P e ∧ liveScore P e = e.bestScore ∧ e.bestScore ≤ seedScore := by
  refine (triple_search steps).bind fun cur => Triple.get_bind fun e => ?_
  rintro t ⟨⟨hs, -⟩, rfl⟩
  have hlive : LiveOk P (adopt t.bestSnap t).2.1 := by
    have hok := hs.best
    rw [← hs.intact.packer, ← hs.intact.chosen] at hok
    exact hok
  have hscore : liveScore P (adopt t.bestSnap t).2.1 = t.bestScore := by
    rw [← hs.intact.score, ← hs.intact.packer, ← hs.intact.chosen]
    rfl
  refine ⟨⟨hlive, hscore, hs.le⟩, fun u hu => ?_⟩
  obtain rfl := mem_singleton.1 hu
  exact ⟨hlive, hs.intact.packer, hs.intact.chosen, hs.intact.score⟩

end Steps

/-! ## The seed -/

theorem lifetimeBuffers_length (v : Divisions) : (lifetimeBuffers P v).length = P.n := by
  simp [lifetimeBuffers, Problem.n]

/-- The seed packer is given what the seed divisions imply. -/
theorem stateOk_buildSeedPacker {v : Divisions} {pi : List ℕ} {s : Solver}
    (hv : ∀ i < P.n, OfBuffer P i (v i)) (h : buildSeedPacker P v pi = .ok s) :
    StateOk P s v (P.countEligible v (List.range P.n)) := by
  obtain ⟨rfl, hvalid⟩ := construct_eq_ok h
  refine ⟨hvalid, lifetimeBuffers_length v, fun i hi => ?_, fun i hi => ?_, rfl, hv⟩
  · change ((List.range P.n).map (P.eligible v)).getD i false = _
    simp [hi]
  · change field (lifetimeBuffers P v) (fun b => (b.size : ℤ)) 0 i = _
    have hb : P.bufs[i]? = some P.bufs[i] := getElem?_eq_getElem hi
    simp [field, lifetimeBuffers, hb, Problem.perCoreSize_nonneg]

variable {c c' : DivisionConfig} {e : Engine} {i : ℕ}

theorem ofBuffer_seedConfigs (hi : i < P.n) : OfBuffer P i (seedConfigs P i) := by
  have hb : P.bufs[i]? = some P.bufs[i] := getElem?_eq_getElem hi
  rw [seedConfigs, hb]
  exact ofBuffer_seed hb

theorem start_of_seed {draws : ℕ → ℕ} (h : seed P draws = .ok e) :
    Start P (liveScore P e) (liveScore P e) e := by
  simp only [seed, bind_eq_ok_iff] at h
  obtain ⟨-, -, pi, -, packer, hpacker, he⟩ := h
  obtain rfl := Except.ok.inj he
  exact ⟨stateOk_buildSeedPacker (fun i hi => ofBuffer_seedConfigs hi) hpacker, Nat.zero_lt_one,
    Nat.zero_lt_one, rfl, le_rfl⟩

/-! ## Exactness -/

/-- Two counts agree when one predicate implies the other only if they are the same. -/
theorem countP_eq_iff_of_imp {p q : ℕ → Bool} {l : List ℕ} (h : ∀ x ∈ l, p x = true → q x = true) :
    l.countP p = l.countP q ↔ ∀ x ∈ l, q x = true → p x = true := by
  induction l with
  | nil => simp
  | cons x l ih =>
    have hle := countP_mono_left fun y hy => h y (mem_cons_of_mem x hy)
    have ih := ih fun y hy => h y (mem_cons_of_mem x hy)
    have hx := h x mem_cons_self
    rw [forall_mem_cons, ← ih, countP_cons, countP_cons]
    cases hp : p x with
    | true =>
      rw [hp] at hx
      simp [hx rfl]
    | false =>
      cases q x with
      | true =>
        simp only [Bool.false_eq_true, if_false, if_true, forall_const, false_and, iff_false]
        omega
      | false => simp

/-- The bookkeeping of the live state, and the test the moves make on it. -/
structure Exact (P : Problem) (e : Engine) : Prop where
  flags : ∀ i < P.n, e.solver.eligible i = P.eligible e.divisions i
  sizes : ∀ i < P.n, e.solver.sizes i = P.perCoreSize i (e.divisions i)
  count : e.nEligible = P.countEligible e.divisions (List.range P.n)
  resident : allEligibleResident e = true ↔
    ∀ i < P.n, P.eligible e.divisions i = true → (e.solver.address i).isSome = true

theorem LiveOk.exact (h : LiveOk P e) : Exact P e where
  flags := h.eligible
  sizes := h.sizes
  count := h.count
  resident := by
    have himp : ∀ i ∈ List.range P.n, (e.solver.address i).isSome = true →
        P.eligible e.divisions i = true := by
      intro i hi ha
      have hi := mem_range.1 hi
      rw [← h.eligible i hi]
      exact h.valid.eligible_of_address (h.n.symm ▸ hi) ha
    have hiff := countP_eq_iff_of_imp himp
    simp only [mem_range] at hiff
    rw [← hiff, allEligibleResident, decide_eq_true_iff, h.valid.totalAllocatedCount_eq, h.n,
      h.count, Problem.countEligible]
    exact Nat.cast_inj

/-- From the seed on, after every move, snapshot and adoption of a search of any length and any
random stream, the packer's flags and sizes and the count of eligible buffers are those the live
divisions imply, and the test that every eligible buffer is resident decides just that. -/
theorem bookkeeping_exact {draws : ℕ → ℕ} {e : Engine} (h : seed P draws = .ok e) (steps : ℕ) :
    ∀ t ∈ e :: (anneal P steps e).2.2, Exact P t := by
  have hstart := start_of_seed h
  intro t ht
  rcases mem_cons.1 ht with rfl | ht
  · exact hstart.live.exact
  · exact ((triple_anneal steps e hstart).2 t ht).1.exact

/-- A producer and its reader, each whole or cut in two along the same axis. -/
def producer : CoreDivisionBuffer where
  life := { name := "x", size := 0, uses := [5, 7], uses_ne := by decide,
            uses_increasing := by decide }
  size := 512
  coreDivisions := [⟨[], [], {}⟩, ⟨[("d0", 2)], [], {}⟩]
  coreDivisions_ne := by decide
  opPosition := some 0

/-- A reader that may be split in two. -/
def reader : CoreDivisionBuffer where
  life := { name := "y", size := 0, uses := [7, 9], uses_ne := by decide,
            uses_increasing := by decide }
  size := 512
  coreDivisions := [⟨[], [], {}⟩, ⟨[("d0", 2)], [], {}⟩]
  coreDivisions_ne := by decide
  parents := ["x"]
  cdParentMatches := fun _ => [(0, 0), (1, 1)]
  opPosition := some 1

/-- The two buffers in a scratchpad that holds one of them whole, or both cut. -/
def producerAndReader : Problem where
  bufs := [producer, reader]
  limit := 512
  alignment := 128
  misread := fun _ _ _ _ _ => false
  scoreFn := none
  hbmBytesPerUs := 1
  toFixedUs := fun q => ⌊q⌋
  order := insertionOrder

theorem exists_seed_producerAndReader : ∃ e, seed producerAndReader (fun k => k) = .ok e :=
  exists_eq_ok (by decide +kernel)

theorem bookkeeping_exact_producerAndReader :
    ∃ e, seed producerAndReader (fun k => k) = .ok e ∧
      ∀ t ∈ e :: (anneal producerAndReader 4 e).2.2, Exact producerAndReader t := by
  obtain ⟨e, he⟩ := exists_seed_producerAndReader
  exact ⟨e, he, bookkeeping_exact he 4⟩

/-! ## The plan -/

theorem getElem?_menuConfigs (divisions : List CoreDivision) (m : ℕ) :
    (menuConfigs divisions)[m]? =
      divisions[m]?.map fun d => ⟨d, some m, decide (d ∈ divisions.take m)⟩ := by
  simp [menuConfigs, Option.map_map, comp_def]

/-- The first position of a division is a choice of its own. -/
theorem exists_key_of_mem {divisions : List CoreDivision} {d : CoreDivision} (h : d ∈ divisions) :
    ∃ c ∈ menuConfigs divisions, c.key = (d, none) := by
  have hm : divisions[divisions.idxOf d]? = some d := getElem?_idxOf h
  refine ⟨⟨d, some (divisions.idxOf d), false⟩, mem_of_getElem? (i := divisions.idxOf d) ?_,
    rfl⟩
  rw [getElem?_menuConfigs, hm]
  simp [mem_take_iff_idxOf_lt h]

/-- The position that is written back names a config that is the same choice. -/
theorem menuPosition_key {b : CoreDivisionBuffer} (hb : P.bufs[i]? = some b) (hc : OfBuffer P i c) :
    ∃ c', (menuConfigs (menuPosition b c).2)[(menuPosition b c).1]? = some c' ∧
      c'.key = c.key := by
  rcases hc with ⟨d, rfl⟩ | ⟨b', hb', hmem⟩
  · have hgenerated : (configFor d).menuIndex = none := rfl
    cases hfind : b.menu.findIdx? fun c => decide (c.key = (configFor d).key) with
    | some m =>
      obtain ⟨hlt, hkey, -⟩ := findIdx?_eq_some_iff_getElem.1 hfind
      simp only [menuPosition, hgenerated, hfind]
      exact ⟨b.menu[m], getElem?_eq_getElem hlt, of_decide_eq_true hkey⟩
    | none =>
      have hnew : d ∉ b.coreDivisions := by
        intro hd
        obtain ⟨c', hc', hkey⟩ := exists_key_of_mem hd
        exact absurd hkey (of_decide_eq_false (findIdx?_eq_none_iff.1 hfind c' hc'))
      simp only [menuPosition, hgenerated, hfind]
      refine ⟨⟨d, some b.coreDivisions.length, false⟩, ?_, rfl⟩
      simp [getElem?_menuConfigs, configFor, hnew]
  · obtain rfl : b = b' := Option.some.inj (hb.symm.trans hb')
    obtain ⟨m, hm⟩ := mem_iff_getElem?.1 hmem
    have hm' := hm
    rw [CoreDivisionBuffer.menu, getElem?_menuConfigs] at hm'
    obtain ⟨d, hd, rfl⟩ := Option.map_eq_some_iff.1 hm'
    exact ⟨_, hm, rfl⟩

/-- A size depends on the choice only. -/
theorem perCoreSize_congr (h : c.key = c'.key) (i : ℕ) :
    P.perCoreSize i c = P.perCoreSize i c' := by
  have hdiv : c.division = c'.division := congrArg Prod.fst h
  simp only [Problem.perCoreSize, DivisionConfig.tiling, hdiv]

/-- Whether two configs are compatible depends on the choices only. -/
theorem compatible_congr {d d' : DivisionConfig} (hc : c.key = c'.key) (hd : d.key = d'.key)
    (parent child : CoreDivisionBuffer) :
    (P.edgeRelation parent child).compatible c d =
      (P.edgeRelation parent child).compatible c' d' := by
  have hdiv : c.division = c'.division := congrArg Prod.fst hc
  have hdiv' : d.division = d'.division := congrArg Prod.fst hd
  have hsplit : c.splitKey = c'.splitKey := by
    simp only [DivisionConfig.splitKey, hdiv, hc]
  have hsplit' : d.splitKey = d'.splitKey := by
    simp only [DivisionConfig.splitKey, hdiv', hd]
  unfold Problem.edgeRelation
  split
  · split
    · simp only [viewRelation, hdiv, hdiv']
    · simp only [viewRelation, hdiv, hdiv']
  · simp only [tableRelation, hsplit, hsplit']

theorem getElem?_writeBack (e : Engine) (i : ℕ) :
    (writeBack P e)[i]? = P.bufs[i]?.map fun b =>
      { coreDivisions := (menuPosition b (e.divisions i)).2
        chosenDivision := (menuPosition b (e.divisions i)).1
        address := e.solver.address i
        spillReason := if (e.solver.address i).isNone then some (spilledBecause b) else none } := by
  simp [writeBack, Option.map_map, comp_def]

/-- A planned buffer names the division the search chose for it. -/
theorem config_of_writeBack (h : LiveOk P e) (hi : i < P.n) :
    ∃ b c, (writeBack P e)[i]? = some b ∧ b.address = e.solver.address i ∧ b.config = some c ∧
      c.key = (e.divisions i).key := by
  have hb : P.bufs[i]? = some P.bufs[i] := getElem?_eq_getElem hi
  obtain ⟨c, hc, hkey⟩ := menuPosition_key hb (h.ofBuffer i hi)
  rw [getElem?_writeBack, hb]
  exact ⟨_, c, rfl, rfl, hc, hkey⟩

/-- A plan in which a buffer with an address may have one : nothing pins it, its slice fits, and
every reader's division is compatible with its own. -/
def Admissible (P : Problem) (planned : List PlannedBuffer) : Prop :=
  ∀ i b, planned[i]? = some b → b.address ≠ none →
    P.residencyReason i = none ∧ ∃ c, b.config = some c ∧ P.perCoreSize i c ≤ P.limit ∧
      ∀ child ∈ P.children i, ∃ b' c', planned[child.1]? = some b' ∧ b'.config = some c' ∧
        child.2.compatible c c' = true

theorem admissible_writeBack (h : LiveOk P e) : Admissible P (writeBack P e) := by
  intro i b hb haddr
  have hi : i < P.n := by
    rw [getElem?_writeBack] at hb
    obtain ⟨buf, hbuf, -⟩ := Option.map_eq_some_iff.1 hb
    exact (List.getElem?_eq_some_iff.1 hbuf).1
  obtain ⟨b₁, c, hb₁, haddr₁, hc, hkey⟩ := config_of_writeBack h hi
  obtain rfl : b = b₁ := Option.some.inj (hb.symm.trans hb₁)
  have helig : P.eligible e.divisions i = true := by
    rw [← h.eligible i hi]
    refine h.valid.eligible_of_address (h.n.symm ▸ hi) ?_
    rwa [← haddr₁, Option.isSome_iff_ne_none]
  simp only [Problem.eligible, Bool.and_eq_true, Option.isNone_iff_eq_none, decide_eq_true_iff,
    all_eq_true] at helig
  obtain ⟨⟨⟨hreason, hsize⟩, -⟩, hchildren⟩ := helig
  refine ⟨hreason, c, hc, perCoreSize_congr hkey i ▸ hsize, fun child hchild => ?_⟩
  obtain ⟨parent, childBuf, -, -, hrel, -⟩ := Problem.mem_children hchild
  obtain ⟨b', c', hb', -, hc', hkey'⟩ :=
    config_of_writeBack h (Problem.lt_of_mem_children hchild)
  refine ⟨b', c', hb', hc', ?_⟩
  rw [hrel, compatible_congr hkey hkey', ← hrel]
  exact hchildren child hchild

/-- However many steps a search makes and whatever it draws, the score it carries is that of its
live state, and at every moment the best snapshot is the state that scored `_best_score`. The
state it ends with and writes back scores `_best_score`, which is at most the score of the seed,
and the plan is admissible. -/
theorem writes_back_best {draws : ℕ → ℕ} {e : Engine} (h : seed P draws = .ok e) (steps : ℕ) :
    (search P steps e).1 = liveScore P (search P steps e).2.1 ∧
      (∀ t ∈ (anneal P steps e).2.2, Intact P t) ∧
      liveScore P (anneal P steps e).2.1 = (anneal P steps e).2.1.bestScore ∧
      (anneal P steps e).2.1.bestScore ≤ liveScore P e ∧
      Admissible P (writeBack P (anneal P steps e).2.1) := by
  have hstart := start_of_seed h
  obtain ⟨⟨hlive, hscore, hle⟩, hmarks⟩ := triple_anneal steps e hstart
  exact ⟨(triple_search steps e hstart).1.2.symm, fun t ht => (hmarks t ht).2, hscore, hle,
    admissible_writeBack hlive⟩

theorem writes_back_best_producerAndReader :
    ∃ e, seed producerAndReader (fun k => k) = .ok e ∧
      liveScore producerAndReader (anneal producerAndReader 4 e).2.1 =
        (anneal producerAndReader 4 e).2.1.bestScore ∧
      Admissible producerAndReader (writeBack producerAndReader
        (anneal producerAndReader 4 e).2.1) := by
  obtain ⟨e, he⟩ := exists_seed_producerAndReader
  obtain ⟨-, -, hscore, -, hplan⟩ := writes_back_best he 4
  exact ⟨e, he, hscore, hplan⟩

end Annealer

end TorchSpyre
