import Mathlib
import TorchSpyre.Liveness.Overrides
import TorchSpyre.Loops

/-!
# Lifetimes hold over whole executions

Let a value be accessed and later read, with no write of its buffer in between. Every step
executed from the one access to the other lies in the lifetime of the buffer
(`lifetime_sound`), for all trip counts.

The first access `F` in the text decides both bounds. If `F` is a write, execution cannot get
from a step before `F` to a step after it without passing `F`, nor from one iteration of a
loop that holds `F` to a later reader in the next. So a step that lies outside the textual
uses runs in a loop that does not hold `F`, or `F` is a read, and then the reader's override
covers the loop.
-/

open List Function

namespace TorchSpyre

open Unroll Loops

/-! ## The operations of a graph -/

namespace Graph

/-- The operations that touch a buffer. -/
def usesOf (g : Graph) (name : String) : List ℕ :=
  (List.range g.operations.length).filter (g.accessesAt · name)

/-- Operation `i` runs in the loop. -/
def inLoop (g : Graph) (loop : List ℕ) (i : ℕ) : Bool :=
  g.operations[i]?.any fun op => loop.isPrefixOf (countedLoopGroupPath op)

variable {g : Graph}

variable {name : String} {i : ℕ}

theorem readsAt_iff :
    g.readsAt i name = true ↔ ∃ op, g.operations[i]? = some op ∧ name ∈ op.reads := by
  simp [readsAt, Option.any_eq_true]

theorem writesAt_iff :
    g.writesAt i name = true ↔ ∃ op, g.operations[i]? = some op ∧ name ∈ op.writes := by
  simp [writesAt, Option.any_eq_true]

theorem accessesAt_iff :
    g.accessesAt i name = true ↔ g.readsAt i name = true ∨ g.writesAt i name = true := by
  cases h : g.operations[i]? <;> simp [accessesAt, readsAt, writesAt, Operation.accesses, h]

theorem accessesAt_eq {op : Operation} (h : g.operations[i]? = some op) (name : String) :
    g.accessesAt i name = op.accesses name := by
  simp [accessesAt, h]

theorem mem_usesOf : i ∈ g.usesOf name ↔ g.accessesAt i name = true := by
  simp only [usesOf, mem_filter, mem_range, and_iff_right_iff_imp]
  intro h
  cases hop : g.operations[i]? with
  | none => simp [accessesAt, hop] at h
  | some op => exact (List.getElem?_eq_some_iff.1 hop).1

theorem mem_code {path : List ℕ} : (i, path) ∈ g.code ↔
    ∃ op, g.operations[i]? = some op ∧ countedLoopGroupPath op = path := by
  simp [code, mem_zipIdx_iff_getElem?, and_comm]

theorem pairwise_code (g : Graph) : g.code.Pairwise fun c d => c.1 < d.1 := by
  rw [code, pairwise_map]
  have : (g.operations.zipIdx.map Prod.snd).Pairwise (· < ·) := by
    rw [zipIdx_map_snd, ← range_eq_range']
    exact pairwise_lt_range
  exact pairwise_map.1 this

theorem map_code (g : Graph) : g.code.map Prod.snd = g.operations.map countedLoopGroupPath := by
  rw [code, map_map]
  conv_rhs => rw [← zipIdx_map_fst 0 g.operations, map_map]
  rfl

end Graph

/-! ## The first pass -/

variable {g : Graph} {l : List ℕ} {op : Operation} {name : String} {e i j s : ℕ}

theorem getD_recordUse {liveness : String → Option (List ℕ)} (names : List String)
    (hlt : ∀ name, ∀ u ∈ (liveness name).getD [], u < i) (name : String) :
    ((names.foldl (recordUse i) liveness) name).getD [] =
      (liveness name).getD [] ++ if name ∈ names then [i] else [] := by
  induction names using List.reverseRecOn generalizing name with
  | nil => simp
  | append_singleton names n ih =>
    rw [foldl_append, foldl_cons, foldl_nil, recordUse, ih n]
    by_cases hn : name = n
    · subst hn
      rw [update_self, Option.getD_some]
      by_cases hmem : name ∈ names
      · simp [hmem]
      · have : ((liveness name).getD []).getLast? ≠ some i := fun h =>
          (hlt name i (mem_of_getLast? h)).false
        simp [hmem, this]
    · rw [update_of_ne hn, ih name]
      simp [hn]

/-- The uses of a buffer are the operations that touch it. -/
theorem getD_calculateLiveness (g : Graph) (name : String) :
    (calculateLiveness g name).getD [] = g.usesOf name := by
  have h := foldl_zipIdx (l := g.operations)
    (f := fun liveness p => (p.1.reads ++ p.1.writes).foldl (recordUse p.2) liveness)
    (I := fun k liveness => ∀ name, (liveness name).getD [] =
      (List.range k).filter fun i => g.accessesAt i name)
    (s := fun name => if name ∈ g.graphInputNames then some [] else none)
    (fun i op liveness hop hI name => ?_) (fun name => ?_)
  · exact h name
  · rw [getD_recordUse _ fun name u hu => ?_]
    · rw [hI name, range_succ, filter_append]
      simp [filter_singleton, g.accessesAt_eq hop, Operation.accesses, Bool.cond_eq_ite]
    · rw [hI name] at hu
      exact mem_range.1 (mem_of_mem_filter hu)
  · split_ifs <;> rfl

section Facts

variable {κ β : Type} [DecidableEq κ]

theorem setDefault_apply (d : κ → Option β) (k : κ) (v : β) (x : κ) :
    setDefault d k v x = if x = k then (d k).or (some v) else d x := by
  unfold setDefault
  by_cases h : x = k
  · subst h
    cases d x <;> simp
  · simp [h]

/-- Entering one value for several keys. -/
theorem foldl_setDefault (d : κ → Option β) (keys : List κ) (v : β) (x : κ) :
    keys.foldl (fun d k => setDefault d k v) d x =
      if x ∈ keys then (d x).or (some v) else d x := by
  induction keys generalizing d with
  | nil => simp
  | cons k keys ih =>
    rw [foldl_cons, ih, setDefault_apply]
    by_cases hk : x = k
    · subst hk
      cases d x <;> simp
    · simp [hk]

end Facts

namespace Facts

theorem foldl_visitLoop (index : ℕ) (f : Facts) (loops : List (List ℕ)) :
    loops.foldl (visitLoop index) f =
      { f with
        loopStart := loops.foldl (fun d k => setDefault d k index) f.loopStart
        loopEnd := loops.foldl (fun d k => Function.update d k (some index)) f.loopEnd } := by
  induction loops generalizing f with
  | nil => rfl
  | cons loop loops ih => exact ih _

theorem foldl_visitAccess (index : ℕ) (birth : List ℕ) (f : Facts) (names : List String) :
    names.foldl (visitAccess index birth) f =
      { f with
        birthGroup := names.foldl (fun d k => setDefault d k birth) f.birthGroup
        firstAccess := names.foldl (fun d k => setDefault d k index) f.firstAccess
        lastAccess := names.foldl (fun d k => Function.update d k (some index)) f.lastAccess } := by
  induction names generalizing f with
  | nil => rfl
  | cons name names ih => exact ih _

end Facts

namespace Graph

variable (g : Graph)

/-- The group a buffer is born in if operation `i` is the first to touch it. -/
def birthAt (name : String) (i : ℕ) : List ℕ :=
  if g.writesAt i name then (g.operations[i]?.map countedLoopGroupPath).getD [] else []

/-- What the first pass has collected after `k` operations. -/
structure Collected (k : ℕ) (f : Facts) : Prop where
  loopStart : ∀ loop ≠ [], f.loopStart loop = ((List.range k).filter (g.inLoop loop)).head?
  loopEnd : ∀ loop ≠ [], f.loopEnd loop = ((List.range k).filter (g.inLoop loop)).getLast?
  birthGroup : ∀ name, f.birthGroup name = if name ∈ g.graphInputNames then some [] else
    ((List.range k).filter (g.accessesAt · name)).head?.map (g.birthAt name)
  firstAccess : ∀ name, f.firstAccess name =
    ((List.range k).filter (g.accessesAt · name)).head?
  lastAccess : ∀ name, f.lastAccess name =
    ((List.range k).filter (g.accessesAt · name)).getLast?

theorem mem_prefixes {path loop : List ℕ} :
    (loop ∈ (List.range path.length).map fun d => path.take (d + 1)) ↔
      loop ≠ [] ∧ loop <+: path := by
  simp only [mem_map, mem_range]
  constructor
  · rintro ⟨d, hd, rfl⟩
    refine ⟨fun h => ?_, take_prefix _ _⟩
    have := congrArg List.length h
    simp at this
    simp [this] at hd
  · rintro ⟨hne, hpre⟩
    have hpos := length_pos_of_ne_nil hne
    refine ⟨loop.length - 1, by have := hpre.length_le; omega, ?_⟩
    rw [Nat.sub_add_cancel hpos]
    exact (prefix_iff_eq_take.1 hpre).symm

theorem filter_range_succ (p : ℕ → Bool) (k : ℕ) :
    (List.range (k + 1)).filter p = (List.range k).filter p ++ if p k then [k] else [] := by
  rw [range_succ, filter_append, filter_singleton, Bool.cond_eq_ite]

theorem Collected.visit {g : Graph} {k : ℕ} {f : Facts} {op : Operation}
    (hop : g.operations[k]? = some op) (h : g.Collected k f) :
    g.Collected (k + 1) (f.visit (op, k)) := by
  have hloop : ∀ loop, g.inLoop loop k = true ↔ loop <+: countedLoopGroupPath op := by
    intro loop
    simp [inLoop, hop]
  have hacc : ∀ name, g.accessesAt k name = true ↔ name ∈ op.reads ∨ name ∈ op.writes := by
    intro name
    simp [accessesAt, hop, Operation.accesses]
  have hbirth : ∀ name, g.birthAt name k =
      if name ∈ op.writes then countedLoopGroupPath op else [] := by
    intro name
    simp [birthAt, writesAt, hop]
  unfold Facts.visit
  simp only [Facts.foldl_visitAccess, Facts.foldl_visitLoop]
  constructor
  · intro loop hne
    dsimp only
    rw [foldl_setDefault, h.loopStart loop hne, filter_range_succ, head?_append]
    by_cases hl : loop <+: countedLoopGroupPath op
    · rw [if_pos (mem_prefixes.2 ⟨hne, hl⟩), if_pos ((hloop loop).2 hl), head?_singleton]
    · rw [if_neg fun h => hl (mem_prefixes.1 h).2, if_neg (mt (hloop loop).1 hl), head?_nil,
        Option.or_none]
  · intro loop hne
    dsimp only
    rw [foldl_update, h.loopEnd loop hne, filter_range_succ, getLast?_append]
    by_cases hl : loop <+: countedLoopGroupPath op
    · rw [if_pos (mem_prefixes.2 ⟨hne, hl⟩), if_pos ((hloop loop).2 hl), getLast?_singleton,
        Option.some_or]
    · rw [if_neg fun h => hl (mem_prefixes.1 h).2, if_neg (mt (hloop loop).1 hl),
        getLast?_nil, Option.none_or]
  · intro name
    dsimp only
    rw [foldl_setDefault, foldl_setDefault, h.birthGroup name, filter_range_succ, head?_append]
    cases ((List.range k).filter (g.accessesAt · name)).head? <;>
      by_cases hr : name ∈ op.reads <;> by_cases hw : name ∈ op.writes <;>
      by_cases hin : name ∈ g.graphInputNames <;> simp [hr, hw, hin, hacc, hbirth]
  · intro name
    dsimp only
    rw [foldl_setDefault, foldl_setDefault, h.firstAccess name, filter_range_succ, head?_append]
    by_cases hr : name ∈ op.reads <;> by_cases hw : name ∈ op.writes <;> simp [hr, hw, hacc]
  · intro name
    dsimp only
    rw [foldl_update, foldl_update, h.lastAccess name, filter_range_succ, getLast?_append]
    by_cases hr : name ∈ op.reads <;> by_cases hw : name ∈ op.writes <;> simp [hr, hw, hacc]

/-- The first pass in closed form. -/
theorem collected_facts (g : Graph) : g.Collected g.operations.length (facts g) := by
  refine foldl_zipIdx (I := g.Collected) (fun i op f hop h => h.visit hop) ?_
  constructor <;> simp

end Graph

/-! ## The second pass -/

/-- What the read of a buffer brings about and no read undoes, holds of the overrides. -/
theorem overrides_of_read {P : Overrides → Prop} (hop : g.operations[j]? = some op)
    (hread : name ∈ op.reads) (hpath : countedLoopGroupPath op ≠ [])
    (hbring : ∀ o, P (widen (facts g) j (countedLoopGroupPath op) o name))
    (hkeep : ∀ i path o n, P o → P (widen (facts g) i path o n)) :
    P (countedLoopLifetimeOverrides g) := by
  refine foldl_of_mem (x := (op, j)) (mem_zipIdx_iff_getElem?.2 hop) (fun o => ?_)
    (fun p _ o ho => ?_) _
  · dsimp only
    rw [if_neg hpath]
    exact foldl_of_mem hread hbring (fun n _ o => hkeep _ _ o n) o
  · dsimp only
    split_ifs
    · exact ho
    · exact List.foldlRecOn _ _ ho fun o ho n _ => hkeep _ _ o n ho

section Widen

variable {name n : String} {overrides : String → Option ℕ}

/-- The start is at most `s`. -/
def StartLe (name : String) (s : ℕ) (overrides : String → Option ℕ) : Prop :=
  ∃ s' ≤ s, overrides name = some s'

/-- The end is at least `e`. -/
def LeEnd (name : String) (e : ℕ) (overrides : String → Option ℕ) : Prop :=
  ∃ e', e ≤ e' ∧ overrides name = some e'

variable {f : Facts} {path : List ℕ} {o : Overrides} {e first i last s start stop : ℕ}

theorem startLe_lowerStart (h : start < first) :
    StartLe name start (lowerStart start first overrides name) := by
  rw [lowerStart, if_pos h]
  exact ⟨_, min_le_right _ _, update_self _ _ _⟩

theorem StartLe.lowerStart (h : StartLe name s overrides) :
    StartLe name s (lowerStart start first overrides n) := by
  obtain ⟨s', hle, hs'⟩ := h
  unfold TorchSpyre.lowerStart
  split_ifs
  · by_cases hn : name = n
    · subst hn
      rw [hs', Option.getD_some]
      exact ⟨_, (min_le_left _ _).trans hle, update_self _ _ _⟩
    · exact ⟨s', hle, by rw [update_of_ne hn, hs']⟩
  · exact ⟨s', hle, hs'⟩

theorem leEnd_raiseEnd (h : last + 1 < stop) :
    LeEnd name stop (raiseEnd stop last overrides name) := by
  rw [raiseEnd, if_pos h]
  exact ⟨_, le_max_right _ _, update_self _ _ _⟩

theorem LeEnd.raiseEnd (h : LeEnd name e overrides) :
    LeEnd name e (raiseEnd stop last overrides n) := by
  obtain ⟨e', hle, he'⟩ := h
  unfold TorchSpyre.raiseEnd
  split_ifs
  · by_cases hn : name = n
    · subst hn
      rw [he', Option.getD_some]
      exact ⟨_, hle.trans (le_max_left _ _), update_self _ _ _⟩
    · exact ⟨e', hle, by rw [update_of_ne hn, he']⟩
  · exact ⟨e', hle, he'⟩

theorem StartLe.widen (h : StartLe name s o.start) : StartLe name s (widen f i path o n).start := by
  unfold TorchSpyre.widen
  dsimp only
  split_ifs
  · exact h
  · exact h.lowerStart

theorem LeEnd.widen (h : LeEnd name e o.stop) : LeEnd name e (widen f i path o n).stop := by
  unfold TorchSpyre.widen
  dsimp only
  split_ifs
  · exact h
  · exact h.raiseEnd

end Widen

/-- A read widens the lifetime of a buffer to the loop it crosses into, on either side. -/
theorem crossing_read {birth : List ℕ} (hop : g.operations[j]? = some op) (hread : name ∈ op.reads)
    (hbirth : ((facts g).birthGroup name).getD [] = birth)
    (hcross : (common birth (countedLoopGroupPath op)).length < (countedLoopGroupPath op).length)
    (hs : (facts g).loopStart ((countedLoopGroupPath op).take
      ((common birth (countedLoopGroupPath op)).length + 1)) = some s)
    (he : (facts g).loopEnd ((countedLoopGroupPath op).take
      ((common birth (countedLoopGroupPath op)).length + 1)) = some e) :
    (s < ((facts g).firstAccess name).getD j →
      StartLe name s (countedLoopLifetimeOverrides g).start) ∧
    (((facts g).lastAccess name).getD j + 1 < e + 1 →
      LeEnd name (e + 1) (countedLoopLifetimeOverrides g).stop) := by
  have hpath : countedLoopGroupPath op ≠ [] := ne_nil_of_length_pos (by omega)
  have hwiden : ∀ o, widen (facts g) j (countedLoopGroupPath op) o name =
      ⟨lowerStart s (((facts g).firstAccess name).getD j) o.start name,
        raiseEnd (e + 1) (((facts g).lastAccess name).getD j) o.stop name⟩ := by
    intro o
    unfold widen
    simp only [hbirth, hs, he, Option.getD_some, if_neg hcross.ne]
  refine ⟨fun h => ?_, fun h => ?_⟩
  · refine overrides_of_read (P := fun o => StartLe name s o.start) hop hread hpath
      (fun o => ?_) fun i path o n => StartLe.widen
    rw [hwiden]
    exact startLe_lowerStart h
  · refine overrides_of_read (P := fun o => LeEnd name (e + 1) o.stop) hop hread hpath
      (fun o => ?_) fun i path o n => LeEnd.widen
    rw [hwiden]
    exact leEnd_raiseEnd h

/-! ## Lifetimes -/

theorem pairwise_usesOf (g : Graph) (name : String) : (g.usesOf name).Pairwise (· < ·) :=
  pairwise_lt_range.filter _

theorem head?_le (h : l.Pairwise (· < ·)) (hi : i ∈ l) (hs : l.head? = some s) : s ≤ i := by
  obtain ⟨l, rfl⟩ := head?_eq_some_iff.1 hs
  exact (h.imp le_of_lt).rel_head hi

theorem le_getLast? (h : l.Pairwise (· < ·)) (hi : i ∈ l) (he : l.getLast? = some e) : i ≤ e := by
  obtain ⟨l, rfl⟩ := getLast?_eq_some_iff.1 he
  simpa using (h.imp le_of_lt).rel_getLast hi

/-- The lifetime of `b` covers the uses of the buffer, from `first` to `last`, and the
overrides. -/
structure LifetimeOf (g : Graph) (name : String) (b : LifetimeBoundBuffer) (first last : ℕ) :
    Prop where
  head : (g.usesOf name).head? = some first
  getLast : (g.usesOf name).getLast? = some last
  start_le : b.startTime ≤ first
  lt_end : (last : ℤ) < b.endTime
  startLe : ∀ {s : ℕ}, StartLe name s (countedLoopLifetimeOverrides g).start → b.startTime ≤ s
  leEnd : ∀ {e : ℕ}, LeEnd name e (countedLoopLifetimeOverrides g).stop → (e : ℤ) ≤ b.endTime

theorem exists_boundBuffer (h : g.accessesAt i name = true) (size : ℕ) :
    ∃ b first last, boundBuffer g name size = some b ∧
      LifetimeOf g name b first last := by
  have hmem : i ∈ g.usesOf name := Graph.mem_usesOf.2 h
  have huses : ((calculateLiveness g name).getD []).map Int.ofNat =
      (g.usesOf name).map Int.ofNat := by rw [getD_calculateLiveness]
  have hok : ((calculateLiveness g name).getD []).map Int.ofNat ≠ [] ∧
      (((calculateLiveness g name).getD []).map Int.ofNat).Pairwise (· < ·) := by
    rw [huses]
    refine ⟨fun hnil => ?_, ?_⟩
    · rw [map_eq_nil_iff.1 hnil] at hmem
      simp at hmem
    · rw [pairwise_map]
      exact (pairwise_usesOf g name).imp fun hlt => Int.ofNat_lt.2 hlt
  obtain ⟨b, hb, hbuses, hbstart, hbend⟩ : ∃ b, boundBuffer g name size = some b ∧
      b.uses = (g.usesOf name).map Int.ofNat ∧
      b.lifetimeStartOverride = ((countedLoopLifetimeOverrides g).start name).map Int.ofNat ∧
      b.lifetimeEndOverride = ((countedLoopLifetimeOverrides g).stop name).map Int.ofNat :=
    ⟨_, dif_pos hok, huses, rfl, rfl⟩
  have hne := ne_nil_of_mem hmem
  refine ⟨b, (g.usesOf name).head hne, (g.usesOf name).getLast hne, hb,
    head?_eq_some_head hne, getLast?_eq_some_getLast hne, ?_, ?_, ?_, ?_⟩
  · refine b.startTime_le_firstUse.trans_eq ?_
    simp [LifetimeBoundBuffer.firstUse, hbuses]
  · refine Eq.trans_lt ?_ b.lastUse_lt_endTime
    simp [LifetimeBoundBuffer.lastUse, hbuses]
  · rintro s ⟨s', hle, hs'⟩
    rw [LifetimeBoundBuffer.startTime, hbstart, hs']
    exact (min_le_right _ _).trans (by simpa using hle)
  · rintro e ⟨e', hle, he'⟩
    have hlast : 0 ≤ b.lastUse := by
      simp [LifetimeBoundBuffer.lastUse, hbuses]
    rw [LifetimeBoundBuffer.endTime, hbend, he']
    simp only [Option.map_some, Int.ofNat_eq_natCast]
    split_ifs <;> omega

/-! ## Executions -/

/-- No operation both reads and writes a buffer it is the first to access. -/
def Graph.NoUpdateFirst (g : Graph) : Prop :=
  ∀ p ∈ g.operations.zipIdx, ∀ name ∈ p.1.reads, name ∈ p.1.writes →
    ∃ op ∈ g.operations.take p.2, op.accesses name = true

instance (g : Graph) : Decidable g.NoUpdateFirst :=
  inferInstanceAs (Decidable (∀ p ∈ _, _))

theorem Graph.NoUpdateFirst.not_readsAt (h : g.NoUpdateFirst) (hi : (g.usesOf name).head? = some i)
    (hw : g.writesAt i name = true) :
    ¬g.readsAt i name = true := by
  intro hr
  obtain ⟨op, hop, hread⟩ := Graph.readsAt_iff.1 hr
  obtain ⟨op', hop', hwrite⟩ := Graph.writesAt_iff.1 hw
  obtain rfl := Option.some.inj (hop.symm.trans hop')
  obtain ⟨o, ho, hacc⟩ := h (op, i) (mem_zipIdx_iff_getElem?.2 hop) name hread hwrite
  obtain ⟨k, hk, rfl⟩ := getElem_of_mem ho
  rw [length_take] at hk
  rw [getElem_take] at hacc
  have hmem : k ∈ g.usesOf name := Graph.mem_usesOf.2 (by
    rw [Graph.accessesAt_eq (getElem?_eq_getElem (by omega)), hacc])
  have := head?_le (pairwise_usesOf g name) hmem hi
  omega

/-- Two points of an execution : an access of a buffer, and a later read of it with no write in
between. -/
structure Reuse (g : Graph) (trip : List ℕ → ℕ) (name : String) (pre : List Instance)
    (a : Instance) (mid : List Instance) (c : Instance) (post : List Instance) : Prop where
  trace : unroll trip g.code = pre ++ a :: (mid ++ c :: post)
  access : g.accessesAt a.index name = true
  read : g.readsAt c.index name = true
  quiet : ∀ x ∈ mid, ¬g.writesAt x.index name = true

section Execution

variable {g : Graph} {trip : List ℕ → ℕ} {name : String} {pre mid post : List Instance}
  {a c x : Instance} {b : LifetimeBoundBuffer} {first last : ℕ}

theorem exists_op_of_mem (hx : x ∈ unroll trip g.code) :
    ∃ op, g.operations[x.index]? = some op ∧ countedLoopGroupPath op = x.path :=
  Graph.mem_code.1 ((mem_unroll trip).1 hx).1

theorem Reuse.mem (h : Reuse g trip name pre a mid c post) (hx : x ∈ a :: mid) :
    x ∈ unroll trip g.code := by
  rw [h.trace]
  simp only [mem_append, mem_cons] at hx ⊢
  tauto

theorem Reuse.mem_read (h : Reuse g trip name pre a mid c post) : c ∈ unroll trip g.code := by
  rw [h.trace]
  simp

variable {loop : List ℕ} {op : Operation} {i : ℕ}

/-- A loop that two executed steps are in starts and ends around them. -/
theorem loop_bounds (hx : x ∈ unroll trip g.code) (hne : loop ≠ []) (hin : loop <+: x.path) :
    ∃ s e, (facts g).loopStart loop = some s ∧
      (facts g).loopEnd loop = some e ∧ s ≤ x.index ∧ x.index ≤ e := by
  obtain ⟨op, hop, hpath⟩ := exists_op_of_mem hx
  have hmem : x.index ∈ (List.range g.operations.length).filter (g.inLoop loop) := by
    refine mem_filter.2 ⟨mem_range.2 (List.getElem?_eq_some_iff.1 hop).1, ?_⟩
    simp [Graph.inLoop, hop, hpath, hin]
  have hpw : ((List.range g.operations.length).filter (g.inLoop loop)).Pairwise (· < ·) :=
    pairwise_lt_range.filter _
  have hlist := ne_nil_of_mem hmem
  have hs := head?_eq_some_head hlist
  have he := getLast?_eq_some_getLast hlist
  exact ⟨_, _, (g.collected_facts.loopStart loop hne).trans hs,
    (g.collected_facts.loopEnd loop hne).trans he, head?_le hpw hmem hs, le_getLast? hpw hmem he⟩

theorem getElem?_paths (h : g.operations[i]? = some op) :
    (g.operations.map countedLoopGroupPath)[i]? = some (countedLoopGroupPath op) := by
  rw [getElem?_map, h, Option.map_some]

/-- A loop that two executed steps are in holds the operations between them. -/
theorem prefix_of_between (hnest : Nested (g.operations.map countedLoopGroupPath)) {y : Instance}
    (hx : x ∈ unroll trip g.code) (hy : y ∈ unroll trip g.code) (hlx : loop <+: x.path)
    (hly : loop <+: y.path) (hop : g.operations[i]? = some op) (hxi : x.index < i)
    (hiy : i ≤ y.index) :
    loop <+: countedLoopGroupPath op := by
  obtain ⟨ox, hox, hpx⟩ := exists_op_of_mem hx
  obtain ⟨oy, hoy, hpy⟩ := exists_op_of_mem hy
  rcases hiy.eq_or_lt with rfl | hiy
  · rw [Option.some.inj (hop.symm.trans hoy), hpy]
    exact hly
  · exact hnest.between hxi hiy (getElem?_paths hox) (getElem?_paths hop) (getElem?_paths hoy)
      (hpx ▸ hlx) (hpy ▸ hly)

theorem Graph.pairwise_unroll (hnest : Nested (g.operations.map countedLoopGroupPath)) :
    (unroll trip g.code).Pairwise Precedes :=
  Unroll.pairwise_unroll (g.map_code ▸ hnest) g.pairwise_code

/-- The first access is a write that is passed on the way to the read : impossible. -/
theorem Reuse.not_pass (h : Reuse g trip name pre a mid c post)
    (hnest : Nested (g.operations.map countedLoopGroupPath)) (hw : g.writesAt i name = true)
    (hx : x ∈ a :: mid) :
    ¬∃ z ∈ unroll trip g.code, z.index = i ∧ Precedes x z ∧ Precedes z c := by
  rintro ⟨z, hz, rfl, hxz, hzc⟩
  exact h.quiet z (mem_between (Graph.pairwise_unroll hnest) h.trace hx hz hxz hzc) hw

variable (h : Reuse g trip name pre a mid c post) (htrip : ∀ loop, 0 < trip loop)
  (hnest : Nested (g.operations.map countedLoopGroupPath)) (hplain : g.NoUpdateFirst)
  (hb : LifetimeOf g name b first last) (hx : x ∈ a :: mid)
include h htrip hnest hplain hb hx

/-- No step before the lifetime is executed. -/
theorem Reuse.start_le : b.startTime ≤ x.index := by
  by_contra hlt
  have hxF : x.index < first := by
    have := hb.start_le
    omega
  have hle : ∀ {i}, g.accessesAt i name = true → first ≤ i := fun hi =>
    head?_le (pairwise_usesOf g name) (Graph.mem_usesOf.2 hi) hb.head
  have hxc := hle (Graph.accessesAt_iff.2 (.inl h.read))
  have hfirst : g.accessesAt first name = true :=
    Graph.mem_usesOf.1 (mem_of_head? hb.head)
  have hpw : (unroll trip g.code).Pairwise Precedes := Graph.pairwise_unroll hnest
  by_cases hw : g.writesAt first name = true
  · -- the write `first` lies between `x` and the read
    obtain ⟨op, hop, -⟩ := Graph.writesAt_iff.1 hw
    have hne : first ≠ c.index := by
      rintro rfl
      exact hplain.not_readsAt hb.head hw h.read
    exact h.not_pass hnest hw hx (exists_pass htrip hpw (Graph.mem_code.2 ⟨op, hop, rfl⟩)
      (h.mem hx) h.mem_read (precedes_of_mem hpw h.trace hx) hxF (by dsimp only; omega))
  · -- `first` is a read in a loop that holds `x`, which lowers the start
    have hmid : x ∈ mid := by
      rcases mem_cons.1 hx with rfl | hx
      · exact absurd (hle h.access) (by omega)
      · exact hx
    obtain ⟨loop, hloop⟩ := exists_earlier (precedes_of_mem_mid hpw h.trace hmid)
      (by have := hle h.access; omega)
    obtain ⟨op, hop, hread⟩ :=
      Graph.readsAt_iff.1 ((Graph.accessesAt_iff.1 hfirst).resolve_right hw)
    have hin : loop <+: countedLoopGroupPath op :=
      prefix_of_between hnest (h.mem hx) (h.mem mem_cons_self) hloop.prefix_right
        hloop.prefix_left hop hxF (hle h.access)
    obtain ⟨l, loop, rfl⟩ := exists_cons_of_ne_nil hloop.ne_nil
    have htake : (countedLoopGroupPath op).take 1 = [l] := by
      obtain ⟨rest, hrest⟩ := hin
      rw [← hrest]
      rfl
    have hbirth : ((facts g).birthGroup name).getD [] = [] := by
      have hhead := hb.head
      unfold Graph.usesOf at hhead
      rw [g.collected_facts.birthGroup, hhead]
      split_ifs
      · rfl
      · simp [Graph.birthAt, hw]
    obtain ⟨s, e, hs, he, hsx, -⟩ := loop_bounds (h.mem hx) (cons_ne_nil l [])
      ((prefix_append [l] loop).trans hloop.prefix_right)
    have hcross := crossing_read (s := s) (e := e) hop hread hbirth
      (by simpa [common] using length_pos_of_ne_nil (hin.ne_nil hloop.ne_nil))
      (by simpa [common, htake] using hs) (by simpa [common, htake] using he)
    have hfa : ((facts g).firstAccess name).getD first = first := by
      rw [g.collected_facts.firstAccess]
      exact congrArg (Option.getD · first) hb.head
    have := hb.startLe (hcross.1 (by omega))
    omega

/-- No step after the lifetime is executed. -/
theorem Reuse.lt_end : (x.index : ℤ) < b.endTime := by
  by_contra hge
  have hcacc : c.index ∈ g.usesOf name :=
    Graph.mem_usesOf.2 (Graph.accessesAt_iff.2 (.inl h.read))
  have hcL : c.index ≤ last := le_getLast? (pairwise_usesOf g name) hcacc hb.getLast
  have hFc : first ≤ c.index := head?_le (pairwise_usesOf g name) hcacc hb.head
  have hLx : last < x.index := by
    have := hb.lt_end
    omega
  obtain ⟨loop, hloop⟩ := exists_earlier
    (precedes_of_mem (Graph.pairwise_unroll hnest) h.trace hx) (by omega)
  obtain ⟨opc, hopc, hread⟩ := Graph.readsAt_iff.1 h.read
  obtain ⟨opc', hopc', hpath⟩ := exists_op_of_mem h.mem_read
  obtain rfl := Option.some.inj (hopc.symm.trans hopc')
  obtain ⟨birth, hbirth⟩ : ∃ birth, ((facts g).birthGroup name).getD [] = birth := ⟨_, rfl⟩
  by_cases hin : loop <+: birth
  · -- the buffer is born in the loop, so `first` is a write in it
    have hne := hin.ne_nil hloop.ne_nil
    rw [g.collected_facts.birthGroup] at hbirth
    split_ifs at hbirth with hinput
    · exact hne hbirth.symm
    have hhead := hb.head
    unfold Graph.usesOf at hhead
    rw [hhead, Option.map_some, Option.getD_some] at hbirth
    unfold Graph.birthAt at hbirth
    split_ifs at hbirth with hw
    · obtain ⟨op, hop, -⟩ := Graph.writesAt_iff.1 hw
      rw [hop, Option.map_some, Option.getD_some] at hbirth
      have hFne : first ≠ c.index := by
        rintro rfl
        exact hplain.not_readsAt hb.head hw h.read
      exact h.not_pass hnest hw hx (exists_pass_backedge htrip
        (Graph.mem_code.2 ⟨op, hop, rfl⟩) h.mem_read hloop (hbirth ▸ hin) (by dsimp only; omega))
    · exact hne hbirth.symm
  · -- the loop is one the read crosses into, which raises the end
    have hshort : (common birth c.path).length < loop.length := by
      by_contra hle
      exact hin ((prefix_of_prefix_length_le hloop.prefix_right
        ( common_prefix birth c.path).2 (not_lt.1 hle)).trans ( common_prefix birth c.path).1)
    have hlen := hloop.prefix_right.length_le
    rw [← hpath] at hshort hlen
    have htake : (countedLoopGroupPath opc).take
        ((common birth (countedLoopGroupPath opc)).length + 1) <+: loop := by
      refine prefix_of_prefix_length_le (List.take_prefix _ _)
        (hpath ▸ hloop.prefix_right) ?_
      rw [length_take]
      omega
    have hne : (countedLoopGroupPath opc).take
        ((common birth (countedLoopGroupPath opc)).length + 1) ≠ [] := by
      refine ne_nil_of_length_pos ?_
      rw [length_take]
      omega
    obtain ⟨s, e, hs, he, -, hxe⟩ := loop_bounds (h.mem hx) hne (htake.trans hloop.prefix_left)
    have hcross := crossing_read hopc hread hbirth (by omega) hs he
    have hla : ((facts g).lastAccess name).getD c.index = last := by
      rw [g.collected_facts.lastAccess]
      exact congrArg (Option.getD · c.index) hb.getLast
    have := hb.leEnd (hcross.2 (by omega))
    push_cast at this
    omega

end Execution

/-- Counted-loop liveness is sound : whatever the trip counts, every step executed from an
access of a buffer to a read of it with no write in between lies in the buffer's lifetime. -/
theorem lifetime_sound {g : Graph} (hnest : Nested (g.operations.map countedLoopGroupPath))
    (hplain : g.NoUpdateFirst) {trip : List ℕ → ℕ} (htrip : ∀ loop, 0 < trip loop) {name : String}
    (size : ℕ) {pre mid post : List Instance} {a c : Instance}
    (h : Reuse g trip name pre a mid c post) :
    ∃ b, boundBuffer g name size = some b ∧
      ∀ x ∈ a :: (mid ++ [c]), b.startTime ≤ x.index ∧ (x.index : ℤ) < b.endTime := by
  obtain ⟨b, first, last, hbound, hb⟩ := exists_boundBuffer h.access size
  refine ⟨b, hbound, fun x hx => ?_⟩
  rw [← cons_append, mem_append, mem_singleton] at hx
  rcases hx with hx | rfl
  · exact ⟨h.start_le htrip hnest hplain hb hx, h.lt_end htrip hnest hplain hb hx⟩
  · have hacc := Graph.mem_usesOf.2 (Graph.accessesAt_iff.2 (.inl h.read))
    have h₁ := head?_le (pairwise_usesOf g name) hacc hb.head
    have h₂ := le_getLast? (pairwise_usesOf g name) hacc hb.getLast
    have h₃ := hb.start_le
    have h₄ := hb.lt_end
    omega

/-- A value read in a loop it was not born in, and a temporary of the loop. -/
def invariantInLoop : Graph where
  graphInputNames := ["x"]
  operations := [
    ⟨"w", false, [], ["x"], ["w"]⟩,
    ⟨"t", false, [0], ["x"], ["t"]⟩,
    ⟨"u", false, [0], ["t", "w"], ["u"]⟩,
    ⟨"v", false, [0], ["u"], ["v"]⟩]

example : ((boundBuffer invariantInLoop "w" 128).map fun b => (b.startTime, b.endTime)) =
    some (0, 4) := by
  decide +kernel

/-- The temporary `v` runs between two reads of `w`. -/
theorem lifetime_sound_invariantInLoop :
    ∃ b, boundBuffer invariantInLoop "w" 128 = some b ∧
      b.startTime ≤ 3 ∧ (3 : ℤ) < b.endTime := by
  have h : Reuse invariantInLoop (fun _ => 2) "w" [⟨0, [], []⟩, ⟨1, [0], [0]⟩] ⟨2, [0], [0]⟩
      [⟨3, [0], [0]⟩, ⟨1, [0], [1]⟩] ⟨2, [0], [1]⟩ [⟨3, [0], [1]⟩] :=
    ⟨by decide +kernel, by decide +kernel, by decide +kernel, by decide +kernel⟩
  obtain ⟨b, hb, hin⟩ :=
    lifetime_sound (by decide +kernel) (by decide +kernel) (fun _ => by decide) 128 h
  exact ⟨b, hb, hin ⟨3, [0], [0]⟩ (by decide)⟩

end TorchSpyre
