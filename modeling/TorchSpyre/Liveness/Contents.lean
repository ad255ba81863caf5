import Mathlib
import TorchSpyre.FirstFit.Safe
import TorchSpyre.Liveness.Sound
import TorchSpyre.Residency

/-!
# What a run of the program reads from the scratchpad

A plan of a layout solver puts some buffers of a graph into the scratchpad, the others keep
storage of their own. A plan that keeps buffers apart that are live together changes nothing,
whatever the operations compute and however often the counted loops run (`keeps_of_apart`) :
lifetimes cover every step on which a buffer is needed, so nothing is written over it.

An in-place child is written over its parent on the parent's last tick. That is sound if every
loop around the child's operation also holds the first write of the parent (`handsOver`). The
allocator tests the ticks alone. They agree for a parent from outside of a loop as well, if
its last reader is the last operation of the loop, and the next iteration reads the child.
-/

open List Function

namespace TorchSpyre

open Checked Residency Unroll

/-! ## Programs -/

/-- The first access of a buffer is a write. -/
def Graph.writtenFirst (g : Graph) (name : String) : Bool :=
  (g.usesOf name).head?.any fun first => g.writesAt first name

/-- The counted loops around operation `i`. -/
def Graph.pathAt (g : Graph) (i : ℕ) : List ℕ :=
  (g.operations[i]?.map countedLoopGroupPath).getD []

/-- The operation on which `child` begins does not write `parent`, and every loop around it
holds the first write of `parent`. -/
def handsOver (g : Graph) (parent child : LifetimeBoundBuffer) : Bool :=
  !g.writesAt child.startTime.toNat parent.name &&
    (g.usesOf parent.name).head?.all fun first =>
      (g.pathAt child.startTime.toNat).isPrefixOf (g.pathAt first)

/-- A graph, and buffers for outputs of its operations with the lifetimes of `boundBuffer`. -/
structure Workload where
  graph : Graph
  buffers : List LifetimeBoundBuffer
  size : String → ℕ
  nested : Nested (graph.operations.map countedLoopGroupPath)
  plain : graph.NoUpdateFirst
  named : UniquelyNamed buffers
  sized : ∀ b ∈ buffers, b.size = size b.name
  lifetimes : ∀ b ∈ buffers, (boundBuffer graph b.name b.size).map
    (fun b₀ => (b₀.startTime, b₀.endTime)) = some (b.startTime, b.endTime)
  written : ∀ b ∈ buffers, b.firstUseIsRead = false ∧ graph.writtenFirst b.name = true
  handsOver : ∀ p ∈ buffers, ∀ c ∈ buffers, p.name ∈ c.inPlaceParents → handsOver graph p c = true

/-- The steps read and write what the operations do. What they compute is up to them. -/
structure Graph.Performs {size : String → ℕ} {α : Type} (g : Graph)
    (step : Instance → Step size α) : Prop where
  reads : ∀ x n, n ∈ (step x).reads ↔ g.readsAt x.index n = true
  writes : ∀ x n, n ∈ (step x).writes ↔ g.writesAt x.index n = true

theorem Graph.Performs.exists_read {g : Graph} {size : String → ℕ} {α : Type}
    {step : Instance → Step size α} (hstep : g.Performs step) {outs : Set String}
    {l : List Instance} {n : String} (h : Needed outs (l.map step) n) (hn : n ∉ outs) :
    ∃ mid c post, l = mid ++ c :: post ∧ g.readsAt c.index n = true ∧
      ∀ y ∈ mid, ¬g.writesAt y.index n = true := by
  obtain ⟨hout, -⟩ | ⟨mid, c, post, hl, hread, hquiet⟩ := h
  · exact absurd hout hn
  obtain ⟨mid, l', rfl, rfl, hl'⟩ := map_eq_append_iff.1 hl
  obtain ⟨c, post, rfl, rfl, rfl⟩ := map_eq_cons_iff.1 hl'
  exact ⟨mid, c, post, rfl, (hstep.reads c n).1 hread, fun y hy hw =>
    hquiet _ (mem_map_of_mem hy) ((hstep.writes y n).2 hw)⟩

/-! ## Bytes -/

section Bytes

variable (size : String → ℕ) (plan : String → Option ℕ)

/-- Where the bytes of a buffer are : from its address on in the scratchpad, if it has one, or
in storage of its own. -/
def byteOf (n : String) (k : Fin (size n)) : (String × ℕ) ⊕ ℕ :=
  match plan n with
  | some a => .inr (a + k)
  | none => .inl (n, k)

variable {size plan} {n w : String}

theorem byteOf_injective (n : String) : Injective (byteOf size plan n) := by
  intro j k h
  cases hn : plan n <;> simpa [byteOf, hn, Fin.ext_iff] using h

theorem disjoint_byteOf (hne : n ≠ w)
    (h : ∀ a b, plan w = some a → plan n = some b →
      Disjoint (Set.Ico a (a + size w)) (Set.Ico b (b + size n))) :
    Disjoint (Set.range (byteOf size plan w)) (Set.range (byteOf size plan n)) := by
  rw [Set.disjoint_left]
  rintro _ ⟨j, rfl⟩ ⟨k, hk⟩
  cases hw : plan w <;> cases hn : plan n <;> simp [byteOf, hw, hn] at hk
  · exact hne hk.1
  · have hdis := h _ _ hw hn
    rw [Set.Ico_disjoint_Ico] at hdis
    omega

end Bytes

/-- Every run of the program, with the buffers where the plan puts them, computes what it
computes with storage for each of them. -/
def Workload.Keeps (W : Workload) (plan : String → Option ℕ) : Prop :=
  ∀ (α : Type) (step : Instance → Step W.size α), W.graph.Performs step →
    ∀ trip : List ℕ → ℕ, (∀ loop, 0 < trip loop) →
    ∀ (m : (String × ℕ) ⊕ ℕ → α) (σ : Store W.size α),
      (∀ n, plan n = none → load (byteOf W.size plan) m n = σ n) →
      Refines (byteOf W.size plan) {n | plan n = none} ((unroll trip W.graph.code).map step) m σ

/-! ## Executions -/

section Execution

variable {g : Graph} {trip : List ℕ → ℕ} {n : String} {pre mid post : List Instance}
  {a c x : Instance}
  {b child : LifetimeBoundBuffer} {first i last : ℕ}

/-- A buffer is live on every access. -/
theorem LifetimeOf.mem (h : LifetimeOf g n b first last) (hacc : g.accessesAt i n = true) :
    b.startTime ≤ i ∧ (i : ℤ) < b.endTime := by
  have hmem := Graph.mem_usesOf.2 hacc
  have h₁ := head?_le (pairwise_usesOf g n) hmem h.head
  have h₂ := le_getLast? (pairwise_usesOf g n) hmem h.getLast
  have h₃ := h.start_le
  have h₄ := h.lt_end
  omega

/-- A buffer that is written first is first accessed by a write before each read. -/
theorem Graph.NoUpdateFirst.exists_first (h : g.NoUpdateFirst) (hw : g.writtenFirst n = true)
    (hread : g.readsAt i n = true) :
    ∃ first op, (g.usesOf n).head? = some first ∧ g.operations[first]? = some op ∧
      g.writesAt first n = true ∧ first < i := by
  have hmem := Graph.mem_usesOf.2 (Graph.accessesAt_iff.2 (.inl hread))
  obtain ⟨first, hhead, hw⟩ := (Option.any_eq_true _ _).1 hw
  obtain ⟨op, hop, -⟩ := Graph.writesAt_iff.1 hw
  refine ⟨first, op, hhead, hop, hw, lt_of_le_of_ne (head?_le (pairwise_usesOf g n) hmem hhead) ?_⟩
  rintro rfl
  exact h.not_readsAt hhead hw hread

variable (hnest : Nested (g.operations.map countedLoopGroupPath)) (hplain : g.NoUpdateFirst)
  (htrip : ∀ loop, 0 < trip loop)
include hnest hplain htrip

theorem exists_write_before (hfirst : g.writtenFirst n = true)
    (htrace : unroll trip g.code = pre ++ c :: post) (hread : g.readsAt c.index n = true) :
    ∃ z ∈ pre, g.writesAt z.index n = true := by
  obtain ⟨first, op, -, hop, hw, hlt⟩ := hplain.exists_first hfirst hread
  have hz : followBy (first, countedLoopGroupPath op) c ∈ unroll trip g.code :=
    followBy_mem htrip (by simp [htrace]) (Graph.mem_code.2 ⟨op, hop, rfl⟩)
  have hzc : Precedes (followBy (first, countedLoopGroupPath op) c) c :=
    (precedes_follow hlt _ _ _).2
  refine ⟨followBy (first, countedLoopGroupPath op) c, ?_, hw⟩
  have hpw := (pairwise_append.1 (htrace ▸ Graph.pairwise_unroll hnest)).2.1
  rw [htrace, mem_append, mem_cons] at hz
  rcases hz with hz | hz | hz
  · exact hz
  · exact absurd (hz ▸ hzc) (precedes_irrefl _ _ _)
  · exact absurd ((pairwise_cons.1 hpw).1 _ hz) (precedes_asymm hzc)

/-- A buffer that is still read after a step was written at the step or before it. -/
theorem exists_reuse (hfirst : g.writtenFirst n = true)
    (htrace : unroll trip g.code = pre ++ x :: (mid ++ c :: post))
    (hread : g.readsAt c.index n = true) (hquiet : ∀ y ∈ mid, ¬g.writesAt y.index n = true) :
    ∃ pre' a mid', Reuse g trip n pre' a mid' c post ∧ x ∈ a :: mid' := by
  have htrace' : unroll trip g.code = (pre ++ x :: mid) ++ c :: post := by simp [htrace]
  obtain ⟨z, hz, hw⟩ := exists_write_before hnest hplain htrip hfirst htrace' hread
  have hz' : z ∈ x :: pre.reverse := by
    simp only [mem_append, mem_cons, mem_reverse] at hz ⊢
    exact or_comm.1 (hz.imp_right fun hz => hz.resolve_right fun hz => hquiet z hz hw)
  -- the last write up to `x`
  obtain ⟨a, ha⟩ : ∃ a, (x :: pre.reverse).find? (fun y => g.writesAt y.index n) = some a :=
    Option.isSome_iff_exists.1 (find?_isSome.2 ⟨z, hz', hw⟩)
  obtain ⟨ha, after, before, hsplit, hafter⟩ := find?_eq_some_iff_append.1 ha
  have hpre : pre ++ [x] = before.reverse ++ a :: after.reverse := by
    simpa using congrArg List.reverse hsplit
  refine ⟨before.reverse, a, after.reverse ++ mid,
    ⟨?_, Graph.accessesAt_iff.2 (.inr ha), hread, fun y hy => ?_⟩, ?_⟩
  · rw [htrace, ← singleton_append, ← append_assoc, hpre]
    simp
  · rcases mem_append.1 hy with hy | hy
    · simpa using hafter y (mem_reverse.1 hy)
    · exact hquiet y hy
  · cases after <;> simp [(List.cons.inj hsplit).1]

/-- A parent that is written anew in all loops of its last tick is not read again after it. -/
theorem lt_startTime_of_handsOver (h : handsOver g b child = true)
    (hb : LifetimeOf g b.name b first last) (htick : b.endTime = child.startTime + 1)
    (hfirst : g.writtenFirst b.name = true) (hreuse : Reuse g trip b.name pre a mid c post)
    (hx : x ∈ a :: mid) : (x.index : ℤ) < child.startTime := by
  by_contra hge
  have hlt := hreuse.lt_end htrip hnest hplain hb hx
  have hlive := hb.mem (Graph.accessesAt_iff.2 (.inl hreuse.read))
  obtain ⟨loop, hloop⟩ := exists_earlier
    (precedes_of_mem (Graph.pairwise_unroll hnest) hreuse.trace hx) (by omega)
  obtain ⟨f, op, hhead, hop, hw, hfc⟩ := hplain.exists_first hfirst hreuse.read
  obtain ⟨opx, hopx, hpath⟩ := exists_op_of_mem (hreuse.mem hx)
  have htime : child.startTime.toNat = x.index := by omega
  have hin : x.path <+: countedLoopGroupPath op := by
    simpa [handsOver, Graph.pathAt, htime, hhead, hop, hopx, hpath] using
      (Bool.and_eq_true_iff.1 h).2
  exact hreuse.not_pass hnest hw hx (exists_pass_backedge htrip (Graph.mem_code.2 ⟨op, hop, rfl⟩)
    hreuse.mem_read hloop (hloop.prefix_left.trans hin) hfc)

end Execution

/-! ## Plans -/

namespace Workload

variable {W : Workload} {plan : String → Option ℕ}

theorem exists_lifetimeOf {b : LifetimeBoundBuffer} (hb : b ∈ W.buffers) :
    ∃ first last, LifetimeOf W.graph b.name b first last := by
  obtain ⟨i, -, hw⟩ := (Option.any_eq_true _ _).1 (W.written b hb).2
  obtain ⟨b₀, first, last, hb₀, h⟩ := exists_boundBuffer (Graph.accessesAt_iff.2 (.inr hw)) b.size
  have htimes := W.lifetimes b hb
  rw [hb₀, Option.map_some, Option.some.injEq, Prod.mk.injEq] at htimes
  obtain ⟨hstart, hend⟩ := htimes
  exact ⟨first, last, h.head, h.getLast, hstart ▸ h.start_le, hend ▸ h.lt_end,
    fun hs => hstart ▸ h.startLe hs, fun he => hend ▸ h.leEnd he⟩

/-- A plan may let buffers meet that are live together where one is the in-place child of the
other, and nowhere else. -/
theorem keeps_of_apart (hlisted : ∀ n a, plan n = some a → ∃ b ∈ W.buffers, b.name = n)
    (hcheck : checkInPlaceRelationships W.buffers = .ok ())
    (hapart : ∀ x ∈ W.buffers, ∀ y ∈ W.buffers, x ≠ y → ∀ a b, plan x.name = some a →
      plan y.name = some b → x.overlapsInTime y = true →
      Disjoint (slot x a) (slot y b) ∨ x.name ∈ y.inPlaceParents ∨ y.name ∈ x.inPlaceParents) :
    W.Keeps plan := by
  intro α step hstep trip htrip m σ hinit
  have htick : ∀ p ∈ W.buffers, ∀ c ∈ W.buffers, p.name ∈ c.inPlaceParents →
      p.endTime = c.startTime + 1 := fun p hp c hc hpc =>
    (InPlacePairOk.of_check W.named hcheck ⟨hp, hc, hpc⟩).handoff
  refine Undisturbed.refines (fun pre s post hsplit w hw n hn hne => ?_) byteOf_injective
    fun n hn => hinit n (Option.eq_none_iff_forall_ne_some.2 fun a ha => ?_)
  · obtain ⟨pre, l, htrace, rfl, hl⟩ := map_eq_append_iff.1 hsplit
    obtain ⟨x, post, rfl, rfl, rfl⟩ := map_eq_cons_iff.1 hl
    refine disjoint_byteOf hne fun a b ha hb => ?_
    obtain ⟨mid, c, rest, rfl, hread, hquiet⟩ := hstep.exists_read hn (by simp [hb])
    obtain ⟨bw, hbw, rfl⟩ := hlisted w a ha
    obtain ⟨bn, hbn, rfl⟩ := hlisted n b hb
    obtain ⟨first, last, hlife⟩ := exists_lifetimeOf hbn
    obtain ⟨first', last', hlife'⟩ := exists_lifetimeOf hbw
    have hwritten := (W.written bn hbn).2
    obtain ⟨pre', a₀, mid', hreuse, hx⟩ :=
      exists_reuse W.nested W.plain htrip hwritten htrace hread hquiet
    rw [hstep.writes] at hw
    have hstart := hreuse.start_le htrip W.nested W.plain hlife hx
    have hend := hreuse.lt_end htrip W.nested W.plain hlife hx
    have hlive := hlife'.mem (Graph.accessesAt_iff.2 (.inr hw))
    have hov : bw.overlapsInTime bn = true :=
      LifetimeBoundBuffer.overlapsInTime_iff.2 ⟨by omega, by omega⟩
    have hne' : bw ≠ bn := fun h => hne (congrArg LifetimeBoundBuffer.name h.symm)
    rcases hapart bw hbw bn hbn hne' a b ha hb hov with hdis | hpair | hpair
    · rwa [slot, slot, W.sized bn hbn, W.sized bw hbw] at hdis
    · -- the parent would be written on the tick it is handed over
      have := htick bw hbw bn hbn hpair
      have hnot := (Bool.and_eq_true_iff.1 (W.handsOver bw hbw bn hbn hpair)).1
      rw [show bn.startTime.toNat = x.index by omega, hw] at hnot
      cases hnot
    · have := lt_startTime_of_handsOver W.nested W.plain htrip (W.handsOver bn hbn bw hbw hpair)
        hlife (htick bn hbn bw hbw hpair) hwritten hreuse hx
      omega
  · obtain ⟨mid, c, rest, htrace, hread, hquiet⟩ := hstep.exists_read hn (by simp [ha])
    obtain ⟨b, hb, rfl⟩ := hlisted n a ha
    obtain ⟨z, hz, hw⟩ :=
      exists_write_before W.nested W.plain htrip (W.written b hb).2 htrace hread
    exact hquiet z hz hw

variable {limit alignment : ℕ}

/-- Every run computes the same on the plans of first fit and best fit. -/
theorem firstFit_keeps (hal : 0 < alignment) {policy : FirstFit.Policy}
    (h : FirstFit.planLayout limit alignment policy W.buffers = .ok plan) : W.Keeps plan := by
  by_cases hnil : W.buffers = []
  · obtain rfl := Except.ok.inj ((if_pos hnil).symm.trans h)
    exact keeps_of_apart (by simp) (by rw [hnil]; rfl) (by simp)
  have hcheck : checkInPlaceRelationships W.buffers = .ok () := by
    rw [FirstFit.planLayout, if_neg hnil] at h
    obtain ⟨⟨⟩, hcheck, -⟩ := bind_eq_ok_iff.1 h
    exact hcheck
  obtain ⟨sorted, plan', hplan, -, -, -, hsub, hsafe, hplaced⟩ : ∃ sorted plan',
      FirstFit.planLayout limit alignment policy W.buffers = .ok plan' ∧ _ :=
    FirstFit.exists_sorted hal policy hnil ⟨W.named, fun p hp c hc hpc =>
      InPlacePairOk.of_check W.named hcheck ⟨hp, hc, hpc⟩,
        fun b hb hread => by simp [(W.written b hb).1] at hread⟩ hcheck
  obtain rfl := Except.ok.inj (h.symm.trans hplan)
  refine keeps_of_apart (fun n a ha => ?_) hcheck fun x hx y hy hxy a b ha hb hov => ?_
  · obtain ⟨b, hb, hn, -⟩ := hsafe.bounded n a ha
    exact ⟨b, (hsub b hb).1, hn⟩
  · exact (hsafe.apart x (hplaced x hx a ha).1 y (hplaced y hy b hb).1 hxy a b ha hb hov).imp
      disjoint_slot (Or.imp FirstFit.InPlace.declared FirstFit.InPlace.declared)

/-- In every iteration `u` is written over `t`, while `w` stays. -/
def inLoop : Workload where
  graph := invariantInLoop
  buffers := ["w", "t", "u"].filterMap fun n => (boundBuffer invariantInLoop n 128).map fun b =>
    { b with inPlaceParents := if n = "u" then ["t"] else [] }
  size _ := 128
  nested := by decide +kernel
  plain := by decide +kernel
  named := by decide +kernel
  sized := by decide +kernel
  lifetimes := by decide +kernel
  written := by decide +kernel
  handsOver := by decide +kernel

theorem firstFit_keeps_inLoop : ∃ plan,
    FirstFit.planLayout 256 128 .firstFit inLoop.buffers = .ok plan ∧ inLoop.Keeps plan := by
  obtain ⟨plan, hplan⟩ : ∃ plan, FirstFit.planLayout 256 128 .firstFit inLoop.buffers = .ok plan :=
    exists_eq_ok (by decide +kernel)
  exact ⟨plan, hplan, firstFit_keeps (by decide) hplan⟩

end Workload

/-- The ticks agree, and `w` is read again in the next iteration. -/
example :
    let g : Graph := ⟨["x"], [⟨"w", false, [], ["x"], ["w"]⟩, ⟨"c", false, [0], ["w"], ["c"]⟩]⟩
    ((boundBuffer g "w" 128).bind fun w => (boundBuffer g "c" 128).map fun c =>
      (decide (w.endTime = c.startTime + 1), handsOver g w c)) = some (true, false) := by
  decide +kernel

end TorchSpyre
