import Mathlib
import TorchSpyre.Contiguous
import TorchSpyre.Scheduling.Loops

/-!
# Loops that survive scheduling

Regrouping puts the nodes of every outermost loop next to each other, in the order in which they
came, and keeps dependencies (`regroupByOuterLoopKey_ok`). The order within an outermost loop is
not touched, so the loops inside it come out whole exactly where their nodes were contiguous
among the nodes of the outermost loop already (`buildLoopSchedulerNodes_iff`).
-/

open List

namespace TorchSpyre

open Checked Lists

namespace Scheduling

variable {κ : Type}

/-! ## Orders -/

/-- The node is in the loop with path `p`. -/
def InLoop (p : List ℕ) (n : Node κ) : Bool :=
  decide (p <+: n.loopGroupId)

@[simp] theorem inLoop_iff {p : List ℕ} {n : Node κ} : InLoop p n = true ↔ p <+: n.loopGroupId := by
  simp [InLoop]

theorem inLoop_take {p : List ℕ} {n : Node κ} {d : ℕ} (h : InLoop p n = true) :
    InLoop (p.take d) n = true :=
  inLoop_iff.2 ((List.take_prefix d p).trans (inLoop_iff.1 h))

theorem filter_inLoop_take {p : List ℕ} {l : List (Node κ)} (d : ℕ) :
    (l.filter (InLoop (p.take d))).filter (InLoop p) = l.filter (InLoop p) := by
  rw [filter_filter]
  refine filter_congr fun n _ => ?_
  by_cases hn : InLoop p n = true
  · simp only [hn, inLoop_take hn, Bool.and_true]
  · simp [hn]

/-- The nodes `n` depends on. -/
def DependsOn (nodes : List (Node κ)) (n m : Node κ) : Prop :=
  ∃ name ∈ n.unmetDependencies, nameToNode nodes name = some m ∧ m ≠ n

/-- Every node comes after the nodes it depends on. -/
def Topological (nodes l : List (Node κ)) : Prop :=
  ∀ pre n post, l = pre ++ n :: post → ∀ m, DependsOn nodes n m → m ∈ pre

/-- The list is a topological order of the nodes. -/
structure IsOrder (nodes l : List (Node κ)) : Prop where
  perm : l.Perm nodes
  topological : Topological nodes l

/-- There is a topological order in which the nodes of every loop of every depth are
contiguous. -/
def Admits (nodes : List (Node κ)) : Prop :=
  ∃ l, IsOrder nodes l ∧ ∀ p ≠ [], Contiguous (InLoop p) l

/-! ## Regrouping -/

section Regroup

variable [DecidableEq κ]

variable {nodes : List (Node κ)}

theorem inLoop_singleton (k : ℕ) :
    (InLoop [k] : Node κ → Bool) = fun n => decide (unitOfNode n = .group k) := by
  funext n
  unfold InLoop Node.loopGroupId unitOfNode
  cases n.levels with
  | nil => simp
  | cons l ls => simp [eq_comm]

omit [DecidableEq κ] in
theorem nameToNode_mem {name : String} {m : Node κ} (h : nameToNode nodes name = some m) :
    m ∈ nodes :=
  mem_reverse.1 (mem_of_find?_eq_some h)

variable {l : List (Node κ)} {u v : UnitKey κ}

theorem mem_unitMembers {n : Node κ} :
    n ∈ unitMembers nodes u ↔ n ∈ nodes ∧ unitOfNode n = u := by
  simp [unitMembers]

/-- A unit depends on the other units its members depend on. -/
theorem mem_unitDeps :
    v ∈ unitDeps nodes u ↔ u ≠ v ∧ ∃ n ∈ nodes, unitOfNode n = u ∧
      ∃ m, DependsOn nodes n m ∧ unitOfNode m = v := by
  simp only [unitDeps, mem_eraseDups, mem_map, mem_filter, mem_filterMap,
    mem_flatMap, mem_unitMembers, decide_eq_true_eq]
  constructor
  · rintro ⟨m, ⟨⟨name, ⟨n, ⟨hn, rfl⟩, hname⟩, hm⟩, hout⟩, rfl⟩
    have hne : unitOfNode n ≠ unitOfNode m := fun h => hout ⟨nameToNode_mem hm, h.symm⟩
    exact ⟨hne, n, hn, rfl, m, ⟨name, hname, hm, fun h => hne (by rw [h])⟩, rfl⟩
  · rintro ⟨hne, n, hn, rfl, m, ⟨name, hname, hm, -⟩, rfl⟩
    exact ⟨m, ⟨⟨name, ⟨n, ⟨hn, rfl⟩, hname⟩, hm⟩, fun h => hne h.2.symm⟩, rfl⟩

omit [DecidableEq κ] in
theorem eq_of_unitOfNode {n a : Node κ} (h : unitOfNode n = .single a) : n = a := by
  unfold unitOfNode at h
  split at h
  · exact UnitKey.single.inj h
  · cases h

/-- Units are contiguous in an order in which the outermost loops are. -/
theorem contiguous_unit (hnd : l.Nodup) (h : ∀ p ≠ [], Contiguous (InLoop p) l) (u : UnitKey κ) :
    Contiguous (fun n => decide (unitOfNode n = u)) l := by
  cases u with
  | group k =>
    rw [← inLoop_singleton]
    exact h [k] (by simp)
  | single a =>
    refine contiguous_iff.2 fun x y z hsub hx hz => ?_
    obtain rfl := eq_of_unitOfNode (of_decide_eq_true hx)
    obtain rfl := eq_of_unitOfNode (of_decide_eq_true hz)
    have := hsub.nodup hnd
    simp at this

/-- In such an order, a unit begins after the units it depends on. -/
theorem findIdx_lt_of_mem_unitDeps (hl : IsOrder nodes l)
    (hcont : ∀ u, Contiguous (fun n => decide (unitOfNode n = u)) l) (h : v ∈ unitDeps nodes u) :
    (l.findIdx fun n => unitOfNode n = v) < l.findIdx fun n => unitOfNode n = u := by
  obtain ⟨hne, n, hn, rfl, m, hdep, rfl⟩ := mem_unitDeps.1 h
  obtain ⟨pre, post, hsplit⟩ := append_of_mem (hl.perm.mem_iff.2 hn)
  obtain ⟨a, b, hpre⟩ := append_of_mem (hl.topological pre n post hsplit m hdep)
  have hl' : l = (a ++ [m]) ++ (b ++ n :: post) := by
    rw [hsplit, hpre]
    simp
  -- a member of the unit of `n` before `m` would have `m` between two members
  have hnone : ∀ x ∈ a, unitOfNode x ≠ unitOfNode n := by
    intro x hx hxu
    have hsub : [x, m, n].Sublist l := by
      rw [hsplit, hpre, append_assoc]
      refine (singleton_sublist.2 hx).append (List.Sublist.cons_cons m ?_)
      exact (singleton_sublist.2 (by simp)).trans (sublist_append_right b _)
    have := contiguous_iff.1 (hcont (unitOfNode n)) x m n hsub (by simp [hxu]) (by simp)
    exact hne (of_decide_eq_true this).symm
  have hv : (l.findIdx fun x => unitOfNode x = unitOfNode m) < (a ++ [m]).length := by
    have hlt : ((a ++ [m]).findIdx fun x => unitOfNode x = unitOfNode m) < (a ++ [m]).length :=
      findIdx_lt_length_of_exists ⟨m, by simp, by simp⟩
    rw [hl', findIdx_append, if_pos hlt]
    exact hlt
  have hu : (a ++ [m]).length ≤ l.findIdx fun x => unitOfNode x = unitOfNode n := by
    rw [hl', findIdx_append, if_neg]
    · exact Nat.le_add_left _ _
    · rw [findIdx_lt_length]
      rintro ⟨x, hx, hxu⟩
      rcases mem_append.1 hx with hx | hx
      · exact hnone x hx (of_decide_eq_true hxu)
      · rw [mem_singleton.1 hx] at hxu
        exact hne (of_decide_eq_true hxu).symm
  exact hv.trans_le hu

variable (hnd : nodes.Nodup) (horder : Topological nodes nodes) (hadm : Admits nodes)
include hnd horder hadm

/-- Regrouping gives a topological order in which the nodes of an outermost loop are contiguous
and in the order in which they came. -/
theorem regroupByOuterLoopKey_ok :
    ∃ l, regroupByOuterLoopKey nodes = .ok l ∧ IsOrder nodes l ∧
      ∀ k, l.filter (InLoop [k]) = nodes.filter (InLoop [k]) ∧ Contiguous (InLoop [k]) l := by
  obtain ⟨o, ho, hcont⟩ := hadm
  have hunit := contiguous_unit (ho.perm.nodup_iff.2 hnd) hcont
  have hrank : ∀ u, True → ∀ v ∈ unitDeps nodes u, True ∧
      (o.findIdx fun n => unitOfNode n = v) < o.findIdx fun n => unitOfNode n = u :=
    fun u _ v hv => ⟨trivial, findIdx_lt_of_mem_unitDeps ho hunit hv⟩
  have hfuel : ∀ u ∈ (nodes.map unitOfNode).eraseDups, True ∧
      (o.findIdx fun n => unitOfNode n = u) < nodes.length + 1 := fun u _ => by
    rw [← ho.perm.length_eq]
    exact ⟨trivial, Nat.lt_succ_of_le findIdx_le_length⟩
  obtain ⟨units, hrun, hunits, hall, -, hinOrder⟩ := DepthFirst.run_ok hrank hfuel
  have hmem : ∀ n ∈ nodes, unitOfNode n ∈ units := fun n hn =>
    hall _ (mem_eraseDups.2 (mem_map_of_mem hn))
  have hperm : (units.flatMap (unitMembers nodes)).Perm nodes :=
    perm_flatMap_filter unitOfNode hunits hmem
  refine ⟨units.flatMap (unitMembers nodes), bind_eq_ok_iff.2 ⟨units, hrun, rfl⟩,
    ⟨hperm, ?_⟩, fun k => ?_⟩
  · intro pre n post hsplit m hdep
    have hn : n ∈ nodes := hperm.mem_iff.1 (by rw [hsplit]; simp)
    -- where `n` stands in its unit, and its unit among the units
    obtain ⟨before, after, hnodes⟩ := append_of_mem hn
    obtain ⟨us, vs, hus⟩ := append_of_mem (hmem n hn)
    have hmembers : unitMembers nodes (unitOfNode n) =
        before.filter (fun x => unitOfNode x = unitOfNode n) ++
          n :: after.filter (fun x => unitOfNode x = unitOfNode n) := by
      conv_lhs => rw [unitMembers, hnodes]
      simp
    have hpre : pre = us.flatMap (unitMembers nodes) ++
        before.filter (fun x => unitOfNode x = unitOfNode n) := by
      have hndl := hperm.nodup_iff.2 hnd
      rw [hsplit] at hndl
      refine eq_of_append_cons hndl (?_ : _ = _ ++ n :: (after.filter
        (fun x => unitOfNode x = unitOfNode n) ++ vs.flatMap (unitMembers nodes)))
      rw [← hsplit, hus, flatMap_append, flatMap_cons, hmembers]
      simp
    obtain ⟨name, hname, hm, hne⟩ := hdep
    rw [hpre, mem_append]
    by_cases hu : unitOfNode m = unitOfNode n
    · refine .inr (mem_filter.2 ⟨?_, by simpa using hu⟩)
      exact horder before n after hnodes m ⟨name, hname, hm, hne⟩
    · refine .inl (mem_flatMap.2 ⟨unitOfNode m, ?_, mem_unitMembers.2
        ⟨nameToNode_mem hm, rfl⟩⟩)
      exact hinOrder us _ vs hus _ (mem_unitDeps.2
        ⟨fun h => hu h.symm, n, hn, rfl, m, ⟨name, hname, hm, hne⟩, rfl⟩)
  · rw [inLoop_singleton, Contiguous]
    have hlen := (hperm.filter fun n => decide (unitOfNode n = .group k)).length_eq
    by_cases hk : UnitKey.group k ∈ units
    · obtain ⟨us, vs, hus⟩ := append_of_mem hk
      have hl : units.flatMap (unitMembers nodes) = us.flatMap (unitMembers nodes) ++
          unitMembers nodes (.group k) ++ vs.flatMap (unitMembers nodes) := by
        rw [hus]
        simp
      obtain ⟨-, -, hfilter⟩ := not_of_length_filter_le hl hlen.le
        fun n hn => by simpa using (mem_unitMembers.1 hn).2
      rw [hfilter]
      exact ⟨rfl, _, _, hl.symm⟩
    · have hnil : (nodes.filter fun n => decide (unitOfNode n = .group k)) = [] :=
        filter_eq_nil_iff.2 fun n hn hu => hk (of_decide_eq_true hu ▸ hmem n hn)
      rw [hnil, length_nil, length_eq_zero_iff] at hlen
      rw [hlen, hnil]
      exact ⟨rfl, nil_infix⟩

end Regroup

/-! ## Trees -/

section Trees

/-- The trees inside a loop node. -/
def Tree.snodes : Tree κ → List (Tree κ)
  | .node _ => []
  | .loop _ snodes => snodes

/-- The tree is a loop. -/
def Tree.isLoop : Tree κ → Bool
  | .node _ => false
  | .loop _ _ => true

/-- The loop nodes at a nesting depth. -/
def loopsAt : ℕ → List (Tree κ) → List (Tree κ)
  | 0, ts => ts.filter Tree.isLoop
  | depth + 1, ts => ts.flatMap fun t => loopsAt depth t.snodes

/-- The tree has a node in the loop with path `p`. -/
def Tree.Has (p : List ℕ) (t : Tree κ) : Bool :=
  t.leaves.any (InLoop p)

@[simp] theorem leaves_append (ts us : List (Tree κ)) :
    leaves (ts ++ us) = leaves ts ++ leaves us := by
  induction ts with
  | nil => rfl
  | cons t ts ih => simp only [cons_append, leaves, ih, append_assoc]

@[simp] theorem leaves_map_node (l : List (Node κ)) : leaves (l.map Tree.node) = l := by
  induction l with
  | nil => rfl
  | cons n l ih => simp only [map_cons, leaves, Tree.leaves, ih, singleton_append]

theorem leaves_flatten (parts : List (List (Tree κ))) :
    leaves parts.flatten = (parts.map leaves).flatten := by
  induction parts with
  | nil => rfl
  | cons ts parts ih => simp only [flatten_cons, leaves_append, ih, map_cons]

theorem loopsAt_append (depth : ℕ) (ts us : List (Tree κ)) :
    loopsAt depth (ts ++ us) = loopsAt depth ts ++ loopsAt depth us := by
  cases depth with
  | zero => exact filter_append ..
  | succ depth => exact flatMap_append ..

variable {ts : List (Tree κ)} {t : Tree κ}

theorem isInfix_leaves (h : t ∈ ts) : t.leaves <:+: leaves ts := by
  obtain ⟨pre, post, rfl⟩ := append_of_mem h
  rw [leaves_append, leaves]
  exact ⟨leaves pre, leaves post, by simp⟩

/-- The nodes of a loop node are next to each other. -/
theorem isInfix_of_mem_loopsAt : ∀ {depth : ℕ} {ts : List (Tree κ)},
    t ∈ loopsAt depth ts → t.leaves <:+: leaves ts
  | 0, ts, h => isInfix_leaves (mem_filter.1 h).1
  | depth + 1, ts, h => by
    obtain ⟨s, hs, ht⟩ := mem_flatMap.1 h
    cases s with
    | node n => cases depth <;> cases ht
    | loop c sn => exact (isInfix_of_mem_loopsAt ht).trans (isInfix_leaves hs)

/-- No loop node has a node that the trees do not have. -/
theorem filter_has_eq_nil {p : List ℕ} (h : ∀ n ∈ leaves ts, ¬ InLoop p n) (depth : ℕ) :
    (loopsAt depth ts).filter (Tree.Has p) = [] := by
  refine filter_eq_nil_iff.2 fun t ht hp => ?_
  obtain ⟨n, hn, hin⟩ := any_eq_true.1 hp
  exact h n ((isInfix_of_mem_loopsAt ht).subset hn) hin

end Trees

/-! ## Building -/

section Build

variable [DecidableEq κ]

variable {depth : ℕ} {inner : List (Node κ) → Except String (List (Tree κ))}

variable {l run : List (Node κ)} {ts : List (Tree κ)} {p : List ℕ} {fuel : ℕ}

/-- A run is left as it is, or becomes one loop node whose nodes agree on the trip count. -/
theorem wrapRun_eq_ok {part : List (Tree κ)} (h : wrapRun depth inner run = .ok part) :
    (part = run.map Tree.node ∧ ∀ n ∈ run.head?, n.levels[depth]? = none) ∨
      ∃ c sn, part = [.loop c sn] ∧ inner run = .ok sn ∧
        ∀ n ∈ run, (n.levels[depth]?).map Prod.snd = some c := by
  cases run with
  | nil => exact .inl ⟨(Except.ok.inj h).symm, by simp⟩
  | cons n rest =>
    rw [wrapRun] at h
    cases hlevel : n.levels[depth]? with
    | none =>
      rw [hlevel] at h
      exact .inl ⟨(Except.ok.inj h).symm, by simpa using hlevel⟩
    | some level =>
      obtain ⟨key, c⟩ := level
      simp only [hlevel, bind_eq_ok_iff] at h
      obtain ⟨u, hcheck, sn, hinner, hpart⟩ := h
      refine .inr ⟨c, sn, (Except.ok.inj hpart).symm, hinner, fun m hm => ?_⟩
      rcases mem_cons.1 hm with rfl | hm
      · rw [hlevel]
        rfl
      · exact guardE_eq_ok_iff.1 (checkAll_eq_ok_iff.1 hcheck m hm)

theorem buildLoopGroup_eq_ok {nodes : List (Node κ)}
    (h : buildLoopGroup (fuel + 1) depth nodes = .ok ts) :
    ∃ parts, mapE (wrapRun depth (buildLoopGroup fuel (depth + 1)))
      (nodes.splitBy (sameRun depth)) = .ok parts ∧ ts = parts.flatten := by
  obtain ⟨parts, hparts, hts⟩ := bind_eq_ok_iff.1 h
  exact ⟨parts, hparts, (Except.ok.inj hts).symm⟩

/-- Runs keep their nodes, if what is inside does. -/
theorem leaves_wrapRuns (hinner : ∀ run sn, inner run = .ok sn → leaves sn = run)
    {runs : List (List (Node κ))} {parts : List (List (Tree κ))}
    (h : mapE (wrapRun depth inner) runs = .ok parts) : leaves parts.flatten = runs.flatten := by
  have hleaves : parts.map leaves = runs.map id := by
    refine map_eq_of_mapE h fun run _ part hpart => ?_
    rcases wrapRun_eq_ok hpart with ⟨rfl, -⟩ | ⟨c, sn, rfl, hrun, -⟩
    · exact leaves_map_node run
    · simpa [leaves, Tree.leaves] using hinner run sn hrun
  rw [leaves_flatten, hleaves, map_id]

/-- The nodes are kept, in order. -/
theorem leaves_buildLoopGroup : ∀ {fuel depth : ℕ} {nodes : List (Node κ)} {ts : List (Tree κ)},
    buildLoopGroup fuel depth nodes = .ok ts → leaves ts = nodes
  | fuel + 1, depth, nodes, ts, h => by
    obtain ⟨parts, hparts, rfl⟩ := buildLoopGroup_eq_ok h
    rw [leaves_wrapRuns (fun run sn hrun => leaves_buildLoopGroup hrun) hparts, flatten_splitBy]

/-- The nodes of a loop node agree on its trip count. -/
theorem count_of_mem_loopsAt : ∀ {fuel depth e : ℕ} {nodes : List (Node κ)} {ts : List (Tree κ)},
    buildLoopGroup fuel depth nodes = .ok ts → ∀ t ∈ loopsAt e ts,
      ∃ c, ∀ n ∈ t.leaves, (n.levels[depth + e]?).map Prod.snd = some c
  | fuel + 1, depth, e, nodes, ts, h, t, ht => by
    obtain ⟨parts, hparts, rfl⟩ := buildLoopGroup_eq_ok h
    -- the top-level tree `t` is in
    have htop : ∀ s ∈ parts.flatten, s.isLoop = true → ∃ c sn run, s = .loop c sn ∧
        buildLoopGroup fuel (depth + 1) run = .ok sn ∧
        ∀ n ∈ run, (n.levels[depth]?).map Prod.snd = some c := by
      intro s hs hloop
      obtain ⟨part, hpart, hs⟩ := mem_flatten.1 hs
      obtain ⟨run, -, hrun⟩ := mem_of_mapE hparts hpart
      rcases wrapRun_eq_ok hrun with ⟨rfl, -⟩ | ⟨c, sn, rfl, hinner, hc⟩
      · obtain ⟨n, -, rfl⟩ := mem_map.1 hs
        cases hloop
      · exact ⟨c, sn, run, mem_singleton.1 hs, hinner, hc⟩
    cases e with
    | zero =>
      obtain ⟨hmem, hloop⟩ := mem_filter.1 ht
      obtain ⟨c, sn, run, rfl, hinner, hc⟩ := htop t hmem hloop
      exact ⟨c, fun n hn => hc n (by rwa [Tree.leaves, leaves_buildLoopGroup hinner] at hn)⟩
    | succ e =>
      obtain ⟨s, hs, ht⟩ := mem_flatMap.1 ht
      cases s with
      | node n => cases e <;> cases ht
      | loop c sn =>
        obtain ⟨c', sn', run, heq, hinner, -⟩ := htop _ hs rfl
        obtain ⟨rfl, rfl⟩ := Tree.loop.inj heq
        rw [← Nat.add_assoc, Nat.add_right_comm]
        exact count_of_mem_loopsAt hinner t ht

omit [DecidableEq κ] in
/-- Among nodes that share the first `depth` keys, those in a loop one deeper have its key. -/
theorem inLoop_iff_key {n₀ n : Node κ} (hp : p.length = depth + 1)
    (hshared : n.loopGroupId.take depth = n₀.loopGroupId.take depth) (h₀ : InLoop p n₀) :
    InLoop p n ↔ n.loopGroupId[depth]? = p[depth]? := by
  rw [inLoop_iff] at h₀ ⊢
  have htake : p.take depth = n.loopGroupId.take depth := by
    rw [hshared, prefix_iff_eq_take.1 h₀, take_take, hp]
    congr 1
    omega
  have hself : p = n.loopGroupId.take depth ++ (p[depth]?).toList := by
    conv_lhs => rw [← take_length (l := p), hp, take_add_one, htake]
  constructor
  · intro h
    rw [prefix_iff_eq_take.1 h, hp]
    simp
  · intro h
    rw [prefix_iff_eq_take, hp, take_add_one, h]
    exact hself

/-- The nodes share their first `depth` keys. -/
def Shares (depth : ℕ) (l : List (Node κ)) : Prop :=
  ∀ n ∈ l, ∀ m ∈ l, n.loopGroupId.take depth = m.loopGroupId.take depth

omit [DecidableEq κ] in
theorem subset_of_mem_splitBy (h : run ∈ l.splitBy (sameRun depth)) : run ⊆ l := by
  intro n hn
  rw [← flatten_splitBy (sameRun depth) l]
  exact mem_flatten.2 ⟨run, h, hn⟩

/-- The loop node of a path, and what is around it. -/
theorem exists_loop (h : buildLoopGroup (fuel + 1) depth l = .ok ts)
    (hshared : Shares depth l) (hp : p.length = depth + 1)
    (hcont : Contiguous (InLoop p) l) (hmem : ∃ n ∈ l, InLoop p n) :
    ∃ before c sn after, ts = before ++ .loop c sn :: after ∧
      buildLoopGroup fuel (depth + 1) (l.filter (InLoop p)) = .ok sn ∧
      (∀ n ∈ leaves before, ¬ InLoop p n) ∧ ∀ n ∈ leaves after, ¬ InLoop p n := by
  obtain ⟨parts, hparts, rfl⟩ := buildLoopGroup_eq_ok h
  obtain ⟨n₀, hn₀, h₀⟩ := hmem
  obtain ⟨k, hk⟩ : ∃ k, p[depth]? = some k := ⟨_, getElem?_eq_getElem (by omega)⟩
  have hkey : ∀ n ∈ l, (InLoop p n = true ↔ n.loopGroupId[depth]? = some k) := fun n hn => by
    rw [← hk]
    exact inLoop_iff_key hp (hshared n hn n₀ hn₀) h₀
  have hfilter : l.filter (InLoop p) = l.filter fun n => n.loopGroupId[depth]? = some k :=
    filter_congr fun n hn => by
      rw [Bool.eq_iff_iff, hkey n hn, decide_eq_true_eq]
  have hcont' : Contiguous (fun n : Node κ => n.loopGroupId[depth]? = some k) l := by
    rw [Contiguous, ← hfilter]
    exact hcont
  obtain ⟨rs₁, rs₂, hruns, hrs₁, hrs₂⟩ := splitBy_of_contiguous (r := sameRun depth)
    (fun n : Node κ => n.loopGroupId[depth]?) (fun a b => by simp [sameRun]) hcont'
    ⟨n₀, hn₀, (hkey n₀ hn₀).1 h₀⟩
  rw [hruns] at hparts
  obtain ⟨ps, qs, hps, hqs, rfl⟩ := mapE_append hparts
  obtain ⟨part, qs, hpart, hqs', rfl⟩ := mapE_cons hqs
  have hmid : n₀ ∈ l.filter fun n => n.loopGroupId[depth]? = some k :=
    mem_filter.2 ⟨hn₀, by simpa using (hkey n₀ hn₀).1 h₀⟩
  -- the other runs do not have the key
  have hother : ∀ {runs : List (List (Node κ))} {parts : List (List (Tree κ))},
      (∀ run ∈ runs, run ∈ l.splitBy (sameRun depth)) →
      (∀ run ∈ runs, ∀ n ∈ run, n.loopGroupId[depth]? ≠ some k) →
      mapE (wrapRun depth (buildLoopGroup fuel (depth + 1))) runs = .ok parts →
      ∀ n ∈ leaves parts.flatten, ¬ InLoop p n := by
    intro runs parts hsub hruns' hmap n hn hin
    rw [leaves_wrapRuns (fun _ _ => leaves_buildLoopGroup) hmap] at hn
    obtain ⟨run, hrun, hn⟩ := mem_flatten.1 hn
    exact hruns' run hrun n hn ((hkey n (subset_of_mem_splitBy (hsub run hrun) hn)).1 hin)
  rcases wrapRun_eq_ok hpart with ⟨-, hhead⟩ | ⟨c, sn, rfl, hinner, -⟩
  · obtain ⟨m, hm⟩ := Option.ne_none_iff_exists'.1 (head?_eq_none_iff.not.2
      (ne_nil_of_mem hmid))
    have hmk := of_decide_eq_true (mem_filter.1 (mem_of_mem_head? hm)).2
    rw [Node.loopGroupId, getElem?_map, hhead m hm] at hmk
    cases hmk
  · refine ⟨ps.flatten, c, sn, qs.flatten, by simp, hfilter ▸ hinner, ?_, ?_⟩
    · exact hother (fun run hrun => by rw [hruns]; simp [hrun]) hrs₁ hps
    · exact hother (fun run hrun => by rw [hruns]; simp [hrun]) hrs₂ hqs'

/-- Where nodes share keys and every loop is contiguous, every path has one loop node, of its
nodes. -/
theorem loopsAt_buildLoopGroup : ∀ {e fuel depth : ℕ} {l : List (Node κ)} {ts : List (Tree κ)},
    buildLoopGroup fuel depth l = .ok ts → Shares depth l →
    (∀ p : List ℕ, depth < p.length → Contiguous (InLoop p) l) →
    ∀ {p : List ℕ}, p.length = depth + e + 1 → (∃ n ∈ l, InLoop p n) →
      ∃ t, (loopsAt e ts).filter (Tree.Has p) = [t] ∧ t.leaves = l.filter (InLoop p)
  | _, 0, _, _, _, h, _, _, _, _, _ => by cases h
  | 0, fuel + 1, depth, l, ts, h, hshared, hcont, p, hp, hmem => by
    obtain ⟨before, c, sn, after, rfl, hinner, hbefore, hafter⟩ :=
      exists_loop h hshared hp (hcont p (by omega)) hmem
    have hleaves : (Tree.loop c sn).leaves = l.filter (InLoop p) := by
      rw [Tree.leaves, leaves_buildLoopGroup hinner]
    refine ⟨.loop c sn, ?_, hleaves⟩
    have hhas : Tree.Has p (Tree.loop c sn) = true := by
      obtain ⟨n, hn, hin⟩ := hmem
      rw [Tree.Has, hleaves]
      exact any_eq_true.2 ⟨n, mem_filter.2 ⟨hn, hin⟩, hin⟩
    rw [← singleton_append, loopsAt_append, loopsAt_append, filter_append,
      filter_append, filter_has_eq_nil hbefore, filter_has_eq_nil hafter]
    simp [loopsAt, Tree.isLoop, hhas]
  | e + 1, fuel + 1, depth, l, ts, h, hshared, hcont, p, hp, hmem => by
    -- the loop node of the first keys of the path, and the rest of the path inside it
    have hlen : (p.take (depth + 1)).length = depth + 1 := by simp; omega
    obtain ⟨n, hn, hin⟩ := hmem
    obtain ⟨before, c, sn, after, rfl, hinner, hbefore, hafter⟩ :=
      exists_loop h hshared hlen (hcont _ (by omega)) ⟨n, hn, inLoop_take hin⟩
    have hshared' : Shares (depth + 1) (l.filter (InLoop (p.take (depth + 1)))) := by
      intro n hn m hm
      have h₁ := prefix_iff_eq_take.1 (inLoop_iff.1 (mem_filter.1 hn).2)
      have h₂ := prefix_iff_eq_take.1 (inLoop_iff.1 (mem_filter.1 hm).2)
      rw [hlen] at h₁ h₂
      exact h₁.symm.trans h₂
    obtain ⟨t, ht, hleaves⟩ := loopsAt_buildLoopGroup hinner hshared'
      (fun q hq => (hcont q (by omega)).of_sublist filter_sublist) (p := p) (e := e)
      (by omega) ⟨n, mem_filter.2 ⟨hn, inLoop_take hin⟩, hin⟩
    refine ⟨t, ?_, ?_⟩
    · rw [← singleton_append, loopsAt_append, loopsAt_append, filter_append,
        filter_append, filter_has_eq_nil fun n hn h => hbefore n hn (inLoop_take h),
        filter_has_eq_nil fun n hn h => hafter n hn (inLoop_take h)]
      simpa [loopsAt, Tree.snodes] using ht
    · rw [hleaves, filter_inLoop_take]

/-- Nodes agree on the trip counts of the loops they share. -/
def Agree (l : List (Node κ)) : Prop :=
  ∀ n ∈ l, ∀ m ∈ l, ∀ d, n.loopGroupId.take (d + 1) = m.loopGroupId.take (d + 1) →
    (n.levels[d]?).map Prod.snd = (m.levels[d]?).map Prod.snd

omit [DecidableEq κ] in
theorem Agree.subset {m : List (Node κ)} (h : Agree l) (hsub : m ⊆ l) : Agree m :=
  fun a ha b hb => h a (hsub ha) b (hsub hb)

omit [DecidableEq κ] in
/-- The nodes of a run share one key more than the nodes around it. -/
theorem shared_of_run (hchain : run.IsChain fun a b => sameRun depth a b = true)
    (hshared : Shares depth run) : Shares (depth + 1) run := by
  have hkeys := ((hchain.imp (S := fun a b => a.loopGroupId[depth]? = b.loopGroupId[depth]?)
    fun a b h => (of_decide_eq_true h).1).pairwise).forall_of_forall (by simp)
  intro n hn m hm
  rw [take_add_one, take_add_one, hshared n hn m hm, hkeys hn hm]

/-- A run of nodes that agree on trip counts is wrapped, if what is inside it is. -/
theorem wrapRun_ok (hshared : Shares (depth + 1) run) (hagree : Agree run)
    (hinner : (∃ n ∈ run, depth < n.levels.length) → ∃ sn, inner run = .ok sn) :
    ∃ part, wrapRun depth inner run = .ok part := by
  cases run with
  | nil => exact ⟨[], rfl⟩
  | cons n rest =>
    cases hlevel : n.levels[depth]? with
    | none => exact ⟨(n :: rest).map Tree.node, by simp only [wrapRun, hlevel]⟩
    | some level =>
      obtain ⟨key, c⟩ := level
      obtain ⟨sn, hsn⟩ := hinner ⟨n, mem_cons_self, (List.getElem?_eq_some_iff.1 hlevel).1⟩
      refine ⟨[.loop c sn], ?_⟩
      simp only [wrapRun, hlevel]
      refine bind_eq_ok_iff.2 ⟨(), checkAll_eq_ok_iff.2 fun m hm => guardE_eq_ok_iff.2 ?_,
        bind_eq_ok_iff.2 ⟨sn, hsn, rfl⟩⟩
      have hm' := mem_cons_of_mem n hm
      rw [hagree m hm' n mem_cons_self depth (hshared m hm' n mem_cons_self), hlevel]
      rfl

/-- Nodes that agree on trip counts are wrapped without an error. -/
theorem buildLoopGroup_ok : ∀ {fuel depth : ℕ} {l : List (Node κ)}, 0 < fuel →
    (∀ n ∈ l, n.levels.length < fuel + depth) → Shares depth l → Agree l →
    ∃ ts, buildLoopGroup fuel depth l = .ok ts
  | fuel + 1, depth, l, _, hshort, hshared, hagree => by
    have hsub : ∀ run ∈ l.splitBy (sameRun depth), run ⊆ l := fun run => subset_of_mem_splitBy
    obtain ⟨parts, hparts⟩ := mapE_ok (l := l.splitBy (sameRun depth))
      (f := wrapRun depth (buildLoopGroup fuel (depth + 1))) fun run hrun => by
        have hrunShared := shared_of_run (isChain_of_mem_splitBy hrun)
          fun n hn m hm => hshared n (hsub run hrun hn) m (hsub run hrun hm)
        refine wrapRun_ok hrunShared (hagree.subset (hsub run hrun)) ?_
        rintro ⟨n, hn, hlen⟩
        have hn' := hshort n (hsub run hrun hn)
        refine buildLoopGroup_ok (by omega) (fun m hm => ?_) hrunShared
          (hagree.subset (hsub run hrun))
        have := hshort m (hsub run hrun hm)
        omega
    exact ⟨parts.flatten, bind_eq_ok_iff.2 ⟨parts, hparts, rfl⟩⟩

end Build

/-! ## The last check -/

section Check

variable [DecidableEq κ]

theorem foldE_checkOuterKey : ∀ {ks seen : List (List ℕ × List String)},
    ((seen ++ ks).map Prod.fst).Nodup → ∃ seen', foldE checkOuterKey seen ks = .ok seen'
  | [], seen, _ => ⟨seen, rfl⟩
  | k :: ks, seen, hnd => by
    have hperm : (seen ++ k :: ks).Perm (k :: (seen ++ ks)) := perm_middle
    have hnd' : ((k :: seen ++ ks).map Prod.fst).Nodup := (hperm.map Prod.fst).nodup_iff.1 hnd
    have hnone : seen.lookup k.1 = none := by
      refine lookup_eq_none_iff.2 fun x hx => ?_
      rw [cons_append, map_cons, nodup_cons] at hnd'
      simp only [bne_iff_ne, ne_eq]
      exact fun h => hnd'.1 (h ▸ mem_map_of_mem (mem_append_left _ hx))
    obtain ⟨seen', hrun⟩ := foldE_checkOuterKey hnd'
    refine ⟨seen', bind_eq_ok_iff.2 ⟨k :: seen, bind_eq_ok_iff.2 ⟨(), ?_, rfl⟩, hrun⟩⟩
    rw [guardE_eq_ok_iff, hnone, Option.getD_none]

variable {t : Tree κ}

omit [DecidableEq κ] in
theorem mem_of_nodePath {gid : List ℕ} (h : t.nodePath = some gid) :
    ∃ n ∈ t.leaves, n.loopGroupId = gid ∧ gid ≠ [] := by
  cases t with
  | node n =>
    rw [Tree.nodePath] at h
    split_ifs at h with hnil
    obtain rfl := Option.some.inj h
    exact ⟨n, mem_singleton_self n, rfl, hnil⟩
  | loop c sn => cases h

omit [DecidableEq κ] in
/-- The key the last check reads off a loop node is that of one of its nodes. -/
theorem has_of_outerKey {k : List ℕ × List String} (h : t.outerKey = some k) :
    t.isLoop = true ∧ t.Has k.1 = true ∧ k.1.length = 1 := by
  cases t with
  | node n => cases h
  | loop c sn =>
    obtain ⟨first, hfirst, h⟩ := Option.bind_eq_some_iff.1 h
    obtain ⟨gid, hgid, h⟩ := Option.bind_eq_some_iff.1 h
    obtain rfl := Option.some.inj h
    have hnode : ∃ n ∈ first.leaves, n.loopGroupId = gid ∧ gid ≠ [] := by
      cases first with
      | node n => exact mem_of_nodePath hgid
      | loop c' sn' =>
        obtain ⟨t, ht, htp⟩ := exists_of_findSome?_eq_some hgid
        obtain ⟨n, hn, hrest⟩ := mem_of_nodePath htp
        exact ⟨n, (isInfix_leaves ht).subset hn, hrest⟩
    obtain ⟨n, hn, rfl, hne⟩ := hnode
    have hn' : n ∈ (Tree.loop c sn).leaves :=
      (isInfix_leaves (mem_of_mem_head? hfirst)).subset hn
    have hin : InLoop (n.loopGroupId.take 1) n = true := inLoop_iff.2 (List.take_prefix _ _)
    refine ⟨rfl, any_eq_true.2 ⟨n, hn', hin⟩, ?_⟩
    have := length_pos_of_ne_nil hne
    rw [length_take]
    omega

omit [DecidableEq κ] in
/-- Keys are different if no two loop nodes have nodes of one path. -/
theorem nodup_outerKeys : ∀ {ts : List (Tree κ)},
    (∀ p : List ℕ, p.length = 1 → ((loopsAt 0 ts).filter (Tree.Has p)).length ≤ 1) →
      ((ts.filterMap Tree.outerKey).map Prod.fst).Nodup
  | [], _ => nodup_nil
  | t :: ts, h => by
    have hcons : ∀ p, ((loopsAt 0 ts).filter (Tree.Has p)).length ≤
        ((loopsAt 0 (t :: ts)).filter (Tree.Has p)).length := by
      intro p
      rw [← singleton_append, loopsAt_append, filter_append, length_append]
      exact Nat.le_add_left _ _
    have ih := nodup_outerKeys fun p hp => (hcons p).trans (h p hp)
    cases hk : t.outerKey with
    | none => rwa [filterMap_cons_none hk]
    | some k =>
      rw [filterMap_cons_some hk, map_cons, nodup_cons]
      refine ⟨fun hin => ?_, ih⟩
      obtain ⟨k', hk', heq⟩ := mem_map.1 hin
      obtain ⟨t', ht', hk'⟩ := mem_filterMap.1 hk'
      obtain ⟨hloop, hhas, hone⟩ := has_of_outerKey hk
      obtain ⟨hloop', hhas', -⟩ := has_of_outerKey hk'
      have hlen := h k.1 hone
      have hmem : t' ∈ (loopsAt 0 ts).filter (Tree.Has k.1) :=
        mem_filter.2 ⟨mem_filter.2 ⟨ht', hloop'⟩, heq ▸ hhas'⟩
      have hpos := length_pos_of_mem hmem
      rw [loopsAt, filter_cons_of_pos hloop, filter_cons_of_pos hhas, length_cons] at hlen
      rw [loopsAt] at hpos
      omega

end Check

/-! ## The pass -/

/-- The nodes of the result are a topological order of the nodes, and every path has exactly one
loop node, which holds the nodes in it. -/
structure Survive (nodes : List (Node κ)) (result : List (Tree κ)) : Prop where
  order : IsOrder nodes (leaves result)
  loops : ∀ p : List ℕ, p ≠ [] → (∃ n ∈ nodes, InLoop p n) →
    ∃ t, (loopsAt (p.length - 1) result).filter (Tree.Has p) = [t] ∧
      t.leaves.Perm (nodes.filter (InLoop p))

/-- The nodes of inner loops are contiguous among the nodes of the outermost loop. -/
def InnerContiguous (nodes : List (Node κ)) : Prop :=
  ∀ p : List ℕ, 2 ≤ p.length →
    nodes.filter (InLoop p) <:+: nodes.filter (InLoop (p.take 1))

section Pass

variable [DecidableEq κ]

variable {nodes : List (Node κ)}

variable {result : List (Tree κ)}

omit [DecidableEq κ] in
/-- Loop nodes that hold the nodes of every path make them contiguous. -/
theorem Survive.contiguous (h : Survive nodes result) {p : List ℕ} (hp : p ≠ []) :
    Contiguous (InLoop p) (leaves result) := by
  by_cases hmem : ∃ n ∈ nodes, InLoop p n
  · obtain ⟨t, ht, hperm⟩ := h.loops p hp hmem
    have htmem : t ∈ loopsAt (p.length - 1) result :=
      (mem_filter.1 (by rw [ht]; exact mem_singleton_self t)).1
    obtain ⟨pre, post, hl⟩ := isInfix_of_mem_loopsAt htmem
    have hlen : ((leaves result).filter (InLoop p)).length ≤ t.leaves.length := by
      rw [hperm.length_eq, (h.order.perm.filter (InLoop p)).length_eq]
    obtain ⟨-, -, hfilter⟩ := not_of_length_filter_le hl.symm hlen
      fun n hn => (mem_filter.1 (hperm.mem_iff.1 hn)).2
    rw [Contiguous, hfilter]
    exact ⟨pre, post, hl⟩
  · have hnil : (leaves result).filter (InLoop p) = [] :=
      filter_eq_nil_iff.2 fun n hn hin => hmem ⟨n, h.order.perm.mem_iff.1 hn, hin⟩
    rw [Contiguous, hnil]
    exact nil_infix

/-- When the pass returns. -/
theorem buildLoopSchedulerNodes_eq_ok {l : List (Node κ)}
    (hregroup : regroupByOuterLoopKey nodes = .ok l) :
    buildLoopSchedulerNodes nodes = .ok result ↔
      buildLoopGroup ((l.map fun n => n.levels.length).foldr max 0 + 1) 0 l = .ok result ∧
        ∃ seen, foldE checkOuterKey [] (result.filterMap Tree.outerKey) = .ok seen := by
  rw [buildLoopSchedulerNodes, hregroup]
  constructor
  · intro h
    obtain ⟨_, hl, h⟩ := bind_eq_ok_iff.1 h
    obtain rfl := Except.ok.inj hl
    obtain ⟨ts, hbuild, h⟩ := bind_eq_ok_iff.1 h
    obtain ⟨seen, hcheck, h⟩ := bind_eq_ok_iff.1 h
    obtain rfl := Except.ok.inj h
    exact ⟨hbuild, seen, hcheck⟩
  · rintro ⟨hbuild, seen, hcheck⟩
    exact bind_eq_ok_iff.2 ⟨l, rfl, bind_eq_ok_iff.2 ⟨result, hbuild,
      bind_eq_ok_iff.2 ⟨seen, hcheck, rfl⟩⟩⟩

section Regrouped

variable {l : List (Node κ)} (hl : IsOrder nodes l)
  (houter : ∀ k, l.filter (InLoop [k]) = nodes.filter (InLoop [k]) ∧ Contiguous (InLoop [k]) l)
include houter

omit [DecidableEq κ] in
/-- A loop keeps its order within its outermost loop. -/
theorem filter_inLoop {p : List ℕ} (hp : p ≠ []) :
    l.filter (InLoop p) = nodes.filter (InLoop p) := by
  obtain ⟨k, p, rfl⟩ := exists_cons_of_ne_nil hp
  have hone : (k :: p).take 1 = [k] := rfl
  rw [← filter_inLoop_take 1, hone, (houter k).1, ← hone, filter_inLoop_take]

omit [DecidableEq κ] in
/-- All loops are contiguous after regrouping exactly where the inner ones were in their outermost
loop. -/
theorem contiguous_iff_inner :
    (∀ p : List ℕ, p ≠ [] → Contiguous (InLoop p) l) ↔ InnerContiguous nodes := by
  constructor
  · intro h p hp
    have hne : p ≠ [] := ne_nil_of_length_pos (by omega)
    obtain ⟨k, q, rfl⟩ := exists_cons_of_ne_nil hne
    have hinfix := (h (k :: q) hne).filter (InLoop [k])
    have hsame : (l.filter (InLoop (k :: q))).filter (InLoop [k]) = l.filter (InLoop (k :: q)) :=
      filter_eq_self.2 fun n hn => inLoop_take (d := 1) (mem_filter.1 hn).2
    rw [hsame, (houter k).1, filter_inLoop houter hne] at hinfix
    exact hinfix
  · intro h p hp
    obtain ⟨k, q, rfl⟩ := exists_cons_of_ne_nil hp
    cases q with
    | nil => exact (houter k).2
    | cons k' q =>
      rw [Contiguous, filter_inLoop houter hp]
      have hinfix := h (k :: k' :: q) (by simp)
      change _ <:+: nodes.filter (InLoop [k]) at hinfix
      rw [← (houter k).1] at hinfix
      exact hinfix.trans (houter k).2

end Regrouped

/-- What the pass keeps of the loops, for every topological order of nodes that can be put so
that all loops are contiguous : they come out whole exactly where the inner ones are contiguous
in their outermost loop and nodes agree on trip counts. -/
theorem buildLoopSchedulerNodes_iff (hnd : nodes.Nodup) (horder : Topological nodes nodes)
    (hadm : Admits nodes) :
    (∃ result, buildLoopSchedulerNodes nodes = .ok result ∧ Survive nodes result) ↔
      InnerContiguous nodes ∧ Agree nodes := by
  obtain ⟨l, hregroup, hl, houter⟩ := regroupByOuterLoopKey_ok hnd horder hadm
  rw [← contiguous_iff_inner houter]
  constructor
  · rintro ⟨result, hok, hs⟩
    obtain ⟨hbuild, -⟩ := (buildLoopSchedulerNodes_eq_ok hregroup).1 hok
    have hleaves := leaves_buildLoopGroup hbuild
    refine ⟨fun p hp => hleaves ▸ hs.contiguous hp, fun n hn m hm d htake => ?_⟩
    by_cases hd : d < n.levels.length
    · have hlen : (n.loopGroupId.take (d + 1)).length = d + 1 := by
        simp [Node.loopGroupId]
        omega
      have hin : InLoop (n.loopGroupId.take (d + 1)) n = true :=
        inLoop_iff.2 (List.take_prefix _ _)
      have hin' : InLoop (n.loopGroupId.take (d + 1)) m = true :=
        inLoop_iff.2 (htake ▸ take_prefix _ _)
      obtain ⟨t, ht, hperm⟩ := hs.loops _ (ne_nil_of_length_pos (by omega)) ⟨n, hn, hin⟩
      rw [hlen, Nat.add_sub_cancel] at ht
      obtain ⟨c, hc⟩ := count_of_mem_loopsAt hbuild t
        (mem_filter.1 (by rw [ht]; exact mem_singleton_self t)).1
      rw [Nat.zero_add] at hc
      rw [hc n (hperm.mem_iff.2 (mem_filter.2 ⟨hn, hin⟩)),
        hc m (hperm.mem_iff.2 (mem_filter.2 ⟨hm, hin'⟩))]
    · have hlen := congrArg List.length htake
      simp only [Node.loopGroupId, length_take, length_map] at hlen
      rw [getElem?_eq_none (by omega), getElem?_eq_none (by omega)]
  · rintro ⟨hcont, hagree⟩
    have hagree' : Agree l := hagree.subset fun n hn => hl.perm.mem_iff.1 hn
    obtain ⟨result, hbuild⟩ : ∃ result, buildLoopGroup
        ((l.map fun n => n.levels.length).foldr max 0 + 1) 0 l = .ok result :=
      buildLoopGroup_ok (Nat.succ_pos _)
        (fun n hn => Nat.lt_succ_of_le (le_max_of_le (mem_map_of_mem hn) le_rfl))
        (fun _ _ _ _ => rfl) hagree'
    have hleaves := leaves_buildLoopGroup hbuild
    have hloops : ∀ p : List ℕ, p ≠ [] → (∃ n ∈ l, InLoop p n) →
        ∃ t, (loopsAt (p.length - 1) result).filter (Tree.Has p) = [t] ∧
          t.leaves = l.filter (InLoop p) := fun p hp hmem => by
      have := length_pos_of_ne_nil hp
      exact loopsAt_buildLoopGroup hbuild (fun _ _ _ _ => rfl)
        (fun q hq => hcont q (ne_nil_of_length_pos hq)) (by omega) hmem
    have hkeys : ((result.filterMap Tree.outerKey).map Prod.fst).Nodup := by
      refine nodup_outerKeys fun p hp => ?_
      by_cases hmem : ∃ n ∈ l, InLoop p n
      · obtain ⟨t, ht, -⟩ := hloops p (ne_nil_of_length_pos (by omega)) hmem
        rw [hp] at ht
        simp [ht]
      · rw [filter_has_eq_nil (hleaves ▸ fun n hn hin => hmem ⟨n, hn, hin⟩)]
        exact Nat.zero_le _
    obtain ⟨seen, hseen⟩ := foldE_checkOuterKey
      (show (([] ++ result.filterMap Tree.outerKey).map Prod.fst).Nodup from hkeys)
    refine ⟨result, (buildLoopSchedulerNodes_eq_ok hregroup).2 ⟨hbuild, seen, hseen⟩,
      hleaves ▸ hl, fun p hp hmem => ?_⟩
    obtain ⟨n, hn, hin⟩ := hmem
    obtain ⟨t, ht, htl⟩ := hloops p hp ⟨n, hl.perm.mem_iff.2 hn, hin⟩
    exact ⟨t, ht, htl ▸ hl.perm.filter _⟩

/-- A node in the inner loop `key` of the outermost loop. -/
def innerNode (name : String) (key : ℕ) : Node ℕ where
  name := name
  levels := [(0, 2), (key, 3)]

/-- Independent nodes, of which the second is in another inner loop than the others. -/
def interleaved : List (Node ℕ) :=
  [innerNode "a" 0, innerNode "b" 1, innerNode "c" 0]

/-- The inner loop of the first and the last node comes out as two loop nodes, although the nodes
can be put so that all loops are contiguous. -/
theorem interleaved_split :
    (interleaved.Nodup ∧ Topological interleaved interleaved ∧ Admits interleaved) ∧
      buildLoopSchedulerNodes interleaved = .ok [.loop 2 [.loop 3 [.node (innerNode "a" 0)],
        .loop 3 [.node (innerNode "b" 1)], .loop 3 [.node (innerNode "c" 0)]]] ∧
      ¬ ∃ result, buildLoopSchedulerNodes interleaved = .ok result ∧
        Survive interleaved result := by
  have hrun : buildLoopSchedulerNodes interleaved = .ok [.loop 2
      [.loop 3 [.node (innerNode "a" 0)], .loop 3 [.node (innerNode "b" 1)],
        .loop 3 [.node (innerNode "c" 0)]]] := rfl
  have hindep : ∀ l : List (Node ℕ), (∀ n ∈ l, n.unmetDependencies = []) →
      Topological interleaved l := by
    rintro l hl pre n post rfl m ⟨name, hname, -⟩
    rw [hl n (by simp)] at hname
    cases hname
  refine ⟨⟨by decide, hindep _ (by decide), ?_⟩, hrun, ?_⟩
  · refine ⟨[innerNode "a" 0, innerNode "c" 0, innerNode "b" 1],
      ⟨by decide, hindep _ (by decide)⟩, fun p _ => contiguous_iff.2 fun x y z hsub hx _ => ?_⟩
    have heq := hsub.eq_of_length rfl
    simp only [List.cons.injEq, and_true] at heq
    obtain ⟨rfl, rfl, rfl⟩ := heq
    exact hx
  · rintro ⟨result, hok, hs⟩
    obtain rfl := Except.ok.inj (hrun.symm.trans hok)
    obtain ⟨t, ht, -⟩ := hs.loops [0, 0] (by simp) ⟨innerNode "a" 0, by decide, by decide⟩
    have hlen := congrArg List.length ht
    rw [length_singleton] at hlen
    exact absurd hlen (by decide)

/-- Two nodes of an inner loop, the second of which reads what the first makes. -/
def chained : List (Node ℕ) :=
  [⟨"a", ["buf0"], [], [(0, 4), (0, 3)]⟩, ⟨"c", ["buf1"], ["buf0"], [(0, 4), (0, 3)]⟩]

theorem buildLoopSchedulerNodes_iff_chained :
    ∃ result, buildLoopSchedulerNodes chained = .ok result ∧ Survive chained result := by
  have hlevels : ∀ n ∈ chained, ∀ m ∈ chained, n.levels = m.levels := by decide
  have hfilter : ∀ p, chained.filter (InLoop p) = chained ∨ chained.filter (InLoop p) = [] := by
    intro p
    by_cases hp : ∃ n ∈ chained, InLoop p n
    · obtain ⟨n, hn, hin⟩ := hp
      refine .inl (filter_eq_self.2 fun m hm => inLoop_iff.2 ?_)
      rw [Node.loopGroupId, hlevels m hm n hn]
      exact inLoop_iff.1 hin
    · exact .inr (filter_eq_nil_iff.2 fun n hn hin => hp ⟨n, hn, hin⟩)
  have horder : Topological chained chained := by
    rintro pre n post hl m ⟨name, hname, hm, -⟩
    rcases pre with _ | ⟨x, _ | ⟨y, pre⟩⟩
    · obtain ⟨rfl, -⟩ := List.cons.inj hl
      cases hname
    · obtain ⟨rfl, htail⟩ := List.cons.inj hl
      obtain ⟨rfl, -⟩ := List.cons.inj htail
      obtain rfl := mem_singleton.1 hname
      obtain rfl := Option.some.inj hm
      exact mem_singleton_self _
    · simp [chained] at hl
  refine (buildLoopSchedulerNodes_iff (by decide) horder ⟨chained, ⟨.refl _, horder⟩,
    fun p _ => ?_⟩).2 ⟨fun p hp => ?_, fun n hn m hm d _ => by rw [hlevels n hn m hm]⟩
  · rcases hfilter p with h | h
    · rw [Contiguous, h]
    · rw [Contiguous, h]
      exact nil_infix
  · rcases hfilter p with h | h
    · have hin : ∀ n ∈ chained, InLoop p n = true := filter_eq_self.1 h
      have h' : chained.filter (InLoop (p.take 1)) = chained := filter_eq_self.2 fun n hn =>
        inLoop_take (hin n hn)
      rw [h, h']
    · rw [h]
      exact nil_infix

end Pass

end Scheduling

end TorchSpyre
