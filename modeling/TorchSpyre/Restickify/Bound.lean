import Mathlib
import TorchSpyre.Contiguous
import TorchSpyre.Loops
import TorchSpyre.Restickify.Future

/-!
# The backward bound

`compute_future_min_cost` adds up, for a candidate of an operation, what each consumer costs at
best and the bound of that consumer. A chain of consumers from `x` to an operation `a` carries
the cost of every edge out of `a`. So the bound is at most the sum over the edges after `x` of
the cost of the edge, times the number of chains from `x` to the buffer it reads
(`futureMinCost_le_weighted`), and equal to it where every operation has one candidate
(`futureMinCost_eq_weighted`).

The cost of what comes after `x` counts every edge once. The bound is below it where no buffer
that is read has two chains from `x`, and only there : otherwise an edge of a cost after the
chains have met is counted twice (`futureMinCost_admissible_iff`).
-/

open List Function

namespace TorchSpyre.Restickify

variable {L C : Type}

/-! ## Chains of consumers -/

/-- The chains to an operation are the chains to what it reads. -/
def chainsStep (m : String → ℕ) (op : Op L C) : String → ℕ :=
  Function.update m op.name (∑ a ∈ op.deps.toFinset, m a)

/-- The number of chains of consumers from `x` to each buffer, over the operations after `x`. -/
def chains (x : String) (post : List (Op L C)) : String → ℕ :=
  post.foldl chainsStep (Pi.single x 1)

variable {ops post : List (Op L C)} {names : List String} {d : Op L C} {a : String}

theorem foldl_chainsStep_of_not_mem :
    ∀ {m : String → ℕ}, a ∉ post.map Op.name → post.foldl chainsStep m a = m a := by
  induction post with
  | nil => exact fun _ => rfl
  | cons d post ih =>
    intro m ha
    rw [map_cons, mem_cons, not_or] at ha
    rw [foldl_cons, ih ha.2, chainsStep, update_of_ne ha.1]

theorem Topological.tail (h : Topological names (d :: post)) :
    Topological (names ++ [d.name]) post := by
  refine ⟨by simpa using h.nodup, fun pre op rest hsplit a ha => ?_⟩
  have := h.deps (d :: pre) op rest (by rw [hsplit, cons_append]) a ha
  simpa [or_assoc] using this

theorem Topological.suffix {x : Op L C} {p q : List (Op L C)} (h : Topological names ops)
    (hsplit : ops = p ++ x :: q) :
    Topological (names ++ p.map Op.name ++ [x.name]) q := by
  induction p generalizing names ops with
  | nil =>
    subst hsplit
    simpa using h.tail
  | cons d p ih =>
    subst hsplit
    simpa using ih h.tail rfl

theorem Topological.not_mem_of_mem (h : Topological names post) (ha : a ∈ names) :
    a ∉ post.map Op.name :=
  fun hmem => (nodup_append.mp h.nodup).2.2 a ha a hmem rfl

theorem Topological.deps_head (h : Topological names (d :: post)) (ha : a ∈ d.deps) :
    a ∈ names := by
  simpa using h.deps [] d post rfl a ha

/-! ## The bound along one assignment -/

section Tail

variable [AddCommMonoid C] [LinearOrder C] {σ : String → L}

/-- The part of an operation's cost that the backward pass gives to the buffer `a`. -/
def share (σ : String → L) (a : String) (d : Op L C) : WithTop C :=
  d.restickCostFn.minInputCost a (σ a) (σ d.name)

/-- What the consumers of `a` cost, each with what its own consumers cost. -/
def tailCost (σ : String → L) : List (Op L C) → String → WithTop C
  | [], _ => 0
  | d :: post, a =>
    (if d.uses a then share σ a d + tailCost σ post d.name else 0) + tailCost σ post a

/-- The shares of all edges, each as often as `m` says of its buffer. -/
def weighted (σ : String → L) (m : String → ℕ) (post : List (Op L C)) : WithTop C :=
  (post.map fun d => ∑ a ∈ d.deps.toFinset, m a • share σ a d).sum

/-- Every chain carries the edges out of its end. -/
theorem sum_tailCost (post : List (Op L C)) :
    ∀ {names : List String} {m : String → ℕ} {N : Finset String}, Topological names post →
      (∀ a ∈ N, a ∈ names) → (∀ a, a ∉ N → m a = 0) →
        ∑ a ∈ N, m a • tailCost σ post a = weighted σ (post.foldl chainsStep m) post := by
  induction post with
  | nil => intro names m N _ _ _; simp [tailCost, weighted]
  | cons d post ih =>
    intro names m N htop hN hm
    have hd : d.name ∉ N := fun h => htop.not_mem_of_mem (hN _ h) (by simp)
    have hrest := ih (m := chainsStep m d) (N := insert d.name N) htop.tail
      (fun a ha => by
        rcases Finset.mem_insert.mp ha with rfl | ha
        · simp
        · exact mem_append_left _ (hN a ha))
      (fun a ha => by
        obtain ⟨hne, ha⟩ : a ≠ d.name ∧ a ∉ N := by simpa [not_or] using ha
        rw [chainsStep, update_of_ne hne, hm a ha])
    have hkeep : ∀ a ∈ N, chainsStep m d a = m a := by
      intro a ha
      have hne : a ≠ d.name := fun h => hd (h ▸ ha)
      rw [chainsStep, update_of_ne hne]
    rw [Finset.sum_insert hd, Finset.sum_congr rfl fun a ha => by rw [hkeep a ha],
      chainsStep, update_self] at hrest
    have hfinal : ∑ a ∈ d.deps.toFinset, (d :: post).foldl chainsStep m a • share σ a d =
        ∑ a ∈ d.deps.toFinset, m a • share σ a d := by
      refine Finset.sum_congr rfl fun a ha => ?_
      have hin := htop.deps_head (mem_toFinset.mp ha)
      rw [foldl_chainsStep_of_not_mem (htop.not_mem_of_mem hin)]
    -- Only buffers of `N` count, and of these only what the operation reads.
    have hdeps : ∀ f : String → WithTop C,
        ∑ a ∈ N, (if d.uses a then m a • f a else 0) = ∑ a ∈ d.deps.toFinset, m a • f a := by
      intro f
      rw [← Finset.sum_filter]
      refine Finset.sum_subset_zero_on_sdiff (fun a ha => ?_) (fun a ha => ?_) fun _ _ => rfl
      · exact mem_toFinset.mpr (Op.uses_iff.mp (Finset.mem_filter.mp ha).2)
      · obtain ⟨ha, hnot⟩ := Finset.mem_sdiff.mp ha
        have hnotN : a ∉ N := fun h => hnot (Finset.mem_filter.mpr
          ⟨h, Op.uses_iff.mpr (mem_toFinset.mp ha)⟩)
        rw [hm a hnotN, zero_smul]
    have hsplit : ∀ a ∈ N, m a • tailCost σ (d :: post) a =
        (if d.uses a then m a • (share σ a d + tailCost σ post d.name) else 0) +
          m a • tailCost σ post a := by
      intro a _
      rw [tailCost, smul_add]
      split_ifs
      · rfl
      · rw [smul_zero]
    calc ∑ a ∈ N, m a • tailCost σ (d :: post) a
        = (∑ a ∈ d.deps.toFinset, m a • (share σ a d + tailCost σ post d.name)) +
            ∑ a ∈ N, m a • tailCost σ post a := by
          rw [Finset.sum_congr rfl hsplit, Finset.sum_add_distrib,
            hdeps fun a => share σ a d + tailCost σ post d.name]
      _ = (∑ a ∈ d.deps.toFinset, m a • share σ a d) +
            ((∑ a ∈ d.deps.toFinset, m a) • tailCost σ post d.name +
              ∑ a ∈ N, m a • tailCost σ post a) := by
          simp only [smul_add, Finset.sum_add_distrib, Finset.sum_smul, add_assoc]
      _ = weighted σ ((d :: post).foldl chainsStep m) (d :: post) := by
          rw [hrest, weighted, weighted, map_cons, sum_cons, hfinal]
          rfl

theorem tailCost_eq_weighted {names : List String} {x : String} {post : List (Op L C)}
    (htop : Topological names post) (hx : x ∈ names) :
    tailCost σ post x = weighted σ (chains x post) post := by
  have hsum := sum_tailCost (σ := σ) post (m := Pi.single x 1) (N := {x}) htop
    (by simpa using hx) fun a ha => Pi.single_eq_of_ne (by simpa using ha) _
  rw [Finset.sum_singleton, Pi.single_eq_same, one_smul] at hsum
  exact hsum

end Tail

/-! ## The backward pass -/

section Future

variable [DecidableEq L] [AddCommMonoid C] [LinearOrder C] {σ : String → L} {cap : C}
  {ops : List (Op L C)} {names : List String}

/-- The table of the last operations. -/
def futureTable (cap : C) (ops l : List (Op L C)) : FutureTable L C :=
  l.foldr (fun op future => (op.name, futureOf cap ops op future) :: future) []

variable {future : FutureTable L C} {c s : L} {d : Op L C} {a : String}

theorem get_futureTable_append {p q : List (Op L C)} (ha : a ∉ p.map Op.name) (s : L) :
    (futureTable cap ops (p ++ q)).get a s = (futureTable cap ops q).get a s := by
  induction p with
  | nil => rfl
  | cons d p ih =>
    rw [map_cons, mem_cons, not_or] at ha
    have hne : (a == d.name) = false := by simpa using ha.1
    have hrest := ih ha.2
    simp only [FutureTable.get] at hrest ⊢
    rw [cons_append, futureTable, foldr_cons, lookup_cons, hne]
    exact hrest

/-- The bound of an operation, from those of its consumers. -/
theorem get_computeFutureMinCost (htop : Topological names ops) {p q : List (Op L C)} {x : Op L C}
    (hsplit : ops = p ++ x :: q) (hs : s ∈ x.layouts) :
    (computeFutureMinCost cap ops).get x.name s =
      ((q.filter fun d => d.uses x.name).map
        (bestDownstream cap (computeFutureMinCost cap ops) x.name s)).sum := by
  have hnd : (names ++ (p.map Op.name ++ x.name :: q.map Op.name)).Nodup := by
    simpa [hsplit] using htop.nodup
  have hnd' := (nodup_append.mp hnd).2.1
  have hx : x.name ∉ p.map Op.name := fun h =>
    (nodup_append.mp hnd').2.2 _ h _ mem_cons_self rfl
  -- Nothing up to `x` reads `x`.
  have huses : (ops.filter fun d => d.uses x.name) = q.filter fun d => d.uses x.name := by
    have hnone : ∀ d ∈ p ++ [x], ¬d.uses x.name := by
      intro d hd huse
      have hmem := htop.mem_names hsplit hd (Op.uses_iff.mp huse)
      exact htop.not_mem_names hsplit hmem
    rw [hsplit, append_cons, filter_append, filter_eq_nil_iff.mpr hnone, nil_append]
  have htable : computeFutureMinCost cap ops = futureTable cap ops (p ++ x :: q) := by
    rw [← hsplit]
    rfl
  have hlater : ∀ d ∈ q, ∀ c, (computeFutureMinCost cap ops).get d.name c =
      (futureTable cap ops q).get d.name c := by
    intro d hd c
    have hmem : d.name ∈ q.map Op.name := mem_map_of_mem hd
    have hnot : d.name ∉ (p ++ [x]).map Op.name := by
      rw [map_append]
      rw [append_cons] at hnd'
      exact fun h => (nodup_append.mp hnd').2.2 _ h _ hmem rfl
    rw [htable, append_cons]
    exact get_futureTable_append hnot c
  have hbest : ∀ d ∈ q, bestDownstream cap (futureTable cap ops q) x.name s d =
      bestDownstream cap (computeFutureMinCost cap ops) x.name s d := by
    intro d hd
    simp only [bestDownstream, hlater d hd]
  have hself : (computeFutureMinCost cap ops).get x.name s =
      ((ops.filter fun d => d.uses x.name).map
        (bestDownstream cap (futureTable cap ops q) x.name s)).sum := by
    rw [htable, get_futureTable_append hx, futureTable, foldr_cons, FutureTable.get,
      lookup_cons_self, Option.bind_some, futureOf, Lists.lookup_map_pair, if_pos hs]
    rfl
  rw [hself, huses]
  exact congrArg List.sum (map_congr_left fun d hd => hbest d (mem_of_mem_filter hd))

/-- The bound of a buffer under an assignment. -/
def bound (cap : C) (ops : List (Op L C)) (σ : String → L) (a : String) : WithTop C :=
  ((computeFutureMinCost cap ops).get a (σ a) : C)

/-- The backward pass, under a relation that sums keep. -/
theorem rel_weighted {r : WithTop C → WithTop C → Prop} (hrefl : ∀ a, r a a)
    (hadd : ∀ {a b c d}, r a b → r c d → r (a + c) (b + d))
    (htrans : ∀ {a b c}, r a b → r b c → r a c) (htop : Topological names ops)
    (hstep : ∀ p x q, ops = p ++ x :: q → r (bound cap ops σ x.name)
      ((q.filter fun d => d.uses x.name).map fun d =>
        share σ x.name d + bound cap ops σ d.name).sum)
    {p q : List (Op L C)} {x : Op L C} (hsplit : ops = p ++ x :: q) :
    r (bound cap ops σ x.name) (weighted σ (chains x.name q) q) := by
  have htail : ∀ {p q : List (Op L C)}, ops = p ++ q → ∀ a,
      r ((q.filter fun d => d.uses a).map fun d => share σ a d + bound cap ops σ d.name).sum
        (tailCost σ q a) := by
    intro p q
    induction q generalizing p with
    | nil => exact fun _ a => hrefl 0
    | cons d q ih =>
      intro hsplit a
      have hrest := ih (p := p ++ [d]) (by rw [hsplit, append_cons])
      rw [tailCost, filter_cons]
      by_cases huse : d.uses a
      · rw [if_pos huse, if_pos huse, map_cons, sum_cons]
        have hd := htrans (hstep p d q hsplit) (hrest d.name)
        exact hadd (hadd (hrefl _) hd) (hrest a)
      · rw [if_neg huse, if_neg huse, zero_add]
        exact hrest a
  rw [← tailCost_eq_weighted (htop.suffix hsplit) (by simp)]
  exact htrans (hstep p x q hsplit) (htail (p := p ++ [x]) (by rw [hsplit, append_cons]) x.name)

omit [AddCommMonoid C] in
theorem foldl_min_le {l : List (WithTop C)} {v : WithTop C} (hv : v ∈ l) (t : WithTop C) :
    l.foldl min t ≤ v :=
  Loops.foldl_of_mem (P := (· ≤ v)) hv (fun _ => min_le_right _ _)
    (fun _ _ _ h => (min_le_left _ _).trans h) t

/-- A consumer's best is no more than what it costs under the assignment. -/
theorem bestDownstream_le (hc : c ∈ d.layouts) :
    ((bestDownstream cap future a s d : C) : WithTop C) ≤
      d.restickCostFn.minInputCost a s c + (future.get d.name c : C) := by
  have hle := foldl_min_le (mem_map_of_mem (f := fun dCand =>
    d.restickCostFn.minInputCost a s dCand + (future.get d.name dCand : C)) hc) ⊤
  rw [bestDownstream]
  generalize (d.layouts.map fun dCand => d.restickCostFn.minInputCost a s dCand +
    (future.get d.name dCand : C)).foldl min ⊤ = v at hle ⊢
  cases v with
  | top => exact le_top.trans hle
  | coe v => exact hle

/-- With one candidate there is nothing to choose. -/
theorem bestDownstream_eq (hc : d.layouts = [c]) (hfin : d.restickCostFn.minInputCost a s c ≠ ⊤) :
    ((bestDownstream cap future a s d : C) : WithTop C) =
      d.restickCostFn.minInputCost a s c + (future.get d.name c : C) := by
  obtain ⟨v, hv⟩ := WithTop.ne_top_iff_exists.mp hfin
  rw [bestDownstream, hc, map_singleton, foldl_cons, foldl_nil,
    min_eq_right le_top, ← hv, ← WithTop.coe_add, WithTop.untopD_coe]

omit [LinearOrder C] in
theorem coe_sum_map {ι : Type} (f : ι → C) (l : List ι) :
    (((l.map f).sum : C) : WithTop C) = (l.map fun i => (f i : WithTop C)).sum := by
  rw [← WithTop.coe_addHom, map_list_sum, map_map]
  rfl

/-- The bound is at most the shares of all edges after the operation, each as often as there are
chains to its buffer. -/
theorem futureMinCost_le_weighted [IsOrderedAddMonoid C] (htop : Topological names ops)
    (hσ : ∀ op ∈ ops, σ op.name ∈ op.layouts) {p q : List (Op L C)} {x : Op L C}
    (hsplit : ops = p ++ x :: q) :
    bound cap ops σ x.name ≤ weighted σ (chains x.name q) q := by
  refine rel_weighted (r := (· ≤ ·)) le_refl add_le_add le_trans htop
    (fun p x q hsplit => ?_) hsplit
  rw [bound, get_computeFutureMinCost htop hsplit (hσ x (by simp [hsplit])), coe_sum_map]
  refine sum_le_sum fun d hd => bestDownstream_le (hσ d ?_)
  rw [hsplit]
  simp [mem_of_mem_filter hd]

variable (cap) in
/-- With one candidate for each operation the bound is that sum. -/
theorem futureMinCost_eq_weighted (htop : Topological names ops)
    (hσ : ∀ op ∈ ops, op.layouts = [σ op.name]) (hfin : ∀ op ∈ ops, ∀ a ∈ op.deps, share σ a op ≠ ⊤)
    {p q : List (Op L C)} {x : Op L C} (hsplit : ops = p ++ x :: q) :
    bound cap ops σ x.name = weighted σ (chains x.name q) q := by
  refine rel_weighted (fun _ => rfl) (fun h h' => by rw [h, h']) Eq.trans htop
    (fun p x q hsplit => ?_) hsplit
  rw [bound, get_computeFutureMinCost htop hsplit (by simp [hσ x (by simp [hsplit])]),
    coe_sum_map]
  refine congrArg List.sum (map_congr_left fun d hd => ?_)
  obtain ⟨hd, huse⟩ := mem_filter.mp hd
  have hmem : d ∈ ops := by simp [hsplit, hd]
  exact bestDownstream_eq (hσ d hmem) (hfin d hmem _ (Op.uses_iff.mp huse))

end Future

/-! ## What an operation costs -/

section Cost

variable [AddCommMonoid C] [LinearOrder C] {σ : String → L}

/-- An edge has no negative cost and knows the layouts of the buffer it reads. -/
structure EdgesFit (inputs : List (String × L)) (ops : List (Op L C)) : Prop where
  nonneg : ∀ op ∈ ops, ∀ ec ∈ op.restickCostFn.edgeCosts, ∀ l l', 0 ≤ ec.cost l l'
  known_input : ∀ op ∈ ops, ∀ ec ∈ op.restickCostFn.edgeCosts, ∀ p ∈ inputs,
    p.1 = ec.depName → p.2 ∈ ec.inLayouts
  known_op : ∀ op ∈ ops, ∀ ec ∈ op.restickCostFn.edgeCosts, ∀ o ∈ ops,
    o.name = ec.depName → ∀ l ∈ o.layouts, l ∈ ec.inLayouts

theorem EdgesFit.known {inputs : List (String × L)} {ops : List (Op L C)} (h : EdgesFit inputs ops)
    (htop : Topological (inputs.map Prod.fst) ops) (hσ : Assigns inputs ops σ) {op : Op L C}
    (hop : op ∈ ops) {ec : EdgeCostMap L C} (hec : ec ∈ op.restickCostFn.edgeCosts) :
    σ ec.depName ∈ ec.inLayouts := by
  obtain ⟨pre, post, hsplit⟩ := append_of_mem hop
  rcases htop.deps pre op post hsplit ec.depName (mem_map_of_mem hec) with hin | hin
  · obtain ⟨p, hp, hname⟩ := mem_map.mp hin
    rw [← hname, hσ.inputs p hp]
    exact h.known_input op hop ec hec p hp hname
  · obtain ⟨o, ho, hname⟩ := mem_map.mp hin
    have ho : o ∈ ops := by simp [hsplit, ho]
    exact h.known_op op hop ec hec o ho hname _ (hname ▸ hσ.ops o ho)

/-- A sum over a list, by key. -/
theorem sum_filter_key {ι M : Type} [AddCommMonoid M] (key : ι → String) (f : ι → M)
    {S : Finset String} : ∀ {l : List ι}, (∀ e ∈ l, key e ∈ S) →
      ∑ a ∈ S, ((l.filter fun e => key e = a).map f).sum = (l.map f).sum
  | [], _ => by simp
  | e :: l, h => by
    have hrest := sum_filter_key key f (l := l) fun e he => h e (by simp [he])
    have hhead : ∀ a, (((e :: l).filter fun e => key e = a).map f).sum =
        (if key e = a then f e else 0) + ((l.filter fun e => key e = a).map f).sum := by
      intro a
      by_cases ha : key e = a <;> simp [ha]
    rw [map_cons, sum_cons, ← hrest, Finset.sum_congr rfl fun a _ => hhead a,
      Finset.sum_add_distrib, Finset.sum_ite_eq, if_pos (h e (by simp))]

omit [LinearOrder C] in
theorem ne_top_of_sum_ne_top {l : List (WithTop C)} (h : l.sum ≠ ⊤) : ∀ v ∈ l, v ≠ ⊤ := by
  induction l with
  | nil => simp
  | cons w l ih =>
    rw [sum_cons] at h
    obtain ⟨hw, hl⟩ := WithTop.add_ne_top.mp h
    rintro v hv
    rcases mem_cons.mp hv with rfl | hv
    · exact hw
    · exact ih hl v hv

theorem zipWith_map_append {α β γ : Type} (f : α → β → γ) (g : α → β) :
    ∀ l l' : List α, List.zipWith f l ((l ++ l').map g) = l.map fun e => f e (g e)
  | [], _ => by simp
  | e :: l, l' => by
    rw [cons_append, map_cons, zipWith_cons_cons, zipWith_map_append f g l l', map_cons]

variable {d : Op L C}

theorem share_nonneg [IsOrderedAddMonoid C]
    (hnonneg : ∀ ec ∈ d.restickCostFn.edgeCosts, ∀ l l', 0 ≤ ec.cost l l')
    (a : String) : 0 ≤ share σ a d := by
  rw [share]
  cases hnode : d.restickCostFn with
  | allSame inputs outputs =>
    rw [hnode] at hnonneg
    simp only [RestickNodeCost.minInputCost]
    cases hfind : inputs.find? fun e => e.depName = a with
    | none => exact le_rfl
    | some ec =>
      have hec := mem_of_find?_eq_some hfind
      have hcost := hnonneg ec (mem_append_left _ hec) (σ a) (σ d.name)
      dsimp only
      split_ifs
      · exact le_top
      · exact hcost
      · exact le_top
  | fixedInOut edges compatible =>
    rw [hnode] at hnonneg
    simp only [RestickNodeCost.minInputCost]
    split_ifs
    · exact le_top
    · refine sum_nonneg fun v hv => ?_
      obtain ⟨e, he, rfl⟩ := mem_map.mp hv
      exact hnonneg e.1 (mem_map_of_mem (mem_of_mem_filter he)) _ _
    · exact le_top
    · exact le_top
  | anyIn => exact le_rfl

variable {out : L} {edges : List (EdgeCostMap L C × L)} {compatible : L → Bool}

/-- Of an operation with fixed layouts, the share of an input is the sum of its edges. -/
theorem minInputCost_fixedInOut (hcompat : compatible out = true) {a : String} {s : L}
    (ha : ∃ e ∈ edges, e.1.depName = a)
    (hfin : ∀ e ∈ edges, e.1.depName = a → e.1.cost s e.2 ≠ ⊤)
    (hother : ∀ e ∈ edges, ∃ other ∈ e.1.inLayouts, e.1.cost other e.2 ≠ ⊤) :
    (RestickNodeCost.fixedInOut edges compatible).minInputCost a s out =
      ((edges.filter fun e => e.1.depName = a).map fun e => e.1.cost s e.2).sum := by
  have hguard : ¬(((edges.filter fun e => e.1.depName = a).map fun e => e.1.cost s e.2) = [] ∨
      ⊤ ∈ (edges.filter fun e => e.1.depName = a).map fun e => e.1.cost s e.2) := by
    rintro (hnil | htop)
    · obtain ⟨e, he, hname⟩ := ha
      refine filter_eq_nil_iff.mp (map_eq_nil_iff.mp hnil) e he ?_
      simpa using hname
    · obtain ⟨e, he, hcost⟩ := mem_map.mp htop
      exact hfin e (mem_of_mem_filter he) (by simpa using (mem_filter.mp he).2) hcost
  have hall : (edges.filter fun e => e.1.depName ≠ a).all fun e =>
      e.1.inLayouts.any fun other => e.1.cost other e.2 < ⊤ := by
    refine all_eq_true.mpr fun e he => any_eq_true.mpr ?_
    obtain ⟨other, hmem, hcost⟩ := hother e (mem_of_mem_filter he)
    exact ⟨other, hmem, by simpa using lt_top_iff_ne_top.mpr hcost⟩
  rw [RestickNodeCost.minInputCost, if_pos hcompat]
  dsimp only
  rw [if_neg hguard, if_pos hall]

variable [DecidableEq L] {inputs outputs : List (EdgeCostMap L C)}

theorem cost_allSame
    (h : (RestickNodeCost.allSame inputs outputs).cost
      (((inputs ++ outputs).map EdgeCostMap.depName).map σ) out ≠ ⊤) :
    (RestickNodeCost.allSame inputs outputs).cost
        (((inputs ++ outputs).map EdgeCostMap.depName).map σ) out =
      (inputs.map fun e => e.cost (σ e.depName) out).sum := by
  have hzip := zipWith_map_append (fun (ec : EdgeCostMap L C) lk => ec.cost lk out)
    (fun e => σ e.depName) inputs outputs
  rw [map_map] at h ⊢
  rw [RestickNodeCost.cost] at h ⊢
  split_ifs at h ⊢
  · exact absurd rfl h
  · exact absurd rfl h
  · exact congrArg List.sum hzip

/-- Of an operation with one layout, the share of an input is one of its edges. -/
theorem sum_minInputCost_le_allSame [IsOrderedAddMonoid C]
    (hnonneg : ∀ ec ∈ inputs ++ outputs, ∀ l l', 0 ≤ ec.cost l l')
    (hknown : ∀ ec ∈ inputs ++ outputs, σ ec.depName ∈ ec.inLayouts) :
    ∑ a ∈ ((inputs ++ outputs).map EdgeCostMap.depName).toFinset,
        (RestickNodeCost.allSame inputs outputs).minInputCost a (σ a) out ≤
      (RestickNodeCost.allSame inputs outputs).cost
        (((inputs ++ outputs).map EdgeCostMap.depName).map σ) out := by
  by_cases hfin : (RestickNodeCost.allSame inputs outputs).cost
      (((inputs ++ outputs).map EdgeCostMap.depName).map σ) out = ⊤
  · rw [hfin]
    exact le_top
  have hcost := cost_allSame hfin
  rw [hcost] at hfin ⊢
  have hedge : ∀ e ∈ inputs, e.cost (σ e.depName) out ≠ ⊤ := fun e he =>
    ne_top_of_sum_ne_top hfin _ (mem_map_of_mem he)
  have hkeys : ∀ e ∈ inputs, e.depName ∈
      ((inputs ++ outputs).map EdgeCostMap.depName).toFinset := fun e he =>
    mem_toFinset.mpr (mem_map_of_mem (mem_append_left _ he))
  rw [← sum_filter_key EdgeCostMap.depName _ hkeys]
  refine Finset.sum_le_sum fun a _ => ?_
  have hsum : ∀ v ∈ (inputs.filter fun e => e.depName = a).map fun e =>
      e.cost (σ e.depName) out, 0 ≤ v := by
    intro v hv
    obtain ⟨e, he, rfl⟩ := mem_map.mp hv
    exact hnonneg e (mem_append_left _ (mem_of_mem_filter he)) _ _
  rw [RestickNodeCost.minInputCost]
  cases hfind : inputs.find? fun e => e.depName = a with
  | none => exact sum_nonneg hsum
  | some ec =>
    have hec := mem_of_find?_eq_some hfind
    have hname : ec.depName = a := by simpa using find?_some hfind
    have hother : (inputs.filter fun e => e.depName ≠ a).all fun e =>
        e.inLayouts.any fun other => e.cost other out < ⊤ := by
      refine all_eq_true.mpr fun e he => any_eq_true.mpr ⟨σ e.depName, ?_, ?_⟩
      · exact hknown e (mem_append_left _ (mem_of_mem_filter he))
      · simpa using lt_top_iff_ne_top.mpr (hedge e (mem_of_mem_filter he))
    dsimp only
    rw [if_neg (hname ▸ hedge ec hec), if_pos hother]
    refine single_le_sum hsum _ (mem_map.mpr ⟨ec, ?_, by rw [hname]⟩)
    exact mem_filter.mpr ⟨hec, by simpa using hname⟩

theorem cost_fixedInOut (hcompat : compatible out = true) :
    (RestickNodeCost.fixedInOut edges compatible).cost
        (((edges.map Prod.fst).map EdgeCostMap.depName).map σ) out =
      (edges.map fun e => e.1.cost (σ e.1.depName) e.2).sum := by
  have hzip := zipWith_map_append (fun (e : EdgeCostMap L C × L) lk => e.1.cost lk e.2)
    (fun e => σ e.1.depName) edges []
  rw [append_nil] at hzip
  rw [RestickNodeCost.cost, if_pos hcompat, map_map, map_map]
  exact congrArg List.sum hzip

theorem sum_minInputCost_le_fixedInOut
    (hknown : ∀ e ∈ edges, σ e.1.depName ∈ e.1.inLayouts) :
    ∑ a ∈ ((edges.map Prod.fst).map EdgeCostMap.depName).toFinset,
        (RestickNodeCost.fixedInOut edges compatible).minInputCost a (σ a) out ≤
      (RestickNodeCost.fixedInOut edges compatible).cost
        (((edges.map Prod.fst).map EdgeCostMap.depName).map σ) out := by
  by_cases hcompat : compatible out = true
  swap
  · rw [RestickNodeCost.cost, if_neg hcompat]
    exact le_top
  rw [cost_fixedInOut hcompat]
  by_cases hfin : (edges.map fun e => e.1.cost (σ e.1.depName) e.2).sum = ⊤
  · rw [hfin]
    exact le_top
  have hedge : ∀ e ∈ edges, e.1.cost (σ e.1.depName) e.2 ≠ ⊤ := fun e he =>
    ne_top_of_sum_ne_top hfin _ (mem_map.mpr ⟨e, he, rfl⟩)
  have hkeys : ∀ e ∈ edges, e.1.depName ∈
      ((edges.map Prod.fst).map EdgeCostMap.depName).toFinset := fun e he =>
    mem_toFinset.mpr (mem_map_of_mem (mem_map_of_mem he))
  rw [← sum_filter_key (fun e => e.1.depName) _ hkeys]
  refine (Finset.sum_congr rfl fun a ha => ?_).le
  rw [minInputCost_fixedInOut hcompat (by simpa using ha) (fun e he hname => hname ▸ hedge e he)
    fun e he => ⟨_, hknown e he, hedge e he⟩]
  refine congrArg List.sum (map_congr_left fun e he => ?_)
  have hname : e.1.depName = a := by simpa using (mem_filter.mp he).2
  rw [hname]

/-- The shares of an operation are no more than its cost. -/
theorem sum_share_le [IsOrderedAddMonoid C]
    (hnonneg : ∀ ec ∈ d.restickCostFn.edgeCosts, ∀ l l', 0 ≤ ec.cost l l')
    (hknown : ∀ ec ∈ d.restickCostFn.edgeCosts, σ ec.depName ∈ ec.inLayouts) :
    ∑ a ∈ d.deps.toFinset, share σ a d ≤ d.costUnder σ := by
  simp only [share, Op.costUnder, Op.deps]
  cases hnode : d.restickCostFn with
  | allSame inputs outputs =>
    rw [hnode] at hnonneg hknown
    exact sum_minInputCost_le_allSame hnonneg hknown
  | fixedInOut edges compatible =>
    rw [hnode] at hknown
    exact sum_minInputCost_le_fixedInOut fun e he => hknown e.1 (mem_map_of_mem he)
  | anyIn => exact le_rfl

end Cost

/-! ## Admissibility -/

/-- The name of an operation and what it reads. -/
def Op.node (op : Op L C) : String × List String :=
  (op.name, op.deps)

theorem chains_eq_of_nodes {post' : List (Op L C)} {x : String}
    (h : post'.map Op.node = post.map Op.node) : chains x post' = chains x post := by
  have hfold : ∀ l : List (Op L C), chains x l = (l.map Op.node).foldl
      (fun (m : String → ℕ) n => Function.update m n.1 (∑ a ∈ n.2.toFinset, m a))
        (Pi.single x 1) := fun l => by
    rw [foldl_map]
    rfl
  rw [hfold, hfold, h]

theorem Topological.of_nodes {ops' : List (Op L C)} (h : Topological names ops)
    (hnodes : ops'.map Op.node = ops.map Op.node) :
    Topological names ops' := by
  have hnames : ∀ {l l' : List (Op L C)}, l'.map Op.node = l.map Op.node →
      l'.map Op.name = l.map Op.name := fun {l l'} h => by
    simpa [Op.node, comp_def] using congrArg (List.map Prod.fst) h
  refine ⟨(hnames hnodes).symm ▸ h.nodup, ?_⟩
  rintro pre' op' post' rfl d hd
  rw [map_append, map_cons] at hnodes
  obtain ⟨pre, rest, rfl, hpre, hrest⟩ := map_eq_append_iff.mp hnodes.symm
  obtain ⟨op, post, rfl, hop, -⟩ := map_eq_cons_iff.mp hrest
  have hdeps : op'.deps = op.deps := (congrArg Prod.snd hop).symm
  rw [hnames hpre.symm]
  exact h.deps pre op post rfl d (hdeps ▸ hd)

section Price

variable [AddCommMonoid C] {l l' : L} {c : C} {a d : String} {names : List String} {op : Op L C}

/-- What the priced edge costs the operation `op`. -/
def priced (c : C) (a d : String) (op : Op L C) (n : String) : C :=
  if n = a ∧ op.name = d then c else 0

theorem sum_priced_of_ne (hop : op.name ≠ d) (ns : List String) :
    (ns.map (priced c a d op)).sum = 0 :=
  sum_eq_zero fun v hv => by
    obtain ⟨n, -, rfl⟩ := mem_map.mp hv
    exact if_neg fun h => hop h.2

theorem sum_priced_filter (op : Op L C) (ns : List String) :
    ((ns.filter (· = a)).map (priced c a d op)).sum = (ns.map (priced c a d op)).sum := by
  induction ns with
  | nil => rfl
  | cons n ns ih =>
    by_cases hn : n = a
    · rw [filter_cons_of_pos (by simpa using hn), map_cons, sum_cons, ih, map_cons, sum_cons]
    · have hzero : priced c a d op n = 0 := if_neg fun h => hn h.1
      rw [filter_cons_of_neg (by simpa using hn), ih, map_cons, sum_cons, hzero, zero_add]

variable [DecidableEq L]

/-- The operation with the candidate `l`. A restick between layouts costs `c`, and only the edge
from `a` to `d` needs one, to `l'`. -/
def price (l l' : L) (c : C) (a d : String) (op : Op L C) : Op L C where
  name := op.name
  layouts := [l]
  restickCostFn := .fixedInOut (op.deps.map fun n =>
    (⟨n, [l], fun s t => ((if s = t then 0 else c : C) : WithTop C)⟩,
      if n = a ∧ op.name = d then l' else l)) fun _ => true

theorem deps_price (op : Op L C) : (price l l' c a d op).deps = op.deps := by
  simp [price, Op.deps, RestickNodeCost.edgeCosts, comp_def]

theorem node_price (ops : List (Op L C)) :
    (ops.map (price l l' c a d)).map Op.node = ops.map Op.node := by
  rw [map_map]
  refine map_congr_left fun op _ => ?_
  rw [comp_apply, Op.node, deps_price]
  rfl

theorem cost_price (hne : l ≠ l') (op : Op L C) (n : String) :
    ((if l = (if n = a ∧ op.name = d then l' else l) then 0 else c : C) : WithTop C) =
      priced c a d op n := by
  unfold priced
  by_cases hedge : n = a ∧ op.name = d
  · rw [if_pos hedge, if_pos hedge, if_neg hne]
  · rw [if_neg hedge, if_neg hedge, if_pos rfl]

theorem edge_price {ops : List (Op L C)} : ∀ op ∈ ops.map (price l l' c a d),
    ∀ ec ∈ op.restickCostFn.edgeCosts,
      ec.inLayouts = [l] ∧ ∀ s t, ec.cost s t = ((if s = t then 0 else c : C) : WithTop C) := by
  intro op hop ec hec
  obtain ⟨op, -, rfl⟩ := mem_map.mp hop
  simp only [price, RestickNodeCost.edgeCosts, map_map, mem_map, comp_apply] at hec
  obtain ⟨n, -, rfl⟩ := hec
  exact ⟨rfl, fun _ _ => rfl⟩

theorem assigns_price {ops : List (Op L C)} :
    Assigns (names.map fun n => (n, l)) (ops.map (price l l' c a d)) fun _ => l := by
  refine ⟨fun p hp => ?_, fun op hop => ?_⟩
  · obtain ⟨n, -, rfl⟩ := mem_map.mp hp
    rfl
  · obtain ⟨o, -, rfl⟩ := mem_map.mp hop
    exact mem_singleton_self l

end Price

section Admissible

variable [DecidableEq L] [AddCommMonoid C] [LinearOrder C]

/-- Where no buffer that is read has two chains, the bound is below the cost. -/
theorem bound_le_totalCost [IsOrderedAddMonoid C] {cap : C} {inputs : List (String × L)}
    {pre post : List (Op L C)} {x : Op L C}
    (htop : Topological (inputs.map Prod.fst) (pre ++ x :: post))
    (hfit : EdgesFit inputs (pre ++ x :: post)) {σ : String → L}
    (hσ : Assigns inputs (pre ++ x :: post) σ)
    (hone : ∀ d ∈ post, ∀ a ∈ d.deps, chains x.name post a ≤ 1) :
    bound cap (pre ++ x :: post) σ x.name ≤ totalCost post σ := by
  refine (futureMinCost_le_weighted htop hσ.ops rfl).trans ?_
  refine sum_le_sum fun d hd => ?_
  have hmem : d ∈ pre ++ x :: post := by simp [hd]
  have hnonneg := hfit.nonneg d hmem
  calc ∑ a ∈ d.deps.toFinset, chains x.name post a • share σ a d
      ≤ ∑ a ∈ d.deps.toFinset, share σ a d := by
        refine Finset.sum_le_sum fun a ha => ?_
        have hle := hone d hd a (mem_toFinset.mp ha)
        calc chains x.name post a • share σ a d
            ≤ 1 • share σ a d := nsmul_le_nsmul_left (share_nonneg hnonneg a) hle
          _ = share σ a d := one_smul ℕ _
    _ ≤ d.costUnder σ := sum_share_le hnonneg fun ec hec => hfit.known htop hσ hmem hec

variable {l l' : L} {c : C} {a d : String} {names : List String} {op : Op L C}

theorem share_price (hne : l ≠ l') {b : String} (hb : b ∈ op.deps) :
    share (fun _ => l) b (price l l' c a d op) =
      (((op.deps.filter (· = b)).map (priced c a d op)).sum : C) := by
  refine (minInputCost_fixedInOut rfl (by simpa using hb) (fun e he _ => ?_)
    fun e he => ?_).trans ?_
  · obtain ⟨n, -, rfl⟩ := mem_map.mp he
    exact WithTop.coe_ne_top
  · obtain ⟨n, -, rfl⟩ := mem_map.mp he
    exact ⟨l, mem_singleton_self l, WithTop.coe_ne_top⟩
  · rw [filter_map, map_map, coe_sum_map, ← map_congr_left fun n _ => cost_price hne op n]
    rfl

theorem costUnder_price (hne : l ≠ l') (op : Op L C) :
    (price l l' c a d op).costUnder (fun _ => l) = ((op.deps.map (priced c a d op)).sum : C) := by
  refine (cost_fixedInOut rfl).trans ?_
  rw [map_map, coe_sum_map, ← map_congr_left fun n _ => cost_price hne op n]
  rfl

theorem edgesFit_price (hc : 0 ≤ c) {ops : List (Op L C)} :
    EdgesFit (names.map fun n => (n, l)) (ops.map (price l l' c a d)) := by
  refine ⟨fun op hop ec hec s t => ?_, fun op hop ec hec p hp _ => ?_,
    fun op hop ec hec o ho _ s hs => ?_⟩
  · rw [(edge_price op hop ec hec).2, WithTop.coe_nonneg]
    split_ifs
    · exact le_rfl
    · exact hc
  · obtain ⟨n, -, rfl⟩ := mem_map.mp hp
    rw [(edge_price op hop ec hec).1]
    exact mem_singleton_self l
  · obtain ⟨o, -, rfl⟩ := mem_map.mp ho
    rw [(edge_price op hop ec hec).1]
    exact hs

omit [DecidableEq L] in
theorem sum_priced_nonneg [IsOrderedAddMonoid C] (hc : 0 ≤ c) (op : Op L C) (ns : List String) :
    0 ≤ (ns.map (priced c a d op)).sum := by
  refine sum_nonneg fun v hv => ?_
  obtain ⟨n, -, rfl⟩ := mem_map.mp hv
  rw [priced]
  split_ifs
  · exact hc
  · exact le_rfl

variable {pre post : List (Op L C)} {x dOp : Op L C}

/-- Only the priced edge costs anything. -/
theorem totalCost_price (hne : l ≠ l') (hnd : (post.map Op.name).Nodup) (hd : dOp ∈ post) :
    totalCost (post.map (price l l' c a dOp.name)) (fun _ => l) =
      ((dOp.deps.map (priced c a dOp.name dOp)).sum : C) := by
  obtain ⟨p, q, rfl⟩ := append_of_mem hd
  rw [map_append, map_cons, nodup_middle, nodup_cons] at hnd
  have hzero : ∀ part : List (Op L C), (∀ op ∈ part, op ∈ p ++ q) →
      (part.map fun op => (price l l' c a dOp.name op).costUnder fun _ => l).sum = 0 := by
    intro part hpart
    refine sum_eq_zero fun w hw => ?_
    obtain ⟨op, hop, rfl⟩ := mem_map.mp hw
    have hother : op.name ≠ dOp.name := fun heq =>
      hnd.1 (heq ▸ map_append ▸ mem_map_of_mem (hpart op hop))
    rw [costUnder_price hne, sum_priced_of_ne hother]
    rfl
  rw [totalCost, map_map, map_append, sum_append, map_cons, sum_cons]
  simp only [comp_def]
  rw [hzero p fun op hop => mem_append_left _ hop, hzero q fun op hop => mem_append_right _ hop,
    costUnder_price hne, zero_add, add_zero]

/-- The bound counts the priced edge once for each chain to the buffer. -/
theorem chains_nsmul_le_bound [IsOrderedAddMonoid C] (cap : C)
    (htop : Topological names (pre ++ x :: post)) (hd : dOp ∈ post) (ha : a ∈ dOp.deps)
    (hne : l ≠ l') (hc : 0 ≤ c) :
    chains x.name post a • (((dOp.deps.map (priced c a dOp.name dOp)).sum : C) : WithTop C) ≤
      bound cap ((pre ++ x :: post).map (price l l' c a dOp.name)) (fun _ => l) x.name := by
  have hnodes : ((pre ++ x :: post).map (price l l' c a dOp.name)).map Op.node =
      (pre ++ x :: post).map Op.node := node_price _
  have hfin : ∀ op ∈ (pre ++ x :: post).map (price l l' c a dOp.name), ∀ b ∈ op.deps,
      share (fun _ => l) b op ≠ ⊤ := by
    intro op hop b hb
    obtain ⟨op, -, rfl⟩ := mem_map.mp hop
    rw [deps_price] at hb
    rw [share_price hne hb]
    exact WithTop.coe_ne_top
  have heq := futureMinCost_eq_weighted cap (htop.of_nodes hnodes) (σ := fun _ => l)
    (fun op hop => by obtain ⟨op, -, rfl⟩ := mem_map.mp hop; rfl) hfin
    (by rw [map_append, map_cons])
  have hchains : chains (price l l' c a dOp.name x).name (post.map (price l l' c a dOp.name)) =
      chains x.name post := chains_eq_of_nodes (node_price post)
  have hshare : ∀ op : Op L C, ∀ b ∈ op.deps,
      0 ≤ chains x.name post b • share (fun _ => l) b (price l l' c a dOp.name op) := by
    intro op b hb
    rw [share_price hne hb]
    exact nsmul_nonneg (WithTop.coe_nonneg.mpr (sum_priced_nonneg hc op _)) _
  refine le_of_le_of_eq ?_ heq.symm
  rw [hchains, weighted, map_map, ← sum_priced_filter, ← share_price hne ha]
  calc chains x.name post a • share (fun _ => l) a (price l l' c a dOp.name dOp)
      ≤ ∑ b ∈ dOp.deps.toFinset, chains x.name post b •
          share (fun _ => l) b (price l l' c a dOp.name dOp) :=
        Finset.single_le_sum
          (f := fun b => chains x.name post b • share (fun _ => l) b (price l l' c a dOp.name dOp))
          (fun b hb => hshare dOp b (mem_toFinset.mp hb)) (mem_toFinset.mpr ha)
    _ ≤ _ := by
        refine single_le_sum (fun w hw => ?_) _ (mem_map.mpr ⟨dOp, hd, ?_⟩)
        · obtain ⟨op, -, rfl⟩ := mem_map.mp hw
          refine Finset.sum_nonneg fun b hb => hshare op b ?_
          rw [deps_price] at hb
          exact mem_toFinset.mp hb
        · rw [comp_apply, deps_price]

/-- Two chains to a buffer that `dOp` reads count the priced edge twice. -/
theorem chains_le_one_of_price [IsOrderedCancelAddMonoid C] (cap : C)
    (htop : Topological names (pre ++ x :: post)) (hd : dOp ∈ post) (ha : a ∈ dOp.deps)
    (hne : l ≠ l') (hc : 0 < c)
    (h : bound cap ((pre ++ x :: post).map (price l l' c a dOp.name)) (fun _ => l) x.name ≤
      totalCost (post.map (price l l' c a dOp.name)) fun _ => l) :
    chains x.name post a ≤ 1 := by
  have hnd : (post.map Op.name).Nodup := by
    have := (nodup_append.mp htop.nodup).2.1
    rw [map_append] at this
    exact (nodup_cons.mp (nodup_append.mp this).2.1).2
  have hle := ((chains_nsmul_le_bound cap htop hd ha hne hc.le).trans h).trans_eq
    (totalCost_price hne hnd hd)
  have hpos : 0 < (dOp.deps.map (priced c a dOp.name dOp)).sum := by
    obtain ⟨p, q, hdeps⟩ := append_of_mem ha
    rw [hdeps, map_append, sum_append, map_cons, sum_cons, priced, if_pos ⟨rfl, rfl⟩]
    exact add_pos_of_nonneg_of_pos (sum_priced_nonneg hc.le dOp p)
      (add_pos_of_pos_of_nonneg hc (sum_priced_nonneg hc.le dOp q))
  generalize (dOp.deps.map (priced c a dOp.name dOp)).sum = v at hle hpos
  by_contra hlt
  have htwo : v + v ≤ v := by
    have hmono : 2 • (v : WithTop C) ≤ chains x.name post a • (v : WithTop C) :=
      nsmul_le_nsmul_left (WithTop.coe_nonneg.mpr hpos.le) (by omega)
    have := hmono.trans hle
    rw [two_smul] at this
    exact_mod_cast this
  exact absurd htwo (not_le.mpr (lt_add_of_pos_right v hpos))

/-- The bound of `x` is below the cost of what comes after `x`, for all candidates and all cost
nodes with edges in `costs` that operations with these names and inputs may have, every candidate
of `x` and every assignment that commits `x` to it. -/
def AdmissibleOn (costs : Set (EdgeCostMap L C)) (names : List String) (pre : List (Op L C))
    (x : Op L C) (post : List (Op L C)) : Prop :=
  ∀ (cap : C) (inputs : List (String × L)) (pre' post' : List (Op L C)) (x' : Op L C),
    inputs.map Prod.fst = names → pre'.map Op.node = pre.map Op.node → x'.node = x.node →
      post'.map Op.node = post.map Op.node → EdgesFit inputs (pre' ++ x' :: post') →
        (∀ op ∈ pre' ++ x' :: post', ∀ ec ∈ op.restickCostFn.edgeCosts, ec ∈ costs) →
          ∀ s σ, Assigns inputs (pre' ++ x' :: post') σ → σ x'.name = s →
            (((computeFutureMinCost cap (pre' ++ x' :: post')).get x'.name s : C) : WithTop C) ≤
              totalCost post' σ

/-- On a graph of operations the bound of `x` is admissible exactly if no buffer that an operation
after `x` reads is reached from `x` by two chains of consumers, whatever costs there may be besides
those that take nothing for a layout that stays. -/
theorem futureMinCost_admissible_iff [IsOrderedCancelAddMonoid C] {names : List String}
    {pre post : List (Op L C)} {x : Op L C} (htop : Topological names (pre ++ x :: post))
    {l l' : L} (hne : l ≠ l') {c : C} (hc : 0 < c) {costs : Set (EdgeCostMap L C)}
    (hcosts : ∀ ec : EdgeCostMap L C, (∀ s, ec.cost s s = 0) → ec ∈ costs) :
    AdmissibleOn costs names pre x post ↔ ∀ d ∈ post, ∀ a ∈ d.deps, chains x.name post a ≤ 1 := by
  constructor
  · intro h d hd a ha
    refine chains_le_one_of_price 0 htop hd ha hne hc ?_
    rw [map_append, map_cons]
    refine h 0 (names.map fun n => (n, l)) _ _ _ (by simp [comp_def])
      (node_price pre) ?_ (node_price post) ?_ ?_ l (fun _ => l) ?_ rfl
    · exact head_eq_of_cons_eq (node_price [x])
    · rw [← map_cons, ← map_append]
      exact edgesFit_price hc.le
    · rw [← map_cons, ← map_append]
      refine fun op hop ec hec => hcosts ec fun s => ?_
      rw [(edge_price op hop ec hec).2, if_pos rfl, WithTop.coe_zero]
    · rw [← map_cons, ← map_append]
      exact assigns_price
  · rintro hone cap inputs pre' post' x' rfl hpre hx hpost hfit - s σ hσ rfl
    have hnodes : (pre' ++ x' :: post').map Op.node = (pre ++ x :: post).map Op.node := by
      rw [map_append, map_cons, hpre, hx, hpost, map_append, map_cons]
    refine bound_le_totalCost (htop.of_nodes hnodes) hfit hσ fun d hd a ha => ?_
    have hname : x'.name = x.name := congrArg Prod.fst hx
    rw [hname, chains_eq_of_nodes hpost]
    have hmem : d.node ∈ post.map Op.node := hpost ▸ mem_map_of_mem hd
    obtain ⟨e, he, heq⟩ := mem_map.mp hmem
    have hdeps : e.deps = d.deps := congrArg Prod.snd heq
    exact hone e he a (hdeps ▸ ha)

end Admissible

/-! ## Two operations that meet again -/

/-- A restick between the two layouts costs `5`. -/
def restick (depName : String) : EdgeCostMap Bool ℕ :=
  ⟨depName, [false], fun l l' => if l = l' then 0 else 5⟩

/-- An operation with one candidate, whose inputs have its layout. -/
def pointwise (name : String) (deps : List String) : Op Bool ℕ :=
  ⟨name, [false], .allSame (deps.map restick) []⟩

/-- `a` and `b` read `x`, their sum `c` is an operand of a matmul that needs the other layout. -/
def diamond : List (Op Bool ℕ) :=
  [pointwise "a" ["x"], pointwise "b" ["x"], pointwise "c" ["a", "b"],
    ⟨"d", [false], .fixedInOut [(restick "c", true)] fun _ => true⟩]

/-- One restick is needed after `x`, and the bound counts it along both chains. -/
theorem diamond_overestimates :
    Topological [] (pointwise "x" [] :: diamond) ∧
      EdgesFit [] (pointwise "x" [] :: diamond) ∧
        Assigns [] (pointwise "x" [] :: diamond) (fun _ => false) ∧
          totalCost diamond (fun _ => false) = 5 ∧
            (computeFutureMinCost (10 ^ 18) (pointwise "x" [] :: diamond)).get "x" false = 10 := by
  refine ⟨?_, ⟨by decide, by simp, by decide⟩, ⟨by simp, by decide⟩, by decide +kernel,
    by decide +kernel⟩
  refine .cons (by decide) (.cons (by decide) (.cons (by decide) (.cons (by decide)
    (.cons (by decide) (.nil (by decide))))))

/-- Without the second operand the bound is admissible. -/
theorem futureMinCost_admissible_iff_chain :
    AdmissibleOn Set.univ [] [] (pointwise "x" []) [pointwise "a" ["x"], pointwise "c" ["a"]] :=
  (futureMinCost_admissible_iff (.cons (by decide) (.cons (by decide) (.cons (by decide)
    (.nil (by decide))))) Bool.false_ne_true Nat.one_pos fun ec _ => Set.mem_univ ec).mpr
      (by decide)

end TorchSpyre.Restickify
