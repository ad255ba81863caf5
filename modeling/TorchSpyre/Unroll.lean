import Mathlib

/-!
# Unrolling counted loops

A program is a list of steps, each with an index and the path of counted loops it runs in,
outermost first. There is one textual copy of every loop body. Executing it repeats the
steps of a loop as often as the loop's trip count says (`unroll`). An executed step is the
step together with the iteration of each loop on its path (`Instance`).

The loops nest properly when the loops two steps share also hold the steps between them
(`Nested`). Then one instance runs before another exactly as `Precedes` says : an earlier
iteration of the outermost loop they disagree on, else the textual order
(`pairwise_unroll`). A step that runs against the textual order does so because some loop
holds both, in different iterations (`Precedes.earlier`).
-/

open List

namespace Unroll

/-- An executed step. `iteration` has an entry for each loop of `path`. -/
structure Instance where
  index : ℕ
  path : List ℕ
  iteration : List ℕ
deriving DecidableEq

/-! ## Execution -/

section Runs

variable {κ α : Type} [DecidableEq κ] (key : α → κ)

/-- Cut a list into runs of consecutive elements with one key. -/
def runs : List α → List (κ × List α)
  | [] => []
  | x :: l =>
    match runs l with
    | [] => [(key x, [x])]
    | (k, g) :: rest =>
      if key x = k then (k, x :: g) :: rest else (key x, [x]) :: (k, g) :: rest

theorem flatMap_runs (l : List α) : (runs key l).flatMap Prod.snd = l := by
  induction l with
  | nil => rfl
  | cons x l ih =>
    unfold runs
    split
    · rename_i h
      rw [h] at ih
      simpa using ih
    · rename_i k g rest h
      rw [h, flatMap_cons] at ih
      split_ifs
      · simpa using ih
      · simpa using ih

variable {l : List α} {run : κ × List α}

/-- The elements of a run have its key, and there are some. -/
theorem mem_runs_cases (h : run ∈ runs key l) :
    run.2 ≠ [] ∧ ∀ x ∈ run.2, key x = run.1 := by
  induction l generalizing run with
  | nil => simp [runs] at h
  | cons y l ih =>
    unfold runs at h
    split at h
    · obtain rfl := mem_singleton.1 h
      simp
    · rename_i k g rest hl
      have hg : ∀ x ∈ (k, g).2, key x = k := (ih (by simp [hl])).2
      split_ifs at h with hk
      · rcases mem_cons.1 h with rfl | h
        · simpa [hk] using hg
        · exact ih (by simp [hl, h])
      · rcases mem_cons.1 h with rfl | h
        · simp
        · exact ih (by rw [hl]; exact h)

theorem key_of_mem_runs (h : run ∈ runs key l) : ∀ x ∈ run.2, key x = run.1 :=
  (mem_runs_cases key h).2

theorem ne_nil_of_mem_runs (h : run ∈ runs key l) : run.2 ≠ [] :=
  (mem_runs_cases key h).1

theorem sublist_of_mem_runs (h : run ∈ runs key l) :
    run.2.Sublist l := by
  have := sublist_flatten_of_mem (mem_map_of_mem (f := Prod.snd) h)
  rwa [← flatMap_def, flatMap_runs] at this

theorem exists_mem_runs {x : α} (h : x ∈ l) : ∃ run ∈ runs key l, x ∈ run.2 := by
  rw [← flatMap_runs key l] at h
  exact mem_flatMap.1 h

end Runs

section Exec

variable (trip : List ℕ → ℕ)

/-- Execute a run of steps with one next loop, or none. The steps of a loop are executed by
`inner` once for each of its iterations. -/
def execRun (inner : List ℕ → List ℕ → List (ℕ × List ℕ) → List Instance) (outer iter : List ℕ)
    (run : Option ℕ × List (ℕ × List ℕ)) : List Instance :=
  match run.1 with
  | none => run.2.map fun c => ⟨c.1, outer ++ c.2, iter⟩
  | some loop => (List.range (trip (outer ++ [loop]))).flatMap fun k =>
      inner (outer ++ [loop]) (iter ++ [k]) (run.2.map fun c => (c.1, c.2.tail))

/-- Execute steps inside the loops `outer`, on the iterations `iter` of these. The paths of
the steps are what remains of them, and `depth` bounds their length. -/
def exec : ℕ → List ℕ → List ℕ → List (ℕ × List ℕ) → List Instance
  | 0, outer, iter, code => code.map fun c => ⟨c.1, outer ++ c.2, iter⟩
  | depth + 1, outer, iter, code =>
    (runs (fun c => c.2.head?) code).flatMap (execRun trip (exec depth) outer iter)

/-- The depth of the deepest loop. -/
def nesting (code : List (ℕ × List ℕ)) : ℕ :=
  (code.map fun c => c.2.length).foldr max 0

/-- The whole execution. -/
def unroll (code : List (ℕ × List ℕ)) : List Instance :=
  exec trip (nesting code) [] [] code

/-- The iterations `v` of the loops `path` inside `outer` are within their trip counts. -/
def Within : List ℕ → List ℕ → List ℕ → Prop
  | _, [], [] => True
  | outer, a :: path, k :: v => k < trip (outer ++ [a]) ∧ Within (outer ++ [a]) path v
  | _, _, _ => False

variable {x : Instance} {code : List (ℕ × List ℕ)} {iter outer : List ℕ}

theorem Within.length_eq {path v : List ℕ} (h : Within trip outer path v) :
    v.length = path.length := by
  induction path generalizing outer v with
  | nil =>
    cases v with
    | nil => rfl
    | cons k v => exact h.elim
  | cons a path ih =>
    cases v with
    | nil => exact h.elim
    | cons k v => exact congrArg Nat.succ (ih h.2)

theorem le_nesting {c : ℕ × List ℕ} (h : c ∈ code) :
    c.2.length ≤ nesting code :=
  le_max_of_le (mem_map_of_mem (f := fun c : ℕ × List ℕ => c.2.length) h) le_rfl

/-- The instance `x` is a step of `code`, on iterations of its loops that extend `iter`. -/
def Executes (outer iter : List ℕ) (code : List (ℕ × List ℕ)) (x : Instance) : Prop :=
  ∃ c ∈ code, x.index = c.1 ∧ x.path = outer ++ c.2 ∧
    ∃ v, x.iteration = iter ++ v ∧ Within trip outer c.2 v

theorem mem_map_iff (hnil : ∀ c ∈ code, c.2 = []) :
    (x ∈ code.map fun c => ⟨c.1, outer ++ c.2, iter⟩) ↔ Executes trip outer iter code x := by
  rw [mem_map]
  constructor
  · rintro ⟨c, hc, rfl⟩
    exact ⟨c, hc, rfl, rfl, [], by simp, by rw [hnil c hc]; trivial⟩
  · rintro ⟨c, hc, hidx, hpath, v, hiter, hv⟩
    have hvnil : v = [] := eq_nil_of_length_eq_zero (by
      rw [hv.length_eq, hnil c hc, length_nil])
    refine ⟨c, hc, ?_⟩
    rw [hvnil, append_nil] at hiter
    rw [← hidx, ← hpath, ← hiter]

theorem mem_execRun {depth : ℕ} {inner : List ℕ → List ℕ → List (ℕ × List ℕ) → List Instance}
    (hinner : ∀ {outer iter code}, (∀ c ∈ code, c.2.length ≤ depth) → ∀ {x : Instance},
      x ∈ inner outer iter code ↔ Executes trip outer iter code x)
    {run : Option ℕ × List (ℕ × List ℕ)}
    (hkey : ∀ c ∈ run.2, c.2.head? = run.1) (hdepth : ∀ c ∈ run.2, c.2.length ≤ depth + 1) :
    x ∈ execRun trip inner outer iter run ↔ Executes trip outer iter run.2 x := by
  unfold execRun
  cases hloop : run.1 with
  | none =>
    exact mem_map_iff trip fun c hc => head?_eq_none_iff.1 ((hkey c hc).trans hloop)
  | some loop =>
    have hdepth' : ∀ d ∈ run.2.map fun c => (c.1, c.2.tail), d.2.length ≤ depth := by
      intro d hd
      obtain ⟨c, hc, rfl⟩ := mem_map.1 hd
      have := hdepth c hc
      rw [length_tail]
      omega
    have hcons : ∀ c ∈ run.2, c.2 = loop :: c.2.tail := fun c hc => by
      obtain ⟨rest, hrest⟩ := head?_eq_some_iff.1 ((hkey c hc).trans hloop)
      rw [hrest, tail_cons]
    simp only [mem_flatMap, mem_range, hinner hdepth']
    constructor
    · rintro ⟨k, hk, d, hd, hidx, hpath, v, hiter, hv⟩
      obtain ⟨c, hc, rfl⟩ := mem_map.1 hd
      refine ⟨c, hc, hidx, ?_, k :: v, by simpa using hiter, ?_⟩
      · rw [hpath, hcons c hc]
        simp
      · rw [hcons c hc]
        exact ⟨hk, hv⟩
    · rintro ⟨c, hc, hidx, hpath, v, hiter, hv⟩
      rw [hcons c hc] at hpath hv
      cases v with
      | nil => exact hv.elim
      | cons k v =>
        refine ⟨k, hv.1, _, mem_map_of_mem hc, hidx, ?_, v, by simpa using hiter, hv.2⟩
        simpa using hpath

/-- What is executed : every step, on every combination of iterations of its loops. -/
theorem mem_exec {depth : ℕ} {outer iter : List ℕ} {code : List (ℕ × List ℕ)}
    (hdepth : ∀ c ∈ code, c.2.length ≤ depth) {x : Instance} :
    x ∈ exec trip depth outer iter code ↔ Executes trip outer iter code x := by
  induction depth generalizing outer iter code x with
  | zero =>
    exact mem_map_iff trip fun c hc =>
      eq_nil_of_length_eq_zero (Nat.le_zero.1 (hdepth c hc))
  | succ depth ih =>
    have hrun : ∀ {run}, run ∈ runs (fun c => c.2.head?) code → ∀ {x : Instance},
        x ∈ execRun trip (exec trip depth) outer iter run ↔
          Executes trip outer iter run.2 x := fun h =>
      mem_execRun trip ih (key_of_mem_runs _ h) fun c hc =>
        hdepth c ((sublist_of_mem_runs _ h).subset hc)
    rw [exec, mem_flatMap]
    constructor
    · rintro ⟨run, h, hx⟩
      obtain ⟨c, hc, hrest⟩ := (hrun h).1 hx
      exact ⟨c, (sublist_of_mem_runs _ h).subset hc, hrest⟩
    · rintro ⟨c, hc, hrest⟩
      obtain ⟨run, h, hmem⟩ := exists_mem_runs (fun c : ℕ × List ℕ => c.2.head?) hc
      exact ⟨run, h, (hrun h).2 ⟨c, hmem, hrest⟩⟩

theorem mem_unroll :
    x ∈ unroll trip code ↔ (x.index, x.path) ∈ code ∧ Within trip [] x.path x.iteration := by
  rw [unroll, mem_exec trip fun c hc => le_nesting hc]
  constructor
  · rintro ⟨c, hc, hidx, hpath, v, hiter, hv⟩
    rw [nil_append] at hpath hiter
    rw [hidx, hpath, hiter]
    exact ⟨hc, hv⟩
  · rintro ⟨hc, hv⟩
    exact ⟨_, hc, rfl, rfl, x.iteration, rfl, hv⟩

end Exec

/-! ## Nesting -/

/-- The loops two paths share. -/
def common : List ℕ → List ℕ → List ℕ
  | a :: p, b :: q => if a = b then a :: common p q else []
  | _, _ => []

theorem common_prefix (p q : List ℕ) : common p q <+: p ∧ common p q <+: q := by
  fun_induction common p q with
  | case1 p a q ih => exact ⟨(prefix_cons_inj a).2 ih.1, (prefix_cons_inj a).2 ih.2⟩
  | case2 => exact ⟨ nil_prefix, nil_prefix⟩
  | case3 => exact ⟨ nil_prefix, nil_prefix⟩

variable {l : List (List ℕ)} {iter loop outer p q r u v w : List ℕ} {trip : List ℕ → ℕ} {i j : ℕ}

theorem prefix_common (hp : r <+: p) (hq : r <+: q) : r <+: common p q := by
  induction r generalizing p q with
  | nil => exact nil_prefix
  | cons a r ih =>
    obtain ⟨p, rfl⟩ := hp
    obtain ⟨q, rfl⟩ := hq
    simp only [cons_append, common, if_true]
    exact (prefix_cons_inj a).2 (ih (prefix_append r p) (prefix_append r q))

/-- The loops two steps share hold every step between them. -/
def Nested : List (List ℕ) → Prop
  | [] => True
  | p :: paths => paths.Pairwise (fun q r => common p r <+: q) ∧ Nested paths

instance decidableNested : DecidablePred Nested
  | [] => inferInstanceAs (Decidable True)
  | _ :: paths =>
    have := decidableNested paths
    inferInstanceAs (Decidable (_ ∧ _))

theorem Nested.sublist {l' : List (List ℕ)} (h : Nested l') (hs : l.Sublist l') : Nested l := by
  induction hs with
  | slnil => trivial
  | cons a _ ih => exact ih h.2
  | cons_cons a hs ih => exact ⟨h.1.sublist hs, ih h.2⟩

/-- A loop that holds two steps holds every step between them. -/
theorem Nested.between (h : Nested l) {k : ℕ} (hij : i < j) (hjk : j < k) (hp : l[i]? = some p)
    (hq : l[j]? = some q) (hr : l[k]? = some r) (hlp : loop <+: p) (hlr : loop <+: r) :
    loop <+: q := by
  induction l generalizing i j k with
  | nil => simp at hp
  | cons a l ih =>
    obtain ⟨j, rfl⟩ := Nat.exists_eq_add_of_lt (Nat.zero_lt_of_lt hij)
    obtain ⟨k, rfl⟩ := Nat.exists_eq_add_of_lt (Nat.zero_lt_of_lt hjk)
    simp only [Nat.zero_add, getElem?_cons_succ] at hq hr hij hjk
    cases i with
    | zero =>
      obtain rfl : a = p := by simpa using hp
      obtain ⟨hj, rfl⟩ := List.getElem?_eq_some_iff.1 hq
      obtain ⟨hk, rfl⟩ := List.getElem?_eq_some_iff.1 hr
      exact (prefix_common hlp hlr).trans
        (pairwise_iff_getElem.1 h.1 j k hj hk (by omega))
    | succ i =>
      rw [getElem?_cons_succ] at hp
      exact ih h.2 (by omega) (by omega) hp hq hr

/-- Inside one loop the rest of the paths nest. -/
theorem Nested.tail {a : ℕ} (h : Nested l) (ha : ∀ p ∈ l, p.head? = some a) :
    Nested (l.map List.tail) := by
  induction l with
  | nil => trivial
  | cons p l ih =>
    refine ⟨?_, ih h.2 fun q hq => ha q (mem_cons_of_mem p hq)⟩
    obtain ⟨p', hp⟩ := head?_eq_some_iff.1 (ha p mem_cons_self)
    rw [pairwise_map]
    refine h.1.imp_of_mem fun {q r} hq hr hqr => ?_
    obtain ⟨q', rfl⟩ := head?_eq_some_iff.1 (ha q (mem_cons_of_mem p hq))
    obtain ⟨r', rfl⟩ := head?_eq_some_iff.1 (ha r (mem_cons_of_mem p hr))
    simp only [hp, common, if_true] at hqr
    simpa [hp] using (prefix_cons_inj a).1 hqr

/-- With proper nesting a loop is one run. -/
theorem pairwise_runs {code : List (ℕ × List ℕ)} (h : Nested (code.map Prod.snd)) :
    (runs (fun c => c.2.head?) code).Pairwise fun r s => r.1 = s.1 → r.1 = none := by
  induction code with
  | nil => exact List.Pairwise.nil
  | cons c code ih =>
    have ih := ih h.2
    unfold runs
    split
    · exact pairwise_singleton _ _
    · rename_i k g rest hruns
      rw [hruns] at ih
      obtain ⟨hhead, htail⟩ := pairwise_cons.1 ih
      split_ifs with hk
      · exact pairwise_cons.2 ⟨hhead, htail⟩
      · refine pairwise_cons.2 ⟨fun s hs hkey => ?_, ih⟩
        by_contra hsome
        obtain ⟨a, ha⟩ := Option.ne_none_iff_exists'.1 hsome
        -- the first step of `code` leaves the loop, and `d` in a later run is in it again
        rw [← hruns] at hs
        obtain ⟨d, hd⟩ := exists_mem_of_ne_nil _ (ne_nil_of_mem_runs _ hs)
        have hdkey : d.2.head? = some a := (key_of_mem_runs _ hs d hd).trans (hkey.symm.trans ha)
        have hfirst : (k, g) ∈ runs (fun c => c.2.head?) code := by simp [hruns]
        obtain ⟨y, g', rfl⟩ := exists_cons_of_ne_nil (ne_nil_of_mem_runs _ hfirst)
        have hykey : y.2.head? = k := key_of_mem_runs _ hfirst y mem_cons_self
        obtain ⟨code', hcode⟩ : ∃ code', code = y :: code' := by
          rw [← flatMap_runs (fun c : ℕ × List ℕ => c.2.head?) code, hruns]
          exact ⟨_, rfl⟩
        have hd' : d ∈ code' := by
          have := (sublist_of_mem_runs _ hs).subset hd
          rw [hcode] at this
          rcases mem_cons.1 this with rfl | hd'
          · exact absurd (ha.trans (hdkey.symm.trans hykey)) hk
          · exact hd'
        have hcommon : common c.2 d.2 <+: y.2 := by
          have := h.1
          rw [hcode, map_cons, pairwise_cons] at this
          exact this.1 d.2 (mem_map_of_mem hd')
        obtain ⟨p, hp⟩ := head?_eq_some_iff.1 ha
        obtain ⟨q, hq⟩ := head?_eq_some_iff.1 hdkey
        rw [hp, hq, common, if_pos rfl] at hcommon
        obtain ⟨t, ht⟩ := hcommon
        rw [← ht, cons_append, head?_cons] at hykey
        exact hk (ha.trans hykey)

/-! ## The order of execution -/

/-- Step `i` on the iterations `v` of `p` runs before step `j` on the iterations `w` of `q`. -/
def precedes (i j : ℕ) : List ℕ → List ℕ → List ℕ → List ℕ → Prop
  | a :: p, x :: v, b :: q, y :: w => if a = b then x < y ∨ x = y ∧ precedes i j p v q w else i < j
  | _, _, _, _ => i < j

/-- One instance runs before another. -/
def Precedes (x y : Instance) : Prop :=
  precedes x.index y.index x.path x.iteration y.path y.iteration

/-- The iterations `v` of `p` and `w` of `q` agree outside `loop`, which both run in, and `v`
is on an earlier iteration of it. -/
inductive Earlier : List ℕ → List ℕ → List ℕ → List ℕ → List ℕ → Prop
  | here (a : ℕ) (p v q w : List ℕ) {x y : ℕ} : x < y →
      Earlier [a] (a :: p) (x :: v) (a :: q) (y :: w)
  | inside (a x : ℕ) {loop p v q w : List ℕ} : Earlier loop p v q w →
      Earlier (a :: loop) (a :: p) (x :: v) (a :: q) (x :: w)

theorem Earlier.ne_nil (h : Earlier loop p v q w) : loop ≠ [] := by
  cases h <;> simp

theorem Earlier.prefix_left (h : Earlier loop p v q w) : loop <+: p := by
  induction h with
  | here a p => exact prefix_append [a] p
  | inside a _ _ ih => exact (prefix_cons_inj a).2 ih

theorem Earlier.prefix_right (h : Earlier loop p v q w) : loop <+: q := by
  induction h with
  | here a _ _ q => exact prefix_append [a] q
  | inside a _ _ ih => exact (prefix_cons_inj a).2 ih

/-- An earlier iteration runs first, whatever the textual order. -/
theorem Earlier.precedes (h : Earlier loop p v q w) (i j : ℕ) :
    precedes i j p v q w := by
  induction h with
  | here a p v q w hlt => simp [Unroll.precedes, hlt]
  | inside a x _ ih => simp [Unroll.precedes, ih]

/-- Against the textual order, a step runs first only on an earlier iteration. -/
theorem exists_earlier (h : precedes i j p v q w) (hij : j ≤ i) :
    ∃ loop, Earlier loop p v q w := by
  fun_induction precedes i j p v q w with
  | case1 p x v a q y w ih =>
    rcases h with hlt | ⟨rfl, h⟩
    · exact ⟨[a], .here a p v q w hlt⟩
    · obtain ⟨loop, hloop⟩ := ih h
      exact ⟨a :: loop, .inside a x hloop⟩
  | case2 => omega
  | case3 => omega

theorem precedes_asymm (h : precedes i j p v q w) :
    ¬precedes j i q w p v := by
  fun_induction precedes i j p v q w with
  | case1 p x v a q y w ih =>
    simp only [precedes, if_true]
    rcases h with hlt | ⟨rfl, h⟩
    · omega
    · simpa using ih h
  | case2 a p x v b q y w hab =>
    simp only [precedes, Ne.symm hab, if_false]
    omega
  | case3 p v q w hnot =>
    rw [precedes]
    · omega
    · intro a p x v b q y w hq hw hp hv
      exact hnot b q y w a p x v hp hv hq hw

theorem precedes_irrefl (i : ℕ) (p v : List ℕ) : ¬precedes i i p v p v := fun h =>
  precedes_asymm h h

/-- What the loops around both agree on does not matter. -/
theorem precedes_append (hlen : outer.length = iter.length) (h : precedes i j p v q w) :
    precedes i j (outer ++ p) (iter ++ v) (outer ++ q) (iter ++ w) := by
  induction outer generalizing iter with
  | nil =>
    cases iter with
    | nil => exact h
    | cons => cases hlen
  | cons a outer ih =>
    cases iter with
    | nil => cases hlen
    | cons x iter => simp [precedes, ih (Nat.succ.inj hlen)]

theorem earlier_append (hlen : outer.length = iter.length) (h : Earlier loop p v q w) :
    Earlier (outer ++ loop) (outer ++ p) (iter ++ v) (outer ++ q) (iter ++ w) := by
  induction outer generalizing iter with
  | nil =>
    cases iter with
    | nil => exact h
    | cons => cases hlen
  | cons a outer ih =>
    cases iter with
    | nil => cases hlen
    | cons x iter => exact .inside a x (ih (Nat.succ.inj hlen))

/-- Steps of different loops run in textual order. -/
theorem precedes_of_head_ne (hij : i < j) (h : p.head? = q.head? → p.head? = none) :
    precedes i j p v q w := by
  fun_cases precedes i j p v q w with
  | case1 => simp at h
  | case2 => exact hij
  | case3 => exact hij

section Order

variable {trip : List ℕ → ℕ}

variable {code : List (ℕ × List ℕ)}

theorem pairwise_map_exec {outer iter : List ℕ} (hlen : outer.length = iter.length)
    (hnil : ∀ c ∈ code, c.2 = []) (hidx : code.Pairwise fun c d => c.1 < d.1) :
    (code.map fun c => (⟨c.1, outer ++ c.2, iter⟩ : Instance)).Pairwise Precedes := by
  rw [pairwise_map]
  refine hidx.imp_of_mem fun {c d} hc hd hlt => ?_
  have := precedes_append hlen (precedes_of_head_ne hlt (v := []) (w := []) (p := c.2) (q := d.2)
    fun _ => by rw [hnil c hc]; rfl)
  rwa [append_nil] at this

/-- The execution is in the order of `Precedes`. -/
theorem pairwise_exec {depth : ℕ} {outer iter : List ℕ} {code : List (ℕ × List ℕ)}
    (hlen : outer.length = iter.length) (hdepth : ∀ c ∈ code, c.2.length ≤ depth)
    (hnest : Nested (code.map Prod.snd)) (hidx : code.Pairwise fun c d => c.1 < d.1) :
    (exec trip depth outer iter code).Pairwise Precedes := by
  induction depth generalizing outer iter code with
  | zero =>
    exact pairwise_map_exec hlen
      (fun c hc => eq_nil_of_length_eq_zero (Nat.le_zero.1 (hdepth c hc))) hidx
  | succ depth ih =>
    rw [exec, pairwise_flatMap]
    constructor
    · intro run h
      have hsub := sublist_of_mem_runs _ h
      have hkey := key_of_mem_runs _ h
      unfold execRun
      cases hloop : run.1 with
      | none =>
        exact pairwise_map_exec hlen
          (fun c hc => head?_eq_none_iff.1 ((hkey c hc).trans hloop)) (hidx.sublist hsub)
      | some loop =>
        have hdepth' : ∀ d ∈ run.2.map fun c => (c.1, c.2.tail), d.2.length ≤ depth := by
          intro d hd
          obtain ⟨c, hc, rfl⟩ := mem_map.1 hd
          have := hdepth c (hsub.subset hc)
          rw [length_tail]
          omega
        refine pairwise_flatMap.2 ⟨fun k _ => ih (by simp [hlen]) hdepth' ?_ ?_, ?_⟩
        · have := (hnest.sublist (hsub.map Prod.snd)).tail (a := loop) (by
            intro p hp
            obtain ⟨c, hc, rfl⟩ := mem_map.1 hp
            exact (hkey c hc).trans hloop)
          simpa [Function.comp_def] using this
        · rw [pairwise_map]
          exact hidx.sublist hsub
        · -- different iterations of `loop`
          refine pairwise_lt_range.imp fun {k l} hkl x hx y hy => ?_
          obtain ⟨c, -, -, hpx, v, hvx, -⟩ := (mem_exec trip hdepth').1 hx
          obtain ⟨d, -, -, hpy, w, hwy, -⟩ := (mem_exec trip hdepth').1 hy
          have := (earlier_append hlen (.here loop c.2 v d.2 w hkl)).precedes x.index y.index
          rw [Precedes, hpx, hvx, hpy, hwy]
          simpa using this
    · have hlt : (runs (fun c => c.2.head?) code).Pairwise fun r s =>
          ∀ c ∈ r.2, ∀ d ∈ s.2, c.1 < d.1 := by
        rw [← flatMap_runs (fun c : ℕ × List ℕ => c.2.head?) code, pairwise_flatMap] at hidx
        exact hidx.2
      refine (hlt.and (pairwise_runs hnest)).imp_of_mem fun {r s} hr hs hrs x hx y hy => ?_
      have hexec : ∀ {run}, run ∈ runs (fun c => c.2.head?) code → ∀ {x : Instance},
          x ∈ execRun trip (exec trip depth) outer iter run →
            Executes trip outer iter run.2 x := fun h =>
        (mem_execRun trip (mem_exec trip) (key_of_mem_runs _ h) fun c hc =>
          hdepth c ((sublist_of_mem_runs _ h).subset hc)).1
      obtain ⟨c, hc, hcx, hpx, v, hvx, -⟩ := hexec hr hx
      obtain ⟨d, hd, hdy, hpy, w, hwy, -⟩ := hexec hs hy
      have hlt' : x.index < y.index := by
        rw [hcx, hdy]
        exact hrs.1 c hc d hd
      rw [Precedes, hpx, hvx, hpy, hwy]
      refine precedes_append hlen (precedes_of_head_ne hlt' ?_)
      rw [key_of_mem_runs _ hr c hc, key_of_mem_runs _ hs d hd]
      exact hrs.2

theorem pairwise_unroll (hnest : Nested (code.map Prod.snd))
    (hidx : code.Pairwise fun c d => c.1 < d.1) : (unroll trip code).Pairwise Precedes :=
  pairwise_exec rfl (fun _ hc => le_nesting hc) hnest hidx

end Order

/-! ## Passing a step -/

/-- Iterations of the loops `p` : those of `w` where the loops are shared with `q`, the first
ones elsewhere. -/
def follow : List ℕ → List ℕ → List ℕ → List ℕ
  | a :: p, b :: q, y :: w => if a = b then y :: follow p q w else 0 :: follow p [] []
  | _ :: p, _, _ => 0 :: follow p [] []
  | [], _, _ => []

theorem Within.zeros (htrip : ∀ loop, 0 < trip loop) (outer p : List ℕ) :
    Within trip outer p (follow p [] []) := by
  induction p generalizing outer with
  | nil => simp [follow, Within]
  | cons a p ih => exact ⟨htrip _, ih _⟩

theorem Within.follow (htrip : ∀ loop, 0 < trip loop) (h : Within trip outer q w) :
    Within trip outer p (follow p q w) := by
  fun_induction Unroll.follow p q w generalizing outer with
  | case1 p a q y w ih => exact ⟨h.1, ih h.2⟩
  | case2 a p b q y w hab ih => exact ⟨htrip _, Within.zeros htrip _ _⟩
  | case3 a p q w hnot ih => exact ⟨htrip _, Within.zeros htrip _ _⟩
  | case4 => trivial

theorem precedes_follow (hij : i < j) (p q w : List ℕ) :
    precedes i j q w p (follow p q w) ∧ precedes i j p (follow p q w) q w := by
  fun_induction follow p q w with
  | case1 p a q y w ih => simp [precedes, ih]
  | case2 a p b q y w hab => simp [precedes, hab, Ne.symm hab, hij]
  | case3 a p q w hnot =>
    constructor
    · rw [precedes]
      · exact hij
      · rintro b q y w _ _ _ _ rfl rfl _ _
        exact hnot b q y w rfl rfl
    · rw [precedes]
      · exact hij
      · rintro _ _ _ _ b q y w _ _ rfl rfl
        exact hnot b q y w rfl rfl
  | case4 q w => exact ⟨by rw [precedes]; exact hij; simp, by rw [precedes]; exact hij; simp⟩

/-- Inside `loop`, following `w` is on the same iteration of it as `w`. -/
theorem Earlier.follow (h : Earlier loop r u q w) (hp : loop <+: p) :
    Earlier loop r u p (follow p q w) := by
  induction h generalizing p with
  | here a r u q w hlt =>
    obtain ⟨p, rfl⟩ := hp
    simp only [singleton_append, Unroll.follow, if_true]
    exact .here a r u p _ hlt
  | inside a x _ ih =>
    obtain ⟨p, rfl⟩ := hp
    simp only [cons_append, Unroll.follow, if_true]
    exact .inside a x (ih (prefix_append _ p))

theorem not_earlier_zeros : ¬Earlier loop r u p (Unroll.follow p [] []) := by
  induction p generalizing loop r u with
  | nil =>
    intro h
    cases h
  | cons a p ih =>
    intro h
    simp only [Unroll.follow] at h
    cases h with
    | here _ _ _ _ _ hlt => omega
    | inside _ _ h => exact ih h

/-- Only on the iterations of `w` can something be earlier than what follows `w`. -/
theorem Earlier.of_follow (h : Earlier loop r u p (Unroll.follow p q w)) :
    Earlier loop r u q w := by
  fun_induction Unroll.follow p q w generalizing loop r u with
  | case1 p a q y w ih =>
    cases h with
    | here _ r u _ _ hlt => exact .here a r u q w hlt
    | inside _ _ h => exact .inside a y (ih h)
  | case2 a p b q y w hab ih =>
    cases h with
    | here _ _ _ _ _ hlt => omega
    | inside _ _ h => exact absurd h not_earlier_zeros
  | case3 a p q w hnot ih =>
    cases h with
    | here _ _ _ _ _ hlt => omega
    | inside _ _ h => exact absurd h not_earlier_zeros
  | case4 => cases h

section Pass

variable {trip : List ℕ → ℕ} {code : List (ℕ × List ℕ)} {x y : Instance} {c : ℕ × List ℕ}

/-- The instance of step `c` on the iterations of `x`. -/
def followBy (c : ℕ × List ℕ) (x : Instance) : Instance :=
  ⟨c.1, c.2, follow c.2 x.path x.iteration⟩

theorem followBy_mem (htrip : ∀ loop, 0 < trip loop) (hx : x ∈ unroll trip code) (hc : c ∈ code) :
    followBy c x ∈ unroll trip code :=
  (mem_unroll trip).2 ⟨hc, ((mem_unroll trip).1 hx).2.follow htrip⟩

/-- On the way from a step before `c` to a step after it, `c` is executed. -/
theorem exists_pass (htrip : ∀ loop, 0 < trip loop) (hpw : (unroll trip code).Pairwise Precedes)
    (hc : c ∈ code) (hx : x ∈ unroll trip code)
    (hy : y ∈ unroll trip code) (hxy : Precedes x y) (hxc : x.index < c.1) (hcy : c.1 < y.index) :
    ∃ z ∈ unroll trip code, z.index = c.1 ∧ Precedes x z ∧ Precedes z y := by
  refine ⟨followBy c x, followBy_mem htrip hx hc, rfl, (precedes_follow hxc _ _ _).1, ?_⟩
  have hne : followBy c x ≠ y := fun h => hcy.ne (congrArg Instance.index h)
  have : Std.Symm fun x y => Precedes x y ∨ Precedes y x := ⟨fun _ _ => Or.symm⟩
  have htotal : (unroll trip code).Pairwise fun x y => Precedes x y ∨ Precedes y x := hpw.imp Or.inl
  rcases htotal.forall (followBy_mem htrip hx hc) hy hne with h | h
  · exact h
  · -- `y` would be on an earlier iteration, of a loop that `x` is in as well
    obtain ⟨loop, hloop⟩ := exists_earlier h hcy.le
    exact absurd hxy (precedes_asymm (hloop.of_follow.precedes _ _))

/-- On the way to a later iteration of a loop, a step of the loop is executed before each
textually later one. -/
theorem exists_pass_backedge (htrip : ∀ loop, 0 < trip loop) (hc : c ∈ code)
    (hy : y ∈ unroll trip code) {loop : List ℕ}
    (hloop : Earlier loop x.path x.iteration y.path y.iteration) (hin : loop <+: c.2)
    (hcy : c.1 < y.index) :
    ∃ z ∈ unroll trip code, z.index = c.1 ∧ Precedes x z ∧ Precedes z y :=
  ⟨followBy c y, followBy_mem htrip hy hc, rfl, (hloop.follow hin).precedes _ _,
    (precedes_follow hcy _ _ _).2⟩

variable {a b : Instance} {mid post pre : List Instance}
  (hpw : (unroll trip code).Pairwise Precedes)
  (htrace : unroll trip code = pre ++ a :: (mid ++ b :: post))
include hpw htrace

/-- Between two points of an execution runs what the order puts between them. -/
theorem mem_between {z : Instance} (hx : x ∈ a :: mid) (hz : z ∈ unroll trip code)
    (hxz : Precedes x z) (hzb : Precedes z b) : z ∈ mid := by
  rw [htrace] at hpw hz
  obtain ⟨-, hpw, hpre⟩ := pairwise_append.1 hpw
  obtain ⟨ha, hpw⟩ := pairwise_cons.1 hpw
  obtain ⟨-, hpw, -⟩ := pairwise_append.1 hpw
  obtain ⟨hb, -⟩ := pairwise_cons.1 hpw
  have hx' : x = a ∨ x ∈ mid ++ b :: post :=
    (mem_cons.1 hx).imp_right (mem_append_left _)
  rcases mem_append.1 hz with hz | hz
  · exact absurd (hpre z hz x (mem_cons.2 hx')) (precedes_asymm hxz)
  rcases mem_cons.1 hz with rfl | hz
  · rcases hx' with rfl | hx'
    · exact absurd hxz (precedes_irrefl _ _ _)
    · exact absurd (ha x hx') (precedes_asymm hxz)
  rcases mem_append.1 hz with hz | hz
  · exact hz
  rcases mem_cons.1 hz with rfl | hz
  · exact absurd hzb (precedes_irrefl _ _ _)
  · exact absurd (hb z hz) (precedes_asymm hzb)

/-- What runs before a point of an execution precedes it. -/
theorem precedes_of_mem (hx : x ∈ a :: mid) : Precedes x b := by
  rw [htrace, ← cons_append] at hpw
  exact (pairwise_append.1 (pairwise_append.1 hpw).2.1).2.2 x hx b mem_cons_self

/-- What runs after a point of an execution follows it. -/
theorem precedes_of_mem_mid (hx : x ∈ mid) : Precedes a x := by
  rw [htrace] at hpw
  exact (pairwise_cons.1 (pairwise_append.1 hpw).2.1).1 x (mem_append_left _ hx)

end Pass

end Unroll
