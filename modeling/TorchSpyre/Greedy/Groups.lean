import Mathlib
import TorchSpyre.Greedy.Solver

/-!
# Paired groups of the greedy solver

What the solver does with one buffer, with one paired group and in one step of the walk, without
regard to addresses. A buffer gets an address and enters the usage table, or nothing happens. The
members of a group all do, or the state is the one before with the group rejected
(`tryAllocateGroup_spec`). None of this looks at the names that have been rejected.

`tryAllocate_spec` says it for a step of the walk, together with an invariant of the single
placements.
-/

open List

namespace TorchSpyre

open Checked

namespace Greedy

variable {limit alignment : ℕ} {buffers : List LifetimeBoundBuffer} {g : Groups} {s s' : State}

/-! ## Paired groups -/

section Groups

/-- What the assertions on groups establish. -/
structure GroupsOk (limit : ℕ) (buffers : List LifetimeBoundBuffer) (g : Groups) : Prop where
  mem : ∀ n G, g.byName n = some G → ∀ m ∈ G, m ∈ buffers ∧ g.byName m.name = some G
  self : ∀ n G, g.byName n = some G → n ∈ G.map (·.name)
  nodup : ∀ n G, g.byName n = some G → (G.map (·.name)).Nodup
  barred : ∀ n G, g.byName n = some G → (∃ m ∈ G, m ∉ placeable limit buffers) →
    ∀ m ∈ G, m.name ∈ g.rejected
  together : ∀ n G, g.byName n = some G → (∃ m ∈ G, m.name ∈ g.rejected) →
    ∀ m ∈ G, m.name ∈ g.rejected
  grouped : ∀ n ∈ g.rejected, g.byName n ≠ none

theorem addMembers_spec {group : List LifetimeBoundBuffer} {names : List String}
    {f f' : String → Option (List LifetimeBoundBuffer)}
    (h : addMembers buffers group names f = .ok f') :
    (∀ n ∈ names, (bufByName buffers n).isSome = true) ∧ (∀ n ∈ names, f n = none) ∧
      ∀ n, f' n = if n ∈ names then some group else f n := by
  induction names generalizing f with
  | nil =>
    obtain rfl := Except.ok.inj h
    exact ⟨by simp, by simp, by simp⟩
  | cons name names ih =>
    simp only [addMembers, bind_eq_ok_iff, guardE_eq_ok_iff] at h
    obtain ⟨-, hsome, -, hnone, hrest⟩ := h
    obtain ⟨hfound, hfree, hf'⟩ := ih hrest
    have hname : f name = none := by simpa using hnone
    refine ⟨?_, ?_, fun n => ?_⟩
    · rintro n (_ | ⟨_, hn⟩)
      · exact hsome
      · exact hfound n hn
    · rintro n (_ | ⟨_, hn⟩)
      · exact hname
      · by_cases hnn : n = name
        · exact hnn ▸ hname
        · simpa [hnn] using hfree n hn
    · rw [hf' n]
      by_cases hnn : n = name
      · simp [hnn]
      · simp [hnn]

theorem map_name_filterMap {l : List String} (h : ∀ n ∈ l, (bufByName buffers n).isSome = true) :
    (l.filterMap (bufByName buffers)).map (·.name) = l := by
  induction l with
  | nil => rfl
  | cons n l ih =>
    obtain ⟨b, hb⟩ := Option.isSome_iff_exists.1 (h n (by simp))
    rw [filterMap_cons_some hb, map_cons, (mem_of_bufByName hb).2,
      ih fun k hk => h k (by simp [hk])]

/-- Entering a group of new members. -/
theorem GroupsOk.insert (hu : UniquelyNamed buffers) (hg : GroupsOk limit buffers g)
    {G₀ : List LifetimeBoundBuffer} (hmem : ∀ m ∈ G₀, m ∈ buffers) (hnd : (G₀.map (·.name)).Nodup)
    (hfree : ∀ n ∈ G₀.map (·.name), g.byName n = none)
    {f : String → Option (List LifetimeBoundBuffer)}
    (hf : ∀ n, f n = if n ∈ G₀.map (·.name) then some G₀ else g.byName n) :
    GroupsOk limit buffers
      ⟨f, if G₀.any fun m => m.name ∉ (placeable limit buffers).map (·.name) then
          g.rejected ++ G₀.map (·.name) else g.rejected⟩ := by
  obtain ⟨rej, hrej⟩ : ∃ rej, rej = if G₀.any fun m =>
      m.name ∉ (placeable limit buffers).map (·.name) then
      g.rejected ++ G₀.map (·.name) else g.rejected := ⟨_, rfl⟩
  rw [← hrej]
  -- an entry is the new group, or an old one of which nothing has changed
  have hcases : ∀ n G, f n = some G → n ∈ G₀.map (·.name) ∧ G = G₀ ∨
      n ∉ G₀.map (·.name) ∧ g.byName n = some G := by
    intro n G hn
    rw [hf n] at hn
    split_ifs at hn with hin
    · exact .inl ⟨hin, (Option.some.inj hn).symm⟩
    · exact .inr ⟨hin, hn⟩
  have hfresh : ∀ n, g.byName n ≠ none → n ∉ G₀.map (·.name) := fun n hn hin => hn (hfree n hin)
  have hkeep : ∀ n, g.byName n ≠ none → (n ∈ rej ↔ n ∈ g.rejected) := by
    intro n hn
    rw [hrej]
    split_ifs with hany
    · rw [mem_append]
      exact or_iff_left (hfresh n hn)
    · rfl
  have hin₀ : ∀ m ∈ G₀, m.name ∈ G₀.map (·.name) := fun m hm => mem_map_of_mem hm
  refine ⟨fun n G hn m hm => ?_, fun n G hn => ?_, fun n G hn => ?_, fun n G hn hbar m hm => ?_,
    fun n G hn hone m hm => ?_, fun n hn => ?_⟩
  · rcases hcases n G hn with ⟨-, rfl⟩ | ⟨-, hn⟩
    · exact ⟨hmem m hm, (hf m.name).trans (if_pos (hin₀ m hm))⟩
    · have hmG := hg.mem n G hn m hm
      exact ⟨hmG.1, ((hf m.name).trans (if_neg (hfresh _ (by simp [hmG.2])))).trans hmG.2⟩
  · rcases hcases n G hn with ⟨hin, rfl⟩ | ⟨-, hn⟩
    · exact hin
    · exact hg.self n G hn
  · rcases hcases n G hn with ⟨-, rfl⟩ | ⟨-, hn⟩
    · exact hnd
    · exact hg.nodup n G hn
  · rcases hcases n G hn with ⟨-, rfl⟩ | ⟨-, hn⟩
    · obtain ⟨k, hk, hkp⟩ := hbar
      have hany :
          (G.any fun m => decide (m.name ∉ (placeable limit buffers).map (·.name))) = true := by
        rw [any_eq_true]
        refine ⟨k, hk, decide_eq_true fun hkn => hkp ?_⟩
        obtain ⟨b, hb, hbn⟩ := mem_map.1 hkn
        rwa [← hu.eq_of_name_eq (mem_placeable.1 hb).1 (hmem k hk) hbn]
      rw [hrej, if_pos hany]
      exact mem_append_right _ (hin₀ m hm)
    · rw [hkeep m.name (by simp [(hg.mem n G hn m hm).2])]
      exact hg.barred n G hn hbar m hm
  · rcases hcases n G hn with ⟨-, rfl⟩ | ⟨-, hn⟩
    · obtain ⟨k, hk, hkr⟩ := hone
      rw [hrej] at hkr ⊢
      split_ifs at hkr ⊢ with hany
      · exact mem_append_right _ (hin₀ m hm)
      · exact absurd (hfree _ (hin₀ k hk)) (hg.grouped _ hkr)
    · obtain ⟨k, hk, hkr⟩ := hone
      rw [hkeep k.name (by simp [(hg.mem n G hn k hk).2])] at hkr
      rw [hkeep m.name (by simp [(hg.mem n G hn m hm).2])]
      exact hg.together n G hn ⟨k, hk, hkr⟩ m hm
  · change f n ≠ none
    rw [hf n]
    split_ifs with hin
    · simp
    · refine hg.grouped n ?_
      dsimp only at hn
      rw [hrej] at hn
      split_ifs at hn with hany
      · exact (mem_append.1 hn).resolve_right hin
      · exact hn

theorem GroupsOk.addGroup (hu : UniquelyNamed buffers) {g' : Groups} (hg : GroupsOk limit buffers g)
    {root : LifetimeBoundBuffer} (hroot : root ∈ buffers)
    (h : addGroup buffers (placeable limit buffers) g root = .ok g') :
    GroupsOk limit buffers g' := by
  unfold Greedy.addGroup at h
  split_ifs at h with hnil
  · obtain rfl := Except.ok.inj h
    exact hg
  simp only [bind_eq_ok_iff, guardE_eq_ok_iff] at h
  obtain ⟨-, hnd, f, hadd, hg'⟩ := h
  obtain ⟨hfound, hfree, hf⟩ := addMembers_spec hadd
  obtain ⟨G₀, hG₀⟩ : ∃ G₀, G₀ = root :: root.pairedWith.filterMap (bufByName buffers) := ⟨_, rfl⟩
  have hnames : G₀.map (·.name) = root.name :: root.pairedWith := by
    rw [hG₀, map_cons, map_name_filterMap fun n hn => hfound n (by simp [hn])]
  have hmem : ∀ m ∈ G₀, m ∈ buffers := by
    intro m hm
    rw [hG₀] at hm
    rcases mem_cons.1 hm with rfl | hm
    · exact hroot
    · obtain ⟨n, -, hn⟩ := mem_filterMap.1 hm
      exact (mem_of_bufByName hn).1
  rw [← hG₀] at hg' hf
  rw [← hnames] at hnd hfree hf
  obtain rfl := Except.ok.inj hg'
  exact hg.insert hu hmem hnd hfree hf

theorem GroupsOk.of_pairedGroups (hu : UniquelyNamed buffers)
    (h : pairedGroups buffers (placeable limit buffers) = .ok g) : GroupsOk limit buffers g := by
  refine foldE_inv (I := fun _ g => GroupsOk limit buffers g)
    (fun pre root post g g' hl hI hadd => hI.addGroup hu (by simp [hl]) hadd) ?_ h
  exact ⟨by simp, by simp, by simp, by simp, by simp, by simp⟩

/-- Another group shares no member with this one. -/
theorem GroupsOk.closed (hg : GroupsOk limit buffers g) {n n' : String}
    {G G' : List LifetimeBoundBuffer} (hG : g.byName n = some G) (hG' : g.byName n' = some G') :
    ∀ k ∈ G', ∀ m ∈ G', k.name ∈ G.map (·.name) → m.name ∈ G.map (·.name) := by
  intro k hk m hm hin
  obtain ⟨k', hk', hkn⟩ := mem_map.1 hin
  have h₁ := (hg.mem n' G' hG' k hk).2
  have h₂ := (hg.mem n G hG k' hk').2
  rw [hkn] at h₂
  obtain rfl := Option.some.inj (h₁.symm.trans h₂)
  exact mem_map_of_mem hm

end Groups

/-! ## One buffer -/

/-- The state with other rejected names. -/
def State.withRejected (r : List String) (s : State) : State :=
  { s with rejected := r }

/-- Every entry of the usage table has an address. -/
def State.Used (s : State) : Prop :=
  ∀ u ∈ s.usage, s.address u.name ≠ none

variable {b : LifetimeBoundBuffer}

/-- A parent found is in use, declared, not handed on yet and large enough. -/
theorem inPlaceParent_spec {p : LifetimeBoundBuffer} {l : List String}
    (h : inPlaceParent s b l = some p) :
    p ∈ s.usage ∧ p.name ∈ l ∧ p.name ∉ s.reusedParents ∧ b.size ≤ p.size := by
  induction l with
  | nil => simp [inPlaceParent] at h
  | cons n l ih =>
    have htail (h : inPlaceParent s b l = some p) :
        p ∈ s.usage ∧ p.name ∈ n :: l ∧ p.name ∉ s.reusedParents ∧ b.size ≤ p.size := by
      obtain ⟨h₁, h₂, h₃, h₄⟩ := ih h
      exact ⟨h₁, mem_cons_of_mem _ h₂, h₃, h₄⟩
    rw [inPlaceParent] at h
    split_ifs at h with hr
    · exact htail h
    · split at h
      · exact htail h
      · next u hfind =>
        split_ifs at h with hsize
        · obtain rfl := Option.some.inj h
          have hname : u.name = n := by simpa using find?_some hfind
          exact ⟨mem_of_find?_eq_some hfind, by simp [hname], hname ▸ hr, hsize⟩
        · exact htail h

theorem inPlaceParent_withRejected (r : List String) (s : State) (b : LifetimeBoundBuffer) :
    ∀ names, inPlaceParent (s.withRejected r) b names = inPlaceParent s b names
  | [] => rfl
  | n :: names => by
    simp only [inPlaceParent, inPlaceParent_withRejected r s b names]
    rfl

/-- Placing one buffer does not look at the rejected names. -/
theorem tryAllocateOne_withRejected (r : List String)
    (h : tryAllocateOne limit alignment s b = .ok s') :
    tryAllocateOne limit alignment (s.withRejected r) b = .ok (s'.withRejected r) := by
  unfold tryAllocateOne at h ⊢
  rw [inPlaceParent_withRejected]
  cases hp : inPlaceParent s b b.inPlaceParents with
  | some parent =>
    rw [hp] at h
    obtain rfl := Except.ok.inj h
    rfl
  | none =>
    simp only [hp] at h ⊢
    obtain ⟨block, hblock, h⟩ := bind_eq_ok_iff.1 h
    refine bind_eq_ok_iff.2 ⟨block, hblock, ?_⟩
    cases block with
    | none =>
      obtain rfl := Except.ok.inj h
      rfl
    | some addr =>
      obtain rfl := Except.ok.inj h
      rfl

/-- One buffer gets an address and enters the usage table. -/
structure Entered (s : State) (b : LifetimeBoundBuffer) (s' : State) : Prop where
  rejected : s'.rejected = s.rejected
  usage : s'.usage = s.usage ++ [b]
  placed : s'.address b.name ≠ none
  other : ∀ n, n ≠ b.name → s'.address n = s.address n

theorem Entered.used (h : Entered s b s') (hused : s.Used) : s'.Used := by
  intro u hu
  by_cases hub : u.name = b.name
  · exact hub ▸ h.placed
  · rw [h.other _ hub]
    rw [h.usage] at hu
    rcases mem_append.1 hu with hu | hu
    · exact hused u hu
    · exact absurd (congrArg _ (mem_singleton.1 hu)) hub

/-- A buffer is placed, or nothing happens. -/
theorem tryAllocateOne_cases (hused : s.Used) (hnone : s.address b.name = none)
    (h : tryAllocateOne limit alignment s b = .ok s') : Entered s b s' ∨ s' = s := by
  unfold tryAllocateOne at h
  cases hp : inPlaceParent s b b.inPlaceParents with
  | some parent =>
    rw [hp] at h
    obtain rfl := Except.ok.inj h
    refine .inl ⟨rfl, rfl, ?_, fun n hn => Function.update_of_ne hn _ _⟩
    simpa using hused parent (inPlaceParent_spec hp).1
  | none =>
    simp only [hp] at h
    obtain ⟨block, -, h⟩ := bind_eq_ok_iff.1 h
    cases block with
    | none =>
      obtain rfl := Except.ok.inj h
      exact .inr (by rw [← hnone, Function.update_eq_self])
    | some addr =>
      obtain rfl := Except.ok.inj h
      exact .inl ⟨rfl, rfl, by simp, fun n hn => Function.update_of_ne hn _ _⟩

theorem exists_tryAllocateOne (limit alignment : ℕ) (hused : s.Used) (b : LifetimeBoundBuffer) :
    ∃ s', tryAllocateOne limit alignment s b = .ok s' := by
  have hassert : (s.usage.all fun b => (s.address b.name).isSome) = true := by
    rw [all_eq_true]
    exact fun u hu => Option.isSome_iff_ne_none.2 (hused u hu)
  have hfind : findFreeBlock limit alignment s b.size =
      .ok (freeBlock limit alignment s b.size) := by
    rw [findFreeBlock, guardE, if_pos hassert]
    rfl
  unfold tryAllocateOne
  cases inPlaceParent s b b.inPlaceParents with
  | some p => exact ⟨_, rfl⟩
  | none =>
    simp only [hfind]
    cases freeBlock limit alignment s b.size with
    | some addr => exact ⟨_, rfl⟩
    | none => exact ⟨_, rfl⟩

/-! ## One group -/

variable {G : List LifetimeBoundBuffer} {before : State} {I : State → Prop}

/-- The state before a group, with its members rejected. -/
def State.reject (s : State) (G : List LifetimeBoundBuffer) : State :=
  s.withRejected (s.rejected ++ G.map (·.name))

/-- What a group that is placed has done, from `s` on. -/
structure GroupPlaced (limit alignment : ℕ) (before : State) (G : List LifetimeBoundBuffer)
    (s : State) (rest : List LifetimeBoundBuffer) (s' : State) : Prop where
  rejected : s'.rejected = before.rejected
  used : s'.Used
  other : ∀ n, n ∉ G.map (·.name) → s'.address n = before.address n
  placed : ∀ m ∈ G, s'.address m.name ≠ none
  again : ∀ r, tryAllocateGroup limit alignment (before.withRejected r) G (s.withRejected r) rest =
    .ok (s'.withRejected r)

/-- From a state in which the members are not placed, all of them are, or none is and nothing
else has changed. The members before `rest` have an address already, and `I` is kept by placing
single members. -/
theorem tryAllocateGroup_spec (hnd : (G.map (·.name)).Nodup)
    (hbefore : ∀ m ∈ G, before.address m.name = none)
    (hI : ∀ m ∈ G, ∀ s₁ s₂, s₁.address m.name = none →
      tryAllocateOne limit alignment s₁ m = .ok s₂ → I s₁ → I s₂) :
    ∀ {s : State} (pre rest : List LifetimeBoundBuffer), G = pre ++ rest → s.Used → I s →
      s.rejected = before.rejected →
      (∀ n, n ∉ pre.map (·.name) → s.address n = before.address n) →
      (∀ m ∈ pre, s.address m.name ≠ none) →
      ∃ s', tryAllocateGroup limit alignment before G s rest = .ok s' ∧
        (GroupPlaced limit alignment before G s rest s' ∧ I s' ∨ s' = before.reject G)
  | s, pre, [], hsplit, hused, hs, hrej, hframe, hpre => by
    rw [append_nil] at hsplit
    subst hsplit
    exact ⟨s, rfl, .inl ⟨⟨hrej, hused, hframe, hpre, fun _ => rfl⟩, hs⟩⟩
  | s, pre, m :: rest, hsplit, hused, hs, hrej, hframe, hpre => by
    have hm : m ∈ G := by simp [hsplit]
    have hfresh : m.name ∉ pre.map (·.name) := by
      rw [hsplit, map_append, nodup_append] at hnd
      exact fun hin => hnd.2.2 _ hin m.name (by simp) rfl
    have hnone : s.address m.name = none := (hframe _ hfresh).trans (hbefore m hm)
    obtain ⟨s₁, hone⟩ := exists_tryAllocateOne limit alignment hused m
    have hnext : ∀ p r t, tryAllocateOne limit alignment r m = .ok t →
        tryAllocateGroup limit alignment p G r (m :: rest) =
          if (t.address m.name).isSome then tryAllocateGroup limit alignment p G t rest
          else .ok ⟨p.usage, fun n => if n ∈ G.map (·.name) then none else t.address n,
            p.reusedParents, t.rejected ++ G.map (·.name)⟩ := by
      intro p r t hrt
      rw [tryAllocateGroup, hrt]
      rfl
    rw [hnext before s s₁ hone]
    rcases tryAllocateOne_cases hused hnone hone with henter | rfl
    · have hplaced : (s₁.address m.name).isSome = true := Option.isSome_iff_ne_none.2 henter.placed
      rw [if_pos hplaced]
      have hrest := tryAllocateGroup_spec hnd hbefore hI (pre ++ [m]) rest
        (by simpa using hsplit) (henter.used hused) (hI m hm s s₁ hnone hone hs)
        (henter.rejected.trans hrej) (fun n hn => ?_) (fun k hk => ?_)
      · obtain ⟨s', hrun, hend⟩ := hrest
        refine ⟨s', hrun, hend.imp_left fun ⟨hp, hs'⟩ =>
          ⟨⟨hp.rejected, hp.used, hp.other, hp.placed, fun r => ?_⟩, hs'⟩⟩
        rw [hnext _ _ _ (tryAllocateOne_withRejected r hone), if_pos (by exact hplaced)]
        exact hp.again r
      · rw [map_append, mem_append, not_or] at hn
        exact (henter.other n (by simpa using hn.2)).trans (hframe n hn.1)
      · rcases mem_append.1 hk with hk | hk
        · rw [henter.other _ fun heq => hfresh (heq ▸ mem_map_of_mem hk)]
          exact hpre k hk
        · exact mem_singleton.1 hk ▸ henter.placed
    · have haddr : (fun n => if n ∈ G.map (·.name) then none else s₁.address n) =
          before.address := by
        funext n
        split_ifs with hn
        · obtain ⟨k, hk, rfl⟩ := mem_map.1 hn
          exact (hbefore k hk).symm
        · rw [hsplit, map_append, mem_append, not_or] at hn
          exact hframe n hn.1
      rw [if_neg (by simp [hnone]), haddr, hrej]
      exact ⟨_, rfl, .inr rfl⟩

/-! ## One step of the walk -/

/-- What holds between two steps : the usage table has addresses, rejected names have none and
are grouped, and a group is placed or rejected as a whole. -/
structure Steady (g : Groups) (s : State) : Prop where
  used : s.Used
  off : ∀ n ∈ s.rejected, s.address n = none
  grouped : ∀ n ∈ s.rejected, g.byName n ≠ none
  whole : ∀ n G, g.byName n = some G → (∃ m ∈ G, s.address m.name ≠ none) →
    ∀ m ∈ G, s.address m.name ≠ none
  together : ∀ n G, g.byName n = some G → (∃ m ∈ G, m.name ∈ s.rejected) →
    ∀ m ∈ G, m.name ∈ s.rejected

/-- What is rejected stays rejected, and what has an address keeps one. -/
structure Later (s s' : State) : Prop where
  rejected : ∀ n ∈ s.rejected, n ∈ s'.rejected
  placed : ∀ n, s.address n ≠ none → s'.address n ≠ none

theorem Later.refl (s : State) : Later s s :=
  ⟨fun _ h => h, fun _ h => h⟩

theorem Later.trans (s t u : State) (h : Later s t) (h' : Later t u) : Later s u :=
  ⟨fun n hn => h'.rejected n (h.rejected n hn), fun n hn => h'.placed n (h.placed n hn)⟩

/-- A step that does not change anything but the rejected names, or that goes the same way with
any rejected names. -/
inductive Outcome (limit alignment : ℕ) (g : Groups) (s : State) (b : LifetimeBoundBuffer)
    (s' : State) : Prop
  | skipped : s' = s → s.address b.name ≠ none ∨ b.name ∈ s.rejected →
      Outcome limit alignment g s b s'
  | rejected : s' = s.withRejected s'.rejected → b.name ∈ s'.rejected →
      Outcome limit alignment g s b s'
  | placed : (g.byName b.name ≠ none → s'.address b.name ≠ none) →
      (∀ r byName, b.name ∉ r → byName b.name = g.byName b.name →
        tryAllocate limit alignment byName (s.withRejected r) b = .ok (s'.withRejected r)) →
      Outcome limit alignment g s b s'

section TryAllocate

variable {byName : String → Option (List LifetimeBoundBuffer)} {b : LifetimeBoundBuffer}
  (hnone : s.address b.name = none) (hrej : b.name ∉ s.rejected)
include hnone hrej

theorem tryAllocate_ungrouped (hb : byName b.name = none) :
    tryAllocate limit alignment byName s b = tryAllocateOne limit alignment s b := by
  simp [tryAllocate, hnone, hrej, hb]

theorem tryAllocate_grouped {G : List LifetimeBoundBuffer} (hb : byName b.name = some G) :
    tryAllocate limit alignment byName s b = tryAllocateGroup limit alignment s G s G := by
  simp [tryAllocate, hnone, hrej, hb]

end TryAllocate

/-- The names `N`, with every group they meet, get addresses. -/
theorem Steady.place (hs : Steady g s) (hrej : s'.rejected = s.rejected) (hused : s'.Used)
    {N : List String} (hother : ∀ n, n ∉ N → s'.address n = s.address n)
    (hplaced : ∀ n ∈ N, s'.address n ≠ none ∧ n ∉ s.rejected)
    (hclosed : ∀ n G, g.byName n = some G → ∀ k ∈ G, ∀ m ∈ G, k.name ∈ N → m.name ∈ N) :
    Steady g s' ∧ Later s s' := by
  refine ⟨⟨hused, fun n hn => ?_, hrej ▸ hs.grouped, fun n G hn hex m hm => ?_,
    hrej ▸ hs.together⟩, fun n hn => hrej ▸ hn, fun n hn => ?_⟩
  · rw [hrej] at hn
    rw [hother n fun hin => (hplaced n hin).2 hn]
    exact hs.off n hn
  · by_cases hmN : m.name ∈ N
    · exact (hplaced _ hmN).1
    · obtain ⟨k, hk, hka⟩ := hex
      rw [hother _ fun hkN => hmN (hclosed n G hn k hk m hm hkN)] at hka
      rw [hother _ hmN]
      exact hs.whole n G hn ⟨k, hk, hka⟩ m hm
  · by_cases hnN : n ∈ N
    · exact (hplaced n hnN).1
    · rwa [hother n hnN]

/-- A buffer without a group gets an address. -/
theorem Steady.placeOne (hg : GroupsOk limit buffers g) (hs : Steady g s)
    (hb : g.byName b.name = none) (h : Entered s b s') : Steady g s' ∧ Later s s' := by
  refine hs.place (N := [b.name]) h.rejected (h.used hs.used) (by simpa using h.other) ?_ ?_
  · intro n hn
    obtain rfl := mem_singleton.1 hn
    exact ⟨h.placed, fun hin => hs.grouped _ hin hb⟩
  · intro n G hn k hk m hm hkb
    have hkG := (hg.mem n G hn k hk).2
    rw [mem_singleton.1 hkb, hb] at hkG
    cases hkG

/-- A group that is placed. -/
theorem Steady.placeGroup (hg : GroupsOk limit buffers g) (hs : Steady g s)
    (hb : g.byName b.name = some G) (hbrej : b.name ∉ s.rejected)
    (hp : GroupPlaced limit alignment s G s G s') : Steady g s' ∧ Later s s' := by
  obtain ⟨b', hb', hbn⟩ := mem_map.1 (hg.self _ G hb)
  refine hs.place hp.rejected hp.used hp.other (fun n hn => ?_) fun n G' hn => hg.closed hb hn
  obtain ⟨m, hm, rfl⟩ := mem_map.1 hn
  exact ⟨hp.placed m hm, fun hrej => hbrej (hbn ▸ hs.together _ G hb ⟨m, hm, hrej⟩ b' hb')⟩

/-- A group that is given up. -/
theorem Steady.reject (hg : GroupsOk limit buffers g) (hs : Steady g s)
    (hb : g.byName b.name = some G) (hnone : ∀ m ∈ G, s.address m.name = none) :
    Steady g (s.reject G) ∧ Later s (s.reject G) := by
  refine ⟨⟨hs.used, fun n hn => ?_, fun n hn => ?_, hs.whole, fun n G' hn hex m hm => ?_⟩,
    fun n hn => mem_append_left _ hn, fun _ hn => hn⟩
  · rcases mem_append.1 hn with hn | hn
    · exact hs.off n hn
    · obtain ⟨m, hm, rfl⟩ := mem_map.1 hn
      exact hnone m hm
  · rcases mem_append.1 hn with hn | hn
    · exact hs.grouped n hn
    · obtain ⟨m, hm, rfl⟩ := mem_map.1 hn
      simp [(hg.mem _ G hb m hm).2]
  · by_cases hmG : m.name ∈ G.map (·.name)
    · exact mem_append_right _ hmG
    · obtain ⟨k, hk, hkr⟩ := hex
      have hkold := (mem_append.1 hkr).resolve_right fun hkG =>
        hmG (hg.closed hb hn k hk m hm hkG)
      exact mem_append_left _ (hs.together n G' hn ⟨k, hk, hkold⟩ m hm)

/-- The buffers that are tried with `b`. -/
def TriedWith (g : Groups) (b m : LifetimeBoundBuffer) : Prop :=
  g.byName b.name = none ∧ m = b ∨ ∃ G, g.byName b.name = some G ∧ m ∈ G

/-- Trying one buffer, with an invariant `I` of placing single ones. -/
theorem tryAllocate_spec (hg : GroupsOk limit buffers g) (hs : Steady g s) (hs' : I s)
    (hreject : ∀ G, I (s.reject G))
    (hI : s.address b.name = none → b.name ∉ s.rejected → ∀ m, TriedWith g b m → ∀ s₁ s₂,
      s₁.address m.name = none → tryAllocateOne limit alignment s₁ m = .ok s₂ → I s₁ → I s₂) :
    ∃ s', tryAllocate limit alignment g.byName s b = .ok s' ∧ I s' ∧ Steady g s' ∧ Later s s' ∧
      Outcome limit alignment g s b s' := by
  by_cases hskip : (s.address b.name).isSome ∨ b.name ∈ s.rejected
  · exact ⟨s, if_pos hskip, hs', hs, .refl s,
      .skipped rfl (hskip.imp_left Option.isSome_iff_ne_none.1)⟩
  rw [not_or, Option.not_isSome_iff_eq_none] at hskip
  obtain ⟨hnone, hnrej⟩ := hskip
  cases hgb : g.byName b.name with
  | none =>
    obtain ⟨s', hone⟩ := exists_tryAllocateOne limit alignment hs.used b
    have hstep : Steady g s' ∧ Later s s' := by
      rcases tryAllocateOne_cases hs.used hnone hone with henter | rfl
      · exact hs.placeOne hg hgb henter
      · exact ⟨hs, .refl _⟩
    refine ⟨s', (tryAllocate_ungrouped hnone hnrej hgb).trans hone,
      hI hnone hnrej b (.inl ⟨hgb, rfl⟩) s s' hnone hone hs', hstep.1, hstep.2,
      .placed (fun hgr => absurd hgb hgr) fun r byName hr hby => ?_⟩
    rw [tryAllocate_ungrouped (s := s.withRejected r) hnone hr (hby.trans hgb)]
    exact tryAllocateOne_withRejected r hone
  | some G =>
    obtain ⟨b', hb', hbn⟩ := mem_map.1 (hg.self _ G hgb)
    have hbefore : ∀ m ∈ G, s.address m.name = none := by
      intro m hm
      by_contra hma
      exact hs.whole _ G hgb ⟨m, hm, hma⟩ b' hb' (hbn ▸ hnone)
    rw [tryAllocate_grouped hnone hnrej hgb]
    obtain ⟨s', hrun, ⟨hp, hi⟩ | rfl⟩ := tryAllocateGroup_spec (hg.nodup _ G hgb) hbefore
      (fun m hm => hI hnone hnrej m (.inr ⟨G, hgb, hm⟩)) [] G rfl hs.used hs' rfl (fun _ _ => rfl)
      (by simp)
    · obtain ⟨hs', hlater⟩ := hs.placeGroup hg hgb hnrej hp
      refine ⟨s', hrun, hi, hs', hlater, .placed (fun _ => hbn ▸ hp.placed b' hb')
        fun r byName hr hby => ?_⟩
      rw [tryAllocate_grouped (s := s.withRejected r) hnone hr (hby.trans hgb)]
      exact hp.again r
    · obtain ⟨hs', hlater⟩ := hs.reject hg hgb hbefore
      exact ⟨_, hrun, hreject G, hs', hlater,
        .rejected rfl (mem_append_right _ (hg.self _ G hgb))⟩

/-- Dropping what has ended. -/
theorem deallocate_steady (idx : ℤ) (l : List LifetimeBoundBuffer) (hs : Steady g s) :
    Steady g (l.foldl (fun s b => if idx = b.endTime then tryDeallocate s b else s) s) ∧
      Later s (l.foldl (fun s b => if idx = b.endTime then tryDeallocate s b else s) s) := by
  refine List.foldlRecOn (motive := fun t => Steady g t ∧ Later s t) l _ ⟨hs, .refl s⟩
    fun t ⟨ht, hlater⟩ b _ => ?_
  split_ifs
  · exact ⟨⟨fun u hu => ht.used u (mem_of_mem_erase hu), ht.off, ht.grouped, ht.whole,
      ht.together⟩, hlater.rejected, hlater.placed⟩
  · exact ⟨ht, hlater⟩

/-- The start of a walk. -/
theorem Steady.start (hg : GroupsOk limit buffers g) :
    Steady g ⟨[], fun _ => none, [], g.rejected⟩ :=
  ⟨by simp [State.Used], fun _ _ => rfl, hg.grouped, by simp, hg.together⟩

end Greedy

end TorchSpyre
