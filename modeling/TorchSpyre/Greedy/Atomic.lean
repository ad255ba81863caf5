import Mathlib
import TorchSpyre.Greedy.Safe

/-!
# Paired groups are placed as a whole

A paired group is tried when the first of its members starts. Either every member gets an
address, or the usage table and the handed-on parents are those from before the group
(`tryAllocateGroup_cases`). So what the solver does with the other buffers is what it does
where the members of the groups without an address are barred from the start : the two walks
go through the same states but for the names of rejected members (`tick_follow`).

Nothing here rests on the capacity or the alignment.
-/

open List

namespace TorchSpyre

open Checked

namespace Greedy

variable {limit alignment : ℕ} {buffers : List LifetimeBoundBuffer} {g : Groups} {s s' : State}

/-! ## A group that is given up -/

variable {b : LifetimeBoundBuffer} {G P : List LifetimeBoundBuffer} {before : State}

theorem rejected_tryAllocateOne (h : tryAllocateOne limit alignment s b = .ok s') :
    s'.rejected = s.rejected := by
  have h' : tryAllocateOne limit alignment s b = .ok (s'.withRejected s.rejected) :=
    tryAllocateOne_withRejected s.rejected h
  have heq := Except.ok.inj (h.symm.trans h')
  rw [heq]
  rfl

/-- A group that is given up leaves the usage table and the handed-on parents as they were,
whatever the state. -/
theorem tryAllocateGroup_rollback :
    ∀ {s : State} (rest : List LifetimeBoundBuffer), s.rejected = before.rejected →
      tryAllocateGroup limit alignment before G s rest = .ok s' →
      s'.rejected = before.rejected ∨ s'.usage = before.usage ∧
        s'.reusedParents = before.reusedParents ∧ ∀ m ∈ G, s'.address m.name = none
  | s, [], hrej, h => .inl (Except.ok.inj h ▸ hrej)
  | s, m :: rest, hrej, h => by
    rw [tryAllocateGroup] at h
    obtain ⟨s₁, hone, h⟩ := bind_eq_ok_iff.1 h
    split_ifs at h
    · exact tryAllocateGroup_rollback rest ((rejected_tryAllocateOne hone).trans hrej) h
    · obtain rfl := Except.ok.inj h
      exact .inr ⟨rfl, rfl, fun m hm => if_pos (mem_map_of_mem hm)⟩

/-! ## The walk without the unplaced groups -/

theorem tryAllocate_outcome (hg : GroupsOk limit buffers g) (hs : Steady g s)
    (h : tryAllocate limit alignment g.byName s b = .ok s') :
    Steady g s' ∧ Later s s' ∧ Outcome limit alignment g s b s' := by
  obtain ⟨t, hrun, -, hout⟩ := tryAllocate_spec (I := fun _ => True) (b := b) hg hs trivial
    (fun _ => trivial)
    fun _ _ m _ s₁ s₂ _ (_ : tryAllocateOne limit alignment s₁ m = .ok s₂) _ => trivial
  rwa [Except.ok.inj (h.symm.trans hrun)]

section Follow

variable {keep : String → Bool} {r : List String} {e : State}
  {byName : String → Option (List LifetimeBoundBuffer)}

/-- What `e`, the state a walk leads to, says of the names that are kept in the other walk. -/
structure Kept (g : Groups) (e : State) (keep : String → Bool) (r : List String)
    (byName : String → Option (List LifetimeBoundBuffer)) : Prop where
  off : ∀ n, keep n = false → e.address n = none ∧ g.byName n ≠ none
  on : ∀ n, keep n = true → n ∉ e.rejected ∧ n ∉ r ∧ byName n = g.byName n

/-- Trying one buffer in both walks. -/
theorem tryAllocate_follow (hg : GroupsOk limit buffers g) (hkeep : Kept g e keep r byName)
    (hs : Steady g s) {b : LifetimeBoundBuffer}
    (h : tryAllocate limit alignment g.byName s b = .ok s') :
    Steady g s' ∧ Later s s' ∧ (Later s' e →
      if keep b.name then
        tryAllocate limit alignment byName (s.withRejected r) b = .ok (s'.withRejected r)
      else s'.withRejected r = s.withRejected r) := by
  obtain ⟨hs', hlater, hout⟩ := tryAllocate_outcome hg hs h
  refine ⟨hs', hlater, fun he => ?_⟩
  split_ifs with hb
  · obtain ⟨hrej, hr, hby⟩ := hkeep.on _ hb
    rcases hout with ⟨rfl, hskip⟩ | ⟨-, hin⟩ | ⟨-, hagain⟩
    · rcases hskip with hsome | hin
      · exact if_pos (.inl (Option.isSome_iff_ne_none.2 hsome))
      · exact absurd (he.rejected _ hin) hrej
    · exact absurd (he.rejected _ hin) hrej
    · exact hagain r byName hr hby
  · obtain ⟨hnone, hgr⟩ := hkeep.off _ (Bool.eq_false_iff.2 hb)
    rcases hout with ⟨rfl, -⟩ | ⟨heq, -⟩ | ⟨hplaced, -⟩
    · rfl
    · rw [heq]
      rfl
    · exact absurd hnone (he.placed _ (hplaced hgr))

/-- Dropping what has ended in both walks. -/
theorem deallocate_follow (idx : ℤ) {p : LifetimeBoundBuffer → Bool} :
    ∀ (l : List LifetimeBoundBuffer) (s : State), (∀ b ∈ l, p b = false → b ∉ s.usage) →
      (l.filter p).foldl (fun s b => if idx = b.endTime then tryDeallocate s b else s)
          (s.withRejected r) =
        (l.foldl (fun s b => if idx = b.endTime then tryDeallocate s b else s) s).withRejected r
  | [], _, _ => rfl
  | b :: l, s, hoff => by
    have hstep : ∀ c ∈ l, p c = false →
        c ∉ (if idx = b.endTime then tryDeallocate s b else s).usage := by
      intro c hc hp hin
      refine hoff c (mem_cons_of_mem _ hc) hp ?_
      split_ifs at hin with hend
      · exact mem_of_mem_erase hin
      · exact hin
    rw [foldl_cons, ← deallocate_follow idx l _ hstep]
    by_cases hp : p b = true
    · rw [filter_cons_of_pos hp, foldl_cons]
      split_ifs <;> rfl
    · rw [filter_cons_of_neg hp]
      have hb := hoff b mem_cons_self (Bool.eq_false_iff.2 hp)
      split_ifs
      · rw [tryDeallocate, erase_of_not_mem hb]
      · rfl

variable {P : List LifetimeBoundBuffer} {idx : ℤ}

/-- One tick in both walks. -/
theorem tick_follow (hg : GroupsOk limit buffers g) (hkeep : Kept g e keep r byName)
    (hs : Steady g s) (h : tick limit alignment g.byName P s idx = .ok s') :
    Steady g s' ∧ Later s s' ∧ (Later s' e →
      tick limit alignment byName (P.filter fun b => keep b.name) (s.withRejected r) idx =
        .ok (s'.withRejected r)) := by
  obtain ⟨hs₁, hlater₁⟩ := deallocate_steady idx P hs
  obtain ⟨hs', hlater, hsim⟩ := foldE_follow (f := tryAllocate limit alignment g.byName)
    (p := fun b : LifetimeBoundBuffer => keep b.name) Later.refl Later.trans
    (fun b _ t t' ht htry => tryAllocate_follow hg hkeep ht htry) hs₁ h
  refine ⟨hs', .trans _ _ _ hlater₁ hlater, fun he => ?_⟩
  have hoff : ∀ b ∈ P, keep b.name = false → b ∉ s.usage := fun b _ hb hin =>
    ((hlater₁.trans _ _ _ hlater).trans _ _ _ he).placed _ (hs.used b hin) (hkeep.off _ hb).1
  rw [tick, deallocate_follow idx P s hoff, filter_comm]
  exact hsim he

/-- Nothing happens at a tick at which nothing starts or ends. -/
theorem tick_idle (h : ∀ b ∈ P, b.startTime ≠ idx ∧ b.endTime ≠ idx) (s : State) :
    tick limit alignment byName P s idx = .ok s := by
  have hstart : P.filter (fun b => idx = b.startTime) = [] :=
    filter_eq_nil_iff.2 fun b hb => by simpa using (h b hb).1.symm
  have hend : P.foldl (fun s b => if idx = b.endTime then tryDeallocate s b else s) s = s :=
    List.foldlRecOn (motive := fun t => t = s) P _ rfl fun t ht b hb => by
      rw [if_neg (h b hb).2.symm, ht]
  rw [tick, hstart, hend]
  rfl

/-- The walk over the kept buffers, at their own ticks. -/
theorem walk_follow (hg : GroupsOk limit buffers g) (hkeep : Kept g e keep r byName)
    (hs : Steady g s) (h : foldE (tick limit alignment g.byName P) s (sortedTimes P) = .ok e) :
    foldE (tick limit alignment byName (P.filter fun b => keep b.name)) (s.withRejected r)
      (sortedTimes (P.filter fun b => keep b.name)) = .ok (e.withRejected r) := by
  have htimes : sortedTimes (P.filter fun b => keep b.name) = (sortedTimes P).filter
      fun t => decide (t ∈ sortedTimes (P.filter fun b => keep b.name)) := by
    refine (Timeline.pairwise_cutPoints _).eq_of_mem_iff
      ((Timeline.pairwise_cutPoints _).filter _) fun t => ?_
    rw [mem_filter, decide_eq_true_eq]
    refine (and_iff_right_of_imp fun ht => ?_).symm
    simp only [sortedTimes, Timeline.mem_cutPoints, mem_append, mem_map, mem_filter] at ht ⊢
    exact ht.imp (fun ⟨b, hb, hbt⟩ => ⟨b, hb.1, hbt⟩) fun ⟨b, hb, hbt⟩ => ⟨b, hb.1, hbt⟩
  rw [htimes]
  refine (foldE_follow (I := Steady g) Later.refl Later.trans (fun t _ u u' hu htick => ?_) hs
    h).2.2 (.refl e)
  obtain ⟨hu', hlater, hsim⟩ := tick_follow hg hkeep hu htick
  refine ⟨hu', hlater, fun he => ?_⟩
  split_ifs with ht
  · exact hsim he
  · have hidle : tick limit alignment byName (P.filter fun b => keep b.name) (u.withRejected r) t =
        .ok (u.withRejected r) := by
      refine tick_idle (fun b hb => ⟨?_, ?_⟩) _
      all_goals
        rintro rfl
        refine ht (decide_eq_true (Timeline.mem_cutPoints.2 ?_))
      · exact mem_append_left _ (mem_map_of_mem hb)
      · exact mem_append_right _ (mem_map_of_mem hb)
    exact Except.ok.inj ((hsim he).symm.trans hidle)

end Follow

theorem walk_steady (hg : GroupsOk limit buffers g) (hs : Steady g s) {times : List ℤ}
    (h : foldE (tick limit alignment g.byName P) s times = .ok s') : Steady g s' ∧ Later s s' := by
  refine foldE_inv (I := fun _ t => Steady g t ∧ Later s t)
    (fun _ idx _ t t' _ ht htick => ?_) ⟨hs, .refl s⟩ h
  obtain ⟨hdrop, hlater⟩ := deallocate_steady idx P ht.1
  refine foldE_inv (I := fun _ t => Steady g t ∧ Later s t) (fun _ b _ u u' _ hu htry => ?_)
    ⟨hdrop, .trans _ _ _ ht.2 hlater⟩ htick
  obtain ⟨hu', hlater', -⟩ := tryAllocate_outcome hg hu.1 htry
  exact ⟨hu', .trans _ _ _ hu.2 hlater'⟩

/-! ## Groups of roots -/

/-- The names of the group of a root. -/
def groupNames (root : LifetimeBoundBuffer) : List String :=
  root.name :: root.pairedWith

/-- The group of a root. -/
def groupOf (buffers : List LifetimeBoundBuffer) (root : LifetimeBoundBuffer) :
    List LifetimeBoundBuffer :=
  root :: root.pairedWith.filterMap (bufByName buffers)

/-- What entering the group of a root has done. -/
theorem addGroup_eq_ok {g g' : Groups} {root : LifetimeBoundBuffer} (hroot : root.pairedWith ≠ [])
    (h : addGroup buffers P g root = .ok g') :
    (∀ n ∈ root.pairedWith, (bufByName buffers n).isSome = true) ∧
      (∀ n ∈ groupNames root, g.byName n = none) ∧
      ∀ n, g'.byName n = if n ∈ groupNames root then some (groupOf buffers root)
        else g.byName n := by
  rw [addGroup, if_neg hroot] at h
  simp only [bind_eq_ok_iff, guardE_eq_ok_iff] at h
  obtain ⟨-, -, f, hadd, hg'⟩ := h
  obtain ⟨hfound, hfree, hf⟩ := addMembers_spec hadd
  obtain rfl := Except.ok.inj hg'
  exact ⟨fun n hn => hfound n (mem_cons_of_mem _ hn), hfree, hf⟩

/-- The groups entered are those of the roots. -/
theorem byName_iff (h : pairedGroups buffers P = .ok g) :
    (∀ n G, g.byName n = some G ↔ ∃ root ∈ buffers, root.pairedWith ≠ [] ∧
        n ∈ groupNames root ∧ G = groupOf buffers root) ∧
      ∀ root ∈ buffers, root.pairedWith ≠ [] →
        (groupOf buffers root).map (·.name) = groupNames root := by
  refine foldE_inv (I := fun done g => (∀ n G, g.byName n = some G ↔ ∃ root ∈ done,
      root.pairedWith ≠ [] ∧ n ∈ groupNames root ∧ G = groupOf buffers root) ∧
      ∀ root ∈ done, root.pairedWith ≠ [] →
        (groupOf buffers root).map (·.name) = groupNames root)
    (fun done root _ g g' _ hI hadd => ?_) ⟨by simp, by simp⟩ h
  simp only [mem_append, mem_singleton, or_and_right, exists_or, exists_eq_left, or_imp, forall_and,
    forall_eq]
  by_cases hroot : root.pairedWith = []
  · rw [addGroup, if_pos hroot] at hadd
    obtain rfl := Except.ok.inj hadd
    simpa [hroot] using hI
  · obtain ⟨hfound, hfree, hby⟩ := addGroup_eq_ok hroot hadd
    refine ⟨fun n G => ?_, hI.2, ?_⟩
    · rw [hby n, ← hI.1 n G]
      split_ifs with hn
      · simp [hroot, hn, hfree n hn, eq_comm]
      · simp [hn]
    · intro _
      rw [groupOf, map_cons, map_name_filterMap hfound, groupNames]

/-! ## Barring the unplaced groups -/

section Bar

variable (buffers : List LifetimeBoundBuffer) (plan : String → Option ℕ) (reason : String)

/-- The name is in a group no member of which has an address. -/
def Unplaced (name : String) : Prop :=
  ∃ root ∈ buffers, root.pairedWith ≠ [] ∧ name ∈ groupNames root ∧
    ∀ n ∈ groupNames root, plan n = none

instance (name : String) : Decidable (Unplaced buffers plan name) :=
  inferInstanceAs (Decidable (∃ root ∈ buffers, _))

/-- Bar the members of the unplaced groups from residency. -/
def bar (b : LifetimeBoundBuffer) : LifetimeBoundBuffer :=
  if Unplaced buffers plan b.name then { b with residencyReason := some reason } else b

variable {buffers plan reason}

@[simp] theorem bar_name (b : LifetimeBoundBuffer) : (bar buffers plan reason b).name = b.name := by
  unfold bar
  split_ifs <;> rfl

@[simp] theorem bar_pairedWith (b : LifetimeBoundBuffer) :
    (bar buffers plan reason b).pairedWith = b.pairedWith := by
  unfold bar
  split_ifs <;> rfl

theorem bar_of_not {b : LifetimeBoundBuffer} (h : ¬ Unplaced buffers plan b.name) :
    bar buffers plan reason b = b :=
  if_neg h

theorem bufByName_map_bar (l : List LifetimeBoundBuffer) (n : String) :
    bufByName (l.map (bar buffers plan reason)) n =
      (bufByName l n).map (bar buffers plan reason) := by
  rw [bufByName, ← map_reverse, find?_map, bufByName]
  simp

/-- The checks do not look at the reasons. -/
theorem checkInPlacePair_bar (parent child : LifetimeBoundBuffer) :
    checkInPlacePair (bar buffers plan reason parent) (bar buffers plan reason child) =
      checkInPlacePair parent child := by
  unfold bar
  split_ifs <;> rfl

theorem checkInPlaceRelationships_bar :
    checkInPlaceRelationships (buffers.map (bar buffers plan reason)) =
      checkInPlaceRelationships buffers := by
  have hparents : ∀ b, (bar buffers plan reason b).inPlaceParents = b.inPlaceParents := by
    intro b
    unfold bar
    split_ifs <;> rfl
  unfold checkInPlaceRelationships
  rw [checkAll_map]
  congr 1
  funext child
  rw [hparents]
  congr 1
  funext name
  rw [bufByName_map_bar]
  cases bufByName buffers name with
  | none => rfl
  | some parent => exact checkInPlacePair_bar parent child

/-- The buffers that may still be placed. -/
theorem placeable_bar (l : List LifetimeBoundBuffer) :
    placeable limit (l.map (bar buffers plan reason)) =
      (placeable limit l).filter fun b => !decide (Unplaced buffers plan b.name) := by
  have hbar : ∀ b, (excluded limit false (bar buffers plan reason b)).isNone =
      (!decide (Unplaced buffers plan b.name) && (excluded limit false b).isNone) := by
    intro b
    by_cases hb : Unplaced buffers plan b.name
    · rw [bar, if_pos hb, decide_eq_true hb]
      rfl
    · rw [bar_of_not hb, decide_eq_false hb]
      rfl
  rw [placeable, placeable, filter_map, filter_filter, ← filter_congr fun b _ => hbar b]
  refine (map_congr_left fun b hb => bar_of_not fun hout => ?_).trans (map_id _)
  have := (hbar b).symm.trans (mem_filter.1 hb).2
  simp [hout] at this

variable (buffers plan reason) in
theorem groupOf_bar (root : LifetimeBoundBuffer) :
    groupOf (buffers.map (bar buffers plan reason)) (bar buffers plan reason root) =
      (groupOf buffers root).map (bar buffers plan reason) := by
  simp only [groupOf, bar_pairedWith, map_cons, map_filterMap, bufByName_map_bar]

/-- The groups of names, with barred members. -/
def barGroups (f : LifetimeBoundBuffer → LifetimeBoundBuffer)
    (byName : String → Option (List LifetimeBoundBuffer)) (n : String) :
    Option (List LifetimeBoundBuffer) :=
  (byName n).map (List.map f)

variable (plan reason) in
theorem addMembers_bar {group : List LifetimeBoundBuffer} :
    ∀ (names : List String) {f f' : String → Option (List LifetimeBoundBuffer)},
      addMembers buffers group names f = .ok f' →
      addMembers (buffers.map (bar buffers plan reason)) (group.map (bar buffers plan reason)) names
        (barGroups (bar buffers plan reason) f) = .ok (barGroups (bar buffers plan reason) f')
  | [], _, _, h => by
    obtain rfl := Except.ok.inj h
    rfl
  | name :: names, f, f', h => by
    simp only [addMembers, bind_eq_ok_iff, guardE_eq_ok_iff] at h ⊢
    obtain ⟨u, hfound, v, hfree, hrest⟩ := h
    refine ⟨u, ?_, v, ?_, ?_⟩
    · rw [bufByName_map_bar, Option.isSome_map, hfound]
    · rw [barGroups, Option.isNone_map, hfree]
    · have hupdate : Function.update (barGroups (bar buffers plan reason) f) name
          (some (group.map (bar buffers plan reason))) =
          barGroups (bar buffers plan reason) (Function.update f name (some group)) := by
        funext n
        by_cases hn : n = name
        · subst hn
          simp [barGroups]
        · simp [barGroups, Function.update_of_ne hn]
      rw [hupdate]
      exact addMembers_bar names hrest

variable (buffers plan reason) in
/-- The groups `g'` are the groups `g` with barred members, and those rejected from the start
have a member that is not in `P`. -/
structure BarredGroups (P : List LifetimeBoundBuffer) (g g' : Groups) : Prop where
  byName : g'.byName = barGroups (bar buffers plan reason) g.byName
  rejected : ∀ n ∈ g'.rejected, ∃ root ∈ buffers, root.pairedWith ≠ [] ∧ n ∈ groupNames root ∧
    ∃ m ∈ groupOf buffers root, m.name ∉ P.map (·.name)

theorem BarredGroups.addGroup {P P' : List LifetimeBoundBuffer} {g g' g₁ : Groups}
    (h : BarredGroups buffers plan reason P g g') {root : LifetimeBoundBuffer}
    (hmem : root ∈ buffers) (hadd : addGroup buffers P' g root = .ok g₁) :
    ∃ g₁', Greedy.addGroup (buffers.map (bar buffers plan reason)) P g'
        (bar buffers plan reason root) = .ok g₁' ∧
      BarredGroups buffers plan reason P g₁ g₁' := by
  unfold Greedy.addGroup at hadd ⊢
  simp only [bar_pairedWith, bar_name] at hadd ⊢
  by_cases hroot : root.pairedWith = []
  · rw [if_pos hroot] at hadd ⊢
    obtain rfl := Except.ok.inj hadd
    exact ⟨g', rfl, h⟩
  rw [if_neg hroot] at hadd ⊢
  simp only [bind_eq_ok_iff, guardE_eq_ok_iff] at hadd ⊢
  obtain ⟨u, hnd, f, hmembers, hg₁⟩ := hadd
  obtain rfl := Except.ok.inj hg₁
  have hmembers' := addMembers_bar plan reason _ hmembers
  have hgroup := groupOf_bar buffers plan reason root
  rw [groupOf, groupOf, bar_pairedWith] at hgroup
  rw [← h.byName, ← hgroup] at hmembers'
  refine ⟨_, ⟨u, hnd, _, hmembers', rfl⟩, rfl, fun n hn => ?_⟩
  rw [hgroup, ← groupOf] at hn
  dsimp only at hn
  split_ifs at hn with hany
  · rcases mem_append.1 hn with hn | hn
    · exact h.rejected n hn
    · obtain ⟨m', hm', hout⟩ := any_eq_true.1 hany
      obtain ⟨m, hm, rfl⟩ := mem_map.1 hm'
      refine ⟨root, hmem, hroot, ?_, m, hm, by simpa using hout⟩
      have hfound := (addMembers_spec hmembers).1
      rw [map_map, groupOf] at hn
      simp only [Function.comp_def, bar_name] at hn
      rwa [map_cons, map_name_filterMap fun k hk => hfound k (mem_cons_of_mem _ hk)] at hn
  · exact h.rejected n hn

variable (plan reason) in
/-- The groups of the barred buffers. -/
theorem pairedGroups_bar {P : List LifetimeBoundBuffer} (P' : List LifetimeBoundBuffer)
    (h : pairedGroups buffers P = .ok g) :
    ∃ g', pairedGroups (buffers.map (bar buffers plan reason)) P' = .ok g' ∧
      BarredGroups buffers plan reason P' g g' := by
  unfold pairedGroups at h ⊢
  rw [foldE_map]
  exact foldE_rel (fun root hmem g g' g₁ hR hadd => hR.addGroup hmem hadd)
    ⟨rfl, fun _ hn => (by cases hn)⟩ h

end Bar

/-! ## Plans -/

section Plan

variable {e : State}

variable {P : List LifetimeBoundBuffer} {n : String}

/-- A group is placed as a whole. -/
theorem Steady.atomic (hgroups : pairedGroups buffers P = .ok g) (he : Steady g e)
    {root : LifetimeBoundBuffer} (hroot : root ∈ buffers) (hpaired : root.pairedWith ≠ []) :
    (∀ n ∈ groupNames root, e.address n ≠ none) ∨ ∀ n ∈ groupNames root, e.address n = none := by
  obtain ⟨hby, hnames⟩ := byName_iff hgroups
  have hG := (hby root.name _).2 ⟨root, hroot, hpaired, mem_cons_self, rfl⟩
  have hmem : ∀ n ∈ groupNames root, ∃ m ∈ groupOf buffers root, m.name = n := by
    intro n hn
    rw [← hnames root hroot hpaired] at hn
    exact mem_map.1 hn
  by_cases hall : ∀ n ∈ groupNames root, e.address n = none
  · exact .inr hall
  · push Not at hall
    obtain ⟨n, hn, hne⟩ := hall
    obtain ⟨m, hm, rfl⟩ := hmem n hn
    refine .inl fun k hk => ?_
    obtain ⟨m', hm', rfl⟩ := hmem k hk
    exact he.whole _ _ hG ⟨m, hm, hne⟩ m' hm'

/-- A grouped name without an address is in an unplaced group. -/
theorem Steady.unplaced (hgroups : pairedGroups buffers P = .ok g) (he : Steady g e)
    (hgr : g.byName n ≠ none) (hnone : e.address n = none) :
    Unplaced buffers e.address n := by
  obtain ⟨G, hG⟩ := Option.ne_none_iff_exists'.1 hgr
  obtain ⟨root, hroot, hpaired, hn, -⟩ := ((byName_iff hgroups).1 n G).1 hG
  refine ⟨root, hroot, hpaired, hn, ?_⟩
  rcases he.atomic hgroups hroot hpaired with hall | hall
  · exact absurd hnone (hall n hn)
  · exact hall

/-- One member of a group is in an unplaced group only if all are. -/
theorem Unplaced.of_mem (hgroups : pairedGroups buffers P = .ok g) (hg : GroupsOk limit buffers g)
    {plan : String → Option ℕ} {G : List LifetimeBoundBuffer} (hn : g.byName n = some G)
    {m : LifetimeBoundBuffer} (hm : m ∈ G) (hout : Unplaced buffers plan m.name) :
    Unplaced buffers plan n := by
  obtain ⟨root, hroot, hpaired, hin, hall⟩ := hout
  obtain ⟨hby, hnames⟩ := byName_iff hgroups
  have hG := (hby m.name _).2 ⟨root, hroot, hpaired, hin, rfl⟩
  obtain rfl := Option.some.inj ((hg.mem n G hn m hm).2.symm.trans hG)
  refine ⟨root, hroot, hpaired, ?_, hall⟩
  rw [← hnames root hroot hpaired]
  exact hg.self n _ hn

/-- What the end of a walk says of the names outside the unplaced groups. -/
theorem Steady.kept (hu : UniquelyNamed buffers)
    (hgroups : pairedGroups buffers (placeable limit buffers) = .ok g) (he : Steady g e)
    (hrej : ∀ n ∈ g.rejected, n ∈ e.rejected) {reason : String} {g' : Groups}
    (hg' : BarredGroups buffers e.address reason
      (placeable limit (buffers.map (bar buffers e.address reason))) g g') :
    Kept g e (fun n => !decide (Unplaced buffers e.address n)) g'.rejected g'.byName := by
  have hg := GroupsOk.of_pairedGroups hu hgroups
  obtain ⟨hby, hnames⟩ := byName_iff hgroups
  refine ⟨fun n hn => ?_, fun n hn => ?_⟩
  · obtain ⟨root, hroot, hpaired, hin, hall⟩ : Unplaced buffers e.address n := by simpa using hn
    have := (hby n _).2 ⟨root, hroot, hpaired, hin, rfl⟩
    exact ⟨hall n hin, by simp [this]⟩
  · have hplaced : ¬ Unplaced buffers e.address n := by simpa using hn
    refine ⟨fun hin => ?_, fun hin => ?_, ?_⟩
    · exact hplaced (he.unplaced hgroups (he.grouped n hin) (he.off n hin))
    · obtain ⟨root, hroot, hpaired, hnroot, m, hm, hmP⟩ := hg'.rejected n hin
      have hG := (hby n _).2 ⟨root, hroot, hpaired, hnroot, rfl⟩
      have hmout : ¬ Unplaced buffers e.address m.name := fun hout =>
        hplaced (hout.of_mem hgroups hg hG hm)
      have hbarred : m ∉ placeable limit buffers := by
        intro hmem
        refine hmP (mem_map_of_mem ?_)
        rw [placeable_bar]
        exact mem_filter.2 ⟨hmem, by simpa using hmout⟩
      obtain ⟨b, hb, rfl⟩ := mem_map.1 (hg.self n _ hG)
      have hrej' := hrej _ (hg.barred _ _ hG ⟨m, hm, hbarred⟩ b hb)
      exact hplaced (he.unplaced hgroups (he.grouped _ hrej') (he.off _ hrej'))
    · rw [hg'.byName, barGroups]
      cases hG : g.byName n with
      | none => rfl
      | some G =>
        have hsame : G.map (bar buffers e.address reason) = G :=
          (map_congr_left fun m hm => bar_of_not fun hout =>
            hplaced (hout.of_mem hgroups hg hG hm)).trans (map_id G)
        rw [Option.map_some, hsame]

end Plan

/-- For every list of buffers the solver accepts : a paired group has an address for every member
or for none, a group that is given up leaves the usage table and the handed-on parents as they
were, and barring the members of the groups without addresses from the start gives the same
plan. -/
theorem planLayout_atomic (limit alignment : ℕ) {buffers : List LifetimeBoundBuffer}
    (hu : UniquelyNamed buffers) {plan : String → Option ℕ}
    (h : planLayout limit alignment buffers = .ok plan) :
    (∀ root ∈ buffers, root.pairedWith ≠ [] →
        (∀ n ∈ groupNames root, plan n ≠ none) ∨ ∀ n ∈ groupNames root, plan n = none) ∧
      (∀ s G s', tryAllocateGroup limit alignment s G s G = .ok s' → s'.rejected ≠ s.rejected →
        s'.usage = s.usage ∧ s'.reusedParents = s.reusedParents ∧
          ∀ m ∈ G, s'.address m.name = none) ∧
      ∀ reason, planLayout limit alignment (buffers.map (bar buffers plan reason)) = .ok plan := by
  have hroll : ∀ s G s', tryAllocateGroup limit alignment s G s G = .ok s' →
      s'.rejected ≠ s.rejected → s'.usage = s.usage ∧ s'.reusedParents = s.reusedParents ∧
        ∀ m ∈ G, s'.address m.name = none := fun s G s' hrun hne =>
    (tryAllocateGroup_rollback G rfl hrun).resolve_left hne
  by_cases hnil : buffers = []
  · subst hnil
    exact ⟨by simp, hroll, fun _ => h⟩
  have hnil' : ∀ reason, buffers.map (bar buffers plan reason) ≠ [] := fun reason => by
    simpa using hnil
  obtain ⟨hcheck, ⟨hempty, rfl⟩ | ⟨-, g, e, hgroups, hwalk, rfl⟩⟩ := (planLayout_eq_ok_iff hnil).1 h
  · refine ⟨fun _ _ _ => .inr fun _ _ => rfl, hroll, fun reason => ?_⟩
    rw [planLayout_eq_ok_iff (hnil' reason), checkInPlaceRelationships_bar, placeable_bar, hempty]
    exact ⟨hcheck, .inl ⟨rfl, rfl⟩⟩
  · have hg := GroupsOk.of_pairedGroups hu hgroups
    obtain ⟨he, hlater⟩ := walk_steady hg (Steady.start hg) hwalk
    refine ⟨fun root hroot hpaired => he.atomic hgroups hroot hpaired, hroll, fun reason => ?_⟩
    obtain ⟨g', hgroups', hbar⟩ := pairedGroups_bar e.address reason
      (placeable limit (buffers.map (bar buffers e.address reason))) hgroups
    have hfollow := walk_follow hg (he.kept hu hgroups hlater.rejected hbar) (Steady.start hg) hwalk
    rw [planLayout_eq_ok_iff (hnil' reason), checkInPlaceRelationships_bar]
    refine ⟨hcheck, ?_⟩
    by_cases hempty : placeable limit (buffers.map (bar buffers e.address reason)) = []
    · rw [← placeable_bar, hempty] at hfollow
      exact .inl ⟨hempty, congrArg State.address (Except.ok.inj hfollow).symm⟩
    · rw [← placeable_bar] at hfollow
      exact .inr ⟨hempty, g', _, hgroups', hfollow, rfl⟩

/-- A paired destination that outlives its source and does not fit next to it. -/
def wideDestination : LifetimeBoundBuffer where
  name := "d"
  size := 384
  uses := [2, 7]
  uses_ne := by decide
  uses_increasing := by decide

/-- The source is given up with its destination, and a later child finds no parent. -/
theorem planLayout_atomic_wide :
    ∃ plan, planLayout 512 128 [pairedSource, wideDestination, sourceChild] = .ok plan ∧
      ["s", "d", "c"].map plan = [none, none, some 0] ∧
      ∀ reason, planLayout 512 128 ([pairedSource, wideDestination, sourceChild].map
        (bar [pairedSource, wideDestination, sourceChild] plan reason)) = .ok plan := by
  have hplan : ((planLayout 512 128 [pairedSource, wideDestination, sourceChild]).map
      fun plan => ["s", "d", "c"].map plan).toOption = some [none, none, some 0] := by
    decide +kernel
  cases h : planLayout 512 128 [pairedSource, wideDestination, sourceChild] with
  | error e =>
    rw [h] at hplan
    cases hplan
  | ok plan =>
    rw [h] at hplan
    exact ⟨plan, rfl, Option.some.inj hplan,
      (planLayout_atomic 512 128 (by decide +kernel) h).2.2⟩

end Greedy

end TorchSpyre
