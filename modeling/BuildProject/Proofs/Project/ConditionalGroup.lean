import BuildProject.Proofs.Document.Conditional
import BuildProject.Proofs.Document.References
import BuildProject.Proofs.Project.Rebase
import BuildProject.Proofs.Project.Work

/-!
# Conditional groups, found or made

Asking a project for the group with some conditions finds it, fails because a condition cannot be
read, or makes the group (`HasGroup.run_conditionalPropertyGroup`). The place where it is made is
described by the document and the default property group (`Project.groupAnchor?`); that this is what
the stored reference leads to rests on an invariant, `Project.HasGroup`.
-/

namespace BuildProject

open Document (mem_propertyGroups)

namespace Project

/-! ## The default property group -/

/-- The stored reference to the default property group belongs to a node below the root, which was a
property group and is nothing else. -/
structure HasGroup (p : Project) : Prop where
  reachable : p.document.Reachable
  below : ∀ r, p.propertyGroup? = some r → r.node ≠ rootId
  named : ∀ r, p.propertyGroup? = some r → r.node < p.document.tree.next ∧
    ∀ name, (r.node, name) ∈ p.document.tree.labels → name = propertyGroupElement

theorem hasGroup_ofDocument {d : Document} (hd : d.Reachable) (c : Conventions) :
    (ofDocument d c).HasGroup := by
  have hwf := hd.wellFormed
  have hgroup {r : ElementRef} (h : (ofDocument d c).propertyGroup? = some r) :
      ∃ group ∈ d.propertyGroups, r.node = group.id := by
    obtain ⟨group, hfind, rfl⟩ := Option.map_eq_some_iff.mp h
    exact ⟨group, (List.mem_filter.mp (List.mem_of_mem_head? hfind)).1, rfl⟩
  constructor
  · exact hd
  · intro r h hroot
    obtain ⟨group, hmem, hnode⟩ := hgroup h
    have hid := Forest.id_mem_nodeIds (mem_propertyGroups.mp hmem).1
    rw [← hnode, hroot] at hid
    exact hwf.root_not_mem hid
  · intro r h
    obtain ⟨group, hmem, hnode⟩ := hgroup h
    obtain ⟨hmem, hname⟩ := mem_propertyGroups.mp hmem
    rw [hnode]
    refine ⟨hwf.lt_next _ (List.mem_cons_of_mem _ (Forest.id_mem_nodeIds hmem)), ?_⟩
    intro name hlabel
    simp only [Tree.labels, Forest.labels, Tree.elements_whole, List.mem_map] at hlabel
    obtain ⟨e, he, hsame⟩ := hlabel
    obtain ⟨hid, rfl⟩ := Prod.mk.inj hsame
    rw [hwf.eq_of_id_eq he (List.mem_cons_of_mem _ hmem) hid, hname]

/-- **All work leaves it so.** -/
theorem invariant_hasGroup : Invariant HasGroup where
  made := hasGroup_ofDocument
  changed := by
    intro change p hp
    obtain ⟨taken, hsteps, -⟩ := Document.steps_after hp.reachable.wellFormed change
    rw [run_edit_state]
    refine ⟨hp.reachable.changed change, hp.below, ?_⟩
    intro r hr
    obtain ⟨hlt, hname⟩ := hp.named r hr
    refine ⟨Nat.lt_of_lt_of_le hlt hsteps.next_le, ?_⟩
    intro name hlabel
    exact hname name ((hsteps.mem_labels_iff hp.reachable.wellFormed hlt).mp hlabel).1
  placed := fun path? hp => ⟨hp.reachable.placed path?, hp.below, hp.named⟩
  reevaluated := by
    intro p hp
    unfold reevaluate
    split
    · exact hp
    · exact ⟨hp.reachable, hp.below, hp.named⟩
  saved := fun _ hp => ⟨hp.reachable, hp.below, hp.named⟩
  disposed := by
    intro p fresh hp
    unfold dispose
    split
    · exact hp
    · exact ⟨.placed _ (.empty fresh), nofun, nofun⟩

variable {p : Project}

/-- What the stored reference leads to is the default property group. -/
theorem HasGroup.filter_propertyGroup? (hp : p.HasGroup) :
    (p.propertyGroup?.filter fun ref => (p.document.resolve ref).isOk) =
      p.defaultPropertyGroup?.map p.document.ref := by
  rw [defaultPropertyGroup?, place?]
  cases hgroup : p.propertyGroup? with
  | none => rfl
  | some r =>
    cases hresolve : p.document.resolve r with
    | error fault =>
      have hnot : (p.document.resolve r).isOk = false := by rw [hresolve]; rfl
      have hnone : (p.document.resolve r).toOption = none := by rw [hresolve]; rfl
      rw [Option.filter_some, hnot, Option.bind_some, hnone]
      rfl
    | ok e =>
      have hlabel := (Document.exists_resolve_iff hp.reachable.wellFormed).mp ⟨e, hresolve, rfl⟩
      have hname : e.name = propertyGroupElement := (hp.named r hgroup).2 _ hlabel.2
      have href : p.document.ref e = r := by
        obtain ⟨hdocument, hfind⟩ := Document.resolve_eq_ok_iff.mp hresolve
        rw [Document.ref, Tree.id_of_find? hfind, ← hdocument]
      have hok : (p.document.resolve r).isOk = true := by rw [hresolve]; rfl
      have hsome : (p.document.resolve r).toOption = some e := by rw [hresolve]; rfl
      rw [Option.filter_some, if_pos hok, Option.bind_some, hsome, Option.filter_some,
        if_pos (beq_iff_eq.mpr hname), Option.map_some, href]

/-- The default property group is below the root. -/
theorem HasGroup.mem_elements (hp : p.HasGroup) {e : Element}
    (h : p.defaultPropertyGroup? = some e) :
    e ∈ p.document.elements := by
  obtain ⟨r, hr, hfound⟩ := Option.bind_eq_some_iff.mp h
  have hresolve : p.document.resolve r = .ok e :=
    toOption_eq_some.mp (Option.filter_eq_some_iff.mp hfound).1
  rcases List.mem_cons.mp (Document.mem_of_resolve hresolve) with rfl | he
  · exact absurd (Tree.id_of_find? (Document.resolve_eq_ok_iff.mp hresolve).2).symm (hp.below r hr)
  · exact he

/-! ## Groups on the same variables -/

/-- The last of some groups whose conditions can all be read. -/
theorem lastGuardedAlike_readings (conditions : ConditionSet) {groups : List Element}
    (hreadable : groups.findSome? Element.fault? = none) (found? : Option Element) :
    lastGuardedAlike conditions found? (groups.filterMap Element.reading?) =
      .ok ((groups.filter (·.isAlike conditions)).getLast?.or found?) := by
  induction groups generalizing found? with
  | nil => rfl
  | cons group groups ih =>
    rw [List.findSome?_cons] at hreadable
    rcases group.reading_cases with ⟨hreading, hconditions, hfault⟩ |
      ⟨candidate, hreading, hconditions, hfault⟩ | ⟨fault, hreading, hconditions, hfault⟩
    · rw [hfault] at hreadable
      have halike : group.isAlike conditions = false := by rw [Element.isAlike, hconditions]; rfl
      rw [List.filterMap_cons_none hreading, ih hreadable,
        List.filter_cons_of_neg (by simp [halike])]
    · rw [hfault] at hreadable
      have halike : group.isAlike conditions = true ↔ candidate.names = conditions.names := by
        rw [Element.isAlike, hconditions, Option.any_some, beq_iff_eq, ConditionSet.names_eq_iff]
      rw [List.filterMap_cons_some hreading, lastGuardedAlike, ih hreadable]
      by_cases hsame : candidate.names = conditions.names
      · rw [if_pos hsame, List.filter_cons_of_pos (halike.mpr hsame), List.getLast?_cons]
        cases (groups.filter (·.isAlike conditions)).getLast? <;> rfl
      · rw [if_neg hsame, List.filter_cons_of_neg (mt halike.mp hsame)]
    · rw [hfault] at hreadable
      contradiction

/-- The last group alike that is meant is found if all conditions can be read. -/
theorem lastGuardedAlike_eq {d : Document} (hreadable : d.conditionFault? = none)
    (conditions : ConditionSet) :
    lastGuardedAlike conditions none (d.conditionalGroups fun _ => true) =
      .ok (d.lastGroupAlike? conditions) := by
  rw [Document.conditionalGroups_eq, lastGuardedAlike_readings conditions hreadable,
    Option.or_none]
  rfl

/-! ## Finding or making -/

/-- The group behind which a group with some conditions is made. -/
def groupAnchor? (p : Project) (conditions : ConditionSet) : Option Element :=
  (p.document.lastGroupAlike? conditions).or p.defaultPropertyGroup?

theorem HasGroup.mem_of_groupAnchor? (hp : p.HasGroup) {conditions : ConditionSet} :
    ∀ e ∈ p.groupAnchor? conditions, e ∈ p.document.elements := by
  intro e he
  rcases Option.or_eq_some_iff.mp he with hlast | ⟨-, hdefault⟩
  · have hmem := List.mem_filter.mp (List.mem_of_getLast? hlast)
    exact (mem_propertyGroups.mp hmem.1).1
  · exact hp.mem_elements hdefault

theorem run_ensureLive (hlive : p.isDisposed = false) : ensureLive.run.run p = (.ok (), p) := by
  rw [ensureLive, run_get_bind, hlive]
  rfl

theorem run_askCondition_ok {answer : Except ConditionError α} {a : α} (h : answer = .ok a) :
    (askCondition answer).run.run p = (.ok a, p) := by
  rw [h]
  rfl

theorem run_conditionalPropertyGroup_of_some (hlive : p.isDisposed = false)
    {conditions : ConditionSet} {group : Element}
    (h : p.document.groupGuardedBy? conditions = some group) :
    (conditionalPropertyGroup conditions).run.run p = (.ok (p.document.ref group), p) := by
  have hfind : p.document.findConditionalGroup? conditions = .ok (some group) := by
    rw [Document.findConditionalGroup?_eq, h]
  rw [conditionalPropertyGroup, run_bind_ok (run_ensureLive hlive), run_get_bind,
    run_bind_ok (run_askCondition_ok hfind)]
  rfl

theorem run_conditionalPropertyGroup_of_fault (hlive : p.isDisposed = false)
    {conditions : ConditionSet} {fault : ConditionError}
    (h : p.document.groupGuardedBy? conditions = none)
    (hfault : p.document.conditionFault? = some fault) :
    (conditionalPropertyGroup conditions).run.run p = (.error (.condition fault), p) := by
  have hfind : p.document.findConditionalGroup? conditions = .error fault := by
    rw [Document.findConditionalGroup?_eq, h, hfault]
  have hask : (askCondition (p.document.findConditionalGroup? conditions)).run.run p =
      (.error (.condition fault), p) := by
    rw [hfind]
    rfl
  rw [conditionalPropertyGroup, run_bind_ok (run_ensureLive hlive), run_get_bind,
    run_bind_error hask]

/-- **A group is made** where it is to be, and nothing else changes. -/
theorem HasGroup.run_conditionalPropertyGroup (hp : p.HasGroup) (hlive : p.isDisposed = false)
    {conditions : ConditionSet} (h : p.document.groupGuardedBy? conditions = none)
    (hreadable : p.document.conditionFault? = none) :
    ∃ content, Forest.AddedAt ((p.groupAnchor? conditions).map Element.id)
        (p.document.newGroup conditions) p.document.tree.content content ∧
      (conditionalPropertyGroup conditions).run.run p =
        (.ok ⟨p.document.id, p.document.tree.next⟩,
          { p with document := p.document.withContent content (p.document.revision + 2) }) := by
  have hfind : p.document.findConditionalGroup? conditions = .ok none := by
    rw [Document.findConditionalGroup?_eq, h, hreadable]
  obtain ⟨between, content, hadd, hset, hadded⟩ :=
    Edit.run_addConditionalGroup hp.reachable.wellFormed hp.mem_of_groupAnchor? conditions
  refine ⟨content, hadded, ?_⟩
  have hanchor : ((p.document.lastGroupAlike? conditions).map p.document.ref).or
      (p.propertyGroup?.filter fun ref => (p.document.resolve ref).isOk) =
        (p.groupAnchor? conditions).map p.document.ref := by
    rw [hp.filter_propertyGroup?, groupAnchor?, Option.map_or]
  rw [conditionalPropertyGroup, run_bind_ok (run_ensureLive hlive), run_get_bind,
    run_bind_ok (run_askCondition_ok hfind)]
  dsimp only
  rw [run_bind_ok (run_askCondition_ok (lastGuardedAlike_eq hreadable conditions)), hanchor]
  show (edit (Edit.addGroupBehind _) >>= fun group =>
    edit (Edit.setCondition group (some conditions)) >>= fun _ => pure group).run.run p = _
  have hconditioned := run_edit (p := { p with document := between }) hset
  rw [run_bind_ok (run_edit hadd), run_bind_ok hconditioned]
  rfl

end Project

end BuildProject
