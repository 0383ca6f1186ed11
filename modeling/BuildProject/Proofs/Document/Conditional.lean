import BuildProject.Document.Query
import BuildProject.Proofs.Condition.Roundtrip
import BuildProject.Proofs.Document.Edit
import BuildProject.Proofs.Tree.Insertion

/-!
# Groups found by their conditions

The conditions of the property groups are read one after the other, up to the first that cannot be
read. `Document.groupGuardedBy?` and `Document.lastGroupAlike?` say which groups are meant, by the
conditions of the groups alone, and looking for the first finds it (`findConditionalGroup?_eq`). A
group that is added for some conditions is found by them (`groupGuardedBy?_of_added`), as their text
reads back.
-/

namespace BuildProject

open Text

/-! ## Conditions of elements -/

namespace Element

/-- What the condition of an element says, if there is one that can be read. -/
def conditions? (e : Element) : Option ConditionSet :=
  e.guard?.bind fun text => (ConditionSet.parse text).toOption

/-- What is wrong with the condition of an element. -/
def fault? (e : Element) : Option ConditionError :=
  e.guard?.bind fun text =>
    match ConditionSet.parse text with
    | .ok _ => none
    | .error fault => some fault

/-- Whether an element has conditions on the variables of a set, in their order. -/
def isAlike (conditions : ConditionSet) (e : Element) : Bool :=
  e.conditions?.any fun other =>
    other.conditions.map Condition.name == conditions.conditions.map Condition.name

/-- What an element contributes to the conditional groups. -/
def reading? (e : Element) : Option (Except ConditionError (ConditionSet × Element)) :=
  e.guard?.bind fun text =>
    match ConditionSet.parse text with
    | .ok conditions => some (.ok (conditions, e))
    | .error fault => some (.error fault)

/-- An element has no condition, or one that can be read, or one that cannot. -/
theorem reading_cases (e : Element) :
    (e.reading? = none ∧ e.conditions? = none ∧ e.fault? = none) ∨
    (∃ conditions, e.reading? = some (.ok (conditions, e)) ∧ e.conditions? = some conditions ∧
      e.fault? = none) ∨
    ∃ fault, e.reading? = some (.error fault) ∧ e.conditions? = none ∧ e.fault? = some fault := by
  unfold reading? conditions? fault?
  cases e.guard? with
  | none => exact .inl ⟨rfl, rfl, rfl⟩
  | some text =>
    simp only [Option.bind_some]
    cases ConditionSet.parse text with
    | ok conditions => exact .inr (.inl ⟨conditions, rfl, rfl, rfl⟩)
    | error fault => exact .inr (.inr ⟨fault, rfl, rfl, rfl⟩)

end Element

/-! ## Finding -/

namespace Document

/-- The first property group with exactly the given conditions, unless a condition that cannot be
read comes before it. -/
def groupGuardedBy? (d : Document) (conditions : ConditionSet) : Option Element :=
  (d.propertyGroups.takeWhile (·.fault?.isNone)).find? (·.conditions? == some conditions)

/-- What is wrong with the first condition of a property group that cannot be read. -/
def conditionFault? (d : Document) : Option ConditionError :=
  d.propertyGroups.findSome? Element.fault?

/-- The last property group with conditions on the variables of a set, in their order. -/
def lastGroupAlike? (d : Document) (conditions : ConditionSet) : Option Element :=
  (d.propertyGroups.filter (·.isAlike conditions)).getLast?

theorem conditionalGroups_eq (d : Document) :
    d.conditionalGroups (fun _ => true) = d.propertyGroups.filterMap Element.reading? := rfl

/-- The groups are looked through in their order. -/
theorem firstGuardedBy_readings (conditions : ConditionSet) (groups : List Element) :
    firstGuardedBy conditions (groups.filterMap Element.reading?) =
      match (groups.takeWhile (·.fault?.isNone)).find? (·.conditions? == some conditions),
        groups.findSome? Element.fault? with
      | some group, _ => .ok (some group)
      | none, some fault => .error fault
      | none, none => .ok none := by
  induction groups with
  | nil => rfl
  | cons group groups ih =>
    rcases group.reading_cases with ⟨hreading, hconditions, hfault⟩ |
      ⟨candidate, hreading, hconditions, hfault⟩ | ⟨fault, hreading, hconditions, hfault⟩
    · rw [List.filterMap_cons_none hreading, ih]
      simp [hfault, hconditions]
    · rw [List.filterMap_cons_some hreading, firstGuardedBy]
      by_cases hsame : candidate = conditions
      · simp [hfault, hconditions, hsame]
      · rw [if_neg hsame, ih]
        simp [hfault, hconditions, hsame]
    · rw [List.filterMap_cons_some hreading, firstGuardedBy]
      simp [hfault]

/-- **Finding a conditional group** finds the group that is meant, or fails if a condition that
comes first cannot be read. -/
theorem findConditionalGroup?_eq (d : Document) (conditions : ConditionSet) :
    d.findConditionalGroup? conditions =
      match d.groupGuardedBy? conditions, d.conditionFault? with
      | some group, _ => .ok (some group)
      | none, some fault => .error fault
      | none, none => .ok none := by
  rw [findConditionalGroup?, conditionalGroups_eq, firstGuardedBy_readings]
  rfl

end Document

/-! ## Adding -/

namespace Document

variable {d : Document}

/-- The group that is added for some conditions. -/
def newGroup (d : Document) (conditions : ConditionSet) : Element :=
  ⟨d.tree.next, ⟨propertyGroupElement, [⟨conditionAttribute, conditions.text⟩]⟩, .nil⟩

/-- The document with another content below the root, which has one node more. -/
def withContent (d : Document) (content : Forest) (revision : Nat) : Document :=
  d.setTree { d.tree with content, next := d.tree.next + 1 } revision

end Document

namespace Edit

variable {d : Document} {anchor? : Option Element}

/-- The edit that adds a group right behind an element, or at the end of the project. -/
def addGroupBehind (anchor? : Option ElementRef) : Edit ElementRef :=
  match anchor? with
  | some anchor => createPropertyGroup anchor true
  | none => addPropertyGroup

/-- An empty group is added where it is to be. -/
theorem run_addGroupBehind (hd : d.tree.WellFormed) (hanchor : ∀ e ∈ anchor?, e ∈ d.elements) :
    ∃ content, Forest.AddedAt (anchor?.map Element.id) (d.tree.newElement propertyGroupElement)
        d.tree.content content ∧
      (d.withContent content (d.revision + 1)).tree.WellFormed ∧
      (addGroupBehind (anchor?.map d.ref)).run.run d =
        (.ok ⟨d.id, d.tree.next⟩, d.withContent content (d.revision + 1)) := by
  cases anchor? with
  | some e =>
    have he : e ∈ d.elements := hanchor e rfl
    have hne : e.id ≠ rootId := by
      intro heq
      exact hd.root_not_mem (heq ▸ Forest.id_mem_nodeIds he)
    have hresolve : d.resolve (d.ref e) = .ok e :=
      Document.resolve_eq_ok rfl (hd.find?_of_mem (List.mem_cons_of_mem _ he))
    exact ⟨_, Forest.addedBehind_replaceAt hd.nodup_content he _,
      hd.insertElement e.id propertyGroupElement true, run_insertElement hresolve hne _ true⟩
  | none =>
    have hresolve : d.resolve (d.ref d.root) = .ok d.root :=
      Document.resolve_eq_ok rfl (hd.find?_of_mem List.mem_cons_self)
    exact ⟨_, rfl, hd.appendElement rootId propertyGroupElement, run_appendElement hresolve _⟩

/-- **A conditional group is added** where it is to be, and nothing else changes. -/
theorem run_addConditionalGroup (hd : d.tree.WellFormed) (hanchor : ∀ e ∈ anchor?, e ∈ d.elements)
    (conditions : ConditionSet) : ∃ between content,
      (addGroupBehind (anchor?.map d.ref)).run.run d = (.ok ⟨d.id, d.tree.next⟩, between) ∧
      (setCondition ⟨d.id, d.tree.next⟩ (some conditions)).run.run between =
        (.ok (), d.withContent content (d.revision + 2)) ∧
      Forest.AddedAt (anchor?.map Element.id) (d.newGroup conditions) d.tree.content content := by
  obtain ⟨content, hadded, hwf, hrun⟩ := run_addGroupBehind hd hanchor
  have hnew : d.tree.next ∉ d.tree.content.nodeIds :=
    fun hmem => hd.next_not_mem (List.mem_cons_of_mem _ hmem)
  have hne : (d.tree.newElement propertyGroupElement).id ≠ rootId := by
    intro heq
    have hnext : d.tree.next = rootId := heq
    exact hd.next_not_mem (hnext ▸ List.mem_cons_self)
  have hresolve : (d.withContent content (d.revision + 1)).resolve ⟨d.id, d.tree.next⟩ =
      .ok (d.tree.newElement propertyGroupElement) :=
    Document.resolve_eq_ok rfl (hwf.find?_of_mem (List.mem_cons_of_mem _ hadded.mem_new))
  refine ⟨_, _, hrun, ?_, hadded.modify hnew (·.set conditionAttribute conditions.text)⟩
  rw [setCondition, run_setAttribute hresolve, Tree.setAttribute, Tree.modify, if_neg hne]
  rfl

end Edit

/-! ## Finding what has been added -/

namespace Element

/-- The condition of an element is a part of its tag. -/
theorem conditions?_congr {e e' : Element} (h : e.tag = e'.tag) :
    e.conditions? = e'.conditions? := by
  rw [conditions?, conditions?, guard?, guard?, condition?, condition?, attribute?, attribute?, h]

theorem fault?_congr {e e' : Element} (h : e.tag = e'.tag) : e.fault? = e'.fault? := by
  rw [fault?, fault?, guard?, guard?, condition?, condition?, attribute?, attribute?, h]

theorem guard?_newGroup (d : Document) (conditions : ConditionSet) :
    (d.newGroup conditions).guard? = some conditions.text := by
  have hquote : '\'' ∈ conditions.text.toList := by
    rw [ConditionSet.text, serializeConditions, String.toList_ofList]
    simp [inQuotes]
  have hblank : isAllBlank conditions.text = false := by
    rw [isAllBlank, List.all_eq_false]
    exact ⟨'\'', hquote, by decide⟩
  rw [guard?]
  show (some conditions.text).filter _ = _
  rw [Option.filter_some, hblank]
  rfl

theorem conditions?_newGroup (d : Document) (conditions : ConditionSet) :
    (d.newGroup conditions).conditions? = some conditions := by
  rw [conditions?, guard?_newGroup, Option.bind_some, conditions.parse_text]
  rfl

theorem fault?_newGroup (d : Document) (conditions : ConditionSet) :
    (d.newGroup conditions).fault? = none := by
  rw [fault?, guard?_newGroup, Option.bind_some, conditions.parse_text]

end Element

namespace Document

variable {d d' : Document} {conditions : ConditionSet} {anchor? : Option NodeId}

theorem mem_propertyGroups {e : Element} :
    e ∈ d.propertyGroups ↔ e ∈ d.tree.content.elements ∧ e.name = propertyGroupElement := by
  rw [propertyGroups, elementsNamed, List.mem_filter, beq_iff_eq]
  rfl

theorem conditionFault?_eq_none_iff :
    d.conditionFault? = none ↔ ∀ e ∈ d.propertyGroups, e.fault? = none :=
  List.findSome?_eq_none_iff

/-- Where all conditions can be read, none comes in between. -/
theorem groupGuardedBy?_of_readable (h : d.conditionFault? = none) (conditions : ConditionSet) :
    d.groupGuardedBy? conditions = d.propertyGroups.find? (·.conditions? == some conditions) := by
  rw [groupGuardedBy?, List.takeWhile_eq_self_iff.mpr]
  intro e he
  rw [conditionFault?_eq_none_iff.mp h e he]
  rfl

/-- Every property group but the new one was a property group with the same condition before. -/
theorem propertyGroup_of_added
    (hadded : Forest.AddedAt anchor? (d.newGroup conditions) d.tree.content d'.tree.content)
    {e : Element} (he : e ∈ d'.propertyGroups) :
    e = d.newGroup conditions ∨ ∃ old ∈ d.propertyGroups, old.tag = e.tag := by
  obtain ⟨hmem, hname⟩ := mem_propertyGroups.mp he
  refine (hadded.of_mem rfl hmem).imp_right ?_
  rintro ⟨old, hold, -, htag⟩
  exact ⟨old, mem_propertyGroups.mpr ⟨hold, by rw [Element.name, htag]; exact hname⟩, htag⟩

/-- **What has been added is found.** -/
theorem groupGuardedBy?_of_added (hreadable : d.conditionFault? = none)
    (hnone : d.groupGuardedBy? conditions = none)
    (hadded : Forest.AddedAt anchor? (d.newGroup conditions) d.tree.content d'.tree.content) :
    d'.groupGuardedBy? conditions = some (d.newGroup conditions) := by
  have hreadable' : d'.conditionFault? = none := by
    refine conditionFault?_eq_none_iff.mpr ?_
    intro e he
    rcases propertyGroup_of_added hadded he with rfl | ⟨old, hold, htag⟩
    · exact Element.fault?_newGroup d conditions
    · rw [← Element.fault?_congr htag]
      exact conditionFault?_eq_none_iff.mp hreadable old hold
  rw [groupGuardedBy?_of_readable hreadable']
  rw [groupGuardedBy?_of_readable hreadable, List.find?_eq_none] at hnone
  have hnew : d.newGroup conditions ∈ d'.propertyGroups :=
    mem_propertyGroups.mpr ⟨hadded.mem_new, rfl⟩
  obtain ⟨found, hfound⟩ : ∃ found,
      d'.propertyGroups.find? (·.conditions? == some conditions) = some found := by
    rw [← Option.isSome_iff_exists, List.find?_isSome]
    exact ⟨_, hnew, beq_iff_eq.mpr (Element.conditions?_newGroup d conditions)⟩
  rw [hfound]
  rcases propertyGroup_of_added hadded (List.mem_of_find?_eq_some hfound) with
    rfl | ⟨old, hold, htag⟩
  · rfl
  · have hsame := List.find?_some hfound
    rw [← Element.conditions?_congr htag] at hsame
    exact absurd hsame (hnone old hold)

end Document

end BuildProject
