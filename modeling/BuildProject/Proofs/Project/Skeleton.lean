import BuildProject.Proofs.Document.Values
import BuildProject.Proofs.Guid
import BuildProject.Proofs.Project.Discovery
import BuildProject.Proofs.Project.ConditionalGroup
import BuildProject.Proofs.Project.Meaning

/-!
# New projects

A new project is filled with a property group, an item group and an import, and then looked through
like any other. The properties hold nothing that discovery would take for something else
(`Document.HoldsGroup`, which setting a property and giving it a condition keep), so what there is
to be found is what has been put there (`Document.IsSkeleton.filter_elements`). The property group
is always found. The reference and the import are cut before they are compared with the text of the
conventions that they were made from, and are overlooked if there was anything to cut
(`Project.create_discovers`).
-/

namespace BuildProject

open Markup

/-! ## A group of defaults -/

/-- Whether an element is passed over by discovery: it holds no elements and names no project file.
-/
structure Element.Plain (e : Element) : Prop where
  children : e.children = []
  project? : e.project? = none

/-- A document with one element below the root, a property group in which discovery passes
everything over. -/
structure Document.HoldsGroup (d : Document) (group : Element) : Prop where
  wellFormed : d.tree.WellFormed
  content : d.tree.content = .ofElement group
  tag : group.tag = ⟨propertyGroupElement, []⟩
  plain : ∀ property ∈ group.children, property.Plain

namespace Document.HoldsGroup

variable {d d' : Document} {group child : Element} {name : String}

theorem mem_elements (h : d.HoldsGroup group) : group ∈ d.root :: d.elements := by
  have hmem : group ∈ d.tree.content.elements := by
    rw [h.content]
    exact List.mem_cons_self
  exact List.mem_cons_of_mem _ hmem

theorem resolve (h : d.HoldsGroup group) : d.resolve (d.ref group) = .ok group :=
  resolve_eq_ok rfl (h.wellFormed.find?_of_mem h.mem_elements)

theorem id_ne_rootId (h : d.HoldsGroup group) : group.id ≠ rootId := by
  intro hid
  refine h.wellFormed.root_not_mem ?_
  rw [h.content, ← hid]
  exact List.mem_cons_self

/-- The group may get another child if that is passed over, too. -/
theorem replaced (h : d.HoldsGroup group) (hwf : d'.tree.WellFormed) {left old right : Forest}
    (hcontent : group.content = left ++ (old ++ right)) (hchild : child.Plain) {group' : Element}
    (htag : group'.tag = group.tag)
    (hcontent' : group'.content = left ++ (.ofElement child ++ right))
    (hwhole : d'.tree.whole = d.tree.whole.replaceAt group.id fun _ => .ofElement group') :
    d'.HoldsGroup group' where
  wellFormed := hwf
  content := by
    have hput : (Forest.ofElement group).replaceAt group.id (fun _ => .ofElement group') =
        .ofElement group' := by
      simp [Forest.ofElement, Forest.replaceAt]
    rw [Tree.whole_replaceAt h.id_ne_rootId, h.content, hput] at hwhole
    exact (Forest.element.inj hwhole).2.2.1
  tag := htag.trans h.tag
  plain := by
    intro property hproperty
    rw [Element.children, hcontent', Forest.children_append, Forest.children_append] at hproperty
    have hold (hmem : property ∈ left.children ++ right.children) : property.Plain := by
      refine h.plain property ?_
      rw [Element.children, hcontent, Forest.children_append, Forest.children_append]
      rcases List.mem_append.mp hmem with hmem | hmem
      · exact List.mem_append_left _ hmem
      · exact List.mem_append_right _ (List.mem_append_right _ hmem)
    rcases List.mem_append.mp hproperty with hproperty | hproperty
    · exact hold (List.mem_append_left _ hproperty)
    · rcases List.mem_append.mp hproperty with hproperty | hproperty
      · exact List.mem_singleton.mp hproperty ▸ hchild
      · exact hold (List.mem_append_right _ hproperty)

/-- **A property is set** in the group. -/
theorem exists_setProperty (h : d.HoldsGroup group) (name value : String) :
    ∃ d' group' child, (Edit.setProperty (d.ref group) name value).run.run d =
        (.ok (d'.ref child), d') ∧
      d'.HoldsGroup group' ∧ d'.ref group' = d.ref group ∧ group'.child? name = some child ∧
      child.text = value := by
  have hname : group.name = propertyGroupElement := congrArg Tag.name h.tag
  obtain ⟨revision, hrun⟩ := Edit.SetsValue.property.exists_run h.wellFormed h.resolve
    (fun kind hkind => hname.trans (Option.some.inj hkind)) name value
  obtain ⟨group', child, hfind, hid, htag, hvalue⟩ :=
    h.wellFormed.valueSet h.mem_elements name value revision
  obtain ⟨left, right, hcontent, hcontent'⟩ := hvalue.beside
  have hchild : child.Plain := by
    refine ⟨hvalue.only.1, ?_⟩
    rw [Element.project?, Element.attribute?]
    cases hold : group.child? name with
    | none => rw [(hvalue.added hold).2]; rfl
    | some old =>
      rw [(hvalue.reused old hold).2]
      exact (h.plain old (List.mem_of_find?_eq_some hold)).project?
  refine ⟨_, group', child, hrun.trans ?_, h.replaced (h.wellFormed.setChild group name value)
    hcontent hchild htag hcontent' hvalue.whole, ?_, hvalue.read.1, hvalue.read.2.1⟩
  · rw [ref, hid]
    rfl
  · rw [ref, Tree.id_of_find? hfind]
    rfl

/-- **A property gets an attribute**, which is not that for a project file. -/
theorem exists_setAttribute (h : d.HoldsGroup group) (hchild : group.child? name = some child)
    {key : String} (hkey : projectAttribute ≠ key) (value : String) :
    ∃ d' group', (Edit.setAttribute (d.ref child) key value).run.run d = (.ok ⟨⟩, d') ∧
      d'.HoldsGroup group' ∧ d'.ref group' = d.ref group := by
  obtain ⟨left, right, hcontent, -⟩ := Forest.exists_split_of_find? hchild
  have hmem := List.mem_of_find?_eq_some hchild
  have hplain := h.plain child hmem
  have hresolve : d.resolve (d.ref child) = .ok child :=
    resolve_eq_ok rfl (h.wellFormed.find?_of_mem (Tree.children_subset h.mem_elements hmem))
  let child' : Element := ⟨child.id, child.tag.set key value, child.content⟩
  have hplain' : child'.Plain := by
    refine ⟨hplain.children, ?_⟩
    rw [Element.project?, Element.attribute?, Tag.attribute?_set, if_neg hkey]
    exact hplain.project?
  let group' : Element := ⟨group.id, group.tag, left ++ (.ofElement child' ++ right)⟩
  have hgroup : group ∈ d.tree.whole.elements := by
    rw [Tree.elements_whole]
    exact h.mem_elements
  have hwhole : (d.tree.setAttribute child.id key value).whole =
      d.tree.whole.replaceAt group.id fun _ => .ofElement group' := by
    rw [Tree.whole_setAttribute]
    exact Forest.replaceAt_child h.wellFormed.nodup_whole hgroup hcontent _
  exact ⟨_, group', Edit.run_setAttribute hresolve key value,
    h.replaced (h.wellFormed.setAttribute _ _ _) hcontent hplain' rfl rfl hwhole, rfl⟩

end Document.HoldsGroup

/-! ## Conditions on one variable -/

namespace ConditionSet

/-- **A variable can be asked to be unset** if it is an identifier. -/
theorem ofPairs_unset (name : String) :
    isIdentifier name.toList = true ∧ (∃ s, ofPairs [(name, "")] = .ok s) ∨
      isIdentifier name.toList = false ∧ ofPairs [(name, "")] = .error (.invalidName name) := by
  cases hname : isIdentifier name.toList with
  | true =>
    refine .inl ⟨rfl, exists_ofList_iff.mpr ⟨List.cons_ne_nil _ _, ?_, List.nodup_singleton _⟩⟩
    simp [Condition.fault?, hname]
  | false =>
    have hfault : NameIndex.fault? [] ⟨name, ""⟩ = some (.invalidName name) := by
      simp [NameIndex.fault?, Condition.fault?, hname]
    exact .inr ⟨rfl, ofList_eq_error_iff.mpr (NameIndex.enter_cons_of_fault hfault)⟩

end ConditionSet

namespace Project

open Document (HoldsGroup)

/-- **The defaults are added** if all their names are identifiers, and else the first name that is
none is the fault. -/
theorem run_addDefaults (entries : List (String × String)) {p : Project} {group : Element}
    (h : p.document.HoldsGroup group) :
    ((∀ entry ∈ entries, isIdentifier entry.1.toList = true) ∧
      ∃ d group', (addDefaults (p.document.ref group) entries).run.run p =
          (.ok ⟨⟩, { p with document := d }) ∧
        d.HoldsGroup group' ∧ d.ref group' = p.document.ref group) ∨
    ∃ entry ∈ entries, isIdentifier entry.1.toList = false ∧
      ∃ q, (addDefaults (p.document.ref group) entries).run.run p =
        (.error (.condition (.invalidName entry.1)), q) := by
  induction entries generalizing p group with
  | nil => exact .inl ⟨fun _ hmem => absurd hmem List.not_mem_nil, _, group, rfl, h, rfl⟩
  | cons entry entries ih =>
    obtain ⟨name, value⟩ := entry
    obtain ⟨d₁, group₁, child, hset, h₁, href₁, hchild, -⟩ := h.exists_setProperty name value
    rw [addDefaults, run_bind_ok (run_edit hset)]
    rcases ConditionSet.ofPairs_unset name with ⟨hname, s, hs⟩ | ⟨hname, hfault⟩
    · obtain ⟨d₂, group₂, hcondition, h₂, href₂⟩ := h₁.exists_setAttribute hchild
        (by decide : projectAttribute ≠ conditionAttribute) s.text
      rw [run_bind_ok (run_askCondition_ok hs),
        run_bind_ok (run_edit (p := { p with document := d₁ }) hcondition), ← href₁, ← href₂]
      rcases ih (p := { p with document := d₂ }) h₂ with
        ⟨hnames, d₃, group₃, hrun, h₃, href₃⟩ | ⟨bad, hbad, hfault⟩
      · exact .inl ⟨List.forall_mem_cons.mpr ⟨hname, hnames⟩, d₃, group₃, hrun, h₃, href₃⟩
      · exact .inr ⟨bad, List.mem_cons_of_mem _ hbad, hfault⟩
    · refine .inr ⟨_, List.mem_cons_self, hname, { p with document := d₁ }, run_bind_error ?_⟩
      rw [hfault]
      rfl

end Project

/-! ## What comes behind the group -/

namespace Edit

variable {d : Document} {r : ElementRef} {e : Element}

/-- An element with an attribute is added behind the content of another. -/
theorem exists_run_addWith (hd : d.tree.WellFormed) (h : d.resolve r = .ok e)
    (name key value : String) : ∃ added d', (do
        let added ← appendElement r name
        setAttribute added key value
        return added).run.run d = (.ok added, d') ∧ d'.id = d.id ∧ d'.tree.WellFormed ∧
      d'.tree.content = (d.tree.modify e.id (fun tag => tag)
        (· ++ .ofElement ⟨d.tree.next, ⟨name, [⟨key, value⟩]⟩, .nil⟩)).content := by
  obtain ⟨-, hfind⟩ := Document.resolve_eq_ok_iff.mp h
  have hid : e.id ∈ d.tree.nodeIds := by
    rw [Tree.id_of_find? hfind]
    exact Tree.id_mem_of_find? hfind
  have happended := resolve_appended hd hfind name
  let d' := d.setTree ((d.tree.appendElement e.id name).setAttribute d.tree.next key value)
    (d.revision + 2)
  have hrun : (setAttribute ⟨d.id, d.tree.next⟩ key value).run.run
      (d.setTree (d.tree.appendElement e.id name) (d.revision + 1)) = (.ok ⟨⟩, d') :=
    run_setAttribute happended key value
  refine ⟨⟨d.id, d.tree.next⟩, d', ?_, rfl,
    (hd.appendElement e.id name).setAttribute d.tree.next key value,
    hd.content_setAttribute_appendElement hid name key value⟩
  rw [run_bind_ok (run_appendElement h name), run_bind_ok hrun]
  exact run_pure _ _

theorem resolve_root (hd : d.tree.WellFormed) : d.resolve (d.ref d.root) = .ok d.root :=
  Document.resolve_eq_ok rfl (hd.find?_of_mem List.mem_cons_self)

/-- An item group with one item is added at the end of the project. -/
theorem exists_run_addItem (hd : d.tree.WellFormed) (kind includeText : String) :
    ∃ group d₁ added d₂ item items, addItemGroup.run.run d = (.ok group, d₁) ∧
      (addItem group kind includeText).run.run d₁ = (.ok added, d₂) ∧ d₂.id = d.id ∧
      d₂.tree.WellFormed ∧ d₂.tree.content = d.tree.content ++ .ofElement items ∧
      items.tag = ⟨itemGroupElement, []⟩ ∧ items.content = .ofElement item ∧
      item.tag = ⟨kind, [⟨includeAttribute, includeText⟩]⟩ ∧ item.content = .nil := by
  let items := d.tree.newElement itemGroupElement
  let d₁ := d.setTree (d.tree.appendElement rootId itemGroupElement) (d.revision + 1)
  have hgroup : addItemGroup.run.run d = (.ok (d₁.ref items), d₁) :=
    run_appendElement (resolve_root hd) itemGroupElement
  have hwf : d₁.tree.WellFormed := hd.appendElement rootId itemGroupElement
  have hcontent : d₁.tree.content = d.tree.content ++ .ofElement items := rfl
  have hmem : items ∈ d₁.root :: d₁.elements := by
    refine List.mem_cons_of_mem _ ?_
    rw [Document.elements, Tree.elements, hcontent, Forest.elements_append]
    exact List.mem_append_right _ List.mem_cons_self
  have hitems : d₁.resolve (d₁.ref items) = .ok items :=
    Document.resolve_eq_ok rfl (hwf.find?_of_mem hmem)
  have hname : items.name = itemGroupElement := rfl
  obtain ⟨added, d₂, hadd, hid, hwf₂, hcontent₂⟩ :=
    exists_run_addWith hwf hitems kind includeAttribute includeText
  rw [hwf.content_modify_last hcontent] at hcontent₂
  refine ⟨_, d₁, added, d₂, _, _, hgroup, ?_, hid, hwf₂, hcontent₂, rfl, rfl, rfl, rfl⟩
  rw [addItem, run_bind_ok (run_expectKind_of_eq hitems hname)]
  exact hadd

/-- An import is added at the end of the project. -/
theorem exists_run_addImport (hd : d.tree.WellFormed) (project : String) :
    ∃ added d' tools, (addImport project).run.run d = (.ok added, d') ∧ d'.id = d.id ∧
      d'.tree.WellFormed ∧ d'.tree.content = d.tree.content ++ .ofElement tools ∧
      tools.tag = ⟨importElement, [⟨projectAttribute, project⟩]⟩ ∧ tools.content = .nil := by
  obtain ⟨added, d', hadd, hid, hwf, hcontent⟩ :=
    exists_run_addWith hd (resolve_root hd) importElement projectAttribute project
  exact ⟨added, d', _, hadd, hid, hwf, hcontent, rfl, rfl⟩

end Edit

/-! ## The skeleton -/

/-- What a new project consists of: a property group with the identifier, in which discovery passes
everything over, an item group with the baseline reference and the import of the build tools. -/
structure Document.IsSkeleton (d : Document) (guid : Guid) (c : Conventions)
    (group items tools : Element) : Prop where
  wellFormed : d.tree.WellFormed
  content : d.tree.content = .ofElement group ++ (.ofElement items ++ .ofElement tools)
  group_tag : group.tag = ⟨propertyGroupElement, []⟩
  plain : ∀ property ∈ group.children, property.Plain
  identifier : (group.child? c.identifierProperty).map Element.text = some guid.stored
  items_tag : items.tag = ⟨itemGroupElement, []⟩
  item : ∃ id, items.content =
    .ofElement ⟨id, ⟨c.referenceItem, [⟨includeAttribute, c.baselineReference⟩]⟩, .nil⟩
  tools_tag : tools.tag =
    ⟨importElement, [⟨projectAttribute, "$(MSBuildToolsPath)\\" ++ c.buildToolsImport⟩]⟩
  tools_content : tools.content = .nil

namespace Project

open Document (HoldsGroup)

/-- **An empty project is filled** if all names of global properties are identifiers, and else the
first name that is none is the fault. -/
theorem run_addSkeleton (id : DocumentId) (guid : Guid) (c : Conventions) :
    ((∀ entry ∈ c.globalProperties.entries, isIdentifier entry.1.toList = true) ∧
      ∃ p group items tools, (addSkeleton guid).run.run (ofDocument (.empty id) c) = (.ok ⟨⟩, p) ∧
        p.document.IsSkeleton guid c group items tools) ∨
    ∃ entry ∈ c.globalProperties.entries, isIdentifier entry.1.toList = false ∧
      ∃ p, (addSkeleton guid).run.run (ofDocument (.empty id) c) =
        (.error (.condition (.invalidName entry.1)), p) := by
  let p := ofDocument (.empty id) c
  let d := p.document.setTree (p.document.tree.appendElement rootId propertyGroupElement) 1
  let group := p.document.tree.newElement propertyGroupElement
  have hwf : p.document.tree.WellFormed := Tree.wellFormed_ofTag _
  have hgroup : Edit.addPropertyGroup.run.run p.document = (.ok (d.ref group), d) :=
    Edit.run_appendElement (Edit.resolve_root hwf) propertyGroupElement
  have h : d.HoldsGroup group :=
    ⟨hwf.appendElement rootId propertyGroupElement, rfl, rfl,
      fun _ hmem => absurd hmem List.not_mem_nil⟩
  rw [addSkeleton, run_get_bind, run_bind_ok (run_edit hgroup)]
  rcases run_addDefaults c.globalProperties.entries (p := { p with document := d }) h with
    ⟨hnames, d₁, group₁, hrun₁, h₁, href₁⟩ | ⟨entry, hentry, hname, q, hrun⟩
  · obtain ⟨d₂, group₂, child, hset, h₂, href₂, hchild, hvalue⟩ :=
      h₁.exists_setProperty c.identifierProperty guid.stored
    obtain ⟨itemsRef, d₃, itemRef, d₄, item, items, hitems, hitem, -, hwf₄, hcontent₄, htag,
      hinside, hitemTag, hitemContent⟩ :=
      Edit.exists_run_addItem h₂.wellFormed c.referenceItem c.baselineReference
    obtain ⟨toolsRef, d₅, tools, himport, -, hwf₅, hcontent₅, htoolsTag, htoolsContent⟩ :=
      Edit.exists_run_addImport hwf₄ ("$(MSBuildToolsPath)\\" ++ c.buildToolsImport)
    refine .inl ⟨hnames, { p with document := d₅ }, group₂, items, tools, ?_, ?_⟩
    · have href : d.ref group = d₁.ref group₁ := href₁.symm
      refine (run_bind_ok hrun₁).trans ?_
      rw [href]
      refine (run_bind_ok (run_edit (p := { p with document := d₁ }) hset)).trans ?_
      refine (run_bind_ok (run_edit (p := { p with document := d₂ }) hitems)).trans ?_
      refine (run_bind_ok (run_edit (p := { p with document := d₃ }) hitem)).trans ?_
      exact run_bind_ok (run_edit (p := { p with document := d₄ }) himport)
    · exact {
        wellFormed := hwf₅
        content := by rw [hcontent₅, hcontent₄, h₂.content, Forest.append_assoc]
        group_tag := h₂.tag
        plain := h₂.plain
        identifier := by rw [hchild, Option.map_some, hvalue]
        items_tag := htag
        item := ⟨item.id, by rw [hinside, ← hitemTag, ← hitemContent]⟩
        tools_tag := htoolsTag
        tools_content := htoolsContent }
  · exact .inr ⟨entry, hentry, hname, q, run_bind_error hrun⟩

end Project

/-! ## Discovery -/

/-- Where no element holds another one, the elements are those at the top. -/
theorem Forest.elements_eq_children {f : Forest} (h : ∀ e ∈ f.children, e.children = []) :
    f.elements = f.children := by
  induction f with
  | nil => rfl
  | element id tag content rest ihContent ihRest =>
    obtain ⟨hfirst, hrest⟩ := List.forall_mem_cons.mp h
    have hcontent : content.children = [] := hfirst
    rw [elements, children, ihRest hrest, ihContent (by simp [hcontent]), hcontent,
      List.nil_append]
  | leaf id l rest ih => exact ih h

namespace Document.IsSkeleton

variable {d : Document} {guid : Guid} {c : Conventions} {group items tools : Element}

/-- What passes plain elements over sees at most the three elements below the root. -/
theorem filter_elements (h : d.IsSkeleton guid c group items tools) {sees : Element → Bool}
    (hsees : ∀ e : Element, e.Plain → sees e = false) :
    d.elements.filter sees = [group, items, tools].filter sees := by
  obtain ⟨id, hitem⟩ := h.item
  let item : Element := ⟨id, ⟨c.referenceItem, [⟨includeAttribute, c.baselineReference⟩]⟩, .nil⟩
  have hplain : item.Plain := ⟨rfl, rfl⟩
  have hproperties : group.content.elements = group.children :=
    Forest.elements_eq_children fun e he => (h.plain e he).children
  have hnone : group.children.filter sees = [] :=
    List.filter_eq_nil_iff.mpr fun e he => by simp [hsees e (h.plain e he)]
  have helements : d.elements =
      group :: (group.children ++ items :: item :: [tools]) := by
    rw [Document.elements, Tree.elements, h.content, Forest.elements_append, Forest.elements_append,
      Forest.elements_ofElement, Forest.elements_ofElement, Forest.elements_ofElement, hproperties,
      hitem, h.tools_content]
    rfl
  rw [helements]
  simp only [List.filter_cons, List.filter_append, hnone, hsees item hplain, List.nil_append,
    Bool.false_eq_true, if_false]

/-- The first element of a name that is seen is one of the three. -/
theorem head?_elementsNamed (h : d.IsSkeleton guid c group items tools) (name : String)
    {sees : Element → Bool} (hsees : ∀ e : Element, e.Plain → sees e = false) :
    ((d.elementsNamed name).filter sees).head? =
      [group, items, tools].find? fun e => sees e && e.name == name := by
  rw [elementsNamed, List.filter_filter, h.filter_elements fun e he => by simp [hsees e he],
    List.head?_filter]

theorem names (h : d.IsSkeleton guid c group items tools) : group.name = propertyGroupElement ∧
    items.name = itemGroupElement ∧ tools.name = importElement :=
  ⟨congrArg Tag.name h.group_tag, congrArg Tag.name h.items_tag, congrArg Tag.name h.tools_tag⟩

/-- **The property group is found.** -/
theorem findPropertyGroup?_eq (h : d.IsSkeleton guid c group items tools) :
    d.findPropertyGroup? c.holdsIdentifier = some group := by
  obtain ⟨hgroup, -, -⟩ := h.names
  obtain ⟨property, hproperty, -⟩ := Option.map_eq_some_iff.mp h.identifier
  have hholds : c.holdsIdentifier group = true := by
    rw [Conventions.holdsIdentifier, hproperty]
    rfl
  refine (h.head?_elementsNamed _ fun e he => ?_).trans ?_
  · simp [Conventions.holdsIdentifier, Element.child?, he.children]
  · rw [List.find?_cons_of_pos (by simp [hgroup, hholds])]

/-- **The item group is found** if its reference is a bare name, and overlooked if not. -/
theorem findItemGroup?_eq (h : d.IsSkeleton guid c group items tools) :
    d.findItemGroup? c.holdsBaseline =
      if IsAssemblyName c.baselineReference then some items else none := by
  obtain ⟨hgroup, hitems, htools⟩ := h.names
  obtain ⟨id, hitem⟩ := h.item
  have hholds : c.holdsBaseline items = isReferenceTo c.baselineReference c.baselineReference := by
    rw [Conventions.holdsBaseline, Element.children, hitem]
    simp [Forest.ofElement, Forest.children, Element.name, Element.include?, Element.attribute?,
      Tag.attribute?]
  refine (h.head?_elementsNamed _ fun e he => ?_).trans ?_
  · simp [Conventions.holdsBaseline, he.children]
  · have hnot : propertyGroupElement ≠ itemGroupElement ∧ importElement ≠ itemGroupElement := by
      decide
    by_cases hname : IsAssemblyName c.baselineReference
    · have hself := isReferenceTo_self_iff.mpr hname
      simp [hgroup, hitems, hholds, hself, hname, hnot.1]
    · have hself := mt isReferenceTo_self_iff.mp hname
      simp [hgroup, hitems, htools, hholds, hself, hname, hnot.1, hnot.2]

/-- **The import is found** if it names a file alone, and overlooked if not. -/
theorem findImport?_eq (h : d.IsSkeleton guid c group items tools) :
    d.findImport? c.importsBuildTools =
      if IsBareFileName c.buildToolsImport then some tools else none := by
  obtain ⟨hgroup, hitems, htools⟩ := h.names
  have hsees : c.importsBuildTools tools =
      c.isBuildToolsImport ("$(MSBuildToolsPath)" ++ "\\" ++ c.buildToolsImport) := by
    rw [Conventions.importsBuildTools, Element.project?, Element.attribute?, h.tools_tag]
    rfl
  refine (h.head?_elementsNamed _ fun e he => ?_).trans ?_
  · rw [Conventions.importsBuildTools, he.project?]
    rfl
  · have hnot : propertyGroupElement ≠ importElement ∧ itemGroupElement ≠ importElement := by decide
    have hbare := c.isBuildToolsImport_behind_iff "$(MSBuildToolsPath)"
    rw [← hsees] at hbare
    by_cases hname : IsBareFileName c.buildToolsImport
    · simp [hgroup, hitems, htools, hbare.mpr hname, hname, hnot.1, hnot.2]
    · simp [hgroup, hitems, htools, mt hbare.mp hname, hname, hnot.1, hnot.2]

end Document.IsSkeleton

namespace Project

/-- What has been found under a name is what is at its place. -/
theorem place?_map_ref {p : Project} (hwf : p.document.tree.WellFormed) {found? : Option Element}
    {name : String} (hfound : ∀ e ∈ found?, e ∈ p.document.elements ∧ e.name = name) :
    p.place? (found?.map p.document.ref) name = found? := by
  cases found? with
  | none => rfl
  | some e =>
    obtain ⟨hmem, hname⟩ := hfound e rfl
    rw [Option.map_some, place?_ref (hwf.find?_of_mem (List.mem_cons_of_mem _ hmem)),
      Option.filter_some, if_pos (beq_iff_eq.mpr hname)]

/-- **What a new project finds of its own parts.** Making a project succeeds exactly if every global
property has a name that a condition can mention. The project then consists of a property group, an
item group and an import; the property group is the default one and has the identifier. The item
group is the default one only if the baseline reference is a bare name: the conventions may give it
a version or blanks around it, but then the reference that was written for it is not recognized.
There is a build tools import if the conventions name a file for it, as they are to do, and no
path. -/
theorem create_discovers (id : DocumentId) (guid : Guid) (c : Conventions) :
    ((∀ entry ∈ c.globalProperties.entries, isIdentifier entry.1.toList = true) ∧
      ∃ p group items tools, create id guid c = .ok p ∧
        p.document.IsSkeleton guid c group items tools ∧
        p.defaultPropertyGroup? = some group ∧ p.guid? = some guid ∧
        p.defaultItemGroup? = (if IsAssemblyName c.baselineReference then some items else none) ∧
        p.buildToolsImport? = if IsBareFileName c.buildToolsImport then some tools else none) ∨
    ∃ entry ∈ c.globalProperties.entries, isIdentifier entry.1.toList = false ∧
      create id guid c = .error (.condition (.invalidName entry.1)) := by
  rcases run_addSkeleton id guid c with
    ⟨hnames, filled, group, items, tools, hrun, h⟩ | ⟨entry, hentry, hname, q, hrun⟩
  · let p := ofDocument filled.document c
    have hcreate : create id guid c = .ok p := by
      rw [create, hrun]
      rfl
    have hplace {found? : Option Element} {name : String} {sees : Element → Bool}
        (hfound : ((filled.document.elementsNamed name).filter sees).head? = found?) :
        p.place? (found?.map p.document.ref) name = found? := by
      refine place?_map_ref h.wellFormed fun e he => ?_
      have hmem := (List.mem_filter.mp (List.mem_of_mem_head? (hfound.trans he))).1
      obtain ⟨hmem, hname⟩ := List.mem_filter.mp hmem
      exact ⟨hmem, beq_iff_eq.mp hname⟩
    have hgroup : p.defaultPropertyGroup? = some group := by
      have hfound := h.findPropertyGroup?_eq
      rw [← hplace hfound, ← hfound]
      rfl
    refine .inl ⟨hnames, p, group, items, tools, hcreate, h, hgroup, ?_, ?_, ?_⟩
    · obtain ⟨property, hproperty, htext⟩ := Option.map_eq_some_iff.mp h.identifier
      rw [guid?, hgroup, Option.bind_some]
      show (group.child? c.identifierProperty).bind _ = _
      rw [hproperty, Option.bind_some, htext, guid.parse?_stored]
    · have hfound := h.findItemGroup?_eq
      rw [← hplace hfound, ← hfound]
      rfl
    · have hfound := h.findImport?_eq
      rw [← hplace hfound, ← hfound]
      rfl
  · refine .inr ⟨entry, hentry, hname, ?_⟩
    rw [create, hrun]
    rfl

/-- An identifier with the digit seven throughout. -/
def sevens : Guid :=
  ⟨List.replicate 32 7, rfl⟩

/-- By the usual conventions everything is found. -/
theorem create_discovers_usual : ∃ p group items tools, create ⟨0⟩ sevens {} = .ok p ∧
    p.document.IsSkeleton sevens {} group items tools ∧ p.defaultPropertyGroup? = some group ∧
    p.guid? = some sevens ∧ p.defaultItemGroup? = some items ∧
    p.buildToolsImport? = some tools := by
  rcases create_discovers ⟨0⟩ sevens {} with
    ⟨-, p, group, items, tools, hp, h, hgroup, hguid, hitems, htools⟩ | ⟨entry, hentry, hname, -⟩
  · exact ⟨p, group, items, tools, hp, h, hgroup, hguid, hitems.trans (if_pos (by decide)),
      htools.trans (if_pos (by decide))⟩
  · have hnames : ∀ entry ∈ ({} : Conventions).globalProperties.entries,
        isIdentifier entry.1.toList = true := by
      decide +kernel
    exact absurd (hnames entry hentry) (by simp [hname])

-- A baseline reference with a version is written into the only item group, which is overlooked.
example : (create ⟨0⟩ sevens { baselineReference := "System, Version=4.0.0.0" }).toOption.map
    (fun p => (p.document.itemGroups.length, p.defaultItemGroup?)) = some (1, none) := by
  decide +kernel

end Project

end BuildProject
