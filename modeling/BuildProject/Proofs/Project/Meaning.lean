import BuildProject.Proofs.Project.Rewrite

/-!
# What rewritten sources leave alone

An evaluation reads the property groups of a document, and what is found when a project is made are
groups and imports. Sources are neither property groups nor references to assemblies, so rewriting
them changes nothing that is read there. The links that they get have no attributes and hold no
elements; whatever the links are called, they count for nothing.
-/

namespace BuildProject

open Markup Text

variable {c : Conventions} {source destination : String} {fresh : NodeId → NodeId}

/-! ## Groups -/

/-- Only sources are chosen. -/
theorem Conventions.choose_of_name_ne {e : Element} (h : e.name ≠ c.sourceItem) (grouped : Bool) :
    (c.rewriting source destination fresh).choose grouped e = none := by
  cases grouped with
  | false => rfl
  | true =>
    show c.rewrite? source destination e = none
    rw [rewrite?, if_neg h]

namespace Element

variable {how : Rewriting} {grouped : Bool} {e : Element}

/-- An element that is no source keeps its children, rewritten. -/
theorem children_rewrite_of_name_ne (h : e.name ≠ c.sourceItem) :
    (e.rewrite (c.rewriting source destination fresh) grouped).children = e.children.map
      (Element.rewrite (c.rewriting source destination fresh) (e.name == itemGroupElement)) := by
  rw [rewrite_of_choose_eq_none (Conventions.choose_of_name_ne h grouped)]
  exact Forest.children_rewrite _ _

/-- The properties of a group stay, but for what they hold. -/
theorem children_rewrite_of_propertyGroup (hgroup : c.sourceItem ≠ propertyGroupElement)
    (hname : e.name = propertyGroupElement) :
    (e.rewrite (c.rewriting source destination fresh) grouped).children = e.children.map
      (Element.rewrite (c.rewriting source destination fresh) false) := by
  have hne : e.name ≠ c.sourceItem := hname ▸ Ne.symm hgroup
  have hitem : (e.name == itemGroupElement) = false := by
    rw [hname]
    decide
  rw [children_rewrite_of_name_ne hne, hitem]

theorem child?_rewrite_of_propertyGroup (hgroup : c.sourceItem ≠ propertyGroupElement)
    (hname : e.name = propertyGroupElement) (name : String) :
    (e.rewrite (c.rewriting source destination fresh) grouped).child? name = (e.child? name).map
      (Element.rewrite (c.rewriting source destination fresh) false) := by
  rw [child?, child?, children_rewrite_of_propertyGroup hgroup hname, List.find?_map]
  simp only [Function.comp_def, name_rewrite]

end Element

/-! ## Evaluations -/

namespace PropertyTable

variable {g : GlobalProperties} {t : PropertyTable} {e e' : Element}

theorem holds_congr (h : e'.tag = e.tag) : holds t e' = holds t e := by
  rw [holds, holds, Element.guard?, Element.guard?, Element.condition?, Element.condition?,
    Element.attribute?, Element.attribute?, h]

/-- A property is its name, its condition and its text. -/
theorem applyProperty_congr (htag : e'.tag = e.tag) (htext : e'.text = e.text) :
    applyProperty g t e' = applyProperty g t e := by
  rw [applyProperty, applyProperty, holds_congr htag, Element.name, Element.name, htag, htext]

/-- A rewritten property group says what it said. -/
theorem applyGroup_rewrite (hgroup : c.sourceItem ≠ propertyGroupElement)
    (hname : e.name = propertyGroupElement) (grouped : Bool) :
    applyGroup g t (e.rewrite (c.rewriting source destination fresh) grouped)
      = applyGroup g t e := by
  have hne : e.name ≠ c.sourceItem := hname ▸ Ne.symm hgroup
  have htag : (e.rewrite (c.rewriting source destination fresh) grouped).tag = e.tag := by
    rw [Element.rewrite_of_choose_eq_none (Conventions.choose_of_name_ne hne grouped)]
  have hproperty (t : PropertyTable) (property : Element) :
      applyProperty g t (property.rewrite (c.rewriting source destination fresh) false)
        = applyProperty g t property :=
    applyProperty_congr rfl Element.text_rewrite
  rw [applyGroup, applyGroup, holds_congr htag,
    Element.children_rewrite_of_propertyGroup hgroup hname, List.foldl_map]
  simp only [hproperty]

/-- A group without properties says nothing. -/
theorem applyGroup_of_children_eq_nil (h : e.children = []) : applyGroup g t e = t := by
  rw [applyGroup, h]
  split <;> rfl

end PropertyTable

namespace Document

/-- A document in which the sources have been rewritten; the links are new. -/
structure Rewritten (d : Document) (how : Rewriting) (d' : Document) : Prop where
  content : d'.tree.content = d.tree.content.rewrite how false
  fresh : ∀ id, d.tree.next ≤ how.fresh id

variable {how : Rewriting} {d d' : Document}

/-- What is seen of the elements of a rewritten document. -/
theorem Rewritten.map_filter_elements (h : d.Rewritten how d') {β : Type} {sees : Element → Bool}
    {view : Element → β}
    (hlink : ∀ id text, sees (Rewrite.linkElement how.link (how.fresh id) text) = false)
    (hsees : ∀ grouped e, sees (e.rewrite how grouped) = sees e)
    (hview : ∀ grouped e, sees e = true → view (e.rewrite how grouped) = view e) :
    (d'.elements.filter sees).map view = (d.elements.filter sees).map view := by
  rw [elements, Tree.elements, h.content]
  exact Forest.map_filter_rewrite hlink hsees hview _ false

/-- Property groups without properties need not be looked at. -/
theorem foldl_propertyGroups (d : Document) (g : GlobalProperties) (t : PropertyTable) :
    d.propertyGroups.foldl (PropertyTable.applyGroup g) t =
      ((d.elements.filter fun e => e.name == propertyGroupElement && !e.children.isEmpty).map
        fun e t => PropertyTable.applyGroup g t e).foldl (fun t apply => apply t) t := by
  rw [List.foldl_map, List.foldl_filter, propertyGroups, elementsNamed, List.foldl_filter]
  congr 1
  funext t e
  by_cases hempty : e.children = []
  · simp [hempty, PropertyTable.applyGroup_of_children_eq_nil hempty]
  · simp [hempty]

end Document

/-- **Rewriting sources changes no property.** -/
theorem Evaluation.table_evaluate_rewritten {d d' : Document}
    (h : d.Rewritten (c.rewriting source destination fresh) d')
    (hgroup : c.sourceItem ≠ propertyGroupElement) (g : GlobalProperties) :
    (evaluate d' g).table = (evaluate d g).table := by
  show d'.propertyGroups.foldl _ _ = d.propertyGroups.foldl _ _
  rw [Document.foldl_propertyGroups, Document.foldl_propertyGroups, h.map_filter_elements]
  · intro id text
    rw [Rewrite.children_linkElement, List.isEmpty_nil, Bool.not_true, Bool.and_false]
  · intro grouped e
    by_cases hname : e.name = propertyGroupElement
    · simp [Element.children_rewrite_of_propertyGroup hgroup hname]
    · rw [Element.name_rewrite, beq_false_of_ne hname, Bool.false_and, Bool.false_and]
  · intro grouped e hsees
    have hname : e.name = propertyGroupElement := by
      simpa using (Bool.and_eq_true_iff.mp hsees).1
    funext t
    exact PropertyTable.applyGroup_rewrite hgroup hname grouped

/-! ## Places -/

namespace Document

variable {how : Rewriting} {d d' : Document}

/-- An element of a document is there after rewriting, and is seen as it was by those who see no
difference. -/
theorem Rewritten.find?_tree (h : d.Rewritten how d') (hd : d.tree.WellFormed) {β : Type}
    {view : Element → β} (hview : ∀ grouped e, view (e.rewrite how grouped) = view e) {e : Element}
    (he : e ∈ d.elements) : (d'.tree.find? e.id).map view = some (view e) := by
  have hid : e.id ∈ d.tree.content.nodeIds := Forest.id_mem_nodeIds he
  have hroot : e.id ≠ rootId := by
    intro heq
    exact hd.root_not_mem (heq ▸ hid)
  have hlt : e.id < d.tree.next := hd.lt_next _ (List.mem_cons_of_mem _ hid)
  have hsame : (d'.elements.filter (·.id == e.id)).map view
      = (d.elements.filter (·.id == e.id)).map view := by
    refine h.map_filter_elements (fun id text => ?_) (fun _ _ => rfl) fun grouped e _ =>
      hview grouped e
    exact beq_false_of_ne (Nat.ne_of_gt (Nat.lt_of_lt_of_le hlt (h.fresh id)))
  have hfind := hd.find?_of_mem (List.mem_cons_of_mem _ he)
  rw [Tree.find?_of_ne_root _ hroot] at hfind ⊢
  rw [← List.head?_filter, ← List.head?_map]
  rw [← List.head?_filter] at hfind
  show ((d'.elements.filter _).map view).head? = _
  rw [hsame, List.head?_map]
  show (d.tree.content.elements.filter _).head?.map view = _
  rw [hfind, Option.map_some]

/-- The first element of a name that satisfies a predicate is the same after rewriting, if the
predicate sees no difference and does not hold of links. -/
theorem Rewritten.find_named (h : d.Rewritten how d') {name : String} {p : Element → Bool}
    (hlink : ∀ id text, p (Rewrite.linkElement how.link (how.fresh id) text) = false)
    (hp : ∀ grouped e, e.name = name → p (e.rewrite how grouped) = p e) :
    ((d'.elementsNamed name).filter p).head?.map Element.id
      = ((d.elementsNamed name).filter p).head?.map Element.id := by
  rw [elementsNamed, elementsNamed, List.filter_filter, List.filter_filter, ← List.head?_map,
    ← List.head?_map, h.map_filter_elements]
  · intro id text
    rw [hlink, Bool.false_and]
  · intro grouped e
    rw [Element.name_rewrite]
    by_cases hname : e.name = name
    · rw [hp grouped e hname]
    · rw [beq_false_of_ne hname, Bool.and_false, Bool.and_false]
  · exact fun _ _ _ => rfl

/-- What has been found in a document carries over to the rewritten one. -/
theorem Rewritten.bind_counterpart? (h : d.Rewritten how d') (hd : d.tree.WellFormed)
    {found? : Option Element} (hfound : ∀ e ∈ found?, e ∈ d.elements) :
    (found?.map d.ref).bind d'.counterpart? = found?.map d'.ref := by
  cases found? with
  | none => rfl
  | some e =>
    have hfind := h.find?_tree hd (fun _ _ => Element.id_rewrite) (hfound e rfl)
    obtain ⟨e', he', hid⟩ := Option.map_eq_some_iff.mp hfind
    show (d'.tree.find? e.id).map d'.ref = some (d'.ref e)
    rw [he', Option.map_some, ref, ref, hid]

end Document

/-! ### Which elements they are -/

namespace Conventions

variable {grouped : Bool} {e : Element}

theorem holdsIdentifier_rewrite (hgroup : c.sourceItem ≠ propertyGroupElement)
    (hname : e.name = propertyGroupElement) :
    c.holdsIdentifier (e.rewrite (c.rewriting source destination fresh) grouped)
      = c.holdsIdentifier e := by
  rw [holdsIdentifier, holdsIdentifier, Element.child?_rewrite_of_propertyGroup hgroup hname,
    Option.isSome_map]

/-- Whether an item refers to the baseline assembly. -/
def isBaseline (c : Conventions) (item : Element) : Bool :=
  item.name == c.referenceItem && item.include?.any (isReferenceTo c.baselineReference)

/-- References are no sources. -/
theorem isBaseline_rewrite (hreference : c.sourceItem ≠ c.referenceItem) (grouped : Bool)
    (item : Element) : c.isBaseline (item.rewrite (c.rewriting source destination fresh) grouped)
      = c.isBaseline item := by
  rw [isBaseline, isBaseline, Element.name_rewrite]
  by_cases hname : item.name = c.referenceItem
  · have hne : item.name ≠ c.sourceItem := hname ▸ Ne.symm hreference
    rw [Element.rewrite_of_choose_eq_none (choose_of_name_ne hne grouped)]
    rfl
  · rw [beq_false_of_ne hname, Bool.false_and, Bool.false_and]

/-- A link refers to no assembly, whatever it is called. -/
theorem isBaseline_linkElement (link : String) (id : NodeId) (text : String) :
    c.isBaseline (Rewrite.linkElement link id text) = false := by
  have hinclude : (Rewrite.linkElement link id text).include? = none := rfl
  rw [isBaseline, hinclude, Option.any_none, Bool.and_false]

theorem holdsBaseline_rewrite (hreference : c.sourceItem ≠ c.referenceItem) :
    c.holdsBaseline (e.rewrite (c.rewriting source destination fresh) grouped)
      = c.holdsBaseline e := by
  have hlink : (Rewrite.added ((c.rewriting source destination fresh).choose grouped e)
      (c.rewriting source destination fresh).link
      ((c.rewriting source destination fresh).fresh e.id)).children.any c.isBaseline = false := by
    refine List.any_eq_false.mpr fun item hmem => ?_
    obtain ⟨text, rfl⟩ := Rewrite.mem_children_added hmem
    rw [isBaseline_linkElement]
    exact Bool.false_ne_true
  show (e.rewrite _ grouped).children.any c.isBaseline = e.children.any c.isBaseline
  rw [Element.children_rewrite, List.any_append, hlink, Bool.or_false, List.any_map]
  simp only [Function.comp_def, isBaseline_rewrite hreference]

theorem importsBuildTools_rewrite :
    c.importsBuildTools (e.rewrite (c.rewriting source destination fresh) grouped)
      = c.importsBuildTools e := by
  rw [importsBuildTools, importsBuildTools, Element.project?, Element.project?,
    Element.attribute?_rewrite (by decide)]

end Conventions

/-! ### Projects -/

namespace Project

/-- What a project finds by a reference, if it has the right name. -/
theorem place?_ref {p : Project} {e found : Element}
    (h : p.document.tree.find? e.id = some found) (name : String) :
    p.place? (some (p.document.ref e)) name = (some found).filter (·.name == name) := by
  rw [place?, Option.bind_some, Document.resolve_eq_ok rfl h]
  rfl

/-- What is seen at a place is seen there after rewriting. -/
theorem map_place?_rewritten {p p' : Project} {how : Rewriting}
    (h : p.document.Rewritten how p'.document) (hp : p.document.tree.WellFormed) {β : Type}
    {view : Element → β} {name : String}
    (hview : ∀ grouped e, e.name = name → view (e.rewrite how grouped) = view e)
    {found? : Option Element} (hfound : ∀ e ∈ found?, e ∈ p.document.elements) :
    (p'.place? (found?.map p'.document.ref) name).map view
      = (p.place? (found?.map p.document.ref) name).map view := by
  cases found? with
  | none => rfl
  | some e =>
    have he : e ∈ p.document.elements := hfound e rfl
    let seen := fun e : Element => ((some e).filter (·.name == name)).map view
    have hseen (grouped : Bool) (e : Element) : seen (e.rewrite how grouped) = seen e := by
      by_cases hname : e.name = name
      · simp [seen, Option.filter_some, hname, hview]
      · simp [seen, Option.filter_some, hname]
    have hfind := hp.find?_of_mem (List.mem_cons_of_mem _ he)
    obtain ⟨e', hfind', hsame⟩ := Option.map_eq_some_iff.mp (h.find?_tree hp hseen he)
    rw [Option.map_some, Option.map_some, place?_ref hfind, place?_ref hfind']
    exact hsame

/-- What a copy has from its source when it is made: an evaluation and three places. -/
structure MadeFrom (copy : Project) (d : Document) (c : Conventions) : Prop where
  conventions : copy.conventions = c
  table : copy.evaluation.table = (Evaluation.evaluate d c.globalProperties).table
  propertyGroup : copy.propertyGroup? =
    (d.findPropertyGroup? c.holdsIdentifier).map copy.document.ref
  itemGroup : copy.itemGroup? = (d.findItemGroup? c.holdsBaseline).map copy.document.ref
  buildTools : copy.buildTools? = (d.findImport? c.importsBuildTools).map copy.document.ref

/-- A copy means what its original means: it has the same properties, stored and evaluated when they
are asked for, the same identifier, and its places are those of the original, carried over. They
lead to the same elements. -/
structure MeansAs (copy original : Project) : Prop where
  stored : copy.evaluation.table = original.evaluation.table
  evaluated : ∀ name, (copy.evaluatedProperty? name).1 = original.evaluation.property? name
  guid : copy.guid? = original.guid?
  propertyGroup : copy.propertyGroup? = original.propertyGroup?.bind copy.document.counterpart?
  itemGroup : copy.itemGroup? = original.itemGroup?.bind copy.document.counterpart?
  buildTools : copy.buildTools? = original.buildTools?.bind copy.document.counterpart?
  defaultPropertyGroup :
    copy.defaultPropertyGroup?.map Element.id = original.defaultPropertyGroup?.map Element.id
  defaultItemGroup :
    copy.defaultItemGroup?.map Element.id = original.defaultItemGroup?.map Element.id
  buildToolsImport :
    copy.buildToolsImport?.map Element.id = original.buildToolsImport?.map Element.id

/-- Two projects have the same places. -/
structure SamePlaces (p q : Project) : Prop where
  propertyGroup : p.propertyGroup? = q.propertyGroup?
  itemGroup : p.itemGroup? = q.itemGroup?
  buildTools : p.buildTools? = q.buildTools?

variable {d : Document} {copy : Project}

/-- What is found among the elements of a name is an element. -/
theorem mem_elements_of_find {name : String} {sees : Element → Bool} :
    ∀ e ∈ ((d.elementsNamed name).filter sees).head?, e ∈ d.elements := by
  intro e he
  exact (List.mem_filter.mp (List.mem_filter.mp (List.mem_of_mem_head? he)).1).1

/-- Evaluating a copy again gives what it was made with. -/
theorem MadeFrom.table_reevaluate (h : copy.MadeFrom d c)
    (hd : d.Rewritten (c.rewriting source destination fresh) copy.document)
    (hgroup : c.sourceItem ≠ propertyGroupElement) :
    copy.reevaluate.2.evaluation.table = (Evaluation.evaluate d c.globalProperties).table := by
  unfold reevaluate
  split
  · exact h.table
  · show (Evaluation.evaluate copy.document copy.conventions.globalProperties).table = _
    rw [h.conventions]
    exact Evaluation.table_evaluate_rewritten hd hgroup _

/-- The identifier is read off the property group of the project. -/
theorem guid?_eq (p : Project) : p.guid? = (p.defaultPropertyGroup?.map fun group =>
    (group.child? p.conventions.identifierProperty).map Element.text).bind fun text? =>
      text?.bind fun text => Guid.parse? (trimmed text) := by
  simp only [guid?, Option.bind_map, Function.comp_def]

/-- **A copy with rewritten sources means what its original means.** -/
theorem MadeFrom.meansAs (h : copy.MadeFrom d c) (hwf : d.tree.WellFormed)
    (hd : d.Rewritten (c.rewriting source destination fresh) copy.document)
    (hgroup : c.sourceItem ≠ propertyGroupElement) : copy.MeansAs (ofDocument d c) := by
  have hplace {found? : Option Element} (hfound : ∀ e ∈ found?, e ∈ d.elements) (name : String) :
      (copy.place? (found?.map copy.document.ref) name).map Element.id
        = ((ofDocument d c).place? (found?.map d.ref) name).map Element.id :=
    map_place?_rewritten hd hwf (fun _ _ _ => rfl) hfound
  constructor
  · exact h.table
  · intro name
    show copy.reevaluate.2.evaluation.table.value? name = _
    rw [h.table_reevaluate hd hgroup]
    rfl
  · have htext (grouped : Bool) (e : Element) (hname : e.name = propertyGroupElement) :
        ((e.rewrite (c.rewriting source destination fresh) grouped).child?
            c.identifierProperty).map Element.text
          = (e.child? c.identifierProperty).map Element.text := by
      rw [Element.child?_rewrite_of_propertyGroup hgroup hname, Option.map_map]
      congr 1
      funext property
      exact Element.text_rewrite
    rw [guid?_eq, guid?_eq, h.conventions, defaultPropertyGroup?, h.propertyGroup]
    congr 1
    exact map_place?_rewritten hd hwf htext mem_elements_of_find
  · rw [h.propertyGroup]
    exact (hd.bind_counterpart? hwf mem_elements_of_find).symm
  · rw [h.itemGroup]
    exact (hd.bind_counterpart? hwf mem_elements_of_find).symm
  · rw [h.buildTools]
    exact (hd.bind_counterpart? hwf mem_elements_of_find).symm
  · rw [defaultPropertyGroup?, h.propertyGroup]
    exact hplace mem_elements_of_find _
  · rw [defaultItemGroup?, h.itemGroup]
    exact hplace mem_elements_of_find _
  · rw [buildToolsImport?, h.buildTools]
    exact hplace mem_elements_of_find _

/-- **What is found in the rewritten document is what was found in the original.** -/
theorem MadeFrom.samePlaces (h : copy.MadeFrom d c)
    (hd : d.Rewritten (c.rewriting source destination fresh) copy.document)
    (hgroup : c.sourceItem ≠ propertyGroupElement) (hreference : c.sourceItem ≠ c.referenceItem) :
    (ofDocument copy.document c).SamePlaces copy := by
  have hplace {name : String} {sees : Element → Bool}
      (hfind : ((copy.document.elementsNamed name).filter sees).head?.map Element.id
        = ((d.elementsNamed name).filter sees).head?.map Element.id) :
      ((copy.document.elementsNamed name).filter sees).head?.map copy.document.ref
        = ((d.elementsNamed name).filter sees).head?.map copy.document.ref := by
    have hrefs := congrArg (Option.map (ElementRef.mk copy.document.id)) hfind
    rwa [Option.map_map, Option.map_map] at hrefs
  constructor
  · rw [h.propertyGroup]
    refine hplace (hd.find_named (fun id text => ?_) fun grouped e hname => ?_)
    · rfl
    · exact Conventions.holdsIdentifier_rewrite hgroup hname
  · rw [h.itemGroup]
    refine hplace (hd.find_named (fun id text => ?_) fun grouped e hname => ?_)
    · rfl
    · exact Conventions.holdsBaseline_rewrite hreference
  · rw [h.buildTools]
    refine hplace (hd.find_named (fun id text => ?_) fun grouped e hname => ?_)
    · rfl
    · exact Conventions.importsBuildTools_rewrite

end Project

end BuildProject
