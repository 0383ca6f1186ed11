import BuildProject.Proofs.Document.Placement
import BuildProject.Proofs.Tree.Child

/-!
# Values of properties and metadata

A property of a group and the metadata of an item are set in one way: the first child of the name
gets the value for its only content, and if there is none a new child at the end does. The value is
read back from it, nothing else changes (`Document.ValueSet`), and of two values the second stays
as if the first had not been set (`Document.Reachable.setValue`).
-/

namespace BuildProject

open Markup

variable {d d' : Document} {r s : ElementRef} {e : Element}

/-! ## What is set -/

/-- What setting a value under a name does to an element `e` of a document: it becomes `e'`, and
`child` has the value. -/
structure Document.ValueSet (d : Document) (e : Element) (name value : String) (d' : Document)
    (e' child : Element) : Prop where
  /-- The value is read back as a property and as metadata, from the first child of the name. -/
  read : e'.child? name = some child ∧ child.text = value ∧ e'.metadata? name = some value
  /-- The child holds the value and nothing else. -/
  only : child.children = [] ∧
    child.content.leaves = if value.isEmpty then [] else [.text value]
  /-- A child that was there is the same one, with its attributes. -/
  reused : ∀ old, e.child? name = some old → child.id = old.id ∧ child.tag = old.tag
  /-- A child that was not there is a new one without attributes. -/
  added : e.child? name = none → d.tree.find? child.id = none ∧ child.tag = ⟨name, []⟩
  /-- It has been added behind the other children exactly if there was none of the name. -/
  appended : e'.children = e.children ++ [child] ↔ e.child? name = none
  /-- Only this element is another one. -/
  whole : d'.tree.whole = d.tree.whole.replaceAt e.id fun _ => .ofElement e'
  /-- The nodes beside the child are the same as before. -/
  beside : ∃ left right, e.content = left ++ (e.under name ++ right) ∧
    e'.content = left ++ (.ofElement child ++ right)
  /-- All elements but the child and those that were inside it keep their order, and each its name,
  its attributes and its text. -/
  others : ∃ before after,
    d.root :: d.elements = before ++ ((e.under name).elements ++ after) ∧
    (d'.root :: d'.elements).map Element.face = (before ++ child :: after).map Element.face

namespace Element

variable {left right : Forest} {name : String}

/-- An element shows the same with other elements between the nodes that it holds. -/
theorem face_between (id : NodeId) (tag : Tag) (left right : Forest) {f g : Forest}
    (h : f.leaves = g.leaves) :
    face ⟨id, tag, left ++ (f ++ right)⟩ = face ⟨id, tag, left ++ (g ++ right)⟩ := by
  simp only [face, text, Forest.text, Forest.leaves_append, h]

/-- The child of a name is found behind nodes that are not of the name. -/
theorem child?_between {child : Element} (id : NodeId) (tag : Tag) (right : Forest)
    (hleft : left.children.find? (·.name == name) = none) (hname : child.name = name) :
    child? ⟨id, tag, left ++ (.ofElement child ++ right)⟩ name = some child := by
  have hchild : (child.name == name) = true := beq_iff_eq.mpr hname
  simp [child?, children, Forest.children_append, List.find?_append, hleft, Forest.ofElement,
    Forest.children, hchild]

/-- A child that takes the place of the first of its name is added behind the others exactly if
there is none. -/
theorem children_between_iff {e : Element} (child : Element) (id : NodeId) (tag : Tag)
    (hcontent : e.content = left ++ (e.under name ++ right))
    (hlast : e.child? name = none → right = .nil) :
    children ⟨id, tag, left ++ (.ofElement child ++ right)⟩ = e.children ++ [child] ↔
      e.child? name = none := by
  have hchildren : e.children = left.children ++ ((e.child? name).toList ++ right.children) := by
    rw [children, hcontent, Forest.children_append, Forest.children_append, children_under]
  have hbetween : children ⟨id, tag, left ++ (.ofElement child ++ right)⟩ =
      left.children ++ (child :: right.children) := by
    rw [children, Forest.children_append, Forest.children_append]
    rfl
  rw [hchildren, hbetween]
  constructor
  · intro hadded
    have hlength := congrArg List.length hadded
    cases hchild : e.child? name with
    | none => rfl
    | some old =>
      simp only [hchild, Option.toList_some, List.length_append, List.length_cons,
        List.length_nil] at hlength
      omega
  · intro hnone
    rw [hnone, hlast hnone]
    simp [Forest.children]

end Element

/-- **What setting a value does to the tree.** -/
theorem Tree.WellFormed.valueSet (h : d.tree.WellFormed) (he : e ∈ d.root :: d.elements)
    (name value : String) (revision : Nat) :
    ∃ e' child, (d.tree.setChild e name value).find? e.id = some e' ∧
      child.id = (d.tree.childNamed e name).id ∧ e'.tag = e.tag ∧
      d.ValueSet e name value (d.setTree (d.tree.setChild e name value) revision) e' child := by
  obtain ⟨left, right, hcontent, hleft, hlast⟩ := e.exists_split_under name
  obtain ⟨id, hwhole⟩ := h.exists_setChild he name value hcontent hlast
  let child : Element :=
    ⟨(d.tree.childNamed e name).id, (d.tree.childNamed e name).tag, .ofText id value⟩
  let e' : Element := ⟨e.id, e.tag, left ++ (.ofElement child ++ right)⟩
  have hmem : e ∈ d.tree.whole.elements := by rwa [elements_whole]
  have he' : e' ∈ (d.tree.setChild e name value).whole.elements := by
    rw [hwhole]
    exact Forest.mem_replaceAt h.nodup_whole hmem e'
  rw [elements_whole] at he'
  have hchild? : e'.child? name = some child :=
    Element.child?_between e.id e.tag right hleft (d.tree.name_childNamed e name)
  have htext : child.text = value := Forest.text_ofText id value
  have hface : e'.face = e.face := by
    have hleaves : (Forest.ofElement child).leaves = (e.under name).leaves :=
      (e.leaves_under name).symm
    rw [Element.face_between e.id e.tag left right hleaves, ← hcontent]
  refine ⟨e', child, (h.setChild e name value).find?_of_mem he', rfl, rfl, ?_⟩
  constructor
  case read => exact ⟨hchild?, htext, by rw [Element.metadata?, hchild?, ← htext]; rfl⟩
  case only => exact ⟨Forest.children_ofText id value, Forest.leaves_ofText id value⟩
  case reused =>
    intro old hold
    simp [child, Tree.childNamed, hold]
  case added =>
    intro hnone
    have hnew : d.tree.childNamed e name = d.tree.newElement name := by
      rw [Tree.childNamed, hnone, Option.getD_none]
    simp only [child, hnew]
    refine ⟨Option.eq_none_iff_forall_ne_some.mpr fun found hfound => ?_, rfl⟩
    exact h.next_not_mem (id_mem_of_find? hfound)
  case appended => exact Element.children_between_iff child e.id e.tag hcontent hlast
  case whole => exact hwhole
  case beside => exact ⟨left, right, hcontent, rfl⟩
  case others =>
    obtain ⟨before, after, hsplit, hfaces⟩ := h.exists_split he
    refine ⟨before ++ e :: left.elements, right.elements ++ after, ?_, ?_⟩
    · show d.tree.root :: d.tree.elements = _
      rw [hsplit, hcontent]
      simp
    · refine (hfaces _ _ hwhole fun _ => rfl).1.trans ?_
      have hinside : child.content.elements = [] := Forest.elements_ofText id value
      show (before ++ ((Forest.ofElement e').elements ++ after)).map Element.face = _
      rw [Forest.elements_ofElement, Forest.elements_append, Forest.elements_append,
        Forest.elements_ofElement, hinside]
      simp [hface]

namespace Edit

/-! ## Setting -/

/-- Metadata is set in the first child of the name or in a new one. -/
theorem exists_run_setMetadata (hd : d.tree.WellFormed) (h : d.resolve r = .ok e)
    (name value : String) : ∃ revision, (setMetadata r name value).run.run d =
      (.ok ⟨d.id, (d.tree.childNamed e name).id⟩,
        d.setTree (d.tree.setChild e name value) revision) := by
  obtain ⟨-, hfind⟩ := Document.resolve_eq_ok_iff.mp h
  rw [Tree.childNamed, Tree.setChild]
  cases hchild : e.child? name with
  | some child =>
    have hmem := Tree.children_subset (Document.mem_of_resolve h) (List.mem_of_find?_eq_some hchild)
    have hresolve : d.resolve (d.ref child) = .ok child :=
      Document.resolve_eq_ok rfl (hd.find?_of_mem hmem)
    refine ⟨d.revision + 1, ?_⟩
    rw [setMetadata, run_bind_ok (run_childNamed_of_some h hchild),
      run_bind_ok (run_setText hresolve value)]
    rfl
  | none =>
    refine ⟨d.revision + 2, ?_⟩
    rw [setMetadata, run_bind_ok (run_childNamed_of_none h hchild),
      run_bind_ok (run_setText (resolve_appended hd hfind name) value)]
    rfl

/-- An element of the right name is what is asked for. -/
theorem run_expectKind_of_eq (h : d.resolve r = .ok e) {kind : String} (hname : e.name = kind) :
    (expectKind r kind).run.run d = (.ok ⟨⟩, d) := by
  rw [run_expectKind h, if_neg (not_not_intro hname)]

/-- A property is set like metadata if the element is a property group. -/
theorem run_setProperty (h : d.resolve r = .ok e) (hname : e.name = propertyGroupElement)
    (name value : String) :
    (setProperty r name value).run.run d = (setMetadata r name value).run.run d := by
  rw [setProperty, run_bind_ok (run_expectKind_of_eq h hname)]
  rfl

/-- The edits that set a value under a name, with the name that the element itself must have. -/
inductive SetsValue : (ElementRef → String → String → Edit ElementRef) → Option String → Prop where
  | property : SetsValue setProperty (some propertyGroupElement)
  | metadata : SetsValue setMetadata none

variable {set : ElementRef → String → String → Edit ElementRef} {kind? : Option String}
  {name value : String}

/-- A value is set in an element that is there and has the right name. -/
theorem SetsValue.exists_resolve (hset : SetsValue set kind?)
    (hrun : (set r name value).run.run d = (.ok s, d')) :
    ∃ e, d.resolve r = .ok e ∧ ∀ kind ∈ kind?, e.name = kind := by
  cases hset with
  | property =>
    obtain ⟨_, _, hexpect, -⟩ := run_bind_eq_ok.mp hrun
    obtain ⟨e, he, hname⟩ := run_resolve_bind_eq_ok.mp hexpect
    refine ⟨e, he, fun kind hkind => ?_⟩
    obtain rfl := Option.some.inj hkind
    split at hname
    · exact absurd (Prod.mk.inj hname).1 (by simp)
    · next heq => exact not_not.mp heq
  | metadata =>
    obtain ⟨_, _, hchild, -⟩ := run_bind_eq_ok.mp hrun
    obtain ⟨e, he, -⟩ := run_resolve_bind_eq_ok.mp hchild
    exact ⟨e, he, fun _ hkind => absurd hkind (by simp)⟩

/-- **Both edits do the same** where the element has the right name. -/
theorem SetsValue.exists_run (hset : SetsValue set kind?) (hd : d.tree.WellFormed)
    (h : d.resolve r = .ok e) (hkind : ∀ kind ∈ kind?, e.name = kind) (name value : String) :
    ∃ revision, (set r name value).run.run d = (.ok ⟨d.id, (d.tree.childNamed e name).id⟩,
      d.setTree (d.tree.setChild e name value) revision) := by
  cases hset with
  | property =>
    rw [run_setProperty h (hkind _ rfl)]
    exact exists_run_setMetadata hd h name value
  | metadata => exact exists_run_setMetadata hd h name value

end Edit

/-- **Values are set and read back.** Setting a property of a property group or the metadata of an
item gives the value to one child, whose reference is the answer, and leaves everything else as it
was. A second value makes the same tree as setting it alone, but for the identities of leaves. -/
theorem Document.Reachable.setValue (hd : d.Reachable)
    {set : ElementRef → String → String → Edit ElementRef} {kind? : Option String}
    (hset : Edit.SetsValue set kind?) {name value : String}
    (hrun : (set r name value).run.run d = (.ok s, d')) :
    ∃ e e' child, d.resolve r = .ok e ∧ d'.resolve r = .ok e' ∧ s = d'.ref child ∧
      d' = d.setTree d'.tree d'.revision ∧ d.ValueSet e name value d' e' child ∧
      ∀ other, ∃ once twice, (set r name other).run.run d = (.ok s, once) ∧
        (set r name other).run.run d' = (.ok s, twice) ∧
        twice.tree.whole.withoutLeafIds = once.tree.whole.withoutLeafIds := by
  have hwf := hd.wellFormed
  obtain ⟨e, he, hkind⟩ := hset.exists_resolve hrun
  obtain ⟨revision, hfirst⟩ := hset.exists_run hwf he hkind name value
  obtain ⟨hs, rfl⟩ := Prod.mk.inj (hrun.symm.trans hfirst)
  obtain rfl := Except.ok.inj hs
  obtain ⟨e', child, hfind, hid, htag, hvalue⟩ :=
    hwf.valueSet (mem_of_resolve he) name value revision
  obtain ⟨hdocument, hnode⟩ := resolve_eq_ok_iff.mp he
  have he' : (d.setTree (d.tree.setChild e name value) revision).resolve r = .ok e' :=
    resolve_eq_ok hdocument (Tree.id_of_find? hnode ▸ hfind)
  refine ⟨e, e', child, he, he', by rw [ref, hid]; rfl, rfl, hvalue, fun other => ?_⟩
  obtain ⟨_, honce⟩ := hset.exists_run hwf he hkind name other
  obtain ⟨_, htwice⟩ := hset.exists_run (hwf.setChild e name value) he'
    (fun kind hmem => (congrArg Tag.name htag).trans (hkind kind hmem)) name other
  have hfound : e'.child? name = some child := hvalue.read.1
  rw [Tree.childNamed_of_some hfound, Document.setTree_tree, Tree.setChild_of_some hfound, hid]
    at htwice
  exact ⟨_, _, honce, htwice, d.tree.withoutLeafIds_setText_setChild e name value other⟩

/-- A property with an attribute, an element and character data is set to the empty text: it keeps
its attribute and nothing else, and the second property of the name is left alone. -/
theorem Document.Reachable.setValue_empty :
    ∃ (d d' : Document) (e e' child : Element), Document.parse ⟨0⟩
        "<Project><PropertyGroup><A x='1'>a<B/><![CDATA[c]]></A><A>2</A></PropertyGroup></Project>"
        = .ok d ∧
      (Edit.setProperty ⟨⟨0⟩, 1⟩ "A" "").run.run d = (.ok ⟨⟨0⟩, 2⟩, d') ∧
      d.resolve ⟨⟨0⟩, 1⟩ = .ok e ∧ d'.resolve ⟨⟨0⟩, 1⟩ = .ok e' ∧
      d.ValueSet e "A" "" d' e' child ∧ child.tag = ⟨"A", [⟨"x", "1"⟩]⟩ ∧
      child.content.leaves = [] := by
  let a : Element := ⟨2, ⟨"A", [⟨"x", "1"⟩]⟩, .leaf 3 (.text "a") (.element 4 ⟨"B", []⟩ .nil
    (.leaf 5 (.cdata "c") .nil))⟩
  let group : Element := ⟨1, ⟨"PropertyGroup", []⟩,
    .ofElement a ++ .element 6 ⟨"A", []⟩ (.leaf 7 (.text "2") .nil) .nil⟩
  let d : Document := .ofContent ⟨0⟩ ⟨⟨⟨"Project", []⟩, .ofElement group, 8⟩, none, []⟩
  have hparse : Document.parse ⟨0⟩
      "<Project><PropertyGroup><A x='1'>a<B/><![CDATA[c]]></A><A>2</A></PropertyGroup></Project>"
      = .ok d := by
    decide +kernel
  have hanswer : ((Edit.setProperty ⟨⟨0⟩, 1⟩ "A" "").run.run d).1 = .ok ⟨⟨0⟩, 2⟩ := by
    decide +kernel
  obtain ⟨d', hrun⟩ := exists_run_eq hanswer
  obtain ⟨e, e', child, he, he', -, -, hvalue, -⟩ :=
    Document.Reachable.setValue (.parsed hparse) .property hrun
  have hgroup : d.resolve ⟨⟨0⟩, 1⟩ = .ok group := by decide +kernel
  obtain rfl := Except.ok.inj (he.symm.trans hgroup)
  have ha : group.child? "A" = some a := by decide +kernel
  exact ⟨d, d', group, e', child, hparse, hrun, he, he', hvalue, (hvalue.reused a ha).2,
    hvalue.only.2⟩

end BuildProject
