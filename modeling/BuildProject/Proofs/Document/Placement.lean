import BuildProject.Proofs.Document.Reachable

/-!
# Where elements are put and removed

An edit of the structure puts some nodes in the place of one element. In the list of all elements
this is a change at one point (`Forest.faces_replaceAt`), and in the element around it a change
between two siblings (`Forest.exists_around`). So a new element stands right before the one it is
put before, or behind the last element inside the one it is put behind or appended to; a removed
element leaves with those inside it; all others stay in order, with their attributes and their text
(`Document.Reachable.placement`).
-/

namespace BuildProject

open Markup

/-! ## What stays of an element -/

/-- An element without what is inside it, except for its text. -/
structure Face where
  id : NodeId
  tag : Tag
  text : String
deriving DecidableEq, Repr

/-- What an element shows from outside. -/
def Element.face (e : Element) : Face :=
  ⟨e.id, e.tag, e.text⟩

namespace Forest

variable {f : Forest} {e : Element}

/-- Text stays where elements are replaced by elements. -/
theorem leaves_replaceAt {replacement : Element → Forest} (h : ∀ e, (replacement e).leaves = [])
    (f : Forest) (target : NodeId) : (f.replaceAt target replacement).leaves = f.leaves := by
  induction f with
  | nil => rfl
  | element id tag content rest _ ih =>
    rw [replaceAt]
    split
    · rw [leaves_append, h, List.nil_append]
      rfl
    · exact ih
  | leaf id l rest ih => exact congrArg (l :: ·) ih

theorem elements_ofElement (e : Element) : (ofElement e).elements = e :: e.content.elements := by
  rw [ofElement, elements, elements, List.append_nil]

/-- An element shows the same with another one at its end. -/
theorem face_append_ofElement (e new : Element) :
    Element.face ⟨e.id, e.tag, e.content ++ ofElement new⟩ = e.face := by
  have hleaves : (e.content ++ ofElement new).leaves = e.content.leaves :=
    (leaves_append ..).trans (List.append_nil _)
  rw [Element.face, Element.face, Element.text, Element.text, text, text, hleaves]

theorem face_replaceAt {replacement : Element → Forest} (h : ∀ e, (replacement e).leaves = [])
    (target : NodeId) (e : Element) : (e.replaceAt target replacement).face = e.face := by
  rw [Element.face, Element.face, Element.text, Element.text, text, text, Element.replaceAt,
    leaves_replaceAt h]

/-- **Replacing an element changes the list of the elements at one point.** -/
theorem faces_replaceAt (hnodup : f.nodeIds.Nodup) (he : e ∈ f.elements) :
    ∃ before after, f.elements = before ++ ((ofElement e).elements ++ after) ∧
      ∀ replacement : Element → Forest, (∀ e, (replacement e).leaves = []) →
        (f.replaceAt e.id replacement).elements.map Element.face =
          (before ++ ((replacement e).elements ++ after)).map Element.face ∧
        (replacement e).elements ⊆ (f.replaceAt e.id replacement).elements := by
  obtain ⟨before, after, hbefore, hafter⟩ := elements_replaceAt hnodup he
  refine ⟨before, after, hbefore, fun replacement hreplacement => ?_⟩
  have hsame : Element.face ∘ Element.replaceAt e.id replacement = Element.face :=
    funext (face_replaceAt hreplacement e.id)
  rw [hafter, List.map_append, List.map_map, hsame, ← List.map_append]
  exact ⟨rfl, List.subset_append_of_subset_right _ (List.subset_append_left _ _)⟩

/-- **Replacing an element changes one forest at one point**: the nodes at the top, or those inside
another element. -/
theorem exists_around (hnodup : f.nodeIds.Nodup) (he : e ∈ f.elements) :
    (∃ left right, f = left ++ (ofElement e ++ right) ∧
      ∀ replacement, f.replaceAt e.id replacement = left ++ (replacement e ++ right)) ∨
    ∃ parent ∈ f.elements, ∃ left right, parent.content = left ++ (ofElement e ++ right) ∧
      ∀ replacement, ⟨parent.id, parent.tag, left ++ (replacement e ++ right)⟩ ∈
        (f.replaceAt e.id replacement).elements := by
  induction f with
  | nil => exact absurd he List.not_mem_nil
  | element id tag content rest ihContent ihRest =>
    have hwhole := hnodup
    obtain ⟨-, hnodup⟩ := List.nodup_cons.mp hnodup
    obtain ⟨hnodupContent, hnodupRest, -⟩ := List.nodup_append'.mp hnodup
    rcases List.mem_cons.mp he with rfl | he
    · exact .inl ⟨.nil, rest, rfl, fun replacement => by rw [replaceAt, if_pos rfl]; rfl⟩
    rcases List.mem_append.mp he with he | he
    · -- what is at the top inside this element has it for the one around
      simp only [replaceAt_of_mem_content hwhole he, elements]
      rcases ihContent hnodupContent he with ⟨left, right, hcontent, hreplaced⟩ |
        ⟨parent, hparent, left, right, hcontent, hreplaced⟩
      · refine .inr ⟨⟨id, tag, content⟩, List.mem_cons_self, left, right, hcontent, fun r => ?_⟩
        rw [hreplaced]
        exact List.mem_cons_self
      · exact .inr ⟨parent, List.mem_cons_of_mem _ (List.mem_append_left _ hparent), left, right,
          hcontent, fun r => List.mem_cons_of_mem _ (List.mem_append_left _ (hreplaced r))⟩
    · simp only [replaceAt_of_mem_rest hwhole he, elements]
      rcases ihRest hnodupRest he with ⟨left, right, hrest, hreplaced⟩ |
        ⟨parent, hparent, left, right, hcontent, hreplaced⟩
      · exact .inl ⟨element id tag content left, right, congrArg (element id tag content) hrest,
          fun r => congrArg (element id tag content) (hreplaced r)⟩
      · exact .inr ⟨parent, List.mem_cons_of_mem _ (List.mem_append_right _ hparent), left, right,
          hcontent, fun r => List.mem_cons_of_mem _ (List.mem_append_right _ (hreplaced r))⟩
  | leaf id l rest ih =>
    rcases ih (List.nodup_cons.mp hnodup).2 he with ⟨left, right, hrest, hreplaced⟩ | hinside
    · exact .inl ⟨leaf id l left, right, congrArg (leaf id l) hrest,
        fun r => congrArg (leaf id l) (hreplaced r)⟩
    · exact .inr hinside

end Forest

/-! ## Trees -/

namespace Tree

variable {t : Tree} {e : Element}

/-- What replacing an element does to the list of all elements; those put there are among them. -/
theorem WellFormed.exists_split (h : t.WellFormed) (he : e ∈ t.root :: t.elements) :
    ∃ before after, t.root :: t.elements = before ++ e :: (e.content.elements ++ after) ∧
      ∀ (t' : Tree) (replacement : Element → Forest),
        t'.whole = t.whole.replaceAt e.id replacement → (∀ e, (replacement e).leaves = []) →
        (t'.root :: t'.elements).map Element.face =
          (before ++ ((replacement e).elements ++ after)).map Element.face ∧
        (replacement e).elements ⊆ t'.root :: t'.elements := by
  rw [← elements_whole] at he ⊢
  obtain ⟨before, after, hbefore, hafter⟩ := Forest.faces_replaceAt h.nodup_whole he
  refine ⟨before, after, ?_, fun t' replacement ht' hreplacement => ?_⟩
  · rw [hbefore, Forest.elements_ofElement, List.cons_append]
  · rw [← elements_whole, ht']
    exact hafter replacement hreplacement

/-- What replacing an element below the root does to the nodes beside it. -/
theorem WellFormed.exists_around (h : t.WellFormed) (he : e ∈ t.root :: t.elements)
    (hne : e.id ≠ rootId) :
    ∃ parent ∈ t.root :: t.elements, ∃ left right,
      parent.content = left ++ (.ofElement e ++ right) ∧
      ∀ (t' : Tree) (replacement : Element → Forest),
        t'.whole = t.whole.replaceAt e.id replacement →
        ⟨parent.id, parent.tag, left ++ (replacement e ++ right)⟩ ∈ t'.root :: t'.elements := by
  have hbelow : e ∈ t.content.elements :=
    (List.mem_cons.mp he).resolve_left fun hroot => hne (congrArg Element.id hroot)
  have helements {t' : Tree} {replacement : Element → Forest}
      (ht' : t'.whole = t.whole.replaceAt e.id replacement) : t'.root :: t'.elements =
        ⟨rootId, t.tag, t.content.replaceAt e.id replacement⟩ ::
          (t.content.replaceAt e.id replacement).elements := by
    rw [← elements_whole, ht', whole_replaceAt hne, Forest.elements, Forest.elements,
      List.append_nil]
  rcases Forest.exists_around h.nodup_content hbelow with ⟨left, right, hcontent, hreplaced⟩ |
    ⟨parent, hparent, left, right, hcontent, hreplaced⟩
  · refine ⟨t.root, List.mem_cons_self, left, right, hcontent, fun t' replacement ht' => ?_⟩
    rw [helements ht', hreplaced]
    exact List.mem_cons_self
  · refine ⟨parent, List.mem_cons_of_mem _ hparent, left, right, hcontent,
      fun t' replacement ht' => ?_⟩
    rw [helements ht']
    exact List.mem_cons_of_mem _ (hreplaced replacement)

end Tree

/-! ## Documents -/

/-- An edit answers, and leaves a document whose elements, the root and those below it in document
order, show what the given ones show; one of them is `changed`. -/
def Edit.Leaves (action : Edit α) (d : Document) (answer : α) (elements : List Element)
    (changed : Element) : Prop :=
  ∃ d', action.run.run d = (.ok answer, d') ∧
    (d'.root :: d'.elements).map Element.face = elements.map Element.face ∧
    changed ∈ d'.root :: d'.elements

theorem Edit.leaves_of_run {action : Edit α} {d : Document} {answer : α} {t : Tree} {revision : Nat}
    (hrun : action.run.run d = (.ok answer, d.setTree t revision)) {elements : List Element}
    (hfaces : (t.root :: t.elements).map Element.face = elements.map Element.face)
    {changed : Element} (hchanged : changed ∈ t.root :: t.elements) :
    action.Leaves d answer elements changed :=
  ⟨_, hrun, hfaces, hchanged⟩

namespace Document

variable {d : Document} {r : ElementRef} {e : Element}

/-- **Structural edits act at one point of the document order.** The elements of a document are
those before an element, the element, those inside it and those behind them. An element that is
appended comes behind those inside, and is its last node. Below the root, one that is put before it
comes right before it and one that is put after it behind those inside, each as the node beside it;
and the element is removed with those inside it. All others keep their order, their attributes and
their text. -/
theorem Reachable.placement (hd : d.Reachable) (hresolve : d.resolve r = .ok e) (name : String) :
    let new := d.tree.newElement name
    let inside := e.content.elements
    ∃ before after, d.root :: d.elements = before ++ e :: (inside ++ after) ∧
      (Edit.appendElement r name).Leaves d (d.ref new) (before ++ e :: (inside ++ new :: after))
        ⟨e.id, e.tag, e.content ++ .ofElement new⟩ ∧
      (e ≠ d.root → ∃ parent ∈ d.root :: d.elements, ∃ left right,
        parent.content = left ++ (.ofElement e ++ right) ∧
        (Edit.insertElement r name false).Leaves d (d.ref new)
          (before ++ new :: e :: (inside ++ after))
          ⟨parent.id, parent.tag, left ++ (.ofElement new ++ (.ofElement e ++ right))⟩ ∧
        (Edit.insertElement r name true).Leaves d (d.ref new)
          (before ++ e :: (inside ++ new :: after))
          ⟨parent.id, parent.tag, left ++ (.ofElement e ++ (.ofElement new ++ right))⟩ ∧
        (Edit.remove r).Leaves d ⟨⟩ (before ++ after)
          ⟨parent.id, parent.tag, left ++ right⟩) := by
  intro new inside
  have hwf := hd.wellFormed
  have he := mem_of_resolve hresolve
  obtain ⟨before, after, hsplit, hfaces⟩ := hwf.exists_split he
  refine ⟨before, after, hsplit, ?_, fun hne => ?_⟩
  · obtain ⟨hlist, hput⟩ := hfaces _ _ (Tree.whole_appendElement d.tree e.id name) fun _ => rfl
    refine Edit.leaves_of_run (Edit.run_appendElement hresolve name) (hlist.trans ?_)
      (hput List.mem_cons_self)
    simp [Forest.elements_ofElement, Forest.face_append_ofElement, inside, new, Tree.newElement,
      Forest.elements]
  · have hid : e.id ≠ rootId := mt (hwf.id_eq_rootId_iff he).mp hne
    obtain ⟨parent, hparent, left, right, hcontent, haround⟩ := hwf.exists_around he hid
    refine ⟨parent, hparent, left, right, hcontent, ?_, ?_, ?_⟩
    · have hwhole := Tree.whole_insertElement (t := d.tree) hid name false
      have hput := haround _ _ hwhole
      refine Edit.leaves_of_run (Edit.run_insertElement hresolve hid name false)
        ((hfaces _ _ hwhole fun _ => rfl).1.trans ?_) ?_
      · simp [Forest.elements_ofElement, inside, new, Tree.newElement, Forest.elements]
      · rwa [if_neg Bool.false_ne_true, Forest.append_assoc] at hput
    · have hwhole := Tree.whole_insertElement (t := d.tree) hid name true
      have hput := haround _ _ hwhole
      refine Edit.leaves_of_run (Edit.run_insertElement hresolve hid name true)
        ((hfaces _ _ hwhole fun _ => rfl).1.trans ?_) ?_
      · simp [Forest.elements_ofElement, inside, new, Tree.newElement, Forest.elements]
      · rwa [if_pos rfl, Forest.append_assoc] at hput
    · have hwhole := Tree.whole_remove (t := d.tree) hid
      exact Edit.leaves_of_run (Edit.run_remove hresolve hid) (hfaces _ _ hwhole fun _ => rfl).1
        (haround _ _ hwhole)

/-- Behind an element with another inside it, between texts and comments: what is put there stands
behind both elements, and before the comment. -/
theorem Reachable.placement_mixed :
    ∃ (d : Document) (e parent : Element) (before after : List Element) (left right : Forest),
      Document.parse ⟨0⟩ "<Project>a<A><B/>b</A><!--c--><C/></Project>" = .ok d ∧
      d.resolve ⟨⟨0⟩, 2⟩ = .ok e ∧ e.content.elements.map Element.name = ["B"] ∧
      d.root :: d.elements = before ++ e :: (e.content.elements ++ after) ∧
      parent.content = left ++ (.ofElement e ++ right) ∧
      (Edit.insertElement ⟨⟨0⟩, 2⟩ "N" true).Leaves d ⟨⟨0⟩, 7⟩
        (before ++ e :: (e.content.elements ++ ⟨7, ⟨"N", []⟩, .nil⟩ :: after))
        ⟨parent.id, parent.tag,
          left ++ (.ofElement e ++ (.ofElement ⟨7, ⟨"N", []⟩, .nil⟩ ++ right))⟩ := by
  let e : Element := ⟨2, ⟨"A", []⟩, .element 3 ⟨"B", []⟩ .nil (.leaf 4 (.text "b") .nil)⟩
  let d : Document := .ofContent ⟨0⟩ ⟨⟨⟨"Project", []⟩, .leaf 1 (.text "a")
    (.ofElement e ++ .leaf 5 (.comment "c") (.element 6 ⟨"C", []⟩ .nil .nil)), 7⟩, none, []⟩
  have hparse : Document.parse ⟨0⟩ "<Project>a<A><B/>b</A><!--c--><C/></Project>" = .ok d := by
    decide +kernel
  have hresolve : d.resolve ⟨⟨0⟩, 2⟩ = .ok e := by decide +kernel
  obtain ⟨before, after, hsplit, -, hbelow⟩ := Reachable.placement (.parsed hparse) hresolve "N"
  obtain ⟨parent, -, left, right, hcontent, -, hinserted, -⟩ := hbelow (by decide +kernel)
  exact ⟨d, e, parent, before, after, left, right, hparse, hresolve, rfl, hsplit, hcontent,
    hinserted⟩

end Document

end BuildProject
