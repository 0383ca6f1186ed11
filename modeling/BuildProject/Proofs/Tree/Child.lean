import BuildProject.Proofs.Tree.Steps

/-!
# A named child and its text

Giving an element a value under a name is giving a text to its first child of that name, or to a
new last child if it has none. Either way one element is replaced, the parent, by itself with the
child between the same siblings (`Tree.WellFormed.exists_setChild`). A second value in the same
child leaves nothing of the first but the identities that it has used up
(`Tree.withoutLeafIds_setText_setChild`).
-/

namespace BuildProject

open Markup

namespace Forest

/-! ## A text as content -/

/-- The content that a text makes: one leaf, or nothing if the text is empty. -/
def ofText (id : NodeId) (text : String) : Forest :=
  if text.isEmpty then nil else ofLeaf id (.text text)

@[simp] theorem children_ofText (id : NodeId) (text : String) : (ofText id text).children = [] := by
  unfold ofText
  split <;> rfl

@[simp] theorem elements_ofText (id : NodeId) (text : String) : (ofText id text).elements = [] := by
  unfold ofText
  split <;> rfl

theorem leaves_ofText (id : NodeId) (text : String) :
    (ofText id text).leaves = if text.isEmpty then [] else [.text text] := by
  unfold ofText
  split <;> rfl

/-- The text is read back, the empty one too. -/
@[simp] theorem text_ofText (id : NodeId) (value : String) : (ofText id value).text = value := by
  rw [text, leaves_ofText]
  split
  · next hempty => exact (String.isEmpty_iff.mp hempty).symm
  · simp [Leaf.text?]

/-! ## Forests without the identities of leaves -/

/-- The forest with one identity for all leaves. No reference is ever made to a leaf. -/
def withoutLeafIds : Forest → Forest
  | nil => nil
  | element id tag content rest => element id tag (withoutLeafIds content) (withoutLeafIds rest)
  | leaf _ l rest => leaf rootId l (withoutLeafIds rest)

theorem withoutLeafIds_ofText (id id' : NodeId) (text : String) :
    (ofText id text).withoutLeafIds = (ofText id' text).withoutLeafIds := by
  unfold ofText
  split <;> rfl

/-- Contents that differ in the identities of leaves make a difference in no other place. -/
theorem withoutLeafIds_modify {g g' : Forest} (h : g.withoutLeafIds = g'.withoutLeafIds)
    (f : Forest) (target : NodeId) (onTag : Tag → Tag) :
    (f.modify target onTag fun _ => g).withoutLeafIds =
      (f.modify target onTag fun _ => g').withoutLeafIds := by
  induction f with
  | nil => rfl
  | element id tag content rest ihContent ihRest =>
    rw [modify, modify]
    split
    · rw [withoutLeafIds, withoutLeafIds, h]
    · rw [withoutLeafIds, withoutLeafIds, ihContent, ihRest]
  | leaf id l rest ih => rw [modify, modify, withoutLeafIds, withoutLeafIds, ih]

/-! ## Children and siblings -/

/-- The first child of a name and the nodes beside it. -/
theorem exists_split_of_find? {f : Forest} {name : String} {child : Element}
    (h : f.children.find? (·.name == name) = some child) :
    ∃ left right, f = left ++ (ofElement child ++ right) ∧
      left.children.find? (·.name == name) = none := by
  induction f with
  | nil => exact absurd h (by simp [children])
  | element id tag content rest _ ih =>
    rw [children, List.find?_cons] at h
    split at h
    · obtain rfl := Option.some.inj h
      exact ⟨.nil, rest, rfl, rfl⟩
    · next hname =>
      obtain ⟨left, right, rfl, hleft⟩ := ih h
      refine ⟨element id tag content left, right, rfl, ?_⟩
      rw [children, List.find?_cons, hname]
      exact hleft
  | leaf id l rest ih =>
    obtain ⟨left, right, rfl, hleft⟩ := ih h
    exact ⟨leaf id l left, right, rfl, hleft⟩

variable {f left right : Forest} {e child : Element}

/-- Replacing one of some siblings leaves the others. -/
theorem replaceAt_split (hnodup : (left ++ (ofElement child ++ right)).nodeIds.Nodup)
    (replacement : Element → Forest) :
    (left ++ (ofElement child ++ right)).replaceAt child.id replacement =
      left ++ (replacement child ++ right) := by
  have hchild : child ∈ (ofElement child ++ right).elements := by
    rw [elements_append]
    exact List.mem_append_left _ List.mem_cons_self
  induction left with
  | nil =>
    rw [nil_append, ofElement, element_append, replaceAt, if_pos rfl]
    rfl
  | element id tag content rest _ ih =>
    rw [element_append] at hnodup ⊢
    have hmem : child ∈ (rest ++ (ofElement child ++ right)).elements := by
      rw [elements_append]
      exact List.mem_append_right _ hchild
    have hrest := (List.nodup_append'.mp (List.nodup_cons.mp hnodup).2).2.1
    rw [replaceAt_of_mem_rest hnodup hmem, ih hrest]
    rfl
  | leaf id l rest ih =>
    rw [leaf_append, replaceAt, ih (List.nodup_cons.mp hnodup).2]
    rfl

/-- **Replacing a child is replacing its parent** by itself with something else between the same
siblings. -/
theorem replaceAt_child (hnodup : f.nodeIds.Nodup) (he : e ∈ f.elements)
    (hcontent : e.content = left ++ (ofElement child ++ right)) (replacement : Element → Forest) :
    f.replaceAt child.id replacement =
      f.replaceAt e.id fun _ => ofElement ⟨e.id, e.tag, left ++ (replacement child ++ right)⟩ := by
  have hchild : child ∈ e.content.elements := by
    rw [hcontent]
    simp [ofElement, elements]
  induction f with
  | nil => exact absurd he List.not_mem_nil
  | element id tag content rest ihContent ihRest =>
    obtain ⟨-, hparts⟩ := List.nodup_cons.mp hnodup
    obtain ⟨hnodupContent, hnodupRest, -⟩ := List.nodup_append'.mp hparts
    rcases List.mem_cons.mp he with rfl | he
    · rw [replaceAt_of_mem_content hnodup hchild, replaceAt, if_pos rfl]
      dsimp only at hcontent
      rw [hcontent, replaceAt_split (hcontent ▸ hnodupContent)]
      rfl
    rcases List.mem_append.mp he with he | he
    · rw [replaceAt_of_mem_content hnodup (elements_content_subset he hchild),
        replaceAt_of_mem_content hnodup he, ihContent hnodupContent he]
    · rw [replaceAt_of_mem_rest hnodup (elements_content_subset he hchild),
        replaceAt_of_mem_rest hnodup he, ihRest hnodupRest he]
  | leaf id l rest ih =>
    rw [replaceAt, replaceAt, ih (List.nodup_cons.mp hnodup).2 he]

/-- Of two elements put in one place the second stays. -/
theorem replaceAt_replaceAt (f : Forest) (e : Element) (replacement : Element → Forest) :
    (f.replaceAt e.id fun _ => ofElement e).replaceAt e.id replacement =
      f.replaceAt e.id fun _ => replacement e := by
  induction f with
  | nil => rfl
  | element id tag content rest ihContent ihRest =>
    by_cases hid : id = e.id
    · simp [replaceAt, hid, ofElement]
    · simp [replaceAt, hid, ihContent, ihRest]
  | leaf id l rest ih => rw [replaceAt, replaceAt, ih, replaceAt]

/-- What is put in the place of an element is there. -/
theorem mem_replaceAt (hnodup : f.nodeIds.Nodup) (he : e ∈ f.elements) (new : Element) :
    new ∈ (f.replaceAt e.id fun _ => ofElement new).elements := by
  obtain ⟨before, after, -, hafter⟩ := elements_replaceAt hnodup he
  rw [hafter]
  exact List.mem_append_right _ (List.mem_append_left _ List.mem_cons_self)

/-- What is put in the place of an element only depends on that element. -/
theorem replaceAt_eq_const (hnodup : f.nodeIds.Nodup) (he : e ∈ f.elements)
    (replacement : Element → Forest) :
    f.replaceAt e.id replacement = f.replaceAt e.id fun _ => replacement e := by
  induction f with
  | nil => exact absurd he List.not_mem_nil
  | element id tag content rest ihContent ihRest =>
    obtain ⟨-, hparts⟩ := List.nodup_cons.mp hnodup
    obtain ⟨hnodupContent, hnodupRest, -⟩ := List.nodup_append'.mp hparts
    rcases List.mem_cons.mp he with rfl | he
    · rw [replaceAt, replaceAt, if_pos rfl, if_pos rfl]
    rcases List.mem_append.mp he with he | he
    · rw [replaceAt_of_mem_content hnodup he, replaceAt_of_mem_content hnodup he,
        ihContent hnodupContent he]
    · rw [replaceAt_of_mem_rest hnodup he, replaceAt_of_mem_rest hnodup he, ihRest hnodupRest he]
  | leaf id l rest ih => rw [replaceAt, replaceAt, ih (List.nodup_cons.mp hnodup).2 he]

end Forest

/-- The first child of a name with everything below it, if there is one. -/
def Element.under (e : Element) (name : String) : Forest :=
  (e.child? name).elim .nil .ofElement

@[simp] theorem Element.leaves_under (e : Element) (name : String) :
    (e.under name).leaves = [] := by
  unfold Element.under
  cases e.child? name <;> rfl

@[simp] theorem Element.children_under (e : Element) (name : String) :
    (e.under name).children = (e.child? name).toList := by
  unfold Element.under
  cases e.child? name <;> rfl

/-- The first child of a name and the nodes beside it; without one, there is nothing behind the
place where it would be. -/
theorem Element.exists_split_under (e : Element) (name : String) :
    ∃ left right, e.content = left ++ (e.under name ++ right) ∧
      left.children.find? (·.name == name) = none ∧ (e.child? name = none → right = .nil) := by
  rw [Element.under]
  cases hchild : e.child? name with
  | none =>
    refine ⟨e.content, .nil, ?_, hchild, fun _ => rfl⟩
    rw [Option.elim_none, Forest.append_nil, Forest.append_nil]
  | some child =>
    obtain ⟨left, right, hcontent, hleft⟩ := Forest.exists_split_of_find? hchild
    exact ⟨left, right, hcontent, hleft, fun hnone => absurd hnone (by simp)⟩

namespace Tree

variable {t : Tree} {e : Element}

/-! ## Texts -/

/-- Setting a text changes the content of one element. -/
theorem whole_setText_eq_modify (t : Tree) (id : NodeId) (text : String) :
    (t.setText id text).whole =
      t.whole.modify id (fun tag => tag) fun _ => .ofText t.next text := by
  rw [whole_setText, Forest.modify_eq_replaceAt]
  rfl

/-- **Of two texts the second stays**, as if the first had not been set. -/
theorem withoutLeafIds_setText_setText (t : Tree) (id : NodeId) (text text' : String) :
    ((t.setText id text).setText id text').whole.withoutLeafIds =
      (t.setText id text').whole.withoutLeafIds := by
  rw [whole_setText_eq_modify, whole_setText_eq_modify, whole_setText_eq_modify,
    Forest.modify_modify]
  exact Forest.withoutLeafIds_modify (Forest.withoutLeafIds_ofText _ _ text') ..

/-! ## A value under a name -/

/-- The first child of a name, or the new element that takes its place. -/
def childNamed (t : Tree) (e : Element) (name : String) : Element :=
  (e.child? name).getD (t.newElement name)

/-- The tree with a value under a name inside an element. -/
def setChild (t : Tree) (e : Element) (name value : String) : Tree :=
  match e.child? name with
  | some child => t.setText child.id value
  | none => (t.appendElement e.id name).setText t.next value

theorem childNamed_of_some {name : String} {child : Element} (h : e.child? name = some child) :
    t.childNamed e name = child := by
  rw [childNamed, h, Option.getD_some]

theorem setChild_of_some {name : String} {child : Element} (h : e.child? name = some child)
    (value : String) : t.setChild e name value = t.setText child.id value := by
  rw [setChild, h]

theorem name_childNamed (t : Tree) (e : Element) (name : String) :
    (t.childNamed e name).name = name := by
  rw [childNamed]
  cases hchild : e.child? name with
  | none => rfl
  | some child => simpa using List.find?_some hchild

theorem WellFormed.setChild (h : t.WellFormed) (e : Element) (name value : String) :
    (t.setChild e name value).WellFormed := by
  unfold Tree.setChild
  split
  · exact h.setText _ value
  · exact (h.appendElement e.id name).setText _ value

/-- **Of two values under a name the second stays.** -/
theorem withoutLeafIds_setText_setChild (t : Tree) (e : Element) (name value other : String) :
    ((t.setChild e name value).setText (t.childNamed e name).id other).whole.withoutLeafIds =
      (t.setChild e name other).whole.withoutLeafIds := by
  unfold setChild childNamed
  cases e.child? name with
  | some child => exact withoutLeafIds_setText_setText t child.id value other
  | none => exact withoutLeafIds_setText_setText (t.appendElement e.id name) t.next value other

/-- Setting the text of a child is replacing its parent. -/
theorem WellFormed.whole_setText_child (h : t.WellFormed) (he : e ∈ t.root :: t.elements)
    {left right : Forest} {child : Element}
    (hcontent : e.content = left ++ (.ofElement child ++ right)) (value : String) :
    (t.setText child.id value).whole = t.whole.replaceAt e.id fun _ =>
      .ofElement ⟨e.id, e.tag,
        left ++ (.ofElement ⟨child.id, child.tag, .ofText t.next value⟩ ++ right)⟩ := by
  rw [← elements_whole] at he
  rw [whole_setText]
  exact Forest.replaceAt_child h.nodup_whole he hcontent _

/-- **Setting a value under a name replaces one element**: by itself, with the child of that name
and its new text where the child was, or at the end. -/
theorem WellFormed.exists_setChild (h : t.WellFormed) (he : e ∈ t.root :: t.elements)
    (name value : String) {left right : Forest}
    (hcontent : e.content = left ++ (e.under name ++ right))
    (hlast : e.child? name = none → right = .nil) :
    ∃ id, (t.setChild e name value).whole = t.whole.replaceAt e.id fun _ => .ofElement ⟨e.id, e.tag,
      left ++ (.ofElement ⟨(t.childNamed e name).id, (t.childNamed e name).tag, .ofText id value⟩
        ++ right)⟩ := by
  rw [Element.under] at hcontent
  rw [Tree.setChild, childNamed]
  cases hchild : e.child? name with
  | some child =>
    rw [hchild] at hcontent
    exact ⟨t.next, h.whole_setText_child he hcontent value⟩
  | none =>
    obtain rfl := hlast hchild
    rw [hchild, Option.elim_none, Forest.append_nil, Forest.append_nil] at hcontent
    subst hcontent
    have hmem : e ∈ t.whole.elements := by rwa [elements_whole]
    -- the element with the new child, which has no text yet
    let e₁ : Element := ⟨e.id, e.tag, e.content ++ (.ofElement (t.newElement name) ++ .nil)⟩
    have hwhole : (t.appendElement e.id name).whole =
        t.whole.replaceAt e₁.id fun _ => .ofElement e₁ := by
      rw [whole_appendElement, Forest.replaceAt_eq_const h.nodup_whole hmem]
      simp only [e₁, Forest.append_nil]
    have he₁ : e₁ ∈ (t.appendElement e.id name).root :: (t.appendElement e.id name).elements := by
      rw [← elements_whole, hwhole]
      exact Forest.mem_replaceAt h.nodup_whole hmem e₁
    have htext := (h.appendElement e.id name).whole_setText_child he₁ rfl value
    rw [hwhole, Forest.replaceAt_replaceAt] at htext
    exact ⟨t.next + 1, htext⟩

/-! ## The last element below the root -/

/-- A change of the last element below the root. -/
theorem WellFormed.content_modify_last (h : t.WellFormed) {before : Forest}
    (hcontent : t.content = before ++ .ofElement e) (onTag : Tag → Tag)
    (onContent : Forest → Forest) : (t.modify e.id onTag onContent).content =
      before ++ .ofElement ⟨e.id, onTag e.tag, onContent e.content⟩ := by
  have hnodup := h.nodup_content
  rw [hcontent, Forest.nodeIds_append] at hnodup
  have hmem : e.id ∈ (Forest.ofElement e).nodeIds := List.mem_cons_self
  have hne : e.id ≠ rootId := by
    intro hid
    refine h.root_not_mem (hid ▸ ?_)
    rw [hcontent, Forest.nodeIds_append]
    exact List.mem_append_right _ hmem
  have hbefore : e.id ∉ before.nodeIds := fun hin => (List.nodup_append'.mp hnodup).2.2 hin hmem
  rw [Tree.modify, if_neg hne, hcontent, Forest.modify_append hbefore]
  simp [Forest.ofElement, Forest.modify]

/-- Giving a new element an attribute is adding it with the attribute. -/
theorem WellFormed.content_setAttribute_appendElement (h : t.WellFormed) {parent : NodeId}
    (hparent : parent ∈ t.nodeIds) (name key value : String) :
    ((t.appendElement parent name).setAttribute t.next key value).content =
      (t.modify parent (fun tag => tag)
        (· ++ .ofElement ⟨t.next, ⟨name, [⟨key, value⟩]⟩, .nil⟩)).content := by
  have hne : parent ≠ t.next := fun heq => h.next_not_mem (heq ▸ hparent)
  have hroot : t.next ≠ rootId := fun heq => h.next_not_mem (heq ▸ List.mem_cons_self)
  have hnew : t.next ∉ t.content.nodeIds := fun hmem =>
    h.next_not_mem (List.mem_cons_of_mem _ hmem)
  have hadded : (Forest.ofElement (t.newElement name)).modify t.next (·.set key value)
      (fun content => content) = .ofElement ⟨t.next, ⟨name, [⟨key, value⟩]⟩, .nil⟩ := by
    simp [Forest.ofElement, newElement, Forest.modify, Tag.set, Tag.setIn]
  rw [Tree.setAttribute, Tree.modify, if_neg hroot, Tree.appendElement]
  by_cases htarget : parent = rootId
  · rw [Tree.modify, Tree.modify, if_pos htarget, if_pos htarget]
    exact (Forest.modify_append hnew _ _ _).trans (congrArg _ hadded)
  · rw [Tree.modify, Tree.modify, if_neg htarget, if_neg htarget]
    exact (Forest.modify_added hnew hne _ _ _).trans (by rw [hadded])

end Tree

end BuildProject
