import BuildProject.Proofs.Tree.WellFormed

/-!
# Finding elements after a change

In a well-formed tree an identity finds the one element that has it. A change at one element that
leaves its content where it is, with perhaps more behind it, is seen at every other element only
inside its content: `find?_modify_append` says what is found after such a change, from what was
found before.
-/

namespace BuildProject

open Markup

/-- The element as it is after a change of the element with the given identity, which is itself or
somewhere below it. -/
def Element.modify (target : NodeId) (onTag : Tag → Tag) (onContent : Forest → Forest)
    (e : Element) : Element :=
  if e.id = target then ⟨e.id, onTag e.tag, onContent e.content⟩
  else ⟨e.id, e.tag, e.content.modify target onTag onContent⟩

namespace Forest

/-! ## Identities of elements -/

/-- What is below an element of a forest is in the forest. -/
theorem nodeIds_content_subset {f : Forest} {e : Element} (h : e ∈ f.elements) :
    e.content.nodeIds ⊆ f.nodeIds := by
  induction f with
  | nil => simp [elements] at h
  | element id tag content rest ihContent ihRest =>
    simp only [elements, List.mem_cons, List.mem_append] at h
    intro x hx
    simp only [nodeIds, List.mem_cons, List.mem_append]
    rcases h with rfl | h | h
    · exact .inr (.inl hx)
    · exact .inr (.inl (ihContent h hx))
    · exact .inr (.inr (ihRest h hx))
  | leaf id l rest ih => exact fun x hx => List.mem_cons_of_mem _ (ih h hx)

/-- The identities of the elements are some of those of the nodes, in their order. -/
theorem map_id_elements_sublist (f : Forest) :
    (f.elements.map Element.id).Sublist f.nodeIds := by
  induction f with
  | nil => exact .slnil
  | element id tag content rest ihContent ihRest =>
    simp only [elements, nodeIds, List.map_cons, List.map_append]
    exact .cons_cons id (ihContent.append ihRest)
  | leaf id l rest ih => exact .cons id ih

/-! ## After a change -/

/-- An element that does not hold the changed one stays as it is. -/
theorem modify_eq_self {f : Forest} {target : NodeId} (h : target ∉ f.nodeIds)
    (onTag : Tag → Tag) (onContent : Forest → Forest) {e : Element} (he : e ∈ f.elements) :
    e.modify target onTag onContent = e := by
  have hid : e.id ≠ target := fun heq => h (heq ▸ id_mem_nodeIds he)
  have hcontent : target ∉ e.content.nodeIds := fun hmem => h (nodeIds_content_subset he hmem)
  rw [Element.modify, if_neg hid, modify_of_not_mem hcontent]

/-- What an identity finds in a forest. -/
theorem find?_map_modify_of_not_mem {f : Forest} {target : NodeId} (h : target ∉ f.nodeIds)
    (onTag : Tag → Tag) (onContent : Forest → Forest) (id : NodeId) :
    (f.elements.find? (·.id == id)).map (Element.modify target onTag onContent)
      = f.elements.find? (·.id == id) := by
  cases hfind : f.elements.find? (·.id == id) with
  | none => rfl
  | some e =>
    rw [Option.map_some, modify_eq_self h onTag onContent (List.mem_of_find?_eq_some hfind)]

/-- What an identity finds after a change that leaves the content of the changed element where it
is: what it found before, with the change. -/
theorem find?_elements_modify {f : Forest} (hnodup : f.nodeIds.Nodup) (target : NodeId)
    (onTag : Tag → Tag) {added : Forest} {id : NodeId}
    (hid : added.elements.find? (·.id == id) = none) :
    (f.modify target onTag (· ++ added)).elements.find? (·.id == id)
      = (f.elements.find? (·.id == id)).map (Element.modify target onTag (· ++ added)) := by
  induction f with
  | nil => rfl
  | element own tag content rest ihContent ihRest =>
    obtain ⟨hown, hnodup⟩ := List.nodup_cons.mp hnodup
    obtain ⟨hnodupContent, hnodupRest, hdisjoint⟩ := List.nodup_append'.mp hnodup
    simp only [List.mem_append, not_or] at hown
    rw [modify]
    split
    · next htarget =>
      subst htarget
      have hcontent := find?_map_modify_of_not_mem hown.1 onTag (· ++ added) id
      have hrest := find?_map_modify_of_not_mem hown.2 onTag (· ++ added) id
      by_cases hsame : own = id
      · simp [elements, hsame, Element.modify]
      · simp only [elements, elements_append, List.find?_cons, List.find?_append, hid,
          beq_false_of_ne hsame, Option.or_none, Option.map_or, hcontent, hrest]
    · next htarget =>
      by_cases hsame : own = id
      · simp [elements, hsame, Element.modify, hsame ▸ htarget]
      · simp only [elements, List.find?_cons, List.find?_append, beq_false_of_ne hsame,
          ihContent hnodupContent, ihRest hnodupRest, Option.map_or]
  | leaf own l rest ih =>
    exact ih (List.nodup_cons.mp hnodup).2

/-- What a change adds to the content of an element is in the forest. -/
theorem mem_elements_modify {f : Forest} {target : NodeId} {e : Element} (he : e ∈ f.elements)
    (hid : e.id = target) (onTag : Tag → Tag) {added : Forest} {new : Element}
    (hnew : new ∈ added.elements) : new ∈ (f.modify target onTag (· ++ added)).elements := by
  induction f with
  | nil => simp [elements] at he
  | element own tag content rest ihContent ihRest =>
    simp only [elements, List.mem_cons, List.mem_append] at he
    rw [modify]
    split
    · simp [elements, hnew]
    · next htarget =>
      simp only [elements, List.mem_cons, List.mem_append]
      rcases he with rfl | he | he
      · exact absurd hid htarget
      · exact .inr (.inl (ihContent he))
      · exact .inr (.inr (ihRest he))
  | leaf own l rest ih => exact ih he

/-- A change keeps the names of the elements at the top if it keeps the name of the changed one. -/
theorem map_name_children_modify (f : Forest) (target : NodeId) {onTag : Tag → Tag}
    (hname : ∀ tag, (onTag tag).name = tag.name) (onContent : Forest → Forest) :
    (f.modify target onTag onContent).children.map Element.name = f.children.map Element.name := by
  induction f with
  | nil => rfl
  | element id tag content rest _ ih =>
    rw [modify]
    split
    · simp [children, Element.name, hname]
    · simpa [children, Element.name] using ih
  | leaf id l rest ih => exact ih

/-- Changing an element twice is changing it once. -/
theorem modify_modify (f : Forest) (target : NodeId) (onTag onTag' : Tag → Tag)
    (onContent onContent' : Forest → Forest) :
    (f.modify target onTag onContent).modify target onTag' onContent'
      = f.modify target (onTag' ∘ onTag) (onContent' ∘ onContent) := by
  induction f with
  | nil => rfl
  | element id tag content rest ihContent ihRest =>
    by_cases hid : id = target
    · simp [modify, hid]
    · simp [modify, hid, ihContent, ihRest]
  | leaf id l rest ih => rw [modify, modify, modify, ih]

/-- A change inside joined forests happens in the second if the first does not hold its place. -/
theorem modify_append {f : Forest} {target : NodeId} (h : target ∉ f.nodeIds) (onTag : Tag → Tag)
    (onContent : Forest → Forest) (g : Forest) :
    (f ++ g).modify target onTag onContent = f ++ g.modify target onTag onContent := by
  induction f with
  | nil => rfl
  | element id tag content rest _ ih =>
    simp only [nodeIds, List.mem_cons, List.mem_append, not_or] at h
    rw [element_append, modify, if_neg (Ne.symm h.1), modify_of_not_mem h.2.1, ih h.2.2,
      element_append]
  | leaf id l rest ih =>
    simp only [nodeIds, List.mem_cons, not_or] at h
    rw [leaf_append, modify, ih h.2, leaf_append]

/-- Adding something and changing it is adding it changed. -/
theorem modify_added {f : Forest} {target : NodeId} (h : target ∉ f.nodeIds) {parent : NodeId}
    (hparent : parent ≠ target) (onTag : Tag → Tag) (onContent : Forest → Forest)
    (added : Forest) :
    (f.modify parent (fun tag => tag) (· ++ added)).modify target onTag onContent
      = f.modify parent (fun tag => tag) (· ++ added.modify target onTag onContent) := by
  induction f with
  | nil => rfl
  | element id tag content rest ihContent ihRest =>
    simp only [nodeIds, List.mem_cons, List.mem_append, not_or] at h
    by_cases hid : id = parent
    · subst hid
      rw [modify, if_pos rfl, modify, if_neg hparent, modify_append h.2.1, modify_of_not_mem h.2.2,
        modify, if_pos rfl]
    · simp only [modify, if_neg hid, if_neg (Ne.symm h.1), ihContent h.2.1, ihRest h.2.2]
  | leaf id l rest ih =>
    simp only [nodeIds, List.mem_cons, not_or] at h
    rw [modify, modify, modify, ih h.2]

end Forest

/-- No child of an element has a name that is not among the names of its children. -/
theorem Element.child?_eq_none {e : Element} {name : String}
    (h : name ∉ e.children.map Element.name) : e.child? name = none := by
  refine List.find?_eq_none.mpr fun child hchild heq => h ?_
  exact List.mem_map.mpr ⟨child, hchild, by simpa using heq⟩

namespace Tree

/-! ## Finding elements of a tree -/

theorem find?_mem {t : Tree} {id : NodeId} {e : Element} (h : t.find? id = some e) :
    e ∈ t.root :: t.elements :=
  List.mem_of_find?_eq_some h

theorem id_of_find? {t : Tree} {id : NodeId} {e : Element} (h : t.find? id = some e) :
    e.id = id := by
  simpa using List.find?_some h

theorem find?_rootId (t : Tree) : t.find? rootId = some t.root := by
  simp [find?, root]

/-- Behind the root an element is found among those below it. -/
theorem find?_of_ne_root (t : Tree) {id : NodeId} (h : id ≠ rootId) :
    t.find? id = t.content.elements.find? (·.id == id) := by
  rw [find?, List.find?_cons_of_neg (by simpa [root] using Ne.symm h), elements]

theorem id_mem_of_find? {t : Tree} {id : NodeId} {e : Element} (h : t.find? id = some e) :
    id ∈ t.nodeIds := by
  rw [← id_of_find? h, nodeIds]
  rcases List.mem_cons.mp (find?_mem h) with rfl | hmem
  · exact List.mem_cons_self
  · exact List.mem_cons_of_mem _ (Forest.id_mem_nodeIds hmem)

/-- Every element of a well-formed tree is found by its identity. -/
theorem WellFormed.find?_of_mem {t : Tree} (h : t.WellFormed) {e : Element}
    (he : e ∈ t.root :: t.elements) : t.find? e.id = some e := by
  have hnodup : ((t.root :: t.elements).map Element.id).Nodup :=
    ((Forest.map_id_elements_sublist t.content).cons_cons rootId).nodup h.nodup
  have hfind : (t.find? e.id).isSome := List.find?_isSome.mpr ⟨e, he, by simp⟩
  obtain ⟨found, hfound⟩ := Option.isSome_iff_exists.mp hfind
  rw [hfound, List.inj_on_of_nodup_map hnodup (find?_mem hfound) he (id_of_find? hfound)]

/-- Only the root has its identity. -/
theorem WellFormed.id_eq_rootId_iff {t : Tree} (h : t.WellFormed) {e : Element}
    (he : e ∈ t.root :: t.elements) : e.id = rootId ↔ e = t.root := by
  refine ⟨fun hid => ?_, fun hroot => by rw [hroot]; rfl⟩
  have hfind := h.find?_of_mem he
  rw [hid, find?_rootId] at hfind
  exact (Option.some.inj hfind).symm

/-- What an identity finds after a change of an element that leaves its content where it is. -/
theorem WellFormed.find?_modify_append {t : Tree} (h : t.WellFormed) (target : NodeId)
    (onTag : Tag → Tag) {added : Forest} {id : NodeId} (hroot : id = rootId ∨
      added.elements.find? (·.id == id) = none) :
    (t.modify target onTag (· ++ added)).find? id
      = (t.find? id).map (Element.modify target onTag (· ++ added)) := by
  have hid (hne : id ≠ rootId) : added.elements.find? (·.id == id) = none :=
    hroot.resolve_left hne
  -- the root is kept apart from its content, so target and identity are each split
  by_cases htarget : target = rootId
  · by_cases hne : id = rootId
    · subst htarget hne
      simp [find?_rootId, Tree.modify, root, Element.modify]
    · rw [find?_of_ne_root _ hne, find?_of_ne_root _ hne, Tree.modify, if_pos htarget]
      show (t.content ++ added).elements.find? _ = _
      rw [Forest.elements_append, List.find?_append, hid hne, Option.or_none]
      exact (Forest.find?_map_modify_of_not_mem (htarget ▸ h.root_not_mem) _ _ id).symm
  · by_cases hne : id = rootId
    · subst hne
      simp [find?_rootId, Tree.modify, root, Element.modify, htarget, Ne.symm htarget]
    · rw [find?_of_ne_root _ hne, find?_of_ne_root _ hne, Tree.modify, if_neg htarget]
      exact Forest.find?_elements_modify h.nodup_content target onTag (hid hne)

/-! ## Tags and children by identity -/

/-- The tag and the names of the children of the element with the given identity. -/
def profile? (t : Tree) (id : NodeId) : Option (Tag × List String) :=
  (t.find? id).map fun e => (e.tag, e.children.map Element.name)

theorem WellFormed.lt_next_of_profile? {t : Tree} (h : t.WellFormed) {id : NodeId}
    {profile : Tag × List String} (hprofile : t.profile? id = some profile) : id < t.next := by
  obtain ⟨e, he, -⟩ := Option.map_eq_some_iff.mp hprofile
  exact h.lt_next id (id_mem_of_find? he)

/-- What a change that adds to the content of an element does to tags and children. -/
theorem WellFormed.profile?_modify_append {t : Tree} (h : t.WellFormed) (target : NodeId)
    {onTag : Tag → Tag} (hname : ∀ tag, (onTag tag).name = tag.name) {added : Forest} {id : NodeId}
    (hid : id = rootId ∨ added.elements.find? (·.id == id) = none) :
    (t.modify target onTag (· ++ added)).profile? id = (t.profile? id).map fun profile =>
      if id = target then (onTag profile.1, profile.2 ++ added.children.map Element.name)
      else profile := by
  rw [profile?, h.find?_modify_append target onTag hid, profile?]
  cases hfind : t.find? id with
  | none => rfl
  | some e =>
    have hsame := id_of_find? hfind
    subst hsame
    by_cases htarget : e.id = target
    · simp [Element.modify, htarget, Element.children]
    · simp only [Element.modify, htarget, if_false, Option.map_some, Element.children,
        Forest.map_name_children_modify _ _ hname]

/-- Setting an attribute changes one tag. -/
theorem WellFormed.profile?_setAttribute {t : Tree} (h : t.WellFormed) (target : NodeId)
    (name value : String) (id : NodeId) :
    (t.setAttribute target name value).profile? id = (t.profile? id).map fun profile =>
      (if id = target then profile.1.set name value else profile.1, profile.2) := by
  -- nothing is added to the content
  have hkeep : t.setAttribute target name value
      = t.modify target (·.set name value) (· ++ Forest.nil) := by
    simp only [Tree.setAttribute, Forest.append_nil]
  have hname (tag : Tag) : (tag.set name value).name = tag.name := rfl
  have hnew : id = rootId ∨ Forest.nil.elements.find? (·.id == id) = none := .inr rfl
  rw [hkeep, h.profile?_modify_append target hname hnew]
  congr 1
  funext profile
  by_cases htarget : id = target <;> simp [htarget, Forest.children]

/-! ## Adding an element with a text -/

/-- A new element is found by the identity that was the next one. -/
theorem WellFormed.find?_appendElement_next {t : Tree} (h : t.WellFormed) {parent : NodeId}
    {e : Element} (he : t.find? parent = some e) (name : String) :
    (t.appendElement parent name).find? t.next = some (t.newElement name) := by
  have hadded : t.newElement name ∈ (Forest.ofElement (t.newElement name)).elements := by
    simp [Forest.ofElement, Forest.elements]
  suffices hmem : t.newElement name ∈ (t.appendElement parent name).elements from
    (h.appendElement parent name).find?_of_mem (List.mem_cons_of_mem _ hmem)
  rw [elements, Tree.appendElement, Tree.modify]
  split
  · show _ ∈ (t.content ++ _).elements
    rw [Forest.elements_append]
    exact List.mem_append_right _ hadded
  · next hne =>
    have hmem : e ∈ t.elements := by
      rcases List.mem_cons.mp (find?_mem he) with rfl | hmem
      · exact absurd (id_of_find? he).symm hne
      · exact hmem
    exact Forest.mem_elements_modify hmem (id_of_find? he) _ hadded

/-- The tree with a new element behind the content of an element, and a text in the new one. -/
def appendText (t : Tree) (parent : NodeId) (name text : String) : Tree :=
  { t.modify parent (fun tag => tag)
      (· ++ .ofElement ⟨t.next, ⟨name, []⟩, .ofLeaf (t.next + 1) (.text text)⟩) with
    next := t.next + 2 }

/-- Giving a new element a text is adding it with the text. -/
theorem WellFormed.setText_appendElement {t : Tree} (h : t.WellFormed) {parent : NodeId}
    (hparent : parent ∈ t.nodeIds) (name : String) {text : String} (htext : text.isEmpty = false) :
    (t.appendElement parent name).setText t.next text = t.appendText parent name text := by
  have hne : parent ≠ t.next := fun heq => h.next_not_mem (heq ▸ hparent)
  have hroot : t.next ≠ rootId := fun heq => h.next_not_mem (heq ▸ List.mem_cons_self)
  have hcontent : t.next ∉ t.content.nodeIds := fun hmem =>
    h.next_not_mem (List.mem_cons_of_mem _ hmem)
  have hadded (leaf : Forest) :
      (Forest.ofElement (t.newElement name)).modify t.next (fun tag => tag) (fun _ => leaf)
        = .ofElement ⟨t.next, ⟨name, []⟩, leaf⟩ := by
    simp [Forest.ofElement, newElement, Forest.modify]
  by_cases htarget : parent = rootId
  · simp only [Tree.setText, htext, Tree.appendElement, appendText, Tree.modify, htarget, hroot,
      if_true, if_false, Bool.false_eq_true, Forest.modify_append hcontent, hadded]
  · simp only [Tree.setText, htext, Tree.appendElement, appendText, Tree.modify, htarget, hroot,
      if_false, Bool.false_eq_true, Forest.modify_added hcontent hne, hadded]

theorem WellFormed.appendText {t : Tree} (h : t.WellFormed) (parent : NodeId) (name text : String) :
    (t.appendText parent name text).WellFormed := by
  refine h.modify parent (fun tag => tag) 2 fun content => ?_
  rw [Forest.nodeIds_append]
  exact List.perm_append_comm.subperm

/-- Adding an element with a text adds one child and changes no tag. -/
theorem WellFormed.profile?_appendText {t : Tree} (h : t.WellFormed) (parent : NodeId)
    (name text : String) {id : NodeId} (hid : id < t.next) :
    (t.appendText parent name text).profile? id = (t.profile? id).map fun profile =>
      (profile.1, if id = parent then profile.2 ++ [name] else profile.2) := by
  have hnew : (Forest.ofElement ⟨t.next, ⟨name, []⟩,
      .ofLeaf (t.next + 1) (.text text)⟩).elements.find? (·.id == id) = none := by
    simpa [Forest.ofElement, Forest.elements, Forest.ofLeaf] using Nat.ne_of_gt hid
  show (t.modify parent (fun tag => tag) (· ++ _)).profile? id = _
  rw [h.profile?_modify_append parent (fun _ => rfl) (.inr hnew)]
  congr 1
  funext profile
  by_cases hparent : id = parent <;>
    simp [hparent, Forest.ofElement, Forest.children, Element.name]

end Tree

end BuildProject
