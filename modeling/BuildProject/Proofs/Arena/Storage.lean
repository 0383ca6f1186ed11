import BuildProject.Proofs.Arena.WellFormed
import BuildProject.Proofs.Tree.Child

/-!
# Forests stored in an arena

An arena stores a forest if every node of the forest is at the position that is its identity, with
its parent and its children as links (`Arena.Stores`). Then a walk through the arena goes through
the forest in document order (`Stores.walk`), and what a change does to the arena is something put
in the place of one element of the forest (`Stores.retags`, `Stores.loses`, `Stores.gains`).
-/

namespace BuildProject

open Markup

/-- A node in a forest of its own, with nothing inside it. -/
def NodeKind.toForest (id : NodeId) : NodeKind → Forest
  | .element tag => .ofElement ⟨id, tag, .nil⟩
  | .leaf l => .ofLeaf id l

namespace Forest

@[simp] theorem topIds_append (f g : Forest) : (f ++ g).topIds = f.topIds ++ g.topIds := by
  induction f with
  | nil => rfl
  | element id tag content rest _ ih => rw [element_append, topIds, topIds, ih, List.cons_append]
  | leaf id l rest ih => rw [leaf_append, topIds, topIds, ih, List.cons_append]

@[simp] theorem topIds_ofElement (e : Element) : (ofElement e).topIds = [e.id] := rfl

@[simp] theorem topIds_toForest (id : NodeId) (kind : NodeKind) :
    (kind.toForest id).topIds = [id] := by
  cases kind <;> rfl

/-- The nodes at the top that are not among the given ones, with what is below them. -/
def without (lost : List NodeId) : Forest → Forest
  | nil => nil
  | element id tag content rest =>
    if id ∈ lost then without lost rest else element id tag content (without lost rest)
  | leaf id l rest => if id ∈ lost then without lost rest else leaf id l (without lost rest)

@[simp] theorem topIds_without (lost : List NodeId) (f : Forest) :
    (f.without lost).topIds = f.topIds.filter (· ∉ lost) := by
  induction f with
  | nil => rfl
  | element id tag content rest _ ih =>
    rw [without, topIds, List.filter_cons]
    split
    · next hlost => simp [hlost, ih]
    · next hlost => simp [hlost, topIds, ih]
  | leaf id l rest ih =>
    rw [without, topIds, List.filter_cons]
    split
    · next hlost => simp [hlost, ih]
    · next hlost => simp [hlost, topIds, ih]

/-- An element of the same identity takes the same place at the top. -/
theorem topIds_replaceAt {e new : Element} (hid : new.id = e.id) (f : Forest) :
    (f.replaceAt e.id fun _ => ofElement new).topIds = f.topIds := by
  induction f with
  | nil => rfl
  | element id tag content rest _ ih =>
    rw [replaceAt]
    split
    · next heq => rw [topIds_append, topIds_ofElement, hid, topIds, heq, List.singleton_append]
    · rw [topIds, topIds, ih]
  | leaf id l rest ih => rw [replaceAt, topIds, topIds, ih]

end Forest

namespace Arena

/-- The nodes of a forest are in the table, with the links between them; those at the top have the
given parent. -/
def Stores (a : Arena) (above? : Option NodeId) : Forest → Prop
  | .nil => True
  | .element id tag content rest =>
    a.node? id = some ⟨.element tag, above?, content.topIds⟩ ∧
      a.Stores (some id) content ∧ a.Stores above? rest
  | .leaf id l rest => a.node? id = some ⟨.leaf l, above?, []⟩ ∧ a.Stores above? rest

variable {a a' : Arena} {above? : Option NodeId} {f g : Forest} {e : Element}

namespace Stores

/-! ## What is stored -/

theorem append_iff : a.Stores above? (f ++ g) ↔ a.Stores above? f ∧ a.Stores above? g := by
  induction f with
  | nil => exact (iff_of_eq (true_and _)).symm
  | element id tag content rest _ ih =>
    rw [Forest.element_append, Stores, Stores, ih, and_assoc, and_assoc]
  | leaf id l rest ih => rw [Forest.leaf_append, Stores, Stores, ih, and_assoc]

/-- A forest is stored wherever its own nodes are the same. -/
theorem frame (h : a.Stores above? f) (hsame : ∀ id ∈ f.nodeIds, a'.node? id = a.node? id) :
    a'.Stores above? f := by
  induction f generalizing above? with
  | nil => trivial
  | element id tag content rest ihContent ihRest =>
    obtain ⟨hnode, hcontent, hrest⟩ := h
    rw [Forest.nodeIds, List.forall_mem_cons, List.forall_mem_append] at hsame
    exact ⟨hsame.1.trans hnode, ihContent hcontent hsame.2.1, ihRest hrest hsame.2.2⟩
  | leaf id l rest ih =>
    rw [Forest.nodeIds, List.forall_mem_cons] at hsame
    exact ⟨hsame.1.trans h.1, ih h.2 hsame.2⟩

theorem lt_next (h : a.Stores above? f) {id : NodeId} (hid : id ∈ f.nodeIds) : id < a.next := by
  induction f generalizing above? with
  | nil => exact absurd hid List.not_mem_nil
  | element own tag content rest ihContent ihRest =>
    obtain ⟨hnode, hcontent, hrest⟩ := h
    rcases List.mem_cons.mp hid with rfl | hid
    · exact lt_next_of_node? hnode
    · exact (List.mem_append.mp hid).elim (ihContent hcontent) (ihRest hrest)
  | leaf own l rest ih =>
    rcases List.mem_cons.mp hid with rfl | hid
    · exact lt_next_of_node? h.1
    · exact ih h.2 hid

/-- Every element is in the table, and so is what is inside it. -/
theorem of_mem (h : a.Stores above? f) (he : e ∈ f.elements) :
    (∃ parent?, a.node? e.id = some ⟨.element e.tag, parent?, e.childIds⟩) ∧
      a.Stores (some e.id) e.content := by
  induction f generalizing above? with
  | nil => exact absurd he List.not_mem_nil
  | element id tag content rest ihContent ihRest =>
    obtain ⟨hnode, hcontent, hrest⟩ := h
    rcases List.mem_cons.mp he with rfl | he
    · exact ⟨⟨above?, hnode⟩, hcontent⟩
    · exact (List.mem_append.mp he).elim (ihContent hcontent) (ihRest hrest)
  | leaf id l rest ih => exact ih h.2 he

theorem children_of_mem (h : a.Stores above? f) (he : e ∈ f.elements) :
    a.children e.id = e.childIds := by
  obtain ⟨⟨parent?, hnode⟩, -⟩ := h.of_mem he
  exact children_of_node? hnode

theorem tag?_of_mem (h : a.Stores above? f) (he : e ∈ f.elements) : a.tag? e.id = some e.tag := by
  obtain ⟨⟨parent?, hnode⟩, -⟩ := h.of_mem he
  exact tag?_of_node? hnode

/-- A node that has a tag is an element of the forest. -/
theorem mem_of_tag? (h : a.Stores above? f) {id : NodeId} (hid : id ∈ f.nodeIds) {tag : Tag}
    (htag : a.tag? id = some tag) : ∃ e ∈ f.elements, e.id = id := by
  induction f generalizing above? with
  | nil => exact absurd hid List.not_mem_nil
  | element own tag content rest ihContent ihRest =>
    obtain ⟨-, hcontent, hrest⟩ := h
    rcases List.mem_cons.mp hid with rfl | hid
    · exact ⟨_, List.mem_cons_self, rfl⟩
    · rcases List.mem_append.mp hid with hid | hid
      · obtain ⟨e, he, hsame⟩ := ihContent hcontent hid
        exact ⟨e, List.mem_cons_of_mem _ (List.mem_append_left _ he), hsame⟩
      · obtain ⟨e, he, hsame⟩ := ihRest hrest hid
        exact ⟨e, List.mem_cons_of_mem _ (List.mem_append_right _ he), hsame⟩
  | leaf own l rest ih =>
    rcases List.mem_cons.mp hid with rfl | hid
    · rw [tag?_of_node? h.1] at htag
      exact absurd htag (Option.some_ne_none _).symm
    · exact ih h.2 hid

/-- The children of the nodes of a forest are nodes of the forest. -/
theorem children_subset (h : a.Stores above? f) {id : NodeId} (hid : id ∈ f.nodeIds) :
    a.children id ⊆ f.nodeIds := by
  induction f generalizing above? with
  | nil => exact absurd hid List.not_mem_nil
  | element own tag content rest ihContent ihRest =>
    obtain ⟨hnode, hcontent, hrest⟩ := h
    have hinside : content.nodeIds ⊆ (Forest.element own tag content rest).nodeIds :=
      List.subset_cons_of_subset _ (List.subset_append_left _ _)
    rcases List.mem_cons.mp hid with rfl | hid
    · rw [children_of_node? hnode]
      exact List.Subset.trans (Forest.topIds_sublist_nodeIds content).subset hinside
    · rcases List.mem_append.mp hid with hid | hid
      · exact List.Subset.trans (ihContent hcontent hid) hinside
      · exact List.Subset.trans (ihRest hrest hid)
          (List.subset_cons_of_subset _ (List.subset_append_right _ _))
  | leaf own l rest ih =>
    rcases List.mem_cons.mp hid with rfl | hid
    · rw [children_of_node? h.1]
      exact List.nil_subset _
    · exact List.Subset.trans (ih h.2 hid) (List.subset_cons_self _ _)

end Stores

/-! ## Walking -/

theorem walk_nil (a : Arena) (steps : Nat) : a.walk (steps + 1) [] = some [] := rfl

/-- An element on top of the stack makes way for its children. -/
theorem walk_element {id : NodeId} {tag : Tag} {parent? : Option NodeId} {ids : List NodeId}
    (h : a.node? id = some ⟨.element tag, parent?, ids⟩) (steps : Nat) (stack : List NodeId) :
    a.walk (steps + 1) (id :: stack) = (a.walk steps (ids ++ stack)).map (id :: ·) := by
  rw [walk, next?, h]
  show (a.walk steps (ids ++ stack) >>= fun others => some (id :: others)) = _
  exact Option.map_eq_bind.symm

/-- A leaf on top of the stack is dropped. -/
theorem walk_leaf {id : NodeId} {l : Leaf} {parent? : Option NodeId} {ids : List NodeId}
    (h : a.node? id = some ⟨.leaf l, parent?, ids⟩) (steps : Nat) (stack : List NodeId) :
    a.walk steps (id :: stack) = a.walk steps stack := by
  cases steps with
  | zero => rfl
  | succ steps =>
    rw [walk, next?, h, walk]
    rfl

namespace Stores

/-- **A walk goes through a forest in document order**, with one step for every element. -/
theorem walk (h : a.Stores above? f) (steps : Nat) (stack : List NodeId) :
    a.walk (f.elements.length + steps) (f.topIds ++ stack) =
      (a.walk steps stack).map (f.elements.map Element.id ++ ·) := by
  induction f generalizing above? steps stack with
  | nil => simp [Forest.topIds, Forest.elements]
  | element id tag content rest ihContent ihRest =>
    obtain ⟨hnode, hcontent, hrest⟩ := h
    have hsteps : (Forest.element id tag content rest).elements.length + steps =
        content.elements.length + (rest.elements.length + steps) + 1 := by
      simp [Forest.elements]
      omega
    rw [Forest.topIds, List.cons_append, hsteps, walk_element hnode, ihContent hcontent,
      ihRest hrest, Option.map_map, Option.map_map]
    simp [Forest.elements, Function.comp_def]
  | leaf id l rest ih =>
    rw [Forest.topIds, List.cons_append, walk_leaf h.1, Forest.elements, ih h.2]

/-- The first element of a name at the top of a forest. -/
theorem firstNamed (h : a.Stores above? f) (name : String) : a.firstNamed name f.topIds =
    some ((f.children.find? (·.name == name)).map Element.id) := by
  induction f with
  | nil => rfl
  | element id tag content rest _ ih =>
    obtain ⟨hnode, -, hrest⟩ := h
    rw [Forest.topIds, Arena.firstNamed, hnode, Option.bind_eq_bind, Option.bind_some,
      Forest.children, List.find?_cons]
    by_cases hname : tag.name = name
    · simp [hname, Element.name]
    · simp [hname, beq_false_of_ne hname, Element.name, ih hrest]
  | leaf id l rest ih =>
    rw [Forest.topIds, Arena.firstNamed, h.1, Option.bind_eq_bind, Option.bind_some,
      Forest.children]
    exact ih h.2

/-- The elements at the top are the nodes there that have a tag. -/
theorem filter_topIds (h : a.Stores above? f) :
    f.topIds.filter (fun id => (a.tag? id).isSome) = f.children.map Element.id := by
  induction f with
  | nil => rfl
  | element id tag content rest _ ih =>
    obtain ⟨hnode, -, hrest⟩ := h
    rw [Forest.topIds, List.filter_cons_of_pos (by rw [tag?_of_node? hnode]; rfl), ih hrest]
    rfl
  | leaf id l rest ih =>
    have hnone : a.tag? id = none := tag?_of_node? h.1
    rw [Forest.topIds, List.filter_cons_of_neg (by simp [hnone]), ih h.2]
    rfl

/-- **A path leads to the same element** in the arena and in the forest. -/
theorem descend? (h : a.Stores above? f) (he : e ∈ f.elements) (path : List Nat) :
    a.descend? path e.id = (e.descend? path).map Element.id := by
  induction path generalizing e with
  | nil => rfl
  | cons position path ih =>
    have hfilter := (h.of_mem he).2.filter_topIds
    rw [Arena.descend?, h.children_of_mem he, Element.childIds, hfilter, Element.descend?,
      List.getElem?_map, Element.children]
    cases hchild : e.content.children[position]? with
    | none => rfl
    | some child =>
      have hmem : child ∈ f.elements := Forest.elements_content_subset he
        (Forest.children_subset_elements _ (List.mem_of_getElem? hchild))
      exact ih hmem

end Stores

end Arena

end BuildProject
