import Mathlib.Logic.Relation
import BuildProject.Proofs.Arena.Changes
import BuildProject.Proofs.Document.Placement

/-!
# Trees in an arena and what is done to them

In a well-formed arena every way up from node to parent ends (`WellFormed.isAttached`). An arena
represents a tree if it is well-formed and stores the tree (`Arena.Represents`). Then the nodes that
are attached are those of the tree (`Represents.reaches_iff`), a walk from the root goes through the
elements of the tree in document order (`Represents.descendants`), and each operation on the arena
leaves an arena that represents the tree after the same operation.
-/

namespace BuildProject

open Markup

namespace Forest

theorem without_append (lost : List NodeId) (f g : Forest) :
    (f ++ g).without lost = f.without lost ++ g.without lost := by
  induction f with
  | nil => rfl
  | element id tag content rest _ ih =>
    rw [element_append, without, without, ih]
    split <;> rfl
  | leaf id l rest ih =>
    rw [leaf_append, without, without, ih]
    split <;> rfl

theorem without_of_not_mem {lost : List NodeId} {f : Forest} (h : ∀ id ∈ f.topIds, id ∉ lost) :
    f.without lost = f := by
  induction f with
  | nil => rfl
  | element id tag content rest _ ih =>
    obtain ⟨hid, hrest⟩ := List.forall_mem_cons.mp h
    rw [without, if_neg hid, ih hrest]
  | leaf id l rest ih =>
    obtain ⟨hid, hrest⟩ := List.forall_mem_cons.mp h
    rw [without, if_neg hid, ih hrest]

theorem without_of_subset {lost : List NodeId} {f : Forest} (h : f.topIds ⊆ lost) :
    f.without lost = nil := by
  induction f with
  | nil => rfl
  | element id tag content rest _ ih =>
    obtain ⟨hid, hrest⟩ := List.cons_subset.mp h
    rw [without, if_pos hid, ih hrest]
  | leaf id l rest ih =>
    obtain ⟨hid, hrest⟩ := List.cons_subset.mp h
    rw [without, if_pos hid, ih hrest]

/-- Without one of some siblings the others are left. -/
theorem without_child {left right : Forest} {child : Element}
    (hnodup : (left ++ (ofElement child ++ right)).topIds.Nodup) :
    (left ++ (ofElement child ++ right)).without [child.id] = left ++ right := by
  rw [topIds_append, topIds_append, topIds_ofElement, List.singleton_append, List.nodup_middle,
    List.nodup_cons, List.mem_append, not_or] at hnodup
  have hothers {f : Forest} (h : child.id ∉ f.topIds) : f.without [child.id] = f :=
    without_of_not_mem fun id hid hmem => h (List.mem_singleton.mp hmem ▸ hid)
  have hchild : (ofElement child).without [child.id] = nil :=
    without_of_subset (List.Subset.refl _)
  rw [without_append, without_append, hothers hnodup.1.1, hothers hnodup.1.2, hchild, nil_append]

end Forest

namespace Arena

variable {a a' : Arena} {t : Tree} {e : Element} {id : NodeId}

/-! ## Ways up -/

/-- The first node is the parent that the second has stored. -/
def IsParent (a : Arena) (parent child : NodeId) : Prop :=
  a.parent? child = some parent

/-- The way up from a node leads to the root. -/
def Reaches (a : Arena) : NodeId → Prop :=
  Relation.ReflTransGen a.IsParent rootId

theorem reaches_iff : a.Reaches id ↔ id = rootId ∨ ∃ p, a.parent? id = some p ∧ a.Reaches p := by
  rw [Reaches, Relation.ReflTransGen.cases_tail_iff]
  exact or_congr Iff.rfl (exists_congr fun _ => and_comm)

theorem reaches_of_parent {p : NodeId} (hne : id ≠ rootId) (hp : a.parent? id = some p) :
    a.Reaches id ↔ a.Reaches p := by
  rw [reaches_iff, or_iff_right hne]
  refine ⟨fun ⟨q, hq, hreaches⟩ => ?_, fun hreaches => ⟨p, hp, hreaches⟩⟩
  exact Option.some.inj (hp.symm.trans hq) ▸ hreaches

/-! ### Climbing, step by step -/

theorem climb_root (a : Arena) (steps : Nat) : a.climb (steps + 1) rootId = some true := by
  rw [climb, if_pos rfl]
  rfl

theorem climb_of_some (hne : id ≠ rootId) {p : NodeId} (hp : a.parent? id = some p) (steps : Nat) :
    a.climb (steps + 1) id = a.climb steps p := by
  obtain ⟨node, hnode, hstored⟩ := Option.bind_eq_some_iff.mp hp
  rw [climb, if_neg hne, hnode, Option.bind_eq_bind, Option.bind_some, hstored]

theorem climb_of_none (hid : id < a.next) (hne : id ≠ rootId) (hp : a.parent? id = none)
    (steps : Nat) : a.climb (steps + 1) id = some false := by
  obtain ⟨node, hnode⟩ := exists_node? hid
  rw [parent?_of_node? hnode] at hp
  rw [climb, if_neg hne, hnode, Option.bind_eq_bind, Option.bind_some, hp]
  rfl

namespace WellFormed

/-- A way up leads to smaller and smaller positions. -/
theorem lt_of_transGen (h : a.WellFormed) {p : NodeId} (hup : Relation.TransGen a.IsParent p id) :
    p < id := by
  induction hup with
  | single hp => exact h.lt_of_parent hp
  | tail _ hp ih => exact Nat.lt_trans ih (h.lt_of_parent hp)

/-- **Every climb ends**, after no more steps than there are positions up to the one that it starts
from, and says whether it was at the root. -/
theorem exists_climb (h : a.WellFormed) (hid : id < a.next) {steps : Nat} (hsteps : id < steps) :
    ∃ answer, a.climb steps id = some answer ∧ (answer = true ↔ a.Reaches id) := by
  induction steps generalizing id with
  | zero => exact absurd hsteps (Nat.not_lt_zero id)
  | succ steps ih =>
    by_cases hroot : id = rootId
    · rw [hroot, climb_root]
      exact ⟨true, rfl, iff_of_true rfl .refl⟩
    · cases hp : a.parent? id with
      | none =>
        refine ⟨false, climb_of_none hid hroot hp steps,
          iff_of_false Bool.false_ne_true fun hreaches => ?_⟩
        obtain ⟨p, hparent, -⟩ := (reaches_iff.mp hreaches).resolve_left hroot
        exact absurd (hp.symm.trans hparent) (Option.some_ne_none p).symm
      | some p =>
        -- the parent is before its child, so one step less is enough for it
        have hlt := h.lt_of_parent hp
        obtain ⟨answer, hanswer, hiff⟩ := ih (Nat.lt_trans hlt hid)
          (Nat.lt_of_lt_of_le hlt (Nat.le_of_lt_succ hsteps))
        rw [climb_of_some hroot hp]
        exact ⟨answer, hanswer, hiff.trans (reaches_of_parent hroot hp).symm⟩

/-- **Whether a node is attached is decided** for every position, also for those outside the
table. -/
theorem exists_isAttached (h : a.WellFormed) (id : NodeId) :
    ∃ answer, a.isAttached id = some answer ∧ (answer = true ↔ a.Reaches id) := by
  rw [isAttached]
  split
  · next hid => exact h.exists_climb hid hid
  · next hid =>
    refine ⟨false, rfl, iff_of_false Bool.false_ne_true fun hreaches => hid ?_⟩
    rcases reaches_iff.mp hreaches with rfl | ⟨p, hp, -⟩
    · exact h.root_lt_next
    · exact lt_next_of_parent? hp

/-- A climb that may take more steps ends where it ended. -/
theorem climb_eq_isAttached (h : a.WellFormed) (hid : id < a.next) {steps : Nat}
    (hsteps : id < steps) : a.climb steps id = a.isAttached id := by
  obtain ⟨answer, hclimb, hiff⟩ := h.exists_climb hid hsteps
  obtain ⟨answer', hattached, hiff'⟩ := h.exists_isAttached id
  rw [hclimb, hattached, Bool.eq_iff_iff.mpr (hiff.trans hiff'.symm)]

theorem isAttached_iff (h : a.WellFormed) : a.isAttached id = some true ↔ a.Reaches id := by
  obtain ⟨answer, hanswer, hiff⟩ := h.exists_isAttached id
  rw [hanswer, Option.some.injEq, hiff]

end WellFormed

/-! ## Represented trees -/

/-- The arena holds the tree, and perhaps nodes that have left it. -/
structure Represents (a : Arena) (t : Tree) : Prop where
  wellFormed : a.WellFormed
  stores : a.Stores none t.whole
  next : a.next = t.next
  tree : t.WellFormed

/-- Everything in a forest is attached if the node above it is. -/
theorem Stores.reaches {above : NodeId} {f : Forest} (h : a.Stores (some above) f)
    (habove : a.Reaches above) : ∀ id ∈ f.nodeIds, a.Reaches id := by
  have hbelow {id : NodeId} {kind : NodeKind} {ids : List NodeId}
      (hnode : a.node? id = some ⟨kind, some above, ids⟩) : a.Reaches id :=
    habove.tail (parent?_of_node? hnode)
  induction f generalizing above with
  | nil => exact fun id hid => absurd hid List.not_mem_nil
  | element own tag content rest ihContent ihRest =>
    obtain ⟨hnode, hcontent, hrest⟩ := h
    have hown := hbelow hnode
    refine List.forall_mem_cons.mpr ⟨hown, List.forall_mem_append.mpr ⟨?_, ?_⟩⟩
    · exact ihContent hcontent hown fun hnode => hown.tail (parent?_of_node? hnode)
    · exact ihRest hrest habove hbelow
  | leaf own l rest ih =>
    exact List.forall_mem_cons.mpr ⟨hbelow h.1, ih h.2 habove hbelow⟩

namespace Represents

/-- **The nodes of the tree are those that are attached.** -/
theorem reaches_iff (h : a.Represents t) : a.Reaches id ↔ id ∈ t.nodeIds := by
  constructor
  · intro hreaches
    induction hreaches with
    | refl => exact List.mem_cons_self
    | tail _ hp ih =>
      rw [← Tree.nodeIds_whole] at ih ⊢
      exact h.stores.children_subset ih (h.wellFormed.mem_children_iff.mpr hp)
  · intro hid
    rcases List.mem_cons.mp hid with rfl | hid
    · exact .refl
    · exact h.stores.2.1.reaches .refl id hid

theorem isAttached_iff (h : a.Represents t) : a.isAttached id = some true ↔ id ∈ t.nodeIds :=
  h.wellFormed.isAttached_iff.trans h.reaches_iff

theorem mem_whole (he : e ∈ t.root :: t.elements) : e ∈ t.whole.elements := by
  rwa [Tree.elements_whole]

theorem tag?_of_mem (h : a.Represents t) (he : e ∈ t.root :: t.elements) :
    a.tag? e.id = some e.tag :=
  h.stores.tag?_of_mem (mem_whole he)

theorem children_of_mem (h : a.Represents t) (he : e ∈ t.root :: t.elements) :
    a.children e.id = e.childIds :=
  h.stores.children_of_mem (mem_whole he)

theorem lt_next (h : a.Represents t) (he : e ∈ t.root :: t.elements) : e.id < a.next :=
  lt_next_of_tag? (h.tag?_of_mem he)

/-- **The elements of the tree** are the attached nodes that have a tag. -/
theorem find?_isSome_iff (h : a.Represents t) : (t.find? id).isSome ↔
    a.isAttached id = some true ∧ (a.tag? id).isSome := by
  rw [h.isAttached_iff]
  constructor
  · intro hfind
    obtain ⟨e, he⟩ := Option.isSome_iff_exists.mp hfind
    refine ⟨Tree.id_mem_of_find? he, ?_⟩
    rw [← Tree.id_of_find? he, h.tag?_of_mem (Tree.find?_mem he)]
    rfl
  · rintro ⟨hid, htag⟩
    obtain ⟨tag, htag⟩ := Option.isSome_iff_exists.mp htag
    rw [← Tree.nodeIds_whole] at hid
    obtain ⟨e, he, rfl⟩ := h.stores.mem_of_tag? hid htag
    rw [Tree.elements_whole] at he
    rw [h.tree.find?_of_mem he]
    rfl

/-- The table has more nodes than the tree has elements below the root. -/
theorem length_elements_lt (h : a.Represents t) : t.elements.length < a.nodes.size := by
  have hids : (rootId :: t.elements.map Element.id).Nodup :=
    ((Forest.map_id_elements_sublist t.content).cons_cons rootId).nodup h.tree.nodup
  have hlt : (rootId :: t.elements.map Element.id) ⊆ List.range a.nodes.size := by
    intro id hid
    obtain ⟨e, he, rfl⟩ : ∃ e ∈ t.root :: t.elements, e.id = id := List.mem_map.mp hid
    exact List.mem_range.mpr (h.lt_next he)
  have hlength := (hids.subperm hlt).length_le
  rwa [List.length_cons, List.length_map, List.length_range] at hlength

/-- **A walk from the root ends** and goes through the elements of the tree in document order. It
takes one step for every element, and one more to find that there is none left. -/
theorem walk (h : a.Represents t) {steps : Nat} (hsteps : t.elements.length < steps) :
    a.walk steps (a.children rootId) = some (t.elements.map Element.id) := by
  obtain ⟨hroot, hcontent, -⟩ := h.stores
  have hchildren : a.children rootId = t.content.topIds := children_of_node? hroot
  obtain ⟨others, rfl⟩ : ∃ others, steps = t.elements.length + (others + 1) :=
    ⟨_, (Nat.add_sub_of_le hsteps).symm.trans (Nat.succ_add_eq_add_succ ..)⟩
  have hwalk := hcontent.walk (others + 1) []
  rw [List.append_nil, walk_nil, Option.map_some, List.append_nil] at hwalk
  rw [hchildren]
  exact hwalk

theorem descendants (h : a.Represents t) :
    a.descendants rootId = some (t.elements.map Element.id) := by
  obtain ⟨root, hroot⟩ := exists_node? h.wellFormed.root_lt_next
  have hwalk := h.walk h.length_elements_lt
  rw [children_of_node? hroot] at hwalk
  rw [Arena.descendants, hroot]
  exact hwalk

/-! ## Operations -/

/-- A new tag for an element. -/
theorem setTag (h : a.Represents t) (he : e ∈ t.root :: t.elements) {tag : Tag}
    (hdistinct : tag.Distinct) {t' : Tree} (ht' : t'.WellFormed) (hnext : t'.next = t.next)
    (hwhole : t'.whole = t.whole.replaceAt e.id fun _ => .ofElement ⟨e.id, tag, e.content⟩) :
    ∃ a', a.setTag e.id tag = some a' ∧ a'.Represents t' := by
  obtain ⟨a', hset, hchange⟩ := exists_setTag tag (h.lt_next he)
  refine ⟨a', hset, h.wellFormed.retags hchange (h.lt_next he) hdistinct, ?_, ?_, ht'⟩
  · rw [hwhole]
    exact h.stores.retags h.tree.nodup_whole (mem_whole he) hchange
  · rw [hchange.next, h.next, hnext]

theorem setAttribute (h : a.Represents t) (he : e ∈ t.root :: t.elements) (name value : String) :
    ∃ a', a.setTag e.id (e.tag.set name value) = some a' ∧
      a'.Represents (t.setAttribute e.id name value) := by
  have hdistinct := h.wellFormed.distinct (h.tag?_of_mem he)
  refine h.setTag he (hdistinct.set name value) (h.tree.setAttribute ..) (Tree.modify_next ..) ?_
  rw [Tree.whole_setAttribute, Forest.replaceAt_eq_const h.tree.nodup_whole (mem_whole he)]

theorem eraseAttribute (h : a.Represents t) (he : e ∈ t.root :: t.elements) (name : String) :
    ∃ a', a.setTag e.id (e.tag.erase name) = some a' ∧
      a'.Represents (t.eraseAttribute e.id name) := by
  have hdistinct := h.wellFormed.distinct (h.tag?_of_mem he)
  refine h.setTag he (hdistinct.erase name) (h.tree.eraseAttribute ..) (Tree.modify_next ..) ?_
  rw [Tree.whole_eraseAttribute, Forest.replaceAt_eq_const h.tree.nodup_whole (mem_whole he)]

/-- A new node in an element. -/
theorem gains (h : a.Represents t) (he : e ∈ t.root :: t.elements) {left right : Forest}
    (hcontent : e.content = left ++ right) {kind : NodeKind}
    (hdistinct : ∀ tag, kind.tag? = some tag → tag.Distinct)
    (hchange : a.Gains e.id left.topIds right.topIds kind a') {t' : Tree} (ht' : t'.WellFormed)
    (hnext : t'.next = t.next + 1)
    (hwhole : t'.whole = t.whole.replaceAt e.id fun _ =>
      .ofElement ⟨e.id, e.tag, left ++ (kind.toForest t.next ++ right)⟩) :
    a'.Represents t' := by
  have hchildren : a.children e.id = left.topIds ++ right.topIds := by
    rw [h.children_of_mem he, Element.childIds, hcontent, Forest.topIds_append]
  refine ⟨h.wellFormed.gains hchange hchildren (h.tag?_of_mem he) hdistinct, ?_, ?_, ht'⟩
  · rw [hwhole, ← h.next]
    exact h.stores.gains h.tree.nodup_whole (mem_whole he) hcontent hchange
  · rw [hchange.next, h.next, hnext]

/-- Nodes that leave an element. -/
theorem loses (h : a.Represents t) (he : e ∈ t.root :: t.elements) {lost : List NodeId}
    (hlost : lost ⊆ e.childIds) (hchange : a.Loses lost a') {t' : Tree} (ht' : t'.WellFormed)
    (hnext : t'.next = t.next)
    (hwhole : t'.whole = t.whole.replaceAt e.id fun _ =>
      .ofElement ⟨e.id, e.tag, e.content.without lost⟩) :
    a'.Represents t' := by
  refine ⟨h.wellFormed.loses hchange, ?_, ?_, ht'⟩
  · rw [hwhole]
    exact h.stores.loses h.wellFormed h.tree.nodup_whole (mem_whole he) hlost hchange
  · rw [hchange.next, h.next, hnext]

theorem distinct_new (name : String) :
    ∀ tag, (NodeKind.element ⟨name, []⟩).tag? = some tag → tag.Distinct := by
  intro tag htag
  obtain rfl := Option.some.inj htag
  exact List.nodup_nil

theorem distinct_leaf (l : Leaf) : ∀ tag, (NodeKind.leaf l).tag? = some tag → tag.Distinct :=
  fun tag htag => absurd htag (Option.some_ne_none tag).symm

/-- A new child at the end of an element. -/
theorem appendElement (h : a.Represents t) (he : e ∈ t.root :: t.elements) (name : String) :
    ∃ a', (a.create (.element ⟨name, []⟩)).appendChild e.id a.next = some a' ∧
      a'.Represents (t.appendElement e.id name) := by
  obtain ⟨a', happend, hchange⟩ := exists_appendChild (h.lt_next he) (.element ⟨name, []⟩)
  rw [h.children_of_mem he] at hchange
  have hcontent : e.content = e.content ++ .nil := (Forest.append_nil _).symm
  refine ⟨a', happend, h.gains he hcontent (distinct_new name) hchange (h.tree.appendElement ..)
    rfl ?_⟩
  rw [Tree.whole_appendElement, Forest.replaceAt_eq_const h.tree.nodup_whole (mem_whole he),
    Forest.append_nil]
  rfl

/-- A text in the place of what an element holds. -/
theorem setText (h : a.Represents t) (he : e ∈ t.root :: t.elements) (text : String) :
    ∃ a', a.setText e.id text = some a' ∧ a'.Represents (t.setText e.id text) := by
  have hmem := mem_whole he
  obtain ⟨a₁, hclear, hchange⟩ := h.wellFormed.exists_clear (h.lt_next he)
  rw [h.children_of_mem he] at hchange
  -- the tree without what the element holds
  let cleared : Element := ⟨e.id, e.tag, .nil⟩
  have hcleared : (t.setText e.id "").whole =
      t.whole.replaceAt e.id fun _ => .ofElement cleared := by
    rw [Tree.whole_setText, Forest.replaceAt_eq_const h.tree.nodup_whole hmem]
    rfl
  have h₁ : a₁.Represents (t.setText e.id "") := by
    refine h.loses he (List.Subset.refl _) hchange (h.tree.setText ..) (Tree.modify_next ..) ?_
    rw [hcleared, Forest.without_of_subset (f := e.content) (List.Subset.refl e.childIds)]
  by_cases htext : text.isEmpty
  · refine ⟨a₁, ?_, ?_⟩
    · rw [Arena.setText, hclear, Option.bind_eq_bind, Option.bind_some, if_pos htext]
      rfl
    · rwa [String.isEmpty_iff.mp htext]
  · have he₁ : cleared ∈ (t.setText e.id "").root :: (t.setText e.id "").elements := by
      rw [← Tree.elements_whole, hcleared]
      exact Forest.mem_replaceAt h.tree.nodup_whole hmem cleared
    have hnext : (t.setText e.id "").next = t.next := Tree.modify_next ..
    have hempty : cleared.content = .nil ++ .nil := rfl
    obtain ⟨a₂, happend, hgains⟩ := exists_appendChild (h₁.lt_next he₁) (.leaf (.text text))
    rw [h₁.children_of_mem he₁] at hgains
    refine ⟨a₂, ?_, h₁.gains he₁ hempty (distinct_leaf _) hgains (h.tree.setText ..) ?_ ?_⟩
    · rw [Arena.setText, hclear, Option.bind_eq_bind, Option.bind_some, if_neg htext]
      exact happend
    · rw [hnext, Tree.setText, if_neg htext]
    · rw [hcleared, Forest.replaceAt_replaceAt t.whole cleared, Tree.whole_setText, if_neg htext,
        Forest.replaceAt_eq_const h.tree.nodup_whole hmem, hnext]
      rfl

/-- The parent of an element below the root, with the nodes beside the element. -/
theorem exists_parent (h : a.Represents t) (he : e ∈ t.root :: t.elements) (hne : e.id ≠ rootId) :
    ∃ parent ∈ t.root :: t.elements, ∃ left right,
      parent.content = left ++ (.ofElement e ++ right) ∧ a.parent? e.id = some parent.id ∧
      a.children parent.id = left.topIds ++ e.id :: right.topIds := by
  obtain ⟨parent, hparent, left, right, hcontent, -⟩ := h.tree.exists_around he hne
  have hchildren : a.children parent.id = left.topIds ++ e.id :: right.topIds := by
    rw [h.children_of_mem hparent, Element.childIds, hcontent]
    simp
  refine ⟨parent, hparent, left, right, hcontent, ?_, hchildren⟩
  rw [← h.wellFormed.mem_children_iff, hchildren]
  exact List.mem_append_right _ List.mem_cons_self

/-- A new sibling right before or right after an element. -/
theorem insertElement (h : a.Represents t) (he : e ∈ t.root :: t.elements) (hne : e.id ≠ rootId)
    (name : String) (after : Bool) :
    ∃ a', (a.create (.element ⟨name, []⟩)).insertSibling e.id a.next after = some (true, a') ∧
      a'.Represents (t.insertElement e.id name after) := by
  obtain ⟨parent, hparent, left, right, hcontent, hstored, hchildren⟩ := h.exists_parent he hne
  obtain ⟨a', hinsert, hchange⟩ :=
    h.wellFormed.exists_insertSibling hstored hchildren (.element ⟨name, []⟩) after
  have ht' := h.tree.insertElement e.id name after
  have hwhole := Tree.whole_insertElement (t := t) hne name after
  rw [Forest.replaceAt_child h.tree.nodup_whole (mem_whole hparent) hcontent] at hwhole
  refine ⟨a', hinsert, ?_⟩
  cases after with
  | true =>
    rw [← Forest.append_assoc] at hcontent
    refine h.gains hparent hcontent (distinct_new name) ?_ ht' rfl (hwhole.trans ?_)
    · simpa using hchange
    · simp only [if_true, Forest.append_assoc]
      rfl
  | false =>
    refine h.gains hparent hcontent (distinct_new name) ?_ ht' rfl (hwhole.trans ?_)
    · simpa using hchange
    · simp only [Bool.false_eq_true, if_false, Forest.append_assoc]
      rfl

/-- An element below the root leaves the tree. -/
theorem remove (h : a.Represents t) (he : e ∈ t.root :: t.elements) (hne : e.id ≠ rootId) :
    ∃ a', a.detach e.id = some a' ∧ a'.Represents (t.remove e.id) := by
  obtain ⟨parent, hparent, left, right, hcontent, hstored, hchildren⟩ := h.exists_parent he hne
  obtain ⟨a', hdetach, hchange⟩ := h.wellFormed.exists_detach (h.lt_next he)
  have hlost : [e.id] ⊆ parent.childIds := by
    rw [← h.children_of_mem hparent]
    exact List.cons_subset.mpr ⟨h.wellFormed.mem_children_iff.mpr hstored, List.nil_subset _⟩
  have hnodup : (left ++ (Forest.ofElement e ++ right)).topIds.Nodup := by
    rw [← hcontent]
    exact h.tree.nodup_childIds hparent
  refine ⟨a', hdetach, h.loses hparent hlost hchange (h.tree.remove e.id) rfl ?_⟩
  rw [Tree.whole_remove hne, Forest.replaceAt_child h.tree.nodup_whole (mem_whole hparent) hcontent,
    hcontent, Forest.without_child hnodup, Forest.nil_append]

end Represents

end Arena

end BuildProject
