import Mathlib.Logic.Relation
import BuildProject.Proofs.Tree.Lookup

/-!
# Parents and children

In a well-formed tree the two ways to go from node to node agree: an element lists a node among its
children exactly if it is the parent that is found for the node (`parent?_eq_some_iff`). So the
nodes below an element are those that climb to it from parent to parent (`isAncestor_iff`), and no
climb comes back to where it started (`not_isAncestor_self`).
-/

namespace BuildProject

open Markup

namespace Forest

/-- The identities of the nodes at the top. -/
def topIds : Forest → List NodeId
  | nil => []
  | element id _ _ rest => id :: topIds rest
  | leaf id _ rest => id :: topIds rest

end Forest

/-- The identities of the nodes directly inside an element, in their order. -/
def Element.childIds (e : Element) : List NodeId :=
  e.content.topIds

namespace Forest

/-! ## Nodes at the top and below -/

theorem topIds_sublist_nodeIds (f : Forest) : f.topIds.Sublist f.nodeIds := by
  induction f with
  | nil => exact .slnil
  | element id tag content rest _ ih =>
    exact .cons_cons id (ih.trans (List.sublist_append_right _ _))
  | leaf id l rest ih => exact .cons_cons id ih

/-- A node directly inside an element of a forest is in the forest. -/
theorem childIds_subset {f : Forest} {e : Element} (h : e ∈ f.elements) :
    e.childIds ⊆ f.nodeIds :=
  fun _ hid => nodeIds_content_subset h ((topIds_sublist_nodeIds e.content).subset hid)

/-- What is inside an element of a forest is among the elements of the forest. -/
theorem elements_content_subset {f : Forest} {e : Element} (h : e ∈ f.elements) :
    e.content.elements ⊆ f.elements := by
  induction f with
  | nil => exact absurd h List.not_mem_nil
  | element id tag content rest ihContent ihRest =>
    intro x hx
    rcases List.mem_cons.mp h with rfl | h
    · exact List.mem_cons_of_mem _ (List.mem_append_left _ hx)
    · rcases List.mem_append.mp h with h | h
      · exact List.mem_cons_of_mem _ (List.mem_append_left _ (ihContent h hx))
      · exact List.mem_cons_of_mem _ (List.mem_append_right _ (ihRest h hx))
  | leaf id l rest ih => exact ih h

theorem children_sublist_elements (f : Forest) : f.children.Sublist f.elements := by
  induction f with
  | nil => exact .slnil
  | element id tag content rest _ ih =>
    exact (ih.trans (List.sublist_append_right _ _)).cons_cons _
  | leaf id l rest ih => exact ih

theorem children_subset_elements (f : Forest) : f.children ⊆ f.elements :=
  (children_sublist_elements f).subset

/-- An element of a forest and the nodes inside it stand among the nodes in their order. -/
theorem nodeIds_sublist_of_mem {f : Forest} {e : Element} (h : e ∈ f.elements) :
    (e.id :: e.content.nodeIds).Sublist f.nodeIds := by
  induction f with
  | nil => exact absurd h List.not_mem_nil
  | element id tag content rest ihContent ihRest =>
    rcases List.mem_cons.mp h with rfl | h
    · exact .cons_cons id (List.sublist_append_left _ _)
    · rcases List.mem_append.mp h with h | h
      · exact .cons id ((ihContent h).trans (List.sublist_append_left _ _))
      · exact .cons id ((ihRest h).trans (List.sublist_append_right _ _))
  | leaf id l rest ih => exact .cons id (ih h)

/-- No element is inside itself. -/
theorem id_not_mem_content {f : Forest} (hnodup : f.nodeIds.Nodup) {e : Element}
    (h : e ∈ f.elements) : e.id ∉ e.content.nodeIds :=
  (List.nodup_cons.mp ((nodeIds_sublist_of_mem h).nodup hnodup)).1

/-- An element whose identity is inside another is itself inside it. -/
theorem mem_elements_of_id_mem {f : Forest} (hnodup : f.nodeIds.Nodup) {e x : Element}
    (he : e ∈ f.elements) (hx : x ∈ f.elements) (hid : x.id ∈ e.content.nodeIds) :
    x ∈ e.content.elements := by
  induction f with
  | nil => exact absurd he List.not_mem_nil
  | element id tag content rest ihContent ihRest =>
    obtain ⟨hown, hnodup⟩ := List.nodup_cons.mp hnodup
    obtain ⟨hnodupContent, hnodupRest, hdisjoint⟩ := List.nodup_append'.mp hnodup
    rcases List.mem_cons.mp he with rfl | he
    · rcases List.mem_cons.mp hx with rfl | hx
      · exact absurd (List.mem_append_left _ hid) hown
      · rcases List.mem_append.mp hx with hx | hx
        · exact hx
        · exact absurd (id_mem_nodeIds hx) (hdisjoint hid)
    · rcases List.mem_append.mp he with he | he
      · have hmem : x.id ∈ content.nodeIds := nodeIds_content_subset he hid
        rcases List.mem_cons.mp hx with rfl | hx
        · exact absurd (List.mem_append_left _ hmem) hown
        · rcases List.mem_append.mp hx with hx | hx
          · exact ihContent hnodupContent he hx
          · exact absurd (id_mem_nodeIds hx) (hdisjoint hmem)
      · have hmem : x.id ∈ rest.nodeIds := nodeIds_content_subset he hid
        rcases List.mem_cons.mp hx with rfl | hx
        · exact absurd (List.mem_append_right _ hmem) hown
        · rcases List.mem_append.mp hx with hx | hx
          · exact absurd hmem (hdisjoint (id_mem_nodeIds hx))
          · exact ihRest hnodupRest he hx
  | leaf id l rest ih => exact ih (List.nodup_cons.mp hnodup).2 he hx

/-- An element of a forest whose identity is at the top is at the top. -/
theorem mem_children_of_id_mem {f : Forest} (hnodup : f.nodeIds.Nodup) {e : Element}
    (he : e ∈ f.elements) (hid : e.id ∈ f.topIds) : e ∈ f.children := by
  induction f with
  | nil => exact absurd he List.not_mem_nil
  | element id tag content rest _ ih =>
    obtain ⟨hown, hnodup⟩ := List.nodup_cons.mp hnodup
    obtain ⟨-, hnodupRest, hdisjoint⟩ := List.nodup_append'.mp hnodup
    rcases List.mem_cons.mp he with rfl | he
    · exact List.mem_cons_self
    · have hmem : e.id ∈ content.nodeIds ++ rest.nodeIds :=
        (List.mem_append.mp he).elim (fun h => List.mem_append_left _ (id_mem_nodeIds h))
          (fun h => List.mem_append_right _ (id_mem_nodeIds h))
      have hne : e.id ≠ id := fun heq => hown (heq ▸ hmem)
      have htop : e.id ∈ rest.topIds := (List.mem_cons.mp hid).resolve_left hne
      have hrest : e ∈ rest.elements := by
        refine (List.mem_append.mp he).resolve_left fun hcontent => ?_
        exact hdisjoint (id_mem_nodeIds hcontent) ((topIds_sublist_nodeIds rest).subset htop)
      exact List.mem_cons_of_mem _ (ih hnodupRest hrest htop)
  | leaf id l rest ih =>
    obtain ⟨hown, hnodup⟩ := List.nodup_cons.mp hnodup
    have hne : e.id ≠ id := fun heq => hown (heq ▸ id_mem_nodeIds he)
    exact ih hnodup he ((List.mem_cons.mp hid).resolve_left hne)

theorem id_mem_topIds {f : Forest} {e : Element} (h : e ∈ f.children) : e.id ∈ f.topIds := by
  induction f with
  | nil => exact absurd h List.not_mem_nil
  | element id tag content rest _ ih =>
    rcases List.mem_cons.mp h with rfl | h
    · exact List.mem_cons_self
    · exact List.mem_cons_of_mem _ (ih h)
  | leaf id l rest ih => exact List.mem_cons_of_mem _ (ih h)

/-! ## The parent that is found -/

theorem parent?_of_not_mem {f : Forest} {target : NodeId} (h : target ∉ f.nodeIds)
    (above : Element) : f.parent? above target = none := by
  induction f generalizing above with
  | nil => rfl
  | element id tag content rest ihContent ihRest =>
    simp only [nodeIds, List.mem_cons, List.mem_append, not_or] at h
    rw [parent?, if_neg (Ne.symm h.1), ihContent h.2.1, ihRest h.2.2, Option.or_none]
  | leaf id l rest ih =>
    simp only [nodeIds, List.mem_cons, not_or] at h
    rw [parent?, if_neg (Ne.symm h.1), ih h.2]

/-- Whether an element holds a node directly: `above` holds those at the top, and an element of the
forest those that it lists. -/
def Holds (above p : Element) (target : NodeId) (f : Forest) : Prop :=
  p = above ∧ target ∈ f.topIds ∨ p ∈ f.elements ∧ target ∈ p.childIds

variable {above p : Element} {target : NodeId}

theorem Holds.mem_nodeIds {f : Forest} (h : f.Holds above p target) : target ∈ f.nodeIds := by
  rcases h with ⟨-, htop⟩ | ⟨hp, hchild⟩
  · exact (topIds_sublist_nodeIds f).subset htop
  · exact childIds_subset hp hchild

theorem holds_element {id : NodeId} {tag : Tag} {content rest : Forest} :
    (element id tag content rest).Holds above p target ↔ p = above ∧ target = id ∨
      content.Holds ⟨id, tag, content⟩ p target ∨ rest.Holds above p target := by
  have hself : p = ⟨id, tag, content⟩ ∧ target ∈ p.childIds ↔
      p = ⟨id, tag, content⟩ ∧ target ∈ content.topIds :=
    and_congr_right fun hp => by rw [hp]; rfl
  simp only [Holds, topIds, elements, List.mem_cons, List.mem_append, and_or_left, or_and_right,
    hself]
  constructor
  · rintro ((hid | htop) | hfirst | hcontent | hrest)
    · exact .inl hid
    · exact .inr (.inr (.inl htop))
    · exact .inr (.inl (.inl hfirst))
    · exact .inr (.inl (.inr hcontent))
    · exact .inr (.inr (.inr hrest))
  · rintro (hid | (hfirst | hcontent) | htop | hrest)
    · exact .inl (.inl hid)
    · exact .inr (.inl hfirst)
    · exact .inr (.inr (.inl hcontent))
    · exact .inl (.inr htop)
    · exact .inr (.inr (.inr hrest))

theorem holds_leaf {id : NodeId} {l : Leaf} {rest : Forest} :
    (leaf id l rest).Holds above p target ↔ p = above ∧ target = id ∨
      rest.Holds above p target := by
  simp only [Holds, topIds, elements, List.mem_cons, and_or_left, or_assoc]

/-- The first node is held by the element above, and by no other if its identity occurs once. -/
theorem some_above_iff {others : Prop} (hothers : ¬ others) :
    some above = some p ↔ p = above ∧ target = target ∨ others := by
  rw [Option.some.injEq, or_iff_left hothers, and_iff_left rfl]
  exact eq_comm

/-- **The parent of a node** is the element that holds it. -/
theorem parent?_eq_some_iff {f : Forest} (hnodup : f.nodeIds.Nodup) :
    f.parent? above target = some p ↔ f.Holds above p target := by
  induction f generalizing above with
  | nil => simp [parent?, Holds, topIds, elements]
  | element id tag content rest ihContent ihRest =>
    obtain ⟨hid, hnodup⟩ := List.nodup_cons.mp hnodup
    obtain ⟨hnodupContent, hnodupRest, hdisjoint⟩ := List.nodup_append'.mp hnodup
    rw [parent?, holds_element]
    split
    · next heq =>
      subst heq
      refine some_above_iff ?_
      rintro (hholds | hholds)
      · exact hid (List.mem_append_left _ hholds.mem_nodeIds)
      · exact hid (List.mem_append_right _ hholds.mem_nodeIds)
    · next hne =>
      have hnot : ¬ (p = above ∧ target = id) := fun h => hne h.2.symm
      rw [Option.or_eq_some_iff, ihContent hnodupContent, ihRest hnodupRest, or_iff_right hnot]
      refine or_congr_right (and_iff_right_of_imp fun hholds => ?_)
      -- a node of the rest has no parent in the content
      exact parent?_of_not_mem (fun hmem => hdisjoint hmem hholds.mem_nodeIds) _
  | leaf id l rest ih =>
    obtain ⟨hid, hnodup⟩ := List.nodup_cons.mp hnodup
    rw [parent?, holds_leaf]
    split
    · next heq =>
      subst heq
      exact some_above_iff fun hholds => hid hholds.mem_nodeIds
    · next hne =>
      have hnot : ¬ (p = above ∧ target = id) := fun h => hne h.2.symm
      rw [ih hnodup, or_iff_right hnot]

end Forest

namespace Tree

/-! ## Well-formed trees -/

/-- The first node is the parent of the second. -/
def IsParent (t : Tree) (parent child : NodeId) : Prop :=
  ∃ e, t.parent? child = some e ∧ e.id = parent

/-- The first node is met on the way up from the second. -/
def IsAncestor (t : Tree) : NodeId → NodeId → Prop :=
  Relation.TransGen t.IsParent

/-- The root with everything below it. -/
def whole (t : Tree) : Forest :=
  .ofElement t.root

@[simp] theorem elements_whole (t : Tree) : t.whole.elements = t.root :: t.elements := by
  simp [whole, Forest.ofElement, Forest.elements, root, elements]

@[simp] theorem nodeIds_whole (t : Tree) : t.whole.nodeIds = t.nodeIds := by
  simp [whole, Forest.ofElement, Forest.nodeIds, root, nodeIds]

variable {t : Tree}

theorem WellFormed.nodup_whole (h : t.WellFormed) : t.whole.nodeIds.Nodup := by
  rw [nodeIds_whole]
  exact h.nodup

/-- What is directly inside an element is below the root. -/
theorem childIds_subset {p : Element} (h : p ∈ t.root :: t.elements) :
    p.childIds ⊆ t.content.nodeIds := by
  rcases List.mem_cons.mp h with rfl | h
  · exact (Forest.topIds_sublist_nodeIds t.content).subset
  · exact Forest.childIds_subset h

/-- **Parents and children agree**: the parent of a node is the element that lists it. -/
theorem WellFormed.parent?_eq_some_iff (h : t.WellFormed) {id : NodeId} {p : Element} :
    t.parent? id = some p ↔ p ∈ t.root :: t.elements ∧ id ∈ p.childIds := by
  rw [Tree.parent?]
  split
  · next hroot =>
    subst hroot
    refine ⟨fun hnone => absurd hnone (by simp), fun ⟨hp, hid⟩ => ?_⟩
    exact absurd (childIds_subset hp hid) h.root_not_mem
  · rw [Forest.parent?_eq_some_iff h.nodup_content, Forest.Holds, List.mem_cons, or_and_right]
    refine or_congr (and_congr_right ?_) Iff.rfl
    rintro rfl
    exact Iff.rfl

/-- The parent of an element is the one that has it for a child. -/
theorem WellFormed.parent?_eq_some_iff_mem_children (h : t.WellFormed) {e p : Element}
    (he : e ∈ t.root :: t.elements) :
    t.parent? e.id = some p ↔ p ∈ t.root :: t.elements ∧ e ∈ p.children := by
  rw [h.parent?_eq_some_iff]
  refine and_congr_right fun hp => ⟨fun hid => ?_, Forest.id_mem_topIds⟩
  rw [← elements_whole] at he hp
  have hcontent := (Forest.nodeIds_sublist_of_mem hp).nodup h.nodup_whole
  have hinside := Forest.mem_elements_of_id_mem h.nodup_whole hp he
    ((Forest.topIds_sublist_nodeIds p.content).subset hid)
  exact Forest.mem_children_of_id_mem (List.nodup_cons.mp hcontent).2 hinside hid

/-- The elements directly inside an element are in the tree. -/
theorem children_subset {e : Element} (h : e ∈ t.root :: t.elements) :
    e.children ⊆ t.root :: t.elements := by
  rw [← elements_whole] at h ⊢
  exact List.Subset.trans (Forest.children_subset_elements e.content)
    (Forest.elements_content_subset h)

/-- Elements with one identity are one element. -/
theorem WellFormed.eq_of_id_eq (h : t.WellFormed) {e e' : Element} (he : e ∈ t.root :: t.elements)
    (he' : e' ∈ t.root :: t.elements) (hid : e.id = e'.id) : e = e' := by
  have hfind := h.find?_of_mem he
  rw [hid, h.find?_of_mem he'] at hfind
  exact (Option.some.inj hfind).symm

/-- An element is the parent of the nodes directly inside it. -/
theorem WellFormed.isParent_iff (h : t.WellFormed) {e : Element} (he : e ∈ t.root :: t.elements)
    {id : NodeId} : t.IsParent e.id id ↔ id ∈ e.childIds := by
  constructor
  · rintro ⟨p, hp, hid⟩
    obtain ⟨hmem, hchild⟩ := h.parent?_eq_some_iff.mp hp
    exact h.eq_of_id_eq hmem he hid ▸ hchild
  · exact fun hchild => ⟨e, h.parent?_eq_some_iff.mpr ⟨he, hchild⟩, rfl⟩

/-- No node is listed twice. -/
theorem WellFormed.nodup_childIds (h : t.WellFormed) {e : Element}
    (he : e ∈ t.root :: t.elements) : e.childIds.Nodup := by
  rw [← elements_whole] at he
  have hcontent := (Forest.nodeIds_sublist_of_mem he).nodup h.nodup_whole
  exact (Forest.topIds_sublist_nodeIds e.content).nodup (List.nodup_cons.mp hcontent).2

/-! ## Climbing -/

/-- Every node of a forest inside an element climbs to the element. -/
theorem WellFormed.isAncestor_of_mem (h : t.WellFormed) {f : Forest}
    (hf : f.elements ⊆ t.root :: t.elements) {p : Element} (hp : p ∈ t.root :: t.elements)
    (htop : f.topIds ⊆ p.childIds) : ∀ id ∈ f.nodeIds, t.IsAncestor p.id id := by
  induction f generalizing p with
  | nil => exact fun id hid => absurd hid List.not_mem_nil
  | element own tag content rest ihContent ihRest =>
    obtain ⟨hown, hrest⟩ := List.cons_subset.mp htop
    obtain ⟨hself, hothers⟩ := List.cons_subset.mp hf
    obtain ⟨hcontent, hrestElements⟩ := List.append_subset.mp hothers
    have hparent : t.IsParent p.id own := (h.isParent_iff hp).mpr hown
    intro id hid
    rcases List.mem_cons.mp hid with rfl | hid
    · exact .single hparent
    · rcases List.mem_append.mp hid with hid | hid
      · exact .head hparent (ihContent hcontent hself (List.Subset.refl _) id hid)
      · exact ihRest hrestElements hp hrest id hid
  | leaf own l rest ih =>
    obtain ⟨hown, hrest⟩ := List.cons_subset.mp htop
    intro id hid
    rcases List.mem_cons.mp hid with rfl | hid
    · exact .single ((h.isParent_iff hp).mpr hown)
    · exact ih hf hp hrest id hid

/-- **The nodes inside an element are those that climb to it.** -/
theorem WellFormed.isAncestor_iff (h : t.WellFormed) {e : Element}
    (he : e ∈ t.root :: t.elements) {id : NodeId} :
    t.IsAncestor e.id id ↔ id ∈ e.content.nodeIds := by
  have hmem : e ∈ t.whole.elements := by rwa [elements_whole]
  constructor
  · intro hclimb
    induction hclimb with
    | single hparent =>
      exact (Forest.topIds_sublist_nodeIds e.content).subset ((h.isParent_iff he).mp hparent)
    | tail _ hparent ih =>
      obtain ⟨p, hp, rfl⟩ := hparent
      obtain ⟨hp, hchild⟩ := h.parent?_eq_some_iff.mp hp
      rw [← elements_whole] at hp
      exact Forest.childIds_subset (Forest.mem_elements_of_id_mem h.nodup_whole hmem hp ih) hchild
  · refine h.isAncestor_of_mem (fun x hx => ?_) he (List.Subset.refl _) id
    rw [← elements_whole]
    exact Forest.elements_content_subset hmem hx

/-- No climb comes back to where it started. -/
theorem WellFormed.not_isAncestor_self (h : t.WellFormed) (id : NodeId) : ¬ t.IsAncestor id id := by
  intro hclimb
  obtain ⟨child, ⟨e, he, rfl⟩, -⟩ := Relation.TransGen.head'_iff.mp hclimb
  have hmem := (h.parent?_eq_some_iff.mp he).1
  have hinside := (h.isAncestor_iff hmem).mp hclimb
  rw [← elements_whole] at hmem
  exact Forest.id_not_mem_content h.nodup_whole hmem hinside

end Tree

end BuildProject
