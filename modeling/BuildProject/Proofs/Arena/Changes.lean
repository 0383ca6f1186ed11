import BuildProject.Proofs.Arena.Storage

/-!
# Changes of an arena and of the forest in it

What a change does to an arena that stores a forest is something put in the place of one element of
the forest: the element with another tag (`Stores.retags`), without some of the nodes in it
(`Stores.loses`), or with one node more (`Stores.gains`).
-/

namespace BuildProject

open Markup

namespace Arena

variable {a a' : Arena} {above? : Option NodeId} {f : Forest} {e new : Element}

namespace Stores

/-- **Something in the place of an element**: a forest with an element replaced is stored if the new
element is stored in the place of the old one, and nothing outside it is another. -/
theorem replaceAt (h : a.Stores above? f) (hnodup : f.nodeIds.Nodup) (he : e ∈ f.elements)
    (hid : new.id = e.id)
    (hself : ∀ parent?, a.node? e.id = some ⟨.element e.tag, parent?, e.childIds⟩ →
      a'.node? e.id = some ⟨.element new.tag, parent?, new.childIds⟩)
    (hinside : a'.Stores (some e.id) new.content)
    (houtside : ∀ id ∈ f.nodeIds, id ≠ e.id → id ∉ e.content.nodeIds → a'.node? id = a.node? id) :
    a'.Stores above? (f.replaceAt e.id fun _ => .ofElement new) := by
  induction f generalizing above? with
  | nil => exact absurd he List.not_mem_nil
  | element id tag content rest ihContent ihRest =>
    obtain ⟨hnode, hcontent, hrest⟩ := h
    have hwhole := hnodup
    obtain ⟨hown, hparts⟩ := List.nodup_cons.mp hnodup
    obtain ⟨hnodupContent, hnodupRest, hdisjoint⟩ := List.nodup_append'.mp hparts
    rw [Forest.nodeIds, List.forall_mem_cons, List.forall_mem_append] at houtside
    obtain ⟨houtsideId, houtsideContent, houtsideRest⟩ := houtside
    rcases List.mem_cons.mp he with rfl | he
    · rw [Forest.replaceAt, if_pos rfl, Forest.ofElement, Forest.element_append, hid]
      refine ⟨hself above? hnode, hinside, hrest.frame fun x hx => ?_⟩
      have hne : x ≠ id := fun heq => hown (List.mem_append_right _ (heq ▸ hx))
      exact houtsideRest x hx hne fun hmem => hdisjoint hmem hx
    rcases List.mem_append.mp he with he | he
    · have hmem := Forest.id_mem_nodeIds he
      have hne : id ≠ e.id := fun heq => hown (List.mem_append_left _ (heq ▸ hmem))
      have hnot : id ∉ e.content.nodeIds := fun hin =>
        hown (List.mem_append_left _ (Forest.nodeIds_content_subset he hin))
      rw [Forest.replaceAt_of_mem_content hwhole he]
      refine ⟨?_, ihContent hcontent hnodupContent he houtsideContent, hrest.frame fun x hx => ?_⟩
      · rw [houtsideId hne hnot, hnode, Forest.topIds_replaceAt hid]
      · refine houtsideRest x hx (fun heq => hdisjoint hmem (heq ▸ hx)) fun hin => ?_
        exact hdisjoint (Forest.nodeIds_content_subset he hin) hx
    · have hmem := Forest.id_mem_nodeIds he
      have hne : id ≠ e.id := fun heq => hown (List.mem_append_right _ (heq ▸ hmem))
      have hnot : id ∉ e.content.nodeIds := fun hin =>
        hown (List.mem_append_right _ (Forest.nodeIds_content_subset he hin))
      rw [Forest.replaceAt_of_mem_rest hwhole he]
      refine ⟨(houtsideId hne hnot).trans hnode, hcontent.frame fun x hx => ?_,
        ihRest hrest hnodupRest he houtsideRest⟩
      refine houtsideContent x hx (fun heq => hdisjoint (heq ▸ hx) hmem) fun hin => ?_
      exact hdisjoint hx (Forest.nodeIds_content_subset he hin)
  | leaf id l rest ih =>
    rw [Forest.nodeIds, List.forall_mem_cons] at houtside
    obtain ⟨hown, hnodup⟩ := List.nodup_cons.mp hnodup
    have hmem : e ∈ rest.elements := he
    have hne : id ≠ e.id := fun heq => hown (heq ▸ Forest.id_mem_nodeIds hmem)
    have hnot : id ∉ e.content.nodeIds := fun hin =>
      hown (Forest.nodeIds_content_subset hmem hin)
    exact ⟨(houtside.1 hne hnot).trans h.1, ih h.2 hnodup hmem houtside.2⟩

/-- Without some of the nodes at its top a forest is stored wherever the other nodes are the
same. -/
theorem without (h : a.Stores above? f) (hnodup : f.nodeIds.Nodup) {lost : List NodeId}
    (htop : ∀ id ∈ f.nodeIds, id ∈ lost → id ∈ f.topIds)
    (hsame : ∀ id ∈ f.nodeIds, id ∉ lost → a'.node? id = a.node? id) :
    a'.Stores above? (f.without lost) := by
  induction f with
  | nil => trivial
  | element id tag content rest _ ih =>
    obtain ⟨hnode, hcontent, hrest⟩ := h
    obtain ⟨hown, hparts⟩ := List.nodup_cons.mp hnodup
    obtain ⟨-, hnodupRest, hdisjoint⟩ := List.nodup_append'.mp hparts
    have hinside {x : NodeId} (hx : x ∈ content.nodeIds) : x ∈ content.nodeIds ++ rest.nodeIds :=
      List.mem_append_left _ hx
    have hbehind {x : NodeId} (hx : x ∈ rest.nodeIds) : x ∈ content.nodeIds ++ rest.nodeIds :=
      List.mem_append_right _ hx
    have hkept : a'.Stores above? (rest.without lost) := by
      refine ih hrest hnodupRest (fun x hx hin => ?_) fun x hx =>
        hsame x (List.mem_cons_of_mem _ (hbehind hx))
      have hmem := htop x (List.mem_cons_of_mem _ (hbehind hx)) hin
      exact (List.mem_cons.mp hmem).resolve_left fun heq => hown (heq ▸ hbehind hx)
    rw [Forest.without]
    split
    · exact hkept
    · next hid =>
      refine ⟨(hsame id List.mem_cons_self hid).trans hnode, hcontent.frame fun x hx => ?_, hkept⟩
      refine hsame x (List.mem_cons_of_mem _ (hinside hx)) fun hin => ?_
      -- what is inside an element is not at the top
      rcases List.mem_cons.mp (htop x (List.mem_cons_of_mem _ (hinside hx)) hin) with rfl | hmem
      · exact hown (hinside hx)
      · exact hdisjoint hx ((Forest.topIds_sublist_nodeIds rest).subset hmem)
  | leaf id l rest ih =>
    obtain ⟨hown, hnodupRest⟩ := List.nodup_cons.mp hnodup
    have hkept : a'.Stores above? (rest.without lost) := by
      refine ih h.2 hnodupRest (fun x hx hin => ?_) fun x hx => hsame x (List.mem_cons_of_mem _ hx)
      have hmem := htop x (List.mem_cons_of_mem _ hx) hin
      exact (List.mem_cons.mp hmem).resolve_left fun heq => hown (heq ▸ hx)
    rw [Forest.without]
    split
    · exact hkept
    · next hid => exact ⟨(hsame id List.mem_cons_self hid).trans h.1, hkept⟩

/-! ## The three kinds of changes -/

/-- A new tag is the element with that tag in its place. -/
theorem retags (h : a.Stores above? f) (hnodup : f.nodeIds.Nodup) (he : e ∈ f.elements) {tag : Tag}
    (hchange : a.Retags e.id tag a') :
    a'.Stores above? (f.replaceAt e.id fun _ => .ofElement ⟨e.id, tag, e.content⟩) := by
  have hother {id : NodeId} (hne : id ≠ e.id) : a'.node? id = a.node? id := by
    rw [hchange.node?, if_neg hne]
  have hinside : a'.Stores (some e.id) e.content := (h.of_mem he).2.frame fun id hid =>
    hother fun heq => Forest.id_not_mem_content hnodup he (heq ▸ hid)
  refine h.replaceAt hnodup he rfl (fun parent? hnode => ?_) hinside fun id _ hne _ => hother hne
  rw [hchange.node?, if_pos rfl, hnode]
  rfl

/-- Nodes that leave an element are the element without them in its place. -/
theorem loses (ha : a.WellFormed) (h : a.Stores above? f) (hnodup : f.nodeIds.Nodup)
    (he : e ∈ f.elements) {lost : List NodeId} (hlost : lost ⊆ e.childIds)
    (hchange : a.Loses lost a') :
    a'.Stores above? (f.replaceAt e.id fun _ =>
      .ofElement ⟨e.id, e.tag, e.content.without lost⟩) := by
  have hparent {c : NodeId} (hc : c ∈ lost) : a.parent? c = some e.id := by
    rw [← ha.mem_children_iff, h.children_of_mem he]
    exact hlost hc
  have hcontent : lost ⊆ e.content.nodeIds :=
    List.Subset.trans hlost (Forest.topIds_sublist_nodeIds e.content).subset
  -- links are only cut between the element and the nodes that leave it
  have hother {id : NodeId} (hne : id ≠ e.id) (hid : id ∉ lost) : a'.node? id = a.node? id := by
    rw [hchange.node?]
    cases hnode : a.node? id with
    | none => rfl
    | some node =>
      have hkept : node.children.filter (· ∉ lost) = node.children := by
        refine List.filter_eq_self.mpr fun c hc => ?_
        rw [decide_eq_true_eq]
        intro hmem
        have hlisted := ha.mem_children_iff.mp ((children_of_node? hnode).symm ▸ hc)
        exact hne (Option.some.inj (hlisted.symm.trans (hparent hmem)))
      rw [Option.map_some, ArenaNode.lose, if_neg hid, hkept]
  have hsub := (Forest.nodeIds_sublist_of_mem he).nodup hnodup
  have hinside : a'.Stores (some e.id) (e.content.without lost) :=
    (h.of_mem he).2.without (List.nodup_cons.mp hsub).2 (fun _ _ hin => hlost hin) fun id hid =>
      hother fun heq => Forest.id_not_mem_content hnodup he (heq ▸ hid)
  refine h.replaceAt hnodup he rfl (fun parent? hnode => ?_) hinside fun id _ hne hid =>
    hother hne fun hin => hid (hcontent hin)
  have hown : e.id ∉ lost := fun hin => Forest.id_not_mem_content hnodup he (hcontent hin)
  rw [hchange.node?, hnode, Option.map_some, ArenaNode.lose, if_neg hown, Element.childIds,
    Element.childIds, Forest.topIds_without]

/-- A node in the table that stands alone. -/
theorem toForest {id : NodeId} {kind : NodeKind} (h : a.node? id = some ⟨kind, above?, []⟩) :
    a.Stores above? (kind.toForest id) := by
  cases kind with
  | element tag => exact ⟨h, trivial, trivial⟩
  | leaf l => exact ⟨h, trivial⟩

/-- A new node in an element is the element with that node in its place. -/
theorem gains (h : a.Stores above? f) (hnodup : f.nodeIds.Nodup) (he : e ∈ f.elements)
    {left right : Forest} (hcontent : e.content = left ++ right) {kind : NodeKind}
    (hchange : a.Gains e.id left.topIds right.topIds kind a') :
    a'.Stores above? (f.replaceAt e.id fun _ =>
      .ofElement ⟨e.id, e.tag, left ++ (kind.toForest a.next ++ right)⟩) := by
  have hother {id : NodeId} (hid : id ∈ f.nodeIds) (hne : id ≠ e.id) :
      a'.node? id = a.node? id := by
    rw [hchange.node?_old id (Nat.ne_of_lt (h.lt_next hid)), if_neg hne]
  have hold : a'.Stores (some e.id) e.content := (h.of_mem he).2.frame fun id hid =>
    hother (Forest.nodeIds_content_subset he hid) fun heq =>
      Forest.id_not_mem_content hnodup he (heq ▸ hid)
  rw [hcontent, append_iff] at hold
  have hinside : a'.Stores (some e.id) (left ++ (kind.toForest a.next ++ right)) :=
    append_iff.mpr ⟨hold.1, append_iff.mpr ⟨toForest hchange.node?_new, hold.2⟩⟩
  refine h.replaceAt hnodup he rfl (fun parent? hnode => ?_) hinside fun id hid hne _ =>
    hother hid hne
  have hnew : e.id ≠ a.next := Nat.ne_of_lt (h.lt_next (Forest.id_mem_nodeIds he))
  have htop : (left ++ (kind.toForest a.next ++ right)).topIds =
      left.topIds ++ a.next :: right.topIds := by simp
  rw [hchange.node?_old e.id hnew, if_pos rfl, hnode, Option.map_some, ← htop]
  rfl

end Stores

end Arena

end BuildProject
