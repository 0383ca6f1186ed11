import BuildProject.Document.Arena
import BuildProject.Proofs.Arena.Representation

/-!
# Dropping indentation from an arena

Indentation is dropped from an arena element by element, in document order, with the list of
elements made before anything is dropped. Each time this changes what is directly inside one element
(`Stores.settleAt`), and all together it is the forest without indentation (`foldl_settleAt`), so
the arena that is left represents the tree without indentation (`Represents.settle`).
-/

namespace BuildProject

open Markup Text

namespace Forest

/-! ## Element by element -/

/-- The texts of blanks at the top. -/
def blankIds : Forest → List NodeId
  | nil => []
  | element _ _ _ rest => blankIds rest
  | leaf id l rest => if (NodeKind.leaf l).isBlank then id :: blankIds rest else blankIds rest

/-- The forest without the texts of blanks at its top. -/
def dropBlanks : Forest → Forest
  | nil => nil
  | element id tag content rest => element id tag content (dropBlanks rest)
  | leaf id l rest =>
    if (NodeKind.leaf l).isBlank then dropBlanks rest else leaf id l (dropBlanks rest)

/-- The forest without indentation at its top. -/
def settleTop (f : Forest) : Forest :=
  if f.isIndented then f.dropBlanks else f

/-- The forest without indentation directly inside the element with the given identity. -/
def settleAt (f : Forest) (id : NodeId) : Forest :=
  f.modify id (fun tag => tag) settleTop

theorem blankIds_subset (f : Forest) : f.blankIds ⊆ f.topIds := by
  induction f with
  | nil => exact List.Subset.refl _
  | element id tag content rest _ ih => exact List.subset_cons_of_subset _ ih
  | leaf id l rest ih =>
    rw [blankIds]
    split
    · exact List.cons_subset_cons _ ih
    · exact List.subset_cons_of_subset _ ih

/-- Dropping the blanks is dropping nodes by their identities. -/
theorem without_eq_dropBlanks {f : Forest} (hnodup : f.topIds.Nodup) {lost : List NodeId}
    (h : ∀ id ∈ f.topIds, id ∈ lost ↔ id ∈ f.blankIds) : f.without lost = f.dropBlanks := by
  induction f with
  | nil => rfl
  | element id tag content rest _ ih =>
    obtain ⟨hid, hnodup⟩ := List.nodup_cons.mp hnodup
    obtain ⟨hown, hothers⟩ := List.forall_mem_cons.mp h
    have hkept : id ∉ lost := fun hlost => hid (blankIds_subset rest (hown.mp hlost))
    rw [without, if_neg hkept, dropBlanks, ih hnodup hothers]
  | leaf id l rest ih =>
    obtain ⟨hid, hnodup⟩ := List.nodup_cons.mp hnodup
    obtain ⟨hown, hothers⟩ := List.forall_mem_cons.mp h
    rw [without, dropBlanks]
    by_cases hblank : (NodeKind.leaf l).isBlank = true
    · rw [blankIds, if_pos hblank] at hown hothers
      have hrest : ∀ x ∈ rest.topIds, x ∈ lost ↔ x ∈ rest.blankIds := by
        intro x hx
        have hne : x ≠ id := fun heq => hid (heq ▸ hx)
        rw [hothers x hx, List.mem_cons, or_iff_right hne]
      rw [if_pos (hown.mpr List.mem_cons_self), if_pos hblank, ih hnodup hrest]
    · rw [blankIds, if_neg hblank] at hown hothers
      have hkept : id ∉ lost := fun hlost => hid (blankIds_subset rest (hown.mp hlost))
      rw [if_neg hkept, if_neg hblank, ih hnodup hothers]

@[simp] theorem elements_dropBlanks (f : Forest) : f.dropBlanks.elements = f.elements := by
  induction f with
  | nil => rfl
  | element id tag content rest _ ih => rw [dropBlanks, elements, elements, ih]
  | leaf id l rest ih =>
    rw [dropBlanks]
    split
    · exact ih
    · exact ih

theorem nodeIds_dropBlanks_sublist (f : Forest) : f.dropBlanks.nodeIds.Sublist f.nodeIds := by
  induction f with
  | nil => exact .slnil
  | element id tag content rest _ ih => exact .cons_cons id ((List.Sublist.refl _).append ih)
  | leaf id l rest ih =>
    rw [dropBlanks]
    split
    · exact .cons id ih
    · exact .cons_cons id ih

@[simp] theorem elements_settleTop (f : Forest) : f.settleTop.elements = f.elements := by
  unfold settleTop
  split
  · exact elements_dropBlanks f
  · rfl

theorem nodeIds_settleTop_sublist (f : Forest) : f.settleTop.nodeIds.Sublist f.nodeIds := by
  unfold settleTop
  split
  · exact nodeIds_dropBlanks_sublist f
  · exact List.Sublist.refl _

/-- The elements stay what they are. -/
theorem map_id_elements_settleAt (f : Forest) (id : NodeId) :
    (f.settleAt id).elements.map Element.id = f.elements.map Element.id := by
  unfold settleAt
  induction f with
  | nil => rfl
  | element own tag content rest ihContent ihRest =>
    rw [modify]
    split
    · simp [elements]
    · simp [elements, ihContent, ihRest]
  | leaf own l rest ih => exact ih

theorem nodup_settleAt {f : Forest} (h : f.nodeIds.Nodup) (id : NodeId) :
    (f.settleAt id).nodeIds.Nodup := by
  have hsub : List.Subperm (f.settleAt id).nodeIds ([] ++ f.nodeIds) :=
    nodeIds_modify h id _ fun content => (nodeIds_settleTop_sublist content).subperm
  obtain ⟨ids, hperm, hsublist⟩ := hsub
  exact hperm.nodup_iff.mp (hsublist.nodup h)

/-! ### All elements -/

theorem settle_true (f : Forest) : f.settle true = (f.settle false).dropBlanks := by
  induction f with
  | nil => rfl
  | element id tag content rest _ ih => rw [settle, settle, dropBlanks, ih]
  | leaf id l rest ih =>
    cases l with
    | text content =>
      rw [settle, settle, Bool.true_and, Bool.false_and, if_neg Bool.false_ne_true, dropBlanks, ih]
      rfl
    | comment content => exact congrArg (leaf id (.comment content)) ih
    | cdata content => exact congrArg (leaf id (.cdata content)) ih

theorem settleAt_dropBlanks (f : Forest) (id : NodeId) :
    f.dropBlanks.settleAt id = (f.settleAt id).dropBlanks := by
  unfold settleAt
  induction f with
  | nil => rfl
  | element own tag content rest _ ih =>
    rw [dropBlanks, modify, modify]
    split
    · rfl
    · rw [dropBlanks, ih]
  | leaf own l rest ih =>
    rw [dropBlanks, modify, dropBlanks]
    split
    · exact ih
    · rw [modify, ih]

theorem foldl_settleAt_dropBlanks (ids : List NodeId) (f : Forest) :
    ids.foldl settleAt f.dropBlanks = (ids.foldl settleAt f).dropBlanks := by
  induction ids generalizing f with
  | nil => rfl
  | cons id ids ih => rw [List.foldl_cons, List.foldl_cons, settleAt_dropBlanks, ih]

section Parts

variable {id : NodeId} {tag : Tag} {content rest : Forest} {ids : List NodeId}

/-- What happens inside an element does not touch the nodes behind it. -/
theorem foldl_settleAt_content (h : ∀ x ∈ ids, x ≠ id ∧ x ∉ rest.nodeIds) :
    ids.foldl settleAt (element id tag content rest) =
      element id tag (ids.foldl settleAt content) rest := by
  induction ids generalizing content with
  | nil => rfl
  | cons x ids ih =>
    obtain ⟨⟨hne, hrest⟩, hothers⟩ := List.forall_mem_cons.mp h
    have hstep : (element id tag content rest).settleAt x =
        element id tag (content.settleAt x) rest := by
      rw [settleAt, modify, if_neg hne.symm, modify_of_not_mem hrest, settleAt]
    rw [List.foldl_cons, hstep, ih hothers, List.foldl_cons]

/-- What happens behind an element does not touch it. -/
theorem foldl_settleAt_rest (h : ∀ x ∈ ids, x ≠ id ∧ x ∉ content.nodeIds) :
    ids.foldl settleAt (element id tag content rest) =
      element id tag content (ids.foldl settleAt rest) := by
  induction ids generalizing rest with
  | nil => rfl
  | cons x ids ih =>
    obtain ⟨⟨hne, hcontent⟩, hothers⟩ := List.forall_mem_cons.mp h
    have hstep : (element id tag content rest).settleAt x =
        element id tag content (rest.settleAt x) := by
      rw [settleAt, modify, if_neg hne.symm, modify_of_not_mem hcontent, settleAt]
    rw [List.foldl_cons, hstep, ih hothers, List.foldl_cons]

theorem foldl_settleAt_leaf (l : Leaf) :
    ids.foldl settleAt (leaf id l rest) = leaf id l (ids.foldl settleAt rest) := by
  induction ids generalizing rest with
  | nil => rfl
  | cons x ids ih => exact ih

end Parts

/-- **Dropping indentation inside one element after the other** is dropping it at any depth. -/
theorem foldl_settleAt {f : Forest} (hnodup : f.nodeIds.Nodup) :
    (f.elements.map Element.id).foldl settleAt f = f.settle false := by
  have hmem {g : Forest} {x : NodeId} (hx : x ∈ g.elements.map Element.id) : x ∈ g.nodeIds :=
    (map_id_elements_sublist g).subset hx
  induction f with
  | nil => rfl
  | element id tag content rest ihContent ihRest =>
    obtain ⟨hid, hparts⟩ := List.nodup_cons.mp hnodup
    obtain ⟨hnodupContent, hnodupRest, hdisjoint⟩ := List.nodup_append'.mp hparts
    have hcontent : ∀ x ∈ content.elements.map Element.id, x ≠ id ∧ x ∉ rest.nodeIds :=
      fun x hx => ⟨fun heq => hid (heq ▸ List.mem_append_left _ (hmem hx)),
        fun hin => hdisjoint (hmem hx) hin⟩
    have hsettled : (content.settle content.isIndented).nodeIds ⊆ content.nodeIds :=
      (nodeIds_settle_sublist _ content).subset
    have hrest : ∀ x ∈ rest.elements.map Element.id, x ≠ id ∧
        x ∉ (content.settle content.isIndented).nodeIds :=
      fun x hx => ⟨fun heq => hid (heq ▸ List.mem_append_right _ (hmem hx)),
        fun hin => hdisjoint (hsettled hin) (hmem hx)⟩
    have hown : (element id tag content rest).settleAt id =
        element id tag content.settleTop rest := by
      rw [settleAt, modify, if_pos rfl]
    have hinside : (content.elements.map Element.id).foldl settleAt content.settleTop =
        content.settle content.isIndented := by
      rw [settleTop]
      cases content.isIndented with
      | true => rw [if_pos rfl, foldl_settleAt_dropBlanks, ihContent hnodupContent, settle_true]
      | false => exact ihContent hnodupContent
    rw [elements, List.map_cons, List.map_append, List.foldl_cons, hown, List.foldl_append,
      foldl_settleAt_content hcontent, hinside, foldl_settleAt_rest hrest, ihRest hnodupRest,
      settle]
  | leaf id l rest ih =>
    have hleaf : (leaf id l rest).settle false = leaf id l (rest.settle false) := by
      cases l <;> rfl
    rw [elements, foldl_settleAt_leaf, ih (List.nodup_cons.mp hnodup).2, hleaf]

end Forest

namespace Arena

variable {a a' : Arena} {above? : Option NodeId} {f : Forest} {e : Element} {t : Tree}

/-! ## In an arena -/

namespace Stores

theorem anyM_isStructure (h : a.Stores above? f) :
    (f.topIds.anyM fun child => return (← a.node? child).kind.isStructure) =
      some f.hasStructure := by
  induction f with
  | nil => rfl
  | element id tag content rest _ _ =>
    obtain ⟨hnode, -, -⟩ := h
    rw [Forest.topIds, List.anyM, hnode]
    rfl
  | leaf id l rest ih =>
    rw [Forest.topIds, List.anyM, h.1]
    cases l with
    | text content => exact ih h.2
    | comment content => rfl
    | cdata content => exact ih h.2

theorem anyM_isWords (h : a.Stores above? f) :
    (f.topIds.anyM fun child => return (← a.node? child).kind.isWords) = some f.hasWords := by
  induction f with
  | nil => rfl
  | element id tag content rest _ ih =>
    obtain ⟨hnode, -, hrest⟩ := h
    rw [Forest.topIds, List.anyM, hnode]
    exact ih hrest
  | leaf id l rest ih =>
    rw [Forest.topIds, List.anyM, h.1]
    cases l with
    | text content =>
      have hwords : (NodeKind.leaf (.text content)).isWords = !isAllBlank content := rfl
      cases hblank : isAllBlank content with
      | true => simpa [hwords, Forest.hasWords, hblank] using ih h.2
      | false => simp [hwords, Forest.hasWords, hblank]
    | comment content => exact ih h.2
    | cdata content => exact ih h.2

theorem blanks (h : a.Stores above? f) : a.blanks f.topIds = some f.blankIds := by
  induction f with
  | nil => rfl
  | element id tag content rest _ ih =>
    obtain ⟨hnode, -, hrest⟩ := h
    rw [Forest.topIds, Arena.blanks, hnode, ih hrest]
    rfl
  | leaf id l rest ih =>
    rw [Forest.topIds, Arena.blanks, h.1, ih h.2, Forest.blankIds]
    rfl

end Stores

/-- Nodes that are detached one after the other. -/
theorem WellFormed.exists_foldlM_detach (ha : a.WellFormed) {ids : List NodeId}
    (h : ∀ id ∈ ids, id < a.next) :
    ∃ a', ids.foldlM detach a = some a' ∧ a.Loses ids a' := by
  induction ids generalizing a with
  | nil => exact ⟨a, rfl, .refl a⟩
  | cons id ids ih =>
    obtain ⟨hid, hothers⟩ := List.forall_mem_cons.mp h
    obtain ⟨a₁, hdetach, hfirst⟩ := ha.exists_detach hid
    obtain ⟨a₂, hfold, hsecond⟩ := ih (ha.loses hfirst) fun x hx => hfirst.next ▸ hothers x hx
    refine ⟨a₂, ?_, hsecond.next.trans hfirst.next, fun x => ?_⟩
    · rw [List.foldlM_cons, hdetach]
      exact hfold
    · rw [hsecond.node?, hfirst.node?, Option.map_map]
      cases a.node? x with
      | none => rfl
      | some node => exact congrArg some (node.lose_lose [id] ids x)

/-- What happens at one element: its blanks leave it, or nothing does. -/
theorem WellFormed.exists_settleAt (ha : a.WellFormed) (h : a.Stores above? f)
    (hnodup : f.nodeIds.Nodup) (he : e ∈ f.elements) :
    ∃ a' lost, a.settleAt e.id = some a' ∧ a.Loses lost a' ∧ lost ⊆ e.childIds ∧
      e.content.without lost = e.content.settleTop := by
  obtain ⟨⟨parent?, hnode⟩, hinside⟩ := h.of_mem he
  have hsettle : a.settleAt e.id =
      if !e.content.hasStructure || e.content.hasWords then some a
      else e.content.blankIds.foldlM detach a := by
    rw [settleAt, hnode, Option.bind_eq_bind, Option.bind_some, Element.childIds]
    dsimp only
    rw [hinside.anyM_isStructure, Option.bind_eq_bind, Option.bind_some, hinside.anyM_isWords,
      Option.bind_eq_bind, Option.bind_some, hinside.blanks]
    rfl
  have hindented : e.content.isIndented = !(!e.content.hasStructure || e.content.hasWords) := by
    rw [Forest.isIndented, Bool.not_or, Bool.not_not]
  rw [hsettle]
  split
  · next hkept =>
    rw [Forest.settleTop, hindented, hkept]
    exact ⟨a, [], rfl, .refl a, List.nil_subset _,
      Forest.without_of_not_mem fun _ _ => List.not_mem_nil⟩
  · next hdropped =>
    have hsub := Forest.blankIds_subset e.content
    have htop : e.content.topIds.Nodup := by
      have hcontent := (Forest.nodeIds_sublist_of_mem he).nodup hnodup
      exact (Forest.topIds_sublist_nodeIds _).nodup (List.nodup_cons.mp hcontent).2
    have hlt : ∀ id ∈ e.content.blankIds, id < a.next := fun id hid =>
      h.lt_next (Forest.childIds_subset he (hsub hid))
    obtain ⟨a', hdetach, hchange⟩ := ha.exists_foldlM_detach hlt
    rw [Bool.not_eq_true] at hdropped
    rw [Forest.settleTop, hindented, hdropped]
    exact ⟨a', e.content.blankIds, hdetach, hchange, hsub,
      Forest.without_eq_dropBlanks htop fun _ _ => Iff.rfl⟩

/-- **At one element** an arena loses what the forest loses. -/
theorem Stores.settleAt (ha : a.WellFormed) (h : a.Stores above? f) (hnodup : f.nodeIds.Nodup)
    (he : e ∈ f.elements) : ∃ a', a.settleAt e.id = some a' ∧ a'.WellFormed ∧
      a'.next = a.next ∧ a'.Stores above? (f.settleAt e.id) := by
  obtain ⟨a', lost, hsettle, hchange, hlost, hwithout⟩ := ha.exists_settleAt h hnodup he
  refine ⟨a', hsettle, ha.loses hchange, hchange.next, ?_⟩
  have hstores := h.loses ha hnodup he hlost hchange
  rw [hwithout] at hstores
  rwa [Forest.settleAt, Forest.modify_eq_replaceAt, Forest.replaceAt_eq_const hnodup he]

/-- At some elements, one after the other. -/
theorem Stores.foldlM_settleAt (ha : a.WellFormed) (h : a.Stores above? f)
    (hnodup : f.nodeIds.Nodup) {ids : List NodeId} (hids : ids ⊆ f.elements.map Element.id) :
    ∃ a', ids.foldlM Arena.settleAt a = some a' ∧ a'.WellFormed ∧ a'.next = a.next ∧
      a'.Stores above? (ids.foldl Forest.settleAt f) := by
  induction ids generalizing a f with
  | nil => exact ⟨a, rfl, ha, rfl, h⟩
  | cons id ids ih =>
    obtain ⟨hid, hothers⟩ := List.cons_subset.mp hids
    obtain ⟨e, he, rfl⟩ := List.mem_map.mp hid
    obtain ⟨a₁, hfirst, ha₁, hnext₁, h₁⟩ := h.settleAt ha hnodup he
    rw [← Forest.map_id_elements_settleAt f e.id] at hothers
    obtain ⟨a₂, hfold, ha₂, hnext₂, h₂⟩ :=
      ih ha₁ h₁ (Forest.nodup_settleAt hnodup e.id) hothers
    refine ⟨a₂, ?_, ha₂, hnext₂.trans hnext₁, h₂⟩
    rw [List.foldlM_cons, hfirst]
    exact hfold

/-- **Dropping indentation** leaves an arena that represents the tree without it. -/
theorem Represents.settle (h : a.Represents t) : ∃ a', a.settle = some a' ∧
    a'.Represents { t with content := t.content.settle t.content.isIndented } := by
  have hnodup := h.tree.nodup_whole
  have hids : rootId :: t.elements.map Element.id = t.whole.elements.map Element.id := by
    rw [Tree.elements_whole]
    rfl
  obtain ⟨a', hfold, ha', hnext, hstores⟩ :=
    h.stores.foldlM_settleAt h.wellFormed hnodup (List.Subset.refl _)
  refine ⟨a', ?_, ha', ?_, hnext.trans h.next, ?_⟩
  · rw [Arena.settle, h.descendants, Option.bind_eq_bind, Option.bind_some, hids]
    exact hfold
  · rwa [Forest.foldl_settleAt hnodup] at hstores
  · have hsublist := (Forest.nodeIds_settle_sublist t.content.isIndented t.content).cons_cons rootId
    exact ⟨hsublist.nodup h.tree.nodup, fun id hid => h.tree.lt_next id (hsublist.subset hid)⟩

end Arena

end BuildProject
