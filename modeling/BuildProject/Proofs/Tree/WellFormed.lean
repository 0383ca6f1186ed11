import Mathlib.Data.List.Nodup
import Mathlib.Data.List.Perm.Subperm
import BuildProject.Tree

/-!
# Well-formed trees

In a well-formed tree no two nodes have one identity, and every identity is below the next one that
will be handed out. Every change of a tree keeps this: the identities that a change leaves are some
of those that were there and, if it makes a node, the next one (`WellFormed.of_subperm`).
-/

namespace BuildProject

open Markup
open scoped List

namespace Forest

/-! ## Identities -/

/-- The elements are among the nodes. -/
theorem id_mem_nodeIds {f : Forest} {e : Element} (h : e ∈ f.elements) : e.id ∈ f.nodeIds := by
  induction f with
  | nil => simp [elements] at h
  | element id tag content rest ihContent ihRest =>
    simp only [elements, List.mem_cons, List.mem_append] at h
    simp only [nodeIds, List.mem_cons, List.mem_append]
    rcases h with rfl | h | h
    · exact .inl rfl
    · exact .inr (.inl (ihContent h))
    · exact .inr (.inr (ihRest h))
  | leaf id l rest ih => exact List.mem_cons_of_mem _ (ih h)

/-- Changing an element is putting the changed one in its place. -/
theorem modify_eq_replaceAt (f : Forest) (target : NodeId) (onTag : Tag → Tag)
    (onContent : Forest → Forest) : f.modify target onTag onContent =
      f.replaceAt target fun e => ofElement ⟨e.id, onTag e.tag, onContent e.content⟩ := by
  induction f with
  | nil => rfl
  | element id tag content rest ihContent ihRest =>
    rw [modify, replaceAt]
    split
    · rfl
    · rw [ihContent, ihRest]
  | leaf id l rest ih => rw [modify, replaceAt, ih]

/-- Nothing changes if there is no node of the given identity. -/
theorem replaceAt_of_not_mem {f : Forest} {target : NodeId} (h : target ∉ f.nodeIds)
    (replacement : Element → Forest) : f.replaceAt target replacement = f := by
  induction f with
  | nil => rfl
  | element id tag content rest ihContent ihRest =>
    simp only [nodeIds, List.mem_cons, List.mem_append, not_or] at h
    rw [replaceAt, if_neg (Ne.symm h.1), ihContent h.2.1, ihRest h.2.2]
  | leaf id l rest ih =>
    simp only [nodeIds, List.mem_cons, not_or] at h
    rw [replaceAt, ih h.2]

section Replace

variable {id : NodeId} {tag : Tag} {content rest : Forest} {e : Element}

/-- An element is replaced inside the one that holds it. -/
theorem replaceAt_of_mem_content (hnodup : (element id tag content rest).nodeIds.Nodup)
    (he : e ∈ content.elements) (replacement : Element → Forest) :
    (element id tag content rest).replaceAt e.id replacement =
      element id tag (content.replaceAt e.id replacement) rest := by
  obtain ⟨hid, hnodup⟩ := List.nodup_cons.mp hnodup
  have hmem := id_mem_nodeIds he
  have hne : id ≠ e.id := fun heq => hid (List.mem_append_left _ (heq ▸ hmem))
  rw [replaceAt, if_neg hne, replaceAt_of_not_mem ((List.nodup_append'.mp hnodup).2.2 hmem)]

/-- Or behind it. -/
theorem replaceAt_of_mem_rest (hnodup : (element id tag content rest).nodeIds.Nodup)
    (he : e ∈ rest.elements) (replacement : Element → Forest) :
    (element id tag content rest).replaceAt e.id replacement =
      element id tag content (rest.replaceAt e.id replacement) := by
  obtain ⟨hid, hnodup⟩ := List.nodup_cons.mp hnodup
  have hmem := id_mem_nodeIds he
  have hne : id ≠ e.id := fun heq => hid (List.mem_append_right _ (heq ▸ hmem))
  have hcontent : e.id ∉ content.nodeIds := fun h => (List.nodup_append'.mp hnodup).2.2 h hmem
  rw [replaceAt, if_neg hne, replaceAt_of_not_mem hcontent]

end Replace

theorem modify_of_not_mem {f : Forest} {target : NodeId} (h : target ∉ f.nodeIds)
    (onTag : Tag → Tag) (onContent : Forest → Forest) : f.modify target onTag onContent = f := by
  rw [modify_eq_replaceAt, replaceAt_of_not_mem h]

/-- What enters a list enters it behind one more identity. -/
theorem subperm_cons {fresh a a' : List NodeId} (id : NodeId) (h : a' <+~ fresh ++ a) :
    id :: a' <+~ fresh ++ id :: a :=
  ((List.subperm_cons id).mpr h).trans List.perm_middle.symm.subperm

theorem subperm_append_of_left {fresh a a' : List NodeId} (h : a' <+~ fresh ++ a)
    (b : List NodeId) : a' ++ b <+~ fresh ++ (a ++ b) := by
  rw [← List.append_assoc]
  exact (List.subperm_append_right b).mpr h

theorem subperm_append_of_right {fresh b b' : List NodeId} (h : b' <+~ fresh ++ b)
    (a : List NodeId) : a ++ b' <+~ fresh ++ (a ++ b) := by
  have hmiddle : a ++ (fresh ++ b) <+~ fresh ++ (a ++ b) := by
    rw [← List.append_assoc, ← List.append_assoc]
    exact (List.subperm_append_right b).mpr List.perm_append_comm.subperm
  exact ((List.subperm_append_left a).mpr h).trans hmiddle

/-- What a forest in the place of an element leaves. -/
theorem nodeIds_replaceAt {f : Forest} (hnodup : f.nodeIds.Nodup) (target : NodeId)
    {replacement : Element → Forest} {fresh : List NodeId}
    (h : ∀ e, (replacement e).nodeIds <+~ fresh ++ e.id :: e.content.nodeIds) :
    (f.replaceAt target replacement).nodeIds <+~ fresh ++ f.nodeIds := by
  induction f with
  | nil => simp [replaceAt, nodeIds]
  | element id tag content rest ihContent ihRest =>
    obtain ⟨-, hnodup⟩ := List.nodup_cons.mp hnodup
    obtain ⟨hnodupContent, hnodupRest, hdisjoint⟩ := List.nodup_append'.mp hnodup
    rw [replaceAt]
    split
    · rw [nodeIds_append, nodeIds, ← List.cons_append]
      exact subperm_append_of_left (h ⟨id, tag, content⟩) _
    · by_cases hmem : target ∈ content.nodeIds
      · rw [replaceAt_of_not_mem (hdisjoint hmem)]
        exact subperm_cons id (subperm_append_of_left (ihContent hnodupContent) _)
      · rw [replaceAt_of_not_mem hmem]
        exact subperm_cons id (subperm_append_of_right (ihRest hnodupRest) _)
  | leaf id l rest ih =>
    obtain ⟨-, hnodup⟩ := List.nodup_cons.mp hnodup
    exact subperm_cons id (ih hnodup)

/-- What a change of one element's content leaves: identities that were there, and those that enter
the content. -/
theorem nodeIds_modify {f : Forest} (hnodup : f.nodeIds.Nodup) (target : NodeId)
    (onTag : Tag → Tag) {onContent : Forest → Forest} {fresh : List NodeId}
    (h : ∀ content, (onContent content).nodeIds <+~ fresh ++ content.nodeIds) :
    (f.modify target onTag onContent).nodeIds <+~ fresh ++ f.nodeIds := by
  rw [modify_eq_replaceAt]
  refine nodeIds_replaceAt hnodup target fun e => ?_
  rw [ofElement, nodeIds, nodeIds, List.append_nil]
  exact subperm_cons e.id (h e.content)

end Forest

/-! ## Well-formed trees -/

namespace Tree

/-- The identities of all nodes, the root included. -/
def nodeIds (t : Tree) : List NodeId :=
  rootId :: t.content.nodeIds

/-- No identity occurs twice, and the next one is new. -/
structure WellFormed (t : Tree) : Prop where
  nodup : t.nodeIds.Nodup
  lt_next : ∀ id ∈ t.nodeIds, id < t.next

theorem WellFormed.nodup_content {t : Tree} (h : t.WellFormed) : t.content.nodeIds.Nodup :=
  (List.nodup_cons.mp h.nodup).2

theorem WellFormed.root_not_mem {t : Tree} (h : t.WellFormed) : rootId ∉ t.content.nodeIds :=
  (List.nodup_cons.mp h.nodup).1

theorem WellFormed.next_not_mem {t : Tree} (h : t.WellFormed) : t.next ∉ t.nodeIds :=
  fun hmem => absurd (h.lt_next t.next hmem) (Nat.lt_irrefl _)

/-- A root without content is well-formed. -/
theorem wellFormed_ofTag (tag : Tag) : (ofTag tag).WellFormed := by
  constructor
  · simp [nodeIds, ofTag, Forest.nodeIds]
  · simp [nodeIds, ofTag, Forest.nodeIds]

/-- A tree that has lost nodes, or got new ones with the next identities, is well-formed. -/
theorem WellFormed.of_subperm {t t' : Tree} (h : t.WellFormed) (count : Nat)
    (hnext : t'.next = t.next + count)
    (hids : t'.content.nodeIds <+~ List.range' t.next count ++ t.content.nodeIds) :
    t'.WellFormed := by
  have hall : t'.nodeIds <+~ List.range' t.next count ++ t.nodeIds :=
    ((List.subperm_cons rootId).mpr hids).trans List.perm_middle.symm.subperm
  constructor
  · obtain ⟨ids, hperm, hsublist⟩ := hall
    have hfresh : (List.range' t.next count).Nodup := List.nodup_range'
    refine hperm.nodup_iff.mp (hsublist.nodup (hfresh.append h.nodup ?_))
    intro id hnew hold
    exact absurd (h.lt_next id hold) (Nat.not_lt.mpr (List.mem_range'_1.mp hnew).1)
  · intro id hid
    rw [hnext]
    rcases List.mem_append.mp (hall.subset hid) with hnew | hold
    · exact (List.mem_range'_1.mp hnew).2
    · exact Nat.lt_add_right count (h.lt_next id hold)

/-- Changing an element keeps a tree well-formed if its content only gets the next identities. -/
theorem WellFormed.modify {t : Tree} (h : t.WellFormed) (id : NodeId) (onTag : Tag → Tag)
    {onContent : Forest → Forest} (count : Nat)
    (hcontent : ∀ content,
      (onContent content).nodeIds <+~ List.range' t.next count ++ content.nodeIds) :
    ({ t.modify id onTag onContent with next := t.next + count } : Tree).WellFormed := by
  refine h.of_subperm count rfl ?_
  unfold Tree.modify
  split
  · exact hcontent t.content
  · exact Forest.nodeIds_modify h.nodup_content id onTag hcontent

@[simp] theorem modify_next (t : Tree) (id : NodeId) (onTag : Tag → Tag)
    (onContent : Forest → Forest) : (t.modify id onTag onContent).next = t.next := by
  unfold Tree.modify
  split <;> rfl

/-! ### Every change -/

theorem WellFormed.setTag {t : Tree} (h : t.WellFormed) (id : NodeId) (onTag : Tag → Tag) :
    (t.modify id onTag fun content => content).WellFormed := by
  have hmodify := h.modify id onTag 0 fun content => List.Subperm.refl content.nodeIds
  rw [Nat.add_zero, ← modify_next t id onTag fun content => content] at hmodify
  exact hmodify

theorem WellFormed.setAttribute {t : Tree} (h : t.WellFormed) (id : NodeId) (name value : String) :
    (t.setAttribute id name value).WellFormed :=
  h.setTag id _

theorem WellFormed.eraseAttribute {t : Tree} (h : t.WellFormed) (id : NodeId) (name : String) :
    (t.eraseAttribute id name).WellFormed :=
  h.setTag id _

theorem WellFormed.setText {t : Tree} (h : t.WellFormed) (id : NodeId) (text : String) :
    (t.setText id text).WellFormed := by
  unfold Tree.setText
  split
  · have hempty (content : Forest) :
        ((fun _ => Forest.nil) content).nodeIds <+~ List.range' t.next 0 ++ content.nodeIds :=
      List.nil_subperm
    have hmodify := h.modify id (fun tag => tag) 0 hempty
    rw [Nat.add_zero, ← modify_next t id (fun tag => tag) fun _ => .nil] at hmodify
    exact hmodify
  · refine h.modify id (fun tag => tag) 1 fun content => ?_
    exact (List.sublist_append_left [t.next] content.nodeIds).subperm

theorem WellFormed.appendElement {t : Tree} (h : t.WellFormed) (parent : NodeId) (name : String) :
    (t.appendElement parent name).WellFormed := by
  refine h.modify parent (fun tag => tag) 1 fun content => ?_
  rw [Forest.nodeIds_append]
  exact List.perm_append_comm.subperm

theorem WellFormed.insertElement {t : Tree} (h : t.WellFormed) (anchor : NodeId) (name : String)
    (after : Bool) : (t.insertElement anchor name after).WellFormed := by
  refine h.of_subperm 1 rfl ?_
  refine Forest.nodeIds_replaceAt h.nodup_content anchor fun e => ?_
  cases after with
  | true =>
    show (Forest.ofElement e ++ Forest.ofElement (t.newElement name)).nodeIds <+~ _
    rw [Forest.nodeIds_append]
    have hcomm : (e.id :: e.content.nodeIds) ++ [t.next] ~ [t.next] ++ e.id :: e.content.nodeIds :=
      List.perm_append_comm
    simpa [Forest.ofElement, Forest.nodeIds, newElement] using hcomm.subperm
  | false =>
    show (Forest.ofElement (t.newElement name) ++ Forest.ofElement e).nodeIds <+~ _
    rw [Forest.nodeIds_append]
    simpa [Forest.ofElement, Forest.nodeIds, newElement] using List.Subperm.refl _

theorem WellFormed.remove {t : Tree} (h : t.WellFormed) (id : NodeId) :
    (t.remove id).WellFormed := by
  refine h.of_subperm 0 rfl ?_
  exact Forest.nodeIds_replaceAt h.nodup_content id fun e => List.nil_subperm

end Tree

end BuildProject
