import Mathlib.Data.List.Flatten
import Mathlib.Data.List.Perm.Basic
import BuildProject.Document.Query
import BuildProject.Proofs.Tree.Lookup

/-!
# Every item once

An element has one parent, so going through the children of all groups of a document comes to no
element twice: the elements below the root are those at the top and the children of all others.
-/

namespace BuildProject

open scoped List

/-- The elements of a forest are those at its top and the children of all its elements. -/
theorem Forest.elements_perm (f : Forest) :
    f.elements ~ f.children ++ f.elements.flatMap Element.children := by
  induction f with
  | nil => exact .rfl
  | element id tag content rest ihContent ihRest =>
    simp only [elements, children, List.cons_append, List.flatMap_cons, List.flatMap_append,
      Element.children]
    refine .cons _ ((ihContent.append ihRest).trans ?_)
    -- the children of this element come before its siblings in one walk, behind them in the other
    rw [← List.append_assoc content.children]
    exact List.perm_append_comm_assoc _ _ _
  | leaf id l rest ih => exact ih

namespace Document

variable {d : Document} {e : Element}

/-- The children of all groups of a name, group by group. -/
def members (d : Document) (groupName : String) : List Element :=
  (d.elementsNamed groupName).flatMap Element.children

/-- The members of groups are among the elements inside all elements. -/
theorem members_sublist (d : Document) (groupName : String) :
    (d.members groupName).Sublist (d.tree.content.elements.flatMap Element.children) :=
  List.Sublist.flatMap List.filter_sublist Element.children

theorem mem_elements_of_mem_members {groupName : String} (h : e ∈ d.members groupName) :
    e ∈ d.elements := by
  have hmem := (d.members_sublist groupName).subset h
  exact d.tree.content.elements_perm.mem_iff.mpr (List.mem_append_right _ hmem)

/-- No two members of groups have one identity. -/
theorem nodup_members (h : d.tree.WellFormed) (groupName : String) :
    ((d.members groupName).map Element.id).Nodup := by
  have hall : (d.tree.content.elements.map Element.id).Nodup :=
    (Forest.map_id_elements_sublist _).nodup h.nodup_content
  have hchildren := ((d.tree.content.elements_perm.map Element.id).nodup_iff.mp hall)
  rw [List.map_append] at hchildren
  exact ((d.members_sublist groupName).map Element.id).nodup
    (List.Nodup.of_append_right hchildren)

theorem mem_elements_of_mem_items (h : e ∈ d.items) : e ∈ d.elements :=
  mem_elements_of_mem_members h

/-- No two items have one identity. -/
theorem nodup_items (h : d.tree.WellFormed) : (d.items.map Element.id).Nodup :=
  nodup_members h itemGroupElement

end Document

end BuildProject
