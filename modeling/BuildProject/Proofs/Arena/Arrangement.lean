import BuildProject.Proofs.Arena.Reachable
import BuildProject.Proofs.Tree.Order

/-!
# How the nodes of an arena are arranged

Whatever edits have been made, and whether they succeeded or failed, the links in the arena of a
document agree, for the nodes that have left the tree as well as for those in it: a node is among
the children of another exactly if it has that one as its parent, no node is listed twice, and no
way up comes back to where it started. So it is decided for every position whether it is attached,
and the walk from the root ends and gives every element that is attached, once, in document order
(`ArenaDocument.Reachable.arranged`).
-/

namespace BuildProject

open Markup

namespace ArenaDocument

/-- These are the elements below the root, in document order: each with its place, the path of child
positions that leads to it from the root, they are listed so that the paths ascend, and every path
that leads to an element is there. -/
def InDocumentOrder (d : ArenaDocument) (ids : List NodeId) : Prop :=
  ∃ positioned : List (List Nat × NodeId), positioned.map Prod.snd = ids ∧
    positioned.Pairwise (fun before after => before.1 < after.1) ∧
    ∀ path id, (path, id) ∈ positioned ↔ path ≠ [] ∧ d.arena.descend? path rootId = some id

/-- How the nodes of a document are arranged, those that have left the tree included. -/
structure Arranged (d : ArenaDocument) : Prop where
  /-- The root has no parent. -/
  root_parent : d.arena.parent? rootId = none
  /-- The links that are stored twice agree. -/
  mem_children_iff : ∀ p c, c ∈ d.arena.children p ↔ d.arena.parent? c = some p
  /-- No node is listed twice. -/
  nodup_children : ∀ p, (d.arena.children p).Nodup
  /-- No node is met on the way up from itself. -/
  acyclic : ∀ id, ¬ Relation.TransGen d.arena.IsParent id id
  /-- Only elements have children. -/
  parent_tag : ∀ p, d.arena.children p ≠ [] → (d.arena.tag? p).isSome
  /-- No element has two attributes of one name. -/
  distinct : ∀ id tag, d.arena.tag? id = some tag → tag.Distinct
  /-- For every position it is decided whether the way up from it ends at the root. -/
  isAttached : ∀ id, ∃ answer, d.arena.isAttached id = some answer ∧
    (answer = true ↔ d.arena.Reaches id)
  /-- The walk from the root ends, and gives every attached element but the root, once, in document
  order, and nothing else. -/
  elements : ∃ ids, d.elements = some ids ∧ ids.Nodup ∧
    (∀ id, id ∈ ids ↔
      id ≠ rootId ∧ d.arena.isAttached id = some true ∧ (d.arena.tag? id).isSome) ∧
    d.InDocumentOrder ids
  /-- No way up and no walk is cut short: if it may take more steps, it ends in the same way. -/
  unbounded : ∀ steps, d.arena.nodes.size ≤ steps →
    (∀ id < d.arena.nodes.size, d.arena.climb steps id = d.arena.isAttached id) ∧
    d.arena.walk steps (d.arena.children rootId) = d.elements
  /-- Every change can be made: it succeeds or fails, but it has a result. -/
  changes : ∀ change : Change, ∃ answer d', change.arenaAction.run.run d = some (answer, d')

end ArenaDocument

namespace ArenaDocument

variable {d : ArenaDocument} {t : Document} {id : NodeId}

namespace Represents

theorem elements_eq (h : d.Represents t) : d.elements = some (t.elements.map Element.id) :=
  h.arena.descendants

theorem walk_eq_elements (h : d.Represents t) {steps : Nat} (hsteps : d.arena.nodes.size ≤ steps) :
    d.arena.walk steps (d.arena.children rootId) = d.elements := by
  rw [h.elements_eq]
  exact h.arena.walk (Nat.lt_of_lt_of_le h.arena.length_elements_lt hsteps)

/-- The elements below the root are the attached ones other than the root. -/
theorem mem_elements_iff (h : d.Represents t) : id ∈ t.elements.map Element.id ↔
    id ≠ rootId ∧ d.arena.isAttached id = some true ∧ (d.arena.tag? id).isSome := by
  rw [← h.arena.find?_isSome_iff]
  constructor
  · intro hid
    have hbelow : id ∈ t.tree.content.nodeIds := (Forest.map_id_elements_sublist _).subset hid
    obtain ⟨e, he, rfl⟩ := List.mem_map.mp hid
    refine ⟨fun hroot => (List.nodup_cons.mp h.arena.tree.nodup).1 (hroot ▸ hbelow), ?_⟩
    rw [h.arena.tree.find?_of_mem (List.mem_cons_of_mem _ he)]
    rfl
  · rintro ⟨hne, hfound⟩
    obtain ⟨e, hfind⟩ := Option.isSome_iff_exists.mp hfound
    have heid := Tree.id_of_find? hfind
    rcases List.mem_cons.mp (Tree.find?_mem hfind) with rfl | he
    · exact absurd heid.symm hne
    · exact List.mem_map.mpr ⟨e, he, heid⟩

theorem inDocumentOrder (h : d.Represents t) :
    d.InDocumentOrder (t.elements.map Element.id) := by
  refine ⟨(t.tree.content.positioned 0).map fun entry => (entry.1, entry.2.id), ?_, ?_, ?_⟩
  · rw [List.map_map, Document.elements, Tree.elements, ← Forest.map_snd_positioned _ 0,
      List.map_map]
    rfl
  · exact List.pairwise_map.mpr (Forest.pairwise_positioned _ 0)
  · intro path id
    have hpath : d.arena.descend? path rootId = (t.tree.root.descend? path).map Element.id :=
      h.arena.stores.descend? (Arena.Represents.mem_whole List.mem_cons_self) path
    rw [hpath, List.mem_map]
    constructor
    · rintro ⟨⟨path, e⟩, hmem, hentry⟩
      obtain ⟨rfl, rfl⟩ := Prod.mk.inj hentry
      obtain ⟨hne, hfound⟩ := Tree.mem_positioned_iff.mp hmem
      exact ⟨hne, by rw [hfound, Option.map_some]⟩
    · rintro ⟨hne, hfound⟩
      obtain ⟨e, he, rfl⟩ := Option.map_eq_some_iff.mp hfound
      exact ⟨(path, e), Tree.mem_positioned_iff.mpr ⟨hne, he⟩, rfl⟩

end Represents

/-- **The links in the arena of every document agree**, however the document came about and whatever
failed on the way, and the walk gives the elements that are attached, in document order. -/
theorem Reachable.arranged (h : d.Reachable) : d.Arranged := by
  obtain ⟨t, -, hrepresents⟩ := h.exists_represents
  have hwell := hrepresents.arena.wellFormed
  exact {
    root_parent := hwell.root_parent
    mem_children_iff := fun _ _ => hwell.mem_children_iff
    nodup_children := hwell.nodup_children
    acyclic := fun id hup => Nat.lt_irrefl id (hwell.lt_of_transGen hup)
    parent_tag := fun p hne => by
      obtain ⟨c, hc⟩ := List.exists_mem_of_ne_nil _ hne
      obtain ⟨tag, htag⟩ := hwell.parent_tag (hwell.mem_children_iff.mp hc)
      rw [htag]
      rfl
    distinct := fun _ _ => hwell.distinct
    isAttached := hwell.exists_isAttached
    elements := ⟨_, hrepresents.elements_eq,
      (Forest.map_id_elements_sublist _).nodup hrepresents.arena.tree.nodup_content,
      fun _ => hrepresents.mem_elements_iff, hrepresents.inDocumentOrder⟩
    unbounded := fun _ hsteps =>
      ⟨fun _ hid => hwell.climb_eq_isAttached hid (Nat.lt_of_lt_of_le hid hsteps),
        hrepresents.walk_eq_elements hsteps⟩
    changes := h.exists_run }

/-- An item is put before another, a change fails, and the group that holds both leaves the tree:
its items stay linked to it in the table, and none of them is attached. -/
theorem Reachable.arranged_inserted :
    ∃ d, (ArenaDocument.empty ⟨0⟩).after [.addItemGroup, .addItem ⟨⟨0⟩, 1⟩ "Compile" "a.cs",
        .insertElement ⟨⟨0⟩, 2⟩ "None" false, .remove ⟨⟨0⟩, 9⟩, .remove ⟨⟨0⟩, 1⟩,
        .addPropertyGroup] = some d ∧
      d.elements = some [4] ∧ d.arena.children 1 = [3, 2] ∧ d.arena.parent? 2 = some 1 ∧
      d.arena.isAttached 2 = some false ∧ d.Arranged :=
  ⟨_, (Option.some_get (by decide +kernel)).symm, by decide +kernel, by decide +kernel,
    by decide +kernel, by decide +kernel,
    Reachable.arranged (.after (.empty ⟨0⟩) (Option.some_get _).symm)⟩

end ArenaDocument

end BuildProject
