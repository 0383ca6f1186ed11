import BuildProject.Project
import BuildProject.Proofs.Document.Edit
import BuildProject.Proofs.Document.Items

/-!
# Rebasing sources

`rebaseSources` goes through the items found at the start and edits one after the other. What it
does to the tree is `SourceItem.rebase`, item by item; no item gets in the way of another, as they
are different elements and no edit removes or renames one. So rebasing never fails
(`run_rebaseSources`).
-/

namespace BuildProject

open Markup

namespace Project

/-! ## What happens to one item -/

namespace SourceItem

/-- The include of the item after it has been rebased. -/
def rebasedInclude (found : SourceItem) (source destination : String) : String :=
  if startsWithReference found.includeText then found.includeText
  else rebaseParts (includeParts found.includeText) source destination

/-- The name that the item gets as its link, if it gets one. -/
def newLink? (found : SourceItem) : Option String :=
  if startsWithReference found.includeText then none
  else
    match found.linked, includeParts found.includeText with
    | false, [part] => includeFileName? part
    | _, _ => none

/-- The tree after the include of the item has been set. -/
def setInclude (found : SourceItem) (source destination : String) (t : Tree) : Tree :=
  if startsWithReference found.includeText then t
  else
    t.setAttribute found.item.node includeAttribute (found.rebasedInclude source destination)

/-- The tree after the item has been rebased. -/
def rebase (found : SourceItem) (link source destination : String) (t : Tree) : Tree :=
  match found.newLink? with
  | none => found.setInclude source destination t
  | some name => (found.setInclude source destination t).appendText found.item.node link name

/-- The item as it was found is still in the tree: it has its include, and no child with the name
of a link if it has no link. -/
def FoundIn (found : SourceItem) (link : String) (t : Tree) : Prop :=
  ∃ tag names, t.profile? found.item.node = some (tag, names) ∧
    tag.attribute? includeAttribute = some found.includeText ∧
    (found.linked = false → link ∉ names)

variable {found : SourceItem} {link source destination : String} {t : Tree}

theorem wellFormed_setInclude (h : t.WellFormed) :
    (found.setInclude source destination t).WellFormed := by
  rw [setInclude]
  split
  · exact h
  · exact h.setAttribute _ _ _

theorem wellFormed_rebase (h : t.WellFormed) :
    (found.rebase link source destination t).WellFormed := by
  rw [rebase]
  split
  · exact wellFormed_setInclude h
  · exact (wellFormed_setInclude h).appendText _ _ _

@[simp] theorem next_setInclude : (found.setInclude source destination t).next = t.next := by
  rw [setInclude]
  split
  · rfl
  · exact Tree.modify_next _ _ _ _

/-- Rebasing one item is not seen at another. -/
theorem profile?_rebase_of_ne (h : t.WellFormed) {id : NodeId} (hne : id ≠ found.item.node)
    (hid : id < t.next) : (found.rebase link source destination t).profile? id = t.profile? id := by
  have hset : (found.setInclude source destination t).profile? id = t.profile? id := by
    rw [setInclude]
    split
    · rfl
    · rw [h.profile?_setAttribute]
      simp [hne]
  rw [rebase]
  split
  · exact hset
  · have hid' : id < (found.setInclude source destination t).next := by rwa [next_setInclude]
    rw [(wellFormed_setInclude h).profile?_appendText _ _ _ hid', hset]
    simp [hne]

/-- Setting the include of an item changes its tag only. -/
theorem profile?_setInclude (h : t.WellFormed) {tag : Tag} {names : List String}
    (hprofile : t.profile? found.item.node = some (tag, names)) (source destination : String) :
    ∃ tag', (found.setInclude source destination t).profile? found.item.node
      = some (tag', names) := by
  rw [setInclude]
  split
  · exact ⟨tag, hprofile⟩
  · rw [h.profile?_setAttribute, hprofile]
    exact ⟨_, rfl⟩

end SourceItem

/-! ## Running -/

/-- The name of a file is not empty. -/
theorem nonempty_of_includeFileName? {target name : String}
    (h : includeFileName? target = some name) : name.isEmpty = false := by
  rw [includeFileName?] at h
  split at h
  · contradiction
  · next hnot =>
    rw [← Option.some.inj h, Bool.eq_false_iff, Ne, String.isEmpty_iff, ← String.ofList_nil]
    exact fun heq => hnot (.inl (String.ofList_injective heq))

/-- The project with another tree. -/
def setTree (p : Project) (tree : Tree) (revision : Nat) : Project :=
  { p with document := p.document.setTree tree revision }

theorem run_edit {action : Edit α} {p : Project} {answer : α} {d : Document}
    (h : action.run.run p.document = (.ok answer, d)) :
    (edit action).run.run p = (.ok answer, { p with document := d }) := by
  rw [edit, run_get_bind, h]
  rfl

/-- **Rebasing one item changes the tree** as `SourceItem.rebase` says, and does not fail. -/
theorem run_rebaseItem {p : Project} (hp : p.document.tree.WellFormed) {found : SourceItem}
    (hdocument : found.item.document = p.document.id)
    (hfound : found.FoundIn p.conventions.linkMetadata p.document.tree)
    (source destination : String) :
    ∃ revision,
      (rebaseItem source destination found.item found.includeText found.linked).run.run p
        = (.ok (), p.setTree
            (found.rebase p.conventions.linkMetadata source destination p.document.tree)
            revision) := by
  obtain ⟨tag, names, hprofile, hinclude, hlink⟩ := hfound
  obtain ⟨e, he, heq⟩ := Option.map_eq_some_iff.mp hprofile
  have hid : e.id = found.item.node := Tree.id_of_find? he
  rw [rebaseItem, run_get_bind]
  dsimp only
  by_cases hskip : startsWithReference found.includeText
  · rw [if_pos hskip]
    refine ⟨p.document.revision, ?_⟩
    simp only [SourceItem.rebase, SourceItem.newLink?, SourceItem.setInclude, if_pos hskip]
    rfl
  · rw [if_neg hskip]
    have hset : (edit (Edit.setItemInclude found.item
        (rebaseParts (includeParts found.includeText) source destination))).run.run p
        = (.ok ⟨⟩, p.setTree (found.setInclude source destination p.document.tree)
            (p.document.revision + 1)) := by
      rw [Edit.setItemInclude,
        run_edit (Edit.run_setAttribute (Document.resolve_eq_ok hdocument he) _ _)]
      simp only [SourceItem.setInclude, SourceItem.rebasedInclude, if_neg hskip, hid]
      rfl
    rw [run_bind_ok hset]
    split
    · next part hlinked hparts =>
      have hnew : found.newLink? = includeFileName? part := by
        rw [SourceItem.newLink?, if_neg hskip, hlinked, hparts]
      rw [SourceItem.rebase, hnew]
      cases hname : includeFileName? part with
      | none => exact ⟨_, rfl⟩
      | some name =>
        let d : Document := p.document.setTree
          (found.setInclude source destination p.document.tree) (p.document.revision + 1)
        have hwf : d.tree.WellFormed := SourceItem.wellFormed_setInclude hp
        -- the new include adds no child, so there is still no link
        obtain ⟨tag', hprofile'⟩ := SourceItem.profile?_setInclude hp hprofile source destination
        obtain ⟨e', he', heq'⟩ := Option.map_eq_some_iff.mp hprofile'
        have hchild : e'.child? p.conventions.linkMetadata = none := by
          refine Element.child?_eq_none ?_
          rw [(Prod.mk.inj heq').2]
          exact hlink hlinked
        have hd : found.item.document = d.id := hdocument
        rw [run_bind_ok (run_edit (Edit.run_setMetadata hwf hd he' hchild
          (nonempty_of_includeFileName? hname)))]
        exact ⟨_, rfl⟩
    · next hnot =>
      have hnew : found.newLink? = none := by
        rw [SourceItem.newLink?, if_neg hskip]
        split
        · next part hlinked hparts => exact absurd hparts (hnot part hlinked)
        · rfl
      rw [SourceItem.rebase, hnew]
      exact ⟨_, rfl⟩

/-! ## All items -/

/-- The tree after all items have been rebased. -/
def rebaseAll (items : List SourceItem) (link source destination : String) (t : Tree) : Tree :=
  items.foldl (fun t found => found.rebase link source destination t) t

variable {items : List SourceItem} {link source destination : String}

/-- Items that are still to be rebased are as they were found after another has been rebased. -/
theorem SourceItem.FoundIn.rebase_of_ne {t : Tree} (h : t.WellFormed) {found other : SourceItem}
    (hne : other.item.node ≠ found.item.node) (hother : other.FoundIn link t) :
    other.FoundIn link (found.rebase link source destination t) := by
  obtain ⟨tag, names, hprofile, hrest⟩ := hother
  refine ⟨tag, names, ?_, hrest⟩
  rw [profile?_rebase_of_ne h hne (h.lt_next_of_profile? hprofile), hprofile]

theorem wellFormed_rebaseAll {t : Tree} (h : t.WellFormed) :
    (rebaseAll items link source destination t).WellFormed := by
  induction items generalizing t with
  | nil => exact h
  | cons found items ih => exact ih (SourceItem.wellFormed_rebase h)

/-- Rebasing items that are all there changes the tree, and does not fail. -/
theorem run_rebaseEach {p : Project} (hp : p.document.tree.WellFormed)
    (hnodup : (items.map (·.item.node)).Nodup)
    (hfound : ∀ found ∈ items, found.item.document = p.document.id ∧
      found.FoundIn p.conventions.linkMetadata p.document.tree) :
    ∃ revision,
      (items.forM fun found =>
          rebaseItem source destination found.item found.includeText found.linked).run.run p
        = (.ok (), p.setTree
            (rebaseAll items p.conventions.linkMetadata source destination p.document.tree)
            revision) := by
  induction items generalizing p with
  | nil => exact ⟨p.document.revision, rfl⟩
  | cons first items ih =>
    obtain ⟨⟨hdocument, hfirst⟩, hfound⟩ := List.forall_mem_cons.mp hfound
    obtain ⟨hnot, hnodup⟩ := List.nodup_cons.mp hnodup
    obtain ⟨revision, hrun⟩ := run_rebaseItem hp hdocument hfirst source destination
    have hwf : (first.rebase p.conventions.linkMetadata source destination
        p.document.tree).WellFormed := SourceItem.wellFormed_rebase hp
    have hothers : ∀ other ∈ items, other.item.document = p.document.id ∧
        other.FoundIn p.conventions.linkMetadata
          (first.rebase p.conventions.linkMetadata source destination p.document.tree) := by
      intro other hother
      refine ⟨(hfound other hother).1, (hfound other hother).2.rebase_of_ne hp fun heq => ?_⟩
      exact hnot (List.mem_map.mpr ⟨other, hother, heq⟩)
    obtain ⟨revision', hrest⟩ := ih (p := p.setTree _ revision) hwf hnodup hothers
    refine ⟨revision', ?_⟩
    rw [List.forM_eq_forM, List.forM_cons, run_bind_ok hrun]
    exact hrest

/-! ## The items of a project -/

/-- The item of a project as a source item. -/
def sourceItem? (p : Project) (item : Element) : Option SourceItem :=
  item.include?.map fun includeText =>
    ⟨p.document.ref item, includeText, (item.metadata? p.conventions.linkMetadata).isSome⟩

theorem node_of_sourceItem? {p : Project} {item : Element} {found : SourceItem}
    (h : p.sourceItem? item = some found) : found.item = p.document.ref item := by
  obtain ⟨includeText, -, rfl⟩ := Option.map_eq_some_iff.mp h
  rfl

/-- No element of a project is found as two source items. -/
theorem nodup_sourceItems {p : Project} (hp : p.document.tree.WellFormed) :
    (p.sourceItems.map (·.item.node)).Nodup := by
  have hitems : ((p.document.findItems (·.name == p.conventions.sourceItem)).map
      Element.id).Nodup :=
    (List.filter_sublist.map Element.id).nodup (Document.nodup_items hp)
  have hpairs := List.pairwise_map.mp hitems
  refine List.pairwise_map.mpr (List.pairwise_filterMap.mpr (hpairs.imp fun hne => ?_))
  intro found hfound found' hfound' heq
  rw [node_of_sourceItem? hfound, node_of_sourceItem? hfound'] at heq
  exact hne heq

/-- The source items are in the tree as they are found. -/
theorem foundIn_of_mem_sourceItems {p : Project} (hp : p.document.tree.WellFormed)
    {found : SourceItem} (h : found ∈ p.sourceItems) :
    found.item.document = p.document.id ∧
      found.FoundIn p.conventions.linkMetadata p.document.tree := by
  obtain ⟨item, hitem, hfound⟩ := List.mem_filterMap.mp h
  obtain ⟨includeText, hinclude, rfl⟩ := Option.map_eq_some_iff.mp hfound
  have hmem := Document.mem_elements_of_mem_items (List.mem_filter.mp hitem).1
  have hfind := hp.find?_of_mem (List.mem_cons_of_mem _ hmem)
  refine ⟨rfl, item.tag, item.children.map Element.name, ?_, hinclude, fun hlinked hlink => ?_⟩
  · rw [Tree.profile?]
    exact Option.map_eq_some_iff.mpr ⟨item, hfind, rfl⟩
  · obtain ⟨child, hchild, hname⟩ := List.mem_map.mp hlink
    have hsome : (item.child? p.conventions.linkMetadata).isSome :=
      List.find?_isSome.mpr ⟨child, hchild, by simpa using hname⟩
    obtain ⟨first, hfirst⟩ := Option.isSome_iff_exists.mp hsome
    simp [Element.metadata?, hfirst] at hlinked

/-- **Rebasing the sources of a project that belongs to a file never fails.** -/
theorem run_rebaseSources {p : Project} (hp : p.document.tree.WellFormed)
    (hdirectory : p.directory? = some destination) (source : String) :
    ∃ revision,
      (rebaseSources source).run.run p = (.ok (), p.setTree
        (rebaseAll p.sourceItems p.conventions.linkMetadata source destination p.document.tree)
        revision) := by
  rw [rebaseSources, run_get_bind, hdirectory]
  exact run_rebaseEach hp (nodup_sourceItems hp) fun _ => foundIn_of_mem_sourceItems hp

end Project

end BuildProject
