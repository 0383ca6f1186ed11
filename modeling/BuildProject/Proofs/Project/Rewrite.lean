import BuildProject.Proofs.Document.Rewrite
import BuildProject.Proofs.Project.Rebase

/-!
# Rebasing as one rewriting

`rebaseSources` collects the sources of a project and edits one after the other. What comes out is
one rewriting of the document (`rebaseSources_eq_ok`): the elements that it chooses can be told from
where they stand and what they say, and each is rewritten once.

The edits find their elements by identity. So the edits are a rewriting by identity first
(`rebaseAll_eq_rewrite`), and the identities of the sources are those of the elements that are
chosen (`chosen_eq_choose`).
-/

namespace BuildProject

open Markup

/-! ## What becomes of sources -/

namespace Conventions

/-- The text of the link that an item gets: the name of its file, if it names one file and has no
link, neither as a child nor as an attribute. -/
def newLink? (c : Conventions) (item : Element) (includeText : String) : Option String :=
  if (item.metadata? c.linkMetadata).isSome then none
  else
    match Project.includeParts includeText with
    | [part] => includeFileName? part
    | _ => none

/-- What becomes of an item: if it is a source and its include does not start with a reference, the
parts of its include are rebased. -/
def rewrite? (c : Conventions) (source destination : String) (item : Element) : Option Rewrite :=
  if item.name = c.sourceItem then
    item.include?.bind fun includeText =>
      if Project.startsWithReference includeText then none
      else some
        ⟨Project.rebaseParts (Project.includeParts includeText) source destination,
          c.newLink? item includeText⟩
  else none

/-- The rewriting of the sources in item groups. -/
def rewriting (c : Conventions) (source destination : String) (fresh : NodeId → NodeId) :
    Rewriting :=
  ⟨fun grouped e => if grouped then c.rewrite? source destination e else none, c.linkMetadata,
    fresh⟩

end Conventions

namespace Project

variable {source destination : String}

/-! ## One item -/

namespace SourceItem

/-- What becomes of the element of a source item. -/
def rewrite? (found : SourceItem) (source destination : String) : Option Rewrite :=
  if startsWithReference found.includeText then none
  else some ⟨rebaseParts (includeParts found.includeText) source destination, found.newLink?⟩

variable {found : SourceItem} {link : String} {t : Tree}

theorem rebase_of_none (h : found.rewrite? source destination = none) :
    found.rebase link source destination t = t := by
  have hskip : startsWithReference found.includeText = true := by
    by_contra hnot
    simp [rewrite?, hnot] at h
  simp [rebase, newLink?, setInclude, hskip]

/-- Rebasing an item below the root changes its tag and adds to its content. -/
theorem rebase_of_some {r : Rewrite} (h : found.rewrite? source destination = some r)
    (hroot : found.item.node ≠ rootId) (link : String) (t : Tree) :
    ∃ next, t.next ≤ next ∧ found.rebase link source destination t = { t with
      content := t.content.modify found.item.node (Rewrite.tag (some r))
        (· ++ Rewrite.added (some r) link t.next)
      next } := by
  have hskip : ¬ startsWithReference found.includeText = true := by
    intro hskip
    simp [rewrite?, hskip] at h
  rw [rewrite?, if_neg hskip, Option.some.injEq] at h
  subst h
  have hset : found.setInclude source destination t = { t with
      content := t.content.modify found.item.node
        (·.set includeAttribute (rebaseParts (includeParts found.includeText) source destination))
        (fun content => content) } := by
    rw [setInclude, if_neg hskip, Tree.setAttribute, Tree.modify, if_neg hroot, rebasedInclude,
      if_neg hskip]
  rw [rebase]
  cases hlink : found.newLink? with
  | none =>
    refine ⟨t.next, Nat.le_refl _, ?_⟩
    simp only [hset, Rewrite.added, Option.bind_some, Forest.append_nil]
    rfl
  | some name =>
    refine ⟨t.next + 2, Nat.le_add_right _ _, ?_⟩
    simp only [hset, Tree.appendText, Tree.modify, if_neg hroot, Forest.modify_modify]
    rfl

end SourceItem

/-! ## All items -/

/-- What becomes of the element with the given identity, if it is that of an item. -/
def chosen (items : List SourceItem) (source destination : String) (id : NodeId) :
    Option Rewrite :=
  (items.find? (·.item.node == id)).bind (·.rewrite? source destination)

variable {items : List SourceItem} {link : String}

theorem chosen_of_not_mem {id : NodeId} (h : ∀ found ∈ items, found.item.node ≠ id) :
    chosen items source destination id = none := by
  have hnone : items.find? (·.item.node == id) = none :=
    List.find?_eq_none.mpr fun found hfound heq => h found hfound (by simpa using heq)
  rw [chosen, hnone, Option.bind_none]

/-- One more item is chosen too. -/
theorem chosen_cons (found : SourceItem) (items : List SourceItem) :
    chosen (found :: items) source destination = Function.update
      (chosen items source destination) found.item.node (found.rewrite? source destination) := by
  funext id
  by_cases hid : id = found.item.node
  · subst hid
    rw [Function.update_self, chosen, List.find?_cons_of_pos (by simp), Option.bind_some]
  · rw [Function.update_of_ne hid, chosen, List.find?_cons_of_neg (by simpa using Ne.symm hid)]
    rfl

/-- **Rebasing items one after the other is one rewriting by identity.** -/
theorem rebaseAll_eq_rewrite {t : Tree} (h : t.WellFormed)
    (hnodup : (items.map (·.item.node)).Nodup)
    (hitems : ∀ found ∈ items, found.item.node ≠ rootId ∧ found.item.node < t.next)
    (link source destination : String) :
    ∃ fresh next, (∀ id, t.next ≤ fresh id) ∧ rebaseAll items link source destination t = { t with
      content := t.content.rewrite (.byId (chosen items source destination) link fresh) false
      next } := by
  induction items generalizing t with
  | nil =>
    refine ⟨fun _ => t.next, t.next, fun _ => Nat.le_refl _, ?_⟩
    rw [Forest.rewrite_eq_self fun _ _ => rfl]
    rfl
  | cons found items ih =>
    obtain ⟨⟨hroot, hlt⟩, hitems⟩ := List.forall_mem_cons.mp hitems
    obtain ⟨hnot, hnodup⟩ := List.nodup_cons.mp hnodup
    have hothers : ∀ other ∈ items, other.item.node ≠ found.item.node := fun other hother heq =>
      hnot (List.mem_map.mpr ⟨other, hother, heq⟩)
    have hself : chosen items source destination found.item.node = none :=
      chosen_of_not_mem hothers
    rw [rebaseAll, List.foldl_cons, chosen_cons]
    cases hrewrite : found.rewrite? source destination with
    | none =>
      rw [SourceItem.rebase_of_none hrewrite, ← hself, Function.update_eq_self]
      exact ih h hnodup hitems
    | some r =>
      obtain ⟨next, hnext, hrebase⟩ := SourceItem.rebase_of_some hrewrite hroot link t
      have hwf : (found.rebase link source destination t).WellFormed :=
        SourceItem.wellFormed_rebase h
      have hnew : chosen items source destination t.next = none :=
        chosen_of_not_mem fun other hother => Nat.ne_of_lt (hitems other hother).2
      rw [hrebase] at hwf ⊢
      obtain ⟨fresh, next', hfresh, hrest⟩ := ih hwf hnodup fun other hother =>
        ⟨(hitems other hother).1, Nat.lt_of_lt_of_le (hitems other hother).2 hnext⟩
      refine ⟨Function.update fresh found.item.node t.next, next', fun id => ?_, ?_⟩
      · by_cases hid : id = found.item.node
        · exact Nat.le_of_eq (by rw [hid, Function.update_self])
        · rw [Function.update_of_ne hid]
          exact Nat.le_trans hnext (hfresh id)
      · rw [← Forest.rewrite_modify h.nodup_content hself hnew]
        exact hrest

/-! ## Sources by their places -/

variable {p : Project}

theorem mem_sourceItems_iff {found : SourceItem} : found ∈ p.sourceItems ↔
    ∃ item ∈ p.document.items, item.name = p.conventions.sourceItem ∧
      p.sourceItem? item = some found := by
  have hitems : p.sourceItems =
      (p.document.findItems (·.name == p.conventions.sourceItem)).filterMap p.sourceItem? := rfl
  rw [hitems, List.mem_filterMap]
  simp only [Document.findItems, List.mem_filter, beq_iff_eq, and_assoc]

/-- What becomes of an element is what becomes of the source item that is found for it. -/
theorem rewrite?_eq (p : Project) (e : Element) :
    p.conventions.rewrite? source destination e = if e.name = p.conventions.sourceItem then
      (p.sourceItem? e).bind (·.rewrite? source destination) else none := by
  have hlink {includeText : String} (hskip : ¬ startsWithReference includeText = true) :
      p.conventions.newLink? e includeText = SourceItem.newLink? ⟨p.document.ref e, includeText,
        (e.metadata? p.conventions.linkMetadata).isSome⟩ := by
    unfold Conventions.newLink? SourceItem.newLink?
    rw [if_neg hskip]
    cases (e.metadata? p.conventions.linkMetadata).isSome with
    | true => rfl
    | false => rcases includeParts includeText with _ | ⟨part, _ | ⟨other, parts⟩⟩ <;> rfl
  unfold Conventions.rewrite? sourceItem?
  cases e.include? with
  | none => rfl
  | some includeText =>
    simp only [Option.bind_some, Option.map_some, SourceItem.rewrite?]
    by_cases hskip : startsWithReference includeText = true
    · simp [hskip]
    · rw [if_neg hskip, if_neg hskip, hlink hskip]

/-- **The edits choose the elements that the rewriting chooses.** -/
theorem chosen_eq_choose (hp : p.document.tree.WellFormed) {grouped : Bool} {e : Element}
    (h : (grouped, e) ∈ p.document.tree.content.placed false) :
    chosen p.sourceItems source destination e.id
      = if grouped then p.conventions.rewrite? source destination e else none := by
  have hentries : ((p.document.tree.content.placed false).map (·.2.id)).Nodup := by
    have hids := (Forest.map_id_elements_sublist _).nodup hp.nodup_content
    rwa [← Forest.map_snd_placed _ false, List.map_map] at hids
  cases hfind : p.sourceItems.find? (·.item.node == e.id) with
  | some found =>
    obtain ⟨item, hitem, hname, hfound⟩ :=
      mem_sourceItems_iff.mp (List.mem_of_find?_eq_some hfind)
    have hplaced : (true, item) ∈ p.document.tree.content.placed false :=
      Forest.mem_placed_true_iff.mpr (.inr hitem)
    have hid : item.id = e.id := by
      have hnode : found.item.node = e.id := by simpa using List.find?_some hfind
      rw [← hnode, node_of_sourceItem? hfound]
      rfl
    -- an element stands in one place
    obtain ⟨rfl, rfl⟩ := Prod.mk.inj (List.inj_on_of_nodup_map hentries hplaced h hid)
    rw [chosen, hfind, if_pos rfl, rewrite?_eq, if_pos hname, hfound]
  | none =>
    rw [chosen, hfind, Option.bind_none]
    cases grouped with
    | false => rfl
    | true =>
      rw [if_pos rfl, rewrite?_eq]
      split
      · next hname =>
        cases hfound : p.sourceItem? e with
        | none => rfl
        | some found =>
          have hitem : e ∈ p.document.items :=
            (Forest.mem_placed_true_iff.mp h).resolve_left fun hnot => absurd hnot.1 (by simp)
          have hmem : found ∈ p.sourceItems := mem_sourceItems_iff.mpr ⟨e, hitem, hname, hfound⟩
          have hnode := List.find?_eq_none.mp hfind found hmem
          rw [node_of_sourceItem? hfound] at hnode
          exact absurd (beq_self_eq_true e.id) hnode
      · rfl

/-- **Rebasing the sources of a project is one rewriting of its document.** -/
theorem rebaseSources_eq_ok {copy : Project} (hp : p.document.tree.WellFormed)
    (hdirectory : p.directory? = some destination)
    (h : (rebaseSources source).run.run p = (.ok (), copy)) :
    ∃ fresh revision next, (∀ id, p.document.tree.next ≤ fresh id) ∧
      copy = p.setTree { p.document.tree with
        content := p.document.tree.content.rewrite
          (p.conventions.rewriting source destination fresh) false
        next } revision := by
  obtain ⟨revision, hrun⟩ := run_rebaseSources hp hdirectory source
  obtain ⟨-, hcopy⟩ := Prod.mk.inj (h.symm.trans hrun)
  have hitems : ∀ found ∈ p.sourceItems,
      found.item.node ≠ rootId ∧ found.item.node < p.document.tree.next := by
    intro found hmem
    obtain ⟨item, hitem, -, hfound⟩ := mem_sourceItems_iff.mp hmem
    have hid : item.id ∈ p.document.tree.content.nodeIds :=
      Forest.id_mem_nodeIds (Document.mem_elements_of_mem_items hitem)
    rw [node_of_sourceItem? hfound]
    refine ⟨?_, hp.lt_next _ (List.mem_cons_of_mem _ hid)⟩
    rintro (heq : item.id = rootId)
    exact hp.root_not_mem (heq ▸ hid)
  obtain ⟨fresh, next, hfresh, hrewrite⟩ := rebaseAll_eq_rewrite hp (nodup_sourceItems hp) hitems
    p.conventions.linkMetadata source destination
  refine ⟨fresh, revision, next, hfresh, ?_⟩
  have hsame : p.document.tree.content.rewrite (.byId (chosen p.sourceItems source destination)
      p.conventions.linkMetadata fresh) false
        = p.document.tree.content.rewrite (p.conventions.rewriting source destination fresh)
          false :=
    Forest.rewrite_congr fun entry hentry => ⟨chosen_eq_choose hp hentry, rfl⟩
  rw [hcopy, hrewrite, hsame]

/-- The project stays where it is. -/
theorem directory?_of_rebaseSources {copy : Project} (hp : p.document.tree.WellFormed)
    (hdirectory : p.directory? = some destination)
    (h : (rebaseSources source).run.run p = (.ok (), copy)) :
    copy.directory? = some destination := by
  obtain ⟨revision, hrun⟩ := run_rebaseSources hp hdirectory source
  rw [(Prod.mk.inj (h.symm.trans hrun)).2]
  exact hdirectory

/-- An item is found again with its tag rewritten. -/
theorem tag_of_rebaseSources {copy : Project} (hp : p.document.tree.WellFormed)
    (hdirectory : p.directory? = some destination)
    (h : (rebaseSources source).run.run p = (.ok (), copy)) {item : Element}
    (hitem : item ∈ p.document.items) :
    ∃ item', copy.document.tree.find? item.id = some item' ∧
      item'.tag = Rewrite.tag (p.conventions.rewrite? source destination item) item.tag := by
  have hwf : copy.document.tree.WellFormed := by
    obtain ⟨revision, hrun⟩ := run_rebaseSources hp hdirectory source
    rw [(Prod.mk.inj (h.symm.trans hrun)).2]
    exact wellFormed_rebaseAll hp
  obtain ⟨fresh, revision, next, -, rfl⟩ := rebaseSources_eq_ok hp hdirectory h
  have hplaced : (true, item) ∈ p.document.tree.content.placed false :=
    Forest.mem_placed_true_iff.mpr (.inr hitem)
  have hrewritten := Forest.mem_elements_rewrite hplaced
    (p.conventions.rewriting source destination fresh)
  have hfind := hwf.find?_of_mem (List.mem_cons_of_mem _ hrewritten)
  exact ⟨_, hfind, rfl⟩

/-- A source ends with its parts rebased. -/
theorem include?_of_rebaseSources {copy : Project} (hp : p.document.tree.WellFormed)
    (hdirectory : p.directory? = some destination)
    (h : (rebaseSources source).run.run p = (.ok (), copy)) {item : Element}
    (hitem : item ∈ p.document.findItems (·.name == p.conventions.sourceItem))
    {includeText : String} (hinclude : item.include? = some includeText)
    (hskip : startsWithReference includeText = false) :
    ∃ item', copy.document.tree.find? item.id = some item' ∧
      item'.include? = some (rebaseParts (includeParts includeText) source destination) := by
  obtain ⟨hmem, hname⟩ := List.mem_filter.mp hitem
  obtain ⟨item', hitem', htag⟩ := tag_of_rebaseSources hp hdirectory h hmem
  refine ⟨item', hitem', ?_⟩
  have hrewrite : p.conventions.rewrite? source destination item
      = some ⟨rebaseParts (includeParts includeText) source destination,
        p.conventions.newLink? item includeText⟩ := by
    simp [Conventions.rewrite?, beq_iff_eq.mp hname, hinclude, hskip]
  rw [Element.include?, Element.attribute?, htag, hrewrite, Rewrite.tag, Tag.attribute?_set,
    if_pos rfl]

/-- A source whose include starts with a reference ends as it was. -/
theorem include?_of_rebaseSources_of_reference {copy : Project} (hp : p.document.tree.WellFormed)
    (hdirectory : p.directory? = some destination)
    (h : (rebaseSources source).run.run p = (.ok (), copy)) {item : Element}
    (hitem : item ∈ p.document.items) {includeText : String}
    (hinclude : item.include? = some includeText)
    (hskip : startsWithReference includeText = true) :
    ∃ item', copy.document.tree.find? item.id = some item' ∧ item'.include? = some includeText := by
  obtain ⟨item', hitem', htag⟩ := tag_of_rebaseSources hp hdirectory h hitem
  have hrewrite : p.conventions.rewrite? source destination item = none := by
    simp [Conventions.rewrite?, hinclude, hskip]
  refine ⟨item', hitem', ?_⟩
  rw [Element.include?, Element.attribute?, htag, hrewrite]
  exact hinclude

end Project

end BuildProject
