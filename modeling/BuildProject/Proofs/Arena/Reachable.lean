import BuildProject.Proofs.Arena.Edit
import BuildProject.Proofs.Document.Reachable

/-!
# The documents in an arena that can come about

A document in an arena comes about in the ways a document does: it is empty at first, or read from a
text, or a copy; then it is tied to files and changed. Whatever is done, there is a document with a
tree to which the same was done, and the arena represents it (`Reachable.exists_represents`). So no
change is without a result (`Reachable.exists_run`).
-/

namespace BuildProject

/-! ## Changes -/

/-- The edit in an arena that makes a change; it answers the element that the change made or found,
if any. -/
def Change.arenaAction : Change → ArenaEdit (Option ElementRef)
  | .setAttribute r name value => do
    ArenaEdit.setAttribute r name value
    return none
  | .removeAttribute r name => do
    let _ ← ArenaEdit.removeAttribute r name
    return none
  | .setText r text => do
    ArenaEdit.setText r text
    return none
  | .appendElement parent name => some <$> ArenaEdit.appendElement parent name
  | .insertElement anchor name after => some <$> ArenaEdit.insertElement anchor name after
  | .remove r => do
    ArenaEdit.remove r
    return none
  | .createPropertyGroup anchor after =>
    some <$> ArenaEdit.insertElement anchor propertyGroupElement after
  | .createItemGroup anchor after => some <$> ArenaEdit.insertElement anchor itemGroupElement after
  | .addPropertyGroup => some <$> ArenaEdit.addGroup propertyGroupElement
  | .addItemGroup => some <$> ArenaEdit.addGroup itemGroupElement
  | .addImport project => some <$> ArenaEdit.addImport project
  | .setCondition r conditions? => do
    ArenaEdit.setCondition r conditions?
    return none
  | .setProperty group name value => some <$> ArenaEdit.setProperty group name value
  | .addItem group kind includeText => some <$> ArenaEdit.addItem group kind includeText
  | .setItemInclude item includeText => do
    ArenaEdit.setAttribute item includeAttribute includeText
    return none
  | .setMetadata item name value => some <$> ArenaEdit.setMetadata item name value

/-- **Every change in an arena** does what the change of the tree does, and answers the same. -/
theorem Change.simulates (change : Change) :
    ArenaEdit.Simulates change.arenaAction change.action := by
  have answer {α : Type} {action : ArenaEdit α} {edit : Edit α}
      (h : ArenaEdit.Simulates action edit) :
      ArenaEdit.Simulates (action >>= fun _ => pure (none : Option ElementRef))
        (edit >>= fun _ => pure none) :=
    h.bind fun _ => ArenaEdit.simulates_pure none
  cases change with
  | setAttribute r name value => exact answer (ArenaEdit.simulates_setAttribute r name value)
  | removeAttribute r name => exact answer (ArenaEdit.simulates_removeAttribute r name)
  | setText r text => exact answer (ArenaEdit.simulates_setText r text)
  | appendElement parent name => exact (ArenaEdit.simulates_appendElement parent name).map some
  | insertElement anchor name after =>
    exact (ArenaEdit.simulates_insertElement anchor name after).map some
  | remove r => exact answer (ArenaEdit.simulates_remove r)
  | createPropertyGroup anchor after =>
    exact (ArenaEdit.simulates_insertElement anchor _ after).map some
  | createItemGroup anchor after =>
    exact (ArenaEdit.simulates_insertElement anchor _ after).map some
  | addPropertyGroup => exact ArenaEdit.simulates_addPropertyGroup.map some
  | addItemGroup => exact ArenaEdit.simulates_addItemGroup.map some
  | addImport project => exact (ArenaEdit.simulates_addImport project).map some
  | setCondition r conditions? => exact answer (ArenaEdit.simulates_setCondition r conditions?)
  | setProperty group name value =>
    exact (ArenaEdit.simulates_setProperty group name value).map some
  | addItem group kind includeText =>
    exact (ArenaEdit.simulates_addItem group kind includeText).map some
  | setItemInclude item includeText =>
    exact answer (ArenaEdit.simulates_setAttribute item includeAttribute includeText)
  | setMetadata item name value => exact (ArenaEdit.simulates_setMetadata item name value).map some

namespace ArenaDocument

/-- The documents in an arena that come about by reading, copying and changing. -/
inductive Reachable : ArenaDocument → Prop where
  | empty (id : DocumentId) : Reachable (empty id)
  | parsed {id : DocumentId} {text : String} {d : ArenaDocument}
      (h : (parse id text).run = some (.ok d)) : Reachable d
  | copied {d : ArenaDocument} (id : DocumentId) (h : Reachable d) : Reachable (d.copy id)
  | placed {d : ArenaDocument} (path? : Option String) (h : Reachable d) :
    Reachable { d with path? }
  | changed {d d' : ArenaDocument} {answer : Except DocumentError (Option ElementRef)}
      (change : Change) (h : Reachable d)
      (hrun : change.arenaAction.run.run d = some (answer, d')) : Reachable d'

/-- The document after some changes, each made whether or not those before it succeeded. -/
def after (d : ArenaDocument) (changes : List Change) : Option ArenaDocument :=
  changes.foldlM (fun d change => (change.arenaAction.run.run d).map Prod.snd) d

variable {d : ArenaDocument} {t : Document}

/-! ## The same documents -/

/-- Changes one after the other have a result, and make the changes of the tree. -/
theorem Represents.exists_after (h : d.Represents t) (changes : List Change) :
    ∃ d', d.after changes = some d' ∧ d'.Represents (t.after changes) := by
  induction changes generalizing d t with
  | nil => exact ⟨d, rfl, h⟩
  | cons change changes ih =>
    obtain ⟨d₁, hrun, h₁⟩ := change.simulates d t h
    obtain ⟨d', hafter, h'⟩ := ih h₁
    refine ⟨d', ?_, h'⟩
    rw [after, List.foldlM_cons, hrun]
    exact hafter

namespace Reachable

/-- **A document in an arena represents a document with a tree** to which the same has been done. -/
theorem exists_represents (h : d.Reachable) : ∃ t, t.Reachable ∧ d.Represents t := by
  induction h with
  | empty id => exact ⟨_, .empty id, represents_empty id⟩
  | @parsed id text d hparse =>
    have hagrees := agrees_parse id text
    rw [hparse] at hagrees
    cases htree : Document.parse id text with
    | error fault =>
      rw [htree] at hagrees
      exact absurd (Option.some.inj hagrees) (by simp)
    | ok t =>
      rw [htree] at hagrees
      obtain ⟨_, hsame, h⟩ := hagrees
      obtain rfl := Except.ok.inj (Option.some.inj hsame)
      exact ⟨t, .parsed htree, h⟩
  | copied id _ ih =>
    obtain ⟨t, ht, h⟩ := ih
    exact ⟨t.copy id, ht.copied id, h.arena, h.declaration?, h.prolog, rfl, h.path?, rfl⟩
  | placed path? _ ih =>
    obtain ⟨t, ht, h⟩ := ih
    exact ⟨_, ht.placed path?, h.arena, h.declaration?, h.prolog, h.id, rfl, h.revision⟩
  | changed change _ hrun ih =>
    obtain ⟨t, ht, h⟩ := ih
    obtain ⟨d', hsimulated, h'⟩ := change.simulates _ t h
    obtain rfl := (Prod.mk.inj (Option.some.inj (hrun.symm.trans hsimulated))).2
    exact ⟨_, ht.changed change, h'⟩

/-- **Every change has a result.** -/
theorem exists_run (h : d.Reachable) (change : Change) :
    ∃ answer d', change.arenaAction.run.run d = some (answer, d') := by
  obtain ⟨t, -, hrepresents⟩ := h.exists_represents
  obtain ⟨d', hrun, -⟩ := change.simulates d t hrepresents
  exact ⟨_, d', hrun⟩

theorem after {d' : ArenaDocument} (h : d.Reachable) {changes : List Change}
    (hafter : d.after changes = some d') : d'.Reachable := by
  induction changes generalizing d with
  | nil => exact Option.some.inj hafter ▸ h
  | cons change changes ih =>
    rw [ArenaDocument.after, List.foldlM_cons] at hafter
    obtain ⟨d₁, hchange, hothers⟩ := Option.bind_eq_some_iff.mp hafter
    obtain ⟨⟨answer, _⟩, hrun, rfl⟩ := Option.map_eq_some_iff.mp hchange
    exact ih (h.changed change hrun) hothers

end Reachable

end ArenaDocument

end BuildProject
