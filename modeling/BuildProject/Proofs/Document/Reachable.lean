import BuildProject.Proofs.Document.Steps
import BuildProject.Proofs.Document.WellFormed

/-!
# The documents that can come about

A document is empty at first, or read from a text, or a copy; then it is tied to files and changed.
`Document.Reachable` says so. Every change is some single changes of the tree, and what it takes out
can be told beforehand (`Change.takes_action`); what single changes keep is therefore so for all
documents, as for a start that their trees are well-formed (`Reachable.wellFormed`).
-/

namespace BuildProject

open Markup

/-! ## Changes -/

/-- Everything that changes what a document says. -/
inductive Change where
  | setAttribute (r : ElementRef) (name value : String)
  | removeAttribute (r : ElementRef) (name : String)
  | setText (r : ElementRef) (text : String)
  | appendElement (parent : ElementRef) (name : String)
  | insertElement (anchor : ElementRef) (name : String) (after : Bool)
  | remove (r : ElementRef)
  | createPropertyGroup (anchor : ElementRef) (after : Bool)
  | createItemGroup (anchor : ElementRef) (after : Bool)
  | addPropertyGroup
  | addItemGroup
  | addImport (project : String)
  | setCondition (r : ElementRef) (conditions? : Option ConditionSet)
  | setProperty (group : ElementRef) (name value : String)
  | addItem (group : ElementRef) (kind includeText : String)
  | setItemInclude (item : ElementRef) (includeText : String)
  | setMetadata (item : ElementRef) (name value : String)

/-- The edit that makes a change; it answers the element that the change made or found, if any. -/
def Change.action : Change → Edit (Option ElementRef)
  | .setAttribute r name value => do
    Edit.setAttribute r name value
    return none
  | .removeAttribute r name => do
    let _ ← Edit.removeAttribute r name
    return none
  | .setText r text => do
    Edit.setText r text
    return none
  | .appendElement parent name => some <$> Edit.appendElement parent name
  | .insertElement anchor name after => some <$> Edit.insertElement anchor name after
  | .remove r => do
    Edit.remove r
    return none
  | .createPropertyGroup anchor after => some <$> Edit.createPropertyGroup anchor after
  | .createItemGroup anchor after => some <$> Edit.createItemGroup anchor after
  | .addPropertyGroup => some <$> Edit.addPropertyGroup
  | .addItemGroup => some <$> Edit.addItemGroup
  | .addImport project => some <$> Edit.addImport project
  | .setCondition r conditions? => do
    Edit.setCondition r conditions?
    return none
  | .setProperty group name value => some <$> Edit.setProperty group name value
  | .addItem group kind includeText => some <$> Edit.addItem group kind includeText
  | .setItemInclude item includeText => do
    Edit.setItemInclude item includeText
    return none
  | .setMetadata item name value => some <$> Edit.setMetadata item name value

/-- The documents that come about by reading, copying and changing. -/
inductive Document.Reachable : Document → Prop where
  | empty (id : DocumentId) : Reachable (Document.empty id)
  | parsed {id : DocumentId} {text : String} {d : Document} (h : Document.parse id text = .ok d) :
    Reachable d
  | copied {d : Document} (id : DocumentId) (h : Reachable d) : Reachable (d.copy id)
  | placed {d : Document} (path? : Option String) (h : Reachable d) :
    Reachable { d with path? }
  | changed {d : Document} (change : Change) (h : Reachable d) :
    Reachable (change.action.run.run d).2

/-! ## What changes take out -/

/-- Whether a change takes a node out of a document: by removing an element that is the node or
holds it, or by wiping an element that holds it, which gets a text for its only content. -/
def Change.TakesOut (d : Document) (id : NodeId) : Change → Prop
  | .remove r =>
    ∃ e, d.resolve r = .ok e ∧ e.id ≠ rootId ∧ (id = e.id ∨ d.tree.IsAncestor e.id id)
  | .setText r _ => ∃ e, d.resolve r = .ok e ∧ d.tree.IsAncestor e.id id
  | .setProperty group name _ =>
    ∃ e child, d.resolve group = .ok e ∧ e.name = propertyGroupElement ∧
      e.child? name = some child ∧ d.tree.IsAncestor child.id id
  | .setMetadata item name _ =>
    ∃ e child, d.resolve item = .ok e ∧ e.child? name = some child ∧ d.tree.IsAncestor child.id id
  | _ => False

/-- **Every change is some single changes of the tree**, whether it succeeds or fails, and it takes
out what it is said to. -/
theorem Change.takes_action (change : Change) :
    Edit.Takes change.action fun d id => change.TakesOut d id := by
  cases change with
  | setAttribute r name value =>
    exact (Edit.takes_of_intact fun _ => Edit.intact_setAttribute r name value).answer _
  | removeAttribute r name =>
    exact (Edit.takes_of_intact fun _ => Edit.intact_removeAttribute r name).answer _
  | setText r text => exact (Edit.takes_setText r text).answer _
  | appendElement parent name =>
    exact (Edit.takes_of_intact fun _ => Edit.intact_appendElement parent name).map _
  | insertElement anchor name after =>
    exact (Edit.takes_of_intact fun _ => Edit.intact_insertElement anchor name after).map _
  | remove r => exact (Edit.takes_remove r).answer _
  | createPropertyGroup anchor after =>
    exact (Edit.takes_of_intact fun _ => Edit.intact_insertElement anchor _ after).map _
  | createItemGroup anchor after =>
    exact (Edit.takes_of_intact fun _ => Edit.intact_insertElement anchor _ after).map _
  | addPropertyGroup => exact (Edit.takes_of_intact fun _ => Edit.intact_addGroup _).map _
  | addItemGroup => exact (Edit.takes_of_intact fun _ => Edit.intact_addGroup _).map _
  | addImport project =>
    exact (Edit.takes_of_intact fun _ => keeps_bind Edit.keeps_rootRef fun root =>
      Edit.intact_addWith root _ _ project).map _
  | setCondition r conditions? =>
    exact (Edit.takes_of_intact fun _ => Edit.intact_setCondition r conditions?).answer _
  | setProperty group name value => exact (Edit.takes_setProperty group name value).map _
  | addItem group kind includeText =>
    exact (Edit.takes_of_intact fun _ => keeps_bind (Edit.keeps_expectKind group _) fun _ =>
      Edit.intact_addWith group kind _ includeText).map _
  | setItemInclude item includeText =>
    exact (Edit.takes_of_intact fun _ => Edit.intact_setAttribute item _ includeText).answer _
  | setMetadata item name value => exact (Edit.takes_setMetadata item name value).map _

/-! ## Changes one after the other -/

namespace Document

/-- The document after some changes, each made whether or not those before it succeeded. -/
def after (d : Document) (changes : List Change) : Document :=
  changes.foldl (fun d change => (change.action.run.run d).2) d

theorem after_cons (d : Document) (change : Change) (changes : List Change) :
    d.after (change :: changes) = (d.after [change]).after changes := rfl

theorem Reachable.after {d : Document} (hd : d.Reachable) (changes : List Change) :
    (d.after changes).Reachable := by
  induction changes generalizing d with
  | nil => exact hd
  | cons change changes ih => exact ih (hd.changed change)

end Document

/-! ## Well-formed trees -/

/-- **The tree of every document is well-formed**, however the document came about. -/
theorem Document.Reachable.wellFormed {d : Document} (h : d.Reachable) : d.WellFormed := by
  induction h with
  | empty id => exact Tree.wellFormed_ofTag _
  | parsed h =>
    obtain ⟨content, hparse, rfl⟩ := map_eq_ok.mp h
    exact DocumentContent.wellFormed_of_parse hparse
  | copied id _ ih => exact ih
  | placed path? _ ih => exact ih
  | changed change _ ih =>
    obtain ⟨_, hsteps, -⟩ := change.takes_action _ ih
    exact hsteps.wellFormed ih

/-- **No edit changes the tree without counting a revision**, whether it succeeds or fails. -/
theorem Change.revised_action (change : Change) {d : Document} (hd : d.Reachable) :
    d.Revised (change.action.run.run d).2 := by
  obtain ⟨taken, hsteps, -⟩ := change.takes_action d hd.wellFormed
  exact hsteps.revised

end BuildProject
