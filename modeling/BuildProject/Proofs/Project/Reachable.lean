import BuildProject.Project.File
import BuildProject.Proofs.Document.Reachable

/-!
# The documents of projects

Whatever is done to a project in memory is done to its document by edits, so the document stays one
that can come about by reading, copying and changing.
-/

namespace BuildProject.Project

/-! ## Edits -/

/-- An edit leaves the document that it leaves, and the rest of the project as it is. -/
theorem run_edit_state (action : Edit α) (p : Project) :
    ((edit action).run.run p).2 = { p with document := (action.run.run p.document).2 } := by
  rw [edit, run_get_bind]
  cases hrun : action.run.run p.document with
  | mk answer d => cases answer <;> rfl

theorem keeps_edit {P : Document → Prop} {action : Edit α} (h : Keeps P action) :
    Keeps (fun p : Project => P p.document) (edit action) := by
  intro p hp
  rw [run_edit_state]
  exact h p.document hp

theorem keeps_ensureLive {P : Project → Prop} : Keeps P ensureLive := by
  refine keeps_bind keeps_get fun p => ?_
  split
  · exact keeps_throw _
  · exact keeps_pure _

theorem keeps_askCondition {P : Project → Prop} (answer : Except ConditionError α) :
    Keeps P (askCondition answer) := by
  cases answer with
  | ok answer => exact keeps_pure _
  | error fault => exact keeps_throw _

section

-- a property of projects that every change of their documents keeps
variable {P : Project → Prop} (hP : ∀ change : Change, Keeps P (edit change.action))
include hP

/-- An edit that is a change, but for what it answers, keeps what all changes keep. -/
theorem keeps_of_change (change : Change) {action : Edit α} {answer : α → Option ElementRef}
    (h : change.action = action >>= fun a => pure (answer a)) : Keeps P (edit action) := by
  intro p hp
  have hkept := hP change p hp
  rw [run_edit_state, h, run_bind_pure_state] at hkept
  rwa [run_edit_state]

theorem keeps_silent (change : Change) {action : Edit Unit}
    (h : change.action = action >>= fun _ => pure none) : Keeps P (edit action) :=
  keeps_of_change hP change h

theorem keeps_answering (change : Change) {action : Edit ElementRef}
    (h : change.action = some <$> action) : Keeps P (edit action) :=
  keeps_of_change hP change (h.trans (map_eq_pure_bind _ _))

theorem keeps_rebaseItem (source destination : String) (item : ElementRef) (includeText : String)
    (linked : Bool) : Keeps P (rebaseItem source destination item includeText linked) := by
  refine keeps_bind keeps_get fun p => ?_
  dsimp only
  split
  · exact keeps_pure _
  · refine keeps_bind ?_ fun _ => ?_
    · exact keeps_silent hP (.setItemInclude item _) rfl
    · split
      · split
        · refine keeps_bind ?_ fun _ => keeps_pure _
          exact keeps_answering hP (.setMetadata item _ _) rfl
        · exact keeps_pure _
      · exact keeps_pure _

/-- Rebasing the sources of a project edits its document. -/
theorem keeps_rebaseSources (source : String) : Keeps P (rebaseSources source) := by
  refine keeps_bind keeps_get fun p => ?_
  split
  · exact keeps_throw _
  · generalize p.sourceItems = items
    induction items with
    | nil => exact keeps_pure _
    | cons found items ih => exact keeps_bind (keeps_rebaseItem hP _ _ _ _ _) fun _ => ih

/-- Finding or making a conditional group edits the document, if it does anything. -/
theorem keeps_conditionalPropertyGroup (conditions : ConditionSet) :
    Keeps P (conditionalPropertyGroup conditions) := by
  refine keeps_bind keeps_ensureLive fun _ => ?_
  refine keeps_bind keeps_get fun p => ?_
  refine keeps_bind (keeps_askCondition _) fun found? => ?_
  cases found? with
  | some group => exact keeps_pure _
  | none =>
    refine keeps_bind (keeps_askCondition _) fun alike? => ?_
    dsimp only
    refine keeps_bind ?_ fun group => ?_
    · split
      · next anchor _ =>
        exact keeps_answering hP (.createPropertyGroup anchor true) rfl
      · exact keeps_answering hP .addPropertyGroup rfl
    · refine keeps_bind ?_ fun _ => keeps_pure _
      exact keeps_silent hP (.setCondition group (some conditions)) rfl

theorem keeps_addDefaults (group : ElementRef) (entries : List (String × String)) :
    Keeps P (addDefaults group entries) := by
  induction entries with
  | nil => exact keeps_pure _
  | cons entry entries ih =>
    obtain ⟨name, value⟩ := entry
    refine keeps_bind ?_ fun property => ?_
    · exact keeps_answering hP (.setProperty group name value) rfl
    · refine keeps_bind (keeps_askCondition _) fun unset => ?_
      refine keeps_bind ?_ fun _ => ih
      exact keeps_silent hP (.setAttribute property conditionAttribute unset.text) rfl

/-- Filling an empty project edits its document. -/
theorem keeps_addSkeleton (guid : Guid) : Keeps P (addSkeleton guid) := by
  refine keeps_bind keeps_get fun p => ?_
  refine keeps_bind ?_ fun group => keeps_bind (keeps_addDefaults hP group _) fun _ => ?_
  · exact keeps_answering hP .addPropertyGroup rfl
  refine keeps_bind ?_ fun _ => keeps_bind ?_ fun items => keeps_bind ?_ fun _ => ?_
  · exact keeps_answering hP (.setProperty group _ _) rfl
  · exact keeps_answering hP .addItemGroup rfl
  · exact keeps_answering hP (.addItem items _ _) rfl
  · refine keeps_bind ?_ fun _ => keeps_pure _
    exact keeps_answering hP (.addImport _) rfl

end

/-- Whatever is done by edits leaves a document that can come about. -/
theorem keeps_reachable (change : Change) :
    Keeps (fun p : Project => p.document.Reachable) (edit change.action) :=
  keeps_edit fun _ hd => hd.changed change

/-- A disposed project has an empty document. -/
theorem reachable_dispose {p : Project} (h : p.document.Reachable) (fresh : DocumentId) :
    (p.dispose fresh).2.document.Reachable := by
  rw [dispose]
  split
  · exact h
  · exact .placed _ (.empty fresh)

/-! ## Loading -/

/-- A project that has been loaded has a document that has been read from its file. -/
theorem document_of_load {id : DocumentId} {c : Conventions} {host : Host} {path : String}
    {p : Project} (h : load id c host path = .ok p) :
    ∃ text d, host.readText path = .ok text ∧ Document.parse id text = .ok d ∧
      p = ofDocument { d with path? := some path } c := by
  rw [load, Document.load] at h
  obtain ⟨loaded, hload, hproject⟩ := bind_eq_ok.mp h
  obtain ⟨text, hread, hrest⟩ := bind_eq_ok.mp (mapError_eq_ok.mp hload)
  obtain ⟨d, hparse, hpath⟩ := bind_eq_ok.mp hrest
  refine ⟨text, d, mapError_eq_ok.mp hread, hparse, ?_⟩
  rw [← pure_eq_ok.mp hproject, ← pure_eq_ok.mp hpath]

theorem reachable_of_load {id : DocumentId} {c : Conventions} {host : Host} {path : String}
    {p : Project} (h : load id c host path = .ok p) : p.document.Reachable := by
  obtain ⟨text, d, -, hparse, rfl⟩ := document_of_load h
  exact .placed _ (.parsed hparse)

/-- Loading fails only because the file cannot be read or what it says is not a project. -/
theorem error_of_load {id : DocumentId} {c : Conventions} {host : Host} {path : String}
    {fault : ProjectError} (h : load id c host path = .error fault) :
    ∃ f, fault = .document f := by
  rw [load] at h
  cases hload : Document.load id host path with
  | error f =>
    rw [hload] at h
    have hfault : Except.error (.document f) = Except.error fault := h
    exact ⟨f, (Except.error.inj hfault).symm⟩
  | ok d =>
    rw [hload] at h
    have hfault : Except.ok (ofDocument d c) = Except.error fault := h
    exact absurd hfault (by simp)

end BuildProject.Project
