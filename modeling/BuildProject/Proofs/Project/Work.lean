import BuildProject.Proofs.Project.Reachable

/-!
# Work on projects

A project in memory is changed, evaluated, saved and disposed. What all of this keeps, and what a
project has when it is made, is an invariant of projects (`Project.Invariant`): that the document is
one that can come about, for a start.
-/

namespace BuildProject

/-! ## Work -/

/-- Everything that is done with a project in memory, whether it succeeds or fails. Files can change
at any time, so all that is saved is saved on a host as it is then. -/
inductive Work where
  | change (change : Change)
  /-- Tie the document to a file. -/
  | place (path : String)
  /-- Write the document to a file that becomes its own. -/
  | moveTo (path : String) (host : Host)
  | reevaluate
  | evaluatedProperty (name : String)
  | conditionalPropertyGroup (conditions : ConditionSet)
  | save (host : Host)
  | saveAs (path : String) (host : Host)
  | dispose (fresh : DocumentId)

/-- Whether some work may tie the document to another file. -/
def Work.Places : Work → Prop
  | .place _ => True
  | .moveTo _ _ => True
  | _ => False

namespace Project

/-- The project after some work. -/
def perform (p : Project) : Work → Project
  | .change change => ((edit change.action).run.run p).2
  | .place path => { p with document := { p.document with path? := some path } }
  | .moveTo path host => { p with document := (p.document.saveAs path host).2.1 }
  | .reevaluate => p.reevaluate.2
  | .evaluatedProperty name => (p.evaluatedProperty? name).2
  | .conditionalPropertyGroup conditions => ((conditionalPropertyGroup conditions).run.run p).2
  | .save host => (p.save host).2.1
  | .saveAs path host => (p.saveAs path host).2.1
  | .dispose fresh => (p.dispose fresh).2

/-! ## Invariants -/

/-- A property that edits, evaluations and saving keep. All work is made of these, but for tying the
document to another file and disposing. -/
structure Kept (P : Project → Prop) : Prop where
  changed : ∀ change : Change, Keeps P (edit change.action)
  reevaluated : ∀ {p : Project}, P p → P p.reevaluate.2
  saved : ∀ {p : Project} (saved : Bool), P p → P { p with saved }

namespace Kept

variable {P : Project → Prop} {p : Project}

/-- A project is saved after its evaluation has been renewed, or not at all. -/
theorem saveWith (hP : Kept P) (hp : P p)
    (write : Document → Host → Except DocumentError Unit × Host) (host : Host) :
    P (p.saveWith write host).2.1 := by
  unfold Project.saveWith
  split
  · exact hp
  · dsimp only
    split
    · exact hP.saved true (hP.reevaluated hp)
    · exact hP.reevaluated hp

theorem perform (hP : Kept P) (hp : P p) {work : Work}
    (hplaced : work.Places → ∀ path?, P { p with document := { p.document with path? } })
    (hdisposed : ∀ fresh, work = .dispose fresh → P (p.dispose fresh).2) : P (p.perform work) := by
  cases work with
  | change change => exact hP.changed change p hp
  | place path => exact hplaced trivial (some path)
  | moveTo path host =>
    show P { p with document := (p.document.saveAs path host).2.1 }
    unfold Document.saveAs
    split
    · exact hplaced trivial (some path)
    · exact hp
  | reevaluate => exact hP.reevaluated hp
  | evaluatedProperty name => exact hP.reevaluated hp
  | conditionalPropertyGroup conditions =>
    exact keeps_conditionalPropertyGroup hP.changed conditions p hp
  | save host => exact hP.saveWith hp _ host
  | saveAs path host => exact hP.saveWith hp _ host
  | dispose fresh => exact hdisposed fresh rfl

end Kept

/-- A property that all work on projects keeps, and that new projects have. -/
structure Invariant (P : Project → Prop) : Prop extends Kept P where
  made : ∀ {d : Document}, d.Reachable → ∀ c, P (ofDocument d c)
  placed : ∀ {p : Project} (path? : Option String), P p →
    P { p with document := { p.document with path? } }
  disposed : ∀ {p : Project} (fresh : DocumentId), P p → P (p.dispose fresh).2

namespace Invariant

variable {P : Project → Prop} {p : Project}

/-- **All work keeps an invariant.** -/
theorem perform (hP : Invariant P) (hp : P p) (work : Work) : P (p.perform work) :=
  hP.toKept.perform hp (fun _ path? => hP.placed path? hp) fun fresh _ => hP.disposed fresh hp

/-- A new project is made from the document that has been filled. -/
theorem created (hP : Invariant P) {id : DocumentId} {guid : Guid} {c : Conventions}
    (h : create id guid c = .ok p) : P p := by
  obtain ⟨⟨⟩, -, rfl⟩ := map_eq_ok.mp h
  exact hP.made (keeps_addSkeleton keeps_reachable guid _ (.empty id)) c

end Invariant

theorem invariant_reachable : Invariant fun p => p.document.Reachable where
  made := fun hd _ => hd
  changed := keeps_reachable
  placed := fun path? hd => hd.placed path?
  reevaluated := by
    intro p hd
    unfold reevaluate
    split <;> exact hd
  saved := fun _ hd => hd
  disposed := fun fresh hd => reachable_dispose hd fresh

end Project

end BuildProject
