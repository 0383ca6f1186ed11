import BuildProject.Proofs.Project.Work

/-!
# Stored evaluations

A project keeps the evaluation it made last, and tells by the revision whether it still holds. It
does: an evaluation reads nothing but the tree, and no edit changes the tree without counting a
revision (`Change.revised_action`). So a stored evaluation either has an earlier revision than the
document or is what evaluating now would give (`Project.IsDated`), whatever is done with the
project.
-/

namespace BuildProject

namespace Evaluation

/-- An evaluation reads the tree of a document, its identity and its revision. -/
theorem evaluate_congr {d d' : Document} (htree : d'.tree = d.tree) (hid : d'.id = d.id)
    (hrevision : d'.revision = d.revision) (g : GlobalProperties) :
    evaluate d' g = evaluate d g := by
  have hgroups : d'.propertyGroups = d.propertyGroups := by
    rw [Document.propertyGroups, Document.elementsNamed, Document.elements, htree]
    rfl
  rw [evaluate, evaluate, hgroups, hid, hrevision]

theorem isCurrent_iff {e : Evaluation} {d : Document} :
    e.isCurrent d = true ↔ e.document? = some d.id ∧ e.revision = d.revision := by
  simp [isCurrent]

end Evaluation

namespace Project

/-- An evaluation of the project's document is out of date by its revision, or what evaluating now
would give. -/
def IsDated (p : Project) : Prop :=
  p.evaluation.document? = some p.document.id →
    p.evaluation.revision < p.document.revision ∨
      p.evaluation = .evaluate p.document p.conventions.globalProperties

variable {p : Project}

/-- A fresh evaluation is dated. -/
theorem isDated_of_evaluate
    (h : p.evaluation = .evaluate p.document p.conventions.globalProperties) : p.IsDated :=
  fun _ => .inr h

theorem IsDated.eq_evaluate (h : p.IsDated) (hcurrent : p.evaluation.isCurrent p.document = true) :
    p.evaluation = .evaluate p.document p.conventions.globalProperties := by
  obtain ⟨hdocument, hrevision⟩ := Evaluation.isCurrent_iff.mp hcurrent
  rcases h hdocument with hearlier | heq
  · omega
  · exact heq

/-- A document that has been revised leaves the stored evaluation right or out of date. -/
theorem IsDated.revised (h : p.IsDated) {d : Document} (hd : p.document.Revised d) :
    IsDated { p with document := d } := by
  intro hdocument
  have hown : p.evaluation.document? = some p.document.id := hdocument.trans (by rw [hd.id])
  rcases h hown with hearlier | heq
  · refine .inl ?_
    show p.evaluation.revision < d.revision
    rcases hd.later with ⟨-, hsame⟩ | hlater <;> omega
  · rcases hd.later with ⟨htree, hsame⟩ | hlater
    · refine .inr ?_
      show p.evaluation = .evaluate d p.conventions.globalProperties
      rw [heq, Evaluation.evaluate_congr htree hd.id hsame]
    · refine .inl ?_
      show p.evaluation.revision < d.revision
      rw [heq]
      exact hlater

theorem IsDated.reevaluate (h : p.IsDated) : p.reevaluate.2.IsDated := by
  unfold Project.reevaluate
  split
  · exact h
  · exact isDated_of_evaluate rfl

/-- Nothing has been evaluated in a project that has been disposed. -/
theorem IsDated.dispose (h : p.IsDated) (fresh : DocumentId) : (p.dispose fresh).2.IsDated := by
  unfold Project.dispose
  split
  · exact h
  · intro hdocument
    exact absurd hdocument (by simp [Evaluation.empty])

/-- **All work leaves the stored evaluation right or out of date.** -/
theorem invariant_isDated : Invariant fun p => p.document.Reachable ∧ p.IsDated where
  made := fun hd _ => ⟨hd, isDated_of_evaluate rfl⟩
  changed := by
    rintro change p ⟨hd, hdated⟩
    refine ⟨keeps_reachable change p hd, ?_⟩
    rw [run_edit_state]
    exact hdated.revised (change.revised_action hd)
  placed := by
    rintro p path? ⟨hd, hdated⟩
    exact ⟨hd.placed path?, hdated.revised ⟨rfl, .inl ⟨rfl, rfl⟩⟩⟩
  reevaluated := by
    rintro p ⟨hd, hdated⟩
    exact ⟨invariant_reachable.reevaluated hd, hdated.reevaluate⟩
  saved := fun _ h => h
  disposed := fun fresh ⟨hd, hdated⟩ => ⟨reachable_dispose hd fresh, hdated.dispose fresh⟩

/-- An evaluation that is not renewed is right. -/
theorem IsDated.evaluation_reevaluate (h : p.IsDated) :
    p.reevaluate.2.evaluation = .evaluate p.document p.conventions.globalProperties := by
  unfold Project.reevaluate
  split
  · next hcurrent => exact h.eq_evaluate hcurrent
  · rfl

end Project

end BuildProject
