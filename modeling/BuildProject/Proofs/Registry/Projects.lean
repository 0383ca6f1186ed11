import BuildProject.Proofs.Project.ConditionalGroup
import BuildProject.Proofs.Project.Evaluation
import BuildProject.Proofs.Registry.Operations

/-!
# What becomes of projects

A project in memory comes from a document, from a file, from nothing or from another project; then
it is worked on. `Project.Reachable` says so, and every project has what is an invariant
(`Reachable.of_invariant`). So its stored evaluation is right if it says so
(`Reachable.evaluation_eq`), and the group with some conditions is found or made where it is to be
(`Reachable.conditionalPropertyGroup_spec`).
-/

namespace BuildProject.Project

/-- The projects that come about by loading, creating, copying and working. -/
inductive Reachable : Project → Prop where
  | ofDocument {d : Document} (hd : d.Reachable) (c : Conventions) : Reachable (ofDocument d c)
  | loaded {id : DocumentId} {c : Conventions} {host : Host} {path : String} {p : Project}
    (h : load id c host path = .ok p) : Reachable p
  | created {id : DocumentId} {guid : Guid} {c : Conventions} {p : Project}
    (h : create id guid c = .ok p) : Reachable p
  | cloned {w w' : Workspace} {source handle : Handle} {path : String} {overwrite : Bool}
    {cell : Cell} (hw : w.Reachable)
    (h : (RegistryAction.clone source path overwrite).run.run w = (.ok handle, w'))
    (hcell : w'.cell? handle = some cell) : Reachable cell.project
  | worked {p : Project} (h : Reachable p) (work : Work) : Reachable (p.perform work)

namespace Invariant

variable {P : Project → Prop} {p : Project}

theorem cloned (hP : Invariant P) {w w' : Workspace} {source handle : Handle} {path : String}
    {overwrite : Bool} {cell : Cell} (hw : w.Reachable)
    (h : (RegistryAction.clone source path overwrite).run.run w = (.ok handle, w'))
    (hcell : w'.cell? handle = some cell) : P cell.project := by
  obtain ⟨key, q, directory, copy, -, hsource, hrebase, hcopy, -⟩ :=
    RegistryAction.cloned_of_clone hw h
  obtain rfl : cell = ⟨copy, .free⟩ := Option.some.inj (hcell.symm.trans hcopy)
  have hmade : P (RegistryAction.copyFor w q key) :=
    hP.made (.placed (some key) (.copied _ (hsource.document_reachable hw))) _
  have hkept := keeps_rebaseSources hP.changed directory _ hmade
  rwa [hrebase] at hkept

end Invariant

/-- **Every project has what all work keeps.** -/
theorem Reachable.of_invariant {P : Project → Prop} (hP : Invariant P) {p : Project}
    (hp : p.Reachable) : P p := by
  induction hp with
  | ofDocument hd c => exact hP.made hd c
  | loaded h =>
    obtain ⟨text, d, -, hparse, rfl⟩ := document_of_load h
    exact hP.made (.placed _ (.parsed hparse)) _
  | created h => exact hP.created h
  | cloned hw h hcell => exact hP.cloned hw h hcell
  | worked _ work ih => exact hP.perform ih work

/-- The document of every project is one that can come about. -/
theorem Reachable.document {p : Project} (hp : p.Reachable) : p.document.Reachable :=
  hp.of_invariant invariant_reachable

variable {p : Project}

/-! ## Evaluations -/

/-- **Stored evaluations are right.** Whatever has been done with a project, its evaluation is that
of the document as it is now if it says so, and a property that is asked for has the value that it
has in the document as it is now. -/
theorem Reachable.evaluation_eq (hp : p.Reachable) :
    (p.evaluation.isCurrent p.document = true →
      p.evaluation = .evaluate p.document p.conventions.globalProperties) ∧
    ∀ name, (p.evaluatedProperty? name).1
      = (Evaluation.evaluate p.document p.conventions.globalProperties).property? name := by
  have hdated : p.IsDated := (hp.of_invariant invariant_isDated).2
  refine ⟨hdated.eq_evaluate, fun name => ?_⟩
  show p.reevaluate.2.evaluation.property? name = _
  rw [hdated.evaluation_reevaluate]

/-- A project in which a property has been set, asked for and set again. -/
def setAgain : Project :=
  let p := ofDocument (.empty ⟨0⟩) {}
  let p := p.perform (.change .addPropertyGroup)
  let p := p.perform (.change (.setProperty ⟨⟨0⟩, 1⟩ "Name" "old"))
  let p := p.perform (.evaluatedProperty "Name")
  p.perform (.change (.setProperty ⟨⟨0⟩, 1⟩ "Name" "new"))

theorem reachable_setAgain : setAgain.Reachable := by
  unfold setAgain
  exact ((((Reachable.ofDocument (.empty ⟨0⟩) {}).worked _).worked _).worked _).worked _

/-- Its stored evaluation is out of date, and is not what answers. -/
theorem evaluation_eq_setAgain :
    setAgain.Reachable ∧ setAgain.evaluation.isCurrent setAgain.document = false ∧
      setAgain.evaluation.property? "Name" = some "old" ∧
      (setAgain.evaluatedProperty? "Name").1 = some "new" ∧
      (setAgain.perform .reevaluate).evaluation.isCurrent
        (setAgain.perform .reevaluate).document = true ∧
      (setAgain.perform .reevaluate).evaluation
        = .evaluate (setAgain.perform .reevaluate).document
          (setAgain.perform .reevaluate).conventions.globalProperties := by
  have hcurrent : (setAgain.perform .reevaluate).evaluation.isCurrent
      (setAgain.perform .reevaluate).document = true := by decide +kernel
  refine ⟨reachable_setAgain, by decide +kernel, by decide +kernel, ?_, hcurrent, ?_⟩
  · rw [reachable_setAgain.evaluation_eq.2 "Name"]
    decide +kernel
  · exact (reachable_setAgain.worked .reevaluate).evaluation_eq.1 hcurrent

/-! ## Conditional groups -/

/-- **Found or made.** Asking a project for the group with some conditions

* answers the first such group, if no condition that cannot be read comes before it, and
* fails otherwise if there is a condition that cannot be read; both change nothing;
* else it makes an empty group with these conditions: right behind the last group on the same
  variables, else right behind the default property group, else at the end of the project.

Whatever is answered is answered again, and the second time nothing changes. -/
theorem Reachable.conditionalPropertyGroup_spec (hp : p.Reachable) (hlive : p.isDisposed = false)
    (conditions : ConditionSet) :
    (∀ group, p.document.groupGuardedBy? conditions = some group →
      (conditionalPropertyGroup conditions).run.run p = (.ok (p.document.ref group), p)) ∧
    (∀ fault, p.document.groupGuardedBy? conditions = none →
      p.document.conditionFault? = some fault →
      (conditionalPropertyGroup conditions).run.run p = (.error (.condition fault), p)) ∧
    (p.document.groupGuardedBy? conditions = none → p.document.conditionFault? = none →
      ∃ content, Forest.AddedAt ((p.groupAnchor? conditions).map Element.id)
          (p.document.newGroup conditions) p.document.tree.content content ∧
        (conditionalPropertyGroup conditions).run.run p =
          (.ok (p.document.ref (p.document.newGroup conditions)),
            { p with document := p.document.withContent content (p.document.revision + 2) })) ∧
    ∀ r q, (conditionalPropertyGroup conditions).run.run p = (.ok r, q) →
      (conditionalPropertyGroup conditions).run.run q = (.ok r, q) := by
  have hgroup : p.HasGroup := hp.of_invariant invariant_hasGroup
  have hfound {group : Element} (h : p.document.groupGuardedBy? conditions = some group) :=
    run_conditionalPropertyGroup_of_some hlive h
  have hfails {fault : ConditionError} (h : p.document.groupGuardedBy? conditions = none)
      (hfault : p.document.conditionFault? = some fault) :=
    run_conditionalPropertyGroup_of_fault hlive h hfault
  refine ⟨fun _ => hfound, fun _ => hfails, hgroup.run_conditionalPropertyGroup hlive, ?_⟩
  intro r q hrun
  cases hguarded : p.document.groupGuardedBy? conditions with
  | some group =>
    rw [hfound hguarded] at hrun
    obtain ⟨hr, rfl⟩ := Prod.mk.inj hrun
    rw [hfound hguarded, hr]
  | none =>
    cases hfault : p.document.conditionFault? with
    | some fault =>
      rw [hfails hguarded hfault] at hrun
      exact absurd (Prod.mk.inj hrun).1 (by simp)
    | none =>
      -- what has been made is found
      obtain ⟨content, hadded, hmade⟩ := hgroup.run_conditionalPropertyGroup hlive hguarded hfault
      rw [hmade] at hrun
      obtain ⟨hr, rfl⟩ := Prod.mk.inj hrun
      let made : Document := p.document.withContent content (p.document.revision + 2)
      have hagain : made.groupGuardedBy? conditions = some (p.document.newGroup conditions) :=
        Document.groupGuardedBy?_of_added hfault hguarded hadded
      rw [← hr]
      exact run_conditionalPropertyGroup_of_some (p := { p with document := made }) hlive hagain

/-- A project with a group for one configuration inside another element. -/
def configured (inside : Forest) : Project :=
  let identifier : Forest := .element 2 ⟨"ProjectGuid", []⟩ .nil .nil
  let content : Forest := .element 1 ⟨"PropertyGroup", []⟩ identifier
    (.element 3 ⟨"When", []⟩ inside (.element 5 ⟨"ItemGroup", []⟩ .nil .nil))
  .ofDocument (.ofContent ⟨7⟩ ⟨⟨⟨"Project", []⟩, content, 6⟩, none, []⟩) {}

/-- A group for another configuration is made beside it, although that is not the default property
group, and then it is there. -/
theorem conditionalPropertyGroup_spec_release :
    let guarded (id : NodeId) (condition : String) (rest : Forest) : Forest :=
      .element id ⟨"PropertyGroup", [⟨"Condition", condition⟩]⟩ .nil rest
    let p := configured (guarded 4 "'$(Configuration)' == 'Debug'" .nil)
    let release : ConditionSet :=
      ⟨[⟨"Configuration", "Release"⟩], by decide, by decide, by decide⟩
    p.Reachable ∧ ∃ q, (conditionalPropertyGroup release).run.run p = (.ok ⟨⟨7⟩, 6⟩, q) ∧
      q.document.tree.content = (configured (guarded 4 "'$(Configuration)' == 'Debug'"
        (guarded 6 " '$(Configuration)' == 'Release' " .nil))).document.tree.content ∧
      (conditionalPropertyGroup release).run.run q = (.ok ⟨⟨7⟩, 6⟩, q) := by
  intro guarded p release
  have hparse : Document.parse ⟨7⟩ ("<Project><PropertyGroup><ProjectGuid/></PropertyGroup><When>" ++
      "<PropertyGroup Condition=\"'$(Configuration)' == 'Debug'\"/></When><ItemGroup/></Project>")
        = .ok p.document := by
    decide +kernel
  have hp : p.Reachable := .ofDocument (.parsed hparse) {}
  obtain ⟨-, -, hmade, hagain⟩ := hp.conditionalPropertyGroup_spec rfl release
  obtain ⟨content, -, hrun⟩ := hmade (by decide +kernel) (by decide +kernel)
  have hcontent : ((conditionalPropertyGroup release).run.run p).2.document.tree.content =
      (configured (guarded 4 "'$(Configuration)' == 'Debug'"
        (guarded 6 " '$(Configuration)' == 'Release' " .nil))).document.tree.content := by
    decide +kernel
  rw [hrun] at hcontent
  exact ⟨hp, _, hrun, hcontent, hagain _ _ hrun⟩

end BuildProject.Project
