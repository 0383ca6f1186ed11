import BuildProject.Proofs.Document.References
import BuildProject.Proofs.Registry.Projects

/-!
# Disposal is final

A project is used by working on it and by copying it, which disposes it if the copy takes its place
(`RegistryAction.cell?_clone`). `Project.after` is the project after some uses, in any order, and
`Project.Follows` is what all of them keep: a disposed project has the document that it got when it
was disposed, an empty one at first, and none of its places. So nothing that is done with it later
brings back what it was (`Project.Reachable.disposal_final`).
-/

namespace BuildProject

/-! ## Copying, seen from the source -/

namespace Workspace

/-- Unloading a key disposes a project that is registered for it, and no other. -/
theorem cell?_unloadKey (w : Workspace) (key : String) (handle : Handle) :
    (w.unloadKey key).2.cell? handle = w.cell? handle ∨
      w.registry.find? key = some handle ∧
        (w.unloadKey key).2.cell? handle = (w.cell? handle).map fun cell =>
          { cell with project := (cell.project.dispose w.freshDocument.1).2 } := by
  by_cases hfind : w.registry.find? key = some handle
  · rw [unloadKey_of_some hfind]
    rcases release_cases { w with registry := w.registry.erase key } handle with
      heq | ⟨cell, hcell, hfree, -⟩
    · exact .inl (by rw [heq]; rfl)
    · have hheld : w.cell? handle = some cell := hcell
      exact .inr ⟨hfind, by rw [cell?_release_of_free hcell hfree, hheld]; rfl⟩
  · exact .inl (cell?_unloadKey_of_ne hfind)

end Workspace

namespace RegistryAction

open Workspace

/-- There is room at a key without overwriting only if nothing is registered for it. -/
theorem overwrite_of_clearTarget {w w' : Workspace} {key : String} {overwrite : Bool}
    (h : (clearTarget key overwrite).run.run w = (.ok ⟨⟩, w')) {handle : Handle}
    (hfind : w.registry.find? key = some handle) : overwrite = true := by
  cases overwrite with
  | true => rfl
  | false =>
    rw [clearTarget, if_neg Bool.false_ne_true, run_get_bind, hfind, Option.isSome_some,
      if_pos rfl] at h
    exact absurd (Prod.mk.inj h).1 (by simp)

/-- **What copying does to the source.** It leaves the source as it is, or disposes it, and that
only if the copy is to take its place. -/
theorem cell?_clone (w : Workspace) (source : Handle) (path : String) (overwrite : Bool) :
    ((clone source path overwrite).run.run w).2.cell? source = w.cell? source ∨
      overwrite = true ∧ w.get? path = some source ∧
        ((clone source path overwrite).run.run w).2.cell? source =
          (w.cell? source).map fun cell =>
            { cell with project := (cell.project.dispose ⟨w.nextDocument + 1⟩).2 } := by
  rw [clone]
  dsimp only
  split
  · exact .inl rfl
  cases hkey : w.key path with
  | error fault =>
    rw [run_bind_error (run_keyOf_error hkey)]
    exact .inl rfl
  | ok key =>
    rw [run_bind_ok (run_keyOf_ok hkey)]
    rcases run_sourceOf w source with ⟨fault, hrun⟩ | ⟨p, directory, hsource, hrun⟩
    · rw [run_bind_error hrun]
      exact .inl rfl
    rw [run_bind_ok hrun]
    dsimp only
    rcases run_clearTarget w.freshDocument.2 (isNormalPath_of_normalizePath hkey) overwrite with
      ⟨fault, hclear⟩ | ⟨-, hclear⟩
    · rw [run_bind_error hclear]
      exact .inl rfl
    -- whatever becomes of the copy, the source is as it was left when room was made
    have hsame {w' : Workspace} (h : w'.cell? source =
        (w.freshDocument.2.unloadKey key).2.cell? source) :
        w'.cell? source = w.cell? source ∨ overwrite = true ∧ w.get? path = some source ∧
          w'.cell? source = (w.cell? source).map fun cell =>
            { cell with project := (cell.project.dispose ⟨w.nextDocument + 1⟩).2 } := by
      rw [h]
      rcases w.freshDocument.2.cell?_unloadKey key source with heq | ⟨hfind, heq⟩
      · exact .inl heq
      · have hget : w.get? path = some source := by
          rw [get?, hkey]
          exact hfind
        exact .inr ⟨overwrite_of_clearTarget hclear hfind, hget, heq⟩
    rw [run_bind_ok hclear, run_get_bind]
    generalize (Project.rebaseSources directory).run.run _ = outcome
    obtain ⟨fault | ⟨⟩, project⟩ := outcome
    · exact hsame rfl
    · obtain ⟨cell, hcell, -⟩ := hsource.exists_cell
      have halive := (extends_unloadKey w.freshDocument.2 key).alive source
        (Option.isSome_iff_exists.mpr ⟨cell, hcell⟩)
      exact hsame (cell?_addProject_of_some project halive)

end RegistryAction

/-! ## Uses -/

/-- Everything that a project in memory is used for: it is worked on, and it is copied, in a
workspace where it is the project behind the handle `source`. -/
inductive Use where
  | work (work : Work)
  | copy (w : Workspace) (source : Handle) (path : String) (overwrite : Bool)

namespace Use

/-- Whether a project may be disposed when it is used: by itself, or as a copy takes its place. -/
def Disposes : Use → Prop
  | .work (.dispose _) => True
  | .work _ => False
  | .copy w source path overwrite => overwrite = true ∧ w.get? path = some source

/-- Whether a use may tie the document to another file. -/
def Places : Use → Prop
  | .work task => task.Places
  | .copy _ _ _ _ => False

/-- Whether a use may give an identity to a new document. -/
def Draws (id : DocumentId) : Use → Prop
  | .work (.dispose fresh) => fresh = id
  | .work _ => False
  | .copy w _ _ _ => w.nextDocument ≤ id.index

end Use

namespace Project

/-- The project after it has been used. -/
def use (p : Project) : Use → Project
  | .work work => p.perform work
  | .copy w source path overwrite =>
    let w' := ((RegistryAction.clone source path overwrite).run.run (w.setProject source p)).2
    ((w'.cell? source).map Cell.project).getD p

/-- The project after some uses, each whether or not those before it succeeded. -/
def after (p : Project) (uses : List Use) : Project :=
  uses.foldl use p

variable {p : Project} {id : DocumentId}

/-- Copying disposes a project, or does nothing with it. -/
theorem use_copy (p : Project) (w : Workspace) (source : Handle) (path : String)
    (overwrite : Bool) :
    p.use (.copy w source path overwrite) = p ∨
      (Use.copy w source path overwrite).Disposes ∧
        p.use (.copy w source path overwrite) = (p.dispose ⟨w.nextDocument + 1⟩).2 := by
  have hsource : (w.setProject source p).cell? source
      = (w.cell? source).map fun cell => { cell with project := p } := by
    rw [Workspace.cell?_setProject, if_pos rfl]
  unfold use
  dsimp only
  rcases RegistryAction.cell?_clone (w.setProject source p) source path overwrite with
    heq | ⟨hoverwrite, hget, heq⟩
  · rw [heq, hsource]
    left
    cases w.cell? source <;> rfl
  · rw [heq, hsource]
    cases w.cell? source with
    | none => exact .inl rfl
    | some cell => exact .inr ⟨⟨hoverwrite, hget⟩, rfl⟩

/-! ## What one use does -/

/-- A project with the same document as before, which may have been edited, evaluated and saved. -/
structure Keeping (p q : Project) : Prop where
  reachable : q.document.Reachable
  id : q.document.id = p.document.id
  path? : q.path? = p.path?
  isDisposed : q.isDisposed = p.isDisposed
  propertyGroup? : q.propertyGroup? = p.propertyGroup?
  itemGroup? : q.itemGroup? = p.itemGroup?
  buildTools? : q.buildTools? = p.buildTools?

theorem Keeping.refl (hp : p.document.Reachable) : p.Keeping p :=
  ⟨hp, rfl, rfl, rfl, rfl, rfl, rfl⟩

theorem kept_keeping (p : Project) : Kept p.Keeping where
  changed := by
    intro change q hq
    obtain ⟨_, hsteps, -⟩ := Document.steps_after hq.reachable.wellFormed change
    have hid : (q.document.after [change]).id = q.document.id := hsteps.id_eq
    have hpath : (q.document.after [change]).path? = q.path? := by
      rw [hsteps.eq_setTree]
      rfl
    rw [run_edit_state]
    exact { hq with
      reachable := hq.reachable.changed change
      id := hid.trans hq.id
      path? := hpath.trans hq.path? }
  reevaluated := by
    intro q hq
    unfold reevaluate
    split
    · exact hq
    · exact { hq with }
  saved := fun _ hq => { hq with }

/-- **What one use does**: it keeps the document, or ties it to another file, or disposes the
project; the last two only if it may. -/
theorem use_cases (hp : p.document.Reachable) (use : Use) :
    p.Keeping (p.use use) ∨
      use.Places ∧ (∃ path?, p.use use = { p with document := { p.document with path? } }) ∨
      use.Disposes ∧ ∃ fresh, use.Draws fresh ∧ p.use use = (p.dispose fresh).2 := by
  have hkept (task : Work) (hplaces : ¬ task.Places) (hdisposes : ∀ fresh, task ≠ .dispose fresh) :
      p.Keeping (p.use (.work task)) :=
    (kept_keeping p).perform (.refl hp) (fun h => absurd h hplaces) fun fresh heq =>
      absurd heq (hdisposes fresh)
  cases use with
  | work task =>
    cases task with
    | place path => exact .inr (.inl ⟨trivial, some path, rfl⟩)
    | moveTo path host =>
      rw [Project.use, perform, Document.saveAs]
      split
      · exact .inr (.inl ⟨trivial, some path, rfl⟩)
      · exact .inl (.refl hp)
    | dispose fresh => exact .inr (.inr ⟨trivial, fresh, rfl, rfl⟩)
    | _ => exact .inl (hkept _ not_false nofun)
  | copy w source path overwrite =>
    rcases use_copy p w source path overwrite with heq | ⟨hdisposes, heq⟩
    · rw [heq]
      exact .inl (.refl hp)
    · exact .inr (.inr ⟨hdisposes, _, Nat.le_succ _, heq⟩)

/-- The document of a project stays one that can come about. -/
theorem reachable_use (hp : p.document.Reachable) (use : Use) :
    (p.use use).document.Reachable := by
  rcases use_cases hp use with hkeeping | ⟨-, path?, heq⟩ | ⟨-, fresh, -, heq⟩
  · exact hkeeping.reachable
  · rw [heq]
    exact hp.placed path?
  · rw [heq]
    exact reachable_dispose hp fresh

theorem path?_dispose (p : Project) (fresh : DocumentId) : (p.dispose fresh).2.path? = p.path? := by
  rw [Project.dispose]
  split <;> rfl

theorem dispose_of_disposed (h : p.isDisposed = true) (fresh : DocumentId) :
    p.dispose fresh = (false, p) :=
  if_pos h

theorem dispose_of_live (h : p.isDisposed = false) (fresh : DocumentId) :
    (p.dispose fresh).1 = true := by
  rw [Project.dispose, h]
  rfl

/-! ## What all uses keep -/

/-- A project whose document had the identity `id` until it was disposed. -/
structure Follows (id : DocumentId) (p : Project) : Prop where
  reachable : p.document.Reachable
  live : p.isDisposed = false → p.document.id = id
  foreign : p.isDisposed = true → p.document.id ≠ id
  places : p.isDisposed = true →
    p.propertyGroup? = none ∧ p.itemGroup? = none ∧ p.buildTools? = none

namespace Follows

theorem keeping {q : Project} (h : p.Follows id) (hq : p.Keeping q) : q.Follows id := by
  obtain ⟨hreachable, hid, -, hdisposed, hproperties, hitems, himport⟩ := hq
  constructor
  · exact hreachable
  · rw [hdisposed, hid]
    exact h.live
  · rw [hdisposed, hid]
    exact h.foreign
  · rw [hdisposed, hproperties, hitems, himport]
    exact h.places

theorem dispose (h : p.Follows id) {fresh : DocumentId} (hfresh : fresh ≠ id) :
    (p.dispose fresh).2.Follows id := by
  unfold Project.dispose
  split
  · exact h
  · exact ⟨.placed _ (.empty fresh), fun hlive => absurd hlive (by simp), fun _ => hfresh,
      fun _ => ⟨rfl, rfl, rfl⟩⟩

theorem use (h : p.Follows id) {use : Use} (hfresh : ¬ use.Draws id) : (p.use use).Follows id := by
  rcases use_cases h.reachable use with hkeeping | ⟨-, path?, heq⟩ | ⟨-, fresh, hdraws, heq⟩
  · exact h.keeping hkeeping
  · rw [heq]
    exact ⟨h.reachable.placed path?, h.live, h.foreign, h.places⟩
  · rw [heq]
    refine h.dispose ?_
    rintro rfl
    exact hfresh hdraws

end Follows

/-! ## Runs -/

theorem after_append (p : Project) (uses more : List Use) :
    p.after (uses ++ more) = (p.after uses).after more :=
  List.foldl_append

/-- What each of some uses keeps all of them keep. -/
theorem after_induction {P : Project → Prop} {uses : List Use} (hp : p.document.Reachable)
    (h : P p) (hkept : ∀ q : Project, q.document.Reachable → P q → ∀ use ∈ uses, P (q.use use)) :
    P (p.after uses) := by
  have hboth : (p.after uses).document.Reachable ∧ P (p.after uses) := by
    refine List.foldlRecOn (motive := fun q : Project => q.document.Reachable ∧ P q)
      uses Project.use ⟨hp, h⟩ ?_
    rintro q ⟨hreachable, hq⟩ use huse
    exact ⟨reachable_use hreachable use, hkept q hreachable hq use huse⟩
  exact hboth.2

theorem Follows.after (h : p.Follows id) {uses : List Use} (hfresh : ∀ use ∈ uses, ¬ use.Draws id) :
    (p.after uses).Follows id :=
  after_induction h.reachable h fun _ _ hq use huse => hq.use (hfresh use huse)

/-- The project belongs to the same file as long as it is not tied to another. -/
theorem path?_after (hp : p.document.Reachable) {uses : List Use}
    (hplaces : ∀ use ∈ uses, ¬ use.Places) : (p.after uses).path? = p.path? := by
  refine after_induction (P := fun q => q.path? = p.path?) hp rfl ?_
  intro q hreachable hq use huse
  rcases use_cases hreachable use with hkeeping | ⟨hplace, -⟩ | ⟨-, fresh, -, heq⟩
  · exact hkeeping.path?.trans hq
  · exact absurd hplace (hplaces use huse)
  · rw [heq, path?_dispose, hq]

/-- Nothing but disposing disposes a project. -/
theorem isDisposed_after (hp : p.document.Reachable) {uses : List Use}
    (hdisposes : ∀ use ∈ uses, ¬ use.Disposes) : (p.after uses).isDisposed = p.isDisposed := by
  refine after_induction (P := fun q => q.isDisposed = p.isDisposed) hp rfl ?_
  intro q hreachable hq use huse
  rcases use_cases hreachable use with hkeeping | ⟨-, path?, heq⟩ | ⟨hdispose, -⟩
  · exact hkeeping.isDisposed.trans hq
  · rw [heq]
    exact hq
  · exact absurd hdispose (hdisposes use huse)

/-- **A disposed project stays disposed.** -/
theorem isDisposed_after_of_disposed (hp : p.document.Reachable) (h : p.isDisposed = true)
    (uses : List Use) : (p.after uses).isDisposed = true := by
  refine after_induction (P := fun q => q.isDisposed = true) hp h ?_
  intro q hreachable hq use _
  rcases use_cases hreachable use with hkeeping | ⟨-, path?, heq⟩ | ⟨-, fresh, -, heq⟩
  · exact hkeeping.isDisposed.trans hq
  · rw [heq]
    exact hq
  · rw [heq]
    exact Workspace.isDisposed_dispose q fresh

/-! ## Disposed projects -/

/-- What can be told about a disposed project, and what cannot be done with it. -/
structure Spent (p : Project) : Prop where
  isDisposed : p.isDisposed = true
  dispose : ∀ fresh, p.dispose fresh = (false, p)
  defaultPropertyGroup? : p.defaultPropertyGroup? = none
  defaultItemGroup? : p.defaultItemGroup? = none
  buildToolsImport? : p.buildToolsImport? = none
  conditionalPropertyGroup : ∀ conditions,
    (conditionalPropertyGroup conditions).run.run p = (.error .disposed, p)
  save : ∀ host, p.save host = (.error .disposed, p, host)
  saveAs : ∀ path host, p.saveAs path host = (.error .disposed, p, host)
  /-- It is not copied, from whatever workspace and to whatever path, unless someone writes it. -/
  clone : ∀ {w : Workspace} {source : Handle} {borrow : Borrow} {path key : String}
    (overwrite : Bool), w.cell? source = some ⟨p, borrow⟩ → borrow ≠ .writer → path ≠ "" →
    w.key path = .ok key →
    (RegistryAction.clone source path overwrite).run.run w = (.error .disposed, w)

theorem clone_of_disposed (h : p.isDisposed = true) {w : Workspace} {source : Handle}
    {borrow : Borrow} {path key : String} (overwrite : Bool)
    (hcell : w.cell? source = some ⟨p, borrow⟩) (hborrow : borrow ≠ .writer) (hpath : path ≠ "")
    (hkey : w.key path = .ok key) :
    (RegistryAction.clone source path overwrite).run.run w = (.error .disposed, w) := by
  have hreadable : (w.cell? source).bind Cell.readable? = some p := by
    rw [hcell]
    cases borrow with
    | readers count => rfl
    | writer => exact absurd rfl hborrow
  have hsource : (RegistryAction.sourceOf source).run.run w = (.error .disposed, w) := by
    rw [RegistryAction.sourceOf, run_get_bind, hreadable]
    dsimp only
    rw [if_pos h]
    rfl
  have hnonempty : ¬ path.isEmpty = true := by simpa using hpath
  rw [RegistryAction.clone]
  dsimp only
  rw [if_neg hnonempty, run_bind_ok (RegistryAction.run_keyOf_ok hkey), run_bind_error hsource]

theorem Follows.spent (h : p.Follows id) (hdisposed : p.isDisposed = true) : p.Spent := by
  obtain ⟨hproperties, hitems, himport⟩ := h.places hdisposed
  constructor
  · exact hdisposed
  · exact dispose_of_disposed hdisposed
  · rw [defaultPropertyGroup?, hproperties]
    rfl
  · rw [defaultItemGroup?, hitems]
    rfl
  · rw [buildToolsImport?, himport]
    rfl
  · intro conditions
    have hlive : ensureLive.run.run p = (.error .disposed, p) := by
      rw [ensureLive, run_get_bind, if_pos hdisposed]
      rfl
    rw [Project.conditionalPropertyGroup, run_bind_error hlive]
  · intro host
    exact if_pos hdisposed
  · intro path host
    exact if_pos hdisposed
  · intro w source borrow path key overwrite hcell hborrow hpath hkey
    exact clone_of_disposed hdisposed overwrite hcell hborrow hpath hkey

/-- **Disposal is final.** Take a live project and anything that it is used for, in any order, where
no document that is made on the way gets the identity of its own.

* The first call of `dispose` finds something to release, unless a copy has taken the place of the
  project before, and whoever calls it leaves a disposed project.
* The file is the same until the document is tied to another.
* Once the project is disposed, it is and stays spent, and no reference that was handed out before
  can be used any more. -/
theorem Reachable.disposal_final (hp : p.Reachable) (hlive : p.isDisposed = false) {uses : List Use}
    (hfresh : ∀ use ∈ uses, ¬ use.Draws p.document.id) :
    ((∀ use ∈ uses, ¬ use.Disposes) → ∀ fresh, ((p.after uses).dispose fresh).1 = true) ∧
    (∀ fresh, ((p.after uses).dispose fresh).2.isDisposed = true) ∧
    (∀ more, (∀ use ∈ more, ¬ use.Places) → (p.after (uses ++ more)).path? = (p.after uses).path?) ∧
    ((p.after uses).isDisposed = true →
      (p.after uses).Spent ∧
      (∀ more, (p.after (uses ++ more)).isDisposed = true) ∧
      ∀ earlier later r, uses = earlier ++ later → (p.after earlier).isDisposed = false →
        (p.after earlier).document.HandsOut r →
        (p.after uses).document.resolve r = .error .foreignNode) := by
  have hfollows : p.Follows p.document.id :=
    ⟨hp.document, fun _ => rfl, fun hdisposed => absurd (hlive.symm.trans hdisposed) (by simp),
      fun hdisposed => absurd (hlive.symm.trans hdisposed) (by simp)⟩
  have hused := hfollows.after hfresh
  refine ⟨?_, ?_, ?_, ?_⟩
  · intro hdisposes fresh
    exact dispose_of_live ((isDisposed_after hp.document hdisposes).trans hlive) fresh
  · exact Workspace.isDisposed_dispose (p.after uses)
  · intro more hplaces
    rw [after_append, path?_after hused.reachable hplaces]
  · intro hdisposed
    refine ⟨hused.spent hdisposed, ?_, ?_⟩
    · intro more
      rw [after_append]
      exact isDisposed_after_of_disposed hused.reachable hdisposed more
    · intro earlier later r hsplit hthen hout
      have hearlier : (p.after earlier).Follows p.document.id := by
        refine hfollows.after ?_
        intro use huse
        exact hfresh use (hsplit ▸ List.mem_append_left later huse)
      -- the reference carries the identity that the document had then
      obtain ⟨e, hresolve⟩ := hout.resolve hearlier.reachable
      have hid : r.document = p.document.id :=
        (Document.resolve_eq_ok_iff.mp hresolve).1.trans (hearlier.live hthen)
      have hforeign : r.document ≠ (p.after uses).document.id := by
        rw [hid]
        exact (hused.foreign hdisposed).symm
      exact if_pos hforeign

/-- A project with an identifier. -/
def identified : Project :=
  let group : Element := ⟨1, ⟨propertyGroupElement, []⟩, .ofElement ⟨2, ⟨"ProjectGuid", []⟩, .nil⟩⟩
  let content : DocumentContent := ⟨⟨⟨projectElement, []⟩, .ofElement group, 3⟩, none, []⟩
  .ofDocument { Document.ofContent ⟨7⟩ content with path? := some "/w/A.proj" } {}

/-- A workspace in which it is loaded. -/
def identifiedAlone : Workspace where
  host := ⟨⟨[]⟩, "/w", "/home", none⟩
  cells := [⟨identified, .free⟩]
  nextDocument := 8
  registry := ⟨{}, [("/w/A.proj", ⟨0⟩)]⟩

/-- A copy takes its place after it has been changed; it is tied to another file and gets a new
group later. -/
theorem disposal_final_overwritten :
    let change : Use := .work (.change (.setProperty ⟨⟨7⟩, 1⟩ "Debug" "1"))
    let uses : List Use := [change, .copy identifiedAlone ⟨0⟩ "A.proj" true,
      .work (.change .addPropertyGroup), .work (.place "/w/B.proj")]
    identified.Reachable ∧ identified.defaultPropertyGroup?.isSome ∧
      ((identified.after [change]).dispose ⟨9⟩).1 = true ∧
      (identified.after uses).Spent ∧ (identified.after uses).path? = some "/w/B.proj" ∧
      (identified.after uses).document.resolve ⟨⟨7⟩, 1⟩ = .error .foreignNode := by
  intro change uses
  have hparse : Document.parse ⟨7⟩ "<Project><PropertyGroup><ProjectGuid/></PropertyGroup></Project>"
      = .ok { identified.document with path? := none } := by
    decide +kernel
  have hreachable : identified.Reachable := .ofDocument (.placed _ (.parsed hparse)) {}
  have hfresh : ∀ use ∈ uses, ¬ use.Draws ⟨7⟩ := by
    simp [uses, change, Use.Draws, identifiedAlone]
  have hchange : ∀ use ∈ [change], ¬ use.Draws ⟨7⟩ := by
    simp [change, Use.Draws]
  obtain ⟨hfirst, -, -, -⟩ := hreachable.disposal_final rfl hchange
  obtain ⟨-, -, -, hspent⟩ := hreachable.disposal_final rfl hfresh
  have hdisposed : (identified.after uses).isDisposed = true := by decide +kernel
  obtain ⟨hspent, -, hforeign⟩ := hspent hdisposed
  refine ⟨hreachable, by decide +kernel, hfirst (by simp [change, Use.Disposes]) ⟨9⟩, hspent,
    by decide +kernel, hforeign [] uses _ rfl rfl ?_⟩
  exact .element (e := ⟨1, ⟨propertyGroupElement, []⟩, .ofElement ⟨2, ⟨"ProjectGuid", []⟩, .nil⟩⟩)
    (by decide +kernel)

end Project

end BuildProject
