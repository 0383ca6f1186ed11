import BuildProject.Proofs.Project.Rebase
import BuildProject.Proofs.Registry.WellFormed

/-!
# What the operations of the registry do

Unloading takes keys out; loading and copying first make room at a key and then register a new
project there. `LoadOutcome` and `CloneOutcome` list every way in which they can end. Copying makes
room only when nothing behind it can fail: rebasing the sources of a copy always succeeds.
-/

namespace BuildProject

namespace Workspace

variable {w : Workspace}

/-! ## Unloading a key -/

theorem unloadKey_of_none {key : String} (h : w.registry.find? key = none) :
    w.unloadKey key = (false, w) := by
  rw [unloadKey, h]

theorem unloadKey_of_some {key : String} {handle : Handle}
    (h : w.registry.find? key = some handle) :
    w.unloadKey key
      = (true, ({ w with registry := w.registry.erase key } : Workspace).release handle) := by
  rw [unloadKey, h]

theorem unloadKey_found (w : Workspace) (key : String) :
    (w.unloadKey key).1 = (w.registry.find? key).isSome := by
  cases hfind : w.registry.find? key with
  | none => rw [unloadKey_of_none hfind, Option.isSome_none]
  | some handle => rw [unloadKey_of_some hfind, Option.isSome_some]

theorem find?_unloadKey (w : Workspace) (key : String) :
    (w.unloadKey key).2.registry.find? = Function.update w.registry.find? key none := by
  cases hfind : w.registry.find? key with
  | none => rw [unloadKey_of_none hfind, ← hfind, Function.update_eq_self]
  | some handle => rw [unloadKey_of_some hfind, registry_release, Registry.find?_erase]

theorem registry_unloadKey (w : Workspace) (key : String) :
    (w.unloadKey key).2.registry = w.registry.erase key := by
  cases hfind : w.registry.find? key with
  | none => rw [unloadKey_of_none hfind, Registry.erase_of_find?_eq_none hfind]
  | some handle => rw [unloadKey_of_some hfind, registry_release]

/-- Unloading a key leaves all projects but its own as they are. -/
theorem cell?_unloadKey_of_ne {key : String} {handle : Handle}
    (h : w.registry.find? key ≠ some handle) :
    (w.unloadKey key).2.cell? handle = w.cell? handle := by
  cases hfind : w.registry.find? key with
  | none => rw [unloadKey_of_none hfind]
  | some found =>
    have hne : handle ≠ found := by
      rintro rfl
      exact h hfind
    rw [unloadKey_of_some hfind, cell?_release_of_ne _ hne]
    rfl

theorem conventions_unloadKey (w : Workspace) (key : String) :
    (w.unloadKey key).2.registry.conventions = w.registry.conventions := by
  cases hfind : w.registry.find? key with
  | none => rw [unloadKey_of_none hfind]
  | some handle =>
    rw [unloadKey_of_some hfind, registry_release]
    rfl

theorem host_unloadKey (w : Workspace) (key : String) : (w.unloadKey key).2.host = w.host := by
  cases hfind : w.registry.find? key with
  | none => rw [unloadKey_of_none hfind]
  | some handle => rw [unloadKey_of_some hfind, host_release]

theorem extends_unloadKey (w : Workspace) (key : String) : w.Extends (w.unloadKey key).2 := by
  cases hfind : w.registry.find? key with
  | none =>
    rw [unloadKey_of_none hfind]
    exact .refl w
  | some handle =>
    rw [unloadKey_of_some hfind]
    obtain ⟨halive, hdisposed⟩ := extends_release { w with registry := w.registry.erase key } handle
    exact ⟨halive, hdisposed⟩

theorem isFree_unloadKey (w : Workspace) (key : String) (handle : Handle) :
    (w.unloadKey key).2.isFree handle = w.isFree handle := by
  cases hfind : w.registry.find? key with
  | none => rw [unloadKey_of_none hfind]
  | some found =>
    rw [unloadKey_of_some hfind, isFree_release]
    rfl

/-- What is unloaded while nobody works on it is disposed. -/
theorem disposed_unloadKey (hw : w.WellFormed) {key : String} {handle : Handle}
    (hfind : w.registry.find? key = some handle) (hfree : w.isFree handle = true) :
    (w.unloadKey key).2.Disposed handle := by
  rw [unloadKey_of_some hfind]
  exact disposed_release (hw.alive key handle hfind) hfree

/-- The project of a key can be replaced: there is none, or nobody works on it. -/
def Replaceable (w : Workspace) (key : String) : Prop :=
  ∀ handle, w.registry.find? key = some handle → w.isFree handle = true

/-- Whatever was registered still is, has been disposed, or someone works on it. -/
def Accounts (w w' : Workspace) : Prop :=
  ∀ key handle, w.registry.find? key = some handle →
    w'.registry.find? key = some handle ∨ w'.Disposed handle ∨ w.isFree handle = false

theorem accounts_unloadKey (hw : w.WellFormed) (key : String) : w.Accounts (w.unloadKey key).2 := by
  intro other handle hother
  by_cases hsame : other = key
  · subst hsame
    cases hfree : w.isFree handle with
    | true => exact .inr (.inl (disposed_unloadKey hw hother hfree))
    | false => exact .inr (.inr rfl)
  · rw [find?_unloadKey, Function.update_of_ne hsame]
    exact .inl hother

/-! ## Unloading everything -/

/-- The spelling of a key is its own key. -/
theorem unload_of_normal {key : String} (h : IsNormalPath key) :
    w.unload key = w.unloadKey key := by
  rw [unload, Workspace.key, Host.normalize, normalizePath_of_normal h]

/-- What is left when keys have been unloaded one after the other. -/
structure Unloaded (w : Workspace) (keys : List String) (w' : Workspace) : Prop where
  wellFormed : w'.WellFormed
  extends' : w.Extends w'
  isFree : ∀ handle, w'.isFree handle = w.isFree handle
  find? : ∀ key, w'.registry.find? key = if key ∈ keys then none else w.registry.find? key
  accounts : w.Accounts w'

theorem unloadEach_keys (hw : w.WellFormed) {keys : List String} (hnodup : keys.Nodup)
    (hkeys : ∀ key ∈ keys, (w.registry.find? key).isSome) :
    (w.unloadEach keys).1 = keys.length ∧ w.Unloaded keys (w.unloadEach keys).2 := by
  induction keys generalizing w with
  | nil =>
    refine ⟨rfl, hw, .refl w, fun _ => rfl, fun _ => rfl, fun _ _ hfind => .inl hfind⟩
  | cons key keys ih =>
    obtain ⟨hnot, hnodup⟩ := List.nodup_cons.mp hnodup
    obtain ⟨hkey, hkeys⟩ := List.forall_mem_cons.mp hkeys
    obtain ⟨handle, hhandle⟩ := Option.isSome_iff_exists.mp hkey
    have hunload : w.unload key = w.unloadKey key := unload_of_normal (hw.normal key handle hhandle)
    -- the other keys are still registered once this one is gone
    have hothers : ∀ other ∈ keys, ((w.unloadKey key).2.registry.find? other).isSome := by
      intro other hother
      have hne : other ≠ key := by
        rintro rfl
        exact hnot hother
      rw [find?_unloadKey, Function.update_of_ne hne]
      exact hkeys other hother
    obtain ⟨hcount, hrest⟩ := ih (hw.unloadKey key) hnodup hothers
    have hfound : (w.unloadKey key).1 = true := by rw [unloadKey_found, hkey]
    rw [unloadEach, hunload]
    dsimp only
    rw [hfound, hcount]
    refine ⟨rfl, hrest.wellFormed, (extends_unloadKey w key).trans hrest.extends', ?_, ?_, ?_⟩
    · intro other
      rw [hrest.isFree, isFree_unloadKey]
    · intro other
      rw [hrest.find?, find?_unloadKey]
      by_cases hsame : other = key
      · simp [hsame]
      · simp [hsame]
    · intro other found hother
      rcases accounts_unloadKey hw key other found hother with hstill | hdisposed | hbusy
      · rw [← isFree_unloadKey w key]
        exact hrest.accounts other found hstill
      · exact .inr (.inl (hrest.extends'.disposed found hdisposed))
      · exact .inr (.inr hbusy)

/-- **Unloading everything** counts the keys and leaves none. -/
theorem unloadAll_spec (hw : w.WellFormed) :
    w.unloadAll.1 = w.registry.keys.length ∧ w.unloadAll.2.registry.find? = (fun _ => none) ∧
      w.unloadAll.2.WellFormed ∧ w.Extends w.unloadAll.2 ∧ w.Accounts w.unloadAll.2 := by
  obtain ⟨hcount, hunloaded⟩ := unloadEach_keys hw hw.nodup fun key => Registry.mem_keys_iff.mp
  refine ⟨hcount, ?_, hunloaded.wellFormed, hunloaded.extends', hunloaded.accounts⟩
  funext key
  show (w.unloadEach w.registry.keys).2.registry.find? key = none
  rw [hunloaded.find?]
  split
  · rfl
  · next hnot => simpa using mt Registry.mem_keys_iff.mpr hnot

end Workspace

namespace RegistryAction

open Workspace

variable {w : Workspace} {path key : String}

/-! ## Loading -/

theorem run_keyOf_ok (h : w.key path = .ok key) : (keyOf path).run.run w = (.ok key, w) := by
  rw [keyOf, run_get_bind, h]
  rfl

theorem run_keyOf_error {fault : FileFault} (h : w.key path = .error fault) :
    (keyOf path).run.run w = (.error (.path fault), w) := by
  rw [keyOf, run_get_bind, h]
  rfl

theorem run_ensureReplaceable (h : w.Replaceable key) :
    (ensureReplaceable key).run.run w = (.ok ⟨⟩, w) := by
  rw [ensureReplaceable, run_get_bind]
  cases hfind : w.registry.find? key with
  | none => rfl
  | some handle =>
    have hfree := h handle hfind
    simp only [hfree]
    rfl

theorem run_ensureReplaceable_error {handle : Handle} (hfind : w.registry.find? key = some handle)
    (hbusy : w.isFree handle = false) :
    (ensureReplaceable key).run.run w = (.error (.inUse key), w) := by
  rw [ensureReplaceable, run_get_bind, hfind]
  simp only [hbusy]
  rfl

theorem run_freshDocument (w : Workspace) :
    freshDocument.run.run w = (.ok w.freshDocument.1, w.freshDocument.2) := rfl

/-- How loading ends. -/
inductive LoadOutcome (w : Workspace) (path : String) :
    Except ProjectError Handle → Workspace → Prop where
  | pathFault {fault : FileFault} (hkey : w.key path = .error fault) :
    LoadOutcome w path (.error (.path fault)) w
  | inUse {key : String} (hkey : w.key path = .ok key) :
    LoadOutcome w path (.error (.inUse key)) w
  | documentFault {key : String} {fault : DocumentError} (hkey : w.key path = .ok key)
    (hfree : w.Replaceable key) :
    LoadOutcome w path (.error (.document fault)) (w.unloadKey key).2.freshDocument.2
  | loaded {key : String} {project : Project} (hkey : w.key path = .ok key)
    (hfree : w.Replaceable key)
    (hload : Project.load ⟨(w.unloadKey key).2.nextDocument⟩ w.registry.conventions w.host key
      = .ok project) :
    LoadOutcome w path (.ok ⟨(w.unloadKey key).2.cells.length⟩)
      ((w.unloadKey key).2.freshDocument.2.withProject key project)

theorem loadOutcome (w : Workspace) (path : String) :
    LoadOutcome w path ((load path).run.run w).1 ((load path).run.run w).2 := by
  rw [load]
  cases hkey : w.key path with
  | error fault =>
    rw [run_bind_error (run_keyOf_error hkey)]
    exact .pathFault hkey
  | ok key =>
    rw [run_bind_ok (run_keyOf_ok hkey)]
    by_cases hfree : w.Replaceable key
    · rw [run_bind_ok (run_ensureReplaceable hfree), run_bind_ok (run_modify _ _),
        run_bind_ok (run_freshDocument _), run_get_bind]
      have hconventions : (w.unloadKey key).2.freshDocument.2.registry.conventions
          = w.registry.conventions := conventions_unloadKey w key
      have hhost : (w.unloadKey key).2.freshDocument.2.host = w.host := host_unloadKey w key
      rw [hconventions, hhost]
      cases hload : Project.load (w.unloadKey key).2.freshDocument.1 w.registry.conventions w.host
          key with
      | ok project => exact .loaded hkey hfree hload
      | error fault =>
        obtain ⟨f, rfl⟩ := Project.error_of_load hload
        exact .documentFault hkey hfree
    · simp only [Replaceable, not_forall] at hfree
      obtain ⟨handle, hfind, hbusy⟩ := hfree
      rw [run_bind_error (run_ensureReplaceable_error hfind (by simpa using hbusy))]
      exact .inUse hkey

/-! ## Copying -/

/-- A project that can be copied, and where it is. -/
structure Source (w : Workspace) (source : Handle) (p : Project) (directory : String) : Prop where
  readable : (w.cell? source).bind Cell.readable? = some p
  live : p.isDisposed = false
  directory : p.directory? = some directory

theorem Source.exists_cell {source : Handle} {p : Project} {directory : String}
    (h : Source w source p directory) : ∃ cell, w.cell? source = some cell ∧ cell.project = p := by
  obtain ⟨cell, hcell, hread⟩ := Option.bind_eq_some_iff.mp h.readable
  refine ⟨cell, hcell, ?_⟩
  rw [Cell.readable?] at hread
  split at hread
  · exact Option.some.inj hread
  · contradiction

theorem Source.document_reachable {source : Handle} {p : Project} {directory : String}
    (h : Source w source p directory) (hw : w.Reachable) : p.document.Reachable := by
  obtain ⟨cell, hcell, rfl⟩ := h.exists_cell
  exact hw source cell hcell

theorem Source.reachable {source : Handle} {p : Project} {directory : String}
    (h : Source w source p directory) (hw : w.WellFormed) : p.document.Reachable :=
  h.document_reachable hw.reachable

theorem run_sourceOf (w : Workspace) (source : Handle) :
    (∃ fault, (sourceOf source).run.run w = (.error fault, w)) ∨
      ∃ p directory, Source w source p directory ∧ (sourceOf source).run.run w
        = (.ok (p.document.copy w.freshDocument.1, directory), w.freshDocument.2) := by
  rw [sourceOf, run_get_bind]
  cases hread : (w.cell? source).bind Cell.readable? with
  | none => exact .inl ⟨_, rfl⟩
  | some p =>
    dsimp only
    split
    · exact .inl ⟨_, rfl⟩
    · next hlive =>
      cases hdirectory : p.directory? with
      | none => exact .inl ⟨_, rfl⟩
      | some directory =>
        exact .inr ⟨p, directory, ⟨hread, by simpa using hlive, hdirectory⟩, rfl⟩

theorem run_clearTarget (w : Workspace) (hkey : IsNormalPath key) (overwrite : Bool) :
    (∃ fault, (clearTarget key overwrite).run.run w = (.error fault, w)) ∨
      w.Replaceable key ∧
        (clearTarget key overwrite).run.run w = (.ok ⟨⟩, (w.unloadKey key).2) := by
  cases overwrite with
  | true =>
    rw [clearTarget, if_pos rfl]
    by_cases hfree : w.Replaceable key
    · refine .inr ⟨hfree, ?_⟩
      rw [run_bind_ok (run_ensureReplaceable hfree), run_modify, unload_of_normal hkey]
    · simp only [Replaceable, not_forall] at hfree
      obtain ⟨handle, hfind, hbusy⟩ := hfree
      exact .inl ⟨_, run_bind_error (run_ensureReplaceable_error hfind (by simpa using hbusy))⟩
  | false =>
    rw [clearTarget, if_neg Bool.false_ne_true, run_get_bind]
    split
    · exact .inl ⟨_, rfl⟩
    · next hnone =>
      split
      · exact .inl ⟨_, rfl⟩
      · have hfind : w.registry.find? key = none := by simpa using hnone
        refine .inr ⟨fun handle hhandle => ?_, ?_⟩
        · rw [hfind] at hhandle
          contradiction
        · rw [unloadKey_of_none hfind]
          rfl

/-- The copy of a project for a key, before its sources are rebased. -/
def copyFor (w : Workspace) (p : Project) (key : String) : Project :=
  .ofDocument { p.document.copy w.freshDocument.1 with path? := some key } w.registry.conventions

/-- The copy belongs to a file in the directory of its key. -/
theorem directory?_copyFor (w : Workspace) (p : Project) (key : String) :
    (copyFor w p key).directory? = some (parentPath key) := rfl

theorem wellFormed_copyFor {p : Project} (hp : p.document.tree.WellFormed) (w : Workspace)
    (key : String) : (copyFor w p key).document.tree.WellFormed := hp

/-- How copying ends. -/
inductive CloneOutcome (w : Workspace) (source : Handle) (path : String) :
    Except ProjectError Handle → Workspace → Prop where
  | refused (fault : ProjectError) : CloneOutcome w source path (.error fault) w
  | refusedLate (fault : ProjectError) :
    CloneOutcome w source path (.error fault) w.freshDocument.2
  | cloned {key : String} {p : Project} {directory : String} {project : Project}
    (hkey : w.key path = .ok key) (hsource : Source w source p directory)
    (hfree : w.Replaceable key)
    (hrebase : (Project.rebaseSources directory).run.run (copyFor w p key) = (.ok (), project)) :
    CloneOutcome w source path (.ok ⟨(w.freshDocument.2.unloadKey key).2.cells.length⟩)
      ((w.freshDocument.2.unloadKey key).2.withProject key project)

/-- Nothing fails behind the point where the target has been unloaded. -/
theorem cloneOutcome (hw : w.Reachable) (source : Handle) (path : String) (overwrite : Bool) :
    CloneOutcome w source path ((clone source path overwrite).run.run w).1
      ((clone source path overwrite).run.run w).2 := by
  rw [clone]
  dsimp only
  split
  · exact .refused .emptyPath
  cases hkey : w.key path with
  | error fault =>
    rw [run_bind_error (run_keyOf_error hkey)]
    exact .refused _
  | ok key =>
    rw [run_bind_ok (run_keyOf_ok hkey)]
    have hnormal : IsNormalPath key := isNormalPath_of_normalizePath hkey
    rcases run_sourceOf w source with ⟨fault, hrun⟩ | ⟨p, directory, hsource, hrun⟩
    · rw [run_bind_error hrun]
      exact .refused fault
    · rw [run_bind_ok hrun]
      dsimp only
      rcases run_clearTarget w.freshDocument.2 hnormal overwrite with
        ⟨fault, hclear⟩ | ⟨hfree, hclear⟩
      · rw [run_bind_error hclear]
        exact .refusedLate fault
      · rw [run_bind_ok hclear, run_get_bind]
        have hconventions : (w.freshDocument.2.unloadKey key).2.registry.conventions
            = w.registry.conventions := conventions_unloadKey _ key
        rw [hconventions]
        have hcopy := wellFormed_copyFor (hsource.document_reachable hw).wellFormed w key
        obtain ⟨revision, hrebase⟩ :=
          Project.run_rebaseSources hcopy (directory?_copyFor w p key) directory
        have hcloned := CloneOutcome.cloned hkey hsource hfree hrebase
        rw [copyFor] at hrebase
        rw [hrebase]
        exact hcloned

/-- What there is after copying: a new project that is the copy with its sources rebased. -/
theorem cloned_of_clone {w' : Workspace} {source handle : Handle} {overwrite : Bool}
    (hw : w.Reachable) (h : (clone source path overwrite).run.run w = (.ok handle, w')) :
    ∃ key p directory copy, w.key path = .ok key ∧ Source w source p directory ∧
      (Project.rebaseSources directory).run.run (copyFor w p key) = (.ok (), copy) ∧
      w'.cell? handle = some ⟨copy, .free⟩ ∧
      w' = (w.freshDocument.2.unloadKey key).2.withProject key copy := by
  have houtcome := cloneOutcome hw source path overwrite
  rw [h] at houtcome
  cases houtcome with
  | @cloned key p directory copy hkey hsource hfree hrebase =>
    exact ⟨key, p, directory, copy, hkey, hsource, hrebase, cell?_addProject_new _ copy, rfl⟩

end RegistryAction

end BuildProject
