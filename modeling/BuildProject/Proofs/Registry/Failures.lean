import BuildProject.Proofs.Registry.Operations

/-!
# Failed operations

An operation of the registry that fails leaves everything as it was, but for one case: loading makes
room before it reads the file, so a file that cannot be loaded takes the project that was loaded
for it before out of the registry (`OnlyUnloaded`). Copying has nothing to lose, as it refuses what
it has to refuse before it makes room and nothing behind that can fail.
-/

namespace BuildProject

namespace Workspace

/-- The same projects, in the same registry, on the same host. Only identities for documents may
have been handed out. -/
structure Same (w w' : Workspace) : Prop where
  registry : w'.registry = w.registry
  cells : w'.cells = w.cells
  host : w'.host = w.host

theorem Same.refl (w : Workspace) : w.Same w :=
  ⟨rfl, rfl, rfl⟩

theorem same_freshDocument (w : Workspace) : w.Same w.freshDocument.2 :=
  ⟨rfl, rfl, rfl⟩

/-- A key has been taken out of the registry and its project disposed; all else is the same. -/
structure OnlyUnloaded (w : Workspace) (key : String) (w' : Workspace) : Prop where
  registry : w'.registry = w.registry.erase key
  bound : ∀ handle, w.registry.find? key = some handle → ∃ fresh,
    w'.cell? handle = (w.cell? handle).map fun cell =>
      { cell with project := (cell.project.dispose fresh).2 }
  others : ∀ handle, w.registry.find? key ≠ some handle → w'.cell? handle = w.cell? handle
  host : w'.host = w.host

variable {w : Workspace} {key : String}

/-- The project of a key is disposed when nobody works on it. -/
theorem cell?_unloadKey_self {handle : Handle} (hfind : w.registry.find? key = some handle)
    (hfree : w.Replaceable key) : ∃ fresh,
    (w.unloadKey key).2.cell? handle = (w.cell? handle).map fun cell =>
      { cell with project := (cell.project.dispose fresh).2 } := by
  rw [unloadKey_of_some hfind]
  have hsame : ({ w with registry := w.registry.erase key } : Workspace).cell? handle
      = w.cell? handle := rfl
  cases hcell : w.cell? handle with
  | none =>
    refine ⟨w.freshDocument.1, ?_⟩
    rw [release, hsame, hcell]
    exact hcell
  | some cell =>
    have hborrow : cell.borrow = .free := by
      by_contra hnot
      have hwritable := hfree handle hfind
      simp [isFree, hcell, Cell.writable?, hnot] at hwritable
    exact ⟨_, cell?_release_of_free (hsame.trans hcell) hborrow⟩

theorem onlyUnloaded_unloadKey (hfree : w.Replaceable key) :
    w.OnlyUnloaded key (w.unloadKey key).2 where
  registry := registry_unloadKey w key
  bound := fun _ hfind => cell?_unloadKey_self hfind hfree
  others := fun _ hne => cell?_unloadKey_of_ne hne
  host := host_unloadKey w key

/-- An identity that is handed out later makes no difference. -/
theorem OnlyUnloaded.freshDocument {w' : Workspace} (h : w.OnlyUnloaded key w') :
    w.OnlyUnloaded key w'.freshDocument.2 :=
  ⟨h.registry, h.bound, h.others, h.host⟩

end Workspace

namespace RegistryAction

open Workspace

variable {w w' : Workspace} {source : Handle} {path : String} {overwrite : Bool}
  {fault : ProjectError}

/-- **Copying that fails changes nothing.** -/
theorem same_of_clone_error (hw : w.Reachable)
    (h : (clone source path overwrite).run.run w = (.error fault, w')) : w.Same w' := by
  have houtcome := cloneOutcome hw source path overwrite
  rw [h] at houtcome
  cases houtcome with
  | refused fault => exact .refl _
  | refusedLate fault => exact same_freshDocument _

/-- **Loading that fails** changes nothing if it is refused. If the file cannot be loaded, the
project that was loaded for it is gone. -/
theorem load_eq_error (h : (load path).run.run w = (.error fault, w')) :
    ((∃ f, fault = .path f) ∨ ∃ key, fault = .inUse key) ∧ w.Same w' ∨
      ∃ f key, fault = .document f ∧ w.key path = .ok key ∧ w.OnlyUnloaded key w' := by
  have houtcome := loadOutcome w path
  rw [h] at houtcome
  cases houtcome with
  | pathFault hkey => exact .inl ⟨.inl ⟨_, rfl⟩, .refl _⟩
  | inUse hkey => exact .inl ⟨.inr ⟨_, rfl⟩, .refl _⟩
  | documentFault hkey hfree =>
    exact .inr ⟨_, _, rfl, hkey, (onlyUnloaded_unloadKey hfree).freshDocument⟩

/-- A project that is not loaded yet is loaded. -/
theorem run_getOrLoad_of_none (h : w.get? path = none) :
    (getOrLoad path).run.run w = (load path).run.run w := by
  rw [getOrLoad, run_get_bind, h]

/-- **Asking for a project and failing changes nothing**, as nothing was loaded for the path. -/
theorem same_of_getOrLoad_error (h : (getOrLoad path).run.run w = (.error fault, w')) :
    w.Same w' := by
  cases hget : w.get? path with
  | some handle =>
    rw [getOrLoad, run_get_bind, hget] at h
    exact absurd (Prod.mk.inj h).1 (by simp)
  | none =>
    rw [run_getOrLoad_of_none hget] at h
    rcases load_eq_error h with ⟨-, hsame⟩ | ⟨f, key, -, hkey, hunloaded⟩
    · exact hsame
    · have hfind : w.registry.find? key = none := by rwa [get?, hkey] at hget
      refine ⟨?_, ?_, hunloaded.host⟩
      · rw [hunloaded.registry, Registry.erase_of_find?_eq_none hfind]
      · refine List.ext_getElem? fun index => ?_
        refine hunloaded.others ⟨index⟩ fun hsome => ?_
        rw [hfind] at hsome
        contradiction

/-- **What failures leave.** Copying that fails changes nothing, whoever works on the projects.
Loading that is refused changes nothing; if the file cannot be read or does not say a project, the
project that was loaded for the path is taken out of the registry and disposed, and nothing else
changes. Asking for a project and failing changes nothing. -/
theorem unchanged_of_error (hw : w.Reachable) :
    (∀ source path overwrite fault w',
      (clone source path overwrite).run.run w = (.error fault, w') → w.Same w') ∧
    (∀ path fault w', (load path).run.run w = (.error fault, w') →
      ((∃ f, fault = .path f) ∨ ∃ key, fault = .inUse key) ∧ w.Same w' ∨
        ∃ f key, fault = .document f ∧ w.key path = .ok key ∧ w.OnlyUnloaded key w') ∧
    ∀ path fault w', (getOrLoad path).run.run w = (.error fault, w') → w.Same w' :=
  ⟨fun _ _ _ _ _ h => same_of_clone_error hw h, fun _ _ _ h => load_eq_error h,
    fun _ _ _ h => same_of_getOrLoad_error h⟩

/-- A workspace with two loaded projects whose files are gone; someone reads the second. -/
def sharedTarget : Workspace where
  host := ⟨⟨[]⟩, "/w", "/home", none⟩
  cells :=
    [⟨.ofDocument { Document.empty ⟨0⟩ with path? := some "/w/A.proj" } {}, .free⟩,
      ⟨.ofDocument { Document.empty ⟨1⟩ with path? := some "/w/B.proj" } {}, .readers 1⟩]
  nextDocument := 2
  registry := ⟨{}, [("/w/B.proj", ⟨1⟩), ("/w/A.proj", ⟨0⟩)]⟩

/-- The second cannot be overwritten by a copy of the first, which is still there afterwards;
loading the first again loses it. -/
theorem unchanged_of_error_shared : sharedTarget.Reachable ∧
    (∃ w', (clone ⟨0⟩ "B.proj" true).run.run sharedTarget = (.error (.inUse "/w/B.proj"), w') ∧
      sharedTarget.Same w') ∧
    (∃ f w', (load "A.proj").run.run sharedTarget = (.error (.document f), w') ∧
      sharedTarget.OnlyUnloaded "/w/A.proj" w') ∧
    ∃ fault w', (getOrLoad "C.proj").run.run sharedTarget = (.error fault, w') ∧
      sharedTarget.Same w' := by
  have hreachable : sharedTarget.Reachable := by
    intro handle cell hcell
    have hmem : cell ∈ sharedTarget.cells := List.mem_of_getElem? hcell
    rcases List.mem_pair.mp hmem with rfl | rfl
    · exact .placed _ (.empty _)
    · exact .placed _ (.empty _)
  obtain ⟨hclone, hload, hget⟩ := unchanged_of_error hreachable
  obtain ⟨w₁, hcloned⟩ : ∃ w', (clone ⟨0⟩ "B.proj" true).run.run sharedTarget
      = (.error (.inUse "/w/B.proj"), w') := exists_run_eq (by decide +kernel)
  obtain ⟨w₂, hloaded⟩ : ∃ w', (load "A.proj").run.run sharedTarget
      = (.error (.document (.file .notFound)), w') := exists_run_eq (by decide +kernel)
  obtain ⟨w₃, hgot⟩ : ∃ w', (getOrLoad "C.proj").run.run sharedTarget
      = (.error (.document (.file .notFound)), w') := exists_run_eq (by decide +kernel)
  refine ⟨hreachable, ⟨w₁, hcloned, hclone _ _ _ _ _ hcloned⟩, ⟨_, w₂, hloaded, ?_⟩,
    ⟨_, w₃, hgot, hget _ _ _ hgot⟩⟩
  rcases hload _ _ _ hloaded with ⟨hrefused, -⟩ | ⟨f, key, -, hkey, hunloaded⟩
  · simp at hrefused
  · have hnormal : sharedTarget.key "A.proj" = .ok "/w/A.proj" := by decide +kernel
    rw [hnormal, Except.ok.injEq] at hkey
    exact hkey ▸ hunloaded

end RegistryAction

end BuildProject
