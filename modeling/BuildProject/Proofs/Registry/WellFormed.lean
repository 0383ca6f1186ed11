import BuildProject.Registry
import BuildProject.Proofs.Files.NormalForm
import BuildProject.Proofs.Project.Reachable

/-!
# Well-formed workspaces

The registry of a well-formed workspace leads from normal paths to projects in memory, and never
from two paths to one project. Every operation of the registry is made of three changes that keep
this: an identity is handed out, a key is unloaded, a new project is registered.

Projects in memory stay there for good, and a disposed one stays disposed (`Extends`).
-/

namespace BuildProject

namespace Registry

theorem find?_erase (r : Registry) (key : String) :
    (r.erase key).find? = Function.update r.find? key none := by
  funext other
  by_cases hother : other = key
  · subst hother
    rw [Function.update_self]
    exact Table.find?_erase_self _ _
  · rw [Function.update_of_ne hother]
    exact Table.find?_erase_of_ne _ hother

theorem find?_insert (r : Registry) (key : String) (handle : Handle) :
    (r.insert key handle).find? = Function.update r.find? key (some handle) := by
  funext other
  by_cases hother : other = key
  · subst hother
    rw [Function.update_self]
    exact Table.find?_insert_self _ _ _
  · rw [Function.update_of_ne hother]
    exact Table.find?_insert_of_ne _ _ hother

/-- Taking out a key that is not there changes nothing. -/
theorem erase_of_find?_eq_none {r : Registry} {key : String} (h : r.find? key = none) :
    r.erase key = r := by
  rw [find?, Table.find?, List.lookup_eq_none_iff] at h
  have hsame : r.handles.erase key = r.handles := by
    refine List.filter_eq_self.mpr fun e he => ?_
    rw [bne_iff_ne]
    exact Ne.symm (bne_iff_ne.mp (h e he))
  rw [erase, hsame]

theorem mem_keys_iff {r : Registry} {key : String} : key ∈ r.keys ↔ (r.find? key).isSome := by
  rw [Option.isSome_iff_ne_none, Ne, Registry.find?, Table.find?, List.lookup_eq_none_iff]
  simp only [keys, Table.keys, List.mem_map, bne_iff_ne, not_forall, not_not, exists_prop]
  constructor
  · rintro ⟨e, he, heq⟩
    exact ⟨e, he, heq.symm⟩
  · rintro ⟨e, he, heq⟩
    exact ⟨e, he, heq.symm⟩

end Registry

namespace Workspace

/-! ## Projects in memory -/

/-- There is a project behind the handle, and it has been disposed. -/
def Disposed (w : Workspace) (handle : Handle) : Prop :=
  ∃ cell, w.cell? handle = some cell ∧ cell.project.isDisposed

/-- The projects of one workspace are still there in another, the disposed ones disposed. -/
structure Extends (w w' : Workspace) : Prop where
  alive : ∀ handle, (w.cell? handle).isSome → (w'.cell? handle).isSome
  disposed : ∀ handle, w.Disposed handle → w'.Disposed handle

theorem Extends.refl (w : Workspace) : w.Extends w :=
  ⟨fun _ h => h, fun _ h => h⟩

theorem Extends.trans {w w' w'' : Workspace} (h : w.Extends w') (h' : w'.Extends w'') :
    w.Extends w'' :=
  ⟨fun handle halive => h'.alive handle (h.alive handle halive),
    fun handle hdisposed => h'.disposed handle (h.disposed handle hdisposed)⟩

theorem extends_freshDocument (w : Workspace) : w.Extends w.freshDocument.2 :=
  ⟨fun _ h => h, fun _ h => h⟩

theorem cell?_setProject (w : Workspace) (handle other : Handle) (project : Project) :
    (w.setProject handle project).cell? other
      = if other = handle then (w.cell? other).map fun cell => { cell with project }
        else w.cell? other := by
  show (w.cells.modify handle.index _)[other.index]? = _
  rw [List.getElem?_modify]
  by_cases hsame : other = handle
  · rw [if_pos hsame, hsame, cell?]
    simp
  · have hindex : handle.index ≠ other.index := fun heq =>
      hsame (congrArg Handle.mk heq.symm)
    rw [if_neg hsame, cell?]
    simp [hindex]

theorem cell?_addProject_of_some {w : Workspace} {handle : Handle} (project : Project)
    (h : (w.cell? handle).isSome) :
    (w.addProject project).2.cell? handle = w.cell? handle := by
  obtain ⟨cell, hcell⟩ := Option.isSome_iff_exists.mp h
  obtain ⟨hlt, -⟩ := List.getElem?_eq_some_iff.mp hcell
  exact List.getElem?_append_left hlt

theorem cell?_addProject_new (w : Workspace) (project : Project) :
    (w.addProject project).2.cell? (w.addProject project).1 = some ⟨project, .free⟩ := by
  show (w.cells ++ [_])[w.cells.length]? = _
  simp

theorem cell?_addProject_fresh (w : Workspace) (project : Project) :
    w.cell? (w.addProject project).1 = none :=
  List.getElem?_eq_none (Nat.le_refl _)

/-! ## Releasing -/

theorem release_of_free {w : Workspace} {handle : Handle} {cell : Cell}
    (hcell : w.cell? handle = some cell) (hfree : cell.borrow = .free) :
    w.release handle = w.freshDocument.2.setProject handle
      (cell.project.dispose w.freshDocument.1).2 := by
  rw [release, hcell]
  simp [Cell.writable?, hfree]

/-- A project that is released is disposed unless someone works on it. -/
theorem release_cases (w : Workspace) (handle : Handle) :
    w.release handle = w ∨ ∃ cell, w.cell? handle = some cell ∧ cell.borrow = .free ∧
      w.release handle = w.freshDocument.2.setProject handle
        (cell.project.dispose w.freshDocument.1).2 := by
  cases hcell : w.cell? handle with
  | none => exact .inl (by rw [release, hcell]; rfl)
  | some cell =>
    by_cases hfree : cell.borrow = .free
    · exact .inr ⟨cell, rfl, hfree, release_of_free hcell hfree⟩
    · exact .inl (by simp [release, hcell, Cell.writable?, hfree])

theorem cell?_release_of_free {w : Workspace} {handle : Handle} {cell : Cell}
    (hcell : w.cell? handle = some cell) (hfree : cell.borrow = .free) :
    (w.release handle).cell? handle
      = some { cell with project := (cell.project.dispose w.freshDocument.1).2 } := by
  rw [release_of_free hcell hfree, cell?_setProject, if_pos rfl]
  show (w.cell? handle).map _ = _
  rw [hcell]
  rfl

/-- Releasing a project leaves the others as they are. -/
theorem cell?_release_of_ne (w : Workspace) {handle other : Handle} (h : other ≠ handle) :
    (w.release handle).cell? other = w.cell? other := by
  rcases w.release_cases handle with heq | ⟨cell, -, -, heq⟩
  · rw [heq]
  · rw [heq, cell?_setProject, if_neg h]
    rfl

theorem registry_release (w : Workspace) (handle : Handle) :
    (w.release handle).registry = w.registry := by
  rcases w.release_cases handle with heq | ⟨cell, -, -, heq⟩
  · rw [heq]
  · rw [heq]
    rfl

theorem host_release (w : Workspace) (handle : Handle) : (w.release handle).host = w.host := by
  rcases w.release_cases handle with heq | ⟨cell, -, -, heq⟩
  · rw [heq]
  · rw [heq]
    rfl

theorem isDisposed_dispose (p : Project) (fresh : DocumentId) :
    (p.dispose fresh).2.isDisposed = true := by
  rw [Project.dispose]
  split
  · assumption
  · rfl

theorem disposed_release_of_free {w : Workspace} {handle : Handle} {cell : Cell}
    (hcell : w.cell? handle = some cell) (hfree : cell.borrow = .free) :
    (w.release handle).Disposed handle :=
  ⟨_, cell?_release_of_free hcell hfree, isDisposed_dispose _ _⟩

/-- Releasing a project that nobody works on disposes it. -/
theorem disposed_release {w : Workspace} {handle : Handle} (halive : (w.cell? handle).isSome)
    (hfree : w.isFree handle = true) : (w.release handle).Disposed handle := by
  obtain ⟨cell, hcell⟩ := Option.isSome_iff_exists.mp halive
  refine disposed_release_of_free hcell ?_
  by_contra hnot
  simp [isFree, hcell, Cell.writable?, hnot] at hfree

theorem extends_release (w : Workspace) (handle : Handle) : w.Extends (w.release handle) := by
  rcases w.release_cases handle with heq | ⟨cell, hcell, hfree, heq⟩
  · rw [heq]
    exact .refl w
  · constructor
    · intro other hother
      rw [heq, cell?_setProject]
      split
      · rw [Option.isSome_map]
        exact hother
      · exact hother
    · rintro other ⟨old, hold, hdisposed⟩
      by_cases hsame : other = handle
      · rw [hsame]
        exact disposed_release_of_free hcell hfree
      · refine ⟨old, ?_, hdisposed⟩
        rw [heq, cell?_setProject, if_neg hsame]
        exact hold

/-- Releasing a project leaves everybody where they work. -/
theorem isFree_release (w : Workspace) (handle other : Handle) :
    (w.release handle).isFree other = w.isFree other := by
  rcases w.release_cases handle with heq | ⟨cell, -, -, heq⟩
  · rw [heq]
  · rw [heq, isFree, cell?_setProject]
    split
    · show ((w.cell? other).map _).all _ = _
      rw [isFree]
      cases w.cell? other with
      | none => rfl
      | some old =>
        simp only [Option.map_some, Option.all_some, Cell.writable?]
        split <;> rfl
    · rfl

/-! ## Well-formed workspaces -/

/-- All documents in memory have come about by reading, copying and changing. -/
def Reachable (w : Workspace) : Prop :=
  ∀ handle cell, w.cell? handle = some cell → cell.project.document.Reachable

/-- What holds of a workspace after every operation. -/
structure WellFormed (w : Workspace) : Prop where
  nodup : w.registry.keys.Nodup
  normal : ∀ key handle, w.registry.find? key = some handle → IsNormalPath key
  alive : ∀ key handle, w.registry.find? key = some handle → (w.cell? handle).isSome
  /-- No project is registered under two keys. -/
  injective : ∀ key key' handle, w.registry.find? key = some handle →
    w.registry.find? key' = some handle → key = key'
  reachable : ∀ handle cell, w.cell? handle = some cell → cell.project.document.Reachable

namespace WellFormed

variable {w : Workspace}

/-- Another host and other projects do not matter as long as those that are registered are there. -/
theorem of_extends {w' : Workspace} (h : w.WellFormed) (hextends : w.Extends w')
    (hregistry : w'.registry = w.registry)
    (hreachable : ∀ handle cell, w'.cell? handle = some cell → cell.project.document.Reachable) :
    w'.WellFormed where
  nodup := hregistry ▸ h.nodup
  normal := hregistry ▸ h.normal
  alive := fun key handle hfind => hextends.alive handle (h.alive key handle (hregistry ▸ hfind))
  injective := hregistry ▸ h.injective
  reachable := hreachable

theorem release (h : w.WellFormed) (handle : Handle) : (w.release handle).WellFormed := by
  refine h.of_extends (w.extends_release handle) (w.registry_release handle) ?_
  rcases w.release_cases handle with heq | ⟨cell, hcell, -, heq⟩
  · rw [heq]
    exact h.reachable
  · rw [heq]
    intro other found hfound
    rw [cell?_setProject] at hfound
    split at hfound
    · obtain ⟨old, hold, rfl⟩ := Option.map_eq_some_iff.mp hfound
      exact Project.reachable_dispose (h.reachable handle cell hcell) _
    · exact h.reachable other found hfound

theorem erase (h : w.WellFormed) (key : String) :
    ({ w with registry := w.registry.erase key } : Workspace).WellFormed := by
  have hfind {other : String} {handle : Handle}
      (hother : (w.registry.erase key).find? other = some handle) :
      w.registry.find? other = some handle := by
    rw [Registry.find?_erase, Function.update_apply] at hother
    split at hother
    · contradiction
    · exact hother
  exact {
    nodup := (List.filter_sublist.map Prod.fst).nodup h.nodup
    normal := fun _ _ hother => h.normal _ _ (hfind hother)
    alive := fun _ _ hother => h.alive _ _ (hfind hother)
    injective := fun _ _ _ hother hother' => h.injective _ _ _ (hfind hother) (hfind hother')
    reachable := h.reachable }

theorem unloadKey (h : w.WellFormed) (key : String) : (w.unloadKey key).2.WellFormed := by
  rw [Workspace.unloadKey]
  split
  · exact h
  · exact (h.erase key).release _

theorem freshDocument (h : w.WellFormed) : w.freshDocument.2.WellFormed :=
  h.of_extends w.extends_freshDocument rfl h.reachable

end WellFormed

/-! ## Registering -/

/-- The workspace with a new project that is registered for a key. -/
def withProject (w : Workspace) (key : String) (project : Project) : Workspace :=
  let (handle, w) := w.addProject project
  { w with registry := w.registry.insert key handle }

theorem extends_withProject (w : Workspace) (key : String) (project : Project) :
    w.Extends (w.withProject key project) := by
  constructor
  · intro handle halive
    show ((w.addProject project).2.cell? handle).isSome
    rw [cell?_addProject_of_some project halive]
    exact halive
  · rintro handle ⟨cell, hcell, hdisposed⟩
    refine ⟨cell, ?_, hdisposed⟩
    show (w.addProject project).2.cell? handle = _
    rw [cell?_addProject_of_some project (Option.isSome_iff_exists.mpr ⟨cell, hcell⟩), hcell]

theorem find?_withProject (w : Workspace) (key : String) (project : Project) :
    (w.withProject key project).registry.find?
      = Function.update w.registry.find? key (some (w.addProject project).1) :=
  Registry.find?_insert _ _ _

theorem WellFormed.withProject {w : Workspace} (h : w.WellFormed) {key : String}
    (hkey : IsNormalPath key) {project : Project} (hproject : project.document.Reachable) :
    (w.withProject key project).WellFormed := by
  -- the new handle leads to no project of the old workspace, so no old key has it
  have hnew {other : String} : w.registry.find? other ≠ some (w.addProject project).1 := by
    intro hother
    have halive := h.alive other _ hother
    rw [cell?_addProject_fresh] at halive
    exact absurd halive Bool.false_ne_true
  constructor
  · exact Table.nodup_keys_insert h.nodup key _
  · intro other handle hother
    rw [find?_withProject, Function.update_apply] at hother
    split at hother
    · next hsame => exact hsame ▸ hkey
    · exact h.normal other handle hother
  · intro other handle hother
    rw [find?_withProject, Function.update_apply] at hother
    split at hother
    · rw [← Option.some.inj hother]
      show ((w.addProject project).2.cell? _).isSome
      rw [cell?_addProject_new]
      rfl
    · exact (w.extends_withProject key project).alive handle (h.alive other handle hother)
  · intro first second handle hfirst hsecond
    rw [find?_withProject, Function.update_apply] at hfirst hsecond
    split at hfirst <;> split at hsecond
    · next hsame hsame' => rw [hsame, hsame']
    · exact absurd (hsecond.trans hfirst.symm) hnew
    · exact absurd (hfirst.trans hsecond.symm) hnew
    · exact h.injective first second handle hfirst hsecond
  · intro handle cell hcell
    have hget : (w.cells ++ [⟨project, .free⟩])[handle.index]? = some cell := hcell
    rcases List.mem_append.mp (List.mem_of_getElem? hget) with hmem | hmem
    · obtain ⟨index, hindex⟩ := List.getElem?_of_mem hmem
      exact h.reachable ⟨index⟩ cell hindex
    · rw [List.mem_singleton.mp hmem]
      exact hproject

end Workspace

end BuildProject
