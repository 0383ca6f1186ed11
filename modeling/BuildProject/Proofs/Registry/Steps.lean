import Mathlib.Data.Set.Card
import BuildProject.Proofs.Registry.Operations

/-!
# One operation of the registry

`BindingStep` says what each operation does to the map from keys to handles, and what it answers.
`operated_perform` shows that the registry does just that, and more that is needed to go on: the
workspace stays well-formed, projects stay in memory, and whatever loses its key has been disposed,
or was unloaded while someone worked on it.
-/

namespace BuildProject

/-! ## Operations -/

/-- The operations of the registry. -/
inductive Operation where
  | load (path : String)
  | get (path : String)
  | contains (path : String)
  | getOrLoad (path : String)
  | unload (path : String)
  | unloadAll
  | clone (source : Handle) (path : String) (overwrite : Bool)
  | drop
deriving DecidableEq, Repr

/-- What an operation answers. -/
inductive Answer where
  | handle (handle : Handle)
  | failed (fault : ProjectError)
  | found (handle? : Option Handle)
  | said (yes : Bool)
  | counted (count : Nat)
  | done
deriving DecidableEq, Repr

namespace Operation

/-- The path that the operation is about. -/
def path? : Operation → Option String
  | .load path | .get path | .contains path | .getOrLoad path | .unload path => some path
  | .clone _ path _ => some path
  | .unloadAll | .drop => none

/-- Whether the operation may take a project out of the registry while someone works on it. -/
def forces : Operation → Bool
  | .unload _ | .unloadAll | .drop => true
  | _ => false

end Operation

namespace Answer

/-- The handle that is handed out. -/
def handle? : Answer → Option Handle
  | .handle given => some given
  | .found given? => given?
  | _ => none

/-- The answer of an operation that hands out a project or fails. -/
def ofResult : Except ProjectError Handle → Answer
  | .ok given => .handle given
  | .error fault => .failed fault

/-- Answers what an action of the registry came to. -/
def ofRun (run : Except ProjectError Handle × Workspace) : Answer × Workspace :=
  (ofResult run.1, run.2)

end Answer

namespace Workspace

/-- Runs an operation of the registry. A registry that is dropped unloads everything. -/
def perform (w : Workspace) : Operation → Answer × Workspace
  | .load path => Answer.ofRun ((RegistryAction.load path).run.run w)
  | .get path => (.found (w.get? path), w)
  | .contains path => (.said (w.contains path), w)
  | .getOrLoad path => Answer.ofRun ((RegistryAction.getOrLoad path).run.run w)
  | .unload path => (.said (w.unload path).1, (w.unload path).2)
  | .unloadAll => (.counted w.unloadAll.1, w.unloadAll.2)
  | .clone source path overwrite =>
    Answer.ofRun ((RegistryAction.clone source path overwrite).run.run w)
  | .drop => (.done, w.unloadAll.2)

/-- The key of a path, if it has one. -/
def key? (w : Workspace) (path : String) : Option String :=
  (w.key path).toOption

end Workspace

/-! ## The map from keys to handles -/

/-- What an operation does to the map from keys to handles when it gives an answer, where `key?`
says what the key of a path is and `fresh` what handles are new. -/
inductive BindingStep (key? : String → Option String) (fresh : Handle → Prop) :
    Operation → Answer → (String → Option Handle) → (String → Option Handle) → Prop where
  | loaded {bound : String → Option Handle} {path key : String} {handle : Handle}
    (hkey : key? path = some key) (hfresh : fresh handle) :
    BindingStep key? fresh (.load path) (.handle handle) bound
      (Function.update bound key (some handle))
  | unreadable {bound : String → Option Handle} {path key : String} {fault : DocumentError}
    (hkey : key? path = some key) :
    BindingStep key? fresh (.load path) (.failed (.document fault)) bound
      (Function.update bound key none)
  | notLoaded {bound : String → Option Handle} {path : String} {fault : ProjectError}
    (hfault : ∀ f, fault ≠ .document f) :
    BindingStep key? fresh (.load path) (.failed fault) bound bound
  | got (bound : String → Option Handle) (path : String) :
    BindingStep key? fresh (.get path) (.found ((key? path).bind bound)) bound bound
  | contained (bound : String → Option Handle) (path : String) :
    BindingStep key? fresh (.contains path) (.said ((key? path).bind bound).isSome) bound bound
  | gotBound {bound : String → Option Handle} {path : String} {handle : Handle}
    (hbound : (key? path).bind bound = some handle) :
    BindingStep key? fresh (.getOrLoad path) (.handle handle) bound bound
  | gotLoaded {bound bound' : String → Option Handle} {path : String} {answer : Answer}
    (hbound : (key? path).bind bound = none)
    (hload : BindingStep key? fresh (.load path) answer bound bound') :
    BindingStep key? fresh (.getOrLoad path) answer bound bound'
  | unloaded {bound : String → Option Handle} {path key : String} (hkey : key? path = some key) :
    BindingStep key? fresh (.unload path) (.said (bound key).isSome) bound
      (Function.update bound key none)
  | notUnloaded {bound : String → Option Handle} {path : String} (hkey : key? path = none) :
    BindingStep key? fresh (.unload path) (.said false) bound bound
  | unloadedAll (bound : String → Option Handle) :
    BindingStep key? fresh .unloadAll (.counted {key | (bound key).isSome}.ncard) bound
      fun _ => none
  | cloned {bound : String → Option Handle} {source handle : Handle} {path key : String}
    {overwrite : Bool} (hkey : key? path = some key) (hfresh : fresh handle) :
    BindingStep key? fresh (.clone source path overwrite) (.handle handle) bound
      (Function.update bound key (some handle))
  | notCloned (bound : String → Option Handle) (source : Handle) (path : String)
    (overwrite : Bool) (fault : ProjectError) :
    BindingStep key? fresh (.clone source path overwrite) (.failed fault) bound bound
  | dropped (bound : String → Option Handle) :
    BindingStep key? fresh .drop .done bound fun _ => none

namespace Workspace

/-! ## One operation -/

/-- The keys of the registry are as many as the map leads from. -/
theorem ncard_keys {w : Workspace} (hw : w.WellFormed) :
    {key | (w.registry.find? key).isSome}.ncard = w.registry.keys.length := by
  have hset : {key | (w.registry.find? key).isSome} = (w.registry.keys.toFinset : Set String) := by
    ext key
    simp [Registry.mem_keys_iff]
  rw [hset, Set.ncard_coe_finset, List.toFinset_card_of_nodup hw.nodup]

/-- Everything about an operation that is carried through a run. -/
structure Operated (w : Workspace) (op : Operation) (answer : Answer) (w' : Workspace) : Prop where
  wellFormed : w'.WellFormed
  extends' : w.Extends w'
  step : BindingStep w.key? (fun handle => w.cell? handle = none) op answer
    w.registry.find? w'.registry.find?
  accounts : ∀ key handle, w.registry.find? key = some handle →
    w'.registry.find? key = some handle ∨ w'.Disposed handle ∨
      op.forces = true ∧ w.isFree handle = false
  returned : ∀ path key handle, op.path? = some path → w.key? path = some key →
    answer.handle? = some handle → w'.registry.find? key = some handle

theorem key?_of_key {w : Workspace} {path key : String} (h : w.key path = .ok key) :
    w.key? path = some key := by
  rw [key?, h]
  rfl

theorem get?_eq (w : Workspace) (path : String) :
    w.get? path = (w.key? path).bind w.registry.find? := by
  rw [get?, key?]
  cases w.key path <;> rfl

theorem operated_of_unchanged {w : Workspace} (hw : w.WellFormed) {op : Operation} {answer : Answer}
    (hstep : BindingStep w.key? (fun handle => w.cell? handle = none) op answer
      w.registry.find? w.registry.find?)
    (hreturned : ∀ path key handle, op.path? = some path → w.key? path = some key →
      answer.handle? = some handle → w.registry.find? key = some handle) :
    w.Operated op answer w where
  wellFormed := hw
  extends' := .refl w
  step := hstep
  accounts := fun _ _ hfind => .inl hfind
  returned := hreturned

/-- Room has been made at a key. -/
structure Cleared (w : Workspace) (key : String) (w' : Workspace) : Prop where
  wellFormed : w'.WellFormed
  extends' : w.Extends w'
  find? : w'.registry.find? = Function.update w.registry.find? key none
  accounts : ∀ key handle, w.registry.find? key = some handle →
    w'.registry.find? key = some handle ∨ w'.Disposed handle

theorem cleared_unloadKey {w : Workspace} (hw : w.WellFormed) {key : String}
    (hfree : w.Replaceable key) : w.Cleared key (w.unloadKey key).2 where
  wellFormed := hw.unloadKey key
  extends' := extends_unloadKey w key
  find? := find?_unloadKey w key
  accounts := by
    intro other handle hother
    by_cases hsame : other = key
    · subst hsame
      exact .inr (disposed_unloadKey hw hother (hfree handle hother))
    · rw [find?_unloadKey, Function.update_of_ne hsame]
      exact .inl hother

theorem Cleared.freshDocument {w w' : Workspace} {key : String} (h : w.Cleared key w') :
    w.Cleared key w'.freshDocument.2 where
  wellFormed := h.wellFormed.freshDocument
  extends' := h.extends'.trans (extends_freshDocument w')
  find? := h.find?
  accounts := h.accounts

/-- A key for which room was made has a new project. -/
theorem Cleared.operated {w w' : Workspace} {op : Operation} {path key : String}
    (h : w.Cleared key w') (hpath : op.path? = some path) (hkey : w.key path = .ok key)
    {project : Project} (hproject : project.document.Reachable)
    (hstep : w.cell? (w'.addProject project).1 = none →
      BindingStep w.key? (fun handle => w.cell? handle = none) op
        (.handle (w'.addProject project).1) w.registry.find?
        (Function.update w.registry.find? key (some (w'.addProject project).1))) :
    w.Operated op (.handle (w'.addProject project).1) (w'.withProject key project) := by
  have hextends := h.extends'.trans (extends_withProject w' key project)
  have hfresh : w.cell? (w'.addProject project).1 = none := by
    cases hcell : w.cell? (w'.addProject project).1 with
    | none => rfl
    | some cell =>
      have halive := h.extends'.alive _ (Option.isSome_iff_exists.mpr ⟨cell, hcell⟩)
      rw [cell?_addProject_fresh] at halive
      exact absurd halive Bool.false_ne_true
  have hfind : (w'.withProject key project).registry.find?
      = Function.update w.registry.find? key (some (w'.addProject project).1) := by
    rw [find?_withProject, h.find?, Function.update_idem]
  constructor
  · exact h.wellFormed.withProject (isNormalPath_of_normalizePath hkey) hproject
  · exact hextends
  · rw [hfind]
    exact hstep hfresh
  · intro other handle hother
    rcases h.accounts other handle hother with hstill | hdisposed
    · left
      have hne : other ≠ key := by
        rintro rfl
        rw [h.find?, Function.update_self] at hstill
        contradiction
      rw [hfind, Function.update_of_ne hne, hother]
    · exact .inr (.inl ((extends_withProject w' key project).disposed handle hdisposed))
  · intro path' key' handle hpath' hkey' hhandle
    obtain rfl : path = path' := Option.some.inj (hpath.symm.trans hpath')
    obtain rfl : key = key' := Option.some.inj ((key?_of_key hkey).symm.trans hkey')
    rw [hfind, Function.update_self, ← hhandle]
    rfl

theorem operated_of_loadOutcome {w w' : Workspace} (hw : w.WellFormed) {path : String}
    {result : Except ProjectError Handle} (h : RegistryAction.LoadOutcome w path result w') :
    w.Operated (.load path) (.ofResult result) w' := by
  cases h with
  | pathFault hkey =>
    refine operated_of_unchanged hw (.notLoaded ?_) ?_
    · intro f hfault
      contradiction
    · intro _ _ _ _ _ hhandle
      contradiction
  | inUse hkey =>
    refine operated_of_unchanged hw (.notLoaded ?_) ?_
    · intro f hfault
      contradiction
    · intro _ _ _ _ _ hhandle
      contradiction
  | documentFault hkey hfree =>
    have hcleared := (cleared_unloadKey hw hfree).freshDocument
    constructor
    · exact hcleared.wellFormed
    · exact hcleared.extends'
    · rw [hcleared.find?]
      exact .unreadable (key?_of_key hkey)
    · intro other handle hother
      rcases hcleared.accounts other handle hother with hstill | hdisposed
      · exact .inl hstill
      · exact .inr (.inl hdisposed)
    · intro _ _ _ _ _ hhandle
      contradiction
  | loaded hkey hfree hload =>
    exact (cleared_unloadKey hw hfree).freshDocument.operated rfl hkey
      (Project.reachable_of_load hload) fun hfresh => .loaded (key?_of_key hkey) hfresh

theorem operated_of_cloneOutcome {w w' : Workspace} (hw : w.WellFormed) {source : Handle}
    {path : String} {result : Except ProjectError Handle} (overwrite : Bool)
    (h : RegistryAction.CloneOutcome w source path result w') :
    w.Operated (.clone source path overwrite) (.ofResult result) w' := by
  cases h with
  | refused fault =>
    refine operated_of_unchanged hw (.notCloned _ _ _ _ _) ?_
    intro _ _ _ _ _ hhandle
    contradiction
  | refusedLate fault =>
    constructor
    · exact hw.freshDocument
    · exact extends_freshDocument w
    · exact .notCloned _ _ _ _ _
    · exact fun _ _ hfind => .inl hfind
    · intro _ _ _ _ _ hhandle
      contradiction
  | @cloned key p directory project hkey hsource hfree hrebase =>
    have hcleared : w.Cleared key (w.freshDocument.2.unloadKey key).2 := by
      obtain ⟨hwf, hextends, hfind, haccounts⟩ := cleared_unloadKey hw.freshDocument hfree
      exact ⟨hwf, (extends_freshDocument w).trans hextends, hfind, haccounts⟩
    have hcopy : (RegistryAction.copyFor w p key).document.Reachable :=
      .placed _ (.copied _ (hsource.reachable hw))
    have hproject : project.document.Reachable := by
      have hkept := Project.keeps_rebaseSources Project.keeps_reachable directory _ hcopy
      rwa [hrebase] at hkept
    exact hcleared.operated rfl hkey hproject fun hfresh => .cloned (key?_of_key hkey) hfresh

/-- Getting a project that is not there is loading it. -/
theorem operated_getOrLoad {w : Workspace} (hw : w.WellFormed) (path : String) :
    w.Operated (.getOrLoad path) (w.perform (.getOrLoad path)).1
      (w.perform (.getOrLoad path)).2 := by
  cases hget : w.get? path with
  | some handle =>
    have hrun : (RegistryAction.getOrLoad path).run.run w = (.ok handle, w) := by
      rw [RegistryAction.getOrLoad, run_get_bind, hget]
      rfl
    rw [get?_eq] at hget
    rw [perform, hrun]
    refine operated_of_unchanged hw (.gotBound hget) ?_
    intro path' key found hpath hkey hfound
    obtain rfl : path = path' := Option.some.inj hpath
    rw [hkey] at hget
    rw [← hfound]
    exact hget
  | none =>
    have hrun : (RegistryAction.getOrLoad path).run.run w
        = (RegistryAction.load path).run.run w := by
      rw [RegistryAction.getOrLoad, run_get_bind, hget]
    rw [get?_eq] at hget
    rw [perform, hrun]
    obtain ⟨hwf, hextends, hstep, haccounts, hreturned⟩ :=
      operated_of_loadOutcome hw (RegistryAction.loadOutcome w path)
    exact ⟨hwf, hextends, .gotLoaded hget hstep, haccounts, hreturned⟩

theorem operated_unload {w : Workspace} (hw : w.WellFormed) (path : String) :
    w.Operated (.unload path) (.said (w.unload path).1) (w.unload path).2 := by
  rw [unload]
  cases hkey : w.key path with
  | error fault =>
    refine operated_of_unchanged hw (.notUnloaded ?_) ?_
    · rw [key?, hkey]
      rfl
    · intro _ _ _ _ _ hhandle
      contradiction
  | ok key =>
    constructor
    · exact hw.unloadKey key
    · exact extends_unloadKey w key
    · rw [find?_unloadKey, unloadKey_found]
      exact .unloaded (key?_of_key hkey)
    · intro other handle hother
      rcases accounts_unloadKey hw key other handle hother with hstill | hdisposed | hbusy
      · exact .inl hstill
      · exact .inr (.inl hdisposed)
      · exact .inr (.inr ⟨rfl, hbusy⟩)
    · intro _ _ _ _ _ hhandle
      contradiction

/-- Unloading everything, for an operation that answers as it should. -/
theorem operated_unloadAll {w : Workspace} (hw : w.WellFormed) {op : Operation} {answer : Answer}
    (hforces : op.forces = true) (hanswer : answer.handle? = none)
    (hstep : BindingStep w.key? (fun handle => w.cell? handle = none) op answer
      w.registry.find? fun _ => none) :
    w.Operated op answer w.unloadAll.2 := by
  obtain ⟨-, hfind, hwf, hextends, haccounts⟩ := unloadAll_spec hw
  constructor
  · exact hwf
  · exact hextends
  · rw [hfind]
    exact hstep
  · intro key handle hother
    rcases haccounts key handle hother with hstill | hdisposed | hbusy
    · exact .inl hstill
    · exact .inr (.inl hdisposed)
    · exact .inr (.inr ⟨hforces, hbusy⟩)
  · intro _ _ _ _ _ hhandle
    rw [hanswer] at hhandle
    contradiction

/-- **Every operation of the registry** does to the map what its step says, and accounts for every
project that was registered. -/
theorem operated_perform {w : Workspace} (hw : w.WellFormed) (op : Operation) :
    w.Operated op (w.perform op).1 (w.perform op).2 := by
  cases op with
  | load path => exact operated_of_loadOutcome hw (RegistryAction.loadOutcome w path)
  | get path =>
    rw [perform, get?_eq]
    refine operated_of_unchanged hw (.got _ path) ?_
    intro path' key found hpath hkey hfound
    obtain rfl : path = path' := Option.some.inj hpath
    rw [hkey] at hfound
    exact hfound
  | contains path =>
    rw [perform, contains, get?_eq]
    refine operated_of_unchanged hw (.contained _ path) ?_
    intro _ _ _ _ _ hhandle
    contradiction
  | getOrLoad path => exact operated_getOrLoad hw path
  | unload path => exact operated_unload hw path
  | unloadAll =>
    rw [perform, (unloadAll_spec hw).1, ← ncard_keys hw]
    exact operated_unloadAll hw rfl rfl (.unloadedAll _)
  | clone source path overwrite =>
    exact operated_of_cloneOutcome hw overwrite
      (RegistryAction.cloneOutcome hw.reachable source path overwrite)
  | drop => exact operated_unloadAll hw rfl rfl (.dropped _)

end Workspace

end BuildProject
