import BuildProject.Proofs.Include.Follow
import BuildProject.Proofs.Project.Rewrite
import BuildProject.Proofs.Registry.Runs

/-!
# The sources of a copy

A copy is made so that its sources are the files that they were. What an item names depends on the
directory it is read in, and a directory that is relative depends on the working directory; `names`
says what file that is. `sameFile_of_clone_iff` says exactly when the copy of an item names the file
that the item named.

It does if the directory of the source is absolute and the new include does not happen to look like
a path on a drive. If the directory is relative, the include is resolved in it without the working
directory, and what comes out is then read from the directory of the copy.
-/

namespace BuildProject

open IncludePath

namespace Host

/-- The working directory in its normal form. -/
def currentDirectory (host : Host) : String :=
  String.ofList (renderLocation (startOf host.workingDirectory.toList []))

/-- A directory as it is seen from the working directory. -/
def absoluteDirectory (host : Host) (directory : String) : String :=
  joinPath host.currentDirectory directory

/-- The file that an include names in a directory. -/
def names (host : Host) (directory includeText : String) : IncludePath :=
  IncludePath.resolve (host.absoluteDirectory directory).toList includeText.toList

theorem head?_currentDirectory (host : Host) : host.currentDirectory.toList.head? = some '/' := by
  rw [currentDirectory, String.toList_ofList]
  rfl

theorem isEmpty_currentDirectory (host : Host) : host.currentDirectory.isEmpty = false := by
  rw [Bool.eq_false_iff, Ne, String.isEmpty_iff]
  intro hempty
  have hhead := host.head?_currentDirectory
  rw [hempty] at hhead
  contradiction

theorem absoluteDirectory_of_isAbsolute {host : Host} {directory : String}
    (h : isAbsolute directory = true) : host.absoluteDirectory directory = directory := by
  rw [absoluteDirectory, joinPath, if_pos (.inl h)]

theorem head?_absoluteDirectory (host : Host) (directory : String) :
    (host.absoluteDirectory directory).toList.head? = some '/' := by
  have hhead := host.head?_currentDirectory
  rw [absoluteDirectory, joinPath]
  split
  · next h =>
    rcases h with habsolute | hempty
    · simpa [isAbsolute] using habsolute
    · rw [isEmpty_currentDirectory] at hempty
      contradiction
  · split
    · rw [String.toList_append, List.head?_append, hhead, Option.some_or]
    · rw [String.toList_append, String.toList_append, List.append_assoc, List.head?_append, hhead,
        Option.some_or]

/-- Directories as they are seen from the working directory are rooted, and on no drive. -/
theorem rooted_absoluteDirectory (host : Host) (directory : String) :
    (ofChars (host.absoluteDirectory directory).toList).rooted = true ∧
      (ofChars (host.absoluteDirectory directory).toList).drive? = none := by
  rw [ofChars_of_slash (host.head?_absoluteDirectory directory)]
  exact ⟨rfl, rfl⟩

/-- When an include that was rebased for an absolute directory, or for none, names the same file. -/
theorem sameFile_names_rebaseInclude_iff (host : Host) {part directory destination : String}
    (hdestination : isAbsolute destination = true ∨ destination.toList = []) :
    SameFile (host.names destination (rebaseInclude part directory destination))
        (host.names directory part) ↔
      ((resolve directory.toList part.toList).drive?.isSome ∨
        startsLikeDrive (rebaseInclude part directory destination).toList = false) ∧
      (isAbsolute directory = true ∨
        SameFile ((ofChars (host.absoluteDirectory destination).toList).follow
          (resolve directory.toList part.toList)) (host.names directory part)) := by
  obtain ⟨hrooted, hbase⟩ := host.rooted_absoluteDirectory destination
  have hplace : destination.toList = (host.absoluteDirectory destination).toList ∨
      destination.toList = [] :=
    hdestination.imp_left fun h => by rw [absoluteDirectory_of_isAbsolute h]
  have hdrive : (ofChars destination.toList).drive? = none := by
    rcases hplace with hsame | hempty
    · rw [hsame, hbase]
    · rw [hempty]
      rfl
  refine (sameFile_resolve_rebaseInclude_iff hdrive hbase hrooted hplace
    (host.rooted_absoluteDirectory directory).2).trans ?_
  refine and_congr_right fun _ => ⟨.inr, ?_⟩
  rintro (habsolute | hsame)
  · -- an absolute directory is where the include was resolved
    have hsource : (ofChars directory.toList).rooted = true := by
      rw [← absoluteDirectory_of_isAbsolute habsolute]
      exact (host.rooted_absoluteDirectory directory).1
    rw [absoluteDirectory_of_isAbsolute habsolute,
      follow_of_whole (resolve_rooted_or_drive hsource part.toList)]
    exact SameFile.refl _
  · exact hsame

end Host

/-! ## Directories of copies -/

/-- The directory of a normal path is absolute; there is none above the root. -/
theorem parentPath_of_normal {key : String} (h : IsNormalPath key) :
    Host.isAbsolute (parentPath key) = true ∨ (parentPath key).toList = [] := by
  obtain ⟨location, -, hkey⟩ := h
  have hparent : (parentPath key).toList = parentOf key.toList := by
    rw [parentPath, String.toList_ofList]
  rw [Host.isAbsolute, hparent, hkey, parentOf]
  split
  · exact .inr rfl
  · exact .inl (decide_eq_true rfl)

/-! ## Includes with one part -/

/-- The only part of an include that starts with a reference does so too. -/
theorem startsWithReference_of_part {includeText part : String}
    (hparts : Project.includeParts includeText = [part])
    (hpart : Project.startsWithReference part = false) :
    Project.startsWithReference includeText = false := by
  rw [Bool.eq_false_iff]
  intro htext
  rw [Project.startsWithReference, decide_eq_true_eq] at htext
  obtain ⟨rest, hstart⟩ : ∃ rest, Text.trimStart includeText.toList = '$' :: '(' :: rest := by
    have hjoin := List.take_append_drop 2 (Text.trimStart includeText.toList)
    rw [htext] at hjoin
    exact ⟨_, hjoin.symm⟩
  -- the piece up to the first semicolon starts with the reference, so it is the part
  obtain ⟨others, hsplit⟩ := Text.splitOn_eq_takeWhile_cons ';' includeText.toList
  have hblank : ∀ c, Text.isBlank c = true → (c != ';') = true := by
    intro c hc
    rw [bne_iff_ne]
    rintro rfl
    exact absurd hc (by decide)
  have hpiece : Text.trim (includeText.toList.takeWhile (· != ';'))
      = '$' :: '(' :: Text.trimEnd (rest.takeWhile (· != ';')) := by
    rw [Text.trim, Text.trimStart_takeWhile hblank, hstart, List.takeWhile_cons_of_pos (by decide),
      List.takeWhile_cons_of_pos (by decide), Text.trimEnd_cons (by decide),
      Text.trimEnd_cons (by decide)]
  have hmem : String.ofList ('$' :: '(' :: Text.trimEnd (rest.takeWhile (· != ';')))
      ∈ Project.includeParts includeText := by
    rw [Project.includeParts, hsplit]
    refine List.mem_map_of_mem (List.mem_filter.mpr ⟨?_, rfl⟩)
    rw [← hpiece]
    exact List.mem_map_of_mem List.mem_cons_self
  rw [hparts, List.mem_singleton] at hmem
  rw [← hmem, Project.startsWithReference, String.toList_ofList,
    Text.trimStart_cons (by decide)] at hpart
  exact absurd hpart (by simp)

/-! ## Copies -/

namespace RegistryAction

variable {w w' : Workspace} {source handle : Handle} {path : String} {overwrite : Bool}

/-- What a copy is: a project of its own, for the key of its path, with its sources rebased. -/
theorem clone_eq_ok (hw : w.WellFormed)
    (hclone : (clone source path overwrite).run.run w = (.ok handle, w')) :
    ∃ key p directory copy, IsNormalPath key ∧ Source w source p directory ∧
      w'.cell? handle = some ⟨copy, .free⟩ ∧
      (Project.rebaseSources directory).run.run (copyFor w p key) = (.ok (), copy) := by
  obtain ⟨key, p, directory, copy, hkey, hsource, hrebase, hcell, -⟩ :=
    cloned_of_clone hw.reachable hclone
  exact ⟨key, p, directory, copy, isNormalPath_of_normalizePath hkey, hsource, hcell, hrebase⟩

/-- An item of a copy, with the only part of its include rebased. -/
theorem include?_of_rebaseSources {p copy : Project} {directory key : String}
    (hp : p.document.tree.WellFormed)
    (hrebase : (Project.rebaseSources directory).run.run (copyFor w p key) = (.ok (), copy))
    {item : Element}
    (hitem : item ∈ p.document.findItems (·.name == w.registry.conventions.sourceItem))
    {includeText part : String} (hinclude : item.include? = some includeText)
    (hparts : Project.includeParts includeText = [part])
    (hpart : Project.startsWithReference part = false) :
    ∃ item', copy.document.tree.find? item.id = some item' ∧
      item'.include? = some (rebaseInclude part directory (parentPath key)) := by
  obtain ⟨item', hitem', hrebased⟩ :=
    Project.include?_of_rebaseSources (wellFormed_copyFor hp w key) (directory?_copyFor w p key)
      hrebase hitem hinclude (startsWithReference_of_part hparts hpart)
  refine ⟨item', hitem', ?_⟩
  rw [hrebased, hparts]
  rfl

/-- **When a copied item still names its file.** In every run, the copy of an item with one part in
its include names, in the directory of the copy, the file that the item named in its own directory,
if and only if

* the new include does not look like a path on a drive, unless it is one, and
* the directory of the source is absolute, or the path that the include is in that directory,
  without the working directory, happens to lead from the directory of the copy to the same file. -/
theorem sameFile_of_clone_iff {start : Workspace} {events : List Event}
    (hempty : start.registry.handles = []) (hreachable : start.Reachable)
    (hrun : Run start events w)
    (hclone : (clone source path overwrite).run.run w = (.ok handle, w')) :
    ∃ p directory copy destination, Source w source p directory ∧
      (w'.cell? handle).map Cell.project = some copy ∧ copy.directory? = some destination ∧
      ∀ item ∈ p.document.findItems (·.name == w.registry.conventions.sourceItem),
        ∀ includeText part, item.include? = some includeText →
          Project.includeParts includeText = [part] →
          Project.startsWithReference part = false →
          ∃ item' include', copy.document.tree.find? item.id = some item' ∧
            item'.include? = some include' ∧
            (SameFile (w.host.names destination include') (w.host.names directory part) ↔
              ((resolve directory.toList part.toList).drive?.isSome ∨
                startsLikeDrive include'.toList = false) ∧
              (Host.isAbsolute directory = true ∨
                SameFile ((ofChars (w.host.absoluteDirectory destination).toList).follow
                  (resolve directory.toList part.toList)) (w.host.names directory part))) := by
  have hw := hrun.wellFormed (Workspace.wellFormed_of_empty hempty hreachable)
  obtain ⟨key, p, directory, copy, hkey, hsource, hcell, hrebase⟩ := clone_eq_ok hw hclone
  have hp := (hsource.reachable hw).wellFormed
  refine ⟨p, directory, copy, parentPath key, hsource, by rw [hcell]; rfl, ?_, ?_⟩
  · obtain ⟨revision, hrun⟩ :=
      Project.run_rebaseSources (wellFormed_copyFor hp w key) (directory?_copyFor w p key) directory
    rw [hrebase] at hrun
    obtain rfl := (Prod.mk.inj hrun).2
    rfl
  · intro item hitem includeText part hinclude hparts hpart
    obtain ⟨item', hitem', hinclude'⟩ :=
      include?_of_rebaseSources hp hrebase hitem hinclude hparts hpart
    exact ⟨item', _, hitem', hinclude',
      w.host.sameFile_names_rebaseInclude_iff (parentPath_of_normal hkey)⟩

/-- A workspace with a project in memory that belongs to a file in a relative directory and
compiles `Foo.cs`. -/
def relativeProject : Workspace where
  host := ⟨⟨[]⟩, "/w", "/home", none⟩
  cells :=
    let d := (Change.addItemGroup.action.run.run (Document.empty ⟨0⟩)).2
    let d := ((Change.addItem ⟨⟨0⟩, 1⟩ "Compile" "Foo.cs").action.run.run d).2
    [⟨.ofDocument { d with path? := some "proj/A.proj" } {}, .free⟩]
  nextDocument := 1
  registry := .empty {}

/-- Its copy in another directory compiles another file: the new include leads from there to `proj`
below that directory. -/
theorem sameFile_of_clone_iff_relative :
    ∃ w' copy item' include',
      (clone ⟨0⟩ "out/B.proj" false).run.run relativeProject = (.ok ⟨1⟩, w') ∧
      (w'.cell? ⟨1⟩).map Cell.project = some copy ∧ copy.directory? = some "/w/out" ∧
      copy.document.tree.find? 2 = some item' ∧ item'.include? = some include' ∧
      ¬ SameFile (relativeProject.host.names "/w/out" include')
        (relativeProject.host.names "proj" "Foo.cs") := by
  have hreachable : relativeProject.Reachable := by
    intro handle cell hcell
    obtain rfl := List.mem_singleton.mp (List.mem_of_getElem? hcell)
    exact .placed _ (.changed _ (.changed _ (.empty _)))
  have hanswer : ((clone ⟨0⟩ "out/B.proj" false).run.run relativeProject).1 = .ok ⟨1⟩ := by
    decide +kernel
  have hout : ((((clone ⟨0⟩ "out/B.proj" false).run.run relativeProject).2.cell? ⟨1⟩).map
      Cell.project).bind Project.directory? = some "/w/out" := by
    decide +kernel
  -- from here on the copy need not be computed
  generalize hclone : (clone ⟨0⟩ "out/B.proj" false).run.run relativeProject = outcome
    at hanswer hout
  obtain ⟨answer, w'⟩ := outcome
  obtain rfl : answer = .ok ⟨1⟩ := hanswer
  obtain ⟨p, directory, copy, destination, hsource, hcopy, hdestination, hitems⟩ :=
    sameFile_of_clone_iff rfl hreachable .start hclone
  obtain rfl := Option.some.inj hsource.readable
  obtain rfl : parentPath "proj/A.proj" = directory := Option.some.inj hsource.directory
  rw [hcopy] at hout
  obtain rfl := Option.some.inj (hdestination.symm.trans hout)
  obtain ⟨item', include', hitem', hinclude', hiff⟩ :=
    hitems ⟨2, ⟨"Compile", [⟨"Include", "Foo.cs"⟩]⟩, .nil⟩ (by decide +kernel) "Foo.cs" "Foo.cs" rfl
      (by decide +kernel) (by decide +kernel)
  refine ⟨w', copy, item', include', rfl, hcopy, hdestination, hitem', hinclude', ?_⟩
  intro hsame
  have hplace := (hiff.mp hsame).2
  revert hplace
  decide +kernel

end RegistryAction

end BuildProject
