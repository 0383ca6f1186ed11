import BuildProject.Proofs.Registry.Copies

/-!
# Includes with several parts

The include of a source may name several files, with semicolons between them. A copy rebases the
parts one by one (`RegistryAction.parts_of_clone`), unless the include as a whole starts with a
reference to a property: what it says is not known before the project is evaluated, and all of it is
left as it was (`RegistryAction.clone_leaves_parts`).
-/

namespace BuildProject

open IncludePath

/-- What becomes of a part that is copied from one directory to another: its rebased form, which
names the same file if the first directory is absolute and the form does not look like a path on a
drive, unless it is one. -/
structure Host.Rebased (host : Host) (directory destination part part' : String) : Prop where
  eq : part' = rebaseInclude part directory destination
  sameFile : Host.isAbsolute directory = true →
    (resolve directory.toList part.toList).drive?.isSome ∨ startsLikeDrive part'.toList = false →
    SameFile (host.names destination part') (host.names directory part)

theorem Host.rebased (host : Host) {directory destination : String}
    (hdestination : isAbsolute destination = true ∨ destination.toList = []) (part : String) :
    host.Rebased directory destination part (rebaseInclude part directory destination) where
  eq := rfl
  sameFile := fun habsolute hdrive =>
    (host.sameFile_names_rebaseInclude_iff hdestination).mpr ⟨hdrive, .inl habsolute⟩

namespace RegistryAction

variable {w w' : Workspace} {source handle : Handle} {path : String} {overwrite : Bool}

/-- **What becomes of the parts of an include.** In a copy, the include of a source that starts with
a reference is as it was. Every other include consists of one part for each part that it had, in the
same order, and a part that did not start with a reference is rebased. -/
theorem parts_of_clone (hw : w.Reachable)
    (hclone : (clone source path overwrite).run.run w = (.ok handle, w')) :
    ∃ p directory copy destination, Source w source p directory ∧
      (w'.cell? handle).map Cell.project = some copy ∧ copy.directory? = some destination ∧
      ∀ item ∈ p.document.findItems (·.name == w.registry.conventions.sourceItem),
        ∀ includeText, item.include? = some includeText →
          ∃ item', copy.document.tree.find? item.id = some item' ∧
            (Project.startsWithReference includeText = true →
              item'.include? = some includeText) ∧
            (Project.startsWithReference includeText = false →
              ∃ parts, item'.include? = some (";".intercalate parts) ∧
                List.Forall₂ (fun part part' => Project.startsWithReference part = false →
                    w.host.Rebased directory destination part part')
                  (Project.includeParts includeText) parts) := by
  obtain ⟨key, p, directory, copy, hkey, hsource, hrebase, hcell, -⟩ := cloned_of_clone hw hclone
  have hcopy := wellFormed_copyFor (hsource.document_reachable hw).wellFormed w key
  have hdirectory := directory?_copyFor w p key
  have hnormal := parentPath_of_normal (isNormalPath_of_normalizePath hkey)
  refine ⟨p, directory, copy, parentPath key, hsource, by rw [hcell]; rfl, ?_, ?_⟩
  · exact Project.directory?_of_rebaseSources hcopy hdirectory hrebase
  · intro item hitem includeText hinclude
    cases hskip : Project.startsWithReference includeText with
    | true =>
      obtain ⟨item', hitem', hinclude'⟩ := Project.include?_of_rebaseSources_of_reference hcopy
        hdirectory hrebase (List.mem_filter.mp hitem).1 hinclude hskip
      exact ⟨item', hitem', fun _ => hinclude', nofun⟩
    | false =>
      obtain ⟨item', hitem', hinclude'⟩ :=
        Project.include?_of_rebaseSources hcopy hdirectory hrebase hitem hinclude hskip
      refine ⟨item', hitem', nofun, fun _ => ⟨_, hinclude', ?_⟩⟩
      rw [List.forall₂_map_right_iff, List.forall₂_same]
      intro part _ _
      exact w.host.rebased hnormal part

/-- A document with two lists of sources, one of which starts with a reference. -/
def listedSources : Document :=
  let source (id : NodeId) (includeText : String) (rest : Forest) : Forest :=
    .element id ⟨"Compile", [⟨"Include", includeText⟩]⟩ .nil rest
  let items := source 2 "a.cs; ;b.cs" (source 3 "$(Shared)\\a.cs;b.cs" .nil)
  .ofContent ⟨0⟩ ⟨⟨⟨"Project", []⟩, .element 1 ⟨"ItemGroup", []⟩ items .nil, 4⟩, none, []⟩

/-- A workspace with this document in memory, as that of a project. -/
def listedProject : Workspace where
  host := ⟨⟨[]⟩, "/w", "/home", none⟩
  cells := [⟨.ofDocument { listedSources with path? := some "/w/A.proj" } {}, .free⟩]
  nextDocument := 1
  registry := .empty {}

theorem reachable_listedProject : listedProject.Reachable := by
  have hparse : Document.parse ⟨0⟩ ("<Project><ItemGroup><Compile Include=\"a.cs; ;b.cs\"/>" ++
      "<Compile Include=\"$(Shared)\\a.cs;b.cs\"/></ItemGroup></Project>") = .ok listedSources := by
    decide +kernel
  intro handle cell hcell
  obtain rfl := List.mem_singleton.mp (List.mem_of_getElem? hcell)
  exact .placed (some "/w/A.proj") (.parsed hparse)

/-- In its copy in another directory the parts of the first list have been rebased. -/
theorem parts_of_clone_listed :
    ∃ w' copy item' first second,
      (clone ⟨0⟩ "out/B.proj" false).run.run listedProject = (.ok ⟨1⟩, w') ∧
      (w'.cell? ⟨1⟩).map Cell.project = some copy ∧ copy.document.tree.find? 2 = some item' ∧
      item'.include? = some (first ++ ";" ++ second) ∧
      first = "..\\a.cs" ∧ listedProject.host.Rebased "/w" "/w/out" "a.cs" first ∧
      second = "..\\b.cs" ∧ listedProject.host.Rebased "/w" "/w/out" "b.cs" second := by
  obtain ⟨w', hclone⟩ : ∃ w', (clone ⟨0⟩ "out/B.proj" false).run.run listedProject
      = (.ok ⟨1⟩, w') := exists_run_eq (by decide +kernel)
  have hout : (((((clone ⟨0⟩ "out/B.proj" false).run.run listedProject).2.cell? ⟨1⟩).map
      Cell.project).bind Project.directory?) = some "/w/out" := by
    decide +kernel
  rw [hclone] at hout
  obtain ⟨p, directory, copy, destination, hsource, hcopy, hdestination, hitems⟩ :=
    parts_of_clone reachable_listedProject hclone
  obtain rfl := Option.some.inj hsource.readable
  obtain rfl : parentPath "/w/A.proj" = directory := Option.some.inj hsource.directory
  rw [hcopy] at hout
  obtain rfl := Option.some.inj (hdestination.symm.trans hout)
  obtain ⟨item', hitem', -, hrebased⟩ :=
    hitems ⟨2, ⟨"Compile", [⟨"Include", "a.cs; ;b.cs"⟩]⟩, .nil⟩ (by decide +kernel) _ rfl
  obtain ⟨parts, hinclude, hparts⟩ := hrebased (by decide +kernel)
  have hread : Project.includeParts "a.cs; ;b.cs" = ["a.cs", "b.cs"] := by decide +kernel
  have hfirst : Project.startsWithReference "a.cs" = false := by decide +kernel
  have hsecond : Project.startsWithReference "b.cs" = false := by decide +kernel
  rw [hread] at hparts
  obtain - | ⟨ha, hparts⟩ := hparts
  obtain - | ⟨hb, hparts⟩ := hparts
  obtain - | - := hparts
  refine ⟨w', copy, item', _, _, hclone, hcopy, hitem', hinclude.trans ?_, ?_, ha hfirst, ?_,
    hb hsecond⟩
  · rfl
  · rw [(ha hfirst).eq]
    decide +kernel
  · rw [(hb hsecond).eq]
    decide +kernel

/-- The second list has been left as it was. Its second part has not been rebased, and names another
file there. -/
theorem clone_leaves_parts :
    ∃ w' copy item', (clone ⟨0⟩ "out/B.proj" false).run.run listedProject = (.ok ⟨1⟩, w') ∧
      (w'.cell? ⟨1⟩).map Cell.project = some copy ∧ copy.document.tree.find? 3 = some item' ∧
      item'.include? = some "$(Shared)\\a.cs;b.cs" ∧
      (¬ ∃ parts, item'.include? = some (";".intercalate parts) ∧
        List.Forall₂ (fun part part' => part' =
            if Project.startsWithReference part then part else rebaseInclude part "/w" "/w/out")
          (Project.includeParts "$(Shared)\\a.cs;b.cs") parts) ∧
      ¬ SameFile (listedProject.host.names "/w/out" "b.cs")
        (listedProject.host.names "/w" "b.cs") := by
  obtain ⟨w', hclone⟩ : ∃ w', (clone ⟨0⟩ "out/B.proj" false).run.run listedProject
      = (.ok ⟨1⟩, w') := exists_run_eq (by decide +kernel)
  have hout : ((((clone ⟨0⟩ "out/B.proj" false).run.run listedProject).2.cell? ⟨1⟩).bind
      fun cell => cell.project.document.tree.find? 3).bind Element.include? =
        some "$(Shared)\\a.cs;b.cs" := by
    decide +kernel
  rw [hclone] at hout
  obtain ⟨item', hitem', hinclude⟩ := Option.bind_eq_some_iff.mp hout
  obtain ⟨cell, hcell, hfind⟩ := Option.bind_eq_some_iff.mp hitem'
  refine ⟨w', cell.project, item', hclone, by rw [hcell]; rfl, hfind, hinclude, ?_,
    by decide +kernel⟩
  rintro ⟨parts, hparts, hrebased⟩
  have hread : Project.includeParts "$(Shared)\\a.cs;b.cs" = ["$(Shared)\\a.cs", "b.cs"] := by
    decide +kernel
  rw [hread] at hrebased
  obtain - | ⟨rfl, hrebased⟩ := hrebased
  obtain - | ⟨rfl, hrebased⟩ := hrebased
  obtain - | - := hrebased
  rw [hinclude] at hparts
  revert hparts
  decide +kernel

end RegistryAction

end BuildProject
