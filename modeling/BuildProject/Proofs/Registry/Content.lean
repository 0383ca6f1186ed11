import BuildProject.Proofs.Project.Meaning
import BuildProject.Proofs.Registry.Operations

/-!
# What a copy says and means

A copy is made of the whole document of its source, and only its sources are rewritten
(`document_of_clone`). The project that is copied stays as it is, and so do all others but the one
that the copy overwrites.

A copy is evaluated when it is made, and its places are looked for then, before its sources are
rewritten. That does no harm: afterwards it would evaluate to the same properties, and the same
places would be found (`meansAs_of_clone`).
-/

namespace BuildProject.RegistryAction

open Workspace Markup

variable {w w' : Workspace} {source handle : Handle} {path : String} {overwrite : Bool}

/-- A copy is made of its source by one rewriting. -/
theorem rewritten_of_clone (hw : w.Reachable)
    (hclone : (clone source path overwrite).run.run w = (.ok handle, w')) :
    ∃ key p directory copy fresh revision next, w.key path = .ok key ∧
      Source w source p directory ∧ w'.cell? handle = some ⟨copy, .free⟩ ∧
      w' = (w.freshDocument.2.unloadKey key).2.withProject key copy ∧
      (∀ id, p.document.tree.next ≤ fresh id) ∧
      copy = (copyFor w p key).setTree { p.document.tree with
        content := p.document.tree.content.rewrite
          (w.registry.conventions.rewriting directory (parentPath key) fresh) false
        next } revision := by
  obtain ⟨key, p, directory, copy, hkey, hsource, hrebase, hcell, hstate⟩ :=
    cloned_of_clone hw hclone
  have hp := wellFormed_copyFor (hsource.document_reachable hw).wellFormed w key
  obtain ⟨fresh, revision, next, hfresh, hcopy⟩ :=
    Project.rebaseSources_eq_ok hp (directory?_copyFor w p key) hrebase
  exact ⟨key, p, directory, copy, fresh, revision, next, hkey, hsource, hcell, hstate, hfresh,
    hcopy⟩

/-- Copying leaves alone all projects but the one that is overwritten. -/
theorem cell?_of_clone {key : String} {copy : Project} {other : Handle}
    (hother : (w.cell? other).isSome) (hne : w.registry.find? key ≠ some other) :
    ((w.freshDocument.2.unloadKey key).2.withProject key copy).cell? other = w.cell? other := by
  have hunload : (w.freshDocument.2.unloadKey key).2.cell? other = w.cell? other :=
    cell?_unloadKey_of_ne hne
  rw [← hunload] at hother ⊢
  exact cell?_addProject_of_some copy hother

/-- **What a copy says.** The document of a copy is that of its source, node by node, with an
identity of its own and for another file, and with the sources in its item groups rewritten. The
identities of the links are new. Nothing else happens: the other projects stay as they are, the
source among them unless it is overwritten, and so do the files. -/
theorem document_of_clone (hw : w.Reachable)
    (hclone : (clone source path overwrite).run.run w = (.ok handle, w')) :
    ∃ key p directory copy, w.key path = .ok key ∧ Source w source p directory ∧
      w'.cell? handle = some ⟨copy, .free⟩ ∧
      (∀ other, (w.cell? other).isSome → w.registry.find? key ≠ some other →
        w'.cell? other = w.cell? other) ∧
      w'.host = w.host ∧
      ∃ fresh revision next, (∀ id, p.document.tree.next ≤ fresh id) ∧
        copy.document = { p.document with
          id := w.freshDocument.1
          path? := some key
          revision
          tree := { p.document.tree with
            content := p.document.tree.content.rewrite
              (w.registry.conventions.rewriting directory (parentPath key) fresh) false
            next } } := by
  obtain ⟨key, p, directory, copy, fresh, revision, next, hkey, hsource, hcell, hstate, hfresh,
    hcopy⟩ := rewritten_of_clone hw hclone
  refine ⟨key, p, directory, copy, hkey, hsource, hcell, ?_, ?_, fresh, revision, next, hfresh, ?_⟩
  · intro other hother hne
    rw [hstate]
    exact cell?_of_clone hother hne
  · rw [hstate]
    exact host_unloadKey _ key
  · rw [hcopy]
    rfl

/-- A document with sources in an item group, in an item group inside it and in none. -/
def nestedSources : Document :=
  let source := fun id includeText => Forest.element id
    ⟨"Compile", [⟨"Include", includeText⟩]⟩ .nil
  let inner := Forest.element 4 ⟨"ItemGroup", []⟩ (source 5 " a.cs; ;b.cs " .nil) .nil
  let outer := source 2 "Foo.cs" (source 3 "$(Out)/x.cs" inner)
  { Document.empty ⟨0⟩ with
    revision := 10
    tree := ⟨Document.emptyContent.tree.tag,
      .element 1 ⟨"ItemGroup", []⟩ outer (source 6 "c.cs" .nil), 7⟩ }

theorem reachable_nestedSources : nestedSources.Reachable := by
  have hedited : nestedSources = (Document.empty ⟨0⟩).after
      [.addItemGroup, .addItem ⟨⟨0⟩, 1⟩ "Compile" "Foo.cs",
        .addItem ⟨⟨0⟩, 1⟩ "Compile" "$(Out)/x.cs", .appendElement ⟨⟨0⟩, 1⟩ "ItemGroup",
        .addItem ⟨⟨0⟩, 4⟩ "Compile" " a.cs; ;b.cs ", .appendElement ⟨⟨0⟩, 0⟩ "Compile",
        .setAttribute ⟨⟨0⟩, 6⟩ "Include" "c.cs"] := by decide +kernel
  rw [hedited]
  exact .after (.empty ⟨0⟩) _

/-- A workspace with this document in memory, as that of a project. -/
def nestedProject : Workspace where
  host := ⟨⟨[]⟩, "/w", "/home", none⟩
  cells := [⟨.ofDocument { nestedSources with path? := some "/w/A.proj" } {}, .free⟩]
  nextDocument := 1
  registry := .empty {}

/-- In its copy the sources in item groups have other includes, but for the one that starts with a
reference. The one that names one file has got a link, and the project itself stays as it is. -/
theorem document_of_clone_nested :
    ∃ w' copy fresh, (clone ⟨0⟩ "out/B.proj" false).run.run nestedProject = (.ok ⟨1⟩, w') ∧
      w'.cell? ⟨1⟩ = some ⟨copy, .free⟩ ∧ w'.cell? ⟨0⟩ = nestedProject.cell? ⟨0⟩ ∧ 7 ≤ fresh ∧
      copy.document.tree.content =
        .element 1 ⟨"ItemGroup", []⟩
          (.element 2 ⟨"Compile", [⟨"Include", "..\\Foo.cs"⟩]⟩
            (.element fresh ⟨"Link", []⟩ (.leaf (fresh + 1) (.text "Foo.cs") .nil) .nil)
          (.element 3 ⟨"Compile", [⟨"Include", "$(Out)/x.cs"⟩]⟩ .nil
          (.element 4 ⟨"ItemGroup", []⟩
            (.element 5 ⟨"Compile", [⟨"Include", "..\\a.cs;..\\b.cs"⟩]⟩ .nil .nil) .nil)))
        (.element 6 ⟨"Compile", [⟨"Include", "c.cs"⟩]⟩ .nil .nil) := by
  have hreachable : nestedProject.Reachable := by
    intro handle cell hcell
    obtain rfl := List.mem_singleton.mp (List.mem_of_getElem? hcell)
    exact .placed (some "/w/A.proj") reachable_nestedSources
  obtain ⟨w', hclone⟩ : ∃ w', (clone ⟨0⟩ "out/B.proj" false).run.run nestedProject
      = (.ok ⟨1⟩, w') := exists_run_eq (by decide +kernel)
  obtain ⟨key, p, directory, copy, hkey, hsource, hcell, hothers, -, fresh, revision, next, hfresh,
    hcopy⟩ := document_of_clone hreachable hclone
  have hnormal : nestedProject.key "out/B.proj" = .ok "/w/out/B.proj" := by decide +kernel
  obtain rfl : "/w/out/B.proj" = key := Except.ok.inj (hnormal.symm.trans hkey)
  obtain rfl := Option.some.inj hsource.readable
  obtain rfl : parentPath "/w/A.proj" = directory := Option.some.inj hsource.directory
  refine ⟨w', copy, fresh 2, hclone, hcell, hothers ⟨0⟩ rfl nofun, hfresh 2, ?_⟩
  rw [hcopy]
  show nestedSources.tree.content.rewrite
    (Conventions.rewriting {} (parentPath "/w/A.proj") (parentPath "/w/out/B.proj") fresh) false = _
  have hfoo : Conventions.rewrite? {} (parentPath "/w/A.proj") (parentPath "/w/out/B.proj")
      ⟨2, ⟨"Compile", [⟨"Include", "Foo.cs"⟩]⟩, .nil⟩ = some ⟨"..\\Foo.cs", some "Foo.cs"⟩ := by
    decide +kernel
  have hout : Conventions.rewrite? {} (parentPath "/w/A.proj") (parentPath "/w/out/B.proj")
      ⟨3, ⟨"Compile", [⟨"Include", "$(Out)/x.cs"⟩]⟩, .nil⟩ = none := by
    decide +kernel
  have hgroup (content : Forest) : Conventions.rewrite? {} (parentPath "/w/A.proj")
      (parentPath "/w/out/B.proj") ⟨4, ⟨"ItemGroup", []⟩, content⟩ = none := rfl
  have hparts : Conventions.rewrite? {} (parentPath "/w/A.proj") (parentPath "/w/out/B.proj")
      ⟨5, ⟨"Compile", [⟨"Include", " a.cs; ;b.cs "⟩]⟩, .nil⟩
        = some ⟨"..\\a.cs;..\\b.cs", none⟩ := by
    decide +kernel
  simp [nestedSources, Forest.rewrite, Conventions.rewriting, itemGroupElement, hfoo, hout, hgroup,
    hparts, Rewrite.tag, Rewrite.added, Rewrite.linkElement, Forest.ofElement, Forest.ofLeaf,
    Tag.set, Tag.setIn, includeAttribute]

/-! ## What a copy means -/

/-- **A copy means what its source says**: it has the properties that the document of the source
evaluates to now, its identifier and the places that would be found in it, carried over. Looking for
the places again would find the same. -/
theorem meansAs_of_clone (hw : w.Reachable)
    (hgroup : w.registry.conventions.sourceItem ≠ propertyGroupElement)
    (hreference : w.registry.conventions.sourceItem ≠ w.registry.conventions.referenceItem)
    (hclone : (clone source path overwrite).run.run w = (.ok handle, w')) :
    ∃ p directory copy, Source w source p directory ∧ w'.cell? handle = some ⟨copy, .free⟩ ∧
      copy.MeansAs (.ofDocument p.document w.registry.conventions) ∧
      (Project.ofDocument copy.document w.registry.conventions).SamePlaces copy := by
  obtain ⟨key, p, directory, copy, fresh, revision, next, -, hsource, hcell, -, hfresh, hcopy⟩ :=
    rewritten_of_clone hw hclone
  have hwf : p.document.tree.WellFormed := (hsource.document_reachable hw).wellFormed
  have hmade : copy.MadeFrom p.document w.registry.conventions := by
    rw [hcopy]
    exact ⟨rfl, rfl, rfl, rfl, rfl⟩
  have hrewritten : p.document.Rewritten
      (w.registry.conventions.rewriting directory (parentPath key) fresh) copy.document := by
    rw [hcopy]
    exact ⟨rfl, hfresh⟩
  exact ⟨p, directory, copy, hsource, hcell, hmade.meansAs hwf hrewritten hgroup,
    hmade.samePlaces hrewritten hgroup hreference⟩

/-- A document with an identifier, a reference to the baseline assembly, a source and an import of
the build tools. -/
def wholeProject : Document :=
  let identifier := Forest.element 2 ⟨"ProjectGuid", []⟩
    (.leaf 3 (.text "{6F9619FF-8B86-D011-B42D-00C04FC964FF}") .nil) .nil
  let items := Forest.element 5 ⟨"Reference", [⟨"Include", "System"⟩]⟩ .nil
    (.element 6 ⟨"Compile", [⟨"Include", "Foo.cs"⟩]⟩ .nil .nil)
  let buildTools := Forest.element 7 ⟨"Import", [⟨"Project", "Microsoft.CSharp.targets"⟩]⟩ .nil .nil
  { Document.empty ⟨0⟩ with
    revision := 10
    tree := ⟨Document.emptyContent.tree.tag,
      .element 1 ⟨"PropertyGroup", []⟩ identifier (.element 4 ⟨"ItemGroup", []⟩ items buildTools),
      8⟩ }

theorem reachable_wholeProject : wholeProject.Reachable := by
  have hedited : wholeProject = (Document.empty ⟨0⟩).after
      [.addPropertyGroup,
        .setProperty ⟨⟨0⟩, 1⟩ "ProjectGuid" "{6F9619FF-8B86-D011-B42D-00C04FC964FF}",
        .addItemGroup, .addItem ⟨⟨0⟩, 4⟩ "Reference" "System",
        .addItem ⟨⟨0⟩, 4⟩ "Compile" "Foo.cs", .addImport "Microsoft.CSharp.targets"] := by
    decide +kernel
  rw [hedited]
  exact .after (.empty ⟨0⟩) _

/-- A workspace with this document in memory, in which links are called property groups. -/
def groupLinks : Workspace where
  host := ⟨⟨[]⟩, "/w", "/home", none⟩
  cells :=
    [⟨.ofDocument { wholeProject with path? := some "/w/A.proj" } { linkMetadata := "PropertyGroup" },
      .free⟩]
  nextDocument := 1
  registry := .empty { linkMetadata := "PropertyGroup" }

/-- The source of its copy gets a property group for its link, which counts for nothing. -/
theorem meansAs_of_clone_groupLinks :
    ∃ w' copy, (clone ⟨0⟩ "out/B.proj" false).run.run groupLinks = (.ok ⟨1⟩, w') ∧
      w'.cell? ⟨1⟩ = some ⟨copy, .free⟩ ∧
      copy.MeansAs (.ofDocument { wholeProject with path? := some "/w/A.proj" }
        groupLinks.registry.conventions) ∧
      (Project.ofDocument copy.document groupLinks.registry.conventions).SamePlaces copy ∧
      copy.guid?.isSome = true ∧ copy.defaultPropertyGroup?.map Element.id = some 1 ∧
      copy.defaultItemGroup?.map Element.id = some 4 ∧
      copy.buildToolsImport?.map Element.id = some 7 := by
  have hreachable : groupLinks.Reachable := by
    intro handle cell hcell
    obtain rfl := List.mem_singleton.mp (List.mem_of_getElem? hcell)
    exact .placed (some "/w/A.proj") reachable_wholeProject
  obtain ⟨w', hclone⟩ : ∃ w', (clone ⟨0⟩ "out/B.proj" false).run.run groupLinks
      = (.ok ⟨1⟩, w') := exists_run_eq (by decide +kernel)
  obtain ⟨p, directory, copy, hsource, hcell, hmeans, hplaces⟩ :=
    meansAs_of_clone hreachable (by decide) (by decide) hclone
  obtain rfl := Option.some.inj hsource.readable
  refine ⟨w', copy, hclone, hcell, hmeans, hplaces, ?_, ?_, ?_, ?_⟩
  · rw [hmeans.guid]
    decide +kernel
  · rw [hmeans.defaultPropertyGroup]
    decide +kernel
  · rw [hmeans.defaultItemGroup]
    decide +kernel
  · rw [hmeans.buildToolsImport]
    decide +kernel

end BuildProject.RegistryAction
