import BuildProject.Proofs.Files.Spelling
import BuildProject.Proofs.Registry.Runs

/-!
# Keys and spellings

The registry finds a project by any spelling of its path, since all spellings have one key, and the
keys that it lists are among them. `key_of_spellings` says so about paths, and about the registry
after any run of operations and clients.
-/

namespace BuildProject

namespace Workspace

theorem key_eq (w : Workspace) (path : String) :
    w.key path = normalizePath w.host.workingDirectory path := rfl

/-- A project is found by every spelling of its key. -/
theorem WellFormed.get?_of_samePath {w : Workspace} (hw : w.WellFormed)
    (hdirectory : w.host.workingDirectory.toList.head? = some '/') {key path : String}
    {handle : Handle} (hfind : w.registry.find? key = some handle)
    (hsame : SamePath w.host.workingDirectory.toList path.toList key.toList) :
    w.get? path = some handle ∧ w.contains path = true := by
  have hkey : w.key path = .ok key := by
    rw [key_eq, (normalizePath_eq_iff_samePath hdirectory path key).mpr hsame,
      normalizePath_of_normal (hw.normal key handle hfind)]
  have hget : w.get? path = some handle := by
    rw [get?_eq, key?_of_key hkey, Option.bind_some, hfind]
  exact ⟨hget, by rw [contains, hget]; rfl⟩

end Workspace

/-- **Every spelling of a path has one key.** Each text but the empty one has a key, which is in
normal form and its own key from every working directory; two texts have one key exactly if they
are spellings of one path; and after every run of a registry each key that it lists is found, by
all its spellings. -/
theorem key_of_spellings (workingDirectory : String)
    (hdirectory : Host.isAbsolute workingDirectory = true) :
    (∀ path, path ≠ "" → ∃ key, normalizePath workingDirectory path = .ok key ∧
      IsNormalPath key ∧ ∀ other, normalizePath other key = .ok key) ∧
    (∀ path path', normalizePath workingDirectory path = normalizePath workingDirectory path' ↔
      SamePath workingDirectory.toList path.toList path'.toList) ∧
    ∀ start events w, start.registry.handles = [] → start.Reachable → Run start events w →
      w.host.workingDirectory = workingDirectory →
      ∀ key ∈ w.registry.keys, ∃ handle, w.registry.find? key = some handle ∧
        ∀ path, SamePath workingDirectory.toList path.toList key.toList →
          w.get? path = some handle ∧ w.contains path = true := by
  have hhead : workingDirectory.toList.head? = some '/' := by
    simpa [Host.isAbsolute] using hdirectory
  refine ⟨fun path hne => ?_, normalizePath_eq_iff_samePath hhead, ?_⟩
  · have hkey := normalizePath_of_ne_empty workingDirectory hne
    have hnormal := isNormalPath_of_normalizePath hkey
    exact ⟨_, hkey, hnormal, normalizePath_of_normal hnormal⟩
  · rintro start events w hempty hreachable hrun rfl key hmem
    have hw := hrun.wellFormed (Workspace.wellFormed_of_empty hempty hreachable)
    obtain ⟨handle, hfind⟩ := Option.isSome_iff_exists.mp (Registry.mem_keys_iff.mp hmem)
    exact ⟨handle, hfind, fun path hsame => hw.get?_of_samePath hhead hfind hsame⟩

/-- A workspace with one project in memory, which belongs to a file, and nothing registered. -/
def Run.oneProject : Workspace where
  host := ⟨⟨[]⟩, "/w", "/home", none⟩
  cells := [⟨.ofDocument { Document.empty ⟨0⟩ with path? := some "/a/A.proj" } {}, .free⟩]
  nextDocument := 1
  registry := .empty {}

/-- A copy is registered under its absolute path and found by a relative one with a detour. -/
theorem key_of_spellings_detour :
    ∃ w : Workspace, w.host.workingDirectory = "/w" ∧ "/w/b/B.proj" ∈ w.registry.keys ∧
      SamePath "/w".toList "b/x/../B.proj".toList "/w/b/B.proj".toList ∧
      normalizePath "/w" "b/x/../B.proj" = normalizePath "/w" "/w/b/B.proj" ∧
      (∃ key, normalizePath "/w" "b/x/../B.proj" = .ok key ∧ IsNormalPath key) ∧
      w.contains "b/x/../B.proj" = true := by
  have hrun := (@Run.start Run.oneProject).operate (.clone ⟨0⟩ "b/B.proj" false)
  have hreachable : Run.oneProject.Reachable := by
    intro handle cell hcell
    obtain rfl := List.mem_singleton.mp (List.mem_of_getElem? hcell)
    exact .placed _ (.empty _)
  -- the detour is left out, then the working directory is written in front
  have hname : IsFileName ['x'] := ⟨by decide, by decide, by decide⟩
  have hdetour : Respelling "/w".toList "b/B.proj".toList "b/x/../B.proj".toList :=
    .between (.back hname) ['b'] "B.proj".toList
  have habsolute : Respelling "/w".toList "b/B.proj".toList "/w/b/B.proj".toList :=
    .absolute (by decide) (by decide)
  have hsame : SamePath "/w".toList "b/x/../B.proj".toList "/w/b/B.proj".toList :=
    .trans _ _ _ (.symm _ _ (.rel _ _ hdetour)) (.rel _ _ habsolute)
  obtain ⟨hkeys, hspellings, hregistry⟩ := key_of_spellings "/w" (by decide)
  obtain ⟨key, hkey, hnormal, -⟩ := hkeys "b/x/../B.proj" (by decide)
  have hlisted : "/w/b/B.proj" ∈
      (Run.oneProject.perform (.clone ⟨0⟩ "b/B.proj" false)).2.registry.keys := by decide
  obtain ⟨handle, -, hfound⟩ := hregistry _ _ _ rfl hreachable hrun rfl _ hlisted
  exact ⟨_, rfl, hlisted, hsame, (hspellings _ _).mpr hsame, ⟨key, hkey, hnormal⟩,
    (hfound _ hsame).2⟩

end BuildProject
