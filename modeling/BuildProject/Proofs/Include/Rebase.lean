import BuildProject.Proofs.Include.NormalForm

/-!
# Rebased include paths

`rebaseInclude` writes a path from another directory. If the path and the directory start from the
same place, the result climbs from the directory to the names that both share and goes down from
there; if not, it is the whole path. Read from the other directory it leads to the path it was made
from, unless it starts with a name that looks like a drive.

Names on a drive are the same in either case, and the result has the shared names as the directory
writes them. So paths are compared by `SameFile`, which is equality where there is no drive.
-/

namespace BuildProject.IncludePath

open Text

/-! ## The same file -/

/-- A name as it is compared: on a drive, case does not count. -/
def foldName (onDrive : Bool) (segment : List Char) : List Char :=
  if onDrive then segment.map Char.toLower else segment

/-- Whether two paths in normal form lead from the same place through the same names. -/
def SameFile (p q : IncludePath) : Prop :=
  sameRoot p q = true ∧
    p.segments.map (foldName p.drive?.isSome) = q.segments.map (foldName p.drive?.isSome)

instance (p q : IncludePath) : Decidable (SameFile p q) :=
  inferInstanceAs (Decidable (_ ∧ _))

theorem sameSegment_iff {onDrive : Bool} {a b : List Char} :
    sameSegment onDrive a b = true ↔ foldName onDrive a = foldName onDrive b := by
  cases onDrive <;> simp [sameSegment, foldName]

theorem sameDrive_iff (a b : Option Char) :
    sameDrive a b = true ↔ a.map Char.toLower = b.map Char.toLower := by
  cases a with
  | none =>
    cases b with
    | none => exact ⟨fun _ => rfl, fun _ => rfl⟩
    | some b => exact ⟨fun h => absurd h Bool.false_ne_true, fun h => absurd h (by simp)⟩
  | some a =>
    cases b with
    | none => exact ⟨fun h => absurd h Bool.false_ne_true, fun h => absurd h (by simp)⟩
    | some b =>
      show (a.toLower == b.toLower) = true ↔ some a.toLower = some b.toLower
      rw [beq_iff_eq, Option.some.injEq]

theorem sameRoot_iff {p q : IncludePath} :
    sameRoot p q = true ↔
      p.rooted = q.rooted ∧ p.drive?.map Char.toLower = q.drive?.map Char.toLower := by
  rw [sameRoot, Bool.and_eq_true, beq_iff_eq, sameDrive_iff]

theorem sameRoot_comm (p q : IncludePath) : sameRoot p q = sameRoot q p := by
  rw [Bool.eq_iff_iff, sameRoot_iff, sameRoot_iff, eq_comm, @eq_comm _ (p.drive?.map _)]

/-- Paths from the same place are both on a drive or both not. -/
theorem isSome_drive?_of_sameRoot {p q : IncludePath} (h : sameRoot p q = true) :
    p.drive?.isSome = q.drive?.isSome := by
  rw [← Option.isSome_map (f := Char.toLower), (sameRoot_iff.mp h).2, Option.isSome_map]

theorem SameFile.refl (p : IncludePath) : SameFile p p :=
  ⟨sameRoot_iff.mpr ⟨rfl, rfl⟩, rfl⟩

theorem map_foldName_false (segments : List (List Char)) :
    segments.map (foldName false) = segments :=
  List.map_id' segments

/-- Without a drive, paths that lead to the same file are equal. -/
theorem SameFile.eq_of_no_drive {p q : IncludePath} (h : SameFile p q) (hdrive : q.drive? = none) :
    p = q := by
  obtain ⟨hroot, hsegments⟩ := h
  have hp : p.drive? = none := by simpa [hdrive] using isSome_drive?_of_sameRoot hroot
  rw [hp, Option.isSome_none, map_foldName_false, map_foldName_false] at hsegments
  have hrooted := (sameRoot_iff.mp hroot).1
  cases p
  cases q
  simp_all

theorem map_toLower_joinSegments (segments : List (List Char)) :
    (joinSegments segments).map Char.toLower =
      joinSegments (segments.map (List.map Char.toLower)) := by
  unfold joinSegments
  induction segments with
  | nil => rfl
  | cons s segments ih =>
    cases segments with
    | nil => simp [List.intercalate_singleton]
    | cons t rest =>
      rw [List.intercalate_cons_cons, List.map_append, ih]
      simp [List.intercalate_cons_cons]

/-- Paths that lead to the same file are written alike but for case. -/
theorem SameFile.map_toLower_toChars {p q : IncludePath} (h : SameFile p q) :
    p.toChars.map Char.toLower = q.toChars.map Char.toLower := by
  cases hdrive : q.drive? with
  | none => rw [h.eq_of_no_drive hdrive]
  | some letter =>
    obtain ⟨hroot, hsegments⟩ := h
    rw [isSome_drive?_of_sameRoot hroot, hdrive, Option.isSome_some] at hsegments
    obtain ⟨hrooted, hletters⟩ := sameRoot_iff.mp hroot
    obtain ⟨letter', hp⟩ : ∃ letter', p.drive? = some letter' := by
      rw [← Option.isSome_iff_exists, isSome_drive?_of_sameRoot hroot, hdrive, Option.isSome_some]
    have hletter : letter'.toLower = letter.toLower := by simpa [hp, hdrive] using hletters
    have hjoin : (joinSegments p.segments).map Char.toLower
        = (joinSegments q.segments).map Char.toLower := by
      rw [map_toLower_joinSegments, map_toLower_joinSegments]
      exact congrArg joinSegments hsegments
    simp only [toChars, hp, hdrive, hrooted, List.map_append, hjoin, Option.elim_some,
      List.map_cons, hletter]

/-! ## What two lists of names share -/

/-- Both lists consist of what they share and what remains. -/
theorem afterCommon_spec (onDrive : Bool) (as bs : List (List Char)) :
    ∃ sharedA sharedB, as = sharedA ++ (afterCommon onDrive as bs).1 ∧
      bs = sharedB ++ (afterCommon onDrive as bs).2 ∧
      sharedA.map (foldName onDrive) = sharedB.map (foldName onDrive) := by
  induction as generalizing bs with
  | nil => exact ⟨[], [], by simp [afterCommon]⟩
  | cons a as ih =>
    cases bs with
    | nil => exact ⟨[], [], by simp [afterCommon]⟩
    | cons b bs =>
      rw [afterCommon]
      split
      · next hsame =>
        obtain ⟨sharedA, sharedB, ha, hb, hshared⟩ := ih bs
        refine ⟨a :: sharedA, b :: sharedB, ?_, ?_, ?_⟩
        · rw [List.cons_append, ← ha]
        · rw [List.cons_append, ← hb]
        · rw [List.map_cons, List.map_cons, sameSegment_iff.mp hsame, hshared]
      · exact ⟨[], [], by simp⟩

/-! ## Resolving what was rebased -/

/-- A text without root and drive continues the directory it is read in. -/
theorem resolve_relative (base : List Char) {text : List Char}
    (hdrive : startsLikeDrive text = false) (hrooted : text.head?.any isSeparator = false) :
    resolve base text = (ofChars base).push text := by
  have hsplit := splitDrive_of_not_like hdrive
  unfold resolve
  simp [hsplit, hrooted]

theorem IsRelative.resolve {target : List Char} (h : IsRelative target) (base : List Char) :
    resolve base target = (ofChars base).push target :=
  resolve_relative base h.not_like h.not_rooted

/-- A whole path stays itself in a directory that starts from another place. -/
theorem resolve_whole (base : List Char) {p : IncludePath} (h : p.Clean)
    (hwhole : p.rooted = true ∨ p.drive?.isSome = true)
    (hroot : sameRoot p (ofChars base) = false) : resolve base p.toChars = p := by
  have hread : ofChars p.toChars = p :=
    ofChars_toChars h (hwhole.elim .inl fun hdrive => .inr (.inl hdrive))
  unfold resolve
  dsimp only
  rw [hread]
  split
  · rfl
  · next hrooted =>
    rw [if_pos]
    exact ⟨hwhole.resolve_left hrooted, by rw [sameRoot_comm, hroot]; rfl⟩

/-- A path resolved in a rooted directory has a root or keeps its own drive. -/
theorem resolve_rooted_or_drive {base : List Char} (h : (ofChars base).rooted = true)
    (target : List Char) :
    (resolve base target).rooted = true ∨ (resolve base target).drive?.isSome = true := by
  unfold resolve
  dsimp only
  split
  · next hrooted => exact .inl hrooted
  · split
    · next hdrive => exact .inr hdrive.1
    · exact .inl h

/-- The names that lead from a rooted directory to a rooted path. -/
theorem relativeTo?_spec {p directory : IncludePath} (hp : p.Clean) (hd : directory.Clean)
    (hrooted : p.rooted = true) (hroot : sameRoot p directory = true) :
    ∃ segments, p.relativeTo? directory = some segments ∧
      (∀ s ∈ segments, s = up ∨ s ∈ p.segments) ∧
      SameFile (directory.push (joinSegments segments)) p := by
  have hdirectory : directory.rooted = true := (sameRoot_iff.mp hroot).1 ▸ hrooted
  -- what is shared is the same but for case, so it is split off each path by itself
  obtain ⟨sharedP, sharedD, hsplitP, hsplitD, hshared⟩ :=
    afterCommon_spec directory.drive?.isSome p.segments directory.segments
  generalize hrest : afterCommon directory.drive?.isSome p.segments directory.segments = rest
    at hsplitP hsplitD
  obtain ⟨down, out⟩ := rest
  have hpNames := hp.segments
  rw [hrooted, hsplitP] at hpNames
  have hdNames := hd.segments
  rw [hdirectory, hsplitD] at hdNames
  have hdown : ∀ s ∈ down, IsName s := fun s hs => hpNames.isName s (by simp [hs])
  refine ⟨out.map (fun _ => up) ++ down, ?_, ?_, ?_⟩
  · simp only [relativeTo?, hroot, if_true, hrest]
  · intro s hs
    rcases List.mem_append.mp hs with hs | hs
    · obtain ⟨-, -, rfl⟩ := List.mem_map.mp hs
      exact .inl rfl
    · exact .inr (by rw [hsplitP]; exact List.mem_append_right _ hs)
  · have hseparator : ∀ s ∈ out.map (fun _ => up) ++ down, ∀ c ∈ s, isSeparator c = false := by
      intro s hs
      rcases List.mem_append.mp hs with hs | hs
      · obtain ⟨-, -, rfl⟩ := List.mem_map.mp hs
        exact fun c hc => not_separator_of_mem_up hc
      · exact (hdown s hs).not_separator
    have hout : ∀ s ∈ out, s ≠ up := fun s hs => (hdNames.isName s (by simp [hs])).ne_up
    -- the climbs take away what only the directory has, the names bring what only the path has
    rw [push_joinSegments _ hseparator, List.foldl_append, hsplitD, foldl_step_climbs hout,
      foldl_step_names hdown]
    refine ⟨?_, ?_⟩
    · rw [sameRoot_comm]
      exact hroot
    · show (sharedD ++ down).map (foldName directory.drive?.isSome)
        = p.segments.map (foldName directory.drive?.isSome)
      rw [hsplitP, List.map_append, List.map_append, hshared]

/-! ## Rebased includes -/

theorem toList_resolveInclude (base target : String) :
    (resolveInclude base target).toList = (resolve base.toList target.toList).toChars := by
  rw [resolveInclude, String.toList_ofList]

/-- A path that starts from another place than the directory is written whole. -/
theorem toList_rebaseInclude_of_other_root {target source destination : String}
    (hroot : sameRoot (resolve source.toList target.toList) (ofChars destination.toList) = false) :
    (rebaseInclude target source destination).toList
      = (resolve source.toList target.toList).toChars := by
  simp only [rebaseInclude, relativeTo?, hroot, Bool.false_eq_true, if_false, String.toList_ofList]

/-- A path that starts from the same place as the directory is written as the names that lead to
it from there. Read from that directory it leads to the same file if it does not look like a path
on a drive. -/
theorem rebaseInclude_of_same_root {target source destination : String}
    (hrooted : (resolve source.toList target.toList).rooted = true)
    (hroot : sameRoot (resolve source.toList target.toList) (ofChars destination.toList) = true) :
    ∃ segments, (rebaseInclude target source destination).toList = joinSegments segments ∧
      (∀ s ∈ segments, s = up ∨ s ∈ (resolve source.toList target.toList).segments) ∧
      (startsLikeDrive (joinSegments segments) = false →
        SameFile (resolve destination.toList (joinSegments segments))
          (resolve source.toList target.toList)) := by
  have hclean := clean_resolve source.toList target.toList
  obtain ⟨segments, hrelative, hmem, hsame⟩ :=
    relativeTo?_spec hclean (clean_ofChars destination.toList) hrooted hroot
  refine ⟨segments, ?_, hmem, ?_⟩
  · simp only [rebaseInclude, hrelative, String.toList_ofList]
  · intro hdrive
    have hname : ∀ s ∈ segments, s ≠ [] ∧ ∀ c ∈ s, isSeparator c = false := by
      intro s hs
      rcases hmem s hs with rfl | hs
      · exact ⟨List.cons_ne_nil _ _, fun c hc => not_separator_of_mem_up hc⟩
      · exact ⟨hclean.segments.ne_nil s hs, hclean.segments.not_separator s hs⟩
    rw [resolve_relative _ hdrive (not_rooted_joinSegments (fun s hs => (hname s hs).1)
      fun s hs => (hname s hs).2)]
    exact hsame

/-- Joined names do not start like a drive if none of them does. -/
theorem not_startsLikeDrive_joinSegments {segments : List (List Char)}
    (h : ∀ s ∈ segments, startsLikeDrive s = false) :
    startsLikeDrive (joinSegments segments) = false := by
  cases segments with
  | nil => rfl
  | cons s rest =>
    rw [startsLikeDrive_joinSegments]
    exact h s (by simp)

/-- The path that a rebased include names, if both directories are rooted. -/
theorem sameFile_rebaseInclude {target source destination : String}
    (hsource : (ofChars source.toList).rooted = true)
    (hdestination : (ofChars destination.toList).rooted = true)
    (hdrive : ∀ s ∈ (resolve source.toList target.toList).segments, startsLikeDrive s = false) :
    SameFile (resolve destination.toList (rebaseInclude target source destination).toList)
      (resolve source.toList target.toList) := by
  have hwhole := resolve_rooted_or_drive hsource target.toList
  cases hroot : sameRoot (resolve source.toList target.toList) (ofChars destination.toList) with
  | false =>
    -- the whole path is written, and read again wherever the directory is
    rw [toList_rebaseInclude_of_other_root hroot,
      resolve_whole _ (clean_resolve source.toList target.toList) hwhole hroot]
    exact SameFile.refl _
  | true =>
    have hrooted : (resolve source.toList target.toList).rooted = true :=
      (sameRoot_iff.mp hroot).1.trans hdestination
    obtain ⟨segments, htext, hmem, hsame⟩ := rebaseInclude_of_same_root hrooted hroot
    rw [htext]
    refine hsame (not_startsLikeDrive_joinSegments fun s hs => ?_)
    rcases hmem s hs with rfl | hs
    · decide
    · exact hdrive s hs

/-- **Rebasing between rooted directories keeps the file that an include names**, whatever mixture
of roots, drives and separators the three texts are. The names agree exactly where there is no
drive, and but for case on one. -/
theorem resolveInclude_rebaseInclude (target source destination : String)
    (hsource : (ofChars source.toList).rooted = true)
    (hdestination : (ofChars destination.toList).rooted = true)
    (hdrive : ∀ s ∈ (resolve source.toList target.toList).segments, startsLikeDrive s = false) :
    sameIgnoringCase (resolveInclude destination (rebaseInclude target source destination))
        (resolveInclude source target) = true ∧
      ((resolve source.toList target.toList).drive? = none →
        resolveInclude destination (rebaseInclude target source destination)
          = resolveInclude source target) := by
  have hsame : SameFile _ _ := sameFile_rebaseInclude hsource hdestination hdrive
  refine ⟨?_, fun hnone => ?_⟩
  · rw [sameIgnoringCase, beq_iff_eq, fold, fold, toList_resolveInclude, toList_resolveInclude,
      hsame.map_toLower_toChars]
  · rw [resolveInclude, hsame.eq_of_no_drive hnone, resolveInclude]

/-- From one directory on a drive to another, both written in their own way. -/
theorem resolveInclude_rebaseInclude_shared :
    sameIgnoringCase
        (resolveInclude "c:/proj/B/Deep"
          (rebaseInclude "../Shared\\.\\Foo.cs" "C:\\Proj\\A" "c:/proj/B/Deep"))
        (resolveInclude "C:\\Proj\\A" "../Shared\\.\\Foo.cs") = true ∧
      rebaseInclude "../Shared\\.\\Foo.cs" "C:\\Proj\\A" "c:/proj/B/Deep"
        = "..\\..\\Shared\\Foo.cs" :=
  ⟨(resolveInclude_rebaseInclude "../Shared\\.\\Foo.cs" "C:\\Proj\\A" "c:/proj/B/Deep"
    (by decide) (by decide) (by decide)).1, by decide⟩

end BuildProject.IncludePath
