import BuildProject.Proofs.Include.Rebase

/-!
# Includes that are read from another place

A path without root and drive leads somewhere only from a directory. `follow` says where: it goes
through the names of the path from the directory on. A path that was resolved in a relative
directory is such a path, and what is written for it is read from another directory
(`sameFile_resolve_rebaseInclude_iff`).
-/

namespace BuildProject.IncludePath

open Text

/-- Where a path leads from a directory. A path with a root or a drive leads there from anywhere. -/
def follow (directory p : IncludePath) : IncludePath :=
  if p.rooted ∨ p.drive?.isSome then p
  else { directory with segments := p.segments.foldl (step directory.rooted) directory.segments }

theorem follow_of_whole {directory p : IncludePath} (h : p.rooted ∨ p.drive?.isSome) :
    directory.follow p = p :=
  if_pos h

/-- Going on from a directory by two texts with a separator between them. -/
theorem push_append (p : IncludePath) (first second : List Char) {separator : Char}
    (h : isSeparator separator = true) :
    p.push (first ++ separator :: second) = (p.push first).push second := by
  unfold push
  rw [List.splitOnP_append_cons _ _ h, List.foldl_append]

theorem push_nil (p : IncludePath) : p.push [] = p := by
  rw [push, List.splitOnP_nil, List.foldl_cons, List.foldl_nil, step, if_pos (.inl rfl)]

/-- A text that starts with a slash is read from the root. -/
theorem ofChars_of_slash {cs : List Char} (h : cs.head? = some '/') :
    ofChars cs = push ⟨none, true, []⟩ cs := by
  obtain ⟨rest, rfl⟩ := List.head?_eq_some_iff.mp h
  have hlike : startsLikeDrive ('/' :: rest) = false := not_startsLikeDrive (by decide) rest
  rw [ofChars, splitDrive_of_not_like hlike]
  rfl

/-- A rooted text leads to the same place from everywhere. -/
theorem resolve_rooted (base : List Char) {text : List Char} (hdrive : startsLikeDrive text = false)
    (hrooted : text.head?.any isSeparator = true) : resolve base text = ofChars text := by
  unfold resolve
  dsimp only
  rw [if_pos]
  rw [ofChars_rooted, splitDrive_of_not_like hdrive, hrooted]

theorem isSome_drive?_resolve (base : List Char) {text : List Char}
    (h : startsLikeDrive text = true) : (resolve base text).drive?.isSome = true := by
  unfold resolve
  dsimp only
  split
  · exact h
  · split
    · exact h
    · next hnot =>
      have hroot : sameRoot (ofChars base) (ofChars text) = true := by
        by_contra hother
        exact hnot ⟨h, by simpa using hother⟩
      rw [push_drive?, isSome_drive?_of_sameRoot hroot]
      exact h

theorem drive?_resolve {base text : List Char} (h : startsLikeDrive text = false)
    (hbase : (ofChars base).drive? = none) : (resolve base text).drive? = none := by
  cases hroot : text.head?.any isSeparator with
  | true => rw [resolve_rooted base h hroot, ofChars_drive?, splitDrive_of_not_like h]
  | false => rw [resolve_relative base h hroot, push_drive?, hbase]

/-! ## Rebased includes -/

section Rebased

variable {target source destination : String} {base home : List Char}

/-- What is written for a path on a drive leads to it from a directory without a drive. -/
theorem resolve_rebaseInclude_of_drive
    (hdrive : (resolve source.toList target.toList).drive?.isSome)
    (hdestination : (ofChars destination.toList).drive? = none)
    (hbase : (ofChars base).drive? = none) :
    resolve base (rebaseInclude target source destination).toList
      = resolve source.toList target.toList := by
  have hother {directory : IncludePath} (h : directory.drive? = none) :
      sameRoot (resolve source.toList target.toList) directory = false := by
    rw [Bool.eq_false_iff]
    intro hroot
    have hsome := isSome_drive?_of_sameRoot hroot
    rw [hdrive, h] at hsome
    exact absurd hsome (by decide)
  rw [toList_rebaseInclude_of_other_root (hother hdestination)]
  exact resolve_whole base (clean_resolve _ _) (.inr hdrive) (hother hbase)

/-- What is written for a path without a drive leads where the path leads from the directory, if it
does not look like a path on a drive. -/
theorem resolve_rebaseInclude_of_not_like
    (hdrive : (resolve source.toList target.toList).drive? = none)
    (hbase : (ofChars base).drive? = none) (hrooted : (ofChars base).rooted = true)
    (hplace : destination.toList = base ∨ destination.toList = [])
    (hlike : startsLikeDrive (rebaseInclude target source destination).toList = false) :
    resolve base (rebaseInclude target source destination).toList
      = (ofChars base).follow (resolve source.toList target.toList) := by
  have hclean := clean_resolve source.toList target.toList
  cases hwhole : (resolve source.toList target.toList).rooted with
  | true =>
    rw [follow_of_whole (.inl hwhole)]
    rcases hplace with hsame | hempty
    · -- the include is written as the way that leads to the path from the directory
      have hroot : sameRoot (resolve source.toList target.toList) (ofChars destination.toList)
          = true := by
        rw [sameRoot_iff, hwhole, hsame, hrooted, hdrive, hbase]
        exact ⟨rfl, rfl⟩
      obtain ⟨segments, htext, -, hsameFile⟩ := rebaseInclude_of_same_root hwhole hroot
      rw [htext] at hlike
      rw [htext, ← hsame]
      exact (hsameFile hlike).eq_of_no_drive hdrive
    · -- nothing leads anywhere from the empty directory, so the path is written whole
      have hroot : sameRoot (resolve source.toList target.toList) (ofChars destination.toList)
          = false := by
        rw [Bool.eq_false_iff, Ne, sameRoot_iff, hwhole, hempty]
        exact fun hsame => absurd hsame.1 (by decide)
      have hhead : (resolve source.toList target.toList).toChars.head?.any isSeparator = true := by
        rw [toChars, hdrive, hwhole]
        rfl
      rw [toList_rebaseInclude_of_other_root hroot] at hlike ⊢
      rw [resolve_rooted base hlike hhead, ofChars_toChars hclean (.inl hwhole)]
  | false =>
    have htext : (rebaseInclude target source destination).toList
        = joinSegments (resolve source.toList target.toList).segments := by
      rcases hplace with hsame | hempty
      · have hroot : sameRoot (resolve source.toList target.toList) (ofChars destination.toList)
            = false := by
          rw [Bool.eq_false_iff, Ne, sameRoot_iff, hwhole, hsame, hrooted]
          exact fun hsame => absurd hsame.1 (by decide)
        rw [toList_rebaseInclude_of_other_root hroot, toChars, hdrive, hwhole]
        rfl
      · have hroot : sameRoot (resolve source.toList target.toList) (ofChars [])
            = true := by
          rw [sameRoot_iff, hwhole, hdrive]
          exact ⟨rfl, rfl⟩
        have hall (segments : List (List Char)) :
            afterCommon false segments [] = (segments, []) := by
          cases segments <;> rfl
        have hnone : (ofChars []).drive?.isSome = false := rfl
        have hsegments : (ofChars []).segments = [] := rfl
        simp only [rebaseInclude, hempty, relativeTo?, hroot, if_true, hnone, hsegments, hall,
          List.map_nil, List.nil_append, String.toList_ofList]
    have hsegments := hclean.segments
    rw [htext] at hlike
    rw [htext, resolve_relative base hlike
      (not_rooted_joinSegments hsegments.ne_nil hsegments.not_separator),
      push_joinSegments _ hsegments.not_separator, follow, if_neg (by simp [hwhole, hdrive])]

/-- **When a rebased include still names its file.** The include was written for the directory
`destination`, which is rooted or empty, and is read at `base`; `home` is where it was read before.
It names the same file when its text does not look like a path on a drive, unless it is one, and
when the path, as it was resolved in `source`, leads to that file from `base`. -/
theorem sameFile_resolve_rebaseInclude_iff
    (hdestination : (ofChars destination.toList).drive? = none)
    (hbase : (ofChars base).drive? = none) (hrooted : (ofChars base).rooted = true)
    (hplace : destination.toList = base ∨ destination.toList = [])
    (hhome : (ofChars home).drive? = none) :
    SameFile (resolve base (rebaseInclude target source destination).toList)
        (resolve home target.toList) ↔
      ((resolve source.toList target.toList).drive?.isSome ∨
        startsLikeDrive (rebaseInclude target source destination).toList = false) ∧
      SameFile ((ofChars base).follow (resolve source.toList target.toList))
        (resolve home target.toList) := by
  cases hdrive : (resolve source.toList target.toList).drive? with
  | some letter =>
    have hsome : (resolve source.toList target.toList).drive?.isSome := by rw [hdrive]; rfl
    rw [resolve_rebaseInclude_of_drive hsome hdestination hbase, follow_of_whole (.inr hsome)]
    simp
  | none =>
    cases hlike : startsLikeDrive (rebaseInclude target source destination).toList with
    | false =>
      rw [resolve_rebaseInclude_of_not_like hdrive hbase hrooted hplace hlike]
      simp
    | true =>
      -- the text is read as a path on a drive, but the include names none
      have htarget : startsLikeDrive target.toList = false := by
        rw [Bool.eq_false_iff]
        intro htarget
        have hsome := isSome_drive?_resolve source.toList htarget
        rw [hdrive] at hsome
        contradiction
      have hdifferent : ¬ SameFile (resolve base (rebaseInclude target source destination).toList)
          (resolve home target.toList) := by
        intro hsame
        have hdrives := isSome_drive?_of_sameRoot hsame.1
        rw [isSome_drive?_resolve base hlike, drive?_resolve htarget hhome] at hdrives
        contradiction
      simp [hdifferent]

end Rebased

end BuildProject.IncludePath
