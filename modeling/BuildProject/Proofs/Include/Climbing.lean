import BuildProject.Proofs.Include.Rebase

/-!
# Rebasing between relative directories

A path without root or drive may start with some `..` in normal form, its climbs. They lead to
places whose names are not known, so going on from a directory never takes one of its climbs back
(`climbs_le_resolve`): what has fewer climbs than the directory cannot be named from there.

`relativeTo?` writes a `..` for each name of the directory that the path does not share, and takes
a climb that is not shared for a name. So rebasing keeps the file exactly where some include names
it at all: from directories with no more climbs than the path has
(`resolveInclude_rebaseInclude_iff_climbs`).
-/

namespace BuildProject.IncludePath

/-- How many times a path in normal form leads up before it leads down. -/
def climbs (p : IncludePath) : Nat :=
  p.segments.count up

/-! ## Climbs are not taken back -/

theorem count_up_le_step (segments : List (List Char)) (s : List Char) :
    segments.count up ≤ (step false segments s).count up := by
  unfold step
  split
  · exact Nat.le_refl _
  split
  · split
    · next hlast =>
      -- what is cancelled is a name
      obtain ⟨last, hlast, hne⟩ := (Option.any_eq_true _ _).mp hlast
      obtain ⟨names, rfl⟩ := List.getLast?_eq_some_iff.mp hlast
      have hne : last ≠ up := by simpa using hne
      rw [List.dropLast_concat, List.count_append, List.count_singleton, beq_false_of_ne hne]
      exact Nat.le_refl _
    · exact (List.sublist_append_left _ _).count_le _
  · exact (List.sublist_append_left _ _).count_le _

theorem climbs_le_push {p : IncludePath} (hrooted : p.rooted = false) (cs : List Char) :
    p.climbs ≤ (p.push cs).climbs := by
  unfold climbs push
  rw [hrooted]
  generalize p.segments = segments
  induction cs.splitOnP isSeparator generalizing segments with
  | nil => exact Nat.le_refl _
  | cons s names ih => exact (count_up_le_step segments s).trans (ih _)

/-- What is named from a directory, but by neither a root nor a drive, has at least the climbs of
the directory. -/
theorem climbs_le_resolve {base target : List Char} (hrooted : (resolve base target).rooted = false)
    (hdrive : (resolve base target).drive? = none) :
    (ofChars base).climbs ≤ (resolve base target).climbs := by
  unfold resolve at hrooted hdrive ⊢
  dsimp only at hrooted hdrive ⊢
  split at hrooted
  · next hroot => exact absurd (hrooted.symm.trans hroot) (by decide)
  · next hroot =>
    rw [if_neg hroot] at hdrive ⊢
    split at hrooted
    · next hother =>
      rw [if_pos hother] at hdrive
      rw [hdrive] at hother
      exact absurd hother.1 (by decide)
    · next hsame =>
      have hbase : (ofChars base).rooted = false := hrooted
      rw [if_neg hsame]
      exact climbs_le_push hbase _

/-! ## What two paths share -/

/-- The climbs of a path in normal form and the names behind them. -/
theorem Clean.exists_names {p : IncludePath} (h : p.Clean) :
    ∃ names, p.segments = List.replicate p.climbs up ++ names ∧ ∀ s ∈ names, IsName s := by
  obtain ⟨climbs, names, hsegments, hnames, -⟩ := h.segments
  have hcount : p.climbs = climbs := by
    have hnone : names.count up = 0 := List.count_eq_zero.mpr fun hup => (hnames up hup).ne_up rfl
    rw [IncludePath.climbs, hsegments, List.count_append, List.count_replicate_self, hnone,
      Nat.add_zero]
  exact ⟨names, by rw [hcount, hsegments], hnames⟩

/-- What comes before a shared start is shared too. -/
theorem afterCommon_append (onDrive : Bool) (shared as bs : List (List Char)) :
    afterCommon onDrive (shared ++ as) (shared ++ bs) = afterCommon onDrive as bs := by
  induction shared with
  | nil => rfl
  | cons s shared ih =>
    rw [List.cons_append, List.cons_append, afterCommon, if_pos (sameSegment_iff.mpr rfl), ih]

/-- Only names of the directory are left when the climbs that it has are shared. -/
theorem exists_shared {p directory : IncludePath} (hp : p.Clean) (hd : directory.Clean)
    (hclimbs : directory.climbs ≤ p.climbs) :
    ∃ shared down out, afterCommon false p.segments directory.segments = (down, out) ∧
      p.segments = shared ++ down ∧ directory.segments = shared ++ out ∧ ∀ s ∈ out, s ≠ up := by
  obtain ⟨names, hpSegments, -⟩ := hp.exists_names
  obtain ⟨others, hdSegments, hothers⟩ := hd.exists_names
  obtain ⟨more, hmore⟩ := Nat.exists_eq_add_of_le hclimbs
  rw [hmore, List.replicate_add, List.append_assoc] at hpSegments
  obtain ⟨shared, shared', hsplit, hsplit', hsame⟩ :=
    afterCommon_spec false (List.replicate more up ++ names) others
  rw [map_foldName_false, map_foldName_false] at hsame
  subst hsame
  rw [← afterCommon_append false (List.replicate directory.climbs up), ← hpSegments,
    ← hdSegments] at hsplit hsplit'
  refine ⟨List.replicate directory.climbs up ++ shared, _, _, rfl, ?_, ?_, ?_⟩
  · rw [List.append_assoc, ← hsplit, ← hpSegments]
  · rw [List.append_assoc, ← hsplit', ← hdSegments]
  · exact fun s hs => (hothers s (hsplit' ▸ List.mem_append_right _ hs)).ne_up

/-- The start of names in normal form is in normal form. -/
theorem SegmentsClean.of_append {rooted : Bool} {segments rest : List (List Char)}
    (h : SegmentsClean rooted (segments ++ rest)) : SegmentsClean rooted segments := by
  obtain ⟨climbs, names, hsplit, hnames, hclimbs⟩ := h
  rcases List.append_eq_append_iff.mp hsplit with
    ⟨others, hreplicate, -⟩ | ⟨others, hsegments, hrest⟩
  · obtain ⟨-, hsegments, -⟩ := List.append_eq_replicate_iff.mp hreplicate.symm
    refine ⟨segments.length, [], by rw [List.append_nil, ← hsegments], by simp, fun hrooted => ?_⟩
    have hlength := congrArg List.length hreplicate
    rw [List.length_replicate, List.length_append, hclimbs hrooted] at hlength
    omega
  · exact ⟨climbs, others, hsegments, fun s hs => hnames s (hrest ▸ List.mem_append_left _ hs),
      hclimbs⟩

/-- Names in normal form are added one after the other to those before them. -/
theorem SegmentsClean.foldl_step {rooted : Bool} {segments rest : List (List Char)}
    (h : SegmentsClean rooted (segments ++ rest)) :
    rest.foldl (step rooted) segments = segments ++ rest := by
  have hwhole := h.foldl_step_nil
  rwa [List.foldl_append, h.of_append.foldl_step_nil] at hwhole

/-! ## Resolving what was rebased -/

section Way

variable {p : IncludePath} {way : List (List Char)}

/-- A way made of `..` and the names of a path holds no separator. -/
theorem Clean.not_separator_way (h : p.Clean) (hway : ∀ s ∈ way, s = up ∨ s ∈ p.segments) :
    ∀ s ∈ way, ∀ c ∈ s, isSeparator c = false := by
  intro s hs
  rcases hway s hs with rfl | hs
  · exact fun c hc => not_separator_of_mem_up hc
  · exact h.segments.not_separator s hs

theorem Clean.isRelative_way (h : p.Clean) (hdrive : ∀ s ∈ p.segments, startsLikeDrive s = false)
    (hway : ∀ s ∈ way, s = up ∨ s ∈ p.segments) : IsRelative (joinSegments way) := by
  constructor
  · refine not_startsLikeDrive_joinSegments fun s hs => ?_
    rcases hway s hs with rfl | hs
    · decide
    · exact hdrive s hs
  · refine not_rooted_joinSegments (fun s hs => ?_) (h.not_separator_way hway)
    rcases hway s hs with rfl | hs
    · exact List.cons_ne_nil _ _
    · exact h.segments.ne_nil s hs

end Way

/-- The names that lead from a relative directory to a path with at least its climbs. -/
theorem relativeTo?_of_climbs_le {p directory : IncludePath} (hp : p.Clean) (hd : directory.Clean)
    (hrooted : directory.rooted = false) (hdrive : directory.drive? = none)
    (hpRooted : p.rooted = false) (hpDrive : p.drive? = none)
    (hclimbs : directory.climbs ≤ p.climbs) :
    ∃ way, p.relativeTo? directory = some way ∧ (∀ s ∈ way, s = up ∨ s ∈ p.segments) ∧
      directory.push (joinSegments way) = p := by
  obtain ⟨shared, down, out, hcommon, hpSegments, hdSegments, hout⟩ := exists_shared hp hd hclimbs
  have hroot : sameRoot p directory = true := by
    rw [sameRoot_iff, hrooted, hpRooted, hdrive, hpDrive]
    exact ⟨rfl, rfl⟩
  have hway : ∀ s ∈ out.map (fun _ => up) ++ down, s = up ∨ s ∈ p.segments := by
    intro s hs
    rcases List.mem_append.mp hs with hs | hs
    · obtain ⟨-, -, rfl⟩ := List.mem_map.mp hs
      exact .inl rfl
    · exact .inr (hpSegments ▸ List.mem_append_right _ hs)
  refine ⟨out.map (fun _ => up) ++ down, ?_, hway, ?_⟩
  · simp only [relativeTo?, hroot, if_true, hdrive, Option.isSome_none, hcommon]
  · have hclean : SegmentsClean false (shared ++ down) := hpSegments ▸ hpRooted ▸ hp.segments
    -- the climbs take away what only the directory has, the names bring what only the path has
    rw [push_joinSegments _ (hp.not_separator_way hway), hrooted, List.foldl_append, hdSegments,
      foldl_step_climbs hout, hclean.foldl_step, ← hpSegments, hdrive, ← hpDrive, ← hpRooted]

section Relative

variable {target source destination : String}

/-- What an include names from a relative directory has neither root nor drive. -/
theorem resolve_of_isRelative (hsource : IsRelative source.toList)
    (htarget : IsRelative target.toList) :
    (resolve source.toList target.toList).rooted = false ∧
      (resolve source.toList target.toList).drive? = none := by
  rw [htarget.resolve, hsource.ofChars_eq]
  exact ⟨rfl, rfl⟩

/-- An include that is rebased for a relative directory with no more climbs than its file names
that file from there. -/
theorem resolve_rebaseInclude_of_climbs_le (htarget : IsRelative target.toList)
    (hsource : IsRelative source.toList) (hdestination : IsRelative destination.toList)
    (hdrive : ∀ s ∈ (resolve source.toList target.toList).segments, startsLikeDrive s = false)
    (hclimbs : (ofChars destination.toList).climbs
      ≤ (resolve source.toList target.toList).climbs) :
    resolve destination.toList (rebaseInclude target source destination).toList
      = resolve source.toList target.toList := by
  have hclean := clean_resolve source.toList target.toList
  obtain ⟨hpRooted, hpDrive⟩ := resolve_of_isRelative hsource htarget
  have hdir := hdestination.ofChars_eq
  obtain ⟨way, hrelative, hway, hpush⟩ :=
    relativeTo?_of_climbs_le hclean (clean_ofChars destination.toList) (by rw [hdir]; rfl)
      (by rw [hdir]; rfl) hpRooted hpDrive hclimbs
  have htext : (rebaseInclude target source destination).toList = joinSegments way := by
    simp only [rebaseInclude, hrelative, String.toList_ofList]
  rw [htext, (hclean.isRelative_way hdrive hway).resolve, hpush]

end Relative

/-- **When rebasing between relative directories keeps the file that an include names**: exactly
when the directory that the include is written for does not climb further than the file. From a
directory that does, no include names the file. -/
theorem resolveInclude_rebaseInclude_iff_climbs (target source destination : String)
    (htarget : IsRelative target.toList) (hsource : IsRelative source.toList)
    (hdestination : IsRelative destination.toList)
    (hdrive : ∀ s ∈ (resolve source.toList target.toList).segments, startsLikeDrive s = false) :
    (resolveInclude destination (rebaseInclude target source destination)
        = resolveInclude source target ↔
      (ofChars destination.toList).climbs ≤ (resolve source.toList target.toList).climbs) ∧
    ((∃ other, resolveInclude destination other = resolveInclude source target) ↔
      (ofChars destination.toList).climbs ≤ (resolve source.toList target.toList).climbs) := by
  have hkept : (ofChars destination.toList).climbs ≤ (resolve source.toList target.toList).climbs →
      resolveInclude destination (rebaseInclude target source destination)
        = resolveInclude source target := by
    intro hclimbs
    rw [resolveInclude, resolve_rebaseInclude_of_climbs_le htarget hsource hdestination hdrive
      hclimbs, resolveInclude]
  have hnamed : (∃ other, resolveInclude destination other = resolveInclude source target) →
      (ofChars destination.toList).climbs ≤ (resolve source.toList target.toList).climbs := by
    rintro ⟨other, hother⟩
    obtain ⟨hrooted, hpDrive⟩ := resolve_of_isRelative hsource htarget
    have htext := String.ofList_injective hother
    have hlike : startsLikeDrive (resolve source.toList target.toList).toChars = false := by
      rw [toChars, hpDrive, hrooted]
      exact not_startsLikeDrive_joinSegments hdrive
    -- the texts show the paths, so the other include names the same path
    have hsame : resolve destination.toList other.toList = resolve source.toList target.toList :=
      eq_of_toChars_eq (clean_resolve _ _) (clean_resolve _ _)
        (readable_of_not_like (htext ▸ hlike)) (readable_of_not_like hlike) htext
    rw [← hsame]
    exact climbs_le_resolve (hsame ▸ hrooted) (hsame ▸ hpDrive)
  exact ⟨⟨fun hsame => hnamed ⟨_, hsame⟩, hkept⟩, ⟨hnamed, fun hclimbs => ⟨_, hkept hclimbs⟩⟩⟩

/-- The directory climbs as far as the first file, and further than the second. -/
theorem resolveInclude_rebaseInclude_iff_climbs_shared :
    resolveInclude "..\\Out" (rebaseInclude "../../Shared\\Foo.cs" "src" "..\\Out")
        = resolveInclude "src" "../../Shared\\Foo.cs" ∧
      resolveInclude "..\\Out" (rebaseInclude "Foo.cs" "src" "..\\Out")
        ≠ resolveInclude "src" "Foo.cs" ∧
      ¬ ∃ other, resolveInclude "..\\Out" other = resolveInclude "src" "Foo.cs" := by
  have hshared := resolveInclude_rebaseInclude_iff_climbs "../../Shared\\Foo.cs" "src" "..\\Out"
    ⟨by decide, by decide⟩ ⟨by decide, by decide⟩ ⟨by decide, by decide⟩ (by decide)
  have hlost := resolveInclude_rebaseInclude_iff_climbs "Foo.cs" "src" "..\\Out"
    ⟨by decide, by decide⟩ ⟨by decide, by decide⟩ ⟨by decide, by decide⟩ (by decide)
  exact ⟨hshared.1.mpr (by decide), mt hlost.1.mp (by decide), mt hlost.2.mp (by decide)⟩

end BuildProject.IncludePath
