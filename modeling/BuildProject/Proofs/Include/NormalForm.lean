import Mathlib.Data.List.Induction
import BuildProject.Include
import BuildProject.Proofs.Text

/-!
# The normal form of include paths

Reading a path leaves its names in a normal form: some `..` at the front, none of them if the path
is rooted, and behind them names that stand for themselves. The statements here say

* what `step` does to names in that form, and that the form is kept (`segmentsClean_step`);
* that a path read from text is in that form (`clean_ofChars`), and so is a resolved one
  (`clean_resolve`);
* that a written path is read back as it was (`ofChars_toChars`), unless it has neither root nor
  drive and its first name looks like a drive.
-/

namespace BuildProject.IncludePath

/-! ## Names -/

/-- A name that stands for something below the place where it is read. -/
structure IsName (segment : List Char) : Prop where
  ne_nil : segment ≠ []
  ne_dot : segment ≠ ['.']
  ne_up : segment ≠ up
  not_separator : ∀ c ∈ segment, isSeparator c = false

/-- Names in normal form: `..` at the front only, and not at all behind a root. -/
def SegmentsClean (rooted : Bool) (segments : List (List Char)) : Prop :=
  ∃ (climbs : Nat) (names : List (List Char)),
    segments = List.replicate climbs up ++ names ∧ (∀ s ∈ names, IsName s) ∧
      (rooted = true → climbs = 0)

/-- A path in normal form. -/
structure Clean (p : IncludePath) : Prop where
  isAlpha : ∀ letter ∈ p.drive?, letter.isAlpha = true
  segments : SegmentsClean p.rooted p.segments

/-- Behind a root there are names only. -/
theorem SegmentsClean.isName {segments : List (List Char)} (h : SegmentsClean true segments) :
    ∀ s ∈ segments, IsName s := by
  obtain ⟨climbs, names, rfl, hnames, hclimbs⟩ := h
  rw [hclimbs rfl]
  exact hnames

theorem segmentsClean_of_isName {rooted : Bool} {segments : List (List Char)}
    (h : ∀ s ∈ segments, IsName s) : SegmentsClean rooted segments :=
  ⟨0, segments, rfl, h, fun _ => rfl⟩

theorem not_separator_of_mem_up {c : Char} (h : c ∈ up) : isSeparator c = false := by
  have hall : up.all (!isSeparator ·) = true := by decide
  simpa using List.all_eq_true.mp hall c h

/-- No name in normal form holds a separator. -/
theorem SegmentsClean.not_separator {rooted : Bool} {segments : List (List Char)}
    (h : SegmentsClean rooted segments) : ∀ s ∈ segments, ∀ c ∈ s, isSeparator c = false := by
  obtain ⟨climbs, names, rfl, hnames, -⟩ := h
  intro s hs
  rcases List.mem_append.mp hs with hs | hs
  · rw [List.eq_of_mem_replicate hs]
    exact fun c hc => not_separator_of_mem_up hc
  · exact (hnames s hs).not_separator

/-- No name in normal form is empty. -/
theorem SegmentsClean.ne_nil {rooted : Bool} {segments : List (List Char)}
    (h : SegmentsClean rooted segments) : ∀ s ∈ segments, s ≠ [] := by
  obtain ⟨climbs, names, rfl, hnames, -⟩ := h
  intro s hs
  rcases List.mem_append.mp hs with hs | hs
  · rw [List.eq_of_mem_replicate hs]
    decide
  · exact (hnames s hs).ne_nil

/-! ## Following names -/

/-- A name is added at the end. -/
theorem step_name {rooted : Bool} {segments : List (List Char)} {s : List Char} (h : IsName s) :
    step rooted segments s = segments ++ [s] := by
  unfold step
  rw [if_neg (by simp [h.ne_nil, h.ne_dot]), if_neg h.ne_up]

/-- `..` cancels the name before it. -/
theorem step_up_name {rooted : Bool} {segments : List (List Char)} {s : List Char}
    (h : s ≠ up) : step rooted (segments ++ [s]) up = segments := by
  unfold step
  rw [if_neg (by decide), if_pos rfl, if_pos (by simpa using h), List.dropLast_concat]

/-- `..` does nothing at the root. -/
theorem step_up_root : step true [] up = [] := by
  rfl

/-- `..` stays where there is no name before it and no root. -/
theorem step_up_climbs (climbs : Nat) :
    step false (List.replicate climbs up) up = List.replicate (climbs + 1) up := by
  unfold step
  rw [if_neg (by decide), if_pos rfl, if_neg, if_neg (by decide), List.replicate_succ']
  cases climbs with
  | zero => simp
  | succ n => simp [List.replicate_succ', List.getLast?_append]

/-- Names are added at the end, one after the other. -/
theorem foldl_step_names {rooted : Bool} {names : List (List Char)} (h : ∀ s ∈ names, IsName s)
    (segments : List (List Char)) : names.foldl (step rooted) segments = segments ++ names := by
  induction names generalizing segments with
  | nil => simp
  | cons s names ih =>
    have hs : IsName s := h s (by simp)
    rw [List.foldl_cons, step_name hs, ih (fun x hx => h x (by simp [hx]))]
    simp

/-- As many `..` as there are names behind a place lead back to it. -/
theorem foldl_step_climbs {rooted : Bool} {names : List (List Char)}
    (h : ∀ s ∈ names, s ≠ up) (segments : List (List Char)) :
    (names.map fun _ => up).foldl (step rooted) (segments ++ names) = segments := by
  induction names using List.reverseRecOn with
  | nil => simp
  | append_singleton names s ih =>
    -- the list of `..` is constant, so the one that cancels the last name may go first
    have hrotate : ((names ++ [s]).map fun _ => up) = up :: names.map fun _ => up := by
      rw [List.map_const', List.length_append, List.map_const']
      rfl
    rw [hrotate, List.foldl_cons, ← List.append_assoc, step_up_name (h s (by simp))]
    exact ih fun x hx => h x (by simp [hx])

/-- One name keeps the normal form. -/
theorem segmentsClean_step {rooted : Bool} {segments : List (List Char)} {s : List Char}
    (h : SegmentsClean rooted segments) (hs : ∀ c ∈ s, isSeparator c = false) :
    SegmentsClean rooted (step rooted segments s) := by
  by_cases hidle : s = [] ∨ s = ['.']
  · rw [step, if_pos hidle]
    exact h
  by_cases hup : s = up
  · subst hup
    obtain ⟨climbs, names, rfl, hnames, hclimbs⟩ := h
    cases names using List.reverseRecOn with
    | nil =>
      rw [List.append_nil]
      cases rooted with
      | true =>
        rw [hclimbs rfl]
        exact segmentsClean_of_isName (by simp [step_up_root])
      | false =>
        rw [step_up_climbs]
        exact ⟨climbs + 1, [], by simp, by simp, by simp⟩
    | append_singleton names last =>
      rw [← List.append_assoc, step_up_name (hnames last (by simp)).ne_up]
      exact ⟨climbs, names, rfl, fun x hx => hnames x (by simp [hx]), hclimbs⟩
  · have hname : IsName s := ⟨fun h => hidle (.inl h), fun h => hidle (.inr h), hup, hs⟩
    obtain ⟨climbs, names, rfl, hnames, hclimbs⟩ := h
    rw [step_name hname, List.append_assoc]
    refine ⟨climbs, names ++ [s], rfl, fun x hx => ?_, hclimbs⟩
    rcases List.mem_append.mp hx with hx | hx
    · exact hnames x hx
    · rw [List.mem_singleton.mp hx]
      exact hname

theorem segmentsClean_foldl_step {rooted : Bool} {names : List (List Char)}
    (h : ∀ s ∈ names, ∀ c ∈ s, isSeparator c = false) {segments : List (List Char)}
    (hclean : SegmentsClean rooted segments) :
    SegmentsClean rooted (names.foldl (step rooted) segments) := by
  induction names generalizing segments with
  | nil => exact hclean
  | cons s names ih =>
    exact ih (fun x hx => h x (by simp [hx])) (segmentsClean_step hclean (h s (by simp)))

/-! ## Splitting and joining -/

/-- Joined names are split where they were joined. -/
theorem splitOnP_joinSegments {segments : List (List Char)} (hne : segments ≠ [])
    (h : ∀ s ∈ segments, ∀ c ∈ s, isSeparator c = false) :
    (joinSegments segments).splitOnP isSeparator = segments := by
  unfold joinSegments
  induction segments with
  | nil => exact absurd rfl hne
  | cons s segments ih =>
    cases segments with
    | nil =>
      rw [List.intercalate_singleton]
      exact List.splitOnP_eq_singleton (h s (by simp))
    | cons t rest =>
      rw [List.intercalate_cons_cons, List.append_assoc, List.singleton_append,
        List.splitOnP_append_cons_of_forall_mem (h s (by simp)) _ (by decide),
        ih (by simp) fun x hx => h x (by simp [hx])]

/-- Following joined names follows one after the other. -/
theorem push_joinSegments (p : IncludePath) {segments : List (List Char)}
    (h : ∀ s ∈ segments, ∀ c ∈ s, isSeparator c = false) :
    p.push (joinSegments segments) =
      { p with segments := segments.foldl (step p.rooted) p.segments } := by
  unfold push
  by_cases hne : segments = []
  · subst hne
    simp [joinSegments, List.intercalate_nil, List.splitOnP_nil, step]
  · rw [splitOnP_joinSegments hne h]

/-- Joined names do not start with a separator. -/
theorem not_rooted_joinSegments {segments : List (List Char)} (hne : ∀ s ∈ segments, s ≠ [])
    (h : ∀ s ∈ segments, ∀ c ∈ s, isSeparator c = false) :
    (joinSegments segments).head?.any isSeparator = false := by
  cases segments with
  | nil => rfl
  | cons s rest =>
    obtain ⟨c, s', rfl⟩ := List.exists_cons_of_ne_nil (hne s (by simp))
    have hc : isSeparator c = false := h (c :: s') (by simp) c (by simp)
    cases rest with
    | nil => simpa [joinSegments] using hc
    | cons t rest => simpa [joinSegments, List.intercalate_cons_cons] using hc

/-! ## Drives -/

/-- Whether a text starts like a path on a drive: with a letter and a colon. -/
def startsLikeDrive (cs : List Char) : Bool :=
  (splitDrive cs).1.isSome

/-- A text that does not start like a drive is left whole. -/
theorem splitDrive_of_not_like {cs : List Char} (h : startsLikeDrive cs = false) :
    splitDrive cs = (none, cs) := by
  unfold startsLikeDrive at h
  unfold splitDrive at h ⊢
  split
  · next hcs => split <;> simp_all
  · rfl

/-- The letter of a drive is a letter. -/
theorem isAlpha_splitDrive {cs : List Char} :
    ∀ letter ∈ (splitDrive cs).1, letter.isAlpha = true := by
  unfold splitDrive
  split
  · split
    · next halpha => simpa using halpha
    · simp
  · simp

/-- A drive is split off the path it was written before. -/
theorem splitDrive_drive {letter : Char} (h : letter.isAlpha = true) (cs : List Char) :
    splitDrive (letter :: ':' :: cs) = (some letter, cs) := by
  simp [splitDrive, h]

/-- What does not start with a letter does not start like a drive. -/
theorem not_startsLikeDrive {c : Char} (h : c.isAlpha = false) (cs : List Char) :
    startsLikeDrive (c :: cs) = false := by
  unfold startsLikeDrive splitDrive
  split
  · next heq =>
    rw [List.cons.injEq] at heq
    rw [← heq.1, h]
    rfl
  · rfl

/-- Joined names start like a drive when the first of them does. -/
theorem startsLikeDrive_joinSegments {s : List Char} {rest : List (List Char)} :
    startsLikeDrive (joinSegments (s :: rest)) = startsLikeDrive s := by
  cases rest with
  | nil => simp [joinSegments]
  | cons t rest =>
    rw [joinSegments, List.intercalate_cons_cons, List.append_assoc, List.singleton_append]
    match s with
    | [] => exact not_startsLikeDrive (by decide) _
    | [c] =>
      show startsLikeDrive (c :: '\\' :: _) = startsLikeDrive [c]
      unfold startsLikeDrive splitDrive
      split <;> simp_all
    | c :: d :: s =>
      unfold startsLikeDrive
      by_cases hd : d = ':'
      · subst hd
        by_cases hc : c.isAlpha <;> simp [splitDrive, hc]
      · unfold splitDrive
        split <;> simp_all

/-! ## Reading -/

@[simp] theorem push_drive? (p : IncludePath) (cs : List Char) :
    (p.push cs).drive? = p.drive? := rfl

@[simp] theorem push_rooted (p : IncludePath) (cs : List Char) :
    (p.push cs).rooted = p.rooted := rfl

theorem Clean.push {p : IncludePath} (h : p.Clean) (cs : List Char) : (p.push cs).Clean :=
  ⟨h.isAlpha,
    segmentsClean_foldl_step (fun _ hs => Text.not_separator_of_mem_splitOnP hs) h.segments⟩

@[simp] theorem ofChars_drive? (cs : List Char) : (ofChars cs).drive? = (splitDrive cs).1 := rfl

@[simp] theorem ofChars_rooted (cs : List Char) :
    (ofChars cs).rooted = (splitDrive cs).2.head?.any isSeparator := rfl

/-- A text with neither drive nor root. -/
structure IsRelative (text : List Char) : Prop where
  not_like : startsLikeDrive text = false
  not_rooted : text.head?.any isSeparator = false

theorem IsRelative.ofChars_eq {text : List Char} (h : IsRelative text) :
    ofChars text = push ⟨none, false, []⟩ text := by
  rw [ofChars, splitDrive_of_not_like h.not_like]
  dsimp only
  rw [h.not_rooted]

/-- A path that has been read is in normal form. -/
theorem clean_ofChars (cs : List Char) : (ofChars cs).Clean := by
  refine Clean.push ⟨isAlpha_splitDrive, ?_⟩ _
  exact segmentsClean_of_isName (by simp)

/-- A resolved path is in normal form. -/
theorem clean_resolve (base target : List Char) : (resolve base target).Clean := by
  unfold resolve
  dsimp only
  split
  · exact clean_ofChars target
  · split
    · exact clean_ofChars target
    · exact (clean_ofChars base).push _

/-! ## Writing and reading back -/

/-- A path whose text shows what it is: only one without root and drive may be misread, and it is
not if its first name does not look like a drive. -/
def Readable (p : IncludePath) : Prop :=
  p.rooted = true ∨ p.drive?.isSome ∨ startsLikeDrive (joinSegments p.segments) = false

/-- Names in normal form come out of an empty start as they went in. -/
theorem SegmentsClean.foldl_step_nil {rooted : Bool} {segments : List (List Char)}
    (h : SegmentsClean rooted segments) : segments.foldl (step rooted) [] = segments := by
  obtain ⟨climbs, names, rfl, hnames, hclimbs⟩ := h
  rw [List.foldl_append, foldl_step_names hnames]
  congr 1
  cases rooted with
  | true => rw [hclimbs rfl]; rfl
  | false =>
    clear hclimbs
    induction climbs with
    | zero => rfl
    | succ n ih => rw [List.replicate_succ', List.foldl_append, ih, ← List.replicate_succ',
        ← step_up_climbs]; rfl

/-- The part of a written path behind its drive. -/
def body (rooted : Bool) (segments : List (List Char)) : List Char :=
  (if rooted then ['\\'] else []) ++ joinSegments segments

/-- The part behind the drive is read back as it was written. -/
theorem push_body {rooted : Bool} {segments : List (List Char)} (h : SegmentsClean rooted segments)
    (drive? : Option Char) :
    push ⟨drive?, (body rooted segments).head?.any isSeparator, []⟩ (body rooted segments)
      = ⟨drive?, rooted, segments⟩ := by
  cases rooted with
  | true =>
    have hsplit : ('\\' :: joinSegments segments).splitOnP isSeparator
        = [] :: (joinSegments segments).splitOnP isSeparator :=
      @List.splitOnP_append_cons_of_forall_mem Char isSeparator [] (by simp) '\\' (by decide) _
    show IncludePath.mk drive? true ((('\\' :: joinSegments segments).splitOnP
      isSeparator).foldl (step true) []) = _
    rw [hsplit, List.foldl_cons]
    show push ⟨drive?, true, []⟩ (joinSegments segments) = _
    rw [push_joinSegments _ h.not_separator, h.foldl_step_nil]
  | false =>
    show push ⟨drive?, (joinSegments segments).head?.any isSeparator, []⟩
      (joinSegments segments) = _
    rw [not_rooted_joinSegments h.ne_nil h.not_separator, push_joinSegments _ h.not_separator,
      h.foldl_step_nil]

/-- A path in normal form is read back as it was written. -/
theorem ofChars_toChars {p : IncludePath} (h : p.Clean) (hreadable : p.Readable) :
    ofChars p.toChars = p := by
  obtain ⟨drive?, rooted, segments⟩ := p
  cases drive? with
  | some letter =>
    have halpha : letter.isAlpha = true := h.isAlpha letter rfl
    have htext : toChars ⟨some letter, rooted, segments⟩ =
        letter :: ':' :: body rooted segments := by
      simp [toChars, body]
    rw [ofChars, htext, splitDrive_drive halpha]
    exact push_body h.segments (some letter)
  | none =>
    have htext : toChars ⟨none, rooted, segments⟩ = body rooted segments := by
      simp [toChars, body]
    have hwhole : splitDrive (body rooted segments) = (none, body rooted segments) := by
      apply splitDrive_of_not_like
      rcases hreadable with hrooted | hdrive | hlike
      · rw [body, if_pos hrooted]
        exact not_startsLikeDrive (by decide) _
      · simp at hdrive
      · cases rooted with
        | true => exact not_startsLikeDrive (by decide) _
        | false => exact hlike
    rw [ofChars, htext, hwhole]
    exact push_body h.segments none

/-- A path is not misread if its text does not look like a path on a drive. -/
theorem readable_of_not_like {p : IncludePath} (h : startsLikeDrive p.toChars = false) :
    p.Readable := by
  cases hrooted : p.rooted with
  | true => exact .inl hrooted
  | false =>
    cases hdrive : p.drive? with
    | some letter => exact .inr (.inl (by rw [hdrive]; rfl))
    | none =>
      rw [toChars, hdrive, hrooted] at h
      exact .inr (.inr h)

/-- Paths in normal form are the same if they are written alike and not misread. -/
theorem eq_of_toChars_eq {p q : IncludePath} (hp : p.Clean) (hq : q.Clean) (hpText : p.Readable)
    (hqText : q.Readable) (h : p.toChars = q.toChars) : p = q := by
  rw [← ofChars_toChars hp hpText, h, ofChars_toChars hq hqText]

end BuildProject.IncludePath
