import Mathlib.Data.List.Basic
import Mathlib.Data.List.TakeWhile
import BuildProject.Text

/-!
# Pieces of texts

What a text is cut into at its separators, and what stands before the first mark in it.
-/

namespace BuildProject.Text

/-- The pieces between separators hold no separator. -/
theorem not_separator_of_mem_splitOnP {isSeparator : Char → Bool} {cs piece : List Char}
    (h : piece ∈ cs.splitOnP isSeparator) : ∀ c ∈ piece, isSeparator c = false := by
  induction cs generalizing piece with
  | nil =>
    rw [List.splitOnP_nil, List.mem_singleton] at h
    simp [h]
  | cons c cs ih =>
    rw [List.splitOnP_cons_eq_if_modifyHead] at h
    split at h
    · rcases List.mem_cons.mp h with rfl | h
      · simp
      · exact ih h
    · next hc =>
      obtain ⟨first, others, hsplit⟩ := List.exists_cons_of_ne_nil
        (List.splitOnP_ne_nil isSeparator cs)
      rw [hsplit, List.modifyHead_cons] at h
      rcases List.mem_cons.mp h with rfl | h
      · intro x hx
        rcases List.mem_cons.mp hx with rfl | hx
        · simpa using hc
        · exact ih (by simp [hsplit]) x hx
      · exact ih (by simp [hsplit, h])

/-- The pieces between occurrences of a character do not hold it. -/
theorem not_mem_of_mem_splitOn {separator : Char} {cs piece : List Char}
    (h : piece ∈ cs.splitOn separator) : separator ∉ piece := by
  intro hmem
  rw [List.splitOn_eq_splitOnP] at h
  exact absurd (not_separator_of_mem_splitOnP h separator hmem) (by simp)

/-- The first of the pieces that a mark cuts the characters into. -/
theorem splitOn_eq_takeWhile_cons (mark : Char) (cs : List Char) :
    ∃ others, cs.splitOn mark = cs.takeWhile (· != mark) :: others := by
  induction cs with
  | nil => exact ⟨[], List.splitOn_nil mark⟩
  | cons c cs ih =>
    obtain ⟨others, hsplit⟩ := ih
    rw [List.splitOn_cons_eq_if_modifyHead, hsplit]
    by_cases hc : c = mark
    · exact ⟨cs.takeWhile (· != mark) :: others, by simp [hc]⟩
    · exact ⟨others, by simp [hc]⟩

/-- Changing every character changes the separator and the pieces. -/
theorem map_intercalate (f : Char → Char) (separator : List Char) (pieces : List (List Char)) :
    (separator.intercalate pieces).map f =
      (separator.map f).intercalate (pieces.map (List.map f)) := by
  induction pieces with
  | nil => rfl
  | cons piece pieces ih =>
    cases pieces with
    | nil => rw [List.map_singleton, List.intercalate_singleton, List.intercalate_singleton]
    | cons next pieces =>
      rw [List.intercalate_cons_cons, List.map_append, List.map_append, ih]
      simp only [List.map_cons, List.intercalate_cons_cons]

/-- What is joined is made of the separator and the pieces. -/
theorem mem_of_mem_intercalate {separator : List Char} {pieces : List (List Char)} {c : Char}
    (h : c ∈ separator.intercalate pieces) : c ∈ separator ∨ ∃ piece ∈ pieces, c ∈ piece := by
  induction pieces with
  | nil => exact absurd h List.not_mem_nil
  | cons piece pieces ih =>
    cases pieces with
    | nil =>
      rw [List.intercalate_singleton] at h
      exact .inr ⟨piece, List.mem_cons_self, h⟩
    | cons next pieces =>
      rw [List.intercalate_cons_cons, List.mem_append, List.mem_append] at h
      rcases h with (h | h) | h
      · exact .inr ⟨piece, List.mem_cons_self, h⟩
      · exact .inl h
      · exact (ih h).imp_right fun ⟨other, hother, hc⟩ => ⟨other, List.mem_cons_of_mem _ hother, hc⟩

/-- Every piece is a part of what is joined. -/
theorem mem_intercalate {separator piece : List Char} {pieces : List (List Char)} {c : Char}
    (hpiece : piece ∈ pieces) (hc : c ∈ piece) : c ∈ separator.intercalate pieces := by
  induction pieces with
  | nil => exact absurd hpiece List.not_mem_nil
  | cons first pieces ih =>
    cases pieces with
    | nil =>
      rw [List.mem_singleton] at hpiece
      rwa [List.intercalate_singleton, ← hpiece]
    | cons next pieces =>
      rw [List.intercalate_cons_cons, List.mem_append]
      rcases List.mem_cons.mp hpiece with rfl | hpiece
      · exact .inl (List.mem_append_left _ hc)
      · exact .inr (ih hpiece)

/-- The pieces between occurrences of a character are parts of the whole. -/
theorem mem_of_mem_splitOn {separator c : Char} {cs piece : List Char}
    (hpiece : piece ∈ cs.splitOn separator) (hc : c ∈ piece) : c ∈ cs := by
  have hmem : c ∈ [separator].intercalate (cs.splitOn separator) := mem_intercalate hpiece hc
  rwa [List.intercalate_splitOn] at hmem

/-! ## Trimming -/

theorem trimEnd_cons {c : Char} (h : isBlank c = false) (cs : List Char) :
    trimEnd (c :: cs) = c :: trimEnd cs := by
  rw [trimEnd, trimEnd, List.reverse_cons, List.dropWhile_append]
  split
  · next hnil =>
    rw [List.isEmpty_iff.mp hnil]
    simp [h]
  · rw [List.reverse_append, List.reverse_singleton, List.singleton_append]

theorem trimStart_cons {c : Char} (h : isBlank c = false) (cs : List Char) :
    trimStart (c :: cs) = c :: cs := by
  rw [trimStart, List.dropWhile_cons, h, if_neg Bool.false_ne_true]

/-- Trimming leaves some of the characters, in their order. -/
theorem trim_sublist (cs : List Char) : (trim cs).Sublist cs := by
  have hend (cs : List Char) : (trimEnd cs).Sublist cs :=
    List.reverse_sublist.mp <| by
      rw [trimEnd, List.reverse_reverse]
      exact List.dropWhile_sublist _
  exact (hend _).trans (List.dropWhile_sublist _)

/-- Nothing is trimmed off between two characters that are not blank. -/
theorem trim_between {first last : Char} (hfirst : isBlank first = false)
    (hlast : isBlank last = false) (cs : List Char) :
    trim (first :: cs ++ [last]) = first :: cs ++ [last] := by
  rw [trim, List.cons_append, trimStart_cons hfirst, trimEnd_cons hfirst, trimEnd,
    List.reverse_append, List.reverse_singleton, List.singleton_append, List.dropWhile_cons, hlast,
    if_neg Bool.false_ne_true, List.reverse_cons, List.reverse_reverse]

/-- Blanks that are dropped do not end what is taken. -/
theorem trimStart_takeWhile {p : Char → Bool} (h : ∀ c, isBlank c = true → p c = true)
    (cs : List Char) : trimStart (cs.takeWhile p) = (trimStart cs).takeWhile p := by
  induction cs with
  | nil => rfl
  | cons c cs ih =>
    cases hc : isBlank c with
    | true =>
      have hskip : trimStart (c :: cs) = trimStart cs := by
        rw [trimStart, List.dropWhile_cons, hc, if_pos rfl, trimStart]
      rw [hskip, ← ih, List.takeWhile_cons, h c hc, if_pos rfl, trimStart, List.dropWhile_cons, hc,
        if_pos rfl, trimStart]
    | false =>
      rw [trimStart_cons hc, List.takeWhile_cons]
      split
      · exact trimStart_cons hc _
      · rfl

/-! ## Cutting at a mark -/

theorem eq_of_cutAt? {mark cs before after : List Char}
    (h : cutAt? mark cs = some (before, after)) : cs = before ++ (mark ++ after) := by
  induction cs generalizing before with
  | nil => simp [cutAt?] at h
  | cons c cs ih =>
    rw [cutAt?] at h
    split at h
    · next hfits =>
      rw [Option.some.injEq, Prod.mk.injEq] at h
      obtain ⟨rfl, rfl⟩ := h
      exact (List.prefix_iff_eq_append.mp (List.isPrefixOf_iff_prefix.mp hfits)).symm
    · obtain ⟨⟨before', after'⟩, hcut, heq⟩ := Option.map_eq_some_iff.mp h
      rw [Prod.mk.injEq] at heq
      obtain ⟨rfl, rfl⟩ := heq
      rw [ih hcut, List.cons_append]

/-- The first mark behind the content is the one that ends it. -/
def Closes (mark content : List Char) : Prop :=
  ∀ rest, cutAt? mark (content ++ (mark ++ rest)) = some (content, rest)

theorem cutAt?_of_prefix {mark : List Char} (hmark : mark ≠ []) (rest : List Char) :
    cutAt? mark (mark ++ rest) = some ([], rest) := by
  obtain ⟨m, ms, rfl⟩ := List.exists_cons_of_ne_nil hmark
  have hfits : (m :: ms).isPrefixOf (m :: (ms ++ rest)) = true :=
    List.isPrefixOf_iff_prefix.mpr ⟨rest, rfl⟩
  rw [List.cons_append, cutAt?, if_pos hfits]
  simp

/-- What has been cut off at a mark is ended by that mark wherever it stands. -/
theorem closes_of_cutAt? {mark cs before after : List Char} (hmark : mark ≠ [])
    (h : cutAt? mark cs = some (before, after)) : Closes mark before := by
  induction cs generalizing before with
  | nil => simp [cutAt?] at h
  | cons c cs ih =>
    have hwhole := eq_of_cutAt? h
    rw [cutAt?] at h
    split at h
    · rw [Option.some.injEq, Prod.mk.injEq] at h
      obtain ⟨rfl, -⟩ := h
      exact cutAt?_of_prefix hmark
    · next hfits =>
      obtain ⟨⟨before', after'⟩, hcut, heq⟩ := Option.map_eq_some_iff.mp h
      rw [Prod.mk.injEq] at heq
      obtain ⟨rfl, rfl⟩ := heq
      intro rest
      -- a mark that starts at `c` ends before the mark behind the content does
      have hfirst : ¬ mark.isPrefixOf (c :: (before' ++ (mark ++ rest))) = true := by
        rw [List.isPrefixOf_iff_prefix]
        intro hstarts
        have hshort : mark <+: c :: (before' ++ mark) := by
          refine List.prefix_of_prefix_length_le hstarts ⟨rest, by simp⟩ ?_
          rw [List.length_cons, List.length_append]
          omega
        refine hfits (List.isPrefixOf_iff_prefix.mpr (hshort.trans ⟨after', ?_⟩))
        rw [hwhole]
        simp
      rw [List.cons_append, cutAt?, if_neg hfirst, ih hcut rest]
      rfl

/-! ## The last piece -/

section LastPiece

variable {isSeparator : Char → Bool} {cs : List Char}

theorem lastPiece_sublist : (lastPiece isSeparator cs).Sublist cs :=
  List.reverse_sublist.mp <| by
    rw [lastPiece, List.reverse_reverse]
    exact List.takeWhile_sublist _

/-- The last piece is all there is exactly if nothing separates. -/
theorem lastPiece_eq_self_iff :
    lastPiece isSeparator cs = cs ↔ ∀ c ∈ cs, isSeparator c = false := by
  rw [lastPiece, List.reverse_eq_iff, List.takeWhile_eq_self_iff]
  simp

/-- What stands before a separator has no part in the last piece. -/
theorem lastPiece_behind (before : List Char) {mark : Char} (h : isSeparator mark = true) :
    lastPiece isSeparator (before ++ mark :: cs) = lastPiece isSeparator cs := by
  rw [lastPiece, lastPiece, List.reverse_append, List.reverse_cons, List.append_assoc,
    List.takeWhile_append]
  split
  · next hall =>
    rw [List.singleton_append, List.takeWhile_cons_of_neg (by simp [h]), List.append_nil,
      (List.takeWhile_sublist _).eq_of_length hall]
  · rfl

end LastPiece

/-! ## Letter case -/

/-- Case is the only thing that does not count, so no character may be missing. -/
theorem sameIgnoringCase_of_sublist {s : String} (h : cs.Sublist s.toList) :
    sameIgnoringCase (String.ofList cs) s = true ↔ cs = s.toList := by
  rw [sameIgnoringCase, beq_iff_eq, fold, fold, String.toList_ofList]
  constructor
  · intro hsame
    have hlength := congrArg List.length (String.ofList_injective hsame)
    rw [List.length_map, List.length_map] at hlength
    exact h.eq_of_length hlength
  · rintro rfl
    rfl

end BuildProject.Text
