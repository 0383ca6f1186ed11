import BuildProject.Markup.Entity

/-!
# Escaped texts

A text or a value that has been escaped is unescaped to itself, and what is written holds none of
the characters that would end it: no `<` in a text, no double quote in a value.
-/

namespace BuildProject.Markup

open Text

theorem unescapeFrom_nil (total offset : Nat) : unescapeFrom total offset [] = .ok [] := by
  rw [unescapeFrom]

theorem unescapeFrom_cons_of_ne {c : Char} (hc : c ≠ '&') (total offset : Nat) (cs : List Char) :
    unescapeFrom total offset (c :: cs) =
      (unescapeFrom total (offset + c.utf8Size) cs).map (c :: ·) := by
  rw [unescapeFrom, if_neg hc]
  cases unescapeFrom total (offset + c.utf8Size) cs <;> rfl

/-- A reference to a predefined name stands for its character. -/
theorem unescapeFrom_reference {name : List Char} {c : Char} (hname : predefined? name = some c)
    (hbody : name.all isReferenceBody = true) (hplain : name.head? ≠ some '#')
    (total offset : Nat) (cs : List Char) :
    ∃ offset', unescapeFrom total offset ('&' :: (name ++ ';' :: cs)) =
      (unescapeFrom total offset' cs).map (c :: ·) := by
  refine ⟨offset + 1 + byteLength name + 1, ?_⟩
  rw [List.all_eq_true] at hbody
  have htake : (name ++ ';' :: cs).takeWhile isReferenceBody = name := by
    rw [List.takeWhile_append_of_pos hbody]
    simp [isReferenceBody]
  have hdrop : (name ++ ';' :: cs).dropWhile isReferenceBody = ';' :: cs := by
    rw [List.dropWhile_append_of_pos hbody]
    simp [isReferenceBody]
  have hdecode (start : Nat) : decodeReference start name = .ok c := by
    unfold decodeReference
    split
    · exact absurd rfl hplain
    · rw [hname]
  rw [unescapeFrom, if_pos rfl]
  split
  · next rest heq =>
    rw [hdrop, List.cons.injEq] at heq
    obtain ⟨-, rfl⟩ := heq
    simp only [htake, hdecode, bind, Except.bind, pure, Except.pure]
    cases unescapeFrom total (offset + 1 + byteLength name + 1) cs <;> rfl
  · next hne => exact absurd hdrop (hne cs)

/-- A text that is not empty stands for one that is not empty. -/
theorem ne_nil_of_unescape {c : Char} {cs content : List Char}
    (h : unescape (c :: cs) = .ok content) : content ≠ [] := by
  rintro rfl
  rw [unescape, unescapeFrom] at h
  split at h
  · split at h
    · simp only [bind, Except.bind, pure, Except.pure] at h
      split at h
      · exact absurd h (by simp)
      · split at h <;> exact absurd h (by simp)
    · exact absurd h (by simp)
  · simp only [bind, Except.bind, pure, Except.pure] at h
    split at h <;> exact absurd h (by simp)

/-! ## One character -/

/-- A character of a text is written so that it is read back. -/
theorem unescapeFrom_escapeTextChar (c : Char) (total offset : Nat) (cs : List Char) :
    ∃ offset', unescapeFrom total offset (escapeTextChar c ++ cs) =
      (unescapeFrom total offset' cs).map (c :: ·) := by
  unfold escapeTextChar
  split
  · next hc =>
    subst hc
    exact @unescapeFrom_reference ['l', 't'] '<' rfl (by decide) (by decide) total offset cs
  · split
    · next hc =>
      subst hc
      exact @unescapeFrom_reference ['g', 't'] '>' rfl (by decide) (by decide) total offset cs
    · split
      · next hc =>
        subst hc
        exact @unescapeFrom_reference ['a', 'm', 'p'] '&' rfl (by decide) (by decide) total offset
          cs
      · next hc => exact ⟨_, unescapeFrom_cons_of_ne hc total offset cs⟩

theorem unescapeFrom_escapeValueChar (c : Char) (total offset : Nat) (cs : List Char) :
    ∃ offset', unescapeFrom total offset (escapeValueChar c ++ cs) =
      (unescapeFrom total offset' cs).map (c :: ·) := by
  unfold escapeValueChar
  split
  · next hc =>
    subst hc
    exact @unescapeFrom_reference ['q', 'u', 'o', 't'] '"' rfl (by decide) (by decide) total offset
      cs
  · exact unescapeFrom_escapeTextChar c total offset cs

/-! ## Whole texts -/

/-- What is written character by character is read back if every character is. -/
theorem unescapeFrom_flatMap {write : Char → List Char}
    (hwrite : ∀ c total offset cs, ∃ offset', unescapeFrom total offset (write c ++ cs) =
      (unescapeFrom total offset' cs).map (c :: ·)) (cs : List Char) (total offset : Nat) :
    unescapeFrom total offset (cs.flatMap write) = .ok cs := by
  induction cs generalizing offset with
  | nil => exact unescapeFrom_nil total offset
  | cons c cs ih =>
    obtain ⟨offset', hstep⟩ := hwrite c total offset (cs.flatMap write)
    rw [List.flatMap_cons, hstep, ih offset']
    rfl

@[simp] theorem unescape_escapeText (cs : List Char) : unescape (escapeText cs) = .ok cs :=
  unescapeFrom_flatMap unescapeFrom_escapeTextChar cs _ _

@[simp] theorem unescape_escapeValue (cs : List Char) : unescape (escapeValue cs) = .ok cs :=
  unescapeFrom_flatMap unescapeFrom_escapeValueChar cs _ _

theorem escapeText_append (cs ds : List Char) :
    escapeText (cs ++ ds) = escapeText cs ++ escapeText ds :=
  List.flatMap_append

theorem escapeText_ne_nil {cs : List Char} (h : cs ≠ []) : escapeText cs ≠ [] := by
  intro hnil
  have hread := unescape_escapeText cs
  rw [hnil, unescape, unescapeFrom_nil, Except.ok.injEq] at hread
  exact h hread.symm

/-- Nothing that opens markup is left in a text. -/
theorem lt_not_mem_escapeText (cs : List Char) : '<' ∉ escapeText cs := by
  intro hmem
  obtain ⟨c, -, hc⟩ := List.mem_flatMap.mp hmem
  unfold escapeTextChar at hc
  split at hc
  · exact absurd hc (by decide)
  · split at hc
    · exact absurd hc (by decide)
    · split at hc
      · exact absurd hc (by decide)
      · next hlt _ _ => exact hlt (List.mem_singleton.mp hc).symm

/-- No double quote is left in a value. -/
theorem quote_not_mem_escapeValue (cs : List Char) : '"' ∉ escapeValue cs := by
  intro hmem
  obtain ⟨c, -, hc⟩ := List.mem_flatMap.mp hmem
  unfold escapeValueChar escapeTextChar at hc
  split at hc
  · exact absurd hc (by decide)
  · next hquote =>
    split at hc
    · exact absurd hc (by decide)
    · split at hc
      · exact absurd hc (by decide)
      · split at hc
        · exact absurd hc (by decide)
        · exact hquote (List.mem_singleton.mp hc).symm

end BuildProject.Markup
