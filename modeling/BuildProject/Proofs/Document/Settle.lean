import BuildProject.Proofs.Document.Layout

/-!
# Indentation that is dropped

An indented forest loses its blanks when it is read, and what remains of its text is its character
data (`text_settle_of_not_hasWords`). So the line breaks that are added to it come and go, while
those added to any other forest stay: an element keeps its text exactly if it holds no words beside
elements or comments, or no line starts in it (`text_settle_layInside`).
-/

namespace BuildProject

open Markup Text

namespace Forest

/-- The character data at the top, joined. -/
def characterData : Forest → String
  | nil => ""
  | element _ _ _ rest => rest.characterData
  | leaf _ (.cdata content) rest => content ++ rest.characterData
  | leaf _ _ rest => rest.characterData

/-! ## Settled forests -/

/-- Nothing is left of the indentation at the top. -/
def Settled (f : Forest) : Prop :=
  f.isIndented = true → f.text = f.characterData

@[simp] theorem hasStructure_settle (indented : Bool) (f : Forest) :
    (f.settle indented).hasStructure = f.hasStructure := by
  induction f generalizing indented with
  | nil => rfl
  | element id tag content rest _ _ => rfl
  | leaf id l rest ih =>
    cases l with
    | text content =>
      rw [settle]
      split
      · exact ih indented
      · exact ih indented
    | comment content => rfl
    | cdata content => exact ih indented

/-- Only blanks are dropped. -/
@[simp] theorem hasWords_settle (indented : Bool) (f : Forest) :
    (f.settle indented).hasWords = f.hasWords := by
  induction f generalizing indented with
  | nil => rfl
  | element id tag content rest _ ih => exact ih indented
  | leaf id l rest ih =>
    cases l with
    | text content =>
      rw [settle]
      split
      · next hdropped =>
        rw [Bool.and_eq_true] at hdropped
        rw [ih, hasWords, hdropped.2]
        rfl
      · rw [hasWords, hasWords, ih]
    | comment content => exact ih indented
    | cdata content => exact ih indented

@[simp] theorem isIndented_settle (indented : Bool) (f : Forest) :
    (f.settle indented).isIndented = f.isIndented := by
  rw [isIndented, isIndented, hasStructure_settle, hasWords_settle]

@[simp] theorem characterData_settle (indented : Bool) (f : Forest) :
    (f.settle indented).characterData = f.characterData := by
  induction f generalizing indented with
  | nil => rfl
  | element id tag content rest _ ih => exact ih indented
  | leaf id l rest ih =>
    cases l with
    | text content =>
      rw [settle]
      split
      · exact ih indented
      · exact ih indented
    | comment content => exact ih indented
    | cdata content => exact congrArg (content ++ ·) (ih indented)

@[simp] theorem text_settle_false (f : Forest) : (f.settle false).text = f.text := by
  induction f with
  | nil => rfl
  | element id tag content rest _ ih => exact ih
  | leaf id l rest ih =>
    cases l with
    | text content =>
      rw [settle, Bool.false_and, if_neg Bool.false_ne_true, text_text, text_text, ih]
    | comment content => exact ih
    | cdata content =>
      show (leaf id (.cdata content) (rest.settle false)).text = _
      rw [text_cdata, text_cdata, ih]

/-- Where there are no words, all that is not character data is dropped. -/
theorem text_settle_of_not_hasWords {f : Forest} (h : f.hasWords = false) :
    (f.settle true).text = f.characterData := by
  induction f with
  | nil => rfl
  | element id tag content rest _ ih => exact ih h
  | leaf id l rest ih =>
    cases l with
    | text content =>
      rw [hasWords, Bool.or_eq_false_iff, Bool.not_eq_false'] at h
      rw [settle, Bool.true_and, if_pos h.1]
      exact ih h.2
    | comment content => exact ih h
    | cdata content =>
      show (leaf id (.cdata content) (rest.settle true)).text = _
      rw [text_cdata, characterData, ih h]

theorem settled_settle (f : Forest) : (f.settle f.isIndented).Settled := by
  intro hindented
  rw [isIndented_settle] at hindented
  have hwords : f.hasWords = false := by
    rw [isIndented, Bool.and_eq_true, Bool.not_eq_true'] at hindented
    exact hindented.2
  rw [hindented, text_settle_of_not_hasWords hwords, characterData_settle]

/-- The content of every element is settled with the forest around it. -/
theorem settled_of_mem_elements_settle {f : Forest} {indented : Bool} {e : Element}
    (h : e ∈ (f.settle indented).elements) : e.content.Settled := by
  induction f generalizing indented with
  | nil => exact absurd h List.not_mem_nil
  | element id tag content rest ihContent ihRest =>
    rcases List.mem_cons.mp h with rfl | h
    · exact settled_settle content
    · rcases List.mem_append.mp h with h | h
      · exact ihContent h
      · exact ihRest h
  | leaf id l rest ih =>
    cases l with
    | text content =>
      rw [settle] at h
      split at h
      · exact ih h
      · exact ih h
    | comment content => exact ih h
    | cdata content => exact ih h

/-! ## Line breaks that are dropped -/

@[simp] theorem characterData_consText (id : NodeId) (content : String) (f : Forest) :
    (consText id content f).characterData = f.characterData := by
  unfold consText
  split <;> rfl

@[simp] theorem characterData_startLine (breaks : Bool) (depth : Nat) (f : Forest) :
    (startLine breaks depth f).characterData = f.characterData := by
  cases breaks <;> rfl

theorem characterData_lay (f : Forest) (depth : Nat) (breaks : Bool) :
    (f.lay depth breaks).characterData = f.characterData := by
  induction f generalizing depth breaks with
  | nil => rw [lay, characterData_startLine]
  | element id tag content rest _ ihRest =>
    rw [lay, characterData_startLine]
    exact ihRest depth true
  | leaf id l rest ih =>
    cases l with
    | text content =>
      rw [lay, characterData_consText, ih]
      rfl
    | cdata content => exact congrArg (content ++ ·) (ih depth false)
    | comment content =>
      rw [lay, characterData_startLine]
      exact ih depth true

/-- Whether the text of an element with this content is the same after the element has been written
and read: it holds no words beside elements or comments, or no line starts in it. -/
def keepsText (content : Forest) : Bool :=
  !(content.hasStructure && content.hasWords) || content.isInline true

/-- **The text of an element that has been written and read.** -/
theorem text_settle_layInside {f : Forest} (h : f.Settled) (depth : Nat) :
    ((f.layInside depth).settle (f.layInside depth).isIndented).text = f.text ↔
      f.keepsText = true := by
  by_cases hnil : f = nil
  · subst hnil
    exact ⟨fun _ => rfl, fun _ => rfl⟩
  rw [layInside_of_ne_nil hnil, isIndented_lay]
  cases hindented : f.isIndented with
  | true =>
    -- the blanks are dropped, with the line breaks among them
    have hwords : f.hasWords = false := by
      rw [isIndented, Bool.and_eq_true, Bool.not_eq_true'] at hindented
      exact hindented.2
    rw [text_settle_of_not_hasWords (by rw [hasWords_lay, hwords]), characterData_lay, keepsText,
      hwords, Bool.and_false]
    exact ⟨fun _ => rfl, fun _ => (h hindented).symm⟩
  | false =>
    -- nothing is dropped
    rw [text_settle_false, text_lay_eq_iff, keepsText]
    -- the content has words, or nothing that a line could start at
    cases hstructure : f.hasStructure with
    | false =>
      have hinline : f.isInline true = true := isInline_of_not_hasStructure hstructure (.inl hnil)
      rw [hinline, Bool.or_true]
    | true =>
      have hwords : f.hasWords = true := by
        rw [isIndented, hstructure, Bool.true_and, Bool.not_eq_false'] at hindented
        exact hindented
      rw [hwords]
      rfl

end Forest

end BuildProject
