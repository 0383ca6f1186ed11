import BuildProject.Proofs.Document.Events

/-!
# Line breaks as texts

The line breaks that a document gets when it is written are texts to whoever reads it again.
`Forest.lay` is the forest with these texts in it, and with texts that stand side by side joined:
written without any line breaks of its own it gives what the document is written as
(`layout_pieces`). It can be read back, and since all that has been added is blank, it is indented
exactly if the forest was (`isIndented_lay`). Its text is the text of the forest exactly if no line
starts anywhere between the nodes (`text_lay_eq_iff`).
-/

namespace BuildProject

open Markup Text

namespace Forest

/-- What the events of a forest are written as. -/
def written (f : Forest) : List Char :=
  f.events.flatMap Event.write

theorem written_element {content : Forest} (h : content ≠ nil) (id : NodeId) (tag : Tag)
    (rest : Forest) : (element id tag content rest).written =
      ('<' :: printTag tag ++ ['>']) ++ (content.written ++
        (('<' :: '/' :: tag.name.toList ++ ['>']) ++ rest.written)) := by
  rw [written, events_element h, List.flatMap_cons, List.flatMap_append, List.flatMap_cons]
  rfl

/-! ## Adding texts -/

/-- Puts a text in front, joined with the text there. -/
def consText (id : NodeId) (content : String) : Forest → Forest
  | leaf _ (.text more) rest => leaf id (.text (content ++ more)) rest
  | f => leaf id (.text content) f

/-- Puts the text of a line break in front, if a line may start there. -/
def startLine (breaks : Bool) (depth : Nat) (f : Forest) : Forest :=
  if breaks then leaf rootId (.text (String.ofList (indentation depth))) f else f

/-- The content of an element inside `depth` others, with the line breaks that it is written with;
`breaks` says whether a line may start before the first node. The last break is the one before the
end tag. -/
def lay (depth : Nat) (breaks : Bool) : Forest → Forest
  | nil => startLine breaks depth nil
  | element id tag content rest =>
    startLine breaks (depth + 1) (element id tag
      (if content.isEmpty then nil else lay (depth + 1) true content) (lay depth true rest))
  | leaf id (.text content) rest => consText id content (lay depth false rest)
  | leaf id (.cdata content) rest => leaf id (.cdata content) (lay depth false rest)
  | leaf id (.comment content) rest =>
    startLine breaks (depth + 1) (leaf id (.comment content) (lay depth true rest))

/-- The content of an element with its line breaks; an element without content has none. -/
def layInside (depth : Nat) (content : Forest) : Forest :=
  if content.isEmpty then nil else lay depth true content

theorem isEmpty_eq_false {f : Forest} (h : f ≠ nil) : f.isEmpty = false := by
  cases f with
  | nil => exact absurd rfl h
  | element id tag content rest => rfl
  | leaf id l rest => rfl

theorem layInside_of_ne_nil {f : Forest} (h : f ≠ nil) (depth : Nat) :
    f.layInside depth = f.lay depth true := by
  rw [layInside, isEmpty_eq_false h, if_neg Bool.false_ne_true]

theorem lay_ne_nil (depth : Nat) (f : Forest) : f.lay depth true ≠ nil := by
  cases f with
  | nil => exact fun h => nomatch h
  | element id tag content rest => exact fun h => nomatch h
  | leaf id l rest =>
    cases l with
    | text content =>
      rw [lay, consText.eq_def]
      split <;> exact fun h => nomatch h
    | comment content => exact fun h => nomatch h
    | cdata content => exact fun h => nomatch h

/-! ## What is written -/

theorem written_consText (id : NodeId) (content : String) (f : Forest) :
    (consText id content f).written = escapeText content.toList ++ f.written := by
  unfold consText
  split
  · next more rest =>
    show escapeText (content ++ more).toList ++ rest.written = _ ++ (escapeText more.toList ++ _)
    rw [String.toList_append, escapeText_append, List.append_assoc]
    rfl
  · rfl

/-- A line break needs no references. -/
theorem escapeText_indentation (depth : Nat) :
    escapeText (indentation depth) = indentation depth := by
  have hblank (count : Nat) : escapeText (List.replicate count ' ') = List.replicate count ' ' := by
    induction count with
    | zero => rfl
    | succ count ih =>
      rw [List.replicate_succ, escapeText, List.flatMap_cons]
      rw [escapeText] at ih
      rw [ih]
      rfl
  show '\n' :: escapeText (List.replicate (2 * depth) ' ') = _
  rw [hblank]
  rfl

theorem written_startLine (breaks : Bool) (depth : Nat) (f : Forest) :
    (startLine breaks depth f).written =
      (if breaks then indentation depth else []) ++ f.written := by
  cases breaks with
  | false => rfl
  | true =>
    show escapeText (String.ofList (indentation depth)).toList ++ f.written = _
    rw [String.toList_ofList, escapeText_indentation]
    rfl

theorem pieces_element {content : Forest} (h : content ≠ nil) (depth : Nat) (id : NodeId)
    (tag : Tag) (rest : Forest) : (element id tag content rest).pieces depth =
      .markup depth ('<' :: printTag tag ++ ['>']) :: (content.pieces (depth + 1) ++
        .markup depth ('<' :: '/' :: tag.name.toList ++ ['>']) :: rest.pieces depth) := by
  cases content with
  | nil => exact absurd rfl h
  | element id tag content rest => rfl
  | leaf id l rest => rfl

/-- **A document is written with its line breaks as texts**: the pieces of a forest and the end tag
behind it. -/
theorem layout_pieces (f : Forest) (depth : Nat) (breaks : Bool) (close : List Char)
    (pieces : List Piece) :
    layout breaks (f.pieces (depth + 1) ++ .markup depth close :: pieces) =
      (f.lay depth breaks).written ++ (close ++ layout true pieces) := by
  induction f generalizing depth breaks close pieces with
  | nil =>
    rw [lay, written_startLine, Forest.pieces, List.nil_append, layout]
    simp [written, events]
  | element id tag content rest ihContent ihRest =>
    rw [lay, written_startLine]
    by_cases hnil : content = nil
    · subst hnil
      have hpieces : (element id tag nil rest).pieces (depth + 1) =
          .markup (depth + 1) ('<' :: printTag tag ++ ['/', '>']) :: rest.pieces (depth + 1) := rfl
      have hwritten : (element id tag nil (rest.lay depth true)).written =
          ('<' :: printTag tag ++ ['/', '>']) ++ (rest.lay depth true).written := rfl
      rw [isEmpty, if_pos rfl, hwritten, hpieces, List.cons_append, layout, ihRest]
      simp only [List.append_assoc]
    · -- the end tag stands behind the content as `close` does behind the forest
      have hpieces : (element id tag content rest).pieces (depth + 1) ++
          .markup depth close :: pieces =
          .markup (depth + 1) ('<' :: printTag tag ++ ['>']) :: (content.pieces (depth + 1 + 1) ++
            .markup (depth + 1) ('<' :: '/' :: tag.name.toList ++ ['>']) ::
              (rest.pieces (depth + 1) ++ .markup depth close :: pieces)) := by
        rw [pieces_element hnil]
        simp only [List.cons_append, List.append_assoc]
      rw [isEmpty_eq_false hnil, if_neg Bool.false_ne_true, written_element (lay_ne_nil _ _),
        hpieces, layout, ihContent, ihRest]
      simp only [List.append_assoc]
  | leaf id l rest ih =>
    cases l with
    | text content =>
      rw [lay, written_consText, List.append_assoc, ← ih]
      rfl
    | cdata content =>
      have hpieces : (leaf id (.cdata content) rest).pieces (depth + 1) =
          .text (Event.cdata content).write :: rest.pieces (depth + 1) := rfl
      have hwritten : (leaf id (.cdata content) (rest.lay depth false)).written =
          (Event.cdata content).write ++ (rest.lay depth false).written := rfl
      rw [lay, hwritten, hpieces, List.cons_append, layout, ih, List.append_assoc]
    | comment content =>
      have hpieces : (leaf id (.comment content) rest).pieces (depth + 1) =
          .markup (depth + 1) (Event.comment content).write :: rest.pieces (depth + 1) := rfl
      have hwritten : (leaf id (.comment content) (rest.lay depth true)).written =
          (Event.comment content).write ++ (rest.lay depth true).written := rfl
      rw [lay, written_startLine, hwritten, hpieces, List.cons_append, layout, ih]
      simp only [List.append_assoc]

/-! ## What can be read back -/

theorem indentation_ne_empty (depth : Nat) : String.ofList (indentation depth) ≠ "" := by
  intro hempty
  exact absurd (String.ofList_eq_empty_iff.mp hempty) (List.cons_ne_nil _ _)

variable {P : Tag → Prop}

theorem sound_consText {id : NodeId} {content : String} (hcontent : content ≠ "") {f : Forest}
    (h : f.All P fun l => l.event.Sound) :
    (consText id content f).All P fun l => l.event.Sound := by
  unfold consText
  split
  · exact ⟨fun hempty => hcontent (String.append_eq_empty_iff.mp hempty).1, h.2⟩
  · exact ⟨hcontent, h⟩

theorem sound_startLine (breaks : Bool) (depth : Nat) {f : Forest}
    (h : f.All P fun l => l.event.Sound) :
    (startLine breaks depth f).All P fun l => l.event.Sound := by
  cases breaks with
  | false => exact h
  | true => exact ⟨indentation_ne_empty depth, h⟩

theorem sound_lay {f : Forest} (h : f.All P fun l => l.event.Sound) (depth : Nat) (breaks : Bool) :
    (f.lay depth breaks).All P fun l => l.event.Sound := by
  induction f generalizing depth breaks with
  | nil => exact sound_startLine breaks depth trivial
  | element id tag content rest ihContent ihRest =>
    refine sound_startLine breaks (depth + 1) ⟨h.1, ?_, ihRest h.2.2 depth true⟩
    split
    · trivial
    · exact ihContent h.2.1 (depth + 1) true
  | leaf id l rest ih =>
    cases l with
    | text content => exact sound_consText h.1 (ih h.2 depth false)
    | cdata content => exact ⟨h.1, ih h.2 depth false⟩
    | comment content => exact sound_startLine breaks (depth + 1) ⟨h.1, ih h.2 depth true⟩

theorem separated_consText (id : NodeId) (content : String) {f : Forest} (h : f.Separated) :
    (consText id content f).Separated := by
  cases f with
  | nil => exact ⟨fun _ => rfl, h⟩
  | element id tag inside rest => exact ⟨fun _ => rfl, h⟩
  | leaf id l rest =>
    cases l with
    | text more => exact ⟨fun _ => h.1 rfl, h.2⟩
    | comment more => exact ⟨fun _ => rfl, h⟩
    | cdata more => exact ⟨fun _ => rfl, h⟩

/-- A line break stands in front of nodes that are no texts. -/
theorem separated_startLine (breaks : Bool) (depth : Nat) {f : Forest} (h : f.Separated)
    (hstart : f.startsWithText = false) : (startLine breaks depth f).Separated := by
  cases breaks with
  | false => exact h
  | true => exact ⟨fun _ => hstart, h⟩

theorem separated_lay (f : Forest) (depth : Nat) (breaks : Bool) :
    (f.lay depth breaks).Separated := by
  induction f generalizing depth breaks with
  | nil => exact separated_startLine breaks depth trivial rfl
  | element id tag content rest ihContent ihRest =>
    refine separated_startLine breaks (depth + 1) ⟨?_, ihRest depth true⟩ rfl
    split
    · trivial
    · exact ihContent (depth + 1) true
  | leaf id l rest ih =>
    cases l with
    | text content => exact separated_consText id content (ih depth false)
    | cdata content => exact ⟨fun h => absurd h Bool.false_ne_true, ih depth false⟩
    | comment content =>
      exact separated_startLine breaks (depth + 1)
        ⟨fun h => absurd h Bool.false_ne_true, ih depth true⟩ rfl

/-! ## What stays indented -/

theorem isAllBlank_append (a b : String) :
    isAllBlank (a ++ b) = (isAllBlank a && isAllBlank b) := by
  rw [isAllBlank, String.toList_append, List.all_append]
  rfl

theorem isAllBlank_indentation (depth : Nat) :
    isAllBlank (String.ofList (indentation depth)) = true := by
  have hnewline : isBlank '\n' = true := by decide
  have hblank : isBlank ' ' = true := by decide
  simp [isAllBlank, indentation, hnewline, hblank]

@[simp] theorem hasStructure_consText (id : NodeId) (content : String) (f : Forest) :
    (consText id content f).hasStructure = f.hasStructure := by
  unfold consText
  split <;> rfl

@[simp] theorem hasStructure_startLine (breaks : Bool) (depth : Nat) (f : Forest) :
    (startLine breaks depth f).hasStructure = f.hasStructure := by
  cases breaks <;> rfl

theorem hasStructure_lay (f : Forest) (depth : Nat) (breaks : Bool) :
    (f.lay depth breaks).hasStructure = f.hasStructure := by
  induction f generalizing depth breaks with
  | nil => rw [lay, hasStructure_startLine]
  | element id tag content rest _ _ =>
    rw [lay, hasStructure_startLine]
    rfl
  | leaf id l rest ih =>
    cases l with
    | text content =>
      rw [lay, hasStructure_consText, ih]
      rfl
    | cdata content => exact ih depth false
    | comment content =>
      rw [lay, hasStructure_startLine]
      rfl

@[simp] theorem hasWords_consText (id : NodeId) (content : String) (f : Forest) :
    (consText id content f).hasWords = (!isAllBlank content || f.hasWords) := by
  unfold consText
  split
  · next more rest =>
    rw [hasWords, hasWords, isAllBlank_append, Bool.not_and, Bool.or_assoc]
  · rfl

@[simp] theorem hasWords_startLine (breaks : Bool) (depth : Nat) (f : Forest) :
    (startLine breaks depth f).hasWords = f.hasWords := by
  cases breaks with
  | false => rfl
  | true =>
    show (!isAllBlank (String.ofList (indentation depth)) || f.hasWords) = _
    rw [isAllBlank_indentation]
    rfl

theorem hasWords_lay (f : Forest) (depth : Nat) (breaks : Bool) :
    (f.lay depth breaks).hasWords = f.hasWords := by
  induction f generalizing depth breaks with
  | nil => rw [lay, hasWords_startLine]
  | element id tag content rest _ ihRest =>
    rw [lay, hasWords_startLine]
    exact ihRest depth true
  | leaf id l rest ih =>
    cases l with
    | text content =>
      rw [lay, hasWords_consText, ih]
      rfl
    | cdata content => exact ih depth false
    | comment content =>
      rw [lay, hasWords_startLine]
      exact ih depth true

/-- Line breaks do not change which elements are indented. -/
theorem isIndented_lay (f : Forest) (depth : Nat) (breaks : Bool) :
    (f.lay depth breaks).isIndented = f.isIndented := by
  rw [isIndented, isIndented, hasStructure_lay, hasWords_lay]

/-! ## The text -/

@[simp] theorem text_text (id : NodeId) (content : String) (rest : Forest) :
    (leaf id (.text content) rest).text = content ++ rest.text :=
  String.join_cons

@[simp] theorem text_cdata (id : NodeId) (content : String) (rest : Forest) :
    (leaf id (.cdata content) rest).text = content ++ rest.text :=
  String.join_cons

@[simp] theorem text_consText (id : NodeId) (content : String) (f : Forest) :
    (consText id content f).text = content ++ f.text := by
  unfold consText
  split
  · rw [text_text, text_text, String.append_assoc]
  · rw [text_text]

/-- Whether no line starts between the nodes at the top or behind them: every element and every
comment stands between texts or character data. `breaks` says whether a line may start before the
first node. -/
def isInline (breaks : Bool) : Forest → Bool
  | nil => !breaks
  | element _ _ _ rest => !breaks && rest.isInline true
  | leaf _ (.comment _) rest => !breaks && rest.isInline true
  | leaf _ _ rest => rest.isInline false

/-- A line break makes the text longer, anything else leaves it as it is. -/
theorem text_lay (f : Forest) (depth : Nat) (breaks : Bool) :
    (f.isInline breaks = true ∧ (f.lay depth breaks).text = f.text) ∨
      (f.isInline breaks = false ∧ f.text.length < (f.lay depth breaks).text.length) := by
  have hbreak (d : Nat) (f g : Forest) (h : g.text.length ≤ f.text.length) :
      g.text.length < (startLine true d f).text.length := by
    show _ < (leaf rootId (.text (String.ofList (indentation d))) f).text.length
    rw [text_text, String.length_append, String.length_ofList]
    simp only [indentation, List.length_cons]
    omega
  induction f generalizing depth breaks with
  | nil =>
    cases breaks with
    | false => exact .inl ⟨rfl, rfl⟩
    | true => exact .inr ⟨rfl, hbreak depth nil nil (Nat.le_refl _)⟩
  | element id tag content rest _ ih =>
    cases breaks with
    | false => exact ih depth true
    | true =>
      -- the break alone makes it longer, and what follows is at least as long as before
      refine .inr ⟨rfl, hbreak (depth + 1) (element id tag _ (rest.lay depth true)) rest ?_⟩
      rcases ih depth true with ⟨-, htext⟩ | ⟨-, hlength⟩
      · exact Nat.le_of_eq (congrArg String.length htext.symm)
      · exact Nat.le_of_lt hlength
  | leaf id l rest ih =>
    cases l with
    | text content =>
      rw [lay, text_consText, text_text, String.length_append, String.length_append]
      rcases ih depth false with ⟨hinline, htext⟩ | ⟨hinline, hlength⟩
      · exact .inl ⟨hinline, by rw [htext]⟩
      · exact .inr ⟨hinline, Nat.add_lt_add_left hlength _⟩
    | cdata content =>
      rw [lay, text_cdata, text_cdata, String.length_append, String.length_append]
      rcases ih depth false with ⟨hinline, htext⟩ | ⟨hinline, hlength⟩
      · exact .inl ⟨hinline, by rw [htext]⟩
      · exact .inr ⟨hinline, Nat.add_lt_add_left hlength _⟩
    | comment content =>
      cases breaks with
      | false => exact ih depth true
      | true =>
        refine .inr ⟨rfl, hbreak (depth + 1) (leaf id (.comment content) (rest.lay depth true)) rest
          ?_⟩
        rcases ih depth true with ⟨-, htext⟩ | ⟨-, hlength⟩
        · exact Nat.le_of_eq (congrArg String.length htext.symm)
        · exact Nat.le_of_lt hlength

/-- **Line breaks leave the text as it is exactly if no line starts between the nodes.** -/
theorem text_lay_eq_iff (f : Forest) (depth : Nat) (breaks : Bool) :
    (f.lay depth breaks).text = f.text ↔ f.isInline breaks = true := by
  rcases text_lay f depth breaks with ⟨hinline, htext⟩ | ⟨hinline, hlength⟩
  · exact ⟨fun _ => hinline, fun _ => htext⟩
  · refine ⟨fun htext => ?_, fun h => ?_⟩
    · rw [htext] at hlength
      exact absurd hlength (Nat.lt_irrefl _)
    · rw [hinline] at h
      exact absurd h Bool.false_ne_true

/-- Without elements and comments there are no lines. -/
theorem isInline_of_not_hasStructure {f : Forest} (h : f.hasStructure = false) {breaks : Bool}
    (hbreaks : f ≠ nil ∨ breaks = false) : f.isInline breaks = true := by
  induction f generalizing breaks with
  | nil =>
    have hfalse : breaks = false := hbreaks.resolve_left fun hne => hne rfl
    rw [hfalse]
    rfl
  | element id tag content rest _ _ => exact absurd h (by simp [hasStructure])
  | leaf id l rest ih =>
    cases l with
    | text content => exact ih h (.inr rfl)
    | cdata content => exact ih h (.inr rfl)
    | comment content => exact absurd h (by simp [hasStructure])

end Forest

end BuildProject
