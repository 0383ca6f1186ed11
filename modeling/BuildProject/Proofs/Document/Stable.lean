import BuildProject.Proofs.Document.Merge

/-!
# Written texts that stay as they are

A document that has been read may change once when it is written and read again, as a line break
between words becomes a part of the text. Then it stays as it is: what it is written as is written
again (`DocumentContent.render_parse_render`).

The line breaks are texts of the forest that is laid out (`Forest.lay`). If the forest is indented,
all of them are dropped when it is read, with nothing else, as an indented forest that has been read
has no texts of its own. If it is not indented, none is dropped. Then every one of them is a text
where a line could start, so no line starts there any more. In both cases laying out what has been
read gives the forest that was laid out (`Forest.layInside_settle_layInside`).
-/

namespace BuildProject

open Markup Text

namespace Forest

/-! ## Up to identities -/

@[simp] theorem erase_consText (id : NodeId) (content : String) (f : Forest) :
    (consText id content f).erase = consText rootId content f.erase := by
  cases f with
  | nil => rfl
  | element own tag inside rest => rfl
  | leaf own l rest => cases l <;> rfl

@[simp] theorem erase_startLine (breaks : Bool) (depth : Nat) (f : Forest) :
    (startLine breaks depth f).erase = startLine breaks depth f.erase := by
  cases breaks <;> rfl

@[simp] theorem isEmpty_erase (f : Forest) : f.erase.isEmpty = f.isEmpty := by
  cases f <;> rfl

/-- Line breaks do not depend on identities. -/
theorem erase_lay (f : Forest) (depth : Nat) (breaks : Bool) :
    (f.lay depth breaks).erase = f.erase.lay depth breaks := by
  induction f generalizing depth breaks with
  | nil => exact erase_startLine breaks depth nil
  | element id tag content rest ihContent ihRest =>
    rw [lay, erase_startLine, erase, erase, lay, isEmpty_erase, ihRest]
    split
    · rfl
    · rw [ihContent]
  | leaf id l rest ih =>
    cases l with
    | text content => rw [lay, erase_consText, erase, lay, ih]
    | cdata content => exact congrArg (leaf rootId (.cdata content)) (ih depth false)
    | comment content => rw [lay, erase_startLine, erase, erase, lay, ih]

theorem erase_layInside (f : Forest) (depth : Nat) :
    (f.layInside depth).erase = f.erase.layInside depth := by
  rw [layInside, layInside, isEmpty_erase]
  split
  · rfl
  · exact erase_lay f depth true

theorem erase_ne_nil {f : Forest} (h : f ≠ nil) : f.erase ≠ nil := by
  cases f with
  | nil => exact absurd rfl h
  | element id tag content rest => exact fun hnil => nomatch hnil
  | leaf id l rest => exact fun hnil => nomatch hnil

/-- Events carry no identities. -/
theorem events_erase (f : Forest) : f.erase.events = f.events := by
  induction f with
  | nil => rfl
  | element id tag content rest ihContent ihRest =>
    by_cases hnil : content = nil
    · subst hnil
      exact congrArg (Event.emptyTag tag :: ·) ihRest
    · rw [erase, events_element (erase_ne_nil hnil), events_element hnil, ihContent, ihRest]
  | leaf id l rest ih => exact congrArg (l.event :: ·) ih

/-! ## Forests that have been read -/

/-- Where blanks are indentation there are no texts. -/
def Tidy (f : Forest) : Prop :=
  f.isIndented = true → f.hasText = false

/-- Where there are no words all texts are dropped. -/
theorem hasText_settle_of_not_hasWords {f : Forest} (h : f.hasWords = false) :
    (f.settle true).hasText = false := by
  induction f with
  | nil => rfl
  | element id tag content rest _ ih => exact ih h
  | leaf id l rest ih =>
    cases l with
    | text content =>
      rw [hasWords, Bool.or_eq_false_iff, Bool.not_eq_false'] at h
      rw [settle, Bool.true_and, if_pos h.1]
      exact ih h.2
    | comment content => exact ih h
    | cdata content => exact ih h

theorem tidy_settle (f : Forest) : (f.settle f.isIndented).Tidy := by
  intro hindented
  rw [isIndented_settle] at hindented
  have hwords : f.hasWords = false := by
    rw [isIndented, Bool.and_eq_true, Bool.not_eq_true'] at hindented
    exact hindented.2
  rw [hindented]
  exact hasText_settle_of_not_hasWords hwords

theorem tidy_of_mem_elements_settle {f : Forest} {indented : Bool} {e : Element}
    (h : e ∈ (f.settle indented).elements) : e.content.Tidy := by
  induction f generalizing indented with
  | nil => exact absurd h List.not_mem_nil
  | element id tag content rest ihContent ihRest =>
    rcases List.mem_cons.mp h with rfl | h
    · exact tidy_settle content
    · rcases List.mem_append.mp h with h | h
      · exact ihContent h
      · exact ihRest h
  | leaf id l rest ih =>
    cases l with
    | text content =>
      rw [settle] at h
      split at h
      · exact ih h
      · exact ih h
    | comment content => exact ih h
    | cdata content => exact ih h

/-! ## Texts in front -/

/-- A text in front of a text joins it. -/
theorem consText_consText (id own : NodeId) (first second : String) (f : Forest) :
    consText id first (consText own second f) = consText id (first ++ second) f := by
  cases f with
  | nil => rfl
  | element other tag content rest => rfl
  | leaf other l rest =>
    cases l with
    | text content =>
      show leaf id (.text (first ++ (second ++ content))) rest = _
      rw [← String.append_assoc]
      rfl
    | comment content => rfl
    | cdata content => rfl

/-- No line starts behind a text. -/
theorem lay_consText (id : NodeId) (content : String) (f : Forest) (depth : Nat) (breaks : Bool) :
    (consText id content f).lay depth breaks = consText id content (f.lay depth false) := by
  unfold consText
  split
  · next own more rest =>
    show consText id (content ++ more) (rest.lay depth false)
      = consText id content (consText own more (rest.lay depth false))
    rw [consText_consText]
  · rfl

theorem consText_of_not_startsWithText {f : Forest} (h : f.startsWithText = false) (id : NodeId)
    (content : String) : consText id content f = leaf id (.text content) f := by
  cases f with
  | nil => rfl
  | element own tag inside rest => rfl
  | leaf own l rest =>
    cases l with
    | text more => exact absurd h (by simp [startsWithText])
    | comment more => rfl
    | cdata more => rfl

/-- Texts that are kept stay in front. -/
theorem settle_consText (id : NodeId) (content : String) (f : Forest) :
    (consText id content f).settle false = consText id content (f.settle false) := by
  cases f with
  | nil => rfl
  | element own tag inside rest => rfl
  | leaf own l rest => cases l <;> rfl

/-! ## Laid out, read and laid out again -/

/-- A line break comes back if it is dropped, and stands where it stood if it is kept. -/
theorem lay_settle_startLine {f g : Forest} {depth level : Nat} {indented : Bool}
    (hlay : ∀ breaks, (f.settle indented).lay depth breaks = startLine breaks level g)
    (hstart : g.startsWithText = false) (breaks : Bool) :
    ((startLine breaks level f).settle indented).lay depth breaks = startLine breaks level g := by
  cases indented with
  | true =>
    rw [settle_startLine]
    exact hlay breaks
  | false =>
    cases breaks with
    | false => exact hlay false
    | true =>
      -- no line starts behind the line break
      have hbehind : (f.settle false).lay depth false = g := hlay false
      show consText rootId (String.ofList (indentation level)) ((f.settle false).lay depth false) = _
      rw [hbehind, consText_of_not_startsWithText hstart]
      rfl

/-- The content of an element, if all forests inside it are laid out again as they were. -/
theorem layInside_settle_layInside_of_lay {f : Forest} (htidy : f.Tidy)
    (hlay : ∀ {indented}, (indented = true → f.hasText = false) → ∀ depth breaks,
      ((f.lay depth breaks).settle indented).lay depth breaks = f.lay depth breaks) (depth : Nat) :
    ((f.layInside depth).settle (f.layInside depth).isIndented).layInside depth =
      f.layInside depth := by
  by_cases hnil : f = nil
  · subst hnil
    rfl
  rw [layInside_of_ne_nil hnil, isIndented_lay]
  have hsettled : (f.lay depth true).settle f.isIndented ≠ nil := by
    cases hindented : f.isIndented with
    | true =>
      -- what the blanks indent is still there
      intro hempty
      have hstructure := hasStructure_settle true (f.lay depth true)
      rw [hempty, hasStructure_lay] at hstructure
      rw [isIndented, ← hstructure] at hindented
      exact absurd hindented (by simp [hasStructure])
    | false =>
      have hlaid := lay_ne_nil depth f
      cases hf : f.lay depth true with
      | nil => exact absurd hf hlaid
      | element id tag content rest => simp [settle]
      | leaf id l rest => cases l <;> simp [settle]
  rw [layInside_of_ne_nil hsettled]
  exact hlay htidy depth true

/-- **Line breaks that have been read are written again**, whether they have been dropped or
kept. -/
theorem lay_settle_lay {f : Forest} (htidy : ∀ e ∈ f.elements, e.content.Tidy) {indented : Bool}
    (htext : indented = true → f.hasText = false) (depth : Nat) (breaks : Bool) :
    ((f.lay depth breaks).settle indented).lay depth breaks = f.lay depth breaks := by
  induction f generalizing indented depth breaks with
  | nil => exact lay_settle_startLine (fun _ => rfl) rfl breaks
  | element id tag content rest ihContent ihRest =>
    have hcontent : ∀ e ∈ content.elements, e.content.Tidy :=
      fun e he => htidy e (List.mem_cons_of_mem _ (List.mem_append_left _ he))
    have hrest : ∀ e ∈ rest.elements, e.content.Tidy :=
      fun e he => htidy e (List.mem_cons_of_mem _ (List.mem_append_right _ he))
    have hinside := layInside_settle_layInside_of_lay
      (htidy ⟨id, tag, content⟩ List.mem_cons_self) (ihContent hcontent) (depth + 1)
    refine lay_settle_startLine (fun breaks => ?_) rfl breaks
    show startLine breaks (depth + 1) (element id tag
      (((content.layInside (depth + 1)).settle (content.layInside (depth + 1)).isIndented).layInside
        (depth + 1)) (((rest.lay depth true).settle indented).lay depth true)) = _
    rw [hinside, ihRest hrest htext]
    rfl
  | leaf id l rest ih =>
    cases l with
    | text content =>
      have hkept : indented = false := by
        cases indented with
        | false => rfl
        | true => exact absurd (htext rfl) (by simp [hasText])
      subst hkept
      rw [lay, settle_consText, lay_consText, ih htidy (fun h => absurd h Bool.false_ne_true)]
    | cdata content =>
      exact congrArg (leaf id (.cdata content)) (ih htidy htext depth false)
    | comment content =>
      refine lay_settle_startLine (fun breaks => ?_) rfl breaks
      show startLine breaks (depth + 1) (leaf id (.comment content)
        (((rest.lay depth true).settle indented).lay depth true)) = _
      rw [ih htidy htext]

/-- **What has been read of a content that was written is written in the same way.** -/
theorem layInside_settle_layInside {f : Forest} (htidy : f.Tidy)
    (hinside : ∀ e ∈ f.elements, e.content.Tidy) (depth : Nat) :
    ((f.layInside depth).settle (f.layInside depth).isIndented).layInside depth =
      f.layInside depth :=
  layInside_settle_layInside_of_lay htidy (lay_settle_lay hinside) depth

end Forest

/-! ## Documents -/

namespace DocumentContent

/-- Documents with the same parts and the same line breaks are written as the same text. -/
theorem render_eq_of_erase {d d' : DocumentContent}
    (hdeclaration : d'.declaration? = d.declaration?)
    (hprolog : d'.prolog = d.prolog) (htag : d'.tree.tag = d.tree.tag)
    (hcontent : (d'.tree.content.layInside 0).erase = (d.tree.content.layInside 0).erase) :
    d'.render = d.render := by
  have hfront : d'.front = d.front := by
    rw [front, front, hdeclaration, hprolog]
  have herase : d'.laid.erase = d.laid.erase := by
    simp only [laid, Forest.erase, htag, hcontent]
  have hlaid : d'.laid.events = d.laid.events := by
    rw [← Forest.events_erase, herase, Forest.events_erase]
  rw [← String.toList_inj, toList_render, toList_render, events, events, hfront, hlaid]

/-- **A document that has been read, written and read again is written as the same text**, with
words beside elements and comments, character data, declarations and whatever else the text that was
read first held. -/
theorem render_parse_render {text : String} {d : DocumentContent}
    (h : DocumentContent.parse text = .ok d) (hplain : d.Plain) :
    ∃ again, DocumentContent.parse d.render = .ok again ∧ again.render = d.render := by
  have hsound := sound_of_parse h
  obtain ⟨inside, next, herase, hparse⟩ := exists_parse_render hsound hplain
  refine ⟨_, hparse, render_eq_of_erase rfl rfl rfl ?_⟩
  -- the root and all elements of a document that has been read are tidy
  obtain ⟨built, tag, read, -, -, -, -, rfl⟩ := ofEvents_eq_ok.mp h
  have hlaid := Forest.layInside_settle_layInside (Forest.tidy_settle read)
    (fun e he => Forest.tidy_of_mem_elements_settle he) 0
  have hsettled := Forest.erase_settle_of_erase herase
  show ((inside.settle inside.isIndented).layInside 0).erase
    = ((read.settle read.isIndented).layInside 0).erase
  rw [Forest.erase_layInside, hsettled, ← Forest.erase_layInside, hlaid]

/-- A text with a document type and an instruction, in which words stand beside elements and a
comment among blanks. -/
def mixedText : String :=
  "<?xml version='1.0'?><!DOCTYPE p><!--x--><Project>abc<A/><?pi?> <B> <!--c--> </B></Project>"

/-- It is written with a line break behind the words, which is a part of the text when it is read
again and stays the only one there. -/
theorem render_parse_render_mixed :
    ∃ d again, DocumentContent.parse mixedText = .ok d ∧
      d.render = "<?xml version=\"1.0\"?>\n<!--x-->\n" ++
        "<Project>abc<A/> <B>\n    <!--c-->\n  </B>\n</Project>\n" ∧
      DocumentContent.parse d.render = .ok again ∧ again.render = d.render ∧
      d.tree.root.text = "abc " ∧ again.tree.root.text = "abc \n" := by
  let words : Forest := .leaf 1 (.text "abc") (.element 2 ⟨"A", []⟩ .nil (.leaf 3 (.text " ")
    (.element 4 ⟨"B", []⟩ (.leaf 6 (.comment "c") .nil) .nil)))
  let d : DocumentContent := ⟨⟨⟨"Project", []⟩, words, 8⟩, some ⟨"1.0", none, none⟩, ["x"]⟩
  have hparse : DocumentContent.parse mixedText = .ok d := by decide +kernel
  have hplain : d.Plain := ⟨by decide +kernel, by decide +kernel⟩
  obtain ⟨again, hagain, hrender⟩ := render_parse_render hparse hplain
  refine ⟨d, again, hparse, by decide +kernel, hagain, hrender, by decide +kernel, ?_⟩
  have htext : (DocumentContent.parse d.render).toOption.map (·.tree.root.text) = some "abc \n" := by
    decide +kernel
  rw [hagain] at htext
  exact Option.some.inj htext

end DocumentContent

end BuildProject
