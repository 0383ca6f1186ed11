import BuildProject.Proofs.Document.Roundtrip

/-!
# Edited documents that are written and read back

Edits can leave an element with several texts side by side; they are written, and so read, as one
(`Forest.merge`). Apart from that a document is read back as it is, with every node in its place, as
long as no text stands beside an element or a comment (`Document.Reachable.parse_render_merge`):
where there are elements or comments the line breaks are the only texts and all of them are dropped,
and where there are none no line starts.
-/

namespace BuildProject

open Markup Text

namespace Forest

/-! ## Texts side by side -/

/-- The forest with texts that stand side by side joined, at any depth. -/
def merge : Forest → Forest
  | nil => nil
  | element id tag content rest => element id tag content.merge rest.merge
  | leaf id (.text content) rest => consText id content rest.merge
  | leaf id l rest => leaf id l rest.merge

@[simp] theorem hasStructure_merge (f : Forest) : f.merge.hasStructure = f.hasStructure := by
  induction f with
  | nil => rfl
  | element id tag content rest _ _ => rfl
  | leaf id l rest ih =>
    cases l with
    | text content =>
      rw [merge, hasStructure_consText, ih]
      rfl
    | comment content => rfl
    | cdata content => exact ih

/-- Whether there is a text at the top. -/
def hasText : Forest → Bool
  | nil => false
  | element _ _ _ rest => rest.hasText
  | leaf _ (.text _) _ => true
  | leaf _ _ rest => rest.hasText

/-- Whether a text stands beside an element or a comment. -/
def isMixed (f : Forest) : Bool :=
  f.hasText && f.hasStructure

theorem hasWords_of_not_hasText {f : Forest} (h : f.hasText = false) : f.hasWords = false := by
  induction f with
  | nil => rfl
  | element id tag content rest _ ih => exact ih h
  | leaf id l rest ih =>
    cases l with
    | text content => exact absurd h (by simp [hasText])
    | comment content => exact ih h
    | cdata content => exact ih h

/-! ## Contents without elements and comments -/

/-- No line starts in such a content. -/
theorem lay_of_not_hasStructure {f : Forest} (h : f.hasStructure = false) (depth : Nat)
    {breaks : Bool} (hbreaks : f ≠ nil ∨ breaks = false) : f.lay depth breaks = f.merge := by
  induction f generalizing breaks with
  | nil =>
    have hfalse : breaks = false := hbreaks.resolve_left fun hne => hne rfl
    rw [hfalse]
    rfl
  | element id tag content rest _ _ => exact absurd h (by simp [hasStructure])
  | leaf id l rest ih =>
    cases l with
    | text content => rw [lay, merge, ih h (.inr rfl)]
    | cdata content => exact congrArg (leaf id (.cdata content)) (ih h (.inr rfl))
    | comment content => exact absurd h (by simp [hasStructure])

/-- Nothing is dropped from such a content. -/
theorem settle_of_not_hasStructure {f : Forest} (h : f.hasStructure = false) :
    f.settle false = f := by
  induction f with
  | nil => rfl
  | element id tag content rest _ _ => exact absurd h (by simp [hasStructure])
  | leaf id l rest ih =>
    cases l with
    | text content => rw [settle, Bool.false_and, if_neg Bool.false_ne_true, ih h]
    | cdata content => exact congrArg (leaf id (.cdata content)) (ih h)
    | comment content => exact absurd h (by simp [hasStructure])

/-! ## Contents without texts -/

/-- A line break is dropped with the other blanks. -/
theorem settle_startLine (breaks : Bool) (depth : Nat) (f : Forest) :
    (startLine breaks depth f).settle true = f.settle true := by
  cases breaks with
  | false => rfl
  | true => rw [startLine, if_pos rfl, settle, isAllBlank_indentation, Bool.and_self, if_pos rfl]

/-- What is read of a content that is not mixed, if all line breaks of a content without texts are
dropped. -/
theorem settle_layInside_of_lay {f : Forest} (hmixed : f.isMixed = false)
    (hlay : f.hasText = false → ∀ depth breaks, (f.lay depth breaks).settle true = f.merge)
    (depth : Nat) : (f.layInside depth).settle (f.layInside depth).isIndented = f.merge := by
  by_cases hnil : f = nil
  · subst hnil
    rfl
  rw [layInside_of_ne_nil hnil]
  cases hstructure : f.hasStructure with
  | false =>
    rw [lay_of_not_hasStructure hstructure depth (.inl hnil), isIndented, hasStructure_merge,
      hstructure, Bool.false_and]
    exact settle_of_not_hasStructure ((hasStructure_merge f).trans hstructure)
  | true =>
    have htext : f.hasText = false := by
      rwa [isMixed, hstructure, Bool.and_true] at hmixed
    rw [isIndented_lay, isIndented, hstructure, hasWords_of_not_hasText htext, Bool.not_false,
      Bool.and_self]
    exact hlay htext depth true

/-- Where there are no texts all line breaks are dropped. -/
theorem settle_lay {f : Forest} (hmixed : ∀ e ∈ f.elements, e.content.isMixed = false)
    (htext : f.hasText = false) (depth : Nat) (breaks : Bool) :
    (f.lay depth breaks).settle true = f.merge := by
  induction f generalizing depth breaks with
  | nil => rw [lay, settle_startLine]; rfl
  | element id tag content rest ihContent ihRest =>
    have hcontent : ∀ e ∈ content.elements, e.content.isMixed = false :=
      fun e he => hmixed e (List.mem_cons_of_mem _ (List.mem_append_left _ he))
    have hrest : ∀ e ∈ rest.elements, e.content.isMixed = false :=
      fun e he => hmixed e (List.mem_cons_of_mem _ (List.mem_append_right _ he))
    have hinside := settle_layInside_of_lay (hmixed ⟨id, tag, content⟩ List.mem_cons_self)
      (ihContent hcontent) (depth + 1)
    rw [lay, settle_startLine, settle, merge, ihRest hrest htext]
    exact congrArg (element id tag · rest.merge) hinside
  | leaf id l rest ih =>
    cases l with
    | text content => exact absurd htext (by simp [hasText])
    | cdata content =>
      exact congrArg (leaf id (.cdata content)) (ih hmixed htext depth false)
    | comment content =>
      rw [lay, settle_startLine]
      exact congrArg (leaf id (.comment content)) (ih hmixed htext depth true)

/-- **What is read of a content that is written**: the same nodes, with texts side by side
joined. -/
theorem settle_layInside {f : Forest} (hmixed : f.isMixed = false)
    (hinside : ∀ e ∈ f.elements, e.content.isMixed = false) (depth : Nat) :
    (f.layInside depth).settle (f.layInside depth).isIndented = f.merge :=
  settle_layInside_of_lay hmixed (settle_lay hinside) depth

/-- Forests that differ in identities only are read alike. -/
theorem erase_settle_of_erase {f g : Forest} (h : f.erase = g.erase) :
    (f.settle f.isIndented).erase = (g.settle g.isIndented).erase := by
  rw [erase_settle, erase_settle, ← isIndented_erase f, ← isIndented_erase g, h]

end Forest

/-! ## The round trip -/

/-- **A document that has been edited, written and read again** has the same declaration, the same
comments before the root, and the same nodes in the same places: elements with their names and
attributes, comments, character data, and texts, joined where they stand side by side. -/
theorem Document.Reachable.parse_render_merge {d : Document} (h : d.Reachable) (hplain : d.Plain)
    (hmixed : ∀ e ∈ d.root :: d.elements, e.content.isMixed = false) :
    ∃ d', DocumentContent.parse d.render = .ok d' ∧ d'.declaration? = d.declaration? ∧
      d'.prolog = d.prolog ∧ d'.tree.tag = d.tree.tag ∧
      d'.tree.content.erase = d.tree.content.merge.erase := by
  obtain ⟨inside, next, herase, hparse⟩ := DocumentContent.exists_parse_render h.sound hplain
  refine ⟨_, hparse, rfl, rfl, rfl, ?_⟩
  obtain ⟨hroot, hinside⟩ := List.forall_mem_cons.mp hmixed
  exact (Forest.erase_settle_of_erase herase).trans
    (congrArg Forest.erase (Forest.settle_layInside hroot hinside 0))

/-- Texts come together where the element between them is removed, and a value may hold anything. -/
theorem Document.Reachable.parse_render_merge_removed :
    ∃ d d' : Document, Document.parse ⟨0⟩ "<Project><A>x<B/>y</A></Project>" = .ok d ∧
      d' = (d.after [.remove ⟨⟨0⟩, 3⟩, .setAttribute ⟨⟨0⟩, 1⟩ "Label" "<\"&\n>"]) ∧
      ∃ again, DocumentContent.parse d'.render = .ok again ∧
        again.tree.content.erase = .ofElement ⟨rootId, ⟨"A", [⟨"Label", "<\"&\n>"⟩]⟩,
          .ofLeaf rootId (.text "xy")⟩ := by
  let d : Document := .ofContent ⟨0⟩ ⟨⟨⟨projectElement, []⟩, .ofElement ⟨1, ⟨"A", []⟩,
    .leaf 2 (.text "x") (.element 3 ⟨"B", []⟩ .nil (.leaf 4 (.text "y") .nil))⟩, 5⟩, none, []⟩
  have hparse : Document.parse ⟨0⟩ "<Project><A>x<B/>y</A></Project>" = .ok d := by
    decide +kernel
  have hreachable := Reachable.after (.parsed hparse)
    [.remove ⟨⟨0⟩, 3⟩, .setAttribute ⟨⟨0⟩, 1⟩ "Label" "<\"&\n>"]
  obtain ⟨again, hagain, -, -, -, hcontent⟩ := parse_render_merge hreachable
    ⟨by decide +kernel, by decide +kernel⟩ (by decide +kernel)
  exact ⟨d, _, hparse, rfl, again, hagain, hcontent.trans (by decide +kernel)⟩

end BuildProject
