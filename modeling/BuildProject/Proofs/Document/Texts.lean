import BuildProject.Proofs.Document.Nesting
import BuildProject.Proofs.Document.Settle

/-!
# The text of elements that are read

An element has the text and the character data that are written directly inside it, in their order,
unless its blanks are indentation (`DocumentContent.text_of_parse`). They are taken for it when
there is an element or a comment beside them and all text is blank. Character data is not asked: an
element with words in character data loses the blanks around them if there is a comment, too.
-/

namespace BuildProject

open Markup Text

/-! ## What is written inside an element -/

namespace Node

/-- What a node adds to the text of the element around it. -/
def text? : Node → Option String
  | element _ => none
  | leaf l => l.text?

/-- What a node adds to the character data of the element around it. -/
def characterData? : Node → Option String
  | leaf (.cdata content) => some content
  | _ => none

/-- Whether a node is text, character data apart. -/
def isText : Node → Bool
  | leaf (.text _) => true
  | _ => false

/-- Whether a node is text that is more than blanks. -/
def isWords : Node → Bool
  | leaf (.text content) => !isAllBlank content
  | _ => false

/-- Whether the blanks beside a node may be indentation. -/
def isStructure : Node → Bool
  | element _ => true
  | leaf (.comment _) => true
  | leaf _ => false

end Node

namespace SourceElement

/-- All text and character data directly inside the element, joined. -/
def writtenText (source : SourceElement) : String :=
  String.join (source.nodes.filterMap Node.text?)

/-- The character data directly inside the element, joined. -/
def characterData (source : SourceElement) : String :=
  String.join (source.nodes.filterMap Node.characterData?)

/-- There is text directly inside the element, character data apart. -/
def HasText (source : SourceElement) : Prop :=
  ∃ node ∈ source.nodes, node.isText = true

/-- There is an element or a comment directly inside the element, and all text beside it is
blank. -/
def Indented (source : SourceElement) : Prop :=
  (∃ node ∈ source.nodes, node.isStructure = true) ∧ ∀ node ∈ source.nodes, node.isWords = false

instance (source : SourceElement) : Decidable source.Indented :=
  inferInstanceAs (Decidable (_ ∧ _))

end SourceElement

/-! ## What is found of it -/

namespace Forest

theorem text_eq_join_nodes (f : Forest) : f.text = String.join (f.nodes.filterMap Node.text?) := by
  induction f with
  | nil => rfl
  | element id tag content rest _ ih => exact ih
  | leaf id l rest ih =>
    cases l with
    | text content =>
      rw [text_text, ih]
      exact String.join_cons.symm
    | cdata content =>
      rw [text_cdata, ih]
      exact String.join_cons.symm
    | comment content => exact ih

theorem characterData_eq_join_nodes (f : Forest) :
    f.characterData = String.join (f.nodes.filterMap Node.characterData?) := by
  induction f with
  | nil => rfl
  | element id tag content rest _ ih => exact ih
  | leaf id l rest ih =>
    cases l with
    | text content => exact ih
    | cdata content =>
      rw [characterData, ih]
      exact String.join_cons.symm
    | comment content => exact ih

theorem hasStructure_iff (f : Forest) :
    f.hasStructure = true ↔ ∃ node ∈ f.nodes, node.isStructure = true := by
  induction f with
  | nil => simp [hasStructure, nodes]
  | element id tag content rest _ _ => simp [hasStructure, nodes, Node.isStructure]
  | leaf id l rest ih =>
    cases l <;> simp [hasStructure, nodes, Node.isStructure, ih]

theorem hasWords_eq_false_iff (f : Forest) :
    f.hasWords = false ↔ ∀ node ∈ f.nodes, node.isWords = false := by
  induction f with
  | nil => simp [hasWords, nodes]
  | element id tag content rest _ ih => simp [hasWords, nodes, Node.isWords, ih]
  | leaf id l rest ih =>
    cases l <;> simp [hasWords, nodes, Node.isWords, ih]

theorem isIndented_iff (entry : Nat × Element) :
    entry.2.content.isIndented = true ↔ (SourceElement.of entry).Indented := by
  rw [isIndented, Bool.and_eq_true, Bool.not_eq_true', hasStructure_iff, hasWords_eq_false_iff]
  rfl

theorem length_characterData_le (f : Forest) : f.characterData.length ≤ f.text.length := by
  induction f with
  | nil => exact Nat.le_refl _
  | element id tag content rest _ ih => exact ih
  | leaf id l rest ih =>
    cases l with
    | text content =>
      rw [text_text, String.length_append]
      exact Nat.le_trans ih (Nat.le_add_left _ _)
    | cdata content =>
      rw [text_cdata, characterData, String.length_append, String.length_append]
      exact Nat.add_le_add_left ih _
    | comment content => exact ih

/-- Without the text there is less, as no text is empty. -/
theorem characterData_eq_text_iff {f : Forest}
    (hne : ∀ content, .leaf (.text content) ∈ f.nodes → content ≠ "") :
    f.characterData = f.text ↔ ¬ ∃ node ∈ f.nodes, node.isText = true := by
  induction f with
  | nil => simp [nodes, text, characterData, leaves]
  | element id tag content rest _ ih =>
    show rest.characterData = rest.text ↔ _
    rw [ih fun content h => hne content (List.mem_cons_of_mem _ h)]
    simp [nodes, Node.isText]
  | leaf id l rest ih =>
    have ih := ih fun content h => hne content (List.mem_cons_of_mem _ h)
    cases l with
    | text content =>
      have hmem : Node.leaf (.text content) ∈ (leaf id (.text content) rest).nodes :=
        List.mem_cons_self
      have hpositive : 0 < content.length :=
        Nat.pos_of_ne_zero fun hzero => hne content hmem (String.length_eq_zero_iff.mp hzero)
      -- the text counts on the right side only, so that side is longer
      have hle := length_characterData_le rest
      refine iff_of_false (fun heq => ?_) (not_not_intro ⟨_, hmem, rfl⟩)
      have hlength : rest.characterData.length = content.length + rest.text.length := by
        rw [← String.length_append, ← text_text id, ← heq]
        rfl
      omega
    | cdata content =>
      rw [characterData, text_cdata, String.append_right_inj, ih]
      simp [nodes, Node.isText]
    | comment content =>
      show rest.characterData = rest.text ↔ _
      rw [ih]
      simp [nodes, Node.isText]

/-- Only the content of elements is settled: all else about them stays. -/
theorem outline_settle (indented : Bool) (depth : Nat) (f : Forest) :
    (f.settle indented).outline depth = (f.outline depth).map fun entry =>
      (entry.1, { entry.2 with content := entry.2.content.settle entry.2.content.isIndented }) := by
  induction f generalizing indented depth with
  | nil => rfl
  | element id tag content rest ihContent ihRest =>
    rw [settle, outline, outline, ihContent, ihRest, List.map_cons, List.map_append]
  | leaf id l rest ih =>
    cases l with
    | text content =>
      rw [settle]
      split
      · exact ih indented depth
      · exact ih indented depth
    | comment content => exact ih indented depth
    | cdata content => exact ih indented depth

/-- The text of a settled forest: without indentation, nothing is dropped. -/
theorem text_settle (f : Forest) :
    (f.settle f.isIndented).text = if f.isIndented then f.characterData else f.text := by
  cases hindented : f.isIndented with
  | false => exact text_settle_false f
  | true =>
    rw [isIndented, Bool.and_eq_true, Bool.not_eq_true'] at hindented
    exact text_settle_of_not_hasWords hindented.2

end Forest

/-! ## Whole documents -/

/-- The events of a text, without byte order marks at its start. -/
def eventsOf (text : String) : List Event :=
  (scanEvents (dropMark (dropMark text.toList))).events

/-- Every text that is read is something. -/
theorem ne_empty_of_mem_sourceOutline {text content : String} {source : SourceElement}
    (h : source ∈ sourceOutline 0 (eventsOf text))
    (hcontent : .leaf (.text content) ∈ source.nodes) : content ≠ "" := by
  obtain ⟨event, he, hstarts⟩ := exists_event_of_mem_sourceOutline h hcontent
  have hsound : event.Sound := sound_of_mem_scanFrom he
  cases event with
  | text found =>
    obtain rfl : found = content := by simpa [Event.node?] using hstarts
    exact hsound
  | _ => simp [Event.node?] at hstarts

namespace DocumentContent

variable {d : DocumentContent}

/-- **The text of the elements of a document that is read.** Each has the text and the character
data that are written directly inside it, unless that is indentation, of which the character data
remains. So text is lost exactly if there is some and it is indentation. -/
theorem text_of_parse {text : String} (h : DocumentContent.parse text = .ok d) :
    List.Forall₂
      (fun source (found : Nat × Element) => found.1 = source.depth ∧ found.2.tag = source.tag ∧
        (¬ source.Indented → found.2.text = source.writtenText) ∧
        (source.Indented → found.2.text = source.characterData) ∧
        (found.2.text = source.writtenText ↔ ¬ (source.Indented ∧ source.HasText)))
      (sourceOutline 0 (eventsOf text)) d.tree.outline := by
  obtain ⟨built, tag, inside, hrun, -, hclosed, hroot, rfl⟩ := ofEvents_eq_ok.mp h
  -- both lists are images of the outline that was built
  have hsource : sourceOutline 0 (eventsOf text) =
      ((0, ⟨rootId, tag, inside⟩) :: inside.outline 1).map SourceElement.of :=
    Builder.sourceOutline_of_run hrun hclosed hroot
  have hfound : Tree.outline ⟨tag, inside.settle inside.isIndented, built.next⟩ =
      ((0, ⟨rootId, tag, inside⟩) :: inside.outline 1).map fun entry =>
        (entry.1, { entry.2 with
          content := entry.2.content.settle entry.2.content.isIndented }) := by
    rw [Tree.outline, Forest.outline_settle]
    rfl
  rw [hsource, hfound, List.forall₂_map_left_iff, List.forall₂_map_right_iff, List.forall₂_same]
  intro entry hentry
  have hne : ∀ content, .leaf (.text content) ∈ entry.2.content.nodes → content ≠ "" := by
    intro content hcontent
    have hmem : SourceElement.of entry ∈ sourceOutline 0 (eventsOf text) := by
      rw [hsource]
      exact List.mem_map_of_mem hentry
    exact ne_empty_of_mem_sourceOutline hmem hcontent
  have hwritten : entry.2.content.text = (SourceElement.of entry).writtenText :=
    Forest.text_eq_join_nodes entry.2.content
  have hdata : entry.2.content.characterData = (SourceElement.of entry).characterData :=
    Forest.characterData_eq_join_nodes entry.2.content
  have hless : entry.2.content.characterData = entry.2.content.text ↔
      ¬ (SourceElement.of entry).HasText :=
    Forest.characterData_eq_text_iff hne
  refine ⟨rfl, rfl, ?_⟩
  show (_ → (entry.2.content.settle entry.2.content.isIndented).text = _) ∧
    (_ → (entry.2.content.settle entry.2.content.isIndented).text = _) ∧
    ((entry.2.content.settle entry.2.content.isIndented).text = _ ↔ _)
  rw [Forest.text_settle, ← hwritten, ← hdata, ← Forest.isIndented_iff]
  cases entry.2.content.isIndented with
  | false => simp
  | true => simp [hless]

/-- Words in character data, with a comment behind them: the blanks around them are lost. -/
theorem text_of_parse_beside_characterData :
    let text :=
      "<Project><PropertyGroup><Name> <![CDATA[x]]> <!-- c --></Name></PropertyGroup></Project>"
    ∃ (d : DocumentContent) (source : SourceElement) (found : Nat × Element),
      DocumentContent.parse text = .ok d ∧ source ∈ sourceOutline 0 (eventsOf text) ∧
      found ∈ d.tree.outline ∧ found.2.tag = source.tag ∧ source.writtenText = " x " ∧
      found.2.text = "x" := by
  let name : Element := ⟨2, ⟨"Name", []⟩, .leaf 4 (.cdata "x") (.leaf 6 (.comment " c ") .nil)⟩
  let group : Element := ⟨1, ⟨"PropertyGroup", []⟩, .ofElement name⟩
  let d : DocumentContent := ⟨⟨⟨"Project", []⟩, .ofElement group, 7⟩, none, []⟩
  let written : SourceElement := ⟨2, ⟨"Name", []⟩, [.leaf (.text " "), .leaf (.cdata "x"),
    .leaf (.text " "), .leaf (.comment " c ")]⟩
  intro text
  have hparse : DocumentContent.parse text = .ok d := by decide +kernel
  have hsource : sourceOutline 0 (eventsOf text) =
      [⟨0, ⟨"Project", []⟩, [.element ⟨"PropertyGroup", []⟩]⟩,
        ⟨1, ⟨"PropertyGroup", []⟩, [.element ⟨"Name", []⟩]⟩, written] := by decide +kernel
  have houtline : d.tree.outline = [(0, d.tree.root), (1, group), (2, name)] := rfl
  have hfound := text_of_parse hparse
  rw [hsource, houtline, List.forall₂_cons, List.forall₂_cons, List.forall₂_cons] at hfound
  obtain ⟨-, -, ⟨-, htag, -, htext, -⟩, -⟩ := hfound
  refine ⟨d, written, (2, name), hparse, ?_, ?_, htag, by decide, htext (by decide)⟩
  · rw [hsource]
    simp
  · rw [houtline]
    simp

end DocumentContent

end BuildProject
