import BuildProject.Proofs.Document.Depth
import BuildProject.Proofs.Document.Roundtrip
import BuildProject.Proofs.Document.Texts

/-!
# Comments that are kept

Comments take two ways through a document: those before the root are a list of their own, those
inside the root are nodes. A builder that has not closed the root keeps every comment that it takes
in, behind those that it has (`Builder.comments_step`); once the root is closed it keeps none. So a
document is written with the comments of its text up to the end of the root, in their order
(`DocumentContent.comments_of_parse`), and a comment behind the root is lost.
-/

namespace BuildProject

open Markup

/-! ## Comments of a text -/

namespace Markup

/-- The content of a comment. -/
def Event.comment? : Event → Option String
  | .comment content => some content
  | _ => none

theorem Event.comment?_of_isIgnored {event : Event} (h : event.isIgnored = true) :
    event.comment? = none := by
  cases event <;> first | exact absurd h Bool.false_ne_true | rfl

/-- The comments among events, in their order. -/
def comments (events : List Event) : List String :=
  events.filterMap Event.comment?

/-- The events up to the end of the outermost element; `depth` elements are open before them. -/
def throughRoot (depth : Nat) : List Event → List Event
  | [] => []
  | event :: events =>
    event ::
      if event.endsRoot depth then [] else throughRoot (event.depthBehind depth) events

/-- The events behind the end of the outermost element. -/
def behindRoot (depth : Nat) : List Event → List Event
  | [] => []
  | event :: events =>
    if event.endsRoot depth then events else behindRoot (event.depthBehind depth) events

theorem throughRoot_append_behindRoot (depth : Nat) (events : List Event) :
    throughRoot depth events ++ behindRoot depth events = events := by
  induction events generalizing depth with
  | nil => rfl
  | cons event events ih =>
    rw [throughRoot, behindRoot, List.cons_append]
    split
    · rfl
    · rw [ih]

theorem comments_append (events others : List Event) :
    comments (events ++ others) = comments events ++ comments others :=
  List.filterMap_append

theorem comments_cons (event : Event) (events : List Event) :
    comments (event :: events) = event.comment?.toList ++ comments events := by
  cases event <;> rfl

/-- All comments stand before the end of the root exactly if none stands behind it. -/
theorem comments_throughRoot_eq_iff (events : List Event) :
    comments (throughRoot 0 events) = comments events ↔ comments (behindRoot 0 events) = [] := by
  conv_lhs => rw [← throughRoot_append_behindRoot 0 events, comments_append]
  rw [throughRoot_append_behindRoot]
  exact List.self_eq_append_right

end Markup

/-! ## Comments of a document -/

namespace Forest

/-- The comments at any depth, in document order. -/
def comments : Forest → List String
  | nil => []
  | element _ _ content rest => content.comments ++ rest.comments
  | leaf _ (.comment content) rest => content :: rest.comments
  | leaf _ _ rest => rest.comments

theorem comments_append (f g : Forest) : (f ++ g).comments = f.comments ++ g.comments := by
  induction f with
  | nil => rfl
  | element id tag content rest _ ih =>
    rw [element_append, comments, ih, comments, List.append_assoc]
  | leaf id l rest ih =>
    cases l with
    | text content => exact ih
    | comment content => exact congrArg (content :: ·) ih
    | cdata content => exact ih

/-- Only texts are dropped as indentation. -/
theorem comments_settle (indented : Bool) (f : Forest) :
    (f.settle indented).comments = f.comments := by
  induction f generalizing indented with
  | nil => rfl
  | element id tag content rest ihContent ihRest =>
    rw [settle, comments, ihContent, ihRest, comments]
  | leaf id l rest ih =>
    cases l with
    | text content =>
      rw [settle]
      split
      · exact ih indented
      · exact ih indented
    | comment content => exact congrArg (content :: ·) (ih indented)
    | cdata content => exact ih indented

theorem comments_startLine (breaks : Bool) (depth : Nat) (f : Forest) :
    (startLine breaks depth f).comments = f.comments := by
  cases breaks <;> rfl

theorem comments_consText (id : NodeId) (content : String) (f : Forest) :
    (consText id content f).comments = f.comments := by
  unfold consText
  split <;> rfl

/-- Only texts are added as line breaks. -/
theorem comments_lay (f : Forest) (depth : Nat) (breaks : Bool) :
    (f.lay depth breaks).comments = f.comments := by
  induction f generalizing depth breaks with
  | nil => rw [lay, comments_startLine]
  | element id tag content rest ihContent ihRest =>
    rw [lay, comments_startLine, comments, ihRest, comments]
    by_cases hnil : content = nil
    · subst hnil
      rfl
    · rw [isEmpty_eq_false hnil, if_neg Bool.false_ne_true, ihContent]
  | leaf id l rest ih =>
    cases l with
    | text content =>
      rw [lay, comments_consText, ih]
      rfl
    | comment content => rw [lay, comments_startLine, comments, ih, comments]
    | cdata content => exact ih depth false

theorem comments_layInside (f : Forest) (depth : Nat) :
    (f.layInside depth).comments = f.comments := by
  by_cases hnil : f = nil
  · subst hnil
    rfl
  · rw [layInside_of_ne_nil hnil, comments_lay]

/-- The events of a forest have its comments. -/
theorem comments_events (f : Forest) : Markup.comments f.events = f.comments := by
  induction f with
  | nil => rfl
  | element id tag content rest ihContent ihRest =>
    by_cases hnil : content = nil
    · subst hnil
      exact ihRest
    · rw [events_element hnil, Markup.comments_cons, Markup.comments_append, ihContent,
        Markup.comments_cons, ihRest]
      rfl
  | leaf id l rest ih =>
    rw [events, Markup.comments_cons, ih]
    cases l <;> rfl

end Forest

/-! ## Comments that are taken in -/

namespace Builder

/-- The comments that have been taken in and kept, in their order. -/
def comments (b : Builder) : List String :=
  b.prolog ++ (b.stack.reverse.flatMap (·.content.comments) ++
    b.root?.elim [] fun root => root.2.comments)

theorem comments_addLeaf {b : Builder} (hroot : b.root? = none) {l : Leaf}
    (hl : b.stack = [] → b.root? = none → ∀ content, l ≠ .comment content) :
    (b.addLeaf l).comments = b.comments ++ l.event.comment?.toList := by
  obtain ⟨stack, root?, next, declaration?, prolog⟩ := b
  obtain rfl : root? = none := hroot
  cases stack with
  | nil =>
    cases l with
    | comment content => exact absurd rfl (hl rfl rfl content)
    | text content => exact (List.append_nil _).symm
    | cdata content => exact (List.append_nil _).symm
  | cons top below =>
    have hleaf : (Forest.ofLeaf next l).comments = l.event.comment?.toList := by
      cases l <;> rfl
    simp [comments, addLeaf, Forest.comments_append, hleaf]

theorem comments_closeElement {b : Builder} (hroot : b.root? = none) :
    b.closeElement.comments = b.comments := by
  obtain ⟨stack, root?, next, declaration?, prolog⟩ := b
  obtain rfl : root? = none := hroot
  cases stack with
  | nil => rfl
  | cons top below =>
    cases below with
    | nil => simp [comments, closeElement, addElement]
    | cons around below =>
      simp [comments, closeElement, addElement, Forest.push, Forest.comments_append,
        Forest.ofElement, Forest.comments]

theorem opened_comments (b : Builder) (tag : Tag) : (b.opened tag).comments = b.comments := by
  simp [comments, opened, Forest.comments]

variable {b b' : Builder}

/-- **A comment that is taken in before the root is closed** stands behind the others. -/
theorem comments_step (hroot : b.root? = none) {event : Event} (h : b.step event = .ok b') :
    b'.comments = b.comments ++ event.comment?.toList := by
  have hsame : b.comments = b.comments ++ [] := (List.append_nil _).symm
  rcases step_cases h with ⟨hignored, declaration?, rfl⟩ | ⟨content, rfl, hstack, -, rfl⟩ |
    ⟨l, rfl, hcomment, rfl⟩ | ⟨tag, rfl, rfl⟩ | ⟨tag, rfl, rfl⟩ | ⟨name, rfl, rfl⟩
  · rw [Event.comment?_of_isIgnored hignored]
    exact hsame
  · simp [comments, hstack, hroot, Event.comment?]
  · exact comments_addLeaf hroot hcomment
  · exact (opened_comments b tag).trans hsame
  · have hclosed : (b.opened tag).closeElement.comments = (b.opened tag).comments :=
      comments_closeElement hroot
    exact hclosed.trans ((opened_comments b tag).trans hsame)
  · rw [comments_closeElement hroot]
    exact hsame

/-- Behind the root nothing is kept. -/
theorem comments_run_closed {events : List Event} (hstack : b.stack = [])
    (hroot : b.root?.isSome = true) (h : b.run events = .ok b') : b'.comments = b.comments := by
  obtain ⟨stack, root?, next, declaration?, prolog⟩ := b
  obtain rfl : stack = [] := hstack
  obtain ⟨root, rfl⟩ := Option.isSome_iff_exists.mp hroot
  obtain ⟨⟨declared, rfl⟩, -⟩ := exists_eq_of_run_closed h
  rfl

/-- **The comments up to the end of the root** are those that are taken in and kept. -/
theorem comments_run {events : List Event} (hroot : b.root? = none) (h : b.run events = .ok b') :
    b'.comments = b.comments ++ Markup.comments (throughRoot b.stack.length events) := by
  induction events generalizing b with
  | nil =>
    rw [run, Except.ok.injEq] at h
    rw [← h]
    exact (List.append_nil _).symm
  | cons event events ih =>
    obtain ⟨b₁, hstep, hrun⟩ := bind_eq_ok.mp h
    have hends := isSome_root?_step hstep
    have hdepth := length_stack_step hstep
    rw [hroot, Option.isSome_none, Bool.false_or] at hends
    rw [throughRoot, Markup.comments_cons, ← List.append_assoc, ← comments_step hroot hstep]
    cases hend : event.endsRoot b.stack.length with
    | true =>
      rw [hend] at hends
      have hstack : b₁.stack = [] := by
        rw [← List.length_eq_zero_iff, hdepth, Event.depthBehind_of_endsRoot hend]
      rw [if_pos rfl, comments_run_closed hstack hends hrun]
      exact (List.append_nil _).symm
    | false =>
      rw [hend] at hends
      rw [if_neg Bool.false_ne_true, ← hdepth]
      exact ih (Option.isNone_iff_eq_none.mp (by simpa using hends)) hrun

end Builder

/-! ## Comments of documents that are read and written -/

namespace DocumentContent

/-- The comments of a document, in their order. -/
def comments (d : DocumentContent) : List String :=
  d.prolog ++ d.tree.content.comments

/-- The comments before the root are written on lines of their own. -/
theorem comments_front (d : DocumentContent) :
    Markup.comments (d.front.flatMap fun event => [event, lineEnd]) = d.prolog := by
  have hlines (prolog : List String) : Markup.comments
      ((prolog.map Event.comment).flatMap fun event => [event, lineEnd]) = prolog := by
    induction prolog with
    | nil => rfl
    | cons content prolog ih => exact congrArg (content :: ·) ih
  rw [front, List.flatMap_append, Markup.comments_append, hlines]
  cases d.declaration? <;> rfl

/-- A document is written with its comments. -/
theorem comments_events (d : DocumentContent) : Markup.comments d.events = d.comments := by
  have hlaid : Markup.comments d.laid.events = d.tree.content.comments := by
    rw [Forest.comments_events, laid, Forest.comments, Forest.comments_layInside]
    exact List.append_nil _
  have hline : Markup.comments [lineEnd] = [] := rfl
  rw [events, Markup.comments_append, Markup.comments_append, comments_front, hlaid, hline,
    List.append_nil, comments]

/-- A document that is read has the comments of its text up to the end of the root. -/
theorem comments_parse {text : String} {d : DocumentContent}
    (h : DocumentContent.parse text = .ok d) :
    d.comments = Markup.comments (throughRoot 0 (eventsOf text)) := by
  obtain ⟨built, tag, inside, hrun, -, hclosed, hroot, rfl⟩ := ofEvents_eq_ok.mp h
  have hkept : built.comments = Markup.comments (throughRoot 0 (eventsOf text)) :=
    Builder.comments_run rfl hrun
  rw [← hkept, Builder.comments, hclosed, hroot, comments, Forest.comments_settle]
  rfl

/-- **Comments are kept up to the end of the root.** A document that is read is written as a row of
events, and the comments among them are those that its text has before the end of the root, outside
of it and inside any element, in their order. So no comment is lost exactly if none stands behind
the root. What is written can be read, with these comments in it, if all names are plain and the
values of the declaration hold no quote. -/
theorem comments_of_parse {text : String} {d : DocumentContent}
    (h : DocumentContent.parse text = .ok d) :
    d.render.toList = d.events.flatMap Event.write ∧
    Markup.comments d.events = Markup.comments (throughRoot 0 (eventsOf text)) ∧
    (Markup.comments d.events = Markup.comments (eventsOf text) ↔
      Markup.comments (behindRoot 0 (eventsOf text)) = []) ∧
    (d.Plain → Markup.comments (eventsOf d.render) =
      Markup.comments (throughRoot 0 (eventsOf text))) := by
  have hwritten := (comments_events d).trans (comments_parse h)
  refine ⟨toList_render d, hwritten, ?_, fun hplain => ?_⟩
  · rw [hwritten]
    exact comments_throughRoot_eq_iff (eventsOf text)
  · rw [eventsOf, scanEvents_render (sound_of_parse h) hplain]
    exact hwritten

/-- A comment before the root, two inside it and one behind it: the last one is lost. -/
theorem comments_of_parse_everywhere :
    let text := "<!--a--><Project>x<A> <!--b--> </A><!--c--></Project><!--d-->"
    ∃ d : DocumentContent, DocumentContent.parse text = .ok d ∧ d.Plain ∧
      Markup.comments (eventsOf d.render) = ["a", "b", "c"] := by
  intro text
  let d : DocumentContent := ⟨⟨⟨"Project", []⟩, .leaf 1 (.text "x") (.element 2 ⟨"A", []⟩
    (.leaf 4 (.comment "b") .nil) (.leaf 6 (.comment "c") .nil)), 7⟩, none, ["a"]⟩
  have hparse : DocumentContent.parse text = .ok d := by decide +kernel
  have hplain : d.Plain := ⟨by decide, fun declaration h => nomatch h⟩
  obtain ⟨-, -, -, hread⟩ := comments_of_parse hparse
  exact ⟨d, hparse, hplain, (hread hplain).trans (by decide +kernel)⟩

/-- Not every comment is kept: one behind the root is not written, and behind a tag whose names hold
quotes one is written that is not read again. -/
theorem comments_lost :
    (let text := "<Project/><!--x-->"
      ∃ d : DocumentContent, DocumentContent.parse text = .ok d ∧
        Markup.comments (eventsOf text) = ["x"] ∧ d.render = "<Project/>\n" ∧
        Markup.comments (eventsOf d.render) = []) ∧
    (let text := "<Project><a b\"='\"' c'=''/><!--x--></Project>"
      ∃ d : DocumentContent, DocumentContent.parse text = .ok d ∧
        Markup.comments (eventsOf text) = ["x"] ∧ Markup.comments (eventsOf d.render) = []) := by
  let bare : DocumentContent := ⟨⟨⟨"Project", []⟩, .nil, 1⟩, none, []⟩
  let quoted : DocumentContent := ⟨⟨⟨"Project", []⟩, .element 1 ⟨"a", [⟨"b\"", "\""⟩, ⟨"c'", ""⟩]⟩
    .nil (.leaf 2 (.comment "x") .nil), 3⟩, none, []⟩
  refine ⟨⟨bare, ?_, ?_, ?_, ?_⟩, quoted, ?_, ?_, ?_⟩ <;> decide +kernel

end DocumentContent

end BuildProject
