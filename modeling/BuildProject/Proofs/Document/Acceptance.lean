import BuildProject.Proofs.Document.Depth
import BuildProject.Proofs.Document.Texts

/-!
# Which texts are documents

A builder refuses an event only if it opens an outermost element: there may be no other before it,
and it has to be a project. So whether events can be taken in is seen from their outermost elements
alone (`refusal?`, `Builder.run_of_refusal?`). They make up a document if there is one such element,
a project, and it is closed; the document then has the elements and nodes of the text
(`DocumentContent.ofEvents_outcome`).
-/

namespace BuildProject

open Markup Text

/-! ## Outermost elements -/

namespace Markup.Event

/-- The element that an event opens. -/
def opened? : Event → Option Tag
  | .startTag tag => some tag
  | .emptyTag tag => some tag
  | _ => none

/-- The element that an event opens outside all others, where `depth` are open before it. -/
def outermost? (depth : Nat) (event : Event) : Option Tag :=
  if depth = 0 then event.opened? else none

end Markup.Event

/-- The elements of a text that stand in no other, where `depth` are open before it. -/
def outermost (depth : Nat) (events : List Event) : List Tag :=
  ((sourceOutline depth events).filter (·.depth == 0)).map (·.tag)

theorem outermost_cons (depth : Nat) (event : Event) (events : List Event) :
    outermost depth (event :: events) =
      (event.outermost? depth).toList ++ outermost (event.depthBehind depth) events := by
  cases depth with
  | zero => cases event <;> rfl
  | succ depth =>
    cases event with
    | startTag tag | emptyTag tag =>
      simp [outermost, sourceOutline, Event.outermost?, Event.depthBehind]
    | _ => rfl

/-- Why elements cannot be the outermost ones of a document; `begun` says whether another one comes
before them. -/
def refusal? (begun : Bool) : List Tag → Option DocumentError
  | [] => none
  | tag :: tags =>
    if begun then some (.secondRoot tag.name)
    else if tag.name ≠ projectElement then some (.invalidRoot tag.name)
    else refusal? true tags

theorem refusal?_toList_append (begun : Bool) (tag? : Option Tag) (tags : List Tag) :
    refusal? begun (tag?.toList ++ tags) =
      (refusal? begun tag?.toList).or (refusal? (begun || tag?.isSome) tags) := by
  cases tag? with
  | none => simp [refusal?]
  | some tag =>
    cases begun with
    | true => rfl
    | false => by_cases hname : tag.name = projectElement <;> simp [refusal?, hname]

namespace Builder

variable {b b' : Builder} {event : Event} {events : List Event} {fault : DocumentError}

/-- Whether an element has been opened. -/
def begun (b : Builder) : Bool :=
  b.stack.length != 0 || b.root?.isSome

/-! ## One event -/

/-- An outermost element may be refused, and every other one is opened. -/
theorem openElement_eq (b : Builder) (tag : Tag) :
    b.openElement tag =
      match refusal? b.begun (if b.stack.length = 0 then some tag else none).toList with
      | some fault => .error fault
      | none => .ok (b.opened tag) := by
  obtain ⟨stack, root?, next, declaration?, prolog⟩ := b
  cases stack with
  | cons top below => rfl
  | nil =>
    cases root? with
    | some root => rfl
    | none =>
      by_cases hname : tag.name = projectElement <;>
        simp [openElement, opened, begun, refusal?, hname]

/-- An event that opens an outermost element is refused for the element. -/
theorem step_of_refusal?
    (h : refusal? b.begun (event.outermost? b.stack.length).toList = some fault) :
    b.step event = .error fault := by
  have hopen {tag : Tag} (hopened : event.opened? = some tag) :
      b.openElement tag = .error fault := by
    rw [Event.outermost?, hopened] at h
    rw [openElement_eq, h]
  cases event with
  | startTag tag => exact hopen rfl
  | emptyTag tag =>
    rw [step, hopen rfl]
    rfl
  | declaration _ | instruction _ | doctype _ | comment _ | cdata _ | text _ | endTag _ =>
    simp [Event.outermost?, Event.opened?, refusal?] at h

/-- All other events can be taken in. -/
theorem exists_step (h : refusal? b.begun (event.outermost? b.stack.length).toList = none) :
    ∃ b', b.step event = .ok b' := by
  have hopen {tag : Tag} (hopened : event.opened? = some tag) :
      b.openElement tag = .ok (b.opened tag) := by
    rw [Event.outermost?, hopened] at h
    rw [openElement_eq, h]
  cases event with
  | startTag tag => exact ⟨_, hopen rfl⟩
  | emptyTag tag => exact ⟨_, map_eq_ok.mpr ⟨_, hopen rfl, rfl⟩⟩
  | comment content =>
    rw [step]
    split <;> exact ⟨_, rfl⟩
  | declaration _ | instruction _ | doctype _ | cdata _ | text _ | endTag _ => exact ⟨_, rfl⟩

/-- The first outermost element is the first that is opened. -/
theorem begun_step (h : b.step event = .ok b') :
    b'.begun = (b.begun || (event.outermost? b.stack.length).isSome) := by
  rw [begun, begun, length_stack_step h, isSome_root?_step h]
  generalize b.stack.length = depth
  cases depth with
  | zero =>
    cases event <;> simp [Event.depthBehind, Event.endsRoot, Event.outermost?, Event.opened?]
  | succ depth =>
    -- the last end tag leaves nothing open, but a root
    cases event with
    | endTag name => cases depth <;> simp [Event.depthBehind, Event.endsRoot, Event.outermost?]
    | _ => simp [Event.depthBehind, Event.endsRoot, Event.outermost?]

/-! ## Any number of events -/

/-- **Events are refused for their outermost elements.** -/
theorem run_of_refusal? (h : refusal? b.begun (outermost b.stack.length events) = some fault) :
    b.run events = .error fault := by
  -- what has been opened before, and how deep, is all that the next event depends on
  induction events generalizing b with
  | nil => exact absurd h (by simp [outermost, sourceOutline, refusal?])
  | cons event events ih =>
    rw [outermost_cons, refusal?_toList_append] at h
    cases hhere : refusal? b.begun (event.outermost? b.stack.length).toList with
    | some here =>
      rw [hhere, Option.some_or, Option.some.injEq] at h
      rw [run, step_of_refusal? hhere, h]
      rfl
    | none =>
      obtain ⟨b₁, hstep⟩ := exists_step hhere
      rw [hhere, Option.none_or, ← begun_step hstep, ← length_stack_step hstep] at h
      rw [run_cons_of_step hstep]
      exact ih h

/-- **Events whose outermost elements are allowed can all be taken in.** -/
theorem exists_run (h : refusal? b.begun (outermost b.stack.length events) = none) :
    ∃ b', b.run events = .ok b' := by
  induction events generalizing b with
  | nil => exact ⟨b, rfl⟩
  | cons event events ih =>
    rw [outermost_cons, refusal?_toList_append, Option.or_eq_none_iff] at h
    obtain ⟨b₁, hstep⟩ := exists_step h.1
    rw [← begun_step hstep, ← length_stack_step hstep] at h
    rw [run_cons_of_step hstep]
    exact ih h.2

theorem length_stack_run (h : b.run events = .ok b') :
    b'.stack.length = depthBehind b.stack.length events := by
  induction events generalizing b with
  | nil =>
    rw [run, Except.ok.injEq] at h
    rw [← h]
    rfl
  | cons event events ih =>
    obtain ⟨b₁, hstep, hrun⟩ := bind_eq_ok.mp h
    rw [ih hrun, length_stack_step hstep]
    rfl

theorem begun_run (h : b.run events = .ok b') :
    b'.begun = (b.begun || !(outermost b.stack.length events).isEmpty) := by
  induction events generalizing b with
  | nil =>
    rw [run, Except.ok.injEq] at h
    rw [← h]
    exact (Bool.or_false _).symm
  | cons event events ih =>
    obtain ⟨b₁, hstep, hrun⟩ := bind_eq_ok.mp h
    rw [ih hrun, begun_step hstep, length_stack_step hstep, outermost_cons, Bool.or_assoc]
    cases event.outermost? b.stack.length <;> rfl

end Builder

/-! ## Nodes that are retained -/

/-- Whether a node is text of nothing but blanks. -/
def Node.isBlank : Node → Bool
  | leaf (.text content) => isAllBlank content
  | _ => false

/-- An element as it is retained: without its blank texts if they are indentation. -/
def SourceElement.settled (source : SourceElement) : SourceElement :=
  { source with
    nodes := if source.Indented then source.nodes.filter (!·.isBlank) else source.nodes }

namespace Forest

theorem nodes_settle (indented : Bool) (f : Forest) :
    (f.settle indented).nodes =
      if indented then f.nodes.filter (!·.isBlank) else f.nodes := by
  induction f with
  | nil => cases indented <;> rfl
  | element id tag content rest _ ih =>
    rw [settle, nodes, ih]
    cases indented <;> rfl
  | leaf id l rest ih =>
    cases l with
    | text content =>
      rw [settle]
      cases indented with
      | false => exact congrArg (_ :: ·) ih
      | true =>
        cases hblank : isAllBlank content <;> simp [nodes, ih, Node.isBlank, hblank]
    | comment content | cdata content =>
      show _ :: (rest.settle indented).nodes = _
      rw [ih]
      cases indented <;> rfl

end Forest

/-- Settling a tree settles each of its elements. -/
theorem SourceElement.of_settle (entry : Nat × Element) :
    SourceElement.of (entry.1, { entry.2 with
      content := entry.2.content.settle entry.2.content.isIndented }) =
        (SourceElement.of entry).settled := by
  show SourceElement.mk _ _ (entry.2.content.settle entry.2.content.isIndented).nodes = _
  rw [Forest.nodes_settle, settled]
  congr 1
  exact if_congr (Forest.isIndented_iff entry) rfl rfl

/-! ## Whole documents -/

namespace DocumentContent

variable {events : List Event}

/-- Outermost elements that are not allowed make no document. -/
theorem ofEvents_of_refusal? {fault : DocumentError}
    (h : refusal? false (outermost 0 events) = some fault) :
    DocumentContent.ofEvents ⟨events, none⟩ = .error fault := by
  unfold ofEvents
  rw [Builder.run_of_refusal? (b := .start) h]
  rfl

/-- Otherwise it depends on whether there is one and whether it is closed. -/
theorem ofEvents_of_allowed (h : refusal? false (outermost 0 events) = none) :
    (outermost 0 events = [] → DocumentContent.ofEvents ⟨events, none⟩ = .error .missingRoot) ∧
    (depthBehind 0 events ≠ 0 →
      DocumentContent.ofEvents ⟨events, none⟩ = .error .unclosedElement) ∧
    (outermost 0 events ≠ [] → depthBehind 0 events = 0 →
      ∃ d, DocumentContent.ofEvents ⟨events, none⟩ = .ok d) := by
  obtain ⟨built, hrun⟩ := Builder.exists_run (b := .start) h
  have hdepth : built.stack.length = depthBehind 0 events := Builder.length_stack_run hrun
  have hbegun : built.begun = !(outermost 0 events).isEmpty := Builder.begun_run hrun
  obtain ⟨stack, root?, next, declaration?, prolog⟩ := built
  simp only [Builder.begun] at hdepth hbegun
  refine ⟨fun hnone => ?_, fun hopen => ?_, fun hsome hclosed => ?_⟩
  · have hnothing : stack = [] ∧ root? = none := by simpa [hnone] using hbegun
    unfold ofEvents
    rw [hrun, hnothing.1, hnothing.2]
    rfl
  · cases stack with
    | nil => exact absurd hdepth.symm hopen
    | cons top below =>
      unfold ofEvents
      rw [hrun]
      rfl
  · have hstack : stack = [] := List.length_eq_zero_iff.mp (hdepth.trans hclosed)
    have hroot : root?.isSome = true := by
      rw [hstack, List.isEmpty_eq_false_iff.mpr hsome] at hbegun
      exact hbegun
    obtain ⟨⟨tag, content⟩, rfl⟩ := Option.isSome_iff_exists.mp hroot
    exact ⟨_, ofEvents_eq_ok.mpr ⟨_, tag, content, hrun, rfl, hstack, rfl, rfl⟩⟩

/-- A document has the elements of its text, each with the nodes directly inside it that are
retained. -/
theorem outline_of_ofEvents {d : DocumentContent}
    (h : DocumentContent.ofEvents ⟨events, none⟩ = .ok d) :
    d.tree.outline.map SourceElement.of = (sourceOutline 0 events).map SourceElement.settled := by
  obtain ⟨built, tag, inside, hrun, -, hclosed, hroot, rfl⟩ := ofEvents_eq_ok.mp h
  have hsource := Builder.sourceOutline_of_run hrun hclosed hroot
  rw [hsource, Tree.outline, Forest.outline_settle, List.map_cons, List.map_cons, List.map_map,
    List.map_cons, List.map_map]
  congr 1
  · exact SourceElement.of_settle (0, ⟨rootId, tag, inside⟩)
  · exact List.map_congr_left fun entry _ => SourceElement.of_settle entry

/-- **Which events make up a document, and which one.** Without a fault in the text, they do exactly
if one outermost element is opened, it is a project, and every element that is opened is closed. The
document then has the elements of the text, in the order and at the depth of their tags, and each
holds the elements, comments, character data and retained texts that stand directly inside it, in
their order. Otherwise there is no element, or the first is no project, or a second outermost one
is opened, or one is left open, and the error says which. -/
theorem ofEvents_outcome (events : List Event) :
    let outcome := DocumentContent.ofEvents ⟨events, none⟩
    ((∃ d, outcome = .ok d) ↔
      (∃ root, outermost 0 events = [root] ∧ root.name = projectElement) ∧
        depthBehind 0 events = 0) ∧
    (∀ d, outcome = .ok d →
      d.tree.outline.map SourceElement.of = (sourceOutline 0 events).map SourceElement.settled) ∧
    (outcome = .error .missingRoot ↔ outermost 0 events = []) ∧
    (∀ name, outcome = .error (.invalidRoot name) ↔
      ∃ first others, outermost 0 events = first :: others ∧ first.name = name ∧
        name ≠ projectElement) ∧
    (∀ name, outcome = .error (.secondRoot name) ↔
      ∃ first second others, outermost 0 events = first :: second :: others ∧
        first.name = projectElement ∧ second.name = name) ∧
    (outcome = .error .unclosedElement ↔
      (∃ root, outermost 0 events = [root] ∧ root.name = projectElement) ∧
        depthBehind 0 events ≠ 0) := by
  intro outcome
  have houtline (d : DocumentContent) (hd : outcome = .ok d) := outline_of_ofEvents hd
  have hrefused {fault} (h : refusal? false (outermost 0 events) = some fault) :
      outcome = .error fault := ofEvents_of_refusal? h
  have hallowed (h : refusal? false (outermost 0 events) = none) := ofEvents_of_allowed h
  cases houtermost : outermost 0 events with
  | nil =>
    rw [houtermost] at hallowed
    have hmissing : outcome = .error .missingRoot := (hallowed rfl).1 rfl
    simp [hmissing]
  | cons first others =>
    rw [houtermost] at hrefused hallowed
    by_cases hname : first.name = projectElement
    · cases others with
      | cons second others =>
        have hsecond : outcome = .error (.secondRoot second.name) :=
          hrefused (by simp [refusal?, hname])
        simp [hsecond, hname]
      | nil =>
        obtain ⟨-, hunclosed, hread⟩ := hallowed (by simp [refusal?, hname])
        by_cases hdepth : depthBehind 0 events = 0
        · obtain ⟨d, hd⟩ := hread (List.cons_ne_nil _ _) hdepth
          have hd : outcome = .ok d := hd
          simp [hd, hname, hdepth, houtline d hd]
        · have hunclosed : outcome = .error .unclosedElement := hunclosed hdepth
          simp [hunclosed, hname, hdepth]
    · have hinvalid : outcome = .error (.invalidRoot first.name) :=
        hrefused (by simp [refusal?, hname])
      simp [hinvalid, hname]

end DocumentContent

end BuildProject
