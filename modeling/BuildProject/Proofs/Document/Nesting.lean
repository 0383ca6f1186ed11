import BuildProject.Proofs.Document.Events

/-!
# How a text nests

A text is a list of events, and which element a part of it stands in follows from the start and end
tags around it: `nodesInside` lists what stands directly inside an element whose start tag has been
passed, `sourceOutline` goes through all elements of the text.

The reader does not count tags, it has a stack. `Makes` relates the events between two matching
tags to the forest they make up. What the builder takes in from opening an element to closing it
makes up what that element holds (`Builder.exists_makes_of_open`), so a document that is read has
exactly the elements of its text, each with the nodes directly inside it
(`Builder.sourceOutline_of_run`).
-/

namespace BuildProject

open Markup

/-! ## What stands where -/

/-- A node directly inside an element, without what is below it. -/
inductive Node where
  | element (tag : Tag)
  | leaf (leaf : Leaf)
deriving DecidableEq, Repr

namespace Markup.Event

/-- The node that starts with an event. -/
def node? : Event → Option Node
  | .startTag tag => some (.element tag)
  | .emptyTag tag => some (.element tag)
  | .text content => some (.leaf (.text content))
  | .cdata content => some (.leaf (.cdata content))
  | .comment content => some (.leaf (.comment content))
  | _ => none

/-- Whether an event opens an element. -/
def opens : Event → Bool
  | .startTag _ => true
  | .emptyTag _ => true
  | _ => false

/-- Whether an event has no place in a tree. -/
def isIgnored : Event → Bool
  | .declaration _ => true
  | .instruction _ => true
  | .doctype _ => true
  | _ => false

/-- Inside an element, an event closes it, is ignored, adds a leaf or opens another element. -/
theorem sorts (event : Event) : (∃ name, event = .endTag name) ∨ event.isIgnored = true ∨
    (∃ l : Leaf, event = l.event) ∨ (∃ tag, event = .emptyTag tag) ∨
      ∃ tag, event = .startTag tag := by
  cases event with
  | endTag name => exact .inl ⟨name, rfl⟩
  | declaration _ | instruction _ | doctype _ => exact .inr (.inl rfl)
  | text content => exact .inr (.inr (.inl ⟨.text content, rfl⟩))
  | cdata content => exact .inr (.inr (.inl ⟨.cdata content, rfl⟩))
  | comment content => exact .inr (.inr (.inl ⟨.comment content, rfl⟩))
  | emptyTag tag => exact .inr (.inr (.inr (.inl ⟨tag, rfl⟩)))
  | startTag tag => exact .inr (.inr (.inr (.inr ⟨tag, rfl⟩)))

end Markup.Event

/-- The nodes directly inside an element, from the events behind its start tag; `depth` elements
inside it are open. -/
def nodesInside (depth : Nat) : List Event → List Node
  | [] => []
  | event :: events =>
    let here := if depth = 0 then event.node?.toList else []
    match event, depth with
    | .endTag _, 0 => []
    | .endTag _, depth + 1 => nodesInside depth events
    | .startTag _, _ => here ++ nodesInside (depth + 1) events
    | _, _ => here ++ nodesInside depth events

/-- An element as it is written: the number of elements around it, its tag, and the nodes directly
inside it. -/
structure SourceElement where
  depth : Nat
  tag : Tag
  nodes : List Node
deriving DecidableEq, Repr

/-- The elements that a text opens, in the order of their start, where `depth` elements are open
before. -/
def sourceOutline (depth : Nat) : List Event → List SourceElement
  | [] => []
  | .startTag tag :: events =>
    ⟨depth, tag, nodesInside 0 events⟩ :: sourceOutline (depth + 1) events
  | .emptyTag tag :: events => ⟨depth, tag, []⟩ :: sourceOutline depth events
  | .endTag _ :: events => sourceOutline (depth - 1) events
  | _ :: events => sourceOutline depth events

theorem nodesInside_cons_of_isIgnored {event : Event} (h : event.isIgnored = true) (depth : Nat)
    (events : List Event) : nodesInside depth (event :: events) = nodesInside depth events := by
  cases event <;> first | exact absurd h Bool.false_ne_true | (cases depth <;> rfl)

theorem sourceOutline_cons_of_isIgnored {event : Event} (h : event.isIgnored = true) (depth : Nat)
    (events : List Event) : sourceOutline depth (event :: events) = sourceOutline depth events := by
  cases event <;> first | exact absurd h Bool.false_ne_true | rfl

/-- Outside all elements, only what opens one counts. -/
theorem sourceOutline_cons_of_not_opens {event : Event} (h : event.opens = false)
    (events : List Event) : sourceOutline 0 (event :: events) = sourceOutline 0 events := by
  cases event <;> first | exact absurd h.symm Bool.false_ne_true | rfl

theorem sourceOutline_append_of_not_opens {events : List Event}
    (h : ∀ event ∈ events, event.opens = false) (others : List Event) :
    sourceOutline 0 (events ++ others) = sourceOutline 0 others := by
  induction events with
  | nil => rfl
  | cons event events ih =>
    rw [List.forall_mem_cons] at h
    rw [List.cons_append, sourceOutline_cons_of_not_opens h.1, ih h.2]

/-- A node inside an element starts with an event of the text. -/
theorem exists_event_of_mem_nodesInside {node : Node} {depth : Nat} {events : List Event}
    (h : node ∈ nodesInside depth events) : ∃ event ∈ events, event.node? = some node := by
  induction events generalizing depth with
  | nil => exact absurd h List.not_mem_nil
  | cons event events ih =>
    have hlater {depth' : Nat} (hmem : node ∈ nodesInside depth' events) :
        ∃ found ∈ event :: events, found.node? = some node := by
      obtain ⟨found, hfound, hstarts⟩ := ih hmem
      exact ⟨found, List.mem_cons_of_mem _ hfound, hstarts⟩
    have hhere {depth' : Nat} (hmem : node ∈ (if depth = 0 then event.node?.toList else []) ++
        nodesInside depth' events) : ∃ found ∈ event :: events, found.node? = some node := by
      rcases List.mem_append.mp hmem with hmem | hmem
      · split at hmem
        · exact ⟨event, List.mem_cons_self, Option.mem_toList.mp hmem⟩
        · exact absurd hmem List.not_mem_nil
      · exact hlater hmem
    cases event with
    | endTag name =>
      cases depth with
      | zero => exact absurd h List.not_mem_nil
      | succ depth => exact hlater h
    | startTag tag => exact hhere h
    | declaration _ | instruction _ | doctype _ | comment _ | cdata _ | text _ | emptyTag _ =>
      exact hhere h

theorem exists_event_of_mem_sourceOutline {source : SourceElement} {node : Node} {depth : Nat}
    {events : List Event} (h : source ∈ sourceOutline depth events) (hnode : node ∈ source.nodes) :
    ∃ event ∈ events, event.node? = some node := by
  induction events generalizing depth with
  | nil => exact absurd h List.not_mem_nil
  | cons event events ih =>
    have hlater (hfound : ∃ found ∈ events, found.node? = some node) :
        ∃ found ∈ event :: events, found.node? = some node := by
      obtain ⟨found, hfound, hstarts⟩ := hfound
      exact ⟨found, List.mem_cons_of_mem _ hfound, hstarts⟩
    cases event with
    | startTag tag =>
      rcases List.mem_cons.mp h with rfl | h
      · exact hlater (exists_event_of_mem_nodesInside hnode)
      · exact hlater (ih h)
    | emptyTag tag =>
      rcases List.mem_cons.mp h with rfl | h
      · exact absurd hnode List.not_mem_nil
      · exact hlater (ih h)
    | declaration _ | instruction _ | doctype _ | comment _ | cdata _ | text _ | endTag _ =>
      exact hlater (ih h)

namespace Forest

/-- The nodes at the top. -/
def nodes : Forest → List Node
  | nil => []
  | element _ tag _ rest => .element tag :: nodes rest
  | leaf _ l rest => .leaf l :: nodes rest

end Forest

/-- An element of a tree, with the number of elements around it, as it is written. -/
def SourceElement.of (entry : Nat × Element) : SourceElement :=
  ⟨entry.1, entry.2.tag, entry.2.content.nodes⟩

/-! ## Events that make up a forest -/

/-- The events between two matching tags make up a forest, identities aside. -/
inductive Makes : List Event → Forest → Prop
  | nil : Makes [] .nil
  | ignored {event : Event} (hignored : event.isIgnored = true) {events : List Event}
    {rest : Forest} (h : Makes events rest) : Makes (event :: events) rest
  | leaf (id : NodeId) (l : Leaf) {events : List Event} {rest : Forest} (h : Makes events rest) :
    Makes (l.event :: events) (.leaf id l rest)
  | empty (id : NodeId) (tag : Tag) {events : List Event} {rest : Forest} (h : Makes events rest) :
    Makes (.emptyTag tag :: events) (.element id tag .nil rest)
  | element (id : NodeId) (tag : Tag) (name : String) {inside events : List Event}
    {content rest : Forest} (hinside : Makes inside content) (h : Makes events rest) :
    Makes (.startTag tag :: (inside ++ .endTag name :: events)) (.element id tag content rest)

namespace Makes

variable {events : List Event} {f : Forest}

/-- Seen from an element further out nothing stands there, and what follows is as deep as before. -/
theorem nodesInside_succ_append (h : Makes events f) (depth : Nat) (others : List Event) :
    nodesInside (depth + 1) (events ++ others) = nodesInside (depth + 1) others := by
  induction h generalizing depth others with
  | nil => rfl
  | ignored hignored _ ih =>
    rw [List.cons_append, nodesInside_cons_of_isIgnored hignored, ih]
  | leaf id l _ ih => cases l <;> exact ih depth others
  | empty id tag _ ih => exact ih depth others
  | element id tag name _ _ ihInside ih =>
    rw [List.cons_append, List.append_assoc, List.cons_append]
    show nodesInside (depth + 2) _ = _
    rw [ihInside]
    exact ih depth others

/-- The nodes directly inside an element are those at the top of what its content makes up. -/
theorem nodesInside_zero_append (h : Makes events f) (others : List Event) :
    nodesInside 0 (events ++ others) = f.nodes ++ nodesInside 0 others := by
  induction h generalizing others with
  | nil => rfl
  | ignored hignored _ ih =>
    rw [List.cons_append, nodesInside_cons_of_isIgnored hignored, ih]
  | leaf id l _ ih => cases l <;> exact congrArg (_ :: ·) (ih others)
  | empty id tag _ ih => exact congrArg (_ :: ·) (ih others)
  | element id tag name hinside _ _ ih =>
    rw [List.cons_append, List.append_assoc, List.cons_append]
    show _ :: nodesInside 1 _ = _
    rw [hinside.nodesInside_succ_append]
    exact congrArg (_ :: ·) (ih others)

/-- **The elements of a text are those of the forest that it makes up.** -/
theorem sourceOutline_append (h : Makes events f) (depth : Nat) (others : List Event) :
    sourceOutline depth (events ++ others) =
      (f.outline depth).map SourceElement.of ++ sourceOutline depth others := by
  induction h generalizing depth others with
  | nil => rfl
  | ignored hignored _ ih =>
    rw [List.cons_append, sourceOutline_cons_of_isIgnored hignored, ih]
  | leaf id l _ ih => cases l <;> exact ih depth others
  | empty id tag _ ih => exact congrArg (_ :: ·) (ih depth others)
  | @element id tag name inside events content rest hinside _ ihInside ih =>
    have hnodes : nodesInside 0 (inside ++ .endTag name :: (events ++ others)) = content.nodes := by
      rw [hinside.nodesInside_zero_append]
      exact List.append_nil _
    rw [List.cons_append, List.append_assoc, List.cons_append, sourceOutline, hnodes, ihInside,
      sourceOutline, Nat.add_sub_cancel, ih, Forest.outline, List.map_cons, List.map_append,
      List.cons_append, List.append_assoc]
    rfl

end Makes

/-! ## What a builder has taken in -/

namespace Builder

variable {built : Builder} {root? : Option (Tag × Forest)} {next : NodeId}
  {declaration? : Option Declaration} {prolog : List String}

/-- An ignored event changes the declaration at most. -/
theorem step_of_isIgnored {event : Event} (h : event.isIgnored = true) (stack : List OpenElement)
    (root? : Option (Tag × Forest)) (next : NodeId) (declaration? : Option Declaration)
    (prolog : List String) : ∃ declaration?',
      step ⟨stack, root?, next, declaration?, prolog⟩ event =
        .ok ⟨stack, root?, next, declaration?', prolog⟩ := by
  cases event with
  | declaration d => exact ⟨some d, rfl⟩
  | instruction content => exact ⟨declaration?, rfl⟩
  | doctype content => exact ⟨declaration?, rfl⟩
  | comment _ | cdata _ | text _ | startTag _ | emptyTag _ | endTag _ =>
    exact absurd h Bool.false_ne_true

theorem run_of_run_cons {b b' : Builder} {event : Event} {events : List Event}
    (hstep : b.step event = .ok b') (h : b.run (event :: events) = .ok built) :
    b'.run events = .ok built := by
  rw [← run_cons_of_step hstep]
  exact h

/-- **What is taken in until the innermost open element is closed makes up what it is given.** -/
theorem exists_makes_of_open {events : List Event} {top : OpenElement} {below : List OpenElement}
    (h : run ⟨top :: below, root?, next, declaration?, prolog⟩ events = .ok built)
    (hclosed : built.stack = []) :
    ∃ inside name behind f next' declaration?', events = inside ++ .endTag name :: behind ∧
      Makes inside f ∧
      run ⟨{ top with content := top.content ++ f } :: below, root?, next', declaration?', prolog⟩
        (.endTag name :: behind) = .ok built := by
  -- a start tag is followed by two shorter parts: what is inside its element, and what follows it
  induction hlength : events.length using Nat.strong_induction_on
    generalizing events top below next declaration? with
  | _ length ih =>
    subst hlength
    cases events with
    | nil =>
      rw [run, Except.ok.injEq] at h
      rw [← h] at hclosed
      exact absurd hclosed (List.cons_ne_nil _ _)
    | cons event events =>
      have hshorter : events.length < (event :: events).length := Nat.lt_succ_self _
      rcases event.sorts with ⟨name, rfl⟩ | hignored | ⟨l, rfl⟩ | ⟨tag, rfl⟩ | ⟨tag, rfl⟩
      · refine ⟨[], name, events, .nil, next, declaration?, rfl, .nil, ?_⟩
        rw [Forest.append_nil]
        exact h
      · obtain ⟨declared, hstep⟩ :=
          step_of_isIgnored hignored (top :: below) root? next declaration? prolog
        obtain ⟨inside, name, behind, f, next', declaration?', rfl, hmakes, hrun⟩ :=
          ih _ hshorter (run_of_run_cons hstep h) rfl
        exact ⟨_, name, behind, f, next', declaration?', rfl, .ignored hignored hmakes, hrun⟩
      · obtain ⟨inside, name, behind, f, next', declaration?', rfl, hmakes, hrun⟩ :=
          ih _ hshorter (run_of_run_cons (step_leaf ..) h) rfl
        refine ⟨_, name, behind, _, next', declaration?', rfl, .leaf next l hmakes, ?_⟩
        rw [← hrun, Forest.append_assoc]
        rfl
      · obtain ⟨inside, name, behind, f, next', declaration?', rfl, hmakes, hrun⟩ :=
          ih _ hshorter (run_of_run_cons (step_emptyTag ..) h) rfl
        refine ⟨_, name, behind, _, next', declaration?', rfl, .empty next tag hmakes, ?_⟩
        rw [← hrun, Forest.push, Forest.append_assoc]
        rfl
      · obtain ⟨inside, name, others, content, next₁, declared, rfl, hinside, hrun⟩ :=
          ih _ hshorter (run_of_run_cons (step_startTag ..) h) rfl
        have hothers : others.length < (inside ++ .endTag name :: others).length + 1 := by
          rw [List.length_append, List.length_cons]
          omega
        obtain ⟨after, name', behind, f, next', declaration?', rfl, hmakes, hrun⟩ :=
          ih _ hothers (run_of_run_cons (step_endTag ..) hrun) rfl
        refine ⟨.startTag tag :: (inside ++ .endTag name :: after), name', behind, _, next',
          declaration?', by simp, .element next tag name hinside hmakes, ?_⟩
        rw [← hrun, Forest.push, Forest.append_assoc]
        rfl

/-- Outside all elements, an event that opens none changes neither the root nor identities. -/
theorem step_of_not_opens {event : Event} (h : event.opens = false)
    (root? : Option (Tag × Forest)) (next : NodeId) (declaration? : Option Declaration)
    (prolog : List String) : ∃ declaration?' prolog',
      step ⟨[], root?, next, declaration?, prolog⟩ event =
        .ok ⟨[], root?, next, declaration?', prolog'⟩ := by
  cases event with
  | declaration d => exact ⟨some d, prolog, rfl⟩
  | comment content =>
    cases root? with
    | none => exact ⟨declaration?, prolog ++ [content], rfl⟩
    | some root => exact ⟨declaration?, prolog, rfl⟩
  | instruction _ | doctype _ | cdata _ | text _ | endTag _ => exact ⟨declaration?, prolog, rfl⟩
  | startTag _ | emptyTag _ => exact absurd h.symm Bool.false_ne_true

/-- There is no second outermost element. -/
theorem step_second {b : Builder} {event : Event} {root : Tag × Forest} (h : event.opens = true)
    (declaration? : Option Declaration) (prolog : List String) :
    step ⟨[], some root, next, declaration?, prolog⟩ event ≠ .ok b := by
  cases event with
  | startTag tag => exact fun hstep => nomatch hstep
  | emptyTag tag => exact fun hstep => nomatch hstep
  | declaration _ | instruction _ | doctype _ | comment _ | cdata _ | text _ | endTag _ =>
    exact absurd h Bool.false_ne_true

/-- Behind the root an event that opens no element changes the declaration at most. -/
theorem step_closed {event : Event} (h : event.opens = false) (root : Tag × Forest)
    (next : NodeId) (declaration? : Option Declaration) (prolog : List String) :
    ∃ declaration?', step ⟨[], some root, next, declaration?, prolog⟩ event =
      .ok ⟨[], some root, next, declaration?', prolog⟩ := by
  cases event with
  | declaration d => exact ⟨some d, rfl⟩
  | instruction _ | doctype _ | comment _ | cdata _ | text _ | endTag _ =>
    exact ⟨declaration?, rfl⟩
  | startTag _ | emptyTag _ => exact absurd h.symm Bool.false_ne_true

/-- Behind the root nothing opens an element, and all but the declaration stays. -/
theorem exists_eq_of_run_closed {root : Tag × Forest} {events : List Event}
    (h : run ⟨[], some root, next, declaration?, prolog⟩ events = .ok built) :
    (∃ declaration?', built = ⟨[], some root, next, declaration?', prolog⟩) ∧
      ∀ event ∈ events, event.opens = false := by
  induction events generalizing declaration? with
  | nil =>
    exact ⟨⟨declaration?, (Except.ok.inj h).symm⟩, fun event he => absurd he List.not_mem_nil⟩
  | cons event events ih =>
    by_cases hopens : event.opens = true
    · obtain ⟨b, hstep, -⟩ := bind_eq_ok.mp h
      exact absurd hstep (step_second hopens declaration? prolog)
    · have hopens : event.opens = false := Bool.eq_false_iff.mpr hopens
      obtain ⟨declared, hstep⟩ := step_closed hopens root next declaration? prolog
      obtain ⟨hbuilt, hothers⟩ := ih (run_of_run_cons hstep h)
      exact ⟨hbuilt, List.forall_mem_cons.mpr ⟨hopens, hothers⟩⟩

/-- What is taken in from the first tag on makes up the root. -/
theorem exists_makes_of_opens {event : Event} {events : List Event} {tag : Tag} {content : Forest}
    (h : run ⟨[], none, next, declaration?, prolog⟩ (event :: events) = .ok built)
    (hopens : event.opens = true) (hclosed : built.stack = [])
    (hroot : built.root? = some (tag, content)) :
    ∃ body behind, event :: events = body ++ behind ∧
      Makes body (.element rootId tag content .nil) ∧ ∀ other ∈ behind, other.opens = false := by
  obtain ⟨opened, hopen, hrun⟩ := bind_eq_ok.mp h
  cases event with
  | emptyTag outermost =>
    obtain ⟨b, hb, rfl⟩ := map_eq_ok.mp hopen
    obtain ⟨-, rfl⟩ := openElement_eq_ok.mp hb
    have hrun : run ⟨[], some (outermost, .nil), next + 1, declaration?, prolog⟩ events =
        .ok built := hrun
    obtain ⟨⟨declared, rfl⟩, hbehind⟩ := exists_eq_of_run_closed hrun
    obtain ⟨rfl, rfl⟩ := Prod.mk.inj (Option.some.inj hroot)
    exact ⟨[_], events, rfl, .empty rootId _ .nil, hbehind⟩
  | startTag outermost =>
    obtain ⟨-, rfl⟩ := openElement_eq_ok.mp hopen
    obtain ⟨inside, name, behind, f, next', declared, rfl, hmakes, hrun⟩ :=
      exists_makes_of_open hrun hclosed
    have hclose : step ⟨[⟨next, outermost, .nil ++ f⟩], none, next', declared, prolog⟩
        (.endTag name) = .ok ⟨[], some (outermost, f), next', declared, prolog⟩ := rfl
    obtain ⟨⟨declared', rfl⟩, hbehind⟩ := exists_eq_of_run_closed (run_of_run_cons hclose hrun)
    obtain ⟨rfl, rfl⟩ := Prod.mk.inj (Option.some.inj hroot)
    exact ⟨_, behind, by simp, .element rootId _ name hmakes .nil, hbehind⟩
  | declaration _ | instruction _ | doctype _ | comment _ | cdata _ | text _ | endTag _ =>
    exact absurd hopens Bool.false_ne_true

/-- **A text that is read has one outermost element**, which its tags make up, and no tags opening
another before or behind it. -/
theorem exists_makes_of_run {events : List Event} {tag : Tag} {content : Forest}
    (h : run ⟨[], none, next, declaration?, prolog⟩ events = .ok built)
    (hclosed : built.stack = []) (hroot : built.root? = some (tag, content)) :
    ∃ front body behind, events = front ++ (body ++ behind) ∧
      (∀ event ∈ front, event.opens = false) ∧ Makes body (.element rootId tag content .nil) ∧
      ∀ event ∈ behind, event.opens = false := by
  induction events generalizing declaration? prolog with
  | nil =>
    rw [run, Except.ok.injEq] at h
    rw [← h] at hroot
    exact absurd hroot.symm (Option.some_ne_none _)
  | cons event events ih =>
    cases hopens : event.opens with
    | true =>
      obtain ⟨body, behind, hevents, hmakes, hbehind⟩ :=
        exists_makes_of_opens h hopens hclosed hroot
      exact ⟨[], body, behind, hevents, by simp, hmakes, hbehind⟩
    | false =>
      obtain ⟨declared, comments, hstep⟩ :=
        step_of_not_opens hopens none next declaration? prolog
      obtain ⟨front, body, behind, rfl, hfront, hmakes, hbehind⟩ := ih (run_of_run_cons hstep h)
      exact ⟨event :: front, body, behind, rfl, List.forall_mem_cons.mpr ⟨hopens, hfront⟩, hmakes,
        hbehind⟩

/-- **A document that is read has the elements of its text**, in the order and at the depth of
their tags, each with the nodes directly inside it. -/
theorem sourceOutline_of_run {events : List Event} {tag : Tag} {content : Forest}
    (h : start.run events = .ok built) (hclosed : built.stack = [])
    (hroot : built.root? = some (tag, content)) :
    sourceOutline 0 events =
      ((0, ⟨rootId, tag, content⟩) :: content.outline 1).map SourceElement.of := by
  obtain ⟨front, body, behind, rfl, hfront, hmakes, hbehind⟩ := exists_makes_of_run h hclosed hroot
  rw [sourceOutline_append_of_not_opens hfront, hmakes.sourceOutline_append,
    ← List.append_nil behind, sourceOutline_append_of_not_opens hbehind, sourceOutline,
    List.append_nil, Forest.outline, Forest.outline, List.append_nil]

end Builder

end BuildProject
