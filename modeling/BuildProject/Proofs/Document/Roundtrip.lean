import BuildProject.Proofs.Document.Outline
import BuildProject.Proofs.Document.Sound

/-!
# Documents that are written and read back

A document that has been read is written as a text that can be read, and the two documents have the
same elements in the same order and at the same depth, with the same tags (`parse_render`). The text
of an element is the same unless the element holds words beside elements or comments and a line
starts somewhere in it (`Forest.keepsText`): the line break is then read as a part of the text.

What is asked of the document is that its names are plain and that no value of its declaration holds
a double quote, neither of which the reader checks.
-/

namespace BuildProject

open Markup Text

namespace DocumentContent

/-- Everything that is written as it is can be read back: names are plain, and no value of the
declaration holds a double quote. -/
structure Plain (d : DocumentContent) : Prop where
  names : ∀ e ∈ d.tree.root :: d.tree.elements, e.tag.Plain
  declaration : ∀ declaration ∈ d.declaration?, ∀ v ∈ declaration.values, '"' ∉ v.toList

/-- What is so for every document that has been read. -/
structure Settled (d : DocumentContent) : Prop extends d.Sound where
  root : d.tree.content.Settled
  elements : ∀ e ∈ d.tree.elements, e.content.Settled

theorem settled_of_parse {text : String} {d : DocumentContent}
    (h : DocumentContent.parse text = .ok d) : d.Settled := by
  have hsound := sound_of_parse h
  obtain ⟨built, tag, inside, -, -, -, -, rfl⟩ := ofEvents_eq_ok.mp h
  exact ⟨hsound, Forest.settled_settle inside,
    fun e he => Forest.settled_of_mem_elements_settle he⟩

/-! ## What is written -/

/-- The text behind every part of a document outside the root. -/
def lineEnd : Event :=
  .text "\n"

theorem sound_lineEnd : lineEnd.Sound := by
  show "\n" ≠ ""
  decide

/-- The parts before the root. -/
def front (d : DocumentContent) : List Event :=
  (d.declaration?.toList.map .declaration) ++ d.prolog.map .comment

/-- The root with its line breaks. -/
def laid (d : DocumentContent) : Forest :=
  .element rootId d.tree.tag (d.tree.content.layInside 0) .nil

/-- The events that a document is written as. -/
def events (d : DocumentContent) : List Event :=
  d.front.flatMap (fun event => [event, lineEnd]) ++ (d.laid.events ++ [lineEnd])

theorem layout_front (front : List Event) (body : List Char) (pieces : List Piece) :
    layout false (front.map (fun event => .markup 0 event.write) ++ .markup 0 body :: pieces) =
      (front.flatMap fun event => [event, lineEnd]).flatMap Event.write ++
        layout false (.markup 0 body :: pieces) := by
  have hbreak : ∀ body pieces, layout true (.markup 0 body :: pieces) =
      lineEnd.write ++ layout false (.markup 0 body :: pieces) := fun _ _ => rfl
  induction front with
  | nil => rfl
  | cons event front ih =>
    -- what follows starts with markup in either case, so a line starts there
    have hnext : layout true (front.map (fun event => .markup 0 event.write) ++
        .markup 0 body :: pieces) = lineEnd.write ++
          layout false (front.map (fun event => .markup 0 event.write) ++
            .markup 0 body :: pieces) := by
      cases front with
      | nil => exact hbreak body pieces
      | cons next front => exact hbreak next.write _
    rw [List.map_cons, List.cons_append, layout, hnext, ih]
    simp

theorem layout_root (tag : Tag) (content : Forest) :
    layout false ((Forest.ofElement ⟨rootId, tag, content⟩).pieces 0) =
      (Forest.element rootId tag (content.layInside 0) .nil).written := by
  by_cases hnil : content = .nil
  · subst hnil
    show [] ++ ('<' :: printTag tag ++ ['/', '>']) ++ [] = _
    rfl
  · rw [Forest.ofElement, Forest.pieces_element hnil, layout, Forest.layInside_of_ne_nil hnil,
      Forest.written_element (Forest.lay_ne_nil _ _), Forest.pieces, Forest.layout_pieces]
    rfl

/-- **A document is written as its events.** -/
theorem toList_render (d : DocumentContent) : d.render.toList = d.events.flatMap Event.write := by
  have hroot : ∃ body pieces,
      (Forest.ofElement d.tree.root).pieces 0 = .markup 0 body :: pieces := by
    by_cases hnil : d.tree.content = .nil
    · rw [Forest.ofElement, Tree.root, hnil]
      exact ⟨_, _, rfl⟩
    · exact ⟨_, _, Forest.pieces_element hnil ..⟩
  obtain ⟨body, pieces, hpieces⟩ := hroot
  have hfront : d.pieces = d.front.map (fun event => .markup 0 event.write) ++
      .markup 0 body :: pieces := by
    rw [DocumentContent.pieces, hpieces, front, List.map_append, List.map_map, List.map_map]
    cases d.declaration? <;> rfl
  have hlaid : layout false (.markup 0 body :: pieces) = d.laid.events.flatMap Event.write := by
    rw [← hpieces]
    exact layout_root d.tree.tag d.tree.content
  rw [render, String.toList_ofList, hfront, layout_front, hlaid, events, List.flatMap_append,
    List.flatMap_append, List.append_assoc]
  rfl

/-! ## What is read -/

/-- What may stand before the root. -/
def IsFront (event : Event) : Prop :=
  (∃ d, event = .declaration d) ∨ ∃ content, event = .comment content

theorem head?_front {front events : List Event} (hfront : ∀ event ∈ front, IsFront event)
    (hhead : events.head?.all (!·.isText) = true) :
    (front.flatMap (fun event => [event, lineEnd]) ++ events).head?.all (!·.isText) = true := by
  cases front with
  | nil => exact hhead
  | cons event front =>
    obtain ⟨d, rfl⟩ | ⟨content, rfl⟩ := hfront event List.mem_cons_self
    · rfl
    · rfl

theorem readable_front {front events : List Event} (hfront : ∀ event ∈ front, IsFront event)
    (hwritten : ∀ event ∈ front, event.Sound ∧ event.Plain) (hevents : Readable [] events)
    (hhead : events.head?.all (!·.isText) = true) :
    Readable [] (front.flatMap (fun event => [event, lineEnd]) ++ events) := by
  induction front with
  | nil => exact hevents
  | cons event front ih =>
    have hothers : ∀ event ∈ front, IsFront event :=
      fun event he => hfront event (List.mem_cons_of_mem _ he)
    have hrest := ih hothers fun event he => hwritten event (List.mem_cons_of_mem _ he)
    have hline :
        Readable [] (lineEnd :: (front.flatMap (fun event => [event, lineEnd]) ++ events)) :=
      ⟨sound_lineEnd, trivial, head?_front hothers hhead, hrest⟩
    obtain ⟨hsound, hplain⟩ := hwritten event List.mem_cons_self
    obtain ⟨d, rfl⟩ | ⟨content, rfl⟩ := hfront event List.mem_cons_self
    · exact ⟨hsound, hplain, hline⟩
    · exact ⟨hsound, hplain, hline⟩

theorem isFront_of_mem_front {d : DocumentContent} {event : Event} (h : event ∈ d.front) :
    IsFront event := by
  rcases List.mem_append.mp h with h | h
  · obtain ⟨declaration, -, rfl⟩ := List.mem_map.mp h
    exact .inl ⟨declaration, rfl⟩
  · obtain ⟨comment, -, rfl⟩ := List.mem_map.mp h
    exact .inr ⟨comment, rfl⟩

variable {d : DocumentContent}

theorem head?_laid (d : DocumentContent) :
    (d.laid.events ++ [lineEnd]).head?.all (!·.isText) = true := by
  by_cases hnil : d.tree.content = .nil
  · rw [laid, hnil]
    rfl
  · rw [laid, Forest.layInside_of_ne_nil hnil, Forest.events_element (Forest.lay_ne_nil _ _)]
    rfl

theorem readable_laid (hsound : d.Sound) (hplain : d.Plain) :
    Readable [] (d.laid.events ++ [lineEnd]) := by
  have hroot := hplain.names d.tree.root List.mem_cons_self
  have hline : Readable [] [lineEnd] := ⟨sound_lineEnd, trivial, rfl, trivial⟩
  by_cases hnil : d.tree.content = .nil
  · rw [laid, hnil]
    exact ⟨hsound.root_distinct, hroot, hline⟩
  · have hcontent : (d.tree.content.lay 0 true).All (fun tag => tag.Distinct ∧ tag.Plain)
        fun l => l.event.Sound :=
      Forest.sound_lay (Forest.All.and_tags hsound.content fun e he =>
        hplain.names e (List.mem_cons_of_mem _ he)) 0 true
    have hclose : Readable [d.tree.tag.name] [.endTag d.tree.tag.name, lineEnd] :=
      ⟨trivial, hroot.name, rfl, hline⟩
    rw [laid, Forest.layInside_of_ne_nil hnil, Forest.events_element (Forest.lay_ne_nil _ _),
      List.cons_append, List.append_assoc]
    exact ⟨hsound.root_distinct, hroot,
      Forest.readable_events hcontent (Forest.separated_lay _ _ _) hclose rfl⟩

theorem readable_events (hsound : d.Sound) (hplain : d.Plain) : Readable [] d.events := by
  refine readable_front (fun _ => isFront_of_mem_front) (fun event he => ?_)
    (readable_laid hsound hplain) (head?_laid d)
  rcases List.mem_append.mp he with he | he
  · obtain ⟨declaration, hd, rfl⟩ := List.mem_map.mp he
    have hd := Option.mem_toList.mp hd
    exact ⟨hsound.declaration declaration hd, hplain.declaration declaration hd⟩
  · obtain ⟨comment, hc, rfl⟩ := List.mem_map.mp he
    exact ⟨hsound.prolog comment hc, trivial⟩

/-- **What a document is written as is read as its events.** -/
theorem scanEvents_render (hsound : d.Sound) (hplain : d.Plain) :
    scanEvents (dropMark (dropMark d.render.toList)) = ⟨d.events, none⟩ := by
  have hreadable := readable_events hsound hplain
  -- the text starts with markup, not with a byte order mark
  have hmark : dropMark d.render.toList = d.render.toList := by
    rw [toList_render]
    rcases head?_write hreadable (head?_front (fun _ => isFront_of_mem_front) (head?_laid d)) with
      hnil | hopen
    · rw [hnil]
      rfl
    · obtain ⟨rest, hrest⟩ := List.head?_eq_some_iff.mp hopen
      rw [hrest]
      rfl
  rw [hmark, hmark, toList_render]
  exact scanFrom_write hreadable

/-! ## What is built -/

theorem run_prolog (declaration? : Option Declaration) (before prolog : List String)
    (events : List Event) :
    Builder.run ⟨[], none, rootId, declaration?, before⟩
      ((prolog.map Event.comment).flatMap (fun event => [event, lineEnd]) ++ events) =
        Builder.run ⟨[], none, rootId, declaration?, before ++ prolog⟩ events := by
  induction prolog generalizing before with
  | nil =>
    rw [List.append_nil]
    rfl
  | cons comment prolog ih =>
    have hstep : Builder.step ⟨[], none, rootId, declaration?, before⟩ (.comment comment) =
        .ok ⟨[], none, rootId, declaration?, before ++ [comment]⟩ := rfl
    have hline : Builder.step ⟨[], none, rootId, declaration?, before ++ [comment]⟩ lineEnd =
        .ok ⟨[], none, rootId, declaration?, before ++ [comment]⟩ := rfl
    rw [List.map_cons, List.flatMap_cons, List.append_assoc, List.cons_append, List.cons_append,
      List.nil_append, Builder.run_cons_of_step hstep, Builder.run_cons_of_step hline, ih,
      List.append_assoc, List.singleton_append]

/-- The parts before the root are taken in. -/
theorem run_front (d : DocumentContent) (events : List Event) :
    Builder.start.run (d.front.flatMap (fun event => [event, lineEnd]) ++ events) =
      Builder.run ⟨[], none, rootId, d.declaration?, d.prolog⟩ events := by
  cases hd : d.declaration? with
  | none =>
    rw [front, hd]
    exact run_prolog none [] d.prolog events
  | some declaration =>
    have hstep : Builder.start.step (.declaration declaration) =
        .ok ⟨[], none, rootId, some declaration, []⟩ := rfl
    have hline : Builder.step ⟨[], none, rootId, some declaration, []⟩ lineEnd =
        .ok ⟨[], none, rootId, some declaration, []⟩ := rfl
    have hfront : d.front = .declaration declaration :: d.prolog.map .comment := by
      rw [front, hd]
      rfl
    rw [hfront, List.flatMap_cons, List.append_assoc, List.cons_append, List.cons_append,
      List.nil_append, Builder.run_cons_of_step hstep, Builder.run_cons_of_step hline]
    exact run_prolog (some declaration) [] d.prolog events

/-- The root is built again, up to the identities in it. -/
theorem run_laid (d : DocumentContent) (hname : d.tree.tag.name = projectElement) :
    ∃ inside next, inside.erase = (d.tree.content.layInside 0).erase ∧
      Builder.run ⟨[], none, rootId, d.declaration?, d.prolog⟩ (d.laid.events ++ [lineEnd]) =
        .ok ⟨[], some (d.tree.tag, inside), next, d.declaration?, d.prolog⟩ := by
  have hopen : Builder.openElement ⟨[], none, rootId, d.declaration?, d.prolog⟩ d.tree.tag =
      .ok ⟨[⟨rootId, d.tree.tag, .nil⟩], none, rootId + 1, d.declaration?, d.prolog⟩ :=
    Builder.openElement_eq_ok.mpr ⟨fun _ => ⟨rfl, hname⟩, rfl⟩
  have hline (root? : Option (Tag × Forest)) (next : NodeId) :
      Builder.run ⟨[], root?, next, d.declaration?, d.prolog⟩ [lineEnd] =
        .ok ⟨[], root?, next, d.declaration?, d.prolog⟩ := rfl
  by_cases hnil : d.tree.content = .nil
  · have hstep : Builder.step ⟨[], none, rootId, d.declaration?, d.prolog⟩ (.emptyTag d.tree.tag) =
        .ok ⟨[], some (d.tree.tag, .nil), rootId + 1, d.declaration?, d.prolog⟩ := by
      rw [Builder.step, hopen]
      rfl
    refine ⟨.nil, rootId + 1, by rw [hnil]; rfl, ?_⟩
    rw [laid, hnil]
    show Builder.run _ [.emptyTag d.tree.tag, lineEnd] = _
    rw [Builder.run_cons_of_step hstep, hline]
  · obtain ⟨inside, next, herase, hrun⟩ := Builder.run_events (d.tree.content.layInside 0)
      ⟨rootId, d.tree.tag, .nil⟩ [] none (rootId + 1) d.declaration? d.prolog
      [.endTag d.tree.tag.name, lineEnd]
    have hclose : Builder.step ⟨[⟨rootId, d.tree.tag, .nil ++ inside⟩], none, next, d.declaration?,
        d.prolog⟩ (.endTag d.tree.tag.name) =
        .ok ⟨[], some (d.tree.tag, inside), next, d.declaration?, d.prolog⟩ := rfl
    have hevents : d.laid.events ++ [lineEnd] = .startTag d.tree.tag ::
        ((d.tree.content.layInside 0).events ++ [.endTag d.tree.tag.name, lineEnd]) := by
      have hne : d.tree.content.layInside 0 ≠ .nil := by
        rw [Forest.layInside_of_ne_nil hnil]
        exact Forest.lay_ne_nil _ _
      rw [laid, Forest.events_element hne, List.cons_append, List.append_assoc]
      rfl
    have hstart : Builder.step ⟨[], none, rootId, d.declaration?, d.prolog⟩ (.startTag d.tree.tag) =
        .ok ⟨[⟨rootId, d.tree.tag, .nil⟩], none, rootId + 1, d.declaration?, d.prolog⟩ := hopen
    refine ⟨inside, next, herase, ?_⟩
    rw [hevents, Builder.run_cons_of_step hstart, hrun, Builder.run_cons_of_step hclose, hline]

/-! ## The round trip -/

/-- A document that is written can be read. What is read is the root with its line breaks, up to
identities and without its indentation. -/
theorem exists_parse_render (hsound : d.Sound) (hplain : d.Plain) :
    ∃ (inside : Forest) (next : NodeId), inside.erase = (d.tree.content.layInside 0).erase ∧
      DocumentContent.parse d.render = .ok
        ⟨⟨d.tree.tag, inside.settle inside.isIndented, next⟩, d.declaration?, d.prolog⟩ := by
  obtain ⟨inside, next, herase, hrun⟩ := run_laid d hsound.root_name
  have hbuilt : Builder.start.run d.events =
      .ok ⟨[], some (d.tree.tag, inside), next, d.declaration?, d.prolog⟩ := by
    rw [events, run_front, hrun]
  refine ⟨inside, next, herase, ?_⟩
  rw [DocumentContent.parse, scanEvents_render hsound hplain]
  exact ofEvents_eq_ok.mpr ⟨_, _, _, hbuilt, rfl, rfl, rfl, rfl⟩

/-- **A document that has been read, written and read again** has the same declaration, the same
comments before the root, and the same elements in the same order and at the same depth, with the
same names and attributes. An element has the same text exactly if its content keeps it. -/
theorem parse_render {text : String} (h : DocumentContent.parse text = .ok d) (hplain : d.Plain) :
    ∃ d', DocumentContent.parse d.render = .ok d' ∧ d'.declaration? = d.declaration? ∧
      d'.prolog = d.prolog ∧
      List.Forall₂ (fun before after => after.1 = before.1 ∧ after.2.tag = before.2.tag ∧
        (after.2.text = before.2.text ↔ before.2.content.keepsText = true))
        d.tree.outline d'.tree.outline := by
  have hsettled := settled_of_parse h
  obtain ⟨inside, next, herase, hagain⟩ := exists_parse_render hsettled.toSound hplain
  refine ⟨_, hagain, rfl, rfl, ?_⟩
  have hkept := Forest.kept_element hsettled.root
    (fun indented => Forest.kept_lay hsettled.elements 0 true indented 1) rootId rootId d.tree.tag
    rfl
  -- what has been read is what has been laid out, up to identities
  have herase : (Forest.element rootId d.tree.tag inside .nil).erase = d.laid.erase := by
    simp only [laid, Forest.erase, herase]
  have hsummary := Forest.summary_settle_of_erase herase false 0
  simp only [laid, Forest.settle, Forest.outline, List.append_nil] at hsummary
  rw [← hsummary] at hkept
  have hfound := List.forall₂_map_right_iff.mp hkept
  exact hfound

/-- A text before an element: the line break behind the element is read as a part of it. -/
theorem parse_render_text_before_element :
    ∃ d d', DocumentContent.parse "<Project>abc<A/></Project>" = .ok d ∧
      DocumentContent.parse d.render = .ok d' ∧ d.tree.root.text = "abc" ∧
      d'.tree.root.text ≠ d.tree.root.text := by
  let d : DocumentContent :=
    ⟨⟨⟨"Project", []⟩, .leaf 1 (.text "abc") (.element 2 ⟨"A", []⟩ .nil .nil), 3⟩, none, []⟩
  have hparse : DocumentContent.parse "<Project>abc<A/></Project>" = .ok d := by decide +kernel
  have hplain : d.Plain := ⟨by decide, fun declaration h => nomatch h⟩
  obtain ⟨d', hagain, -, -, hfound⟩ := parse_render hparse hplain
  refine ⟨d, d', hparse, hagain, by decide +kernel, fun htext => ?_⟩
  cases hfound with
  | cons hroot hothers => exact absurd (hroot.2.2.mp htext) (by decide)

end DocumentContent

end BuildProject
