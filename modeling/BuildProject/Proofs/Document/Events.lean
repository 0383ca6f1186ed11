import BuildProject.Proofs.Document.WellFormed
import BuildProject.Proofs.Markup.Scan

/-!
# Events and forests

`Forest.events` lists the events that a forest makes, and a builder that takes them in has the same
forest again, up to the identities of its nodes (`Builder.run_events`). What a builder holds is made
of events that have been read, so all of it can be written (`Builder.Sound`).
-/

namespace BuildProject

open Markup

/-- The event that a leaf makes. -/
def Leaf.event : Leaf → Event
  | .text content => .text content
  | .comment content => .comment content
  | .cdata content => .cdata content

namespace Forest

/-- The events that a forest makes. An element without any node below it is one empty tag. -/
def events : Forest → List Event
  | nil => []
  | element _ tag nil rest => .emptyTag tag :: events rest
  | element _ tag content rest =>
    .startTag tag :: (events content ++ .endTag tag.name :: events rest)
  | leaf _ l rest => l.event :: events rest

theorem events_element {content : Forest} (h : content ≠ nil) (id : NodeId) (tag : Tag)
    (rest : Forest) : (element id tag content rest).events =
      .startTag tag :: (content.events ++ .endTag tag.name :: rest.events) := by
  cases content with
  | nil => exact absurd rfl h
  | element id tag content rest => rfl
  | leaf id l rest => rfl

/-- The forest with one identity for all nodes, so that forests are compared without it. -/
def erase : Forest → Forest
  | nil => nil
  | element _ tag content rest => element rootId tag content.erase rest.erase
  | leaf _ l rest => leaf rootId l rest.erase

/-! ## Every node -/

/-- Every tag has the one property and every leaf the other. -/
def All (P : Tag → Prop) (Q : Leaf → Prop) : Forest → Prop
  | nil => True
  | element _ tag content rest => P tag ∧ All P Q content ∧ All P Q rest
  | leaf _ l rest => Q l ∧ All P Q rest

variable {P P' : Tag → Prop} {Q Q' : Leaf → Prop}

theorem all_append {f g : Forest} : (f ++ g).All P Q ↔ f.All P Q ∧ g.All P Q := by
  induction f with
  | nil => exact ⟨fun h => ⟨trivial, h⟩, fun h => h.2⟩
  | element id tag content rest _ ih =>
    rw [element_append, All, All, ih]
    constructor
    · rintro ⟨htag, hcontent, hrest, hg⟩
      exact ⟨⟨htag, hcontent, hrest⟩, hg⟩
    · rintro ⟨⟨htag, hcontent, hrest⟩, hg⟩
      exact ⟨htag, hcontent, hrest, hg⟩
  | leaf id l rest ih =>
    rw [leaf_append, All, All, ih]
    exact and_assoc.symm

theorem All.settle {f : Forest} (h : f.All P Q) (indented : Bool) :
    (f.settle indented).All P Q := by
  induction f generalizing indented with
  | nil => trivial
  | element id tag content rest ihContent ihRest =>
    exact ⟨h.1, ihContent h.2.1 _, ihRest h.2.2 _⟩
  | leaf id l rest ih =>
    cases l with
    | text content =>
      rw [Forest.settle]
      split
      · exact ih h.2 _
      · exact ⟨h.1, ih h.2 _⟩
    | comment content => exact ⟨h.1, ih h.2 _⟩
    | cdata content => exact ⟨h.1, ih h.2 _⟩

/-- What is so for the tags of all elements is so for every tag. -/
theorem All.and_tags {f : Forest} (h : f.All P Q) (htags : ∀ e ∈ f.elements, P' e.tag) :
    f.All (fun tag => P tag ∧ P' tag) Q := by
  induction f with
  | nil => trivial
  | element id tag content rest ihContent ihRest =>
    refine ⟨⟨h.1, htags ⟨id, tag, content⟩ List.mem_cons_self⟩, ihContent h.2.1 fun e he => ?_,
      ihRest h.2.2 fun e he => ?_⟩
    · exact htags e (List.mem_cons_of_mem _ (List.mem_append_left _ he))
    · exact htags e (List.mem_cons_of_mem _ (List.mem_append_right _ he))
  | leaf id l rest ih => exact ⟨h.1, ih h.2 htags⟩

/-- All that the forest holds can be written without ending early. -/
def Sound (f : Forest) : Prop :=
  f.All Tag.Distinct fun l => l.event.Sound

end Forest

/-! ## Rebuilding a forest -/

namespace Builder

theorem run_cons_of_step {b b' : Builder} {event : Event} (h : b.step event = .ok b')
    (events : List Event) : b.run (event :: events) = b'.run events := by
  rw [run, h]
  rfl

section Open

variable (top : OpenElement) (below : List OpenElement) (root? : Option (Tag × Forest))
  (next : NodeId) (declaration? : Option Declaration) (prolog : List String)

/-- Below an open element a tag opens another. -/
theorem step_startTag (tag : Tag) :
    step ⟨top :: below, root?, next, declaration?, prolog⟩ (.startTag tag) =
      .ok ⟨⟨next, tag, .nil⟩ :: top :: below, root?, next + 1, declaration?, prolog⟩ := by
  rw [step, openElement, if_neg (by simp), if_neg (by simp)]

theorem step_emptyTag (tag : Tag) :
    step ⟨top :: below, root?, next, declaration?, prolog⟩ (.emptyTag tag) =
      .ok ⟨{ top with content := top.content.push ⟨next, tag, .nil⟩ } :: below, root?, next + 1,
        declaration?, prolog⟩ := by
  rw [step, openElement, if_neg (by simp), if_neg (by simp)]
  rfl

/-- An element that is closed stands behind what the element around it holds. -/
theorem step_endTag (id : NodeId) (tag : Tag) (content : Forest) (name : String) :
    step ⟨⟨id, tag, content⟩ :: top :: below, root?, next, declaration?, prolog⟩ (.endTag name) =
      .ok ⟨{ top with content := top.content.push ⟨id, tag, content⟩ } :: below, root?, next,
        declaration?, prolog⟩ :=
  rfl

theorem step_leaf (l : Leaf) :
    step ⟨top :: below, root?, next, declaration?, prolog⟩ l.event =
      .ok ⟨{ top with content := top.content ++ .ofLeaf next l } :: below, root?, next + 1,
        declaration?, prolog⟩ := by
  cases l with
  | text content => rfl
  | cdata content => rfl
  | comment content =>
    simp [Leaf.event, step, addLeaf]

end Open

/-- **The events of a forest build it again**, behind what the innermost open element holds. -/
theorem run_events (f : Forest) (top : OpenElement) (below : List OpenElement)
    (root? : Option (Tag × Forest)) (next : NodeId) (declaration? : Option Declaration)
    (prolog : List String) (events : List Event) :
    ∃ g next', g.erase = f.erase ∧
      run ⟨top :: below, root?, next, declaration?, prolog⟩ (f.events ++ events) =
        run ⟨{ top with content := top.content ++ g } :: below, root?, next', declaration?, prolog⟩
          events := by
  induction f generalizing top below next events with
  | nil =>
    refine ⟨.nil, next, rfl, ?_⟩
    rw [Forest.append_nil]
    rfl
  | leaf id l rest ih =>
    obtain ⟨g, next', herase, hrun⟩ := ih { top with content := top.content ++ .ofLeaf next l }
      below (next + 1) events
    refine ⟨.leaf next l g, next', by simp only [Forest.erase, herase], ?_⟩
    rw [Forest.events, List.cons_append, run_cons_of_step (step_leaf ..), hrun]
    simp only [Forest.append_assoc]
    rfl
  | element id tag content rest ihContent ihRest =>
    by_cases hnil : content = .nil
    · subst hnil
      obtain ⟨g, next', herase, hrun⟩ := ihRest
        { top with content := top.content.push ⟨next, tag, .nil⟩ } below (next + 1) events
      refine ⟨.element next tag .nil g, next', by simp only [Forest.erase, herase], ?_⟩
      rw [Forest.events, List.cons_append, run_cons_of_step (step_emptyTag ..), hrun]
      simp only [Forest.push, Forest.append_assoc]
      rfl
    · -- the content is built in an element of its own, which is then closed
      obtain ⟨inside, next₁, hinside, hrunInside⟩ := ihContent ⟨next, tag, .nil⟩ (top :: below)
        (next + 1) (.endTag tag.name :: (rest.events ++ events))
      obtain ⟨g, next₂, herase, hrun⟩ := ihRest
        { top with content := top.content.push ⟨next, tag, inside⟩ } below next₁ events
      refine ⟨.element next tag inside g, next₂, by
        simp only [Forest.erase, herase, hinside], ?_⟩
      rw [Forest.events_element hnil, List.cons_append, List.append_assoc, List.cons_append,
        run_cons_of_step (step_startTag ..), hrunInside, Forest.nil_append,
        run_cons_of_step (step_endTag ..), hrun]
      simp only [Forest.push, Forest.append_assoc]
      rfl

/-! ## What a builder holds -/

/-- What holds of a builder that has taken in events that were read. -/
structure Sound (b : Builder) : Prop where
  stack : ∀ e ∈ b.stack, e.tag.Distinct ∧ e.content.Sound
  root : ∀ tag content, b.root? = some (tag, content) → tag.Distinct ∧ content.Sound
  declaration : ∀ d, b.declaration? = some d → (Event.declaration d).Sound
  prolog : ∀ content ∈ b.prolog, (Event.comment content).Sound
  /-- The outermost element is a project. -/
  outermost : ∀ e ∈ b.stack.getLast?, e.tag.name = projectElement
  root_name : ∀ tag content, b.root? = some (tag, content) → tag.name = projectElement

theorem sound_start : start.Sound := by
  constructor <;> simp [start]

theorem Sound.addLeaf {b : Builder} (h : b.Sound) {l : Leaf} (hl : l.event.Sound) :
    (b.addLeaf l).Sound := by
  obtain ⟨stack, root?, next, declaration?, prolog⟩ := b
  cases stack with
  | nil => exact h
  | cons top below =>
    obtain ⟨htag, hcontent⟩ := h.stack top List.mem_cons_self
    refine ⟨fun e he => ?_, h.root, h.declaration, h.prolog, fun e he => ?_, h.root_name⟩
    · rcases List.mem_cons.mp he with rfl | he
      · exact ⟨htag, Forest.all_append.mpr ⟨hcontent, hl, trivial⟩⟩
      · exact h.stack e (List.mem_cons_of_mem _ he)
    · cases below with
      | nil =>
        have he : e = { top with content := top.content ++ .ofLeaf next l } := by
          simpa [Builder.addLeaf, eq_comm] using he
        rw [he]
        exact h.outermost top rfl
      | cons around below => exact h.outermost e he

theorem Sound.closeElement {b : Builder} (h : b.Sound) : b.closeElement.Sound := by
  obtain ⟨stack, root?, next, declaration?, prolog⟩ := b
  cases stack with
  | nil => exact h
  | cons top below =>
    obtain ⟨htag, hcontent⟩ := h.stack top List.mem_cons_self
    cases below with
    | nil =>
      have hroot : ∀ tag content, some (top.tag, top.content) = some (tag, content) →
          tag = top.tag ∧ content = top.content := by
        intro tag content heq
        simpa [eq_comm] using heq
      refine ⟨fun e he => absurd he List.not_mem_nil, fun tag content heq => ?_, h.declaration,
        h.prolog, fun e he => absurd he (by simp [Builder.closeElement, addElement]),
        fun tag content heq => ?_⟩
      · obtain ⟨rfl, rfl⟩ := hroot tag content heq
        exact ⟨htag, hcontent⟩
      · obtain ⟨rfl, rfl⟩ := hroot tag content heq
        exact h.outermost top rfl
    | cons around below =>
      obtain ⟨htagAround, hcontentAround⟩ := h.stack around (by simp)
      refine ⟨fun e he => ?_, h.root, h.declaration, h.prolog, fun e he => ?_, h.root_name⟩
      · rcases List.mem_cons.mp he with rfl | he
        · exact ⟨htagAround, Forest.all_append.mpr ⟨hcontentAround, htag, hcontent, trivial⟩⟩
        · exact h.stack e (List.mem_cons_of_mem _ (List.mem_cons_of_mem _ he))
      · cases below with
        | nil =>
          -- the element around was the outermost one, and holds more now
          have he : e = ⟨around.id, around.tag,
              around.content.push ⟨top.id, top.tag, top.content⟩⟩ := by
            simpa [Builder.closeElement, addElement, eq_comm] using he
          rw [he]
          exact h.outermost around rfl
        | cons outer below => exact h.outermost e he

theorem Sound.openElement {b b' : Builder} (h : b.Sound) {tag : Tag} (htag : tag.Distinct)
    (hopen : b.openElement tag = .ok b') : b'.Sound := by
  obtain ⟨hfirst, rfl⟩ := openElement_eq_ok.mp hopen
  obtain ⟨stack, root?, next, declaration?, prolog⟩ := b
  refine ⟨fun e he => ?_, h.root, h.declaration, h.prolog, fun e he => ?_, h.root_name⟩
  · rcases List.mem_cons.mp he with rfl | he
    · exact ⟨htag, trivial⟩
    · exact h.stack e he
  · cases stack with
    | nil =>
      have he : e = ⟨next, tag, .nil⟩ := by simpa [opened, eq_comm] using he
      rw [he]
      exact (hfirst rfl).2
    | cons top below => exact h.outermost e he

theorem Sound.step {b b' : Builder} (h : b.Sound) {event : Event} (hevent : event.Sound)
    (hstep : b.step event = .ok b') : b'.Sound := by
  cases event with
  | declaration d =>
    rw [← Except.ok.inj hstep]
    refine ⟨h.stack, h.root, fun d' hd' => ?_, h.prolog, h.outermost, h.root_name⟩
    rw [← Option.some.inj hd']
    exact hevent
  | instruction content => exact (Except.ok.inj hstep) ▸ h
  | doctype content => exact (Except.ok.inj hstep) ▸ h
  | comment content =>
    rw [Builder.step] at hstep
    split at hstep
    · rw [← Except.ok.inj hstep]
      refine ⟨h.stack, h.root, h.declaration, fun c hc => ?_, h.outermost, h.root_name⟩
      rcases List.mem_append.mp hc with hc | hc
      · exact h.prolog c hc
      · exact (List.mem_singleton.mp hc) ▸ hevent
    · exact (Except.ok.inj hstep) ▸ @Sound.addLeaf _ h (.comment content) hevent
  | cdata content => exact (Except.ok.inj hstep) ▸ @Sound.addLeaf _ h (.cdata content) hevent
  | text content => exact (Except.ok.inj hstep) ▸ @Sound.addLeaf _ h (.text content) hevent
  | startTag tag => exact h.openElement hevent hstep
  | emptyTag tag =>
    obtain ⟨opened, hopen, rfl⟩ := map_eq_ok.mp hstep
    exact (h.openElement hevent hopen).closeElement
  | endTag name => exact (Except.ok.inj hstep) ▸ h.closeElement

theorem Sound.run {b b' : Builder} (h : b.Sound) {events : List Event}
    (hevents : ∀ event ∈ events, event.Sound) (hrun : b.run events = .ok b') : b'.Sound := by
  induction events generalizing b with
  | nil => exact (Except.ok.inj hrun) ▸ h
  | cons event events ih =>
    rw [Builder.run] at hrun
    obtain ⟨b₁, hstep, hrun⟩ := bind_eq_ok.mp hrun
    exact ih (h.step (hevents event List.mem_cons_self) hstep)
      (fun event he => hevents event (List.mem_cons_of_mem _ he)) hrun

end Builder

/-! ## Reading the events of a forest -/

namespace Forest

/-- Whether the first node is a text. -/
def startsWithText : Forest → Bool
  | leaf _ (.text _) _ => true
  | _ => false

/-- No text follows a text. -/
def Separated : Forest → Prop
  | nil => True
  | element _ _ content rest => content.Separated ∧ rest.Separated
  | leaf _ l rest => (l.event.isText = true → rest.startsWithText = false) ∧ rest.Separated

theorem head?_events {f : Forest} (h : f.startsWithText = false) {events : List Event}
    (hevents : events.head?.all (!·.isText) = true) :
    (f.events ++ events).head?.all (!·.isText) = true := by
  cases f with
  | nil => exact hevents
  | element id tag content rest =>
    by_cases hnil : content = nil
    · subst hnil
      rfl
    · rw [events_element hnil]
      rfl
  | leaf id l rest =>
    cases l with
    | text content => exact absurd h (by simp [startsWithText])
    | comment content => rfl
    | cdata content => rfl

/-- What a forest without adjacent texts is written as can be read back, in front of anything
readable but a text. -/
theorem readable_events {f : Forest} (hsound : f.All (fun tag => tag.Distinct ∧ tag.Plain)
    fun l => l.event.Sound) (hseparated : f.Separated) {names : List String} {events : List Event}
    (hevents : Readable names events) (hhead : events.head?.all (!·.isText) = true) :
    Readable names (f.events ++ events) := by
  induction f generalizing names events with
  | nil => exact hevents
  | element id tag content rest ihContent ihRest =>
    obtain ⟨⟨hdistinct, hplain⟩, hcontent, hrest⟩ := hsound
    have hreadable := ihRest hrest hseparated.2 hevents hhead
    by_cases hnil : content = nil
    · subst hnil
      exact ⟨hdistinct, hplain, hreadable⟩
    · rw [events_element hnil, List.cons_append, List.append_assoc, List.cons_append]
      have hclose : Readable (tag.name :: names) (.endTag tag.name :: (rest.events ++ events)) :=
        ⟨trivial, hplain.name, rfl, hreadable⟩
      exact ⟨hdistinct, hplain, ihContent hcontent hseparated.1 hclose rfl⟩
  | leaf id l rest ih =>
    obtain ⟨hleaf, hrest⟩ := hsound
    have hreadable := ih hrest hseparated.2 hevents hhead
    cases l with
    | text content =>
      exact ⟨hleaf, trivial, head?_events (hseparated.1 rfl) hhead, hreadable⟩
    | comment content => exact ⟨hleaf, trivial, hreadable⟩
    | cdata content => exact ⟨hleaf, trivial, hreadable⟩

end Forest

end BuildProject
