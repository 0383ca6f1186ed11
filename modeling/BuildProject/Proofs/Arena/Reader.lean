import BuildProject.Proofs.Arena.Settle
import BuildProject.Proofs.Document.Events

/-!
# Reading into an arena

Reading a document into an arena and reading it as a tree go the same way, event by event: they fail
with the same error, or the arena stores what has been read of the tree. An element that is open is
in the table like any other node, and lists the open element inside it behind what it holds already
(`Arena.StoresOpen`); closing it changes nothing in the table.
-/

namespace BuildProject

open Markup

/-! ## Outcomes that agree -/

/-- A step has a result, and it is the outcome of the other step: the same error, or an answer that
is related to the other answer. -/
def Agrees {ε α β : Type} (R : α → β → Prop) (result : Option (Except ε α)) : Except ε β → Prop
  | .error fault => result = some (.error fault)
  | .ok b => ∃ a, result = some (.ok a) ∧ R a b

theorem Agrees.bind {ε α β α' β' : Type} {R : α → β → Prop} {R' : α' → β' → Prop}
    {first : ExceptT ε Option α} {other : Except ε β} {rest : α → ExceptT ε Option α'}
    {rest' : β → Except ε β'} (h : Agrees R first.run other)
    (hrest : ∀ a b, R a b → Agrees R' (rest a).run (rest' b)) :
    Agrees R' (first >>= rest).run (other >>= rest') := by
  have hbind {outcome : Except ε α} (hrun : first.run = some outcome) :
      (first >>= rest).run = (ExceptT.bindCont rest outcome : Option (Except ε α')) := by
    show (first.run >>= fun outcome => ExceptT.bindCont rest outcome) = _
    rw [hrun]
    rfl
  cases other with
  | error fault => exact hbind h
  | ok b =>
    obtain ⟨a, hrun, hrelated⟩ := h
    rw [hbind hrun]
    exact hrest a b hrelated

/-- The other answer may be looked at through a function. -/
theorem Agrees.map {ε α β β' : Type} {R : α → β' → Prop} {f : β → β'}
    {result : Option (Except ε α)} {other : Except ε β}
    (h : Agrees (fun a b => R a (f b)) result other) : Agrees R result (other.map f) := by
  cases other with
  | error fault => exact h
  | ok b => exact h

namespace Arena

/-! ## Open elements -/

/-- The elements that are open, innermost first, are in the table with what has been read of them;
the first lists the nodes `inner` behind that, and every other one the element that is open inside
it. -/
def StoresOpen (a : Arena) (inner : List NodeId) : List OpenElement → Prop
  | [] => True
  | top :: below =>
    a.node? top.id = some ⟨.element top.tag, below.head?.map OpenElement.id,
        top.content.topIds ++ inner⟩ ∧
      a.Stores (some top.id) top.content ∧ a.StoresOpen [top.id] below

/-- What has been read into an arena: the elements that are open, or the root once it is closed. -/
structure StoresRead (a : Arena) (b : Builder) : Prop where
  wellFormed : a.WellFormed
  next : a.next = b.next
  stack : a.StoresOpen [] b.stack
  root : ∀ tag content, b.root? = some (tag, content) →
    a.Stores none (.element rootId tag content .nil)

variable {a a' : Arena} {stack : List OpenElement} {inner : List NodeId}

/-- While there is no root yet, there are only open elements. -/
theorem StoresRead.of_open {b : Builder} (hwell : a.WellFormed) (hnext : a.next = b.next)
    (hstack : a.StoresOpen [] b.stack) (hroot : b.root? = none) : a.StoresRead b where
  wellFormed := hwell
  next := hnext
  stack := hstack
  root := fun _ _ hclosed => absurd (hroot.symm.trans hclosed) (Option.some_ne_none _).symm

/-- Open elements are stored wherever their nodes are the same. -/
theorem StoresOpen.frame (h : a.StoresOpen inner stack)
    (hsame : ∀ e ∈ stack, ∀ id ∈ e.id :: e.content.nodeIds, a'.node? id = a.node? id) :
    a'.StoresOpen inner stack := by
  induction stack generalizing inner with
  | nil => trivial
  | cons top below ih =>
    obtain ⟨hnode, hcontent, hbelow⟩ := h
    obtain ⟨hown, hothers⟩ := List.forall_mem_cons.mp hsame
    obtain ⟨hid, hinside⟩ := List.forall_mem_cons.mp hown
    exact ⟨hid.trans hnode, hcontent.frame hinside, ih hbelow hothers⟩

/-- A new node in the innermost element that is open: the element lists it at the end, and nothing
else is another. -/
theorem StoresRead.gains {b : Builder} (h : a.StoresRead b) (hordered : b.Ordered)
    {top : OpenElement} {below : List OpenElement} (hstack : b.stack = top :: below)
    (kind : NodeKind) (hdistinct : ∀ tag, kind.tag? = some tag → tag.Distinct) :
    ∃ a', (a.create kind).appendChild top.id a.next = some a' ∧ a'.WellFormed ∧
      a'.next = b.next + 1 ∧ a'.node? b.next = some ⟨kind, some top.id, []⟩ ∧
      a'.node? top.id = some ⟨.element top.tag, below.head?.map OpenElement.id,
        top.content.topIds ++ [b.next]⟩ ∧
      a'.Stores (some top.id) top.content ∧ a'.StoresOpen [top.id] below := by
  have hopen := h.stack
  rw [hstack] at hopen
  obtain ⟨hnode, hcontent, hbelow⟩ := hopen
  have hchildren := children_of_node? hnode
  rw [List.append_nil] at hchildren
  obtain ⟨a', happend, hchange⟩ := exists_appendChild (lt_next_of_node? hnode) kind
  have hwell := h.wellFormed.gains hchange (List.append_nil _).symm (tag?_of_node? hnode) hdistinct
  -- the identities of the open elements are distinct, and none of them is the next one
  have hnodup : (top.id :: (top.content.nodeIds ++
      below.flatMap fun e => e.id :: e.content.nodeIds)).Nodup := by
    have hids := List.nodup_append'.mp hordered.nodup |>.1
    rwa [hstack, List.flatMap_cons, List.cons_append] at hids
  have hlt : ∀ id ∈ top.id :: (top.content.nodeIds ++
      below.flatMap fun e => e.id :: e.content.nodeIds), id < a.next := by
    intro id hid
    refine h.next ▸ hordered.lt_next id (List.mem_append_left _ ?_)
    rwa [hstack, List.flatMap_cons, List.cons_append]
  obtain ⟨hown, -⟩ := List.nodup_cons.mp hnodup
  have hother {id : NodeId} (hid : id ∈ top.content.nodeIds ++
      below.flatMap fun e => e.id :: e.content.nodeIds) : a'.node? id = a.node? id := by
    have hne : id ≠ top.id := fun heq => hown (heq ▸ hid)
    rw [hchange.node?_old id (Nat.ne_of_lt (hlt id (List.mem_cons_of_mem _ hid))), if_neg hne]
  refine ⟨a', happend, hwell, h.next ▸ hchange.next, h.next ▸ hchange.node?_new, ?_,
    hcontent.frame fun id hid => hother (List.mem_append_left _ hid),
    hbelow.frame fun e he id hid =>
      hother (List.mem_append_right _ (List.mem_flatMap.mpr ⟨e, he, hid⟩))⟩
  have hnew : top.id ≠ a.next := Nat.ne_of_lt (lt_next_of_node? hnode)
  rw [hchange.node?_old top.id hnew, if_pos rfl, hnode, hchildren, ← h.next]
  rfl

end Arena

namespace ArenaBuilder

/-- What has been read into an arena is what has been read as a tree. -/
structure Represents (s : ArenaBuilder) (b : Builder) : Prop where
  ordered : b.Ordered
  stack : s.stack = b.stack.map OpenElement.id
  declaration? : s.declaration? = b.declaration?
  prolog : s.prolog = b.prolog
  arena?_eq_none_iff : s.arena? = none ↔ b.stack = [] ∧ b.root? = none
  stores : ∀ a, s.arena? = some a → a.StoresRead b

variable {s : ArenaBuilder} {b : Builder}

theorem represents_start : start.Represents Builder.start where
  ordered := Builder.ordered_start
  stack := rfl
  declaration? := rfl
  prolog := rfl
  arena?_eq_none_iff := iff_of_true rfl ⟨rfl, rfl⟩
  stores := fun _ h => absurd h (Option.some_ne_none _).symm

namespace Represents

/-- While elements are open there is an arena, and no root yet. -/
theorem exists_arena (h : s.Represents b) {top : OpenElement} {below : List OpenElement}
    (hstack : b.stack = top :: below) : b.root? = none ∧ ∃ a, s.arena? = some a := by
  have hne : b.stack ≠ [] := by simp [hstack]
  refine ⟨(h.ordered.root_open hne).1, Option.ne_none_iff_exists'.mp fun hnone => ?_⟩
  exact hne (h.arena?_eq_none_iff.mp hnone).1

/-- There is an arena behind the root, too. -/
theorem exists_arena_of_root (h : s.Represents b) {root : Tag × Forest}
    (hroot : b.root? = some root) : ∃ a, s.arena? = some a := by
  refine Option.ne_none_iff_exists'.mp fun hnone => ?_
  rw [h.arena?_eq_none_iff, hroot] at hnone
  exact Option.some_ne_none root hnone.2

/-- A leaf is added to the innermost element that is open, or dropped. -/
theorem addLeaf (h : s.Represents b) (l : Leaf) :
    ∃ s', s.addLeaf l = some s' ∧ s'.Represents (b.addLeaf l) := by
  have hordered := h.ordered.addLeaf l
  cases hstack : b.stack with
  | nil =>
    have hsame : b.addLeaf l = b := by rw [Builder.addLeaf, hstack]
    rw [hsame]
    refine ⟨s, ?_, h⟩
    rw [ArenaBuilder.addLeaf, h.stack, hstack, List.map_nil]
    cases s.arena? <;> rfl
  | cons top below =>
    obtain ⟨hroot, a, harena⟩ := h.exists_arena hstack
    obtain ⟨a', happend, hwell, hnext, hnew, htop, hcontent, hbelow⟩ :=
      (h.stores a harena).gains h.ordered hstack (.leaf l) (Arena.Represents.distinct_leaf l)
    have hadded : b.addLeaf l = { b with
        stack := { top with content := top.content ++ .ofLeaf b.next l } :: below
        next := b.next + 1 } := by
      rw [Builder.addLeaf, hstack]
    have hleaf : a'.Stores (some top.id) (.ofLeaf b.next l) := ⟨hnew, trivial⟩
    rw [hadded] at hordered ⊢
    refine ⟨{ s with arena? := some a' }, ?_, hordered, ?_, h.declaration?, h.prolog, ?_, ?_⟩
    · rw [ArenaBuilder.addLeaf, harena, h.stack, hstack, List.map_cons]
      dsimp only
      rw [happend]
      rfl
    · rw [h.stack, hstack, List.map_cons, List.map_cons]
    · simp
    · intro _ hsome
      obtain rfl := Option.some.inj hsome
      refine .of_open hwell hnext
        ⟨?_, Arena.Stores.append_iff.mpr ⟨hcontent, hleaf⟩, hbelow⟩ hroot
      rw [htop, Forest.topIds_append, List.append_nil]
      rfl

/-- An element that is opened in both is the innermost one in both. -/
theorem opened (h : s.Represents b) {tag : Tag} (hopen : b.openElement tag = .ok (b.opened tag))
    {a : Arena} (ha : a.StoresRead (b.opened tag)) :
    ArenaBuilder.Represents { s with arena? := some a, stack := b.next :: s.stack }
      (b.opened tag) where
  ordered := h.ordered.openElement hopen
  stack := by rw [h.stack, Builder.opened, List.map_cons]
  declaration? := h.declaration?
  prolog := h.prolog
  arena?_eq_none_iff := by simp [Builder.opened]
  stores := fun _ hsome => Option.some.inj hsome ▸ ha

/-- What is answered for an element that has been added: the element is not on the stack of the
arena yet, and once it is, the same has been read. -/
def Opens (answer : NodeId × ArenaBuilder) (b : Builder) : Prop :=
  ArenaBuilder.Represents { answer.2 with stack := answer.1 :: answer.2.stack } b

/-- The first element is the root, and has to be a project. -/
theorem addElement_first (h : s.Represents b) (hstack : b.stack = []) (hroot : b.root? = none)
    {tag : Tag} (hdistinct : tag.Distinct) :
    Agrees Opens (s.addElement tag).run (b.openElement tag) := by
  have hnone := h.arena?_eq_none_iff.mpr ⟨hstack, hroot⟩
  by_cases hname : tag.name = projectElement
  · have hopen : b.openElement tag = .ok (b.opened tag) :=
      Builder.openElement_eq_ok.mpr ⟨fun _ => ⟨hroot, hname⟩, rfl⟩
    have hnext : b.next = rootId := h.ordered.next_of_start hstack hroot
    have hread : (Arena.ofTag tag).StoresRead (b.opened tag) := by
      refine .of_open (Arena.wellFormed_ofTag hdistinct) ?_ ?_ hroot
      · rw [Builder.opened, hnext]
        rfl
      · rw [Builder.opened, hstack, hnext]
        exact ⟨rfl, trivial, trivial⟩
    have hopened := h.opened hopen hread
    rw [hnext] at hopened
    rw [hopen]
    refine ⟨(rootId, { s with arena? := some (.ofTag tag) }), ?_, hopened⟩
    rw [ArenaBuilder.addElement, hnone]
    simp [hname]
  · have hopen : b.openElement tag = .error (.invalidRoot tag.name) := by
      simp [Builder.openElement, hstack, hroot, hname]
    rw [hopen, ArenaBuilder.addElement, hnone]
    simp [Agrees, hname]

/-- An element inside another is a new node of the arena. -/
theorem addElement_inside (h : s.Represents b) {top : OpenElement} {below : List OpenElement}
    (hstack : b.stack = top :: below) {tag : Tag} (hdistinct : tag.Distinct) :
    Agrees Opens (s.addElement tag).run (b.openElement tag) := by
  obtain ⟨hroot, a, harena⟩ := h.exists_arena hstack
  have hopen : b.openElement tag = .ok (b.opened tag) :=
    Builder.openElement_eq_ok.mpr ⟨fun hnil => absurd hnil (by simp [hstack]), rfl⟩
  obtain ⟨a', happend, hwell, hnext, hnew, htop, hcontent, hbelow⟩ :=
    (h.stores a harena).gains h.ordered hstack (.element tag) fun own hown =>
      Option.some.inj hown ▸ hdistinct
  have hread : a'.StoresRead (b.opened tag) := by
    refine .of_open hwell hnext ?_ hroot
    rw [Builder.opened, hstack]
    exact ⟨hnew, trivial, htop, hcontent, hbelow⟩
  rw [hopen]
  refine ⟨(b.next, { s with arena? := some a' }), ?_, h.opened hopen hread⟩
  rw [ArenaBuilder.addElement, harena, h.stack, hstack, List.map_cons]
  dsimp only
  rw [happend, (h.stores a harena).next]
  rfl

/-- An element is opened, or there is an error. -/
theorem addElement (h : s.Represents b) {tag : Tag} (hdistinct : tag.Distinct) :
    Agrees Opens (s.addElement tag).run (b.openElement tag) := by
  cases hstack : b.stack with
  | cons top below => exact h.addElement_inside hstack hdistinct
  | nil =>
    cases hroot : b.root? with
    | none => exact h.addElement_first hstack hroot hdistinct
    | some root =>
      obtain ⟨a, harena⟩ := h.exists_arena_of_root hroot
      have hopen : b.openElement tag = .error (.secondRoot tag.name) := by
        simp [Builder.openElement, hstack, hroot]
      rw [hopen, ArenaBuilder.addElement, harena, h.stack, hstack]
      rfl

/-- Closing an element is taking it from the stack. -/
theorem closeElement (h : s.Represents b) :
    { s with stack := s.stack.tail : ArenaBuilder }.Represents b.closeElement := by
  have hordered := h.ordered.closeElement
  cases hstack : b.stack with
  | nil =>
    have hsame : b.closeElement = b := by rw [Builder.closeElement, hstack]
    rw [hsame]
    refine ⟨h.ordered, ?_, h.declaration?, h.prolog, h.arena?_eq_none_iff, h.stores⟩
    rw [h.stack, hstack]
    rfl
  | cons top below =>
    obtain ⟨hroot, a, harena⟩ := h.exists_arena hstack
    obtain ⟨hwell, hnext, hopen, -⟩ := h.stores a harena
    rw [hstack] at hopen
    obtain ⟨hnode, hcontent, hbelow⟩ := hopen
    rw [List.append_nil] at hnode
    cases below with
    | nil =>
      have hclosed : b.closeElement =
          { b with stack := [], root? := some (top.tag, top.content) } := by
        rw [Builder.closeElement, hstack]
        rfl
      have hid : top.id = rootId := by
        have hlast := (h.ordered.root_open (by simp [hstack])).2
        simpa [hstack] using hlast
      rw [hclosed] at hordered ⊢
      refine ⟨hordered, ?_, h.declaration?, h.prolog, by simp [harena], ?_⟩
      · rw [h.stack, hstack]
        rfl
      · intro _ hsome
        obtain rfl := Option.some.inj (harena.symm.trans hsome)
        refine ⟨hwell, hnext, trivial, ?_⟩
        intro _ _ hroot
        obtain ⟨rfl, rfl⟩ := Prod.mk.inj (Option.some.inj hroot)
        rw [hid] at hnode hcontent
        exact ⟨hnode, hcontent, trivial⟩
    | cons around below =>
      obtain ⟨haround, hinside, hothers⟩ := hbelow
      have hclosed : b.closeElement = { b with
          stack := { around with
            content := around.content.push ⟨top.id, top.tag, top.content⟩ } :: below } := by
        rw [Builder.closeElement, hstack]
        rfl
      rw [hclosed] at hordered ⊢
      refine ⟨hordered, ?_, h.declaration?, h.prolog, by simp [harena], ?_⟩
      · rw [h.stack, hstack]
        rfl
      · intro _ hsome
        obtain rfl := Option.some.inj (harena.symm.trans hsome)
        refine .of_open hwell hnext ⟨?_, ?_, hothers⟩ hroot
        · rw [haround, Forest.push, Forest.topIds_append, List.append_nil]
          rfl
        · exact Arena.Stores.append_iff.mpr ⟨hinside, hnode, hcontent, trivial⟩

/-- What stands before the root is kept beside the arena. -/
theorem withFront (h : s.Represents b) (declaration? : Option Declaration) (prolog : List String) :
    ArenaBuilder.Represents { s with declaration?, prolog } { b with declaration?, prolog } where
  ordered := ⟨h.ordered.nodup, h.ordered.lt_next, h.ordered.next_of_start, h.ordered.root_open⟩
  stack := h.stack
  declaration? := rfl
  prolog := rfl
  arena?_eq_none_iff := h.arena?_eq_none_iff
  stores := fun a ha =>
    ⟨(h.stores a ha).wellFormed, (h.stores a ha).next, (h.stores a ha).stack, (h.stores a ha).root⟩

/-- A comment is kept before the root and inside it, and dropped behind it. -/
theorem step_comment (h : s.Represents b) (content : String) :
    Agrees Represents (s.step (.comment content)).run (b.step (.comment content)) := by
  cases hstack : b.stack with
  | nil =>
    have hempty : s.stack = [] := by rw [h.stack, hstack, List.map_nil]
    cases hroot : b.root? with
    | none =>
      have hnone := h.arena?_eq_none_iff.mpr ⟨hstack, hroot⟩
      have hstep : b.step (.comment content) =
          .ok { b with prolog := b.prolog ++ [content] } := by
        simp [Builder.step, hstack, hroot]
      rw [hstep, ← h.prolog, ← h.declaration?]
      refine ⟨{ s with prolog := s.prolog ++ [content] }, ?_, h.withFront s.declaration? _⟩
      simp [ArenaBuilder.step, hempty, hnone]
    | some root =>
      obtain ⟨a, harena⟩ := h.exists_arena_of_root hroot
      have hstep : b.step (.comment content) = .ok b := by
        simp [Builder.step, hstack, hroot, Builder.addLeaf]
      rw [hstep]
      exact ⟨s, by simp [ArenaBuilder.step, hempty, harena], h⟩
  | cons top below =>
    have hopen : s.stack = top.id :: below.map OpenElement.id := by
      rw [h.stack, hstack, List.map_cons]
    have hstep : b.step (.comment content) = .ok (b.addLeaf (.comment content)) := by
      simp [Builder.step, hstack]
    obtain ⟨s', hadd, hs'⟩ := h.addLeaf (.comment content)
    rw [hstep, ArenaBuilder.step, hadd, hopen]
    exact ⟨s', rfl, hs'⟩

/-- **Every event** is taken in alike. -/
theorem step (h : s.Represents b) {event : Event} (hevent : event.Sound) :
    Agrees Represents (s.step event).run (b.step event) := by
  cases event with
  | declaration declaration =>
    have hfront := h.withFront (some declaration) s.prolog
    exact ⟨_, rfl, h.prolog ▸ hfront⟩
  | instruction content => exact ⟨s, rfl, h⟩
  | doctype content => exact ⟨s, rfl, h⟩
  | comment content => exact h.step_comment content
  | cdata content =>
    obtain ⟨s', hadd, hs'⟩ := h.addLeaf (.cdata content)
    rw [ArenaBuilder.step, hadd]
    exact ⟨s', rfl, hs'⟩
  | text content =>
    obtain ⟨s', hadd, hs'⟩ := h.addLeaf (.text content)
    rw [ArenaBuilder.step, hadd]
    exact ⟨s', rfl, hs'⟩
  | startTag tag =>
    rw [Builder.step, ← bind_pure (b.openElement tag)]
    exact (h.addElement hevent).bind fun _ _ hopened => ⟨_, rfl, hopened⟩
  | emptyTag tag =>
    refine Agrees.map ?_
    rw [← bind_pure (b.openElement tag)]
    exact (h.addElement hevent).bind fun _ _ hopened => ⟨_, rfl, hopened.closeElement⟩
  | endTag name => exact ⟨_, rfl, h.closeElement⟩

/-- And so are all events, one after the other. -/
theorem run (h : s.Represents b) {events : List Event} (hevents : ∀ event ∈ events, event.Sound) :
    Agrees Represents (s.run events).run (b.run events) := by
  induction events generalizing s b with
  | nil => exact ⟨s, rfl, h⟩
  | cons event events ih =>
    obtain ⟨hevent, hothers⟩ := List.forall_mem_cons.mp hevents
    exact (h.step hevent).bind fun _ _ hnext => ih hnext hothers

end Represents

end ArenaBuilder

/-! ## Whole documents -/

namespace ArenaDocument

/-- A document in an arena and one with a tree are the same document. -/
structure Represents (d : ArenaDocument) (t : Document) : Prop where
  arena : d.arena.Represents t.tree
  declaration? : d.declaration? = t.declaration?
  prolog : d.prolog = t.prolog
  id : d.id = t.id
  path? : d.path? = t.path?
  revision : d.revision = t.revision

theorem represents_empty (id : DocumentId) : (empty id).Represents (Document.empty id) := by
  have hdistinct : Document.emptyContent.tree.tag.Distinct := by
    unfold Tag.Distinct
    decide
  exact ⟨⟨Arena.wellFormed_ofTag hdistinct, ⟨rfl, trivial, trivial⟩, rfl, Tree.wellFormed_ofTag _⟩,
    rfl, rfl, rfl, rfl, rfl⟩

/-- The tree that has been read, before indentation is dropped. -/
theorem represents_of_read {s : ArenaBuilder} {b : Builder} (h : s.Represents b)
    (hstack : b.stack = []) {tag : Tag} {content : Forest} (hroot : b.root? = some (tag, content)) :
    ∃ a, s.arena? = some a ∧ a.Represents ⟨tag, content, b.next⟩ := by
  obtain ⟨a, harena⟩ := h.exists_arena_of_root hroot
  have hread := h.stores a harena
  have hids : b.nodeIds = rootId :: content.nodeIds := by
    simp [Builder.nodeIds, hstack, hroot]
  have hnodup := h.ordered.nodup
  have hlt := h.ordered.lt_next
  rw [hids] at hnodup hlt
  exact ⟨a, harena, hread.wellFormed, hread.root tag content hroot, hread.next, hnodup, hlt⟩

theorem agrees_ofEvents (id : DocumentId) {stream : EventStream}
    (hevents : ∀ event ∈ stream.events, event.Sound) :
    Agrees Represents (ofEvents id stream).run
      ((DocumentContent.ofEvents stream).map (Document.ofContent id)) := by
  rw [ofEvents, DocumentContent.ofEvents]
  refine Agrees.map ((ArenaBuilder.represents_start.run hevents).bind fun s b h => ?_)
  cases stream.fault? with
  | some fault => rfl
  | none =>
    cases hstack : b.stack with
    | cons top below =>
      have hopen : s.stack = top.id :: below.map OpenElement.id := by
        rw [h.stack, hstack, List.map_cons]
      simp only [hopen]
      rfl
    | nil =>
      have hclosed : s.stack = [] := by rw [h.stack, hstack, List.map_nil]
      cases hroot : b.root? with
      | none =>
        have hnone := h.arena?_eq_none_iff.mpr ⟨hstack, hroot⟩
        simp only [hclosed, hnone]
        rfl
      | some root =>
        obtain ⟨tag, content⟩ := root
        obtain ⟨a, harena, ha⟩ := represents_of_read h hstack hroot
        obtain ⟨a', hsettle, ha'⟩ := ha.settle
        simp only [hclosed, harena, hsettle]
        exact ⟨_, rfl, ha', h.declaration?, h.prolog, rfl, rfl, rfl⟩

/-- **Reading a text** into an arena has the outcome of reading it as a tree: the same error, or the
same document. -/
theorem agrees_parse (id : DocumentId) (text : String) :
    Agrees Represents (parse id text).run (Document.parse id text) :=
  agrees_ofEvents id fun _ hevent => sound_of_mem_scanFrom hevent

end ArenaDocument

end BuildProject
