import BuildProject.Document.Reader
import BuildProject.Proofs.Action
import BuildProject.Proofs.Tree.WellFormed

/-!
# Well-formed documents

The tree of a document is well-formed when it has been read (`wellFormed_of_parse`). This is an
invariant of the elements that are open (`Builder.Ordered`): the outermost has the identity of the
root, and no identity has been handed out twice.
-/

namespace BuildProject

open Markup
open scoped List

/-- The tree of a document is well-formed. -/
def Document.WellFormed (d : Document) : Prop :=
  d.tree.WellFormed

/-! ## Reading -/

namespace Builder

/-- The builder with one more element open. -/
def opened (b : Builder) (tag : Tag) : Builder :=
  { b with stack := ⟨b.next, tag, .nil⟩ :: b.stack, next := b.next + 1 }

/-- An element is opened inside another, or as the first one of all if it is a project. -/
theorem openElement_eq_ok {b b' : Builder} {tag : Tag} : b.openElement tag = .ok b' ↔
    (b.stack = [] → b.root? = none ∧ tag.name = projectElement) ∧ b' = b.opened tag := by
  obtain ⟨stack, root?, next, declaration?, prolog⟩ := b
  rw [@eq_comm _ b']
  cases stack with
  | cons top below => simp [openElement, opened]
  | nil =>
    cases root? with
    | some root => simp [openElement]
    | none => by_cases hname : tag.name = projectElement <;> simp [openElement, opened, hname]

/-- The identities that have been handed out and are still there: of the elements that are open,
with what they hold, and of the root once it is closed. -/
def nodeIds (b : Builder) : List NodeId :=
  b.stack.flatMap (fun e => e.id :: e.content.nodeIds) ++
    b.root?.elim [] fun (_, content) => rootId :: content.nodeIds

/-- What holds of a builder after every event. -/
structure Ordered (b : Builder) : Prop where
  nodup : b.nodeIds.Nodup
  lt_next : ∀ id ∈ b.nodeIds, id < b.next
  /-- Nothing has been handed out before the root is opened. -/
  next_of_start : b.stack = [] → b.root? = none → b.next = rootId
  /-- While elements are open the root is one of them: the outermost. -/
  root_open : b.stack ≠ [] → b.root? = none ∧ b.stack.getLast?.map OpenElement.id = some rootId

theorem ordered_start : start.Ordered where
  nodup := by simp [start, nodeIds]
  lt_next := by simp [start, nodeIds]
  next_of_start := fun _ _ => rfl
  root_open := fun h => absurd rfl h

/-- No identity occurs twice if the same ones are there as before. -/
theorem Ordered.distinct_of_perm {b b' : Builder} (h : b.Ordered) (hperm : b'.nodeIds ~ b.nodeIds)
    (hnext : b'.next = b.next) : b'.nodeIds.Nodup ∧ ∀ id ∈ b'.nodeIds, id < b'.next := by
  refine ⟨hperm.nodup_iff.mpr h.nodup, fun id hid => ?_⟩
  rw [hnext]
  exact h.lt_next id (hperm.subset hid)

/-- No identity occurs twice if only the next one has been added. -/
theorem Ordered.distinct_of_perm_cons {b b' : Builder} (h : b.Ordered)
    (hperm : b'.nodeIds ~ b.next :: b.nodeIds) (hnext : b'.next = b.next + 1) :
    b'.nodeIds.Nodup ∧ ∀ id ∈ b'.nodeIds, id < b'.next := by
  have hnew : b.next ∉ b.nodeIds := fun hmem => absurd (h.lt_next _ hmem) (Nat.lt_irrefl _)
  refine ⟨hperm.nodup_iff.mpr (List.nodup_cons.mpr ⟨hnew, h.nodup⟩), fun id hid => ?_⟩
  rw [hnext]
  rcases List.mem_cons.mp (hperm.subset hid) with rfl | hid
  · exact Nat.lt_succ_self _
  · exact Nat.lt_succ_of_lt (h.lt_next id hid)

theorem Ordered.addLeaf {b : Builder} (h : b.Ordered) (l : Leaf) : (b.addLeaf l).Ordered := by
  obtain ⟨stack, root?, next, declaration?, prolog⟩ := b
  cases stack with
  | nil => exact h
  | cons top below =>
    obtain ⟨hroot, hlast⟩ := h.root_open (by simp)
    have hroot : root? = none := hroot
    subst hroot
    have hperm : nodeIds ⟨{ top with content := top.content ++ .ofLeaf next l } :: below, none,
        next + 1, declaration?, prolog⟩ ~ next :: nodeIds ⟨top :: below, none, next, declaration?,
        prolog⟩ := by
      simp only [nodeIds, List.flatMap_cons, Forest.nodeIds_append, Forest.ofLeaf, Forest.nodeIds,
        Option.elim_none, List.append_nil, List.append_assoc, List.cons_append]
      have hmiddle :
          top.content.nodeIds ++ next :: below.flatMap (fun e => e.id :: e.content.nodeIds)
          ~ next :: (top.content.nodeIds ++ below.flatMap fun e => e.id :: e.content.nodeIds) :=
        List.perm_middle
      exact (hmiddle.cons top.id).trans (List.Perm.swap _ _ _)
    obtain ⟨hnodup, hlt⟩ := h.distinct_of_perm_cons hperm rfl
    refine ⟨hnodup, hlt, fun hstack => absurd hstack (List.cons_ne_nil _ _), fun _ => ⟨rfl, ?_⟩⟩
    rw [← hlast]
    cases below <;> rfl

theorem Ordered.closeElement {b : Builder} (h : b.Ordered) : b.closeElement.Ordered := by
  obtain ⟨stack, root?, next, declaration?, prolog⟩ := b
  cases stack with
  | nil => exact h
  | cons top below =>
    obtain ⟨hroot, hlast⟩ := h.root_open (by simp)
    have hroot : root? = none := hroot
    subst hroot
    cases below with
    | nil =>
      have htop : top.id = rootId := by simpa using hlast
      have hperm : nodeIds ⟨[], some (top.tag, top.content), next, declaration?, prolog⟩
          ~ nodeIds ⟨[top], none, next, declaration?, prolog⟩ := by
        simp [nodeIds, htop]
      obtain ⟨hnodup, hlt⟩ := h.distinct_of_perm hperm rfl
      exact ⟨hnodup, hlt, fun _ hnone => absurd hnone (Option.some_ne_none _),
        fun hne => absurd rfl hne⟩
    | cons around below =>
      have hperm : nodeIds ⟨{ around with content := around.content.push ⟨top.id, top.tag,
          top.content⟩ } :: below, none, next, declaration?, prolog⟩
          ~ nodeIds ⟨top :: around :: below, none, next, declaration?, prolog⟩ := by
        simp only [nodeIds, List.flatMap_cons, Forest.push, Forest.nodeIds_append,
          Forest.ofElement, Forest.nodeIds, Option.elim_none, List.append_nil]
        rw [← List.cons_append, List.append_assoc, ← List.append_assoc (top.id :: _)]
        rw [← List.append_assoc]
        exact List.perm_append_comm.append_right _
      obtain ⟨hnodup, hlt⟩ := h.distinct_of_perm hperm rfl
      refine ⟨hnodup, hlt, fun hstack => absurd hstack (List.cons_ne_nil _ _), fun _ => ⟨rfl, ?_⟩⟩
      rw [← hlast]
      cases below <;> rfl

theorem Ordered.openElement {b b' : Builder} (h : b.Ordered) {tag : Tag}
    (hopen : b.openElement tag = .ok b') : b'.Ordered := by
  obtain ⟨hfirst, rfl⟩ := openElement_eq_ok.mp hopen
  obtain ⟨stack, root?, next, declaration?, prolog⟩ := b
  have hroot : root? = none := by
    cases stack with
    | nil => exact (hfirst rfl).1
    | cons top below => exact (h.root_open (by simp)).1
  subst hroot
  have hperm : nodeIds ⟨⟨next, tag, .nil⟩ :: stack, none, next + 1, declaration?, prolog⟩
      ~ next :: nodeIds ⟨stack, none, next, declaration?, prolog⟩ := by
    simp [nodeIds, Forest.nodeIds]
  obtain ⟨hnodup, hlt⟩ := h.distinct_of_perm_cons hperm rfl
  refine ⟨hnodup, hlt, fun hstack => absurd hstack (List.cons_ne_nil _ _), fun _ => ⟨rfl, ?_⟩⟩
  cases stack with
  | nil => simpa [opened] using h.next_of_start rfl rfl
  | cons top below => exact (h.root_open (by simp)).2

/-- Every event keeps identities in order. -/
theorem Ordered.step {b b' : Builder} (h : b.Ordered) {event : Event}
    (hstep : b.step event = .ok b') : b'.Ordered := by
  cases event with
  | declaration declaration =>
    rw [Builder.step, Except.ok.injEq] at hstep
    exact hstep ▸ ⟨h.nodup, h.lt_next, h.next_of_start, h.root_open⟩
  | instruction content => exact (Except.ok.inj hstep) ▸ h
  | doctype content => exact (Except.ok.inj hstep) ▸ h
  | comment content =>
    rw [Builder.step] at hstep
    split at hstep
    · exact (Except.ok.inj hstep) ▸ ⟨h.nodup, h.lt_next, h.next_of_start, h.root_open⟩
    · exact (Except.ok.inj hstep) ▸ h.addLeaf _
  | cdata content => exact (Except.ok.inj hstep) ▸ h.addLeaf _
  | text content => exact (Except.ok.inj hstep) ▸ h.addLeaf _
  | startTag tag => exact h.openElement hstep
  | emptyTag tag =>
    obtain ⟨opened, hopen, rfl⟩ := map_eq_ok.mp hstep
    exact (h.openElement hopen).closeElement
  | endTag name => exact (Except.ok.inj hstep) ▸ h.closeElement

theorem Ordered.run {b b' : Builder} (h : b.Ordered) {events : List Event}
    (hrun : b.run events = .ok b') : b'.Ordered := by
  induction events generalizing b with
  | nil => exact (Except.ok.inj hrun) ▸ h
  | cons event events ih =>
    rw [Builder.run] at hrun
    obtain ⟨b₁, hstep, hrun⟩ := bind_eq_ok.mp hrun
    exact ih (h.step hstep) hrun

end Builder

/-- Dropping indentation takes nodes out and leaves the others in their order. -/
theorem Forest.nodeIds_settle_sublist (indented : Bool) (f : Forest) :
    (f.settle indented).nodeIds.Sublist f.nodeIds := by
  induction f generalizing indented with
  | nil => exact .slnil
  | element id tag content rest ihContent ihRest =>
    exact .cons_cons id ((ihContent _).append (ihRest _))
  | leaf id l rest ih =>
    cases l with
    | text content =>
      rw [settle]
      split
      · exact .cons id (ih _)
      · exact .cons_cons id (ih _)
    | comment content => exact .cons_cons id (ih _)
    | cdata content => exact .cons_cons id (ih _)

/-- A document is read if there is no fault, every element is closed and there is a root. -/
theorem DocumentContent.ofEvents_eq_ok {stream : EventStream} {content : DocumentContent} :
    DocumentContent.ofEvents stream = .ok content ↔
      ∃ built tag inside, Builder.start.run stream.events = .ok built ∧ stream.fault? = none ∧
        built.stack = [] ∧ built.root? = some (tag, inside) ∧
        content = ⟨⟨tag, inside.settle inside.isIndented, built.next⟩, built.declaration?,
          built.prolog⟩ := by
  unfold DocumentContent.ofEvents
  cases hrun : Builder.start.run stream.events with
  | error fault => simp [bind, Except.bind]
  | ok built =>
    cases hfault : stream.fault? with
    | some fault => simp [bind, Except.bind, throw, throwThe, MonadExceptOf.throw]
    | none =>
      cases hstack : built.stack with
      | cons top below =>
        simp [bind, Except.bind, hstack, throw, throwThe, MonadExceptOf.throw]
      | nil =>
        cases hroot : built.root? with
        | none => simp [bind, Except.bind, hstack, hroot, throw, throwThe, MonadExceptOf.throw]
        | some root =>
          obtain ⟨tag, inside⟩ := root
          simp [bind, Except.bind, hstack, hroot, pure, Except.pure, eq_comm]

/-- **A document that has been read is well-formed.** -/
theorem DocumentContent.wellFormed_of_parse {text : String} {content : DocumentContent}
    (h : DocumentContent.parse text = .ok content) : content.tree.WellFormed := by
  obtain ⟨built, tag, inside, hrun, -, hstack, hroot, rfl⟩ := ofEvents_eq_ok.mp h
  have hordered := Builder.ordered_start.run hrun
  have hids : built.nodeIds = rootId :: inside.nodeIds := by
    simp [Builder.nodeIds, hstack, hroot]
  have hsublist : (rootId :: (inside.settle inside.isIndented).nodeIds).Sublist
      (rootId :: inside.nodeIds) :=
    (Forest.nodeIds_settle_sublist _ inside).cons_cons rootId
  constructor
  · exact hsublist.nodup (hids ▸ hordered.nodup)
  · intro id hid
    exact hordered.lt_next id (hids ▸ hsublist.subset hid)

end BuildProject
