import BuildProject.Proofs.Document.Nesting

/-!
# How many elements are open

Start tags open elements and end tags close them; a builder has as many elements on its stack as are
open (`Builder.length_stack_step`), and it has a root as soon as the outermost of them is closed
(`Builder.isSome_root?_step`).
-/

namespace BuildProject

open Markup

namespace Markup

/-- The number of elements that are open behind an event, where `depth` are open before it. -/
def Event.depthBehind (depth : Nat) : Event → Nat
  | .startTag _ => depth + 1
  | .endTag _ => depth - 1
  | _ => depth

/-- The number of elements that are open behind some events. -/
def depthBehind (depth : Nat) (events : List Event) : Nat :=
  events.foldl Event.depthBehind depth

/-- Whether an event ends the outermost element, where `depth` elements are open before it. -/
def Event.endsRoot (depth : Nat) : Event → Bool
  | .emptyTag _ => depth == 0
  | .endTag _ => depth == 1
  | _ => false

theorem Event.depthBehind_of_isIgnored {event : Event} (h : event.isIgnored = true) (depth : Nat) :
    event.depthBehind depth = depth := by
  cases event <;> first | exact absurd h Bool.false_ne_true | rfl

theorem Event.endsRoot_of_isIgnored {event : Event} (h : event.isIgnored = true) (depth : Nat) :
    event.endsRoot depth = false := by
  cases event <;> first | exact absurd h Bool.false_ne_true | rfl

/-- Behind the outermost element nothing is open. -/
theorem Event.depthBehind_of_endsRoot {event : Event} {depth : Nat}
    (h : event.endsRoot depth = true) : event.depthBehind depth = 0 := by
  cases event with
  | emptyTag tag => exact eq_of_beq h
  | endTag name =>
    rw [eq_of_beq h]
    rfl
  | declaration _ | instruction _ | doctype _ | comment _ | cdata _ | text _ | startTag _ =>
    exact absurd h Bool.false_ne_true

end Markup

theorem Leaf.depthBehind_event (l : Leaf) (depth : Nat) : l.event.depthBehind depth = depth := by
  cases l <;> rfl

theorem Leaf.endsRoot_event (l : Leaf) (depth : Nat) : l.event.endsRoot depth = false := by
  cases l <;> rfl

namespace Builder

/-! ## Steps -/

variable {b b' : Builder} {event : Event}

/-- **What taking in an event can do**: nothing but to note a declaration, to put a comment before
the root, to add a leaf, to open an element, to open and close one, or to close one. No comment
before the root is added as a leaf. -/
theorem step_cases (h : b.step event = .ok b') :
    (event.isIgnored = true ∧ ∃ declaration?, b' = { b with declaration? }) ∨
    (∃ content, event = .comment content ∧ b.stack = [] ∧ b.root? = none ∧
      b' = { b with prolog := b.prolog ++ [content] }) ∨
    (∃ l : Leaf, event = l.event ∧
      (b.stack = [] → b.root? = none → ∀ content, l ≠ .comment content) ∧ b' = b.addLeaf l) ∨
    (∃ tag, event = .startTag tag ∧ b' = b.opened tag) ∨
    (∃ tag, event = .emptyTag tag ∧ b' = (b.opened tag).closeElement) ∨
    ∃ name, event = .endTag name ∧ b' = b.closeElement := by
  cases event with
  | declaration d => exact .inl ⟨rfl, some d, (Except.ok.inj h).symm⟩
  | instruction content => exact .inl ⟨rfl, b.declaration?, (Except.ok.inj h).symm⟩
  | doctype content => exact .inl ⟨rfl, b.declaration?, (Except.ok.inj h).symm⟩
  | comment content =>
    rw [step] at h
    split at h
    · next houtside =>
      refine .inr (.inl ⟨content, rfl, ?_, ?_, (Except.ok.inj h).symm⟩)
      · exact List.isEmpty_iff.mp houtside.1
      · exact Option.isNone_iff_eq_none.mp houtside.2
    · next hinside =>
      refine .inr (.inr (.inl ⟨.comment content, rfl, fun hstack hroot => ?_,
        (Except.ok.inj h).symm⟩))
      exact absurd ⟨List.isEmpty_iff.mpr hstack, Option.isNone_iff_eq_none.mpr hroot⟩ hinside
  | cdata content =>
    exact .inr (.inr (.inl ⟨.cdata content, rfl, fun _ _ _ => by simp, (Except.ok.inj h).symm⟩))
  | text content =>
    exact .inr (.inr (.inl ⟨.text content, rfl, fun _ _ _ => by simp, (Except.ok.inj h).symm⟩))
  | startTag tag => exact .inr (.inr (.inr (.inl ⟨tag, rfl, (openElement_eq_ok.mp h).2⟩)))
  | emptyTag tag =>
    obtain ⟨b₁, hopen, rfl⟩ := map_eq_ok.mp h
    exact .inr (.inr (.inr (.inr (.inl ⟨tag, rfl, (openElement_eq_ok.mp hopen).2 ▸ rfl⟩))))
  | endTag name => exact .inr (.inr (.inr (.inr (.inr ⟨name, rfl, (Except.ok.inj h).symm⟩))))

/-! ## Depth -/

theorem root?_addLeaf (b : Builder) (l : Leaf) : (b.addLeaf l).root? = b.root? := by
  unfold addLeaf
  split <;> rfl

theorem length_stack_addLeaf (b : Builder) (l : Leaf) :
    (b.addLeaf l).stack.length = b.stack.length := by
  unfold addLeaf
  split
  · rfl
  · next hstack =>
    rw [hstack]
    rfl

theorem length_stack_closeElement (b : Builder) :
    b.closeElement.stack.length = b.stack.length - 1 := by
  obtain ⟨stack, root?, next, declaration?, prolog⟩ := b
  cases stack with
  | nil => rfl
  | cons top below => cases below <;> rfl

/-- The root is closed with the last element that is open. -/
theorem isSome_root?_closeElement (b : Builder) :
    b.closeElement.root?.isSome = (b.root?.isSome || b.stack.length == 1) := by
  obtain ⟨stack, root?, next, declaration?, prolog⟩ := b
  cases stack with
  | nil => simp [closeElement]
  | cons top below => cases below <;> simp [closeElement, addElement]

/-- **The stack is as deep as the elements that are open.** -/
theorem length_stack_step (h : b.step event = .ok b') :
    b'.stack.length = event.depthBehind b.stack.length := by
  rcases step_cases h with ⟨hignored, declaration?, rfl⟩ | ⟨content, rfl, -, -, rfl⟩ |
    ⟨l, rfl, -, rfl⟩ | ⟨tag, rfl, rfl⟩ | ⟨tag, rfl, rfl⟩ | ⟨name, rfl, rfl⟩
  · exact (Event.depthBehind_of_isIgnored hignored _).symm
  · rfl
  · rw [length_stack_addLeaf, Leaf.depthBehind_event]
  · rfl
  · exact length_stack_closeElement _
  · exact length_stack_closeElement b

/-- **There is a root from the event on that ends the outermost element.** -/
theorem isSome_root?_step (h : b.step event = .ok b') :
    b'.root?.isSome = (b.root?.isSome || event.endsRoot b.stack.length) := by
  rcases step_cases h with ⟨hignored, declaration?, rfl⟩ | ⟨content, rfl, -, -, rfl⟩ |
    ⟨l, rfl, -, rfl⟩ | ⟨tag, rfl, rfl⟩ | ⟨tag, rfl, rfl⟩ | ⟨name, rfl, rfl⟩
  · rw [Event.endsRoot_of_isIgnored hignored, Bool.or_false]
  · exact (Bool.or_false _).symm
  · rw [root?_addLeaf, Leaf.endsRoot_event, Bool.or_false]
  · exact (Bool.or_false _).symm
  · rw [isSome_root?_closeElement]
    simp [opened, Event.endsRoot]
  · exact isSome_root?_closeElement b

end Builder

end BuildProject
