import BuildProject.Proofs.Document.Settle

/-!
# Elements that are found again

Two forests that differ in the identities of their nodes only have the same elements, compared by
depth, tag and text (`Forest.summary`). A settled forest that has been laid out and settled has the
elements it had before, each as `Forest.Kept` says (`Forest.kept_lay`).
-/

namespace BuildProject

open Markup Text

namespace Forest

/-! ## Up to identities -/

/-- What is compared of an element: its depth, its tag and its text. -/
def summary (entry : Nat × Element) : Nat × Tag × String :=
  (entry.1, entry.2.tag, entry.2.text)

@[simp] theorem hasStructure_erase (f : Forest) : f.erase.hasStructure = f.hasStructure := by
  induction f with
  | nil => rfl
  | element id tag content rest _ _ => rfl
  | leaf id l rest ih =>
    cases l with
    | text content => exact ih
    | comment content => rfl
    | cdata content => exact ih

@[simp] theorem hasWords_erase (f : Forest) : f.erase.hasWords = f.hasWords := by
  induction f with
  | nil => rfl
  | element id tag content rest _ ih => exact ih
  | leaf id l rest ih =>
    cases l with
    | text content => exact congrArg (!isAllBlank content || ·) ih
    | comment content => exact ih
    | cdata content => exact ih

@[simp] theorem isIndented_erase (f : Forest) : f.erase.isIndented = f.isIndented := by
  rw [isIndented, isIndented, hasStructure_erase, hasWords_erase]

@[simp] theorem leaves_erase (f : Forest) : f.erase.leaves = f.leaves := by
  induction f with
  | nil => rfl
  | element id tag content rest _ ih => exact ih
  | leaf id l rest ih => exact congrArg (l :: ·) ih

@[simp] theorem text_erase (f : Forest) : f.erase.text = f.text := by
  rw [text, leaves_erase]
  rfl

theorem erase_settle (indented : Bool) (f : Forest) :
    (f.settle indented).erase = f.erase.settle indented := by
  induction f generalizing indented with
  | nil => rfl
  | element id tag content rest ihContent ihRest =>
    rw [settle, erase, erase, settle, ihContent, ihRest, isIndented_erase]
  | leaf id l rest ih =>
    cases l with
    | text content =>
      rw [settle, erase, settle]
      split
      · exact ih indented
      · rw [erase, ih]
    | comment content => exact congrArg (leaf rootId (.comment content)) (ih indented)
    | cdata content => exact congrArg (leaf rootId (.cdata content)) (ih indented)

theorem summary_erase (f : Forest) (depth : Nat) :
    (f.erase.outline depth).map summary = (f.outline depth).map summary := by
  induction f generalizing depth with
  | nil => rfl
  | element id tag content rest ihContent ihRest =>
    simp only [erase, outline, List.map_cons, List.map_append, ihContent, ihRest, summary,
      Element.text, text_erase]
  | leaf id l rest ih => exact ih depth

/-- Forests that differ in identities only are settled alike. -/
theorem summary_settle_of_erase {f g : Forest} (h : f.erase = g.erase) (indented : Bool)
    (depth : Nat) : ((f.settle indented).outline depth).map summary =
      ((g.settle indented).outline depth).map summary := by
  rw [← summary_erase, ← summary_erase (g.settle indented), erase_settle, erase_settle, h]

/-! ## Laid out and settled -/

/-- How an element is found again: at the same depth, with the same tag, and with the same text if
its content keeps it. -/
def Kept (before : Nat × Element) (after : Nat × Tag × String) : Prop :=
  after.1 = before.1 ∧ after.2.1 = before.2.tag ∧
    (after.2.2 = before.2.text ↔ before.2.content.keepsText = true)

theorem outline_settle_consText (id : NodeId) (content : String) (f : Forest) (indented : Bool)
    (depth : Nat) : ((consText id content f).settle indented).outline depth =
      (f.settle indented).outline depth := by
  unfold consText
  split
  · rw [settle, settle]
    split <;> split <;> rfl
  · rw [settle]
    split <;> rfl

theorem outline_settle_startLine (breaks : Bool) (level : Nat) (f : Forest) (indented : Bool)
    (depth : Nat) : ((startLine breaks level f).settle indented).outline depth =
      (f.settle indented).outline depth := by
  cases breaks with
  | false => rfl
  | true =>
    rw [startLine, if_pos rfl, settle]
    split <;> rfl

/-- An element is found again with all elements in it if those are. -/
theorem kept_element {content : Forest} (h : content.Settled) {level depth : Nat}
    (hinside : ∀ indented, List.Forall₂ Kept (content.outline (depth + 1))
      ((((content.lay level true).settle indented).outline (depth + 1)).map summary))
    (id id' : NodeId) (tag : Tag) {settled : Forest}
    (hsettled : settled = (content.layInside level).settle (content.layInside level).isIndented) :
    List.Forall₂ Kept ((depth, ⟨id, tag, content⟩) :: content.outline (depth + 1))
      (((depth, ⟨id', tag, settled⟩) :: settled.outline (depth + 1)).map summary) := by
  subst hsettled
  refine .cons ⟨rfl, rfl, text_settle_layInside h level⟩ ?_
  by_cases hnil : content = nil
  · subst hnil
    exact .nil
  · rw [layInside_of_ne_nil hnil]
    exact hinside _

/-- The elements of a settled forest are all found again when it has been laid out and settled. -/
theorem kept_lay {f : Forest} (h : ∀ e ∈ f.elements, e.content.Settled) (level : Nat)
    (breaks indented : Bool) (depth : Nat) :
    List.Forall₂ Kept (f.outline depth)
      ((((f.lay level breaks).settle indented).outline depth).map summary) := by
  induction f generalizing level breaks indented depth with
  | nil =>
    rw [lay, outline_settle_startLine]
    exact .nil
  | element id tag content rest ihContent ihRest =>
    have hcontent : content.Settled := h ⟨id, tag, content⟩ List.mem_cons_self
    have hinside := ihContent (fun e he => h e (List.mem_cons_of_mem _ (List.mem_append_left _ he)))
      (level + 1) true
    have hrest := ihRest (fun e he => h e (List.mem_cons_of_mem _ (List.mem_append_right _ he)))
      level true indented depth
    have hfirst :=
      kept_element hcontent (fun indented => hinside indented (depth + 1)) id id tag rfl
    rw [lay, outline_settle_startLine, settle, outline, outline, ← List.cons_append,
      ← List.cons_append, List.map_append]
    exact List.rel_append hfirst hrest
  | leaf id l rest ih =>
    cases l with
    | text content =>
      rw [lay, outline_settle_consText]
      exact ih h level false indented depth
    | cdata content => exact ih h level false indented depth
    | comment content =>
      rw [lay, outline_settle_startLine]
      exact ih h level true indented depth

end Forest

end BuildProject
