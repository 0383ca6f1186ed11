import BuildProject.Proofs.Document.Edit
import BuildProject.Proofs.Tree.Steps

/-!
# Edits as single changes

Whatever an edit does, and also what it does before it fails, is some single changes of the tree
(`Tree.Step`), each of which counts a revision. `Document.Steps` is the relation between the
document before and the one after, together with what has been taken out on the way; what every
single change keeps is kept by all edits. What an edit takes out can be told from the document it
starts on (`Edit.Takes`), and for most edits it is nothing (`Document.Intact`).
-/

namespace BuildProject

/-! ## Several changes -/

namespace Document

/-- Some single changes of a document, each with its revision, and what they take out. -/
inductive Steps (d : Document) : (NodeId → Prop) → Document → Prop where
  | none : Steps d (fun _ => False) d
  | more {taken taken' : NodeId → Prop} {d' : Document} {t : Tree} (h : Steps d taken d')
    (hstep : d'.tree.Step taken' t) :
    Steps d (fun id => taken id ∨ taken' id) (d'.setTree t (d'.revision + 1))

variable {d d' : Document} {taken : NodeId → Prop}

/-- Only the tree and the revision are another. -/
theorem Steps.eq_setTree (h : d.Steps taken d') : d' = d.setTree d'.tree d'.revision := by
  induction h with
  | none => rfl
  | more _ _ ih => rw [ih, setTree_setTree, setTree_tree]; rfl

theorem Steps.id_eq (h : d.Steps taken d') : d'.id = d.id :=
  h.eq_setTree ▸ rfl

/-- The document is as it was, as far as evaluations go, or has a later revision. -/
structure Revised (d d' : Document) : Prop where
  id : d'.id = d.id
  later : d'.tree = d.tree ∧ d'.revision = d.revision ∨ d.revision < d'.revision

/-- Every single change counts a revision. -/
theorem Steps.revised (h : d.Steps taken d') : d.Revised d' := by
  induction h with
  | none => exact ⟨rfl, .inl ⟨rfl, rfl⟩⟩
  | @more _ _ d' t _ _ ih =>
    have hnext : (d'.setTree t (d'.revision + 1)).revision = d'.revision + 1 := rfl
    refine ⟨ih.id, .inr ?_⟩
    rcases ih.later with ⟨-, hsame⟩ | hlater <;> omega

theorem Steps.wellFormed (h : d.Steps taken d') (hd : d.tree.WellFormed) : d'.tree.WellFormed := by
  induction h with
  | none => exact hd
  | more _ hstep ih => exact ih.step hstep

theorem Steps.next_le (h : d.Steps taken d') : d.tree.next ≤ d'.tree.next := by
  induction h with
  | none => exact Nat.le_refl _
  | more _ hstep ih => exact Nat.le_trans ih hstep.next_le

/-- **What the changes take out**: of the elements that were there, all others are there with their
names. -/
theorem Steps.mem_labels_iff (h : d.Steps taken d') (hd : d.tree.WellFormed) {id : NodeId}
    (hid : id < d.tree.next) {name : String} :
    (id, name) ∈ d'.tree.labels ↔ (id, name) ∈ d.tree.labels ∧ ¬ taken id := by
  induction h with
  | none => simp
  | more h hstep ih =>
    have hlater := Nat.lt_of_lt_of_le hid h.next_le
    rw [setTree_tree, hstep.mem_labels_iff (h.wellFormed hd) hlater, ih, not_or, and_assoc]

/-- Some changes that take out nothing of what was there. -/
def Intact (d d' : Document) : Prop :=
  ∃ taken, d.Steps taken d' ∧ ∀ id < d.tree.next, ¬ taken id

theorem Intact.refl (d : Document) : d.Intact d :=
  ⟨_, .none, fun _ _ => not_false⟩

theorem Intact.more (h : d.Intact d') {t : Tree} (hstep : d'.tree.Step (fun _ => False) t) :
    d.Intact (d'.setTree t (d'.revision + 1)) := by
  obtain ⟨taken, hsteps, htaken⟩ := h
  exact ⟨_, hsteps.more hstep, fun id hid => not_or.mpr ⟨htaken id hid, not_false⟩⟩

/-- A reference is resolved to an element of the document. -/
theorem mem_of_resolve {r : ElementRef} {e : Element} (h : d.resolve r = .ok e) :
    e ∈ d.tree.root :: d.tree.elements :=
  Tree.find?_mem (resolve_eq_ok_iff.mp h).2

end Document

/-! ## Edits that take nothing out -/

namespace Edit

open Document (Intact mem_of_resolve)

variable {α : Type} {P : Document → Prop} {d : Document}

/-- After resolving a reference an edit goes on with the element, or ends there. -/
theorem keeps_resolve_bind {r : ElementRef} {rest : Element → Edit α}
    (h : ∀ d e, P d → d.resolve r = .ok e → P ((rest e).run.run d).2) :
    Keeps P (resolve r >>= rest) := by
  intro d hd
  cases hresolve : d.resolve r with
  | ok e =>
    rw [run_bind_ok (run_resolve hresolve)]
    exact h d e hd hresolve
  | error fault =>
    rw [run_bind_error (run_resolve_error hresolve)]
    exact hd

theorem keeps_rootRef : Keeps P rootRef :=
  keeps_bind keeps_get fun _ => keeps_pure _

theorem keeps_expectKind (r : ElementRef) (expected : String) :
    Keeps P (expectKind r expected) := by
  refine keeps_resolve_bind fun d e hd _ => ?_
  split
  · exact hd
  · exact hd

theorem intact_setAttribute (r : ElementRef) (name value : String) :
    Keeps d.Intact (setAttribute r name value) :=
  keeps_resolve_bind fun _ _ hd he => hd.more (.setAttribute (mem_of_resolve he) name value)

theorem intact_removeAttribute (r : ElementRef) (name : String) :
    Keeps d.Intact (removeAttribute r name) := by
  refine keeps_resolve_bind fun d' e hd he => ?_
  split
  · exact hd
  · exact hd.more (.eraseAttribute (mem_of_resolve he) name)

theorem intact_appendElement (parent : ElementRef) (name : String) :
    Keeps d.Intact (appendElement parent name) :=
  keeps_resolve_bind fun _ _ hd he => hd.more (.appendElement (mem_of_resolve he) name)

theorem intact_insertElement (anchor : ElementRef) (name : String) (after : Bool) :
    Keeps d.Intact (insertElement anchor name after) := by
  refine keeps_resolve_bind fun d' e hd he => ?_
  split
  · exact hd
  · next hne => exact hd.more (.insertElement (mem_of_resolve he) hne name after)

theorem intact_setCondition (r : ElementRef) (conditions? : Option ConditionSet) :
    Keeps d.Intact (setCondition r conditions?) := by
  cases conditions? with
  | none => exact keeps_bind (intact_removeAttribute r _) fun _ => keeps_pure _
  | some conditions => exact intact_setAttribute r _ _

theorem intact_addGroup (name : String) :
    Keeps d.Intact (rootRef >>= fun root => appendElement root name) :=
  keeps_bind keeps_rootRef fun root => intact_appendElement root name

/-- An element is added and then gets an attribute. -/
theorem intact_addWith (parent : ElementRef) (element name value : String) :
    Keeps d.Intact do
      let added ← appendElement parent element
      setAttribute added name value
      return added :=
  keeps_bind (intact_appendElement parent element) fun added =>
    keeps_bind (intact_setAttribute added name value) fun _ => keeps_pure _

/-! ## What edits take out -/

/-- An edit is some single changes, whether it succeeds or fails, and of the nodes that were there
it takes out those given. -/
def Takes (action : Edit α) (out : Document → NodeId → Prop) : Prop :=
  ∀ d : Document, d.tree.WellFormed → ∃ taken, d.Steps taken (action.run.run d).2 ∧
    ∀ id < d.tree.next, taken id ↔ out d id

variable {action : Edit α} {out : Document → NodeId → Prop}

theorem takes_of_intact (h : ∀ d : Document, Keeps d.Intact action) :
    Takes action fun _ _ => False := by
  intro d _
  obtain ⟨taken, hsteps, htaken⟩ := h d d (.refl d)
  exact ⟨taken, hsteps, fun id hid => iff_false_intro (htaken id hid)⟩

/-- The answer of an edit can be another. -/
theorem Takes.answer (h : Takes action out) (f : α → β) :
    Takes (action >>= fun a => pure (f a)) out := by
  intro d hd
  rw [run_bind_pure_state]
  exact h d hd

theorem Takes.map (h : Takes action out) (f : α → β) : Takes (f <$> action) out := by
  rw [map_eq_pure_bind]
  exact h.answer f

/-- Removing an element takes out the element and what is inside it. -/
theorem takes_remove (r : ElementRef) : Takes (remove r) fun d id =>
    ∃ e, d.resolve r = .ok e ∧ e.id ≠ rootId ∧ (id = e.id ∨ d.tree.IsAncestor e.id id) := by
  intro d _
  cases hresolve : d.resolve r with
  | error fault =>
    rw [remove, run_bind_error (run_resolve_error hresolve)]
    exact ⟨_, .none, by simp [hresolve]⟩
  | ok e =>
    rw [remove, run_bind_ok (run_resolve hresolve)]
    split
    · next hroot => exact ⟨_, .none, by simp [hresolve, hroot]⟩
    · next hne =>
      refine ⟨_, .more .none (.remove (mem_of_resolve hresolve) hne), fun id _ => ?_⟩
      simp [hresolve, hne]

/-- Setting the text of an element takes out what is inside it. -/
theorem takes_setText (r : ElementRef) (text : String) : Takes (setText r text) fun d id =>
    ∃ e, d.resolve r = .ok e ∧ d.tree.IsAncestor e.id id := by
  intro d _
  cases hresolve : d.resolve r with
  | error fault =>
    rw [setText, run_bind_error (run_resolve_error hresolve)]
    exact ⟨_, .none, by simp [hresolve]⟩
  | ok e =>
    rw [run_setText hresolve]
    refine ⟨_, .more .none (.setText (mem_of_resolve hresolve) text), fun id _ => ?_⟩
    simp [hresolve]

/-- Setting metadata takes out what is inside the child that has the name. -/
theorem takes_setMetadata (item : ElementRef) (name value : String) :
    Takes (setMetadata item name value) fun d id => ∃ e child, d.resolve item = .ok e ∧
      e.child? name = some child ∧ d.tree.IsAncestor child.id id := by
  intro d hd
  cases hresolve : d.resolve item with
  | error fault =>
    have hfailed : (childNamed item name).run.run d = (.error fault, d) := by
      rw [childNamed, run_bind_error (run_resolve_error hresolve)]
    rw [setMetadata, run_bind_error hfailed]
    exact ⟨_, .none, by simp [hresolve]⟩
  | ok e =>
    cases hchild : e.child? name with
    | some child =>
      have hmem : child ∈ d.tree.root :: d.tree.elements :=
        Tree.children_subset (mem_of_resolve hresolve) (List.mem_of_find?_eq_some hchild)
      have hfound : d.resolve (d.ref child) = .ok child :=
        Document.resolve_eq_ok rfl (hd.find?_of_mem hmem)
      rw [setMetadata, run_bind_ok (run_childNamed_of_some hresolve hchild),
        run_bind_ok (run_setText hfound value)]
      refine ⟨_, .more .none (.setText hmem value), fun id _ => ?_⟩
      simp [hresolve, hchild]
    | none =>
      have hfind := (Document.resolve_eq_ok_iff.mp hresolve).2
      have hnew := resolve_appended hd hfind name
      rw [setMetadata, run_bind_ok (run_childNamed_of_none hresolve hchild),
        run_bind_ok (run_setText hnew value)]
      have hadd := Tree.Step.appendElement (mem_of_resolve hresolve) name
      refine ⟨_, .more (.more .none hadd) (.setText (mem_of_resolve hnew) value), fun id _ => ?_⟩
      -- the new element holds nothing yet
      have hempty : ¬ (d.tree.appendElement e.id name).IsAncestor d.tree.next id := fun hinside =>
        List.not_mem_nil (((hd.step hadd).isAncestor_iff (mem_of_resolve hnew)).mp hinside)
      simp [hresolve, hchild, hempty, Tree.newElement]

/-- Setting a property does the same in a property group, and nothing elsewhere. -/
theorem takes_setProperty (group : ElementRef) (name value : String) :
    Takes (setProperty group name value) fun d id => ∃ e child, d.resolve group = .ok e ∧
      e.name = propertyGroupElement ∧ e.child? name = some child ∧
        d.tree.IsAncestor child.id id := by
  intro d hd
  cases hresolve : d.resolve group with
  | error fault =>
    have hfailed : (expectKind group propertyGroupElement).run.run d = (.error fault, d) := by
      rw [expectKind, run_bind_error (run_resolve_error hresolve)]
    rw [setProperty, run_bind_error hfailed]
    exact ⟨_, .none, by simp [hresolve]⟩
  | ok e =>
    have hkind := run_expectKind hresolve propertyGroupElement
    split at hkind
    · next hne =>
      rw [setProperty, run_bind_error hkind]
      exact ⟨_, .none, by simp [hresolve, hne]⟩
    · next hname =>
      obtain ⟨taken, hsteps, htaken⟩ := takes_setMetadata group name value d hd
      rw [setProperty, run_bind_ok hkind]
      refine ⟨taken, hsteps, fun id hid => (htaken id hid).trans ?_⟩
      simp [hresolve, not_not.mp hname]

end Edit

end BuildProject
