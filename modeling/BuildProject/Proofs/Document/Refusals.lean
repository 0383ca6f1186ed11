import BuildProject.Proofs.Document.Reachable

/-!
# When edits fail

An edit is made of several steps, but only what it asks for first can fail: that the reference is
the document's own, that its element is attached, that it is not the root where the edit needs a
place beside it, and that it has the name that the edit asks for. `Edit.Guarded` says that an edit
fails with what is found wrong before anything is changed, and that otherwise all of its steps
succeed; it holds of each edit (`Change.guarded_action`). So for every edit the fault can be told
from the reference and its element, and an edit that fails changes nothing
(`Document.Reachable.allOrNothing`).
-/

namespace BuildProject

open Markup

/-! ## What is asked for -/

/-- The element that a change is asked for on. -/
def Change.subject (d : Document) : Change → ElementRef
  | .setAttribute r _ _ => r
  | .removeAttribute r _ => r
  | .setText r _ => r
  | .appendElement parent _ => parent
  | .insertElement anchor _ _ => anchor
  | .remove r => r
  | .createPropertyGroup anchor _ => anchor
  | .createItemGroup anchor _ => anchor
  | .addPropertyGroup => d.ref d.root
  | .addItemGroup => d.ref d.root
  | .addImport _ => d.ref d.root
  | .setCondition r _ => r
  | .setProperty group _ _ => group
  | .addItem group _ _ => group
  | .setItemInclude item _ => item
  | .setMetadata item _ _ => item

/-- Whether a change needs an element with siblings: it adds one or removes the element itself. -/
def Change.needsSiblings : Change → Bool
  | .insertElement _ _ _ => true
  | .remove _ => true
  | .createPropertyGroup _ _ => true
  | .createItemGroup _ _ => true
  | _ => false

/-- The name that a change asks for. -/
def Change.kind? : Change → Option String
  | .setProperty _ _ _ => some propertyGroupElement
  | .addItem _ _ _ => some itemGroupElement
  | _ => none

/-- No fault. -/
def Element.anywhere (_ : Element) : Option DocumentError :=
  none

/-- The fault of an element without siblings. -/
def Element.notRoot (e : Element) : Option DocumentError :=
  if e.id = rootId then some .invalidAnchor else none

/-- The fault of an element of another name. -/
def Element.ofKind (kind : String) (e : Element) : Option DocumentError :=
  if e.name ≠ kind then some (.wrongKind kind e.name) else none

/-- The fault of an element that a change is asked for on. -/
def Change.check (change : Change) : Element → Option DocumentError :=
  match change.kind? with
  | some kind => Element.ofKind kind
  | none => if change.needsSiblings then Element.notRoot else Element.anywhere

theorem Change.check_eq_some_iff {change : Change} {e : Element} {fault : DocumentError} :
    change.check e = some fault ↔
      (change.needsSiblings = true ∧ e.id = rootId ∧ fault = .invalidAnchor) ∨
      ∃ kind, change.kind? = some kind ∧ e.name ≠ kind ∧ fault = .wrongKind kind e.name := by
  cases change <;>
    simp [check, kind?, needsSiblings, Element.anywhere, Element.notRoot, Element.ofKind, eq_comm]

theorem Change.check_eq_none_iff {change : Change} {e : Element} :
    change.check e = none ↔ ¬ (change.needsSiblings = true ∧ e.id = rootId) ∧
      ∀ kind, change.kind? = some kind → e.name = kind := by
  cases change <;>
    simp [check, kind?, needsSiblings, Element.anywhere, Element.notRoot, Element.ofKind]

namespace Document

variable {d : Document} {r : ElementRef} {e : Element} {fault : DocumentError}
  {check : Element → Option DocumentError}

/-- The fault of a reference, where `check` finds the fault of the element. -/
def faultAt? (d : Document) (r : ElementRef) (check : Element → Option DocumentError) :
    Option DocumentError :=
  match d.resolve r with
  | .ok e => check e
  | .error fault => some fault

theorem faultAt?_eq_some_iff : d.faultAt? r check = some fault ↔
    d.resolve r = .error fault ∨ ∃ e, d.resolve r = .ok e ∧ check e = some fault := by
  unfold faultAt?
  cases d.resolve r <;> simp

theorem faultAt?_eq_none_iff :
    d.faultAt? r check = none ↔ ∃ e, d.resolve r = .ok e ∧ check e = none := by
  unfold faultAt?
  cases d.resolve r <;> simp

end Document

namespace Edit

variable {α β : Type} {d : Document} {r : ElementRef} {fault : DocumentError}
  {check : Element → Option DocumentError} {fault? : Document → Option DocumentError}

/-! ## Guarded edits -/

/-- An edit fails with the fault that is found before it starts, and changes nothing then. Otherwise
it succeeds. -/
structure Guarded (action : Edit α) (fault? : Document → Option DocumentError) : Prop where
  refused : ∀ {d fault}, fault? d = some fault → action.run.run d = (.error fault, d)
  done : ∀ {d}, d.tree.WellFormed → fault? d = none → ∃ a d', action.run.run d = (.ok a, d')

namespace Guarded

variable {action : Edit α}

/-- Nothing fails once the edit has been let through, so it fails without a change or not at all. -/
theorem bind {first : Edit α} {rest : α → Edit β} (h : Guarded first fault?)
    (hrest : ∀ {d d' a}, d.tree.WellFormed → fault? d = none → first.run.run d = (.ok a, d') →
      ∃ b d'', (rest a).run.run d' = (.ok b, d'')) : Guarded (first >>= rest) fault? where
  refused hfault := run_bind_error (h.refused hfault)
  done hd hnone := by
    obtain ⟨a, d', hfirst⟩ := h.done hd hnone
    rw [run_bind_ok hfirst]
    exact hrest hd hnone hfirst

theorem answer (h : Guarded action fault?) (f : α → β) :
    Guarded (action >>= fun a => pure (f a)) fault? :=
  h.bind fun _ _ _ => ⟨_, _, rfl⟩

theorem map (h : Guarded action fault?) (f : α → β) : Guarded (f <$> action) fault? := by
  rw [map_eq_pure_bind]
  exact h.answer f

theorem error_iff (h : Guarded action fault?) (hd : d.tree.WellFormed) :
    (action.run.run d).1 = .error fault ↔ fault? d = some fault := by
  cases hfault : fault? d with
  | some found => simp [h.refused hfault]
  | none =>
    obtain ⟨a, d', hrun⟩ := h.done hd hfault
    simp [hrun]

theorem ok_iff (h : Guarded action fault?) (hd : d.tree.WellFormed) :
    (∃ a, (action.run.run d).1 = .ok a) ↔ fault? d = none := by
  cases hfault : fault? d with
  | some found => simp [h.refused hfault]
  | none =>
    obtain ⟨a, d', hrun⟩ := h.done hd hfault
    simp [hrun]

/-- An edit that fails changes nothing. -/
theorem eq_of_error (h : Guarded action fault?) (hd : d.tree.WellFormed)
    (hfailed : (action.run.run d).1 = .error fault) : (action.run.run d).2 = d := by
  rw [h.refused ((h.error_iff hd).mp hfailed)]

end Guarded

/-! ## Each edit -/

/-- An edit resolves its reference first. -/
theorem guarded_resolve_bind {rest : Element → Edit α}
    (hrefused : ∀ {d e fault}, check e = some fault → (rest e).run.run d = (.error fault, d))
    (hdone : ∀ {d e}, d.resolve r = .ok e → check e = none →
      ∃ a d', (rest e).run.run d = (.ok a, d')) :
    Guarded (resolve r >>= rest) (·.faultAt? r check) where
  refused hfault := by
    rcases Document.faultAt?_eq_some_iff.mp hfault with hresolve | ⟨e, hresolve, hcheck⟩
    · exact run_bind_error (run_resolve_error hresolve)
    · rw [run_bind_ok (run_resolve hresolve)]
      exact hrefused hcheck
  done _ hnone := by
    obtain ⟨e, hresolve, hcheck⟩ := Document.faultAt?_eq_none_iff.mp hnone
    rw [run_bind_ok (run_resolve hresolve)]
    exact hdone hresolve hcheck

/-- An edit of any element only resolves the reference. -/
theorem guarded_anywhere {rest : Element → Edit α}
    (hdone : ∀ {d e}, d.resolve r = .ok e → ∃ a d', (rest e).run.run d = (.ok a, d')) :
    Guarded (resolve r >>= rest) (·.faultAt? r Element.anywhere) :=
  guarded_resolve_bind (fun h => nomatch h) fun hresolve _ => hdone hresolve

/-- An edit can ask for something about the element before it changes anything. -/
theorem guarded_unless {refuses : Element → Prop} [DecidablePred refuses]
    {found : Element → DocumentError} {rest : Element → Edit α}
    (hdone : ∀ d e, ∃ a d', (rest e).run.run d = (.ok a, d')) :
    Guarded (resolve r >>= fun e => if refuses e then throw (found e) else rest e)
      (·.faultAt? r fun e => if refuses e then some (found e) else none) := by
  refine guarded_resolve_bind (fun {d e fault} h => ?_) (fun {d e} _ h => ?_)
  · by_cases hrefuses : refuses e
    · rw [if_pos hrefuses, Option.some.injEq] at h
      rw [if_pos hrefuses, run_throw, h]
    · rw [if_neg hrefuses] at h
      exact absurd h (Option.some_ne_none _).symm
  · by_cases hrefuses : refuses e
    · rw [if_pos hrefuses] at h
      exact absurd h (Option.some_ne_none _)
    · rw [if_neg hrefuses]
      exact hdone d e

theorem guarded_setAttribute (r : ElementRef) (name value : String) :
    Guarded (setAttribute r name value) (·.faultAt? r Element.anywhere) :=
  guarded_anywhere fun _ => ⟨_, _, rfl⟩

theorem guarded_removeAttribute (r : ElementRef) (name : String) :
    Guarded (removeAttribute r name) (·.faultAt? r Element.anywhere) := by
  refine guarded_anywhere fun _ => ?_
  split
  · exact ⟨_, _, rfl⟩
  · exact ⟨_, _, rfl⟩

theorem guarded_setText (r : ElementRef) (text : String) :
    Guarded (setText r text) (·.faultAt? r Element.anywhere) :=
  guarded_anywhere fun _ => ⟨_, _, rfl⟩

theorem guarded_appendElement (parent : ElementRef) (name : String) :
    Guarded (appendElement parent name) (·.faultAt? parent Element.anywhere) :=
  guarded_anywhere fun _ => ⟨_, _, rfl⟩

theorem guarded_insertElement (anchor : ElementRef) (name : String) (after : Bool) :
    Guarded (insertElement anchor name after) (·.faultAt? anchor Element.notRoot) :=
  guarded_unless fun _ _ => ⟨_, _, rfl⟩

theorem guarded_remove (r : ElementRef) : Guarded (remove r) (·.faultAt? r Element.notRoot) :=
  guarded_unless fun _ _ => ⟨_, _, rfl⟩

theorem guarded_expectKind (r : ElementRef) (kind : String) :
    Guarded (expectKind r kind) (·.faultAt? r (Element.ofKind kind)) :=
  guarded_unless fun _ _ => ⟨_, _, rfl⟩

theorem guarded_childNamed (r : ElementRef) (name : String) :
    Guarded (childNamed r name) (·.faultAt? r Element.anywhere) := by
  refine guarded_anywhere fun {d e} hresolve => ?_
  split
  · exact ⟨_, _, rfl⟩
  · exact ⟨_, _, run_appendElement hresolve name⟩

/-! ## Edits of several steps -/

theorem guarded_setCondition (r : ElementRef) (conditions? : Option ConditionSet) :
    Guarded (setCondition r conditions?) (·.faultAt? r Element.anywhere) := by
  cases conditions? with
  | none => exact (guarded_removeAttribute r _).answer _
  | some conditions => exact guarded_setAttribute r _ _

/-- The new element can be changed further. -/
theorem exists_resolve_of_appendElement (hd : d.tree.WellFormed) {d' : Document}
    {name : String} {added : ElementRef}
    (h : (appendElement r name).run.run d = (.ok added, d')) : ∃ e, d'.resolve added = .ok e := by
  obtain ⟨e, hresolve, hrun⟩ := run_resolve_bind_eq_ok.mp h
  rw [run_appendElement hresolve] at h
  obtain ⟨hadded, rfl⟩ := Prod.mk.inj h
  obtain rfl := Except.ok.inj hadded
  exact ⟨_, resolve_appended hd (Document.resolve_eq_ok_iff.mp hresolve).2 name⟩

/-- The child that was found or added can be changed further. -/
theorem exists_resolve_of_childNamed (hd : d.tree.WellFormed) {d' : Document}
    {name : String} {child : ElementRef}
    (h : (childNamed r name).run.run d = (.ok child, d')) : ∃ e, d'.resolve child = .ok e := by
  obtain ⟨e, hresolve, hrun⟩ := run_resolve_bind_eq_ok.mp h
  cases hchild : e.child? name with
  | none =>
    rw [hchild] at hrun
    exact exists_resolve_of_appendElement hd hrun
  | some found =>
    have hmem : found ∈ d.tree.root :: d.tree.elements :=
      Tree.children_subset (Document.mem_of_resolve hresolve) (List.mem_of_find?_eq_some hchild)
    rw [run_childNamed_of_some hresolve hchild] at h
    obtain ⟨hfound, rfl⟩ := Prod.mk.inj h
    obtain rfl := Except.ok.inj hfound
    exact ⟨found, Document.resolve_eq_ok rfl (hd.find?_of_mem hmem)⟩

theorem guarded_setMetadata (item : ElementRef) (name value : String) :
    Guarded (setMetadata item name value) (·.faultAt? item Element.anywhere) := by
  refine (guarded_childNamed item name).bind fun hd _ hchild => ?_
  obtain ⟨e, hresolve⟩ := exists_resolve_of_childNamed hd hchild
  exact ⟨_, _, run_bind_ok (run_setText hresolve value)⟩

/-- An element is added and then gets an attribute. -/
theorem guarded_addWith (parent : ElementRef) (element name value : String) :
    Guarded (do
      let added ← appendElement parent element
      setAttribute added name value
      return added) (·.faultAt? parent Element.anywhere) := by
  refine (guarded_appendElement parent element).bind fun hd _ hadded => ?_
  obtain ⟨e, hresolve⟩ := exists_resolve_of_appendElement hd hadded
  exact ⟨_, _, run_bind_ok (run_setAttribute hresolve name value)⟩

/-- An edit that asks for a name first goes on where it would have started. -/
theorem guarded_expectKind_bind {rest : Edit α} (kind : String)
    (h : Guarded rest (·.faultAt? r Element.anywhere)) :
    Guarded (expectKind r kind >>= fun _ => rest) (·.faultAt? r (Element.ofKind kind)) := by
  refine (guarded_expectKind r kind).bind fun {d d' a} hd hnone hrun => ?_
  obtain ⟨e, hresolve, hcheck⟩ := Document.faultAt?_eq_none_iff.mp hnone
  have hname : ¬ e.name ≠ kind := fun hne => by simp [Element.ofKind, hne] at hcheck
  rw [run_expectKind hresolve, if_neg hname] at hrun
  obtain ⟨-, rfl⟩ := Prod.mk.inj hrun
  exact h.done hd (Document.faultAt?_eq_none_iff.mpr ⟨e, hresolve, rfl⟩)

/-- An edit of the root. -/
theorem guarded_rootRef_bind {rest : ElementRef → Edit α}
    (h : ∀ root, Guarded (rest root) (·.faultAt? root check)) :
    Guarded (rootRef >>= rest) fun d => d.faultAt? (d.ref d.root) check where
  refused {d fault} hfault := by
    rw [run_bind_ok (rfl : rootRef.run.run d = (.ok (d.ref d.root), d))]
    exact (h _).refused hfault
  done {d} hd hnone := by
    rw [run_bind_ok (rfl : rootRef.run.run d = (.ok (d.ref d.root), d))]
    exact (h _).done hd hnone

end Edit

/-- **Every edit fails with what is wrong with its reference**, or succeeds. -/
theorem Change.guarded_action (change : Change) :
    Edit.Guarded change.action fun d => d.faultAt? (change.subject d) change.check := by
  cases change with
  | setAttribute r name value => exact (Edit.guarded_setAttribute r name value).answer _
  | removeAttribute r name => exact (Edit.guarded_removeAttribute r name).answer _
  | setText r text => exact (Edit.guarded_setText r text).answer _
  | appendElement parent name => exact (Edit.guarded_appendElement parent name).map _
  | insertElement anchor name after => exact (Edit.guarded_insertElement anchor name after).map _
  | remove r => exact (Edit.guarded_remove r).answer _
  | createPropertyGroup anchor after => exact (Edit.guarded_insertElement anchor _ after).map _
  | createItemGroup anchor after => exact (Edit.guarded_insertElement anchor _ after).map _
  | addPropertyGroup =>
    exact (Edit.guarded_rootRef_bind fun root => Edit.guarded_appendElement root _).map _
  | addItemGroup =>
    exact (Edit.guarded_rootRef_bind fun root => Edit.guarded_appendElement root _).map _
  | addImport project =>
    exact (Edit.guarded_rootRef_bind fun root => Edit.guarded_addWith root _ _ project).map _
  | setCondition r conditions? => exact (Edit.guarded_setCondition r conditions?).answer _
  | setProperty group name value =>
    exact (Edit.guarded_expectKind_bind _ (Edit.guarded_setMetadata group name value)).map _
  | addItem group kind includeText =>
    exact (Edit.guarded_expectKind_bind _ (Edit.guarded_addWith group kind _ includeText)).map _
  | setItemInclude item includeText => exact (Edit.guarded_setAttribute item _ includeText).answer _
  | setMetadata item name value => exact (Edit.guarded_setMetadata item name value).map _

/-! ## All or nothing -/

/-- How a change of a document can end. -/
structure Change.AllOrNothing (change : Change) (d : Document) : Prop where
  /-- The reference belongs to another document. -/
  foreignNode_iff : (change.action.run.run d).1 = .error .foreignNode ↔
    (change.subject d).document ≠ d.id
  /-- Or else its element is not attached. -/
  detached_iff : (change.action.run.run d).1 = .error .detached ↔
    (change.subject d).document = d.id ∧
      ∀ e ∈ d.root :: d.elements, e.id ≠ (change.subject d).node
  /-- Or else it is the root, and the change needs siblings. -/
  invalidAnchor_iff : (change.action.run.run d).1 = .error .invalidAnchor ↔
    change.subject d = d.ref d.root ∧ change.needsSiblings = true
  /-- Or else its element has another name than the change asks for. -/
  wrongKind_iff : ∀ expected found,
    (change.action.run.run d).1 = .error (.wrongKind expected found) ↔
      change.kind? = some expected ∧ found ≠ expected ∧
        ∃ e ∈ d.root :: d.elements, change.subject d = d.ref e ∧ e.name = found
  /-- In all other cases the change succeeds. -/
  ok_iff : (∃ answer, (change.action.run.run d).1 = .ok answer) ↔
    ∃ e ∈ d.root :: d.elements, change.subject d = d.ref e ∧
      ¬ (change.needsSiblings = true ∧ e = d.root) ∧
      ∀ kind, change.kind? = some kind → e.name = kind
  /-- A change that fails leaves the document as it is. -/
  unchanged : ∀ fault, (change.action.run.run d).1 = .error fault →
    (change.action.run.run d).2 = d
  /-- A change of the tree counts a revision. -/
  revised : (change.action.run.run d).2.tree ≠ d.tree →
    d.revision < (change.action.run.run d).2.revision

namespace Document

variable {d : Document} {r : ElementRef} {fault : DocumentError}

/-- A reference is refused for its document, or else because no element has its identity. -/
theorem resolve_eq_error_iff : d.resolve r = .error fault ↔
    (fault = .foreignNode ∧ r.document ≠ d.id) ∨
    (fault = .detached ∧ r.document = d.id ∧ ∀ e ∈ d.root :: d.elements, e.id ≠ r.node) := by
  have hnone : d.tree.find? r.node = none ↔ ∀ e ∈ d.root :: d.elements, e.id ≠ r.node := by
    rw [Tree.find?, List.find?_eq_none]
    simp only [beq_iff_eq, Ne]
    rfl
  rw [resolve]
  by_cases hdocument : r.document = d.id
  · rw [if_neg (not_not_intro hdocument), ← hnone]
    cases d.tree.find? r.node <;> simp [hdocument, eq_comm]
  · rw [if_pos hdocument]
    simp [hdocument, eq_comm]

theorem resolve_eq_ok_iff_mem (hd : d.tree.WellFormed) {e : Element} :
    d.resolve r = .ok e ↔ e ∈ d.root :: d.elements ∧ r = d.ref e := by
  rw [resolve_eq_ok_iff]
  constructor
  · rintro ⟨hdocument, hfind⟩
    refine ⟨Tree.find?_mem hfind, ?_⟩
    rw [ref, ← hdocument, Tree.id_of_find? hfind]
  · rintro ⟨hmem, rfl⟩
    exact ⟨rfl, hd.find?_of_mem hmem⟩

/-- **Edits are made as a whole or not at all.** Whether an edit fails, and with what, can be told
from its reference: it may be another document's, or refer to no element that is attached, or to the
root where siblings are needed, or to an element of another name than asked for. An edit that fails
leaves the document as it is, its text and its revision with it, and one that changes the tree
counts a revision. -/
theorem Reachable.allOrNothing (hd : d.Reachable) (change : Change) : change.AllOrNothing d := by
  have hwf := hd.wellFormed
  have hguarded := change.guarded_action
  have hfault (fault : DocumentError) : (change.action.run.run d).1 = .error fault ↔
      d.faultAt? (change.subject d) change.check = some fault :=
    hguarded.error_iff hwf
  simp only [faultAt?_eq_some_iff, resolve_eq_error_iff, resolve_eq_ok_iff_mem hwf,
    Change.check_eq_some_iff] at hfault
  refine ⟨?_, ?_, ?_, fun expected found => ?_, ?_, fun fault => hguarded.eq_of_error hwf,
    fun hne => ?_⟩
  · rw [hfault]
    simp
  · rw [hfault]
    simp
  · simp only [hfault, reduceCtorEq, false_and, false_or, and_false, exists_false, or_false,
      and_true]
    constructor
    · rintro ⟨e, ⟨he, hsubject⟩, hsiblings, hid⟩
      obtain rfl := (hwf.id_eq_rootId_iff he).mp hid
      exact ⟨hsubject, hsiblings⟩
    · rintro ⟨hsubject, hsiblings⟩
      exact ⟨d.root, ⟨List.mem_cons_self, hsubject⟩, hsiblings, rfl⟩
  · simp only [hfault, reduceCtorEq, false_and, false_or, and_false, DocumentError.wrongKind.injEq]
    constructor
    · rintro ⟨e, ⟨he, hsubject⟩, kind, hkind, hne, rfl, rfl⟩
      exact ⟨hkind, hne, e, he, hsubject, rfl⟩
    · rintro ⟨hkind, hne, e, he, hsubject, rfl⟩
      exact ⟨e, ⟨he, hsubject⟩, expected, hkind, hne, rfl, rfl⟩
  · simp only [hguarded.ok_iff hwf, faultAt?_eq_none_iff, resolve_eq_ok_iff_mem hwf,
      Change.check_eq_none_iff, and_assoc]
    refine exists_congr fun e => and_congr_right fun he => ?_
    rw [hwf.id_eq_rootId_iff he]
    rfl
  · rcases (change.revised_action hd).later with ⟨hsame, -⟩ | hlater
    · exact absurd hsame hne
    · exact hlater

/-- Each way to fail, in a project from which an item group has been removed: with the reference of
another project, in the item that was in the group, beside the root, and in a property group. -/
theorem Reachable.allOrNothing_removed :
    let d := (Document.empty ⟨0⟩).after [.addItemGroup, .addItem ⟨⟨0⟩, 1⟩ "Compile" "a.cs",
      .addPropertyGroup, .remove ⟨⟨0⟩, 1⟩]
    let foreign : Change := .remove ⟨⟨1⟩, 3⟩
    let detached : Change := .setItemInclude ⟨⟨0⟩, 2⟩ "b.cs"
    let beside : Change := .createItemGroup ⟨⟨0⟩, 0⟩ true
    let other : Change := .addItem ⟨⟨0⟩, 3⟩ "None" "c.cs"
    (foreign.action.run.run d).1 = .error .foreignNode ∧
    (detached.action.run.run d).1 = .error .detached ∧
    (beside.action.run.run d).1 = .error .invalidAnchor ∧
    (other.action.run.run d).1 = .error (.wrongKind "ItemGroup" "PropertyGroup") ∧
    (other.action.run.run d).2 = d := by
  intro d foreign detached beside other
  have hd : d.Reachable := .after (.empty ⟨0⟩) _
  have hother : (other.action.run.run d).1 = .error (.wrongKind "ItemGroup" "PropertyGroup") :=
    (Reachable.allOrNothing hd other).wrongKind_iff _ _ |>.mpr (by decide +kernel)
  exact ⟨(Reachable.allOrNothing hd foreign).foreignNode_iff.mpr (by decide +kernel),
    (Reachable.allOrNothing hd detached).detached_iff.mpr (by decide +kernel),
    (Reachable.allOrNothing hd beside).invalidAnchor_iff.mpr (by decide +kernel),
    hother, (Reachable.allOrNothing hd other).unchanged _ hother⟩

end Document

end BuildProject
