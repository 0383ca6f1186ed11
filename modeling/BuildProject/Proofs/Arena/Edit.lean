import BuildProject.Document.ArenaEdit
import BuildProject.Proofs.Arena.Reader
import BuildProject.Proofs.Document.Steps

/-!
# Edits in an arena

An edit in an arena does what the edit of the tree does: it has a result, gives the same answer or
fails with the same error, and leaves the same document (`Simulates`). What is looked up again after
a check is always found: an attached node that a check has let pass still has its tag, and below the
root it has a parent (`second_lookups`), so the faults behind the check are never raised.
-/

namespace BuildProject

open Markup

/-! ## Running actions that may have no result -/

section Run

variable {ε σ α β : Type} {first : ExceptT ε (StateT σ Option) α}
  {rest : α → ExceptT ε (StateT σ Option) β} {s s' : σ}

/-- An action goes on with the answer of its first part. -/
theorem run_bind_some {a : α} (h : first.run.run s = some (.ok a, s')) :
    (first >>= rest).run.run s = (rest a).run.run s' := by
  show (first s >>= fun (answer, s') => ExceptT.bindCont rest answer s') = _
  have hfirst : first s = some (.ok a, s') := h
  rw [hfirst]
  rfl

/-- An action ends with the fault of its first part. -/
theorem run_bind_fault {fault : ε} (h : first.run.run s = some (.error fault, s')) :
    (first >>= rest).run.run s = some (.error fault, s') := by
  show (first s >>= fun (answer, s') => ExceptT.bindCont rest answer s') = _
  have hfirst : first s = some (.error fault, s') := h
  rw [hfirst]
  rfl

theorem run_liftM {x : Option α} {a : α} (h : x = some a) (s : σ) :
    (liftM x : ExceptT ε (StateT σ Option) α).run.run s = some (.ok a, s) := by
  rw [h]
  rfl

theorem run_get_bind_some (rest : σ → ExceptT ε (StateT σ Option) β) (s : σ) :
    (get >>= rest).run.run s = (rest s).run.run s := by
  have hget : (get : ExceptT ε (StateT σ Option) σ).run.run s = some (.ok s, s) := rfl
  exact run_bind_some hget

end Run

/-! ## What has been checked -/

namespace ArenaDocument.Represents

variable {d : ArenaDocument} {t : Document} {tree : Tree} {a : Arena}

/-- Another arena and another tree, and one revision more. -/
theorem changed (h : d.Represents t) (ha : a.Represents tree) :
    Represents { d with arena := a, revision := d.revision + 1 }
      (t.setTree tree (t.revision + 1)) :=
  ⟨ha, h.declaration?, h.prolog, h.id, h.path?, congrArg (· + 1) h.revision⟩

end ArenaDocument.Represents

namespace ArenaEdit

variable {d d' : ArenaDocument} {t : Document} {r : ElementRef} {α β : Type}

theorem run_change {f : Arena → Option Arena} {a : Arena} (h : f d.arena = some a) :
    (change f).run.run d = some (.ok ⟨⟩, { d with arena := a }) := by
  rw [change, run_get_bind_some, run_bind_some (run_liftM h d)]
  rfl

theorem run_create (name : String) (d : ArenaDocument) : (create name).run.run d =
    some (.ok d.arena.next, { d with arena := d.arena.create (.element ⟨name, []⟩) }) := rfl

/-- **A check in the arena** lets the references pass that are resolved in the tree. -/
theorem run_check (h : d.Represents t) (r : ElementRef) :
    (check r).run.run d = some ((t.resolve r).map Element.id, d) := by
  obtain ⟨attached, hattached, -⟩ := h.arena.wellFormed.exists_isAttached r.node
  rw [check, run_get_bind_some, Document.resolve, ← h.id]
  by_cases hdocument : r.document ≠ d.id
  · rw [if_pos hdocument, if_pos hdocument]
    rfl
  · rw [if_neg hdocument, if_neg hdocument, run_bind_some (run_liftM hattached d)]
    have hfound : (t.tree.find? r.node).isSome ↔ _ := h.arena.find?_isSome_iff
    rw [hattached, Option.some.injEq] at hfound
    cases hfind : t.tree.find? r.node with
    | some e =>
      rw [hfind] at hfound
      obtain ⟨rfl, htag⟩ := hfound.mp rfl
      obtain ⟨tag, htag⟩ := Option.isSome_iff_exists.mp htag
      rw [htag]
      show some (Except.ok r.node, d) = some (Except.ok e.id, d)
      rw [Tree.id_of_find? hfind]
    | none =>
      rw [hfind] at hfound
      rw [if_pos]
      · rfl
      · cases attached with
        | false => rfl
        | true => simpa using hfound

/-- **The second lookups find what they look for**: the element that a check has let pass has its
tag, and if it is not the root, a new sibling is put beside it. -/
theorem second_lookups (h : d.Represents t) {id : NodeId}
    (hcheck : (check r).run.run d = some (.ok id, d')) :
    d' = d ∧ (∃ tag, d.arena.tag? id = some tag) ∧
      (id ≠ rootId → ∀ kind after, ∃ a,
        (d.arena.create kind).insertSibling id d.arena.next after = some (true, a)) := by
  rw [run_check h] at hcheck
  obtain ⟨hfound, hsame⟩ := Prod.mk.inj (Option.some.inj hcheck)
  obtain ⟨e, hresolve, rfl⟩ := map_eq_ok.mp hfound
  have he := Document.mem_of_resolve hresolve
  refine ⟨hsame.symm, ⟨e.tag, h.arena.tag?_of_mem he⟩, fun hne kind after => ?_⟩
  obtain ⟨_, _, _, _, _, hstored, hchildren⟩ := h.arena.exists_parent he hne
  obtain ⟨a, hinsert, -⟩ := h.arena.wellFormed.exists_insertSibling hstored hchildren kind after
  exact ⟨a, hinsert⟩

/-! ## Simulation -/

/-- Run on these documents, an action in an arena has a result: it answers what the edit answers,
and leaves the document that the edit leaves. -/
def Follows (action : ArenaEdit α) (edit : Edit α) (d : ArenaDocument) (t : Document) : Prop :=
  ∃ d', action.run.run d = some ((edit.run.run t).1, d') ∧ d'.Represents (edit.run.run t).2

/-- An action in an arena follows an edit on all documents that are the same. -/
def Simulates (action : ArenaEdit α) (edit : Edit α) : Prop :=
  ∀ d t, d.Represents t → Follows action edit d t

theorem Follows.of_run {action : ArenaEdit α} {edit : Edit α} {answer : Except DocumentError α}
    {t' : Document} (hedit : edit.run.run t = (answer, t'))
    (haction : action.run.run d = some (answer, d')) (h : d'.Represents t') :
    Follows action edit d t := by
  rw [Follows, hedit]
  exact ⟨d', haction, h⟩

/-- What looks at the state first goes on with it. -/
theorem follows_get {rest : ArenaDocument → ArenaEdit α} {edit : Edit α}
    (h : Follows (rest d) edit d t) : Follows (get >>= rest) edit d t := by
  rwa [Follows, run_get_bind_some]

theorem follows_liftM {x : Option β} {b : β} {rest : β → ArenaEdit α} {edit : Edit α}
    (hx : x = some b) (h : Follows (rest b) edit d t) : Follows (liftM x >>= rest) edit d t := by
  rwa [Follows, run_bind_some (run_liftM hx d)]

theorem simulates_pure (a : α) : Simulates (pure a) (pure a) :=
  fun _ _ h => .of_run (run_pure a _) rfl h

theorem simulates_throw (fault : DocumentError) :
    Simulates (throw fault : ArenaEdit α) (throw fault) :=
  fun _ _ h => .of_run (run_throw fault _) rfl h

/-- Actions one after the other follow edits one after the other. -/
theorem Simulates.bind {first : ArenaEdit α} {first' : Edit α} {rest : α → ArenaEdit β}
    {rest' : α → Edit β} (hfirst : Simulates first first')
    (hrest : ∀ a, Simulates (rest a) (rest' a)) :
    Simulates (first >>= rest) (first' >>= rest') := by
  intro d t h
  obtain ⟨d₁, hrun, h₁⟩ := hfirst d t h
  cases hedit : first'.run.run t with
  | mk answer t₁ =>
    rw [hedit] at hrun h₁
    cases answer with
    | error fault => exact .of_run (run_bind_error hedit) (run_bind_fault hrun) h₁
    | ok a =>
      rw [Follows, run_bind_some hrun, run_bind_ok hedit]
      exact hrest a d₁ t₁ h₁

theorem Simulates.map {action : ArenaEdit α} {edit : Edit α} (h : Simulates action edit)
    (f : α → β) : Simulates (f <$> action) (f <$> edit) := by
  rw [map_eq_pure_bind, map_eq_pure_bind]
  exact h.bind fun a => simulates_pure (f a)

/-- What starts with a check follows what starts with resolving the same reference, if it does so
for the element that is found. -/
theorem simulates_check {rest : NodeId → ArenaEdit α} {rest' : Element → Edit α}
    (hrest : ∀ d t e, d.Represents t → t.resolve r = .ok e → Follows (rest e.id) (rest' e) d t) :
    Simulates (check r >>= rest) (Edit.resolve r >>= rest') := by
  intro d t h
  have hcheck := run_check h r
  cases hresolve : t.resolve r with
  | error fault =>
    rw [hresolve] at hcheck
    exact .of_run (run_bind_error (Edit.run_resolve_error hresolve)) (run_bind_fault hcheck) h
  | ok e =>
    rw [hresolve] at hcheck
    rw [Follows, run_bind_some hcheck, run_bind_ok (Edit.run_resolve hresolve)]
    exact hrest d t e h hresolve

/-- A change of the arena that is counted follows a change of the tree. -/
theorem follows_change {f : Arena → Option Arena} {g : Tree → Tree} (h : d.Represents t)
    (hf : ∃ a, f d.arena = some a ∧ a.Represents (g t.tree)) :
    Follows (do change f; touch) (Edit.change g) d t := by
  obtain ⟨a, hrun, ha⟩ := hf
  refine .of_run (Edit.run_change g t) ?_ (h.changed ha)
  rw [run_bind_some (run_change hrun)]
  rfl

/-! ## Single changes -/

theorem simulates_setAttribute (r : ElementRef) (name value : String) :
    Simulates (setAttribute r name value) (Edit.setAttribute r name value) := by
  refine simulates_check fun d t e h hresolve => follows_get ?_
  have he := Document.mem_of_resolve hresolve
  rw [h.arena.tag?_of_mem he]
  exact follows_change h (h.arena.setAttribute he name value)

theorem simulates_removeAttribute (r : ElementRef) (name : String) :
    Simulates (removeAttribute r name) (Edit.removeAttribute r name) := by
  refine simulates_check fun d t e h hresolve => follows_get ?_
  have he := Document.mem_of_resolve hresolve
  rw [h.arena.tag?_of_mem he, Element.attribute?]
  dsimp only
  cases e.tag.attribute? name with
  | none => exact simulates_pure none d t h
  | some value =>
    obtain ⟨a, hrun, ha⟩ := h.arena.eraseAttribute he name
    refine Follows.of_run (run_bind_ok (Edit.run_change _ t)) ?_ (h.changed ha)
    rw [run_bind_some (run_change hrun)]
    rfl

theorem simulates_setText (r : ElementRef) (text : String) :
    Simulates (setText r text) (Edit.setText r text) :=
  simulates_check fun _ _ _ h hresolve =>
    follows_change h (h.arena.setText (Document.mem_of_resolve hresolve) text)

theorem simulates_appendElement (parent : ElementRef) (name : String) :
    Simulates (appendElement parent name) (Edit.appendElement parent name) := by
  refine simulates_check fun d t e h hresolve => ?_
  obtain ⟨a, happend, ha⟩ := h.arena.appendElement (Document.mem_of_resolve hresolve) name
  refine .of_run rfl ?_ (h.changed ha)
  rw [run_bind_some (run_create name d), run_bind_some (run_change happend), ← h.arena.next, ← h.id]
  rfl

theorem simulates_insertElement (anchor : ElementRef) (name : String) (after : Bool) :
    Simulates (insertElement anchor name after) (Edit.insertElement anchor name after) := by
  refine simulates_check fun d t e h hresolve => ?_
  by_cases hroot : e.id = rootId
  · rw [if_pos hroot, if_pos hroot]
    exact .of_run (run_bind_error (run_throw _ t)) (run_bind_fault rfl) h
  · rw [if_neg hroot, if_neg hroot]
    obtain ⟨a, hinsert, ha⟩ :=
      h.arena.insertElement (Document.mem_of_resolve hresolve) hroot name after
    refine .of_run rfl ?_ (h.changed ha)
    rw [run_bind_some (run_create name d), run_get_bind_some, run_bind_some (run_liftM hinsert _),
      ← h.arena.next, ← h.id]
    rfl

theorem simulates_remove (r : ElementRef) : Simulates (remove r) (Edit.remove r) := by
  refine simulates_check fun d t e h hresolve => ?_
  by_cases hroot : e.id = rootId
  · rw [if_pos hroot, if_pos hroot]
    exact .of_run (run_bind_error (run_throw _ t)) (run_bind_fault rfl) h
  · rw [if_neg hroot, if_neg hroot]
    exact follows_change h (h.arena.remove (Document.mem_of_resolve hresolve) hroot)

/-! ## Changes made of others -/

theorem simulates_ref_root : Simulates (ref rootId) Edit.rootRef := by
  intro d t h
  refine .of_run (run_get_bind _ t) ?_ h
  rw [ref, run_get_bind_some, h.id]
  rfl

theorem simulates_addPropertyGroup :
    Simulates (addGroup propertyGroupElement) Edit.addPropertyGroup :=
  simulates_ref_root.bind fun root => simulates_appendElement root _

theorem simulates_addItemGroup : Simulates (addGroup itemGroupElement) Edit.addItemGroup :=
  simulates_ref_root.bind fun root => simulates_appendElement root _

theorem simulates_addImport (project : String) :
    Simulates (addImport project) (Edit.addImport project) :=
  simulates_ref_root.bind fun root => (simulates_appendElement root _).bind fun added =>
    (simulates_setAttribute added _ project).bind fun _ => simulates_pure added

theorem simulates_setCondition (r : ElementRef) (conditions? : Option ConditionSet) :
    Simulates (setCondition r conditions?) (Edit.setCondition r conditions?) := by
  cases conditions? with
  | some conditions => exact simulates_setAttribute r _ _
  | none => exact (simulates_removeAttribute r _).bind fun _ => simulates_pure _

theorem simulates_expectKind (r : ElementRef) (expected : String) :
    Simulates (expectKind r expected) (Edit.expectKind r expected) := by
  refine simulates_check fun d t e h hresolve => follows_get ?_
  rw [h.arena.tag?_of_mem (Document.mem_of_resolve hresolve), Option.elim_some]
  by_cases hname : e.name ≠ expected
  · have hfound : e.tag.name ≠ expected := hname
    rw [if_pos hname, if_pos hfound]
    exact simulates_throw _ d t h
  · have hfound : ¬ e.tag.name ≠ expected := hname
    rw [if_neg hname, if_neg hfound]
    exact simulates_pure _ d t h

/-- The first child of a name is found, and one that is not there is made. -/
theorem simulates_childNamed (r : ElementRef) (name : String) :
    Simulates (childNamed r name) (Edit.childNamed r name) := by
  refine simulates_check fun d t e h hresolve => ?_
  have he := Document.mem_of_resolve hresolve
  obtain ⟨⟨parent?, hnode⟩, hcontent⟩ := h.arena.stores.of_mem (Arena.Represents.mem_whole he)
  refine follows_get (follows_liftM hnode (follows_liftM (hcontent.firstNamed name) ?_))
  have hchild : e.content.children.find? (·.name == name) = e.child? name := rfl
  rw [hchild]
  cases e.child? name with
  | none => exact simulates_appendElement r name d t h
  | some child =>
    refine .of_run (run_get_bind _ t) ?_ h
    show (ref child.id).run.run d = _
    rw [ref, run_get_bind_some, h.id]
    rfl

theorem simulates_setProperty (group : ElementRef) (name value : String) :
    Simulates (setProperty group name value) (Edit.setProperty group name value) :=
  (simulates_expectKind group _).bind fun _ => (simulates_childNamed group name).bind fun child =>
    (simulates_setText child value).bind fun _ => simulates_pure child

theorem simulates_addItem (group : ElementRef) (kind includeText : String) :
    Simulates (addItem group kind includeText) (Edit.addItem group kind includeText) :=
  (simulates_expectKind group _).bind fun _ => (simulates_appendElement group kind).bind fun item =>
    (simulates_setAttribute item _ includeText).bind fun _ => simulates_pure item

theorem simulates_setMetadata (item : ElementRef) (name value : String) :
    Simulates (setMetadata item name value) (Edit.setMetadata item name value) :=
  (simulates_childNamed item name).bind fun child =>
    (simulates_setText child value).bind fun _ => simulates_pure child

end ArenaEdit

end BuildProject
