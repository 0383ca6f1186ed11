import BuildProject.Document.Edit
import BuildProject.Proofs.Action
import BuildProject.Proofs.Tree.Lookup

/-!
# What edits do to the tree

Every edit starts with resolving a reference and fails with it (`run_resolve_bind_eq_ok`). An edit
that succeeds is a change of the tree and a number of revisions; here is the change for the edits
that others are made of.
-/

namespace BuildProject

/-- The document with another tree, after some changes. -/
def Document.setTree (d : Document) (tree : Tree) (revision : Nat) : Document :=
  { d with tree, revision }

@[simp] theorem Document.setTree_tree (d : Document) (tree : Tree) (revision : Nat) :
    (d.setTree tree revision).tree = tree := rfl

@[simp] theorem Document.setTree_setTree (d : Document) (tree tree' : Tree)
    (revision revision' : Nat) :
    (d.setTree tree revision).setTree tree' revision' = d.setTree tree' revision' := rfl

/-- A reference to the document's own element is resolved. -/
theorem Document.resolve_eq_ok {d : Document} {r : ElementRef} {e : Element}
    (hdocument : r.document = d.id) (h : d.tree.find? r.node = some e) : d.resolve r = .ok e := by
  rw [Document.resolve, if_neg (not_not_intro hdocument), h]

/-- A reference is resolved by its identity, in the document it belongs to. -/
theorem Document.resolve_eq_ok_iff {d : Document} {r : ElementRef} {e : Element} :
    d.resolve r = .ok e ↔ r.document = d.id ∧ d.tree.find? r.node = some e := by
  refine ⟨fun h => ?_, fun h => resolve_eq_ok h.1 h.2⟩
  rw [Document.resolve] at h
  split at h
  · exact absurd h (by simp)
  · next hdocument =>
    split at h
    · next found hfind => exact ⟨not_not.mp hdocument, (Except.ok.inj h) ▸ hfind⟩
    · exact absurd h (by simp)

namespace Edit

variable {d : Document} {r : ElementRef} {e : Element}

theorem run_resolve (h : d.resolve r = .ok e) : (resolve r).run.run d = (.ok e, d) := by
  rw [resolve, run_get_bind, h]
  rfl

theorem run_resolve_error {fault : DocumentError} (h : d.resolve r = .error fault) :
    (resolve r).run.run d = (.error fault, d) := by
  rw [resolve, run_get_bind, h]
  rfl

/-- An edit that starts with resolving a reference answers if there is an element to go on with. -/
theorem run_resolve_bind_eq_ok {rest : Element → Edit α} {a : α} {d' : Document} :
    (resolve r >>= rest).run.run d = (.ok a, d') ↔
      ∃ e, d.resolve r = .ok e ∧ (rest e).run.run d = (.ok a, d') := by
  rw [run_bind_eq_ok]
  constructor
  · rintro ⟨e, s, hresolve, hrest⟩
    cases hfound : d.resolve r with
    | ok found =>
      rw [run_resolve hfound] at hresolve
      obtain ⟨he, rfl⟩ := Prod.mk.inj hresolve
      exact ⟨e, he, hrest⟩
    | error fault =>
      rw [run_resolve_error hfound] at hresolve
      exact absurd (Prod.mk.inj hresolve).1 (by simp)
  · rintro ⟨e, hresolve, hrest⟩
    exact ⟨e, d, run_resolve hresolve, hrest⟩

theorem run_change (f : Tree → Tree) (d : Document) :
    (change f).run.run d = (.ok ⟨⟩, d.setTree (f d.tree) (d.revision + 1)) := rfl

theorem run_setAttribute (h : d.resolve r = .ok e) (name value : String) :
    (setAttribute r name value).run.run d
      = (.ok ⟨⟩, d.setTree (d.tree.setAttribute e.id name value) (d.revision + 1)) := by
  rw [setAttribute, run_bind_ok (run_resolve h), run_change]

theorem run_setText (h : d.resolve r = .ok e) (text : String) :
    (setText r text).run.run d
      = (.ok ⟨⟩, d.setTree (d.tree.setText e.id text) (d.revision + 1)) := by
  rw [setText, run_bind_ok (run_resolve h), run_change]

theorem run_appendElement (h : d.resolve r = .ok e) (name : String) :
    (appendElement r name).run.run d
      = (.ok ⟨d.id, d.tree.next⟩, d.setTree (d.tree.appendElement e.id name) (d.revision + 1)) := by
  rw [appendElement, run_bind_ok (run_resolve h), run_get_bind, run_bind_ok (run_change _ d)]
  rfl

theorem run_insertElement (h : d.resolve r = .ok e) (hne : e.id ≠ rootId) (name : String)
    (after : Bool) : (insertElement r name after).run.run d
      = (.ok ⟨d.id, d.tree.next⟩,
          d.setTree (d.tree.insertElement e.id name after) (d.revision + 1)) := by
  rw [insertElement, run_bind_ok (run_resolve h), if_neg hne]
  rfl

theorem run_remove (h : d.resolve r = .ok e) (hne : e.id ≠ rootId) :
    (remove r).run.run d = (.ok ⟨⟩, d.setTree (d.tree.remove e.id) (d.revision + 1)) := by
  rw [remove, run_bind_ok (run_resolve h), if_neg hne]
  rfl

/-- Asking for a name changes nothing. -/
theorem run_expectKind (h : d.resolve r = .ok e) (kind : String) :
    (expectKind r kind).run.run d =
      if e.name ≠ kind then (.error (.wrongKind kind e.name), d) else (.ok ⟨⟩, d) := by
  rw [expectKind, run_bind_ok (run_resolve h)]
  split <;> rfl

/-- A child that is there is found and nothing changes. -/
theorem run_childNamed_of_some (h : d.resolve r = .ok e) {name : String} {child : Element}
    (hchild : e.child? name = some child) :
    (childNamed r name).run.run d = (.ok (d.ref child), d) := by
  rw [childNamed, run_bind_ok (run_resolve h), hchild]
  exact run_get_bind _ d

/-- A child that is not there becomes the last one. -/
theorem run_childNamed_of_none (h : d.resolve r = .ok e) {name : String}
    (hchild : e.child? name = none) : (childNamed r name).run.run d =
      (.ok ⟨d.id, d.tree.next⟩,
        d.setTree (d.tree.appendElement e.id name) (d.revision + 1)) := by
  rw [childNamed, run_bind_ok (run_resolve h), hchild]
  exact run_appendElement h name

/-- The new element is found by the reference that is answered for it. -/
theorem resolve_appended (hd : d.tree.WellFormed) (h : d.tree.find? r.node = some e)
    (name : String) : (d.setTree (d.tree.appendElement e.id name) (d.revision + 1)).resolve
      ⟨d.id, d.tree.next⟩ = .ok (d.tree.newElement name) := by
  have hid : e.id = r.node := Tree.id_of_find? h
  exact Document.resolve_eq_ok rfl (hd.find?_appendElement_next (hid ▸ h) name)

/-- Metadata that an item does not have becomes its last child. -/
theorem run_setMetadata (hd : d.tree.WellFormed) (hdocument : r.document = d.id)
    (h : d.tree.find? r.node = some e) {name : String} (hname : e.child? name = none)
    {value : String} (hvalue : value.isEmpty = false) :
    (setMetadata r name value).run.run d
      = (.ok ⟨d.id, d.tree.next⟩,
          d.setTree (d.tree.appendText r.node name value) (d.revision + 2)) := by
  have hresolve := Document.resolve_eq_ok hdocument h
  have hid : e.id = r.node := Tree.id_of_find? h
  have hchild := run_childNamed_of_none hresolve hname
  have hnew := resolve_appended hd h name
  rw [hid] at hchild hnew
  rw [setMetadata, run_bind_ok hchild, run_bind_ok (run_setText hnew value),
    Document.setTree_tree, Document.setTree_setTree]
  show (_, d.setTree ((d.tree.appendElement r.node name).setText d.tree.next value) _) = _
  rw [hd.setText_appendElement (Tree.id_mem_of_find? h) name hvalue]
  rfl

end Edit

end BuildProject
