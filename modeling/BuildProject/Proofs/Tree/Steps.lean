import BuildProject.Proofs.Tree.Links

/-!
# Single changes of a tree

Every change of a document is made of six kinds of single changes of its tree (`Tree.Step`). Each of
them puts something in the place of one element, so all that it does to the other elements is
`Forest.elements_replaceAt`. What a step takes out is a part of its description, and
`Step.mem_labels_iff` says that this is right: the elements that were there and have not been taken
out are there with their names, and no others among the identities that have been handed out.
-/

namespace BuildProject

open Markup

/-- An element with something else in the place of an element inside it. -/
def Element.replaceAt (target : NodeId) (replacement : Element → Forest) (e : Element) : Element :=
  ⟨e.id, e.tag, e.content.replaceAt target replacement⟩

namespace Forest

/-! ## Replacing an element -/

/-- Elements that do not hold the replaced one stay as they are. -/
theorem map_replaceAt_of_not_mem {f : Forest} {target : NodeId} (h : target ∉ f.nodeIds)
    (replacement : Element → Forest) :
    f.elements.map (Element.replaceAt target replacement) = f.elements := by
  refine (List.map_congr_left fun e he => ?_).trans (List.map_id _)
  rw [Element.replaceAt, replaceAt_of_not_mem fun hmem => h (nodeIds_content_subset he hmem)]
  rfl

/-- **Replacing an element** puts the new elements where it and the elements inside it were. The
elements before are the same but for what they hold, those behind are the same. -/
theorem elements_replaceAt {f : Forest} (hnodup : f.nodeIds.Nodup) {e : Element}
    (he : e ∈ f.elements) :
    ∃ before after, f.elements = before ++ ((ofElement e).elements ++ after) ∧
      ∀ replacement, (f.replaceAt e.id replacement).elements =
        before.map (Element.replaceAt e.id replacement) ++
          ((replacement e).elements ++ after) := by
  induction f with
  | nil => exact absurd he List.not_mem_nil
  | element id tag content rest ihContent ihRest =>
    have hwhole := hnodup
    obtain ⟨-, hnodup⟩ := List.nodup_cons.mp hnodup
    obtain ⟨hnodupContent, hnodupRest, hdisjoint⟩ := List.nodup_append'.mp hnodup
    rcases List.mem_cons.mp he with rfl | he
    · refine ⟨[], rest.elements, ?_, fun replacement => ?_⟩
      · simp [elements, ofElement]
      · simp [replaceAt]
    rcases List.mem_append.mp he with he | he
    · obtain ⟨before, after, hbefore, hafter⟩ := ihContent hnodupContent he
      refine ⟨⟨id, tag, content⟩ :: before, after ++ rest.elements, ?_, fun replacement => ?_⟩
      · rw [elements, hbefore]
        simp
      · rw [replaceAt_of_mem_content hwhole he, elements, hafter]
        simp [Element.replaceAt]
    · have hcontent : e.id ∉ content.nodeIds := fun hmem => hdisjoint hmem (id_mem_nodeIds he)
      obtain ⟨before, after, hbefore, hafter⟩ := ihRest hnodupRest he
      refine ⟨⟨id, tag, content⟩ :: (content.elements ++ before), after, ?_,
        fun replacement => ?_⟩
      · rw [elements, hbefore]
        simp
      · rw [replaceAt_of_mem_rest hwhole he, elements, hafter, List.map_cons, List.map_append,
          map_replaceAt_of_not_mem hcontent, Element.replaceAt, replaceAt_of_not_mem hcontent]
        simp
  | leaf id l rest ih => exact ih (List.nodup_cons.mp hnodup).2 he

/-! ### Names -/

/-- The identities of the elements with their names, in document order. -/
def labels (f : Forest) : List (NodeId × String) :=
  f.elements.map fun e => (e.id, e.name)

@[simp] theorem labels_nil : nil.labels = [] := rfl

@[simp] theorem labels_append (f g : Forest) : (f ++ g).labels = f.labels ++ g.labels := by
  simp [labels]

@[simp] theorem labels_ofElement (e : Element) :
    (ofElement e).labels = (e.id, e.name) :: e.content.labels := by
  simp [labels, ofElement, elements, Element.name]

theorem mem_nodeIds_of_mem_labels {f : Forest} {id : NodeId} {name : String}
    (h : (id, name) ∈ f.labels) : id ∈ f.nodeIds := by
  obtain ⟨e, he, heq⟩ := List.mem_map.mp h
  exact (Prod.mk.inj heq).1 ▸ id_mem_nodeIds he

/-- An element that has the identity of another or of a node inside it is that element or inside
it. -/
theorem mem_ofElement_of_id_mem {f : Forest} (hnodup : f.nodeIds.Nodup) {e x : Element}
    (he : e ∈ f.elements) (hx : x ∈ f.elements) (hid : x.id ∈ e.id :: e.content.nodeIds) :
    x ∈ (ofElement e).elements := by
  rw [ofElement, elements]
  rcases List.mem_cons.mp hid with hid | hid
  · have hsame : x = e :=
      List.inj_on_of_nodup_map ((map_id_elements_sublist f).nodup hnodup) hx he hid
    exact hsame ▸ List.mem_cons_self
  · have hbelow := mem_elements_of_id_mem hnodup he hx hid
    exact List.mem_cons_of_mem _ (List.mem_append_left _ hbelow)

/-- What is taken out with a replaced element is missing from the names, all others are there. -/
theorem mem_labels_replaceAt {f : Forest} (hnodup : f.nodeIds.Nodup) {e : Element}
    (he : e ∈ f.elements) {replacement : Element → Forest} {id : NodeId} {name : String}
    {taken : Prop} (hinside : taken → id ∈ e.id :: e.content.nodeIds)
    (hreplaced : (id, name) ∈ (replacement e).labels ↔
      (id, name) ∈ (ofElement e).labels ∧ ¬ taken) :
    (id, name) ∈ (f.replaceAt e.id replacement).labels ↔ (id, name) ∈ f.labels ∧ ¬ taken := by
  obtain ⟨before, after, hbefore, hafter⟩ := elements_replaceAt hnodup he
  have hlabels : (f.replaceAt e.id replacement).labels =
      before.map (fun x => (x.id, x.name)) ++
        ((replacement e).labels ++ after.map fun x => (x.id, x.name)) := by
    simp only [labels, hafter, List.map_append, List.map_map]
    rfl
  have hwhole : f.labels = before.map (fun x => (x.id, x.name)) ++
      ((ofElement e).labels ++ after.map fun x => (x.id, x.name)) := by
    simp only [labels, hbefore, List.map_append]
  have hdistinct : (before ++ ((ofElement e).elements ++ after)).Nodup :=
    hbefore ▸ .of_map _ ((map_id_elements_sublist f).nodup hnodup)
  obtain ⟨-, hinner, hfirst⟩ := List.nodup_append'.mp hdistinct
  obtain ⟨-, -, hsecond⟩ := List.nodup_append'.mp hinner
  -- what is taken out is the replaced element or inside it, and so in neither other part
  have hkept {part : List Element} (hpart : part ⊆ f.elements)
      (houtside : ∀ x ∈ part, x ∉ (ofElement e).elements)
      (hmem : (id, name) ∈ part.map fun x => (x.id, x.name)) : ¬ taken := by
    intro htaken
    obtain ⟨x, hx, heq⟩ := List.mem_map.mp hmem
    obtain ⟨rfl, rfl⟩ := Prod.mk.inj heq
    exact houtside x hx (mem_ofElement_of_id_mem hnodup he (hpart hx) (hinside htaken))
  have hbeforeKept := hkept (hbefore ▸ List.subset_append_left _ _) fun x hx hmem =>
    hfirst hx (List.mem_append_left _ hmem)
  have hafterKept := hkept
    (hbefore ▸ List.subset_append_of_subset_right _ (List.subset_append_right _ _))
    fun x hx hmem => hsecond hmem hx
  rw [hlabels, hwhole, List.mem_append, List.mem_append, List.mem_append, List.mem_append,
    hreplaced]
  constructor
  · rintro (h | ⟨h, htaken⟩ | h)
    · exact ⟨.inl h, hbeforeKept h⟩
    · exact ⟨.inr (.inl h), htaken⟩
    · exact ⟨.inr (.inr h), hafterKept h⟩
  · rintro ⟨h | h | h, htaken⟩
    · exact .inl h
    · exact .inr (.inl ⟨h, htaken⟩)
    · exact .inr (.inr h)

end Forest

namespace Tree

/-! ## Changes as replacements -/

variable {t t' : Tree}

@[simp] theorem whole_modify (t : Tree) (id : NodeId) (onTag : Tag → Tag)
    (onContent : Forest → Forest) : (t.modify id onTag onContent).whole = t.whole.replaceAt id
      fun e => .ofElement ⟨e.id, onTag e.tag, onContent e.content⟩ := by
  rw [← Forest.modify_eq_replaceAt, Tree.modify]
  split
  · next h =>
    subst h
    simp [whole, Forest.ofElement, root, Forest.modify]
  · next h =>
    simp [whole, Forest.ofElement, root, Forest.modify, Ne.symm h]

theorem whole_setAttribute (t : Tree) (id : NodeId) (name value : String) :
    (t.setAttribute id name value).whole = t.whole.replaceAt id fun e =>
      .ofElement ⟨e.id, e.tag.set name value, e.content⟩ :=
  whole_modify ..

theorem whole_eraseAttribute (t : Tree) (id : NodeId) (name : String) :
    (t.eraseAttribute id name).whole = t.whole.replaceAt id fun e =>
      .ofElement ⟨e.id, e.tag.erase name, e.content⟩ :=
  whole_modify ..

theorem whole_setText (t : Tree) (id : NodeId) (text : String) :
    (t.setText id text).whole = t.whole.replaceAt id fun e =>
      .ofElement ⟨e.id, e.tag, if text.isEmpty then .nil else .ofLeaf t.next (.text text)⟩ := by
  unfold Tree.setText
  split
  · exact whole_modify ..
  · exact whole_modify ..

theorem whole_appendElement (t : Tree) (parent : NodeId) (name : String) :
    (t.appendElement parent name).whole = t.whole.replaceAt parent fun e =>
      .ofElement ⟨e.id, e.tag, e.content ++ .ofElement (t.newElement name)⟩ :=
  whole_modify ..

/-- Below the root everything happens in the content. -/
theorem whole_replaceAt {id : NodeId} (h : id ≠ rootId) (replacement : Element → Forest) :
    t.whole.replaceAt id replacement =
      .element rootId t.tag (t.content.replaceAt id replacement) .nil := by
  simp [whole, Forest.ofElement, root, Forest.replaceAt, Ne.symm h]

theorem whole_insertElement {anchor : NodeId} (h : anchor ≠ rootId) (name : String)
    (after : Bool) : (t.insertElement anchor name after).whole = t.whole.replaceAt anchor fun e =>
      if after then .ofElement e ++ .ofElement (t.newElement name)
      else .ofElement (t.newElement name) ++ .ofElement e := by
  rw [whole_replaceAt h]
  rfl

theorem whole_remove {id : NodeId} (h : id ≠ rootId) :
    (t.remove id).whole = t.whole.replaceAt id fun _ => .nil := by
  rw [whole_replaceAt h]
  rfl

/-! ## Steps -/

/-- A single change of a tree at one of its elements, and what it takes out: the nodes inside an
element that gets a text, an element that is removed and the nodes inside it. -/
inductive Step (t : Tree) : (NodeId → Prop) → Tree → Prop where
  | setAttribute {e : Element} (he : e ∈ t.root :: t.elements) (name value : String) :
    Step t (fun _ => False) (t.setAttribute e.id name value)
  | eraseAttribute {e : Element} (he : e ∈ t.root :: t.elements) (name : String) :
    Step t (fun _ => False) (t.eraseAttribute e.id name)
  | setText {e : Element} (he : e ∈ t.root :: t.elements) (text : String) :
    Step t (t.IsAncestor e.id) (t.setText e.id text)
  | appendElement {e : Element} (he : e ∈ t.root :: t.elements) (name : String) :
    Step t (fun _ => False) (t.appendElement e.id name)
  | insertElement {e : Element} (he : e ∈ t.root :: t.elements) (hne : e.id ≠ rootId)
    (name : String) (after : Bool) :
    Step t (fun _ => False) (t.insertElement e.id name after)
  | remove {e : Element} (he : e ∈ t.root :: t.elements) (hne : e.id ≠ rootId) :
    Step t (fun id => id = e.id ∨ t.IsAncestor e.id id) (t.remove e.id)

variable {taken : NodeId → Prop}

/-- **Every step keeps a tree well-formed.** -/
theorem WellFormed.step (h : t.WellFormed) (hstep : t.Step taken t') : t'.WellFormed := by
  cases hstep with
  | setAttribute he name value => exact h.setAttribute _ name value
  | eraseAttribute he name => exact h.eraseAttribute _ name
  | setText he text => exact h.setText _ text
  | appendElement he name => exact h.appendElement _ name
  | insertElement he hne name after => exact h.insertElement _ name after
  | remove he hne => exact h.remove _

/-- An element that is put beside another is in the tree. -/
theorem WellFormed.mem_insertElement (h : t.WellFormed) {e : Element}
    (he : e ∈ t.root :: t.elements) (hne : e.id ≠ rootId) (name : String) (after : Bool) :
    t.newElement name ∈ (t.insertElement e.id name after).root ::
      (t.insertElement e.id name after).elements := by
  rw [← elements_whole] at he ⊢
  rw [whole_insertElement hne]
  obtain ⟨before, behind, -, hafter⟩ := Forest.elements_replaceAt h.nodup_whole he
  rw [hafter]
  refine List.mem_append_right _ (List.mem_append_left _ ?_)
  cases after <;> simp [Forest.ofElement, Forest.elements, newElement]

/-- Identities are handed out in ascending order. -/
theorem Step.next_le (hstep : t.Step taken t') : t.next ≤ t'.next := by
  cases hstep with
  | setAttribute he name value => exact Nat.le_of_eq (modify_next ..).symm
  | eraseAttribute he name => exact Nat.le_of_eq (modify_next ..).symm
  | setText he text =>
    unfold Tree.setText
    split
    · exact Nat.le_of_eq (modify_next ..).symm
    · exact Nat.le_succ _
  | appendElement he name => exact Nat.le_succ _
  | insertElement he hne name after => exact Nat.le_succ _
  | remove he hne => exact Nat.le_refl _

/-- The identities of all elements with their names. -/
def labels (t : Tree) : List (NodeId × String) :=
  t.whole.labels

/-- **What a step takes out**: of the elements that were there, those that have not been taken out
are there after the step, with their names, and a new element has a new identity. -/
theorem Step.mem_labels_iff (h : t.WellFormed) (hstep : t.Step taken t') {id : NodeId}
    (hid : id < t.next) {name : String} :
    (id, name) ∈ t'.labels ↔ (id, name) ∈ t.labels ∧ ¬ taken id := by
  have hnew : id ≠ t.next := Nat.ne_of_lt hid
  cases hstep with
  | @setAttribute e he own value =>
    rw [← elements_whole] at he
    rw [labels, labels, whole_setAttribute]
    refine Forest.mem_labels_replaceAt h.nodup_whole he False.elim ?_
    simp [Element.name, Tag.set]
  | @eraseAttribute e he own =>
    rw [← elements_whole] at he
    rw [labels, labels, whole_eraseAttribute]
    refine Forest.mem_labels_replaceAt h.nodup_whole he False.elim ?_
    simp [Element.name, Tag.erase]
  | @setText e he text =>
    rw [h.isAncestor_iff he]
    rw [← elements_whole] at he
    rw [labels, labels, whole_setText]
    refine Forest.mem_labels_replaceAt h.nodup_whole he (List.mem_cons_of_mem _) ?_
    have hnone : (if text.isEmpty then Forest.nil
        else .ofLeaf t.next (.text text)).labels = [] := by
      split <;> rfl
    rw [Forest.labels_ofElement, Forest.labels_ofElement, hnone]
    constructor
    · intro hmem
      obtain ⟨rfl, rfl⟩ := Prod.mk.inj (List.mem_singleton.mp hmem)
      exact ⟨List.mem_cons_self, Forest.id_not_mem_content h.nodup_whole he⟩
    · rintro ⟨hmem, htaken⟩
      rcases List.mem_cons.mp hmem with hself | hmem
      · exact List.mem_singleton.mpr hself
      · exact absurd (Forest.mem_nodeIds_of_mem_labels hmem) htaken
  | @appendElement e he own =>
    rw [← elements_whole] at he
    rw [labels, labels, whole_appendElement]
    refine Forest.mem_labels_replaceAt h.nodup_whole he False.elim ?_
    simp [Element.name, newElement, hnew]
  | @insertElement e he hne own after =>
    rw [← elements_whole] at he
    rw [labels, labels, whole_insertElement hne]
    refine Forest.mem_labels_replaceAt h.nodup_whole he False.elim ?_
    cases after <;> simp [newElement, hnew]
  | @remove e he hne =>
    show _ ↔ _ ∧ ¬ (id = e.id ∨ t.IsAncestor e.id id)
    rw [h.isAncestor_iff he]
    rw [← elements_whole] at he
    rw [labels, labels, whole_remove hne]
    refine Forest.mem_labels_replaceAt h.nodup_whole he List.mem_cons.mpr ?_
    constructor
    · exact fun hmem => absurd hmem List.not_mem_nil
    · rintro ⟨hmem, htaken⟩
      rw [Forest.labels_ofElement] at hmem
      rcases List.mem_cons.mp hmem with hself | hmem
      · exact absurd (.inl (Prod.mk.inj hself).1) htaken
      · exact absurd (.inr (Forest.mem_nodeIds_of_mem_labels hmem)) htaken

end Tree

end BuildProject
