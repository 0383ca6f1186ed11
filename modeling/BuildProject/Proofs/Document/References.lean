import BuildProject.Proofs.Document.Reachable

/-!
# References that last

A reference is handed out for an element that is in the tree, by looking at the document or as the
answer of a change. From then on it refers to that element under its name until the element, or an
element around it, is removed or wiped; after that it refers to nothing for good
(`Reachable.resolve_after`). All of it rests on the identities of the elements with their names:
what a change takes out is missing among them, and no identity comes back.
-/

namespace BuildProject

open Markup

variable {d d' : Document} {r : ElementRef} {e : Element} {taken : NodeId → Prop}

namespace Document

/-! ## References and names -/

/-- A reference refers to an element of some name if its identity stands there with the name. -/
theorem exists_resolve_iff (hd : d.tree.WellFormed) {name : String} :
    (∃ e, d.resolve r = .ok e ∧ e.name = name) ↔
      r.document = d.id ∧ (r.node, name) ∈ d.tree.labels := by
  simp only [Tree.labels, Forest.labels, Tree.elements_whole, List.mem_map]
  constructor
  · rintro ⟨e, hresolve, rfl⟩
    obtain ⟨hdocument, hfind⟩ := resolve_eq_ok_iff.mp hresolve
    exact ⟨hdocument, e, mem_of_resolve hresolve, by rw [Tree.id_of_find? hfind]⟩
  · rintro ⟨hdocument, e, he, hlabel⟩
    obtain ⟨hid, hname⟩ := Prod.mk.inj hlabel
    exact ⟨e, resolve_eq_ok hdocument (hid ▸ hd.find?_of_mem he), hname⟩

/-- A reference of the document refers to an element or to nothing. -/
theorem resolve_eq_detached_iff (hdocument : r.document = d.id) :
    d.resolve r = .error .detached ↔ ¬ ∃ e, d.resolve r = .ok e := by
  rw [Document.resolve, if_neg (not_not_intro hdocument)]
  split <;> simp

/-- The identity of a reference has been handed out. -/
theorem lt_next_of_resolve (hd : d.tree.WellFormed) (h : d.resolve r = .ok e) :
    r.node < d.tree.next :=
  hd.lt_next _ (Tree.id_mem_of_find? (resolve_eq_ok_iff.mp h).2)

theorem Steps.exists_resolve_iff (h : d.Steps taken d') (hd : d.tree.WellFormed)
    (hr : r.node < d.tree.next) {name : String} :
    (∃ e, d'.resolve r = .ok e ∧ e.name = name) ↔
      (∃ e, d.resolve r = .ok e ∧ e.name = name) ∧ ¬ taken r.node := by
  rw [Document.exists_resolve_iff hd, Document.exists_resolve_iff (h.wellFormed hd), h.id_eq,
    h.mem_labels_iff hd hr, and_assoc]

/-- A reference to an element that is not taken out still refers to it. -/
theorem Steps.resolve (h : d.Steps taken d') (hd : d.tree.WellFormed) (hr : d.resolve r = .ok e)
    (htaken : ¬ taken r.node) : ∃ e', d'.resolve r = .ok e' := by
  obtain ⟨e', he', -⟩ :=
    (h.exists_resolve_iff hd (lt_next_of_resolve hd hr)).mpr ⟨⟨e, hr, rfl⟩, htaken⟩
  exact ⟨e', he'⟩

/-! ## Changes one after the other -/

/-- Whether one of some changes takes a node out of the document that it finds. -/
def TakenOut (d : Document) (changes : List Change) (id : NodeId) : Prop :=
  ∃ before change later, changes = before ++ change :: later ∧ change.TakesOut (d.after before) id

theorem takenOut_nil (d : Document) (id : NodeId) : ¬ d.TakenOut [] id := by
  rintro ⟨before, change, later, hnil, -⟩
  exact absurd hnil (by simp)

/-- A node is taken out by the first of some changes or by a later one. -/
theorem takenOut_cons {change : Change} {changes : List Change} {id : NodeId} :
    d.TakenOut (change :: changes) id ↔
      change.TakesOut d id ∨ (d.after [change]).TakenOut changes id := by
  constructor
  · rintro ⟨before, other, later, hsplit, htakes⟩
    cases before with
    | nil =>
      obtain ⟨rfl, -⟩ := List.cons.inj hsplit
      exact .inl htakes
    | cons first before =>
      obtain ⟨rfl, rfl⟩ := List.cons.inj hsplit
      exact .inr ⟨before, other, later, rfl, htakes⟩
  · rintro (htakes | ⟨before, other, later, rfl, htakes⟩)
    · exact ⟨[], change, changes, rfl, htakes⟩
    · exact ⟨change :: before, other, later, rfl, htakes⟩

/-- What has been taken out has been taken out after more changes. -/
theorem TakenOut.append {changes : List Change} {id : NodeId} (h : d.TakenOut changes id)
    (more : List Change) : d.TakenOut (changes ++ more) id := by
  obtain ⟨before, change, later, rfl, htakes⟩ := h
  exact ⟨before, change, later ++ more, by rw [List.append_assoc, List.cons_append], htakes⟩

/-- A change is some single changes that take out what it does. -/
theorem steps_after (hd : d.tree.WellFormed) (change : Change) :
    ∃ taken, d.Steps taken (d.after [change]) ∧
      ∀ id < d.tree.next, taken id ↔ change.TakesOut d id :=
  change.takes_action d hd

/-- **After any changes** a reference refers to an element of the same name as before, unless one
of the changes has taken it out. -/
theorem exists_resolve_after_iff (hd : d.tree.WellFormed) (hr : r.node < d.tree.next)
    (changes : List Change) {name : String} :
    (∃ e, (d.after changes).resolve r = .ok e ∧ e.name = name) ↔
      (∃ e, d.resolve r = .ok e ∧ e.name = name) ∧ ¬ d.TakenOut changes r.node := by
  induction changes generalizing d with
  | nil => exact (and_iff_left (takenOut_nil d r.node)).symm
  | cons change changes ih =>
    obtain ⟨taken, hsteps, htaken⟩ := steps_after hd change
    rw [after_cons, ih (hsteps.wellFormed hd) (Nat.lt_of_lt_of_le hr hsteps.next_le),
      hsteps.exists_resolve_iff hd hr, htaken _ hr, takenOut_cons, not_or, and_assoc]

theorem after_id (hd : d.tree.WellFormed) (changes : List Change) :
    (d.after changes).id = d.id := by
  induction changes generalizing d with
  | nil => rfl
  | cons change changes ih =>
    obtain ⟨_, hsteps, -⟩ := steps_after hd change
    rw [after_cons, ih (hsteps.wellFormed hd), hsteps.id_eq]

/-- A reference to an element that no change takes out refers to it, under its name. -/
theorem resolve_after_of_not_takenOut (hd : d.tree.WellFormed) (he : d.resolve r = .ok e)
    {changes : List Change} (htaken : ¬ d.TakenOut changes e.id) :
    ∃ e', (d.after changes).resolve r = .ok e' ∧ e'.id = e.id ∧ e'.name = e.name := by
  have hid : e.id = r.node := Tree.id_of_find? (resolve_eq_ok_iff.mp he).2
  obtain ⟨e', he', hname⟩ := (exists_resolve_after_iff hd (lt_next_of_resolve hd he) changes).mpr
    ⟨⟨e, he, rfl⟩, hid ▸ htaken⟩
  exact ⟨e', he', (Tree.id_of_find? (resolve_eq_ok_iff.mp he').2).trans hid.symm, hname⟩

/-- A reference is detached exactly if one of the changes has taken its element out. -/
theorem resolve_after_eq_detached_iff (hd : d.tree.WellFormed) (he : d.resolve r = .ok e)
    (changes : List Change) :
    (d.after changes).resolve r = .error .detached ↔ d.TakenOut changes e.id := by
  obtain ⟨hdocument, hfind⟩ := resolve_eq_ok_iff.mp he
  rw [resolve_eq_detached_iff (hdocument.trans (after_id hd changes).symm)]
  constructor
  · intro hnone
    by_contra htaken
    obtain ⟨e', he', -⟩ := resolve_after_of_not_takenOut hd he htaken
    exact hnone ⟨e', he'⟩
  · rintro htaken ⟨e', he'⟩
    have hkept :=
      (exists_resolve_after_iff hd (lt_next_of_resolve hd he) changes).mp ⟨e', he', rfl⟩
    exact hkept.2 (Tree.id_of_find? hfind ▸ htaken)

end Document

/-! ## What a change answers -/

namespace Edit

/-- Every reference that an edit answers refers to an element of the document that it leaves. -/
def Answers (action : Edit ElementRef) : Prop :=
  ∀ ⦃d d' : Document⦄ ⦃r : ElementRef⦄, d.tree.WellFormed → action.run.run d = (.ok r, d') →
    d'.tree.WellFormed ∧ ∃ e, d'.resolve r = .ok e

theorem answers_appendElement (parent : ElementRef) (name : String) :
    Answers (appendElement parent name) := by
  intro d d' r hd hrun
  obtain ⟨e, hresolve, -⟩ := run_resolve_bind_eq_ok.mp hrun
  rw [run_appendElement hresolve] at hrun
  obtain ⟨hr, rfl⟩ := Prod.mk.inj hrun
  obtain rfl := Except.ok.inj hr
  exact ⟨hd.appendElement e.id name, _,
    resolve_appended hd (Document.resolve_eq_ok_iff.mp hresolve).2 name⟩

theorem answers_insertElement (anchor : ElementRef) (name : String) (after : Bool) :
    Answers (insertElement anchor name after) := by
  intro d d' r hd hrun
  obtain ⟨e, hresolve, hrest⟩ := run_resolve_bind_eq_ok.mp hrun
  split at hrest
  · exact absurd (Prod.mk.inj hrest).1 (by simp)
  · next hne =>
    obtain ⟨hr, rfl⟩ := Prod.mk.inj hrest
    obtain rfl := Except.ok.inj hr
    have hinserted := hd.insertElement e.id name after
    have hnew := hd.mem_insertElement (Document.mem_of_resolve hresolve) hne name after
    exact ⟨hinserted, _, Document.resolve_eq_ok rfl (hinserted.find?_of_mem hnew)⟩

/-- The element that is found or added. -/
theorem answers_childNamed (r : ElementRef) (name : String) : Answers (childNamed r name) := by
  intro d d' child hd hrun
  obtain ⟨e, hresolve, hrest⟩ := run_resolve_bind_eq_ok.mp hrun
  split at hrest
  · next found hfound =>
    obtain ⟨hr, rfl⟩ := Prod.mk.inj hrest
    obtain rfl := Except.ok.inj hr
    have hmem := Tree.children_subset (Document.mem_of_resolve hresolve)
      (List.mem_of_find?_eq_some hfound)
    exact ⟨hd, _, Document.resolve_eq_ok rfl (hd.find?_of_mem hmem)⟩
  · exact answers_appendElement r name hd hrest

/-- The answer may be found by any edit before. -/
theorem Answers.after {first : Edit α} {rest : α → Edit ElementRef}
    (hfirst : ∀ d : Document, Keeps d.Intact first) (hrest : ∀ a, Answers (rest a)) :
    Answers (first >>= rest) := by
  intro d d' r hd hrun
  obtain ⟨a, s, hran, hrun⟩ := run_bind_eq_ok.mp hrun
  obtain ⟨_, hsteps, -⟩ := hfirst d d (.refl d)
  rw [hran] at hsteps
  exact hrest a (hsteps.wellFormed hd) hrun

/-- The element that is answered may be changed if the change does not take it out. -/
theorem Answers.changed {action : Edit ElementRef} {change : ElementRef → Edit Unit}
    {out : ElementRef → Document → NodeId → Prop} (h : Answers action)
    (hchange : ∀ r, Takes (change r) (out r))
    (hout : ∀ {d r e}, d.tree.WellFormed → d.resolve r = .ok e → ¬ out r d r.node) :
    Answers (action >>= fun r => change r >>= fun _ => pure r) := by
  intro d d' r hd hrun
  obtain ⟨answer, s, hran, hrun⟩ := run_bind_eq_ok.mp hrun
  obtain ⟨hs, e, hresolve⟩ := h hd hran
  obtain ⟨⟨⟩, s', hchanged, hrun⟩ := run_bind_eq_ok.mp hrun
  obtain ⟨hr, rfl⟩ := Prod.mk.inj hrun
  obtain rfl := Except.ok.inj hr
  obtain ⟨taken, hsteps, htaken⟩ := hchange answer s hs
  rw [hchanged] at hsteps
  have hkept := mt (htaken _ (Document.lt_next_of_resolve hs hresolve)).mp (hout hs hresolve)
  exact ⟨hsteps.wellFormed hs, hsteps.resolve hs hresolve hkept⟩

theorem answers_addWith (parent : ElementRef) (element name value : String) :
    Answers do
      let added ← appendElement parent element
      setAttribute added name value
      return added :=
  (answers_appendElement parent element).changed
    (fun r => takes_of_intact fun _ => intact_setAttribute r name value) fun _ _ => not_false

theorem answers_setMetadata (item : ElementRef) (name value : String) :
    Answers (setMetadata item name value) := by
  refine (answers_childNamed item name).changed (fun r => takes_setText r value) ?_
  rintro d r e hd hresolve ⟨e', hresolve', hinside⟩
  obtain rfl := Except.ok.inj (hresolve.symm.trans hresolve')
  rw [← Tree.id_of_find? (Document.resolve_eq_ok_iff.mp hresolve).2] at hinside
  exact hd.not_isAncestor_self e.id hinside

end Edit

/-- **Every reference that a change answers** refers to an element of the document that the change
leaves. -/
theorem Change.resolve_answer (change : Change) (hd : d.tree.WellFormed)
    (h : change.action.run.run d = (.ok (some r), d')) : ∃ e, d'.resolve r = .ok e := by
  have hsome {action : Edit ElementRef} (haction : Edit.Answers action)
      (hrun : (some <$> action).run.run d = (.ok (some r), d')) : ∃ e, d'.resolve r = .ok e := by
    rw [map_eq_pure_bind] at hrun
    obtain ⟨answer, s, hran, hpure⟩ := run_bind_eq_ok.mp hrun
    obtain ⟨hanswer, rfl⟩ := Prod.mk.inj hpure
    obtain rfl := Option.some.inj (Except.ok.inj hanswer)
    exact (haction hd hran).2
  have hnone {α : Type} {action : Edit α}
      (hrun : (action >>= fun _ => pure none).run.run d = (.ok (some r), d')) :
      ∃ e, d'.resolve r = .ok e := by
    obtain ⟨_, s, -, hpure⟩ := run_bind_eq_ok.mp hrun
    exact absurd (Except.ok.inj (Prod.mk.inj hpure).1) (by simp)
  cases change with
  | setAttribute r name value => exact hnone h
  | removeAttribute r name => exact hnone h
  | setText r text => exact hnone h
  | appendElement parent name => exact hsome (Edit.answers_appendElement parent name) h
  | insertElement anchor name after =>
    exact hsome (Edit.answers_insertElement anchor name after) h
  | remove r => exact hnone h
  | createPropertyGroup anchor after =>
    exact hsome (Edit.answers_insertElement anchor _ after) h
  | createItemGroup anchor after => exact hsome (Edit.answers_insertElement anchor _ after) h
  | addPropertyGroup =>
    refine hsome (.after (fun _ => Edit.keeps_rootRef) fun root => ?_) h
    exact Edit.answers_appendElement root _
  | addItemGroup =>
    refine hsome (.after (fun _ => Edit.keeps_rootRef) fun root => ?_) h
    exact Edit.answers_appendElement root _
  | addImport project =>
    refine hsome (.after (fun _ => Edit.keeps_rootRef) fun root => ?_) h
    exact Edit.answers_addWith root _ _ project
  | setCondition r conditions? => exact hnone h
  | setProperty group name value =>
    refine hsome (.after (fun _ => Edit.keeps_expectKind group _) fun _ => ?_) h
    exact Edit.answers_setMetadata group name value
  | addItem group kind includeText =>
    refine hsome (.after (fun _ => Edit.keeps_expectKind group _) fun _ => ?_) h
    exact Edit.answers_addWith group kind _ includeText
  | setItemInclude item includeText => exact hnone h
  | setMetadata item name value => exact hsome (Edit.answers_setMetadata item name value) h

/-! ## Handing out references -/

/-- The references that a document hands out: those to the root and to the elements below it, and
those that it has just answered to a change. -/
inductive Document.HandsOut : Document → ElementRef → Prop where
  | element {d : Document} {e : Element} (he : e ∈ d.root :: d.elements) : HandsOut d (d.ref e)
  | answered {d d' : Document} {r : ElementRef} (hd : d.Reachable) (change : Change)
    (h : change.action.run.run d = (.ok (some r), d')) : HandsOut d' r

theorem Document.HandsOut.resolve (h : d.HandsOut r) (hd : d.Reachable) :
    ∃ e, d.resolve r = .ok e := by
  cases h with
  | element he => exact ⟨_, resolve_eq_ok rfl (hd.wellFormed.find?_of_mem he)⟩
  | answered hd change h => exact change.resolve_answer hd.wellFormed h

/-- **References last.** A reference that a document hands out refers to an element. After any
changes it refers to the same element, under the same name, or it is detached; it is detached
exactly if one of the changes has removed or wiped the element or an element around it; and once
detached it stays so and is not handed out again. -/
theorem Document.Reachable.resolve_after (hd : d.Reachable) (h : d.HandsOut r) :
    ∃ e, d.resolve r = .ok e ∧ ∀ changes : List Change,
      ((∃ e', (d.after changes).resolve r = .ok e' ∧ e'.id = e.id ∧ e'.name = e.name) ∨
        (d.after changes).resolve r = .error .detached) ∧
      ((d.after changes).resolve r = .error .detached ↔ d.TakenOut changes e.id) ∧
      ((d.after changes).resolve r = .error .detached → ∀ more,
        (d.after (changes ++ more)).resolve r = .error .detached ∧
          ¬ (d.after (changes ++ more)).HandsOut r) := by
  obtain ⟨e, he⟩ := h.resolve hd
  have hiff := resolve_after_eq_detached_iff hd.wellFormed he
  refine ⟨e, he, fun changes => ⟨?_, hiff changes, fun hdetached more => ?_⟩⟩
  · by_cases htaken : d.TakenOut changes e.id
    · exact .inr ((hiff changes).mpr htaken)
    · exact .inl (resolve_after_of_not_takenOut hd.wellFormed he htaken)
  · have hgone := (hiff (changes ++ more)).mpr (((hiff changes).mp hdetached).append more)
    refine ⟨hgone, fun hout => ?_⟩
    obtain ⟨e', he'⟩ := hout.resolve (hd.after (changes ++ more))
    rw [hgone] at he'
    exact absurd he' (by simp)

/-- A property of a group is wiped with the text of the group, and nothing brings it back. -/
theorem Document.Reachable.resolve_after_setText :
    ∃ d, Document.parse ⟨7⟩ "<Project><PropertyGroup><Debug>1</Debug></PropertyGroup></Project>" =
        .ok d ∧ d.HandsOut ⟨⟨7⟩, 2⟩ ∧ ∀ more,
          (d.after (.setText ⟨⟨7⟩, 1⟩ "" :: more)).resolve ⟨⟨7⟩, 2⟩ = .error .detached := by
  let property : Element := ⟨2, ⟨"Debug", []⟩, .ofLeaf 3 (.text "1")⟩
  let group : Element := ⟨1, ⟨propertyGroupElement, []⟩, .ofElement property⟩
  let d : Document := .ofContent ⟨7⟩ ⟨⟨⟨projectElement, []⟩, .ofElement group, 4⟩, none, []⟩
  have hparse : Document.parse ⟨7⟩
      "<Project><PropertyGroup><Debug>1</Debug></PropertyGroup></Project>" = .ok d := by
    decide +kernel
  have hout : d.HandsOut ⟨⟨7⟩, 2⟩ := .element (e := property) (by decide)
  refine ⟨d, hparse, hout, fun more => ?_⟩
  obtain ⟨e, he, hafter⟩ := Reachable.resolve_after (.parsed hparse) hout
  obtain ⟨-, hdetached, hstays⟩ := hafter [.setText ⟨⟨7⟩, 1⟩ ""]
  have hid : e.id = 2 := Tree.id_of_find? (resolve_eq_ok_iff.mp he).2
  have hinside : d.tree.IsAncestor group.id e.id := .single ⟨group, by rw [hid]; decide, rfl⟩
  exact (hstays (hdetached.mpr ⟨[], _, [], rfl, group, by decide, hinside⟩) more).1

end BuildProject
