import BuildProject.Proofs.Document.References

/-!
# References carried over to a copy

A copy has the nodes of its document under their identities. From then on the two are changed on
their own, in any order (`Twins.after_eq`), and both hand out identities from the same one on. So a
reference that had been handed out when the copy was made is carried over to the copy of its
element for as long as that is there, and a reference that has been handed out since leads to an
element made in the copy under the same identity, if there is one
(`Document.Reachable.counterpart?_after`).
-/

namespace BuildProject

variable {d : Document} {r s : ElementRef} {e : Element}

namespace Document

/-! ## What has been handed out -/

/-- Whether a reference is handed out at some point of some changes: before them, between two of
them or after them. -/
def HandedOut (d : Document) (changes : List Change) (r : ElementRef) : Prop :=
  ∃ before later, changes = before ++ later ∧ (d.after before).HandsOut r

theorem after_append (d : Document) (changes more : List Change) :
    d.after (changes ++ more) = (d.after changes).after more :=
  List.foldl_append

theorem next_le_after (hd : d.tree.WellFormed) (changes : List Change) :
    d.tree.next ≤ (d.after changes).tree.next := by
  induction changes generalizing d with
  | nil => exact Nat.le_refl _
  | cons change changes ih =>
    obtain ⟨taken, hsteps, -⟩ := steps_after hd change
    exact Nat.le_trans hsteps.next_le (ih (hsteps.wellFormed hd))

/-- A reference to an element that is there is handed out. -/
theorem handsOut_of_resolve (h : d.resolve r = .ok e) : d.HandsOut r := by
  obtain ⟨hdocument, hfind⟩ := resolve_eq_ok_iff.mp h
  have hr : d.ref e = r := by rw [ref, Tree.id_of_find? hfind, ← hdocument]
  exact hr ▸ .element (mem_of_resolve h)

/-- What has been handed out belongs to the document, under an identity that it has given. -/
theorem HandedOut.bounds (hd : d.Reachable) {changes : List Change} (h : d.HandedOut changes r) :
    r.document = d.id ∧ r.node < (d.after changes).tree.next := by
  obtain ⟨before, later, rfl, hout⟩ := h
  have hbefore := hd.after before
  obtain ⟨e, he⟩ := hout.resolve hbefore
  refine ⟨(resolve_eq_ok_iff.mp he).1.trans (after_id hd.wellFormed before), ?_⟩
  rw [after_append]
  exact Nat.lt_of_lt_of_le (lt_next_of_resolve hbefore.wellFormed he)
    (next_le_after hbefore.wellFormed later)

/-- What is handed out by later changes only has an identity that was not given before. -/
theorem HandedOut.next_le (hd : d.Reachable) {earlier more : List Change}
    (h : d.HandedOut (earlier ++ more) r) (hnew : ¬ d.HandedOut earlier r) :
    (d.after earlier).tree.next ≤ r.node := by
  by_contra hlt
  obtain ⟨before, later, hsplit, hout⟩ := h
  rcases List.append_eq_append_iff.mp hsplit with ⟨between, rfl, rfl⟩ | ⟨between, rfl, rfl⟩
  · -- an element that had its identity then was there then, since none comes back
    rw [after_append] at hout
    have hthen := hd.after earlier
    obtain ⟨e, he⟩ := hout.resolve (hthen.after between)
    obtain ⟨⟨old, hold, -⟩, -⟩ := (exists_resolve_after_iff hthen.wellFormed
      (Nat.not_le.mp hlt) between).mp ⟨e, he, rfl⟩
    exact hnew ⟨earlier, [], (List.append_nil _).symm, handsOut_of_resolve hold⟩
  · exact hnew ⟨before, between, rfl, hout⟩

/-! ## Carrying over -/

theorem counterpart?_eq_some_iff {c : Document} :
    c.counterpart? r = some s ↔ s = ⟨c.id, r.node⟩ ∧ ∃ e, c.resolve s = .ok e := by
  rw [counterpart?, Option.map_eq_some_iff]
  constructor
  · rintro ⟨e, hfind, rfl⟩
    have hnode : (c.ref e).node = r.node := Tree.id_of_find? hfind
    exact ⟨congrArg (ElementRef.mk c.id) hnode, e, resolve_eq_ok rfl (hnode.symm ▸ hfind)⟩
  · rintro ⟨rfl, e, he⟩
    have hfind := (resolve_eq_ok_iff.mp he).2
    exact ⟨e, hfind, congrArg (ElementRef.mk c.id) (Tree.id_of_find? hfind)⟩

end Document

/-! ## A document and its copy -/

/-- One of two documents, of which one is a copy of the other. -/
inductive Side where
  | source
  | copy
deriving DecidableEq, Repr

/-- A document and its copy. -/
structure Twins where
  source : Document
  copy : Document
deriving DecidableEq, Repr

namespace Twins

/-- A document with the copy that is made of it. -/
def ofDocument (d : Document) (id : DocumentId) : Twins :=
  ⟨d, d.copy id⟩

/-- A change of one of the two, whether it succeeds or fails. -/
def change (t : Twins) : Side × Change → Twins
  | (.source, change) => { t with source := t.source.after [change] }
  | (.copy, change) => { t with copy := t.copy.after [change] }

/-- The two after some changes of either. -/
def after (t : Twins) (changes : List (Side × Change)) : Twins :=
  changes.foldl Twins.change t

/-- The changes of one of the two. -/
def changesOf (side : Side) (changes : List (Side × Change)) : List Change :=
  (changes.filter (·.1 = side)).map Prod.snd

/-- **The two are changed on their own**: each is as if the changes of the other had not been made.
-/
theorem after_eq (t : Twins) (changes : List (Side × Change)) :
    t.after changes = ⟨t.source.after (changesOf .source changes),
      t.copy.after (changesOf .copy changes)⟩ := by
  induction changes generalizing t with
  | nil => rfl
  | cons first changes ih =>
    obtain ⟨side, change⟩ := first
    show (t.change (side, change)).after changes = _
    rw [ih]
    cases side <;> rfl

end Twins

namespace Document

/-- **References carried over.** A document is copied after some changes, and then it and the copy
are changed further, in any order. A reference that the document had handed out by the time of the
copy is carried over exactly if its element was there to be copied and no change has taken the copy
of it out, and then to that copy, which is there under its name. A reference that the document has
handed out since is carried over exactly if the copy has an element under the same identity, and
then to that element, which is the copy of none. -/
theorem Reachable.counterpart?_after (hd : d.Reachable) (earlier : List Change) (id : DocumentId)
    (changes : List (Side × Change)) :
    let copied := d.after earlier
    let twins := (Twins.ofDocument copied id).after changes
    twins.source = d.after (earlier ++ Twins.changesOf .source changes) ∧
    ∀ r, d.HandedOut (earlier ++ Twins.changesOf .source changes) r →
      (d.HandedOut earlier r → ∀ s, twins.copy.counterpart? r = some s ↔
        ∃ e, copied.resolve r = .ok e ∧ s = (copied.copy id).ref e ∧
          ¬ (copied.copy id).TakenOut (Twins.changesOf .copy changes) e.id ∧
          ∃ e', twins.copy.resolve s = .ok e' ∧ e'.id = e.id ∧ e'.name = e.name) ∧
      (¬ d.HandedOut earlier r → ∀ s, twins.copy.counterpart? r = some s ↔
        s = ⟨id, r.node⟩ ∧ (∃ e', twins.copy.resolve s = .ok e') ∧
          ∀ e ∈ copied.root :: copied.elements, s ≠ (copied.copy id).ref e) := by
  intro copied twins
  have hcopied : copied.Reachable := hd.after earlier
  have hcopy : (copied.copy id).Reachable := hcopied.copied id
  have hsource : twins.source = copied.after (Twins.changesOf .source changes) :=
    congrArg Twins.source (Twins.after_eq _ changes)
  have htwin : twins.copy = (copied.copy id).after (Twins.changesOf .copy changes) :=
    congrArg Twins.copy (Twins.after_eq _ changes)
  have hid : twins.copy.id = id := by
    rw [htwin]
    exact after_id hcopy.wellFormed _
  refine ⟨hsource.trans (after_append d _ _).symm, fun r hr => ⟨fun hold s => ?_, fun hnew s => ?_⟩⟩
  · rw [counterpart?_eq_some_iff, hid]
    obtain ⟨hdocument, hlt⟩ := hold.bounds hd
    constructor
    · rintro ⟨rfl, e', he'⟩
      rw [htwin] at he'
      obtain ⟨⟨e, he, hname⟩, htaken⟩ :=
        (exists_resolve_after_iff (r := ⟨id, r.node⟩) hcopy.wellFormed hlt _).mp ⟨e', he', rfl⟩
      have hfind := (resolve_eq_ok_iff.mp he).2
      have hnode : e.id = r.node := Tree.id_of_find? hfind
      have hnode' : e'.id = r.node := Tree.id_of_find? (resolve_eq_ok_iff.mp he').2
      have hresolve : copied.resolve r = .ok e :=
        resolve_eq_ok (hdocument.trans (after_id hd.wellFormed earlier).symm) hfind
      refine ⟨e, hresolve, congrArg (ElementRef.mk id) hnode.symm, hnode ▸ htaken, e', ?_, ?_⟩
      · rw [htwin]
        exact he'
      · exact ⟨hnode'.trans hnode.symm, hname.symm⟩
    · rintro ⟨e, he, rfl, -, e', he', -⟩
      have hnode : e.id = r.node := Tree.id_of_find? (resolve_eq_ok_iff.mp he).2
      exact ⟨congrArg (ElementRef.mk id) hnode, e', he'⟩
  · rw [counterpart?_eq_some_iff, hid]
    refine and_congr_right fun hs => (and_iff_left fun e he hsame => ?_).symm
    -- the identity had not been given when the copy was made
    have hnext : copied.tree.next ≤ r.node := hr.next_le hd hnew
    have hnode : r.node = e.id := congrArg ElementRef.node (hs.symm.trans hsame)
    have hlt : e.id < copied.tree.next :=
      lt_next_of_resolve hcopied.wellFormed (r := copied.ref e)
        (resolve_eq_ok rfl (hcopied.wellFormed.find?_of_mem he))
    exact absurd (hnode ▸ hnext) (Nat.not_le.mpr hlt)

/-- Both get an element after the copy, under one identity: a reference to the one in the source
leads to the other in the copy. The group that was copied is carried over to its copy. -/
theorem Reachable.counterpart?_after_added :
    ∃ d : Document, Document.parse ⟨7⟩ "<Project><ItemGroup/></Project>" = .ok d ∧
      let changes : List (Side × Change) :=
        [(.source, .appendElement ⟨⟨7⟩, 1⟩ "Compile"), (.copy, .appendElement ⟨⟨8⟩, 0⟩ "Import")]
      let twins := (Twins.ofDocument d ⟨8⟩).after changes
      twins.copy.counterpart? ⟨⟨7⟩, 1⟩ = some ⟨⟨8⟩, 1⟩ ∧
      d.HandedOut (Twins.changesOf .source changes) ⟨⟨7⟩, 2⟩ ∧
      (twins.source.resolve ⟨⟨7⟩, 2⟩).toOption.map Element.name = some "Compile" ∧
      twins.copy.counterpart? ⟨⟨7⟩, 2⟩ = some ⟨⟨8⟩, 2⟩ ∧
      (twins.copy.resolve ⟨⟨8⟩, 2⟩).toOption.map Element.name = some "Import" ∧
      ∀ e ∈ d.root :: d.elements, ElementRef.mk ⟨8⟩ 2 ≠ (d.copy ⟨8⟩).ref e := by
  let group : Element := ⟨1, ⟨itemGroupElement, []⟩, .nil⟩
  let d : Document := .ofContent ⟨7⟩ ⟨⟨⟨projectElement, []⟩, .ofElement group, 2⟩, none, []⟩
  have hparse : Document.parse ⟨7⟩ "<Project><ItemGroup/></Project>" = .ok d := by decide +kernel
  refine ⟨d, hparse, ?_⟩
  intro changes twins
  have hd : d.Reachable := .parsed hparse
  obtain ⟨-, hcarried⟩ := hd.counterpart?_after [] ⟨8⟩ changes
  -- the group was there, and nothing has taken its copy out
  have hgroup : d.HandedOut [] ⟨⟨7⟩, 1⟩ := ⟨[], [], rfl, .element (e := group) (by decide)⟩
  have hgroup' : d.HandedOut (Twins.changesOf .source changes) ⟨⟨7⟩, 1⟩ :=
    ⟨[], _, rfl, .element (e := group) (by decide)⟩
  -- the new element was not
  have hnew : ¬ d.HandedOut [] ⟨⟨7⟩, 2⟩ := by
    intro h
    exact absurd (h.bounds hd).2 (by decide)
  have hsince : d.HandedOut (Twins.changesOf .source changes) ⟨⟨7⟩, 2⟩ := by
    refine ⟨_, [], (List.append_nil _).symm, ?_⟩
    exact .answered (.parsed hparse) (.appendElement ⟨⟨7⟩, 1⟩ "Compile") (by rfl)
  have hsome : twins.copy.counterpart? ⟨⟨7⟩, 2⟩ = some ⟨⟨8⟩, 2⟩ := by decide +kernel
  have hother := (((hcarried _ hsince).2 hnew _).mp hsome).2.2
  have hkept : twins.copy.counterpart? ⟨⟨7⟩, 1⟩ = some ⟨⟨8⟩, 1⟩ := by
    refine ((hcarried _ hgroup').1 hgroup _).mpr ⟨group, by decide +kernel, rfl, ?_, ?_⟩
    · intro htaken
      rcases takenOut_cons.mp htaken with htakes | hrest
      · exact htakes
      · exact takenOut_nil _ _ hrest
    · exact ⟨group, by decide +kernel, rfl, rfl⟩
  exact ⟨hkept, hsince, by decide +kernel, hsome, by decide +kernel, hother⟩

end Document

end BuildProject
