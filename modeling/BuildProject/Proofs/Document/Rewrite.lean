import BuildProject.Document.Query
import BuildProject.Proofs.Tree.Lookup

/-!
# Rewriting items

A rewriting goes through a document once. Where it chooses an element, the element gets another
include, and perhaps a link as its last child; all else stays as and where it is. The choice may
depend on whether the element stands in an item group.

`rewrite_modify` says that changing one more element first is choosing that element too, so changing
some elements one after the other is one rewriting. What a reader of the elements sees after a
rewriting is `map_filter_rewrite`: what it saw before, if it has no eye for includes and links.
-/

namespace BuildProject

open Markup

/-! ## Rewritings -/

/-- What becomes of an element: its new include, and the text of the link that it gets, if any. -/
structure Rewrite where
  includeText : String
  link? : Option String
deriving DecidableEq, Repr

namespace Rewrite

/-- The tag of an element that is rewritten, or is not. -/
def tag (r? : Option Rewrite) (tag : Tag) : Tag :=
  match r? with
  | none => tag
  | some r => tag.set includeAttribute r.includeText

/-- The link as an element of its own. -/
def linkElement (link : String) (id : NodeId) (text : String) : Element :=
  ⟨id, ⟨link, []⟩, .ofLeaf (id + 1) (.text text)⟩

/-- What an element gets behind its content. -/
def added (r? : Option Rewrite) (link : String) (id : NodeId) : Forest :=
  match r?.bind Rewrite.link? with
  | none => .nil
  | some text => .ofElement (linkElement link id text)

end Rewrite

/-- How the elements of a document are rewritten. -/
structure Rewriting where
  /-- What becomes of an element; the first argument says whether it stands in an item group. -/
  choose : Bool → Element → Option Rewrite
  /-- The name of the links. -/
  link : String
  /-- The identity of the link that an element gets. -/
  fresh : NodeId → NodeId

/-- The forest with its elements rewritten; `grouped` says whether those at the top stand in an item
group. -/
def Forest.rewrite (how : Rewriting) (grouped : Bool) : Forest → Forest
  | nil => nil
  | element id tag content rest =>
    let r? := how.choose grouped ⟨id, tag, content⟩
    element id (Rewrite.tag r? tag)
      (rewrite how (tag.name == itemGroupElement) content ++ Rewrite.added r? how.link (how.fresh id))
      (rewrite how grouped rest)
  | leaf id l rest => leaf id l (rewrite how grouped rest)

/-- An element with its content after a rewriting. -/
def Element.rewrite (how : Rewriting) (grouped : Bool) (e : Element) : Element :=
  ⟨e.id, Rewrite.tag (how.choose grouped e) e.tag,
    e.content.rewrite how (e.name == itemGroupElement) ++
      Rewrite.added (how.choose grouped e) how.link (how.fresh e.id)⟩

/-! ## What a rewriting leaves -/

@[simp] theorem Rewrite.name_tag (r? : Option Rewrite) (tag : Tag) :
    (Rewrite.tag r? tag).name = tag.name := by
  cases r? <;> rfl

/-- A rewriting changes no attribute but the include. -/
theorem Rewrite.attribute?_tag {name : String} (h : name ≠ includeAttribute) (r? : Option Rewrite)
    (tag : Tag) : (Rewrite.tag r? tag).attribute? name = tag.attribute? name := by
  cases r? with
  | none => rfl
  | some r => rw [Rewrite.tag, Tag.attribute?_set, if_neg h]

@[simp] theorem Rewrite.children_linkElement (link : String) (id : NodeId) (text : String) :
    (Rewrite.linkElement link id text).children = [] := rfl

/-- What an element gets is a link, or nothing. -/
theorem Rewrite.mem_children_added {r? : Option Rewrite} {link : String} {id : NodeId} {e : Element}
    (h : e ∈ (Rewrite.added r? link id).children) : ∃ text, e = linkElement link id text := by
  unfold Rewrite.added at h
  split at h
  · exact absurd h List.not_mem_nil
  · exact ⟨_, List.mem_singleton.mp h⟩

@[simp] theorem Rewrite.leaves_added (r? : Option Rewrite) (link : String) (id : NodeId) :
    (Rewrite.added r? link id).leaves = [] := by
  unfold Rewrite.added
  split <;> rfl

/-- Where nothing is chosen nothing changes. -/
theorem Forest.rewrite_eq_self {how : Rewriting} (h : ∀ grouped e, how.choose grouped e = none)
    (f : Forest) (grouped : Bool) : f.rewrite how grouped = f := by
  induction f generalizing grouped with
  | nil => rfl
  | element id tag content rest ihContent ihRest =>
    rw [rewrite, h, ihContent, ihRest]
    simp [Rewrite.tag, Rewrite.added]
  | leaf id l rest ih => rw [rewrite, ih]

namespace Forest

variable {how : Rewriting}

theorem rewrite_append (f g : Forest) (grouped : Bool) :
    (f ++ g).rewrite how grouped = f.rewrite how grouped ++ g.rewrite how grouped := by
  induction f with
  | nil => rfl
  | element id tag content rest _ ih => simp [rewrite, ih]
  | leaf id l rest ih => simp [rewrite, ih]

@[simp] theorem leaves_rewrite (f : Forest) (grouped : Bool) :
    (f.rewrite how grouped).leaves = f.leaves := by
  induction f with
  | nil => rfl
  | element id tag content rest _ ih => exact ih
  | leaf id l rest ih => rw [rewrite, leaves, leaves, ih]

theorem children_rewrite (f : Forest) (grouped : Bool) :
    (f.rewrite how grouped).children = f.children.map (Element.rewrite how grouped) := by
  induction f with
  | nil => rfl
  | element id tag content rest _ ih =>
    rw [rewrite, children, children, List.map_cons, ih]
    rfl
  | leaf id l rest ih => exact ih

end Forest

namespace Element

variable {how : Rewriting} {grouped : Bool} {e : Element}

@[simp] theorem id_rewrite : (e.rewrite how grouped).id = e.id := rfl

@[simp] theorem name_rewrite : (e.rewrite how grouped).name = e.name :=
  Rewrite.name_tag _ _

theorem attribute?_rewrite {name : String} (h : name ≠ includeAttribute) :
    (e.rewrite how grouped).attribute? name = e.attribute? name :=
  Rewrite.attribute?_tag h _ _

@[simp] theorem text_rewrite : (e.rewrite how grouped).text = e.text := by
  show Forest.text (_ ++ _) = Forest.text _
  rw [Forest.text, Forest.leaves_append, Forest.leaves_rewrite, Rewrite.leaves_added,
    List.append_nil]
  rfl

/-- The children are rewritten, and a link may stand behind them. -/
theorem children_rewrite : (e.rewrite how grouped).children =
    e.children.map (Element.rewrite how (e.name == itemGroupElement)) ++
      (Rewrite.added (how.choose grouped e) how.link (how.fresh e.id)).children := by
  show Forest.children (_ ++ _) = _
  rw [Forest.children_append, Forest.children_rewrite]
  rfl

/-- An element that is not chosen keeps its tag and gets no link. -/
theorem rewrite_of_choose_eq_none (h : how.choose grouped e = none) : e.rewrite how grouped
    = ⟨e.id, e.tag, e.content.rewrite how (e.name == itemGroupElement)⟩ := by
  rw [rewrite, h, Rewrite.added, Option.bind_none, Forest.append_nil, Rewrite.tag]

end Element

namespace Forest

variable {how : Rewriting}

/-- **What is seen of a rewritten forest**: a reader that passes over links and sees every other
element as it was sees what it saw before. -/
theorem map_filter_rewrite {β : Type} {sees : Element → Bool} {view : Element → β}
    (hlink : ∀ id text, sees (Rewrite.linkElement how.link (how.fresh id) text) = false)
    (hsees : ∀ grouped e, sees (e.rewrite how grouped) = sees e)
    (hview : ∀ grouped e, sees e = true → view (e.rewrite how grouped) = view e)
    (f : Forest) (grouped : Bool) :
    ((f.rewrite how grouped).elements.filter sees).map view
      = (f.elements.filter sees).map view := by
  induction f generalizing grouped with
  | nil => rfl
  | element id tag content rest ihContent ihRest =>
    have hadded : (Rewrite.added (how.choose grouped ⟨id, tag, content⟩) how.link
        (how.fresh id)).elements.filter sees = [] := by
      unfold Rewrite.added
      split
      · rfl
      · exact List.filter_eq_nil_iff.mpr fun e he => by
          rw [List.mem_singleton.mp he, hlink]
          exact Bool.false_ne_true
    have hself : ([(⟨id, tag, content⟩ : Element).rewrite how grouped].filter sees).map view
        = ([⟨id, tag, content⟩].filter sees).map view := by
      by_cases h : sees ⟨id, tag, content⟩ = true
      · simp [hsees, h, hview]
      · simp [hsees, h]
    have hbefore : (⟨id, tag, content⟩ : Element) :: (content.elements ++ rest.elements)
        = [⟨id, tag, content⟩] ++ content.elements ++ rest.elements := by simp
    have hafter : ((element id tag content rest).rewrite how grouped).elements
        = [(⟨id, tag, content⟩ : Element).rewrite how grouped] ++
          (content.rewrite how (tag.name == itemGroupElement)).elements ++
          (Rewrite.added (how.choose grouped ⟨id, tag, content⟩) how.link
            (how.fresh id)).elements ++
          (rest.rewrite how grouped).elements := by
      simp [rewrite, elements, Element.rewrite, Element.name]
    rw [hafter, elements, hbefore]
    simp only [List.filter_append, List.map_append, hself, hadded, ihContent, ihRest,
      List.append_nil]
  | leaf id l rest ih => exact ih grouped

/-! ## The same rewriting -/

/-- The elements in document order, each with whether it stands in an item group. -/
def placed (grouped : Bool) : Forest → List (Bool × Element)
  | nil => []
  | element id tag content rest =>
    (grouped, ⟨id, tag, content⟩) ::
      (placed (tag.name == itemGroupElement) content ++ placed grouped rest)
  | leaf _ _ rest => placed grouped rest

theorem map_snd_placed (f : Forest) (grouped : Bool) :
    (f.placed grouped).map Prod.snd = f.elements := by
  induction f generalizing grouped with
  | nil => rfl
  | element id tag content rest ihContent ihRest =>
    rw [placed, elements, List.map_cons, List.map_append, ihContent, ihRest]
  | leaf id l rest ih => exact ih grouped

/-- The elements are there after a rewriting, each rewritten. -/
theorem mem_elements_rewrite {f : Forest} {grouped : Bool} {entry : Bool × Element}
    (h : entry ∈ f.placed grouped) (how : Rewriting) :
    entry.2.rewrite how entry.1 ∈ (f.rewrite how grouped).elements := by
  induction f generalizing grouped with
  | nil => exact absurd h List.not_mem_nil
  | element id tag content rest ihContent ihRest =>
    rw [rewrite, elements, elements_append]
    rcases List.mem_cons.mp h with rfl | h
    · exact List.mem_cons_self
    · refine List.mem_cons_of_mem _ ?_
      rcases List.mem_append.mp h with h | h
      · exact List.mem_append_left _ (List.mem_append_left _ (ihContent h))
      · exact List.mem_append_right _ (ihRest h)
  | leaf id l rest ih => exact ih h

/-- Of the elements those stand in an item group that are a child of one. -/
theorem mem_placed_true_iff {f : Forest} {grouped : Bool} {e : Element} :
    (true, e) ∈ f.placed grouped ↔ grouped = true ∧ e ∈ f.children ∨
      e ∈ (f.elements.filter (·.name == itemGroupElement)).flatMap Element.children := by
  induction f generalizing grouped with
  | nil => simp [placed, children, elements]
  | element id tag content rest ihContent ihRest =>
    have hgroups : e ∈ ((element id tag content rest).elements.filter
          (·.name == itemGroupElement)).flatMap Element.children ↔
        (tag.name == itemGroupElement) = true ∧ e ∈ content.children ∨
          e ∈ (content.elements.filter (·.name == itemGroupElement)).flatMap Element.children ∨
          e ∈ (rest.elements.filter (·.name == itemGroupElement)).flatMap Element.children := by
      rw [elements, List.filter_cons, List.filter_append]
      split
      · next hname =>
        have hname' : (tag.name == itemGroupElement) = true := hname
        simp [hname', Element.children]
      · next hname =>
        have hname' : ¬ (tag.name == itemGroupElement) = true := hname
        simp [hname']
    rw [placed, List.mem_cons, List.mem_append, ihContent, ihRest, hgroups, children,
      List.mem_cons, Prod.mk.injEq, @eq_comm _ true]
    grind
  | leaf id l rest ih => exact ih

/-- Rewritings that choose alike where the elements are do the same. -/
theorem rewrite_congr {choose choose' : Bool → Element → Option Rewrite} {link : String}
    {fresh fresh' : NodeId → NodeId} {f : Forest} {grouped : Bool}
    (h : ∀ entry ∈ f.placed grouped, choose' entry.1 entry.2 = choose entry.1 entry.2 ∧
      fresh' entry.2.id = fresh entry.2.id) :
    f.rewrite ⟨choose', link, fresh'⟩ grouped = f.rewrite ⟨choose, link, fresh⟩ grouped := by
  induction f generalizing grouped with
  | nil => rfl
  | element id tag content rest ihContent ihRest =>
    obtain ⟨⟨hchoose, hfresh⟩, h⟩ := List.forall_mem_cons.mp h
    obtain ⟨hcontent, hrest⟩ := List.forall_mem_append.mp h
    rw [rewrite, rewrite, ihContent hcontent, ihRest hrest]
    dsimp only
    rw [hchoose, hfresh]
  | leaf id l rest ih => rw [rewrite, rewrite, ih h]

end Forest

/-! ## Chosen by identity -/

/-- The rewriting that chooses elements by their identities, wherever they stand. -/
def Rewriting.byId (chosen : NodeId → Option Rewrite) (link : String) (fresh : NodeId → NodeId) :
    Rewriting :=
  ⟨fun _ e => chosen e.id, link, fresh⟩

namespace Forest

variable {chosen : NodeId → Option Rewrite} {link : String} {fresh : NodeId → NodeId}
  {target new : NodeId} {r : Rewrite}

/-- A choice that is not there makes no difference. -/
theorem rewrite_update_of_not_mem {f : Forest} (h : target ∉ f.nodeIds) (grouped : Bool) :
    f.rewrite (.byId (Function.update chosen target (some r)) link
        (Function.update fresh target new)) grouped
      = f.rewrite (.byId chosen link fresh) grouped := by
  refine rewrite_congr fun entry hentry => ?_
  have hmem : entry.2 ∈ f.elements := by
    rw [← map_snd_placed f grouped]
    exact List.mem_map_of_mem hentry
  have hne : entry.2.id ≠ target := by
    rintro rfl
    exact h (id_mem_nodeIds hmem)
  exact ⟨Function.update_of_ne hne .., Function.update_of_ne hne ..⟩

/-- A new link is not chosen. -/
theorem rewrite_added (hnew : chosen new = none) (grouped : Bool) :
    (Rewrite.added (some r) link new).rewrite (.byId chosen link fresh) grouped
      = Rewrite.added (some r) link new := by
  unfold Rewrite.added
  split
  · rfl
  · simp [ofElement, Rewrite.linkElement, rewrite, ofLeaf, Rewriting.byId, hnew, Rewrite.tag,
      Rewrite.added]

/-- **Changing one element and then others is one rewriting.** -/
theorem rewrite_modify {f : Forest} (hnodup : f.nodeIds.Nodup) (htarget : chosen target = none)
    (hnew : chosen new = none) (grouped : Bool) :
    (f.modify target (Rewrite.tag (some r)) (· ++ Rewrite.added (some r) link new)).rewrite
        (.byId chosen link fresh) grouped
      = f.rewrite (.byId (Function.update chosen target (some r)) link
          (Function.update fresh target new)) grouped := by
  induction f generalizing grouped with
  | nil => rfl
  | element id tag content rest ihContent ihRest =>
    obtain ⟨hid, hnodup⟩ := List.nodup_cons.mp hnodup
    obtain ⟨hnodupContent, hnodupRest, -⟩ := List.nodup_append'.mp hnodup
    rw [modify]
    split
    · next hself =>
      subst hself
      simp only [List.mem_append, not_or] at hid
      rw [rewrite, rewrite, rewrite_append, rewrite_added hnew, rewrite_update_of_not_mem hid.1,
        rewrite_update_of_not_mem hid.2, Rewrite.name_tag]
      simp [Rewriting.byId, htarget, Rewrite.tag, Rewrite.added]
    · next hne =>
      rw [rewrite, rewrite, ihContent hnodupContent, ihRest hnodupRest]
      simp [Rewriting.byId, Function.update_of_ne hne]
  | leaf id l rest ih => rw [modify, rewrite, rewrite, ih (List.nodup_cons.mp hnodup).2]

end Forest

end BuildProject
