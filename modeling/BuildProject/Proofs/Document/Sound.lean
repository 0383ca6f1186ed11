import BuildProject.Proofs.Document.Events
import BuildProject.Proofs.Document.Reachable

/-!
# What every document holds

A document comes from a text that has been read, or is empty at first; so the values in it that are
written as they are do not end early, no element has two attributes of one name, and the root is a
project (`DocumentContent.Sound`). Edits keep this: they add elements without attributes, attributes
of a new name, and texts that are not empty (`Tree.Step.sound`).
-/

namespace BuildProject

open Markup

namespace Forest

variable {P : Tag → Prop} {Q : Leaf → Prop}

theorem all_ofElement {e : Element} : (ofElement e).All P Q ↔ P e.tag ∧ e.content.All P Q := by
  simp [ofElement, All]

/-- A property of every node is one of every node after a replacement with such nodes. -/
theorem All.replaceAt {f : Forest} (h : f.All P Q) (target : NodeId)
    {replacement : Element → Forest}
    (hreplaced : ∀ e, P e.tag → e.content.All P Q → (replacement e).All P Q) :
    (f.replaceAt target replacement).All P Q := by
  induction f with
  | nil => trivial
  | element id tag content rest ihContent ihRest =>
    obtain ⟨htag, hcontent, hrest⟩ := h
    rw [Forest.replaceAt]
    split
    · exact all_append.mpr ⟨hreplaced _ htag hcontent, hrest⟩
    · exact ⟨htag, ihContent hcontent, ihRest hrest⟩
  | leaf id l rest ih => exact ⟨h.1, ih h.2⟩

end Forest

namespace Tree

variable {t t' : Tree} {taken : NodeId → Prop}

/-- **A single change leaves nothing that cannot be written.** -/
theorem Step.sound (hstep : t.Step taken t') (h : t.whole.Sound) : t'.whole.Sound := by
  have hnew (name : String) : (Forest.ofElement (t.newElement name)).Sound :=
    ⟨List.nodup_nil, trivial, trivial⟩
  cases hstep with
  | setAttribute he name value =>
    rw [whole_setAttribute]
    exact h.replaceAt _ fun e htag hcontent =>
      Forest.all_ofElement.mpr ⟨htag.set name value, hcontent⟩
  | eraseAttribute he name =>
    rw [whole_eraseAttribute]
    exact h.replaceAt _ fun e htag hcontent =>
      Forest.all_ofElement.mpr ⟨htag.erase name, hcontent⟩
  | setText he text =>
    rw [whole_setText]
    refine h.replaceAt _ fun e htag _ => Forest.all_ofElement.mpr ⟨htag, ?_⟩
    dsimp only
    split
    · trivial
    · next hne => exact ⟨fun hempty => hne (String.isEmpty_iff.mpr hempty), trivial⟩
  | appendElement he name =>
    rw [whole_appendElement]
    exact h.replaceAt _ fun e htag hcontent =>
      Forest.all_ofElement.mpr ⟨htag, Forest.all_append.mpr ⟨hcontent, hnew name⟩⟩
  | insertElement he hne name after =>
    rw [whole_insertElement hne]
    refine h.replaceAt _ fun e htag hcontent => ?_
    have hold := Forest.all_ofElement.mpr ⟨htag, hcontent⟩
    cases after with
    | true => exact Forest.all_append.mpr ⟨hold, hnew name⟩
    | false => exact Forest.all_append.mpr ⟨hnew name, hold⟩
  | remove he hne =>
    rw [whole_remove hne]
    exact h.replaceAt _ fun _ _ _ => trivial

/-- No change renames the root. -/
theorem Step.tag_name (hstep : t.Step taken t') : t'.tag.name = t.tag.name := by
  have hmodify (id : NodeId) {onTag : Tag → Tag} (hname : ∀ tag, (onTag tag).name = tag.name)
      (onContent : Forest → Forest) : (t.modify id onTag onContent).tag.name = t.tag.name := by
    unfold Tree.modify
    split
    · exact hname t.tag
    · rfl
  cases hstep with
  | setAttribute he name value => exact hmodify _ (fun tag => (rfl : (tag.set _ _).name = _)) _
  | eraseAttribute he name => exact hmodify _ (fun tag => (rfl : (tag.erase _).name = _)) _
  | setText he text =>
    unfold Tree.setText
    split
    · exact hmodify _ (fun _ => rfl) _
    · exact hmodify _ (fun _ => rfl) _
  | appendElement he name => exact hmodify _ (fun _ => rfl) _
  | insertElement he hne name after => rfl
  | remove he hne => rfl

end Tree

/-! ## Documents -/

namespace DocumentContent

/-- What is so for every document: the root is a project, and all that it holds and all that comes
before it can be written without ending early. -/
structure Sound (d : DocumentContent) : Prop where
  root_name : d.tree.tag.name = projectElement
  whole : d.tree.whole.Sound
  declaration : ∀ declaration ∈ d.declaration?, (Event.declaration declaration).Sound
  prolog : ∀ comment ∈ d.prolog, (Event.comment comment).Sound

variable {d : DocumentContent}

theorem Sound.root_distinct (h : d.Sound) : d.tree.tag.Distinct :=
  h.whole.1

theorem Sound.content (h : d.Sound) : d.tree.content.Sound :=
  h.whole.2.1

theorem sound_of_parse {text : String} (h : DocumentContent.parse text = .ok d) : d.Sound := by
  obtain ⟨built, tag, inside, hrun, -, -, hroot, rfl⟩ := ofEvents_eq_ok.mp h
  have hsound : built.Sound :=
    Builder.sound_start.run (fun event hevent => sound_of_mem_scanFrom hevent) hrun
  obtain ⟨hdistinct, hinside⟩ := hsound.root tag inside hroot
  exact ⟨hsound.root_name tag inside hroot, ⟨hdistinct, Forest.All.settle hinside _, trivial⟩,
    fun declaration hd => hsound.declaration declaration hd, hsound.prolog⟩

end DocumentContent

/-- Changes leave the parts before the root as they are. -/
theorem Document.Steps.sound {d d' : Document} {taken : NodeId → Prop} (h : d.Steps taken d')
    (hd : d.Sound) : d'.Sound := by
  induction h with
  | none => exact hd
  | more _ hstep ih =>
    exact ⟨hstep.tag_name.trans ih.root_name, hstep.sound ih.whole, ih.declaration, ih.prolog⟩

theorem Document.sound_empty (id : DocumentId) : (empty id).Sound where
  root_name := rfl
  whole := by
    have hdistinct : (["ToolsVersion", "xmlns"] : List String).Nodup := by decide
    exact ⟨hdistinct, trivial, trivial⟩
  declaration := by
    intro declaration h
    obtain rfl := Option.some.inj h
    have hvalues : ∀ v ∈ ["1.0", "utf-8"], Unclosed v.toList := by
      unfold Unclosed
      decide
    exact hvalues
  prolog := fun _ h => absurd h List.not_mem_nil

/-- **Every document can be written**, however it came about. -/
theorem Document.Reachable.sound {d : Document} (h : d.Reachable) : d.Sound := by
  induction h with
  | empty id => exact sound_empty id
  | parsed h =>
    obtain ⟨content, hparse, rfl⟩ := map_eq_ok.mp h
    exact DocumentContent.sound_of_parse hparse
  | copied id _ ih => exact ih
  | placed path? _ ih => exact ih
  | changed change h ih =>
    obtain ⟨_, hsteps, -⟩ := change.takes_action _ h.wellFormed
    exact hsteps.sound ih

end BuildProject
