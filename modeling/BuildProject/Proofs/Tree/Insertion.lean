import BuildProject.Proofs.Tree.Lookup

/-!
# Where a new element is put

`Forest.AddedBehind` describes, constructor by constructor, a forest with one more element right
behind another and with nothing else changed; `Forest.AddedAt` also allows the end of the forest.
Putting an element there and then changing its tag is putting the changed one there
(`AddedAt.modify`), and apart from the new element there are the elements that were there before,
each under its identity and with its tag (`AddedAt.of_mem`).
-/

namespace BuildProject

open Markup

namespace Forest

/-- The second forest has a new element right behind the one with identity `anchor`, and is the
first everywhere else. -/
inductive AddedBehind (anchor : NodeId) (new : Element) : Forest → Forest → Prop where
  | here {tag : Tag} {content rest : Forest} :
    AddedBehind anchor new (element anchor tag content rest)
      (element anchor tag content (element new.id new.tag new.content rest))
  | inside {id : NodeId} {tag : Tag} {content content' rest : Forest}
    (h : AddedBehind anchor new content content') :
    AddedBehind anchor new (element id tag content rest) (element id tag content' rest)
  | later {id : NodeId} {tag : Tag} {content rest rest' : Forest}
    (h : AddedBehind anchor new rest rest') :
    AddedBehind anchor new (element id tag content rest) (element id tag content rest')
  | laterLeaf {id : NodeId} {l : Leaf} {rest rest' : Forest}
    (h : AddedBehind anchor new rest rest') :
    AddedBehind anchor new (leaf id l rest) (leaf id l rest')

/-- The second forest has a new element right behind the one with identity `anchor?`, or at the end
if there is no such identity, and is the first everywhere else. -/
def AddedAt (anchor? : Option NodeId) (new : Element) (f f' : Forest) : Prop :=
  match anchor? with
  | some anchor => AddedBehind anchor new f f'
  | none => f' = f ++ ofElement new

variable {f f' : Forest} {anchor : NodeId} {anchor? : Option NodeId} {new : Element}

/-- Putting two elements in the place of the first puts the second behind it. -/
theorem addedBehind_replaceAt (hnodup : f.nodeIds.Nodup) {e : Element} (he : e ∈ f.elements)
    (new : Element) :
    AddedBehind e.id new f (f.replaceAt e.id fun old => ofElement old ++ ofElement new) := by
  induction f with
  | nil => exact absurd he List.not_mem_nil
  | element id tag content rest ihContent ihRest =>
    have hwhole := hnodup
    obtain ⟨-, hnodup⟩ := List.nodup_cons.mp hnodup
    obtain ⟨hnodupContent, hnodupRest, -⟩ := List.nodup_append'.mp hnodup
    rcases List.mem_cons.mp he with rfl | he
    · rw [replaceAt, if_pos rfl]
      exact .here
    rcases List.mem_append.mp he with he | he
    · rw [replaceAt_of_mem_content hwhole he]
      exact .inside (ihContent hnodupContent he)
    · rw [replaceAt_of_mem_rest hwhole he]
      exact .later (ihRest hnodupRest he)
  | leaf id l rest ih => exact .laterLeaf (ih (List.nodup_cons.mp hnodup).2 he)

/-- The new element can be changed where it has been put. -/
theorem AddedBehind.modify (h : AddedBehind anchor new f f') (hnew : new.id ∉ f.nodeIds)
    (onTag : Tag → Tag) : AddedBehind anchor ⟨new.id, onTag new.tag, new.content⟩ f
      (f'.modify new.id onTag fun content => content) := by
  induction h with
  | @here tag content rest =>
    simp only [nodeIds, List.mem_cons, List.mem_append, not_or] at hnew
    rw [Forest.modify, if_neg (Ne.symm hnew.1), modify_of_not_mem hnew.2.1, Forest.modify,
      if_pos rfl]
    exact .here
  | @inside id tag content content' rest _ ih =>
    simp only [nodeIds, List.mem_cons, List.mem_append, not_or] at hnew
    rw [Forest.modify, if_neg (Ne.symm hnew.1), modify_of_not_mem hnew.2.2]
    exact .inside (ih hnew.2.1)
  | @later id tag content rest rest' _ ih =>
    simp only [nodeIds, List.mem_cons, List.mem_append, not_or] at hnew
    rw [Forest.modify, if_neg (Ne.symm hnew.1), modify_of_not_mem hnew.2.1]
    exact .later (ih hnew.2.2)
  | @laterLeaf id l rest rest' _ ih =>
    simp only [nodeIds, List.mem_cons, not_or] at hnew
    exact .laterLeaf (ih hnew.2)

theorem AddedBehind.mem_new (h : AddedBehind anchor new f f') : new ∈ f'.elements := by
  induction h with
  | here => simp [elements]
  | inside _ ih => simp [elements, ih]
  | later _ ih => simp [elements, ih]
  | laterLeaf _ ih => exact ih

theorem AddedBehind.of_mem (h : AddedBehind anchor new f f') (hempty : new.content = nil)
    {e : Element} (he : e ∈ f'.elements) :
    e = new ∨ ∃ old ∈ f.elements, old.id = e.id ∧ old.tag = e.tag := by
  induction h with
  | @here tag content rest =>
    rw [hempty] at he
    simp only [elements, List.mem_cons, List.mem_append, List.nil_append] at he ⊢
    rcases he with he | he | rfl | he
    · exact .inr ⟨e, .inl he, rfl, rfl⟩
    · exact .inr ⟨e, .inr (.inl he), rfl, rfl⟩
    · exact .inl (by rw [← hempty])
    · exact .inr ⟨e, .inr (.inr he), rfl, rfl⟩
  | @inside id tag content content' rest _ ih =>
    simp only [elements, List.mem_cons, List.mem_append] at he ⊢
    rcases he with rfl | he | he
    · exact .inr ⟨⟨id, tag, content⟩, .inl rfl, rfl, rfl⟩
    · refine (ih he).imp_right ?_
      rintro ⟨old, hold, hsame⟩
      exact ⟨old, .inr (.inl hold), hsame⟩
    · exact .inr ⟨e, .inr (.inr he), rfl, rfl⟩
  | @later id tag content rest rest' _ ih =>
    simp only [elements, List.mem_cons, List.mem_append] at he ⊢
    rcases he with rfl | he | he
    · exact .inr ⟨⟨id, tag, content⟩, .inl rfl, rfl, rfl⟩
    · exact .inr ⟨e, .inr (.inl he), rfl, rfl⟩
    · refine (ih he).imp_right ?_
      rintro ⟨old, hold, hsame⟩
      exact ⟨old, .inr (.inr hold), hsame⟩
  | laterLeaf _ ih => exact ih he

namespace AddedAt

theorem modify (h : AddedAt anchor? new f f') (hnew : new.id ∉ f.nodeIds) (onTag : Tag → Tag) :
    AddedAt anchor? ⟨new.id, onTag new.tag, new.content⟩ f
      (f'.modify new.id onTag fun content => content) := by
  cases anchor? with
  | some anchor => exact AddedBehind.modify h hnew onTag
  | none =>
    obtain rfl : f' = f ++ ofElement new := h
    rw [modify_append hnew, ofElement, Forest.modify, if_pos rfl]
    rfl

theorem mem_new (h : AddedAt anchor? new f f') : new ∈ f'.elements := by
  cases anchor? with
  | some anchor => exact AddedBehind.mem_new h
  | none =>
    obtain rfl : f' = f ++ ofElement new := h
    simp [ofElement, elements]

/-- **Nothing else is added**: every other element was there, under its identity and with its
tag. -/
theorem of_mem (h : AddedAt anchor? new f f') (hempty : new.content = nil) {e : Element}
    (he : e ∈ f'.elements) : e = new ∨ ∃ old ∈ f.elements, old.id = e.id ∧ old.tag = e.tag := by
  cases anchor? with
  | some anchor => exact AddedBehind.of_mem h hempty he
  | none =>
    obtain rfl : f' = f ++ ofElement new := h
    rw [elements_append, ofElement, elements, hempty] at he
    rcases List.mem_append.mp he with he | he
    · exact .inr ⟨e, he, rfl, rfl⟩
    · exact .inl ((List.mem_singleton.mp he).trans (by rw [← hempty]))

end AddedAt

end Forest

end BuildProject
