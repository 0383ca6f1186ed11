import BuildProject.Proofs.Tree.Lookup

/-!
# Document order

The place of an element is the path of child positions that leads to it from the root. Listed by
their places in lexicographic order, the elements of a forest come in document order
(`map_snd_positioned`, `pairwise_positioned`), and every path that leads to an element is in the
list (`mem_positioned_iff`).
-/

namespace BuildProject

open Markup

namespace Forest

/-- The elements with their paths, where the first element at the top has position `index`. -/
def positioned (index : Nat) : Forest → List (List Nat × Element)
  | nil => []
  | element id tag content rest =>
    ([index], ⟨id, tag, content⟩) ::
      ((positioned 0 content).map (fun entry => (index :: entry.1, entry.2)) ++
        positioned (index + 1) rest)
  | leaf _ _ rest => positioned index rest

/-- Without the paths these are the elements in document order. -/
theorem map_snd_positioned (f : Forest) (index : Nat) :
    (f.positioned index).map Prod.snd = f.elements := by
  induction f generalizing index with
  | nil => rfl
  | element id tag content rest ihContent ihRest =>
    rw [positioned, elements, List.map_cons, List.map_append, List.map_map, ihRest,
      ← ihContent 0]
    rfl
  | leaf id l rest ih => exact ih index

/-- The position at the top is not below the first. -/
theorem exists_cons_of_mem_positioned {f : Forest} {index : Nat} {entry : List Nat × Element}
    (h : entry ∈ f.positioned index) : ∃ position path, entry.1 = position :: path ∧
      index ≤ position := by
  induction f generalizing index entry with
  | nil => exact absurd h List.not_mem_nil
  | element id tag content rest _ ihRest =>
    rcases List.mem_cons.mp h with rfl | h
    · exact ⟨index, [], rfl, Nat.le_refl _⟩
    · rcases List.mem_append.mp h with h | h
      · obtain ⟨inner, -, rfl⟩ := List.mem_map.mp h
        exact ⟨index, inner.1, rfl, Nat.le_refl _⟩
      · obtain ⟨position, path, hpath, hle⟩ := ihRest h
        exact ⟨position, path, hpath, Nat.le_of_succ_le hle⟩
  | leaf id l rest ih => exact ih h

/-- **The paths ascend.** -/
theorem pairwise_positioned (f : Forest) (index : Nat) :
    (f.positioned index).Pairwise fun before after => before.1 < after.1 := by
  induction f generalizing index with
  | nil => exact .nil
  | element id tag content rest ihContent ihRest =>
    have hlater {entry : List Nat × Element} (h : entry ∈ rest.positioned (index + 1))
        (path : List Nat) : index :: path < entry.1 := by
      obtain ⟨position, others, hpath, hle⟩ := exists_cons_of_mem_positioned h
      rw [hpath, List.cons_lt_cons_iff]
      exact .inl hle
    have hinside : ((content.positioned 0).map fun entry => (index :: entry.1, entry.2)).Pairwise
        fun before after => before.1 < after.1 := by
      refine List.pairwise_map.mpr ((ihContent 0).imp fun h => ?_)
      exact List.cons_lt_cons_iff.mpr (.inr ⟨rfl, h⟩)
    refine .cons (fun entry hentry => ?_)
      (List.pairwise_append.mpr ⟨hinside, ihRest _, fun before hbefore after hafter => ?_⟩)
    · rcases List.mem_append.mp hentry with hentry | hentry
      · obtain ⟨inner, hinner, rfl⟩ := List.mem_map.mp hentry
        obtain ⟨position, path, hpath, -⟩ := exists_cons_of_mem_positioned hinner
        show [index] < index :: inner.1
        rw [hpath, List.cons_lt_cons_iff]
        exact .inr ⟨rfl, List.nil_lt_cons _ _⟩
      · exact hlater hentry []
    · obtain ⟨inner, -, rfl⟩ := List.mem_map.mp hbefore
      exact hlater hafter inner.1
  | leaf id l rest ih => exact ih index

/-- Every path that leads to an element is listed, with that element. -/
theorem mem_positioned_iff {f : Forest} {index : Nat} {path : List Nat} {e : Element} :
    (path, e) ∈ f.positioned index ↔ ∃ position below, path = (index + position) :: below ∧
      f.children[position]?.bind (Element.descend? below) = some e := by
  induction f generalizing index path e with
  | nil => simp [positioned, children]
  | element id tag content rest ihContent ihRest =>
    rw [positioned, List.mem_cons, List.mem_append, List.mem_map, ihRest]
    constructor
    · rintro (hself | ⟨⟨inner, found⟩, hinner, hentry⟩ | ⟨position, below, rfl, hfound⟩)
      · obtain ⟨rfl, rfl⟩ := Prod.mk.inj hself
        exact ⟨0, [], rfl, rfl⟩
      · obtain ⟨rfl, rfl⟩ := Prod.mk.inj hentry
        obtain ⟨position, below, rfl, hfound⟩ := ihContent.mp hinner
        refine ⟨0, (0 + position) :: below, rfl, ?_⟩
        rw [Nat.zero_add]
        exact hfound
      · exact ⟨position + 1, below, by rw [Nat.add_assoc, Nat.add_comm 1], hfound⟩
    · rintro ⟨position, below, rfl, hfound⟩
      cases position with
      | zero =>
        cases below with
        | nil => exact .inl (Prod.ext rfl (Option.some.inj hfound).symm)
        | cons next below =>
          refine .inr (.inl ⟨(next :: below, e), ihContent.mpr ⟨next, below, ?_, hfound⟩, rfl⟩)
          rw [Nat.zero_add]
      | succ position =>
        exact .inr (.inr ⟨position, below, by rw [Nat.add_assoc, Nat.add_comm 1], hfound⟩)
  | leaf id l rest ih => exact ih

end Forest

/-- The paths that lead to the elements below the root, in document order. -/
theorem Tree.mem_positioned_iff {t : Tree} {path : List Nat} {e : Element} :
    (path, e) ∈ t.content.positioned 0 ↔ path ≠ [] ∧ t.root.descend? path = some e := by
  rw [Forest.mem_positioned_iff]
  constructor
  · rintro ⟨position, below, rfl, hfound⟩
    rw [Nat.zero_add]
    exact ⟨List.cons_ne_nil _ _, hfound⟩
  · rintro ⟨hne, hfound⟩
    cases path with
    | nil => exact absurd rfl hne
    | cons position below => exact ⟨position, below, by rw [Nat.zero_add], hfound⟩

end BuildProject
