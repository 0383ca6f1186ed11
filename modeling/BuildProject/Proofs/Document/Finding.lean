import Mathlib.Data.List.Nodup
import BuildProject.Proofs.Document.Items
import BuildProject.Proofs.Document.Placement

/-!
# What is found, and in which order

Items and properties are looked for group by group, in the document order of the groups. So a find
comes to every member of a group that satisfies its predicate, and to each of them once. But where a
group stands inside an earlier child of another group, its members come before the later child in
the document and are listed behind it (`Document.Overtakes`). The members that are listed the wrong
way round are exactly those (`swapped_members_iff`); so what is found is in document order, and the
first one found is the first in the document, exactly if none is overtaken
(`Document.Reachable.finds`), as in a document whose groups hold no groups (`Finds.inOrder`).
-/

namespace BuildProject

open Markup
open scoped List

/-! ## The order of two members of a list -/

section Before

variable {α β : Type} {l l' : List α} {a b c : α}

/-- The first member of a list stands before the second. -/
def Before (l : List α) (a b : α) : Prop :=
  [a, b] <+ l

namespace Before

theorem of_sublist (h : Before l a b) (hsub : l <+ l') : Before l' a b :=
  h.trans hsub

theorem mem_left (h : Before l a b) : a ∈ l :=
  h.subset List.mem_cons_self

theorem mem_right (h : Before l a b) : b ∈ l :=
  h.subset (List.mem_cons_of_mem _ List.mem_cons_self)

/-- What is in the first of two lists stands before what is in the second. -/
theorem of_mem_append (ha : a ∈ l) (hb : b ∈ l') : Before (l ++ l') a b :=
  (List.singleton_sublist.mpr ha).append (List.singleton_sublist.mpr hb)

theorem of_mem_tail (hb : b ∈ l) : Before (a :: l) a b :=
  (List.singleton_sublist.mpr hb).cons_cons a

theorem cons_iff : Before (c :: l) a b ↔ Before l a b ∨ c = a ∧ b ∈ l := by
  rw [Before, List.cons_sublist_cons', List.singleton_sublist, eq_comm]
  exact Iff.rfl

/-- Two members of joined lists are in one of them, or one in each. -/
theorem append_iff : Before (l ++ l') a b ↔ Before l a b ∨ Before l' a b ∨ a ∈ l ∧ b ∈ l' := by
  induction l with
  | nil =>
    have hnone : ¬ Before [] a b := fun h => absurd h.mem_left List.not_mem_nil
    simp [hnone]
  | cons c l ih =>
    rw [List.cons_append, cons_iff, cons_iff, ih, List.mem_append, List.mem_cons]
    constructor
    · rintro ((h | h | ⟨ha, hb⟩) | ⟨rfl, hb | hb⟩)
      · exact .inl (.inl h)
      · exact .inr (.inl h)
      · exact .inr (.inr ⟨.inr ha, hb⟩)
      · exact .inl (.inr ⟨rfl, hb⟩)
      · exact .inr (.inr ⟨.inl rfl, hb⟩)
    · rintro ((h | ⟨rfl, hb⟩) | h | ⟨rfl | ha, hb⟩)
      · exact .inl (.inl h)
      · exact .inr ⟨rfl, .inl hb⟩
      · exact .inl (.inr (.inl h))
      · exact .inr ⟨rfl, .inr hb⟩
      · exact .inl (.inr (.inr ⟨ha, hb⟩))

/-- The members of joined lists stand in the order of the lists, and inside each in its own. -/
theorem flatMap_iff {f : α → List β} {x y : β} : Before (l.flatMap f) x y ↔
    (∃ a ∈ l, Before (f a) x y) ∨ ∃ a b, Before l a b ∧ x ∈ f a ∧ y ∈ f b := by
  induction l with
  | nil =>
    have hnone {γ : Type} {u v : γ} : ¬ Before [] u v := fun h => absurd h.mem_left List.not_mem_nil
    simp [hnone]
  | cons c l ih =>
    rw [List.flatMap_cons, append_iff, ih]
    simp only [cons_iff, List.mem_cons, List.mem_flatMap]
    constructor
    · rintro (h | (⟨a, ha, h⟩ | ⟨a, b, hab, hx, hy⟩) | ⟨hx, b, hb, hy⟩)
      · exact .inl ⟨c, .inl rfl, h⟩
      · exact .inl ⟨a, .inr ha, h⟩
      · exact .inr ⟨a, b, .inl hab, hx, hy⟩
      · exact .inr ⟨c, b, .inr ⟨rfl, hb⟩, hx, hy⟩
    · rintro (⟨a, rfl | ha, h⟩ | ⟨a, b, hab | ⟨rfl, hb⟩, hx, hy⟩)
      · exact .inl h
      · exact .inr (.inl (.inl ⟨a, ha, h⟩))
      · exact .inr (.inl (.inr ⟨a, b, hab, hx, hy⟩))
      · exact .inr (.inr ⟨hx, b, hb, hy⟩)

theorem filter_iff {p : α → Bool} : Before (l.filter p) a b ↔ Before l a b ∧ p a ∧ p b := by
  constructor
  · intro h
    exact ⟨h.of_sublist List.filter_sublist, (List.mem_filter.mp h.mem_left).2,
      (List.mem_filter.mp h.mem_right).2⟩
  · rintro ⟨h, ha, hb⟩
    simpa [Before, ha, hb] using List.Sublist.filter p h

/-- Two members of a list stand in one order or the other. -/
theorem or_swap (ha : a ∈ l) (hb : b ∈ l) (hne : a ≠ b) : Before l a b ∨ Before l b a := by
  obtain ⟨left, right, rfl⟩ := List.append_of_mem ha
  rcases List.mem_append.mp hb with hb | hb
  · exact .inr (of_mem_append hb List.mem_cons_self)
  · have hright : b ∈ right := (List.mem_cons.mp hb).resolve_left hne.symm
    exact .inl ((of_mem_tail hright).of_sublist (List.sublist_append_right _ _))

/-- They do not stand in both if nothing occurs twice. -/
theorem not_swap (h : Before l a b) (hnodup : l.Nodup) : ¬ Before l b a := by
  intro hswap
  induction l with
  | nil => exact absurd h.mem_left List.not_mem_nil
  | cons c l ih =>
    obtain ⟨hc, hnodup⟩ := List.nodup_cons.mp hnodup
    rcases cons_iff.mp h with h | ⟨rfl, hb⟩
    · rcases cons_iff.mp hswap with hswap | ⟨rfl, -⟩
      · exact ih h hnodup hswap
      · exact hc h.mem_right
    · rcases cons_iff.mp hswap with hswap | ⟨rfl, -⟩
      · exact hc hswap.mem_right
      · exact hc hb

theorem ne (h : Before l a b) (hnodup : l.Nodup) : a ≠ b := by
  rintro rfl
  exact h.not_swap hnodup h

end Before

/-- **Two lists of the same members are one** if no two members stand the other way round. -/
theorem eq_iff_no_swap (hperm : l ~ l') (hnodup : l.Nodup) :
    l = l' ↔ ∀ a b, Before l a b → ¬ Before l' b a := by
  constructor
  · rintro rfl a b h
    exact h.not_swap hnodup
  · intro hno
    have hnodup' : l'.Nodup := hperm.nodup_iff.mp hnodup
    have hsame : l.Pairwise (Before l') := by
      refine List.pairwise_iff_forall_sublist.mpr fun {a b} (h : Before l a b) => ?_
      have hmem := Before.or_swap (hperm.subset h.mem_left) (hperm.subset h.mem_right)
        (h.ne hnodup)
      exact hmem.resolve_right (hno a b h)
    have hself : l'.Pairwise (Before l') := List.pairwise_iff_forall_sublist.mpr fun h => h
    refine hperm.eq_of_pairwise (fun a b _ _ hab hba => ?_) hsame hself
    exact absurd hba (hab.not_swap hnodup')

/-- **They begin with one member** if no member stands before the first of the one in the other. -/
theorem head?_eq_iff_no_swap (hperm : l ~ l') (hnodup : l.Nodup) :
    l.head? = l'.head? ↔ ∀ a ∈ l.head?, ∀ b, Before l a b → ¬ Before l' b a := by
  cases l with
  | nil => simp [List.nil_perm.mp hperm]
  | cons a l =>
    cases l' with
    | nil => exact absurd hperm.symm.nil_eq (List.cons_ne_nil _ _).symm
    | cons c l' =>
      have hnodup' : (c :: l').Nodup := hperm.nodup_iff.mp hnodup
      constructor
      · intro hhead first hfirst b h hswap
        obtain rfl : a = first := Option.some.inj hfirst
        obtain rfl : a = c := Option.some.inj hhead
        have hb := (List.mem_cons.mp hswap.mem_left).resolve_left (h.ne hnodup).symm
        exact (Before.of_mem_tail hb).not_swap hnodup' hswap
      · intro hno
        by_contra hne
        have hac : a ≠ c := fun heq => hne (congrArg some heq)
        have hc := (List.mem_cons.mp (hperm.symm.subset List.mem_cons_self)).resolve_left hac.symm
        have ha := (List.mem_cons.mp (hperm.subset List.mem_cons_self)).resolve_left hac
        exact hno a rfl c (Before.of_mem_tail hc) (Before.of_mem_tail ha)

end Before

/-! ## The order of the elements -/

namespace Forest

variable {f : Forest} {a b e x y : Element}

/-- The elements of a forest are those at its top, each with those inside it. -/
theorem elements_eq_flatMap (f : Forest) :
    f.elements = f.children.flatMap fun c => c :: c.content.elements := by
  induction f with
  | nil => rfl
  | element id tag content rest _ ih => rw [elements, ih]; rfl
  | leaf id l rest ih => exact ih

/-- What is inside one element at the top comes before what is inside a later one. -/
theorem before_of_children (h : Before f.children a b) (hx : x ∈ a :: a.content.elements)
    (hy : y ∈ b :: b.content.elements) : Before f.elements x y := by
  rw [elements_eq_flatMap]
  exact Before.flatMap_iff.mpr (.inr ⟨a, b, h, hx, hy⟩)

/-- What is inside one element at the top comes behind another unless the one comes before it. -/
theorem before_children_or_before (hx : x ∈ f.children) (ha : a ∈ f.children)
    (hy : y ∈ a.content.elements) : Before f.children a x ∨ Before f.elements x y := by
  by_cases heq : a = x
  · subst heq
    rw [elements_eq_flatMap]
    exact .inr (Before.flatMap_iff.mpr (.inl ⟨a, ha, .of_mem_tail hy⟩))
  · refine (Before.or_swap ha hx heq).imp_right fun h => ?_
    exact before_of_children h List.mem_cons_self (List.mem_cons_of_mem _ hy)

theorem nodup_elements (hnodup : f.nodeIds.Nodup) : f.elements.Nodup :=
  List.Nodup.of_map Element.id ((map_id_elements_sublist f).nodup hnodup)

/-- An element stands right before the elements inside it, and they before all others behind it. -/
theorem exists_split (hnodup : f.nodeIds.Nodup) (he : e ∈ f.elements) :
    ∃ before after, f.elements = before ++ e :: (e.content.elements ++ after) ∧
      (before ++ e :: (e.content.elements ++ after)).Nodup := by
  obtain ⟨before, after, hsplit, -⟩ := faces_replaceAt hnodup he
  rw [elements_ofElement, List.cons_append] at hsplit
  exact ⟨before, after, hsplit, hsplit ▸ nodup_elements hnodup⟩

theorem cons_elements_sublist (hnodup : f.nodeIds.Nodup) (he : e ∈ f.elements) :
    (e :: e.content.elements) <+ f.elements := by
  obtain ⟨before, after, hsplit, -⟩ := exists_split hnodup he
  rw [hsplit, ← List.cons_append]
  exact (List.sublist_append_left _ _).trans (List.sublist_append_right _ _)

/-- What comes behind an element and is not inside it comes behind all that is inside it. -/
theorem before_of_not_inside (hnodup : f.nodeIds.Nodup) (h : Before f.elements e y)
    (hy : y ∉ e.content.elements) (hx : x ∈ e.content.elements) : Before f.elements x y := by
  obtain ⟨before, after, hsplit, hall⟩ := exists_split hnodup h.mem_left
  rw [hsplit] at h ⊢
  have hafter : y ∈ after := by
    rcases List.mem_append.mp h.mem_right with hbefore | hbehind
    · exact absurd (Before.of_mem_append hbefore List.mem_cons_self) (h.not_swap hall)
    · have hinside := (List.mem_cons.mp hbehind).resolve_left (h.ne hall).symm
      exact (List.mem_append.mp hinside).resolve_left hy
  exact (Before.of_mem_append hx hafter).of_sublist
    ((List.sublist_cons_self e _).trans (List.sublist_append_right _ _))

/-- What comes before an element comes before all that is inside it. -/
theorem before_inside (hnodup : f.nodeIds.Nodup) (h : Before f.elements x e)
    (hy : y ∈ e :: e.content.elements) : Before f.elements x y := by
  obtain ⟨before, after, hsplit, hall⟩ := exists_split hnodup h.mem_right
  rw [hsplit] at h ⊢
  have hbefore : x ∈ before := by
    refine (List.mem_append.mp h.mem_left).resolve_right fun hbehind => ?_
    have htail := (List.mem_cons.mp hbehind).resolve_left (h.ne hall)
    exact h.not_swap hall ((Before.of_mem_tail htail).of_sublist (List.sublist_append_right _ _))
  rw [← List.cons_append]
  exact Before.of_mem_append hbefore (List.mem_append_left _ hy)

end Forest

/-! ## Finding -/

namespace Document

variable {d : Document} {groupName : String} {p : Element → Bool} {e x y : Element}

/-- The elements that satisfy a predicate and whose parent is a group below the root, in document
order. -/
def sought (d : Document) (groupName : String) (p : Element → Bool) : List Element :=
  d.elements.filter fun e =>
    p e && (d.parent? e).any fun group => decide (group ∈ d.elementsNamed groupName)

/-- The second member of a group comes before the first in the document and is listed behind it: its
group is an earlier child of the first one's group, or inside one. -/
def Overtakes (d : Document) (groupName : String) (x y : Element) : Prop :=
  ∃ group ∈ d.elementsNamed groupName, ∃ nested ∈ d.elementsNamed groupName, ∃ earlier,
    Before group.children earlier x ∧ nested ∈ earlier :: earlier.content.elements ∧
      y ∈ nested.children

/-- What a search for the members of groups comes to: all it found, and the first of it. -/
structure Finds (d : Document) (groupName : String) (p : Element → Bool) (found : List Element)
    (first? : Option Element) : Prop where
  /-- All elements looked for are found, and nothing else. -/
  complete : found ~ d.sought groupName p
  /-- Each is found once. -/
  once : (found.map Element.id).Nodup
  /-- Two are found in the other order than in the document where one is overtaken. -/
  swapped_iff : ∀ x y, Before found x y ∧ Before d.elements y x ↔
    d.Overtakes groupName x y ∧ p x ∧ p y
  /-- Without that they are found in document order, and only then. -/
  inOrder_iff : found = d.sought groupName p ↔
    ∀ x y, p x → p y → ¬ d.Overtakes groupName x y
  /-- The first one found comes first in the document if it is not overtaken, and only then. -/
  first_iff : first? = (d.sought groupName p).head? ↔
    ∀ x ∈ first?, ∀ y, p y → ¬ d.Overtakes groupName x y

theorem mem_members_iff :
    e ∈ d.members groupName ↔ ∃ group ∈ d.elementsNamed groupName, e ∈ group.children :=
  List.mem_flatMap

theorem mem_elements_of_named {name : String} (h : e ∈ d.elementsNamed name) : e ∈ d.elements :=
  (List.mem_filter.mp h).1

theorem mem_sought_iff (h : d.tree.WellFormed) :
    e ∈ d.sought groupName p ↔ p e ∧ e ∈ d.members groupName := by
  rw [sought, List.mem_filter, Bool.and_eq_true, Option.any_eq_true, mem_members_iff]
  simp only [decide_eq_true_eq]
  constructor
  · rintro ⟨he, hp, group, hparent, hgroup⟩
    have hchild := (h.parent?_eq_some_iff_mem_children (List.mem_cons_of_mem _ he)).mp hparent
    exact ⟨hp, group, hgroup, hchild.2⟩
  · rintro ⟨hp, group, hgroup, hchild⟩
    have he : e ∈ d.elements :=
      mem_elements_of_mem_members (mem_members_iff.mpr ⟨group, hgroup, hchild⟩)
    refine ⟨he, hp, group, ?_, hgroup⟩
    exact (h.parent?_eq_some_iff_mem_children (List.mem_cons_of_mem _ he)).mpr
      ⟨List.mem_cons_of_mem _ (mem_elements_of_named hgroup), hchild⟩

theorem before_elementsNamed {name : String} {a b : Element} :
    Before (d.elementsNamed name) a b ↔ Before d.elements a b ∧ a.name = name ∧ b.name = name := by
  rw [elementsNamed, Before.filter_iff, beq_iff_eq, beq_iff_eq]

/-- What is inside an element comes in its order in the document, behind the element. -/
theorem elements_content_sublist (h : d.tree.WellFormed) (he : e ∈ d.elements) :
    e.content.elements <+ d.elements :=
  (List.sublist_cons_self _ _).trans (Forest.cons_elements_sublist h.nodup_content he)

/-- A child of an element inside another, or of the other itself, is inside the other. -/
theorem child_inside {outer inner : Element} (hinner : inner ∈ outer :: outer.content.elements)
    (he : e ∈ inner.children) : e ∈ outer.content.elements := by
  have hmem := Forest.children_subset_elements inner.content he
  rcases List.mem_cons.mp hinner with rfl | hinner
  · exact hmem
  · exact Forest.elements_content_subset hinner hmem

/-- A member that is overtaken is listed before one that comes before it. -/
theorem Overtakes.swapped (h : d.tree.WellFormed) (hover : d.Overtakes groupName x y) :
    Before (d.members groupName) x y ∧ Before d.elements y x := by
  obtain ⟨group, hgroup, nested, hnested, earlier, hearlier, hinside, hy⟩ := hover
  have hmem := mem_elements_of_named hgroup
  constructor
  · have hnestedInside : nested ∈ group.content.elements := by
      rw [Forest.elements_eq_flatMap]
      exact List.mem_flatMap.mpr ⟨earlier, hearlier.mem_left, hinside⟩
    have hgroups : Before (d.elementsNamed groupName) group nested := by
      refine before_elementsNamed.mpr ⟨?_, ?_, ?_⟩
      · exact (Before.of_mem_tail hnestedInside).of_sublist
          (Forest.cons_elements_sublist h.nodup_content hmem)
      · exact beq_iff_eq.mp (List.mem_filter.mp hgroup).2
      · exact beq_iff_eq.mp (List.mem_filter.mp hnested).2
    exact Before.flatMap_iff.mpr (.inr ⟨group, nested, hgroups, hearlier.mem_right, hy⟩)
  · have hyInside : y ∈ earlier.content.elements := child_inside hinside hy
    exact (Forest.before_of_children hearlier (List.mem_cons_of_mem _ hyInside)
      List.mem_cons_self).of_sublist (elements_content_sublist h hmem)

/-- **The members listed the wrong way round** are those that are overtaken. -/
theorem swapped_members_iff (h : d.tree.WellFormed) :
    Before (d.members groupName) x y ∧ Before d.elements y x ↔ d.Overtakes groupName x y := by
  refine ⟨fun ⟨hlisted, hswapped⟩ => ?_, Overtakes.swapped h⟩
  have hno : ¬ Before d.elements x y :=
    hswapped.not_swap (Forest.nodup_elements h.nodup_content)
  rcases Before.flatMap_iff.mp hlisted with ⟨group, hgroup, hchildren⟩ |
    ⟨group, nested, hgroups, hx, hy⟩
  · -- the members of one group are in their order
    refine absurd (hchildren.of_sublist ?_) hno
    exact (Forest.children_sublist_elements group.content).trans
      (elements_content_sublist h (mem_elements_of_named hgroup))
  · have hgroup := mem_elements_of_named hgroups.mem_left
    have hbefore := (before_elementsNamed.mp hgroups).1
    by_cases hinside : nested ∈ group.content.elements
    · rw [Forest.elements_eq_flatMap] at hinside
      obtain ⟨earlier, hearlier, hinside⟩ := List.mem_flatMap.mp hinside
      have hyInside := child_inside hinside hy
      refine ⟨group, hgroups.mem_left, nested, hgroups.mem_right, earlier, ?_, hinside, hy⟩
      refine (Forest.before_children_or_before hx hearlier hyInside).resolve_right fun hin => ?_
      exact hno (hin.of_sublist (elements_content_sublist h hgroup))
    · -- a group behind another has its members behind those of the other
      have hxInside := Forest.children_subset_elements group.content hx
      have hyInside := Forest.children_subset_elements nested.content hy
      exact absurd (Forest.before_inside h.nodup_content
        (Forest.before_of_not_inside h.nodup_content hbefore hinside hxInside)
        (List.mem_cons_of_mem _ hyInside)) hno

/-- Looking for members comes to all of them, in document order but for those that are overtaken. -/
theorem finds_members (h : d.tree.WellFormed) (groupName : String) (p : Element → Bool) :
    d.Finds groupName p ((d.members groupName).filter p)
      ((d.members groupName).filter p).head? := by
  have hnodup : ((d.members groupName).filter p).Nodup :=
    (List.Nodup.of_map Element.id (nodup_members h groupName)).filter p
  have hsought : (d.sought groupName p).Nodup :=
    (Forest.nodup_elements h.nodup_content).filter _
  have hperm : (d.members groupName).filter p ~ d.sought groupName p := by
    refine (List.perm_ext_iff_of_nodup hnodup hsought).mpr fun e => ?_
    rw [List.mem_filter, mem_sought_iff h, and_comm]
  have hswapped (x y : Element) : Before ((d.members groupName).filter p) x y ∧
      Before d.elements y x ↔ d.Overtakes groupName x y ∧ p x ∧ p y := by
    rw [Before.filter_iff, ← swapped_members_iff h, and_right_comm]
  have hno (x y : Element) : (Before ((d.members groupName).filter p) x y →
      ¬ Before (d.sought groupName p) y x) ↔ (p x → p y → ¬ d.Overtakes groupName x y) := by
    constructor
    · intro hkeep hpx hpy hover
      obtain ⟨hlisted, hbefore⟩ := (hswapped x y).mpr ⟨hover, hpx, hpy⟩
      refine hkeep hlisted (Before.filter_iff.mpr ⟨hbefore, ?_, ?_⟩)
      · exact (List.mem_filter.mp (hperm.subset hlisted.mem_right)).2
      · exact (List.mem_filter.mp (hperm.subset hlisted.mem_left)).2
    · intro hkeep hlisted hbefore
      obtain ⟨hover, hpx, hpy⟩ :=
        (hswapped x y).mp ⟨hlisted, hbefore.of_sublist List.filter_sublist⟩
      exact hkeep hpx hpy hover
  refine ⟨hperm, ?_, hswapped, ?_, ?_⟩
  · exact (List.filter_sublist.map Element.id).nodup (nodup_members h groupName)
  · rw [eq_iff_no_swap hperm hnodup]
    exact forall₂_congr hno
  · rw [head?_eq_iff_no_swap hperm hnodup]
    refine forall₂_congr fun x hx => forall_congr' fun y => (hno x y).trans ?_
    have hpx : p x := (List.mem_filter.mp (List.mem_of_mem_head? hx)).2
    exact ⟨fun hkeep => hkeep hpx, fun hkeep _ => hkeep⟩

/-- **Items and properties are looked for in all groups**: every one that satisfies the predicate is
found, and once. They come in document order, and the first one found is the first in the document,
exactly if no group inside an earlier child of a group holds one of them. -/
theorem Reachable.finds (h : d.Reachable) (p : Element → Bool) :
    d.Finds itemGroupElement p (d.findItems p) (d.findItem? p) ∧
      d.Finds propertyGroupElement p (d.findProperties p) (d.findProperty? p) :=
  ⟨finds_members h.wellFormed itemGroupElement p,
    finds_members h.wellFormed propertyGroupElement p⟩

/-- The item of a nested group comes before the one behind the group, which is found first. -/
theorem Reachable.finds_nested :
    ∃ d : Document, Document.parse ⟨0⟩
        "<Project><ItemGroup><ItemGroup><C Include='a'/></ItemGroup><C Include='b'/></ItemGroup></Project>"
        = .ok d ∧
      d.Finds itemGroupElement (·.name == "C") (d.findItems (·.name == "C"))
        (d.findItem? (·.name == "C")) ∧
      (d.findItem? (·.name == "C")).bind Element.include? = some "b" ∧
      (d.sought itemGroupElement (·.name == "C")).head?.bind Element.include? = some "a" := by
  let inner : Element := ⟨2, ⟨"ItemGroup", []⟩, .element 3 ⟨"C", [⟨"Include", "a"⟩]⟩ .nil .nil⟩
  let group : Element := ⟨1, ⟨"ItemGroup", []⟩,
    .ofElement inner ++ .element 4 ⟨"C", [⟨"Include", "b"⟩]⟩ .nil .nil⟩
  let d : Document := .ofContent ⟨0⟩ ⟨⟨⟨"Project", []⟩, .ofElement group, 5⟩, none, []⟩
  have hparse : Document.parse ⟨0⟩
      "<Project><ItemGroup><ItemGroup><C Include='a'/></ItemGroup><C Include='b'/></ItemGroup></Project>"
      = .ok d := by
    decide +kernel
  exact ⟨d, hparse, (Reachable.finds (.parsed hparse) _).1, by decide +kernel, by decide +kernel⟩

/-- **Where no group is inside another of its name**, all is found in document order. -/
theorem Finds.inOrder {found : List Element} {first? : Option Element}
    (h : d.Finds groupName p found first?)
    (hflat : ∀ group ∈ d.elementsNamed groupName, ∀ nested ∈ d.elementsNamed groupName,
      nested ∉ group.content.elements) :
    found = d.sought groupName p ∧ first? = (d.sought groupName p).head? := by
  have hnone (x y : Element) : ¬ d.Overtakes groupName x y := by
    rintro ⟨group, hgroup, nested, hnested, earlier, hearlier, hinside, -⟩
    refine hflat group hgroup nested hnested ?_
    rw [Forest.elements_eq_flatMap]
    exact List.mem_flatMap.mpr ⟨earlier, hearlier.mem_left, hinside⟩
  exact ⟨h.inOrder_iff.mpr fun x y _ _ => hnone x y, h.first_iff.mpr fun x _ y _ => hnone x y⟩

end Document

end BuildProject
