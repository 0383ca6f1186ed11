import Mathlib.Data.List.Nodup
import BuildProject.Tree.Arena
import BuildProject.Proofs.Markup.Tag

/-!
# Well-formed arenas

In a well-formed arena the links agree that are stored twice, for the nodes that have left the tree
as well as for those in it, and a parent always has a smaller position than its children, so no way
up comes back to where it was.

All changes are of three kinds: a node becomes an element with another tag (`Retags`), some nodes
lose their parents (`Loses`), or a new node becomes a child of an element (`Gains`). Each kind keeps
an arena well-formed, and every operation on a well-formed arena has a result and is such a change.
-/

namespace BuildProject

open Markup

/-- A node after some nodes have lost their parents. -/
def ArenaNode.lose (lost : List NodeId) (id : NodeId) (node : ArenaNode) : ArenaNode :=
  { node with
    parent? := if id ∈ lost then none else node.parent?
    children := node.children.filter (· ∉ lost) }

theorem ArenaNode.lose_lose (node : ArenaNode) (first second : List NodeId) (id : NodeId) :
    (node.lose first id).lose second id = node.lose (first ++ second) id := by
  have hfilter : (node.children.filter (· ∉ first)).filter (· ∉ second) =
      node.children.filter (· ∉ first ++ second) := by
    rw [List.filter_filter]
    refine List.filter_congr fun c _ => ?_
    by_cases hc : c ∈ first <;> simp [hc]
  rw [lose, lose, lose, hfilter]
  by_cases hid : id ∈ first <;> simp [hid]

theorem ArenaNode.lose_singleton (lost id : NodeId) (node : ArenaNode) : node.lose [lost] id =
    { node with
      parent? := if id = lost then none else node.parent?
      children := node.children.filter (· ≠ lost) } := by
  simp [ArenaNode.lose]

namespace Arena

/-- What is so for every arena that comes about. -/
structure WellFormed (a : Arena) : Prop where
  /-- The root is an element. -/
  root_tag : ∃ tag, a.tag? rootId = some tag
  /-- It has no parent. -/
  root_parent : a.parent? rootId = none
  /-- A node is listed by its parent, and by no other node. -/
  mem_children_iff : ∀ {p c}, c ∈ a.children p ↔ a.parent? c = some p
  /-- No node is listed twice. -/
  nodup_children : ∀ p, (a.children p).Nodup
  /-- Parents come before their children. -/
  lt_of_parent : ∀ {c p}, a.parent? c = some p → p < c
  /-- Parents are elements. -/
  parent_tag : ∀ {c p}, a.parent? c = some p → ∃ tag, a.tag? p = some tag
  /-- No element has two attributes of one name. -/
  distinct : ∀ {id tag}, a.tag? id = some tag → tag.Distinct

variable {a a' : Arena} {id : NodeId}

/-! ## Positions of the table -/

theorem lt_next_of_node? {node : ArenaNode} (h : a.node? id = some node) : id < a.next :=
  (Array.getElem?_eq_some_iff.mp h).1

theorem exists_node? (h : id < a.next) : ∃ node, a.node? id = some node :=
  ⟨a.nodes[id], Array.getElem?_eq_getElem h⟩

theorem lt_next_of_tag? {tag : Tag} (h : a.tag? id = some tag) : id < a.next := by
  obtain ⟨node, hnode, -⟩ := Option.bind_eq_some_iff.mp h
  exact lt_next_of_node? hnode

theorem lt_next_of_parent? {p : NodeId} (h : a.parent? id = some p) : id < a.next := by
  obtain ⟨node, hnode, -⟩ := Option.bind_eq_some_iff.mp h
  exact lt_next_of_node? hnode

theorem children_of_node? {node : ArenaNode} (h : a.node? id = some node) :
    a.children id = node.children := by
  rw [children, h, Option.elim_some]

theorem parent?_of_node? {node : ArenaNode} (h : a.node? id = some node) :
    a.parent? id = node.parent? := by
  rw [parent?, h, Option.bind_some]

theorem tag?_of_node? {node : ArenaNode} (h : a.node? id = some node) :
    a.tag? id = node.kind.tag? := by
  rw [tag?, h, Option.bind_some]

theorem WellFormed.root_lt_next (h : a.WellFormed) : rootId < a.next :=
  lt_next_of_tag? h.root_tag.choose_spec

theorem WellFormed.next_not_mem (h : a.WellFormed) (p : NodeId) : a.next ∉ a.children p :=
  fun hmem => absurd (lt_next_of_parent? (h.mem_children_iff.mp hmem)) (Nat.lt_irrefl _)

/-- A change of one node. -/
theorem exists_update (f : ArenaNode → ArenaNode) (h : id < a.next) :
    ∃ a', a.update id f = some a' ∧
    a'.next = a.next ∧ ∀ x, a'.node? x = if x = id then (a.node? x).map f else a.node? x := by
  refine ⟨⟨a.nodes.modify id f⟩, if_pos h, Array.size_modify, fun x => ?_⟩
  show (a.nodes.modify id f)[x]? = _
  rw [Array.getElem?_modify]
  exact if_congr eq_comm rfl rfl

@[simp] theorem next_create (a : Arena) (kind : NodeKind) : (a.create kind).next = a.next + 1 :=
  Array.size_push ..

theorem node?_create (a : Arena) (kind : NodeKind) (x : NodeId) :
    (a.create kind).node? x = if x = a.next then some ⟨kind, none, []⟩ else a.node? x :=
  Array.getElem?_push

theorem node?_create_of_ne {x : NodeId} (kind : NodeKind) (h : x ≠ a.next) :
    (a.create kind).node? x = a.node? x := by
  rw [node?_create, if_neg h]

/-! ## The three kinds of changes -/

/-- A node has become an element with the given tag. -/
structure Retags (a : Arena) (target : NodeId) (tag : Tag) (a' : Arena) : Prop where
  next : a'.next = a.next
  node? : ∀ id, a'.node? id = if id = target then
    (a.node? id).map fun node => { node with kind := .element tag } else a.node? id

/-- Some nodes have lost their parents. -/
structure Loses (a : Arena) (lost : List NodeId) (a' : Arena) : Prop where
  next : a'.next = a.next
  node? : ∀ id, a'.node? id = (a.node? id).map (ArenaNode.lose lost id)

/-- A new node is a child of an element, in a place among those that were there. -/
structure Gains (a : Arena) (parent : NodeId) (left right : List NodeId) (kind : NodeKind)
    (a' : Arena) : Prop where
  next : a'.next = a.next + 1
  node?_new : a'.node? a.next = some ⟨kind, some parent, []⟩
  node?_old : ∀ id ≠ a.next, a'.node? id = if id = parent then
    (a.node? id).map fun node => { node with children := left ++ a.next :: right } else a.node? id

section Retags

variable {target : NodeId} {tag : Tag} (h : a.Retags target tag a')

include h

theorem Retags.children (id : NodeId) : a'.children id = a.children id := by
  rw [Arena.children, Arena.children, h.node?]
  split
  · cases a.node? id <;> rfl
  · rfl

theorem Retags.parent? (id : NodeId) : a'.parent? id = a.parent? id := by
  rw [Arena.parent?, Arena.parent?, h.node?]
  split
  · cases a.node? id <;> rfl
  · rfl

theorem Retags.tag? (htarget : target < a.next) (id : NodeId) :
    a'.tag? id = if id = target then some tag else a.tag? id := by
  rw [Arena.tag?, Arena.tag?, h.node?]
  split
  · next heq =>
    obtain ⟨node, hnode⟩ := exists_node? (heq ▸ htarget)
    rw [hnode]
    rfl
  · rfl

/-- **A new tag keeps an arena well-formed** if it has no two attributes of one name. -/
theorem WellFormed.retags (ha : a.WellFormed) (htarget : target < a.next)
    (hdistinct : tag.Distinct) : a'.WellFormed where
  root_tag := by
    rw [h.tag? htarget]
    split
    · exact ⟨tag, rfl⟩
    · exact ha.root_tag
  root_parent := by rw [h.parent?, ha.root_parent]
  mem_children_iff := by
    intro p c
    rw [h.children, h.parent?, ha.mem_children_iff]
  nodup_children p := by
    rw [h.children]
    exact ha.nodup_children p
  lt_of_parent := by
    intro c p hparent
    rw [h.parent?] at hparent
    exact ha.lt_of_parent hparent
  parent_tag := by
    intro c p hparent
    rw [h.parent?] at hparent
    rw [h.tag? htarget]
    split
    · exact ⟨tag, rfl⟩
    · exact ha.parent_tag hparent
  distinct := by
    intro id own htag
    rw [h.tag? htarget] at htag
    split at htag
    · exact Option.some.inj htag ▸ hdistinct
    · exact ha.distinct htag

end Retags

theorem Loses.refl (a : Arena) : a.Loses [] a := by
  refine ⟨rfl, fun id => ?_⟩
  cases a.node? id with
  | none => rfl
  | some node => simp [ArenaNode.lose]

section Loses

variable {lost : List NodeId} (h : a.Loses lost a')

include h

theorem Loses.children (id : NodeId) : a'.children id = (a.children id).filter (· ∉ lost) := by
  rw [Arena.children, Arena.children, h.node?]
  cases a.node? id <;> rfl

theorem Loses.parent? (id : NodeId) :
    a'.parent? id = if id ∈ lost then none else a.parent? id := by
  rw [Arena.parent?, Arena.parent?, h.node?]
  cases a.node? id with
  | none => simp
  | some node => rfl

theorem Loses.tag? (id : NodeId) : a'.tag? id = a.tag? id := by
  rw [Arena.tag?, Arena.tag?, h.node?]
  cases a.node? id <;> rfl

/-- **Losing parents keeps an arena well-formed.** -/
theorem WellFormed.loses (ha : a.WellFormed) : a'.WellFormed where
  root_tag := by
    rw [h.tag?]
    exact ha.root_tag
  root_parent := by rw [h.parent?, ha.root_parent, ite_self]
  mem_children_iff := by
    intro p c
    rw [h.children, h.parent?, List.mem_filter, ha.mem_children_iff]
    by_cases hlost : c ∈ lost <;> simp [hlost]
  nodup_children p := by
    rw [h.children]
    exact (ha.nodup_children p).filter _
  lt_of_parent := by
    intro c p hparent
    rw [h.parent?, Option.ite_none_left_eq_some] at hparent
    exact ha.lt_of_parent hparent.2
  parent_tag := by
    intro c p hparent
    rw [h.parent?, Option.ite_none_left_eq_some] at hparent
    rw [h.tag?]
    exact ha.parent_tag hparent.2
  distinct := by
    intro id tag htag
    rw [h.tag?] at htag
    exact ha.distinct htag

end Loses

section Gains

variable {parent : NodeId} {left right : List NodeId} {kind : NodeKind}
  (h : a.Gains parent left right kind a')

include h

theorem Gains.children_parent (hparent : parent < a.next) :
    a'.children parent = left ++ a.next :: right := by
  obtain ⟨node, hnode⟩ := exists_node? hparent
  rw [Arena.children, h.node?_old _ (Nat.ne_of_lt hparent), if_pos rfl, hnode]
  rfl

theorem Gains.children_of_ne {id : NodeId} (hne : id ≠ parent) :
    a'.children id = a.children id := by
  by_cases hnew : id = a.next
  · have hnone : a.node? a.next = none := Array.getElem?_size
    rw [Arena.children, Arena.children, hnew, h.node?_new, hnone]
    rfl
  · rw [Arena.children, Arena.children, h.node?_old id hnew, if_neg hne]

theorem Gains.parent? (id : NodeId) :
    a'.parent? id = if id = a.next then some parent else a.parent? id := by
  rw [Arena.parent?, Arena.parent?]
  split
  · next hnew => rw [hnew, h.node?_new, Option.bind_some]
  · next hnew =>
    rw [h.node?_old id hnew]
    split
    · cases a.node? id <;> rfl
    · rfl

theorem Gains.tag? (id : NodeId) : a'.tag? id = if id = a.next then kind.tag? else a.tag? id := by
  rw [Arena.tag?, Arena.tag?]
  split
  · next hnew => rw [hnew, h.node?_new, Option.bind_some]
  · next hnew =>
    rw [h.node?_old id hnew]
    split
    · cases a.node? id <;> rfl
    · rfl

/-- **A new child keeps an arena well-formed** if its parent is an element. -/
theorem WellFormed.gains (ha : a.WellFormed) (hchildren : a.children parent = left ++ right)
    {own : Tag} (hparent : a.tag? parent = some own)
    (hdistinct : ∀ tag, kind.tag? = some tag → tag.Distinct) : a'.WellFormed := by
  have hlt := lt_next_of_tag? hparent
  have htag {id : NodeId} (hid : id < a.next) : a'.tag? id = a.tag? id := by
    rw [h.tag?, if_neg (Nat.ne_of_lt hid)]
  constructor
  · rw [htag ha.root_lt_next]
    exact ha.root_tag
  · rw [h.parent?, if_neg (Nat.ne_of_lt ha.root_lt_next), ha.root_parent]
  · intro p c
    have hold := ha.mem_children_iff (p := p) (c := c)
    have hnew := ha.next_not_mem p
    rw [h.parent?]
    by_cases hp : p = parent
    · subst hp
      rw [h.children_parent hlt]
      rw [hchildren] at hold hnew
      by_cases hc : c = a.next
      · simp [hc]
      · rw [if_neg hc, ← hold]
        simp [hc]
    · rw [h.children_of_ne hp]
      split
      · next hc => simpa [hc, Ne.symm hp] using hnew
      · exact hold
  · intro p
    by_cases hp : p = parent
    · have hnodup := ha.nodup_children parent
      have hnew := ha.next_not_mem parent
      rw [hchildren] at hnodup hnew
      rw [hp, h.children_parent hlt, List.nodup_middle]
      exact List.nodup_cons.mpr ⟨hnew, hnodup⟩
    · rw [h.children_of_ne hp]
      exact ha.nodup_children p
  · intro c p hp
    rw [h.parent?] at hp
    split at hp
    · next hc => exact hc ▸ Option.some.inj hp ▸ hlt
    · exact ha.lt_of_parent hp
  · intro c p hp
    rw [h.parent?] at hp
    split at hp
    · exact ⟨own, Option.some.inj hp ▸ (htag hlt).trans hparent⟩
    · obtain ⟨tag, hown⟩ := ha.parent_tag hp
      exact ⟨tag, (htag (lt_next_of_tag? hown)).trans hown⟩
  · intro id tag hown
    rw [h.tag?] at hown
    split at hown
    · exact hdistinct tag hown
    · exact ha.distinct hown

end Gains

/-! ## The first arena -/

/-- A root without content is well-formed. -/
theorem wellFormed_ofTag {tag : Tag} (hdistinct : tag.Distinct) : (ofTag tag).WellFormed := by
  have hnode (id : NodeId) : (ofTag tag).node? id =
      if id = rootId then some ⟨.element tag, none, []⟩ else none := by
    cases id <;> rfl
  have hchildren (id : NodeId) : (ofTag tag).children id = [] := by
    rw [children, hnode]
    split <;> rfl
  have hparent (id : NodeId) : (ofTag tag).parent? id = none := by
    rw [parent?, hnode]
    split <;> rfl
  refine ⟨⟨tag, rfl⟩, rfl, ?_, ?_, ?_, ?_, ?_⟩
  · intro p c
    simp [hchildren, hparent]
  · intro p
    rw [hchildren]
    exact .nil
  · intro c p hp
    simp [hparent] at hp
  · intro c p hp
    simp [hparent] at hp
  · intro id own htag
    rw [tag?, hnode] at htag
    split at htag
    · exact Option.some.inj htag ▸ hdistinct
    · simp at htag

/-! ## Every operation -/

theorem exists_setTag (tag : Tag) (h : id < a.next) :
    ∃ a', a.setTag id tag = some a' ∧ a.Retags id tag a' := by
  obtain ⟨a', hupdate, hnext, hnode⟩ :=
    exists_update (fun node => { node with kind := .element tag }) h
  exact ⟨a', hupdate, hnext, hnode⟩

/-- **Detaching** a node takes it from the children of its parent, if it has one. -/
theorem WellFormed.exists_detach (ha : a.WellFormed) (h : id < a.next) :
    ∃ a', a.detach id = some a' ∧ a.Loses [id] a' := by
  obtain ⟨node, hnode⟩ := exists_node? h
  have hparent := parent?_of_node? hnode
  -- only the parent lists the node
  have hothers {x : NodeId} {other : ArenaNode} (hother : a.node? x = some other)
      (hne : node.parent? ≠ some x) : other.children.filter (· ≠ id) = other.children := by
    refine List.filter_eq_self.mpr fun c hc => ?_
    have hlisted : a.parent? c = some x := by
      rw [← ha.mem_children_iff, children_of_node? hother]
      exact hc
    have hcne : c ≠ id := fun heq => hne (hparent ▸ heq ▸ hlisted)
    simpa using hcne
  cases hp : node.parent? with
  | none =>
    refine ⟨a, by simp [detach, hnode, hp], rfl, fun x => ?_⟩
    cases hx : a.node? x with
    | none => rfl
    | some other =>
      rw [Option.map_some, ArenaNode.lose_singleton, hothers hx (by simp [hp])]
      split
      · next hxid =>
        have hown : other.parent? = none := by rw [← parent?_of_node? hx, hxid, hparent, hp]
        rw [← hown]
      · rfl
  | some p =>
    have hlt : p < id := ha.lt_of_parent (hparent.trans hp)
    have hne : p ≠ id := Nat.ne_of_lt hlt
    obtain ⟨a₁, hfirst, hnext₁, hnode₁⟩ :=
      exists_update (fun node => { node with parent? := none }) h
    have hlt₁ : p < a₁.next := hnext₁ ▸ Nat.lt_trans hlt h
    obtain ⟨a₂, hsecond, hnext₂, hnode₂⟩ :=
      exists_update (fun node => { node with children := node.children.filter (· ≠ id) }) hlt₁
    have hdetach : a.detach id = some a₂ := by
      rw [detach, hnode, Option.bind_eq_bind, Option.bind_some, hp]
      exact (congrArg (Option.bind · _) hfirst).trans hsecond
    refine ⟨a₂, hdetach, hnext₂.trans hnext₁, fun x => ?_⟩
    rw [hnode₂, hnode₁]
    cases hx : a.node? x with
    | none => simp
    | some other =>
      rw [Option.map_some, Option.map_some, ArenaNode.lose_singleton]
      by_cases hxp : x = p
      · rw [if_pos hxp, if_neg (hxp ▸ hne), if_neg (hxp ▸ hne), Option.map_some]
      · rw [if_neg hxp, hothers hx (by simpa [hp] using Ne.symm hxp)]
        split <;> rfl

/-- Nodes lose their parents one after the other. -/
theorem exists_foldlM_orphan (ids : List NodeId) (h : ∀ id ∈ ids, id < a.next) :
    ∃ a', ids.foldlM (fun a id => a.update id fun node => { node with parent? := none }) a =
        some a' ∧
      a'.next = a.next ∧ ∀ x, a'.node? x = (a.node? x).map fun node =>
        { node with parent? := if x ∈ ids then none else node.parent? } := by
  induction ids generalizing a with
  | nil => exact ⟨a, rfl, rfl, fun x => by simp⟩
  | cons id ids ih =>
    obtain ⟨a₁, hfirst, hnext₁, hnode₁⟩ := exists_update (fun node => { node with parent? := none })
      (h id List.mem_cons_self)
    obtain ⟨a₂, hothers, hnext₂, hnode₂⟩ :=
      ih (a := a₁) fun id hid => hnext₁ ▸ h id (List.mem_cons_of_mem _ hid)
    refine ⟨a₂, ?_, hnext₂.trans hnext₁, fun x => ?_⟩
    · rw [List.foldlM_cons]
      exact (congrArg (Option.bind · _) hfirst).trans hothers
    · rw [hnode₂, hnode₁]
      cases a.node? x with
      | none => simp
      | some node => by_cases hx : x = id <;> simp [hx]

/-- **Clearing** a node takes its children from it and their parent from them. -/
theorem WellFormed.exists_clear (ha : a.WellFormed) (h : id < a.next) :
    ∃ a', a.clear id = some a' ∧ a.Loses (a.children id) a' := by
  obtain ⟨node, hnode⟩ := exists_node? h
  have hchildren := children_of_node? hnode
  obtain ⟨a₁, hfirst, hnext₁, hnode₁⟩ := exists_update (fun node => { node with children := [] }) h
  have hlt {c : NodeId} (hc : c ∈ node.children) : c < a₁.next :=
    hnext₁ ▸ lt_next_of_parent? (ha.mem_children_iff.mp (hchildren ▸ hc))
  obtain ⟨a₂, hothers, hnext₂, hnode₂⟩ := exists_foldlM_orphan node.children fun c hc => hlt hc
  have hclear : a.clear id = some a₂ := by
    rw [clear, hnode, Option.bind_eq_bind, Option.bind_some]
    exact (congrArg (Option.bind · _) hfirst).trans hothers
  refine ⟨a₂, hclear, hnext₂.trans hnext₁, fun x => ?_⟩
  rw [hnode₂, hnode₁, hchildren]
  cases hx : a.node? x with
  | none => simp
  | some other =>
    by_cases hxid : x = id
    · obtain rfl : other = node := Option.some.inj (hx.symm.trans (hxid ▸ hnode))
      have hnone : other.children.filter (· ∉ other.children) = [] :=
        List.filter_eq_nil_iff.mpr fun c hc => by simpa using hc
      rw [if_pos hxid, Option.map_some, Option.map_some, Option.map_some, ArenaNode.lose, hnone]
    · -- a child of two nodes would have two parents
      have hkept : other.children.filter (· ∉ node.children) = other.children := by
        refine List.filter_eq_self.mpr fun c hc => ?_
        rw [decide_eq_true_eq]
        intro hmem
        have hparent := ha.mem_children_iff.mp (hchildren ▸ hmem : c ∈ a.children id)
        have hother := ha.mem_children_iff.mp ((children_of_node? hx) ▸ hc : c ∈ a.children x)
        exact hxid (Option.some.inj (hother.symm.trans hparent))
      rw [if_neg hxid, Option.map_some, Option.map_some, ArenaNode.lose, hkept]

/-- A new node has no links to cut. -/
theorem detach_create (a : Arena) (kind : NodeKind) :
    (a.create kind).detach a.next = some (a.create kind) := by
  rw [detach, node?_create, if_pos rfl]
  rfl

/-- **Appending** a new node adds it behind the children of its parent. -/
theorem exists_appendChild {parent : NodeId} (h : parent < a.next) (kind : NodeKind) :
    ∃ a', (a.create kind).appendChild parent a.next = some a' ∧
      a.Gains parent (a.children parent) [] kind a' := by
  have hnew : a.next < (a.create kind).next := next_create a kind ▸ Nat.lt_succ_self a.next
  obtain ⟨a₁, hfirst, hnext₁, hnode₁⟩ :=
    exists_update (fun node => { node with parent? := some parent }) hnew
  have hlt : parent < a₁.next := Nat.lt_trans h (hnext₁ ▸ hnew)
  obtain ⟨a₂, hsecond, hnext₂, hnode₂⟩ :=
    exists_update (fun node => { node with children := node.children ++ [a.next] }) hlt
  have happend : (a.create kind).appendChild parent a.next = some a₂ := by
    rw [appendChild, detach_create, Option.bind_eq_bind, Option.bind_some]
    exact (congrArg (Option.bind · _) hfirst).trans hsecond
  refine ⟨a₂, happend, by rw [hnext₂, hnext₁, next_create], ?_, fun x hx => ?_⟩
  · rw [hnode₂, hnode₁, if_neg (Nat.ne_of_gt h), if_pos rfl, node?_create, if_pos rfl]
    rfl
  · rw [hnode₂, hnode₁, if_neg hx, node?_create_of_ne kind hx]
    split
    · next hparent =>
      cases hnode : a.node? x with
      | none => rfl
      | some node => rw [← hparent, children_of_node? hnode]; rfl
    · rfl

theorem insertIdx_length_append (left right : List NodeId) (child : NodeId) :
    (left ++ right).insertIdx left.length child = left ++ child :: right := by
  induction left with
  | nil => exact List.insertIdx_zero
  | cons id left ih => rw [List.cons_append, List.length_cons, List.insertIdx_succ_cons, ih]; rfl

/-- What is put beside an anchor stands right before or right after it. -/
theorem insertBeside_eq {left right : List NodeId} {anchor : NodeId} (h : anchor ∉ left)
    (child : NodeId) (after : Bool) : insertBeside (left ++ anchor :: right) anchor child after =
      (if after then left ++ [anchor] else left) ++
        child :: (if after then right else anchor :: right) := by
  have hposition : (left ++ anchor :: right).idxOf? anchor = some left.length := by
    refine List.idxOf?_eq_some_iff.mpr ⟨by simp, by simp, fun j hj => ?_⟩
    rw [List.getElem_append_left hj]
    exact fun heq => h (heq ▸ List.getElem_mem hj)
  rw [insertBeside, hposition]
  cases after with
  | true =>
    have hbehind := insertIdx_length_append (left ++ [anchor]) right child
    rwa [List.length_append, List.append_assoc] at hbehind
  | false => exact insertIdx_length_append left (anchor :: right) child

/-- **Inserting** a new node beside another puts it right before or right after that one. -/
theorem WellFormed.exists_insertSibling (ha : a.WellFormed) {anchor parent : NodeId}
    (hparent : a.parent? anchor = some parent) {left right : List NodeId}
    (hchildren : a.children parent = left ++ anchor :: right) (kind : NodeKind) (after : Bool) :
    ∃ a', (a.create kind).insertSibling anchor a.next after = some (true, a') ∧
      a.Gains parent (if after then left ++ [anchor] else left)
        (if after then right else anchor :: right) kind a' := by
  have hanchor := lt_next_of_parent? hparent
  have hlt : parent < a.next := Nat.lt_trans (ha.lt_of_parent hparent) hanchor
  have hleft : anchor ∉ left := by
    have hnodup := ha.nodup_children parent
    rw [hchildren, List.nodup_middle] at hnodup
    exact fun hmem => (List.nodup_cons.mp hnodup).1 (List.mem_append_left _ hmem)
  obtain ⟨node, hnode⟩ := exists_node? hanchor
  have hstored : node.parent? = some parent := (parent?_of_node? hnode).symm.trans hparent
  have hnew : a.next < (a.create kind).next := next_create a kind ▸ Nat.lt_succ_self a.next
  obtain ⟨a₁, hfirst, hnext₁, hnode₁⟩ := exists_update
    (fun node => { node with children := insertBeside node.children anchor a.next after })
    (Nat.lt_trans hlt hnew)
  have hnew₁ : a.next < a₁.next := hnext₁ ▸ hnew
  obtain ⟨a₂, hsecond, hnext₂, hnode₂⟩ :=
    exists_update (fun node => { node with parent? := some parent }) hnew₁
  have hinsert : (a.create kind).insertSibling anchor a.next after = some (true, a₂) := by
    rw [insertSibling, node?_create_of_ne kind (Nat.ne_of_lt hanchor), hnode, Option.bind_eq_bind,
      Option.bind_some, hstored]
    dsimp only
    rw [detach_create, Option.bind_eq_bind, Option.bind_some]
    refine (congrArg (Option.bind · _) hfirst).trans ?_
    exact congrArg (Option.bind · _) hsecond
  refine ⟨a₂, hinsert, by rw [hnext₂, hnext₁, next_create], ?_, fun x hx => ?_⟩
  · rw [hnode₂, hnode₁, if_pos rfl, if_neg (Nat.ne_of_gt hlt), node?_create, if_pos rfl]
    rfl
  · rw [hnode₂, hnode₁, if_neg hx, node?_create_of_ne kind hx]
    split
    · next hx =>
      cases hown : a.node? x with
      | none => rfl
      | some own =>
        have hlisted : own.children = left ++ anchor :: right := by
          rw [← hchildren, ← hx, children_of_node? hown]
        rw [Option.map_some, Option.map_some, hlisted, insertBeside_eq hleft]
    · rfl

end Arena

end BuildProject
