import BuildProject.Condition.Grammar
import BuildProject.Table

/-!
# Sets of conditions

A condition set is a list of conditions that can be written as condition text: it is not empty,
each condition is writable, and each variable is named once. The three facts are part of the
type, so a set has a text that reads back. The order of the conditions counts: two sets are equal
when their lists are.

Conditions are found by position in the list and by name in an index of positions. One loop,
`NameIndex.enter`, checks the conditions and makes the index, and a condition repeats a name if
the index has it. The index follows from the list (`ConditionSet.index`), so a set does not keep it.
-/

namespace BuildProject

/-! ## The index of names -/

/-- The positions of names in a list of conditions. -/
abbrev NameIndex := Table String Nat

namespace NameIndex

/-- What keeps a condition from being entered behind those that the index has: a bad name, then a
bad value, then a name that is there already. -/
def fault? (index : NameIndex) (c : Condition) : Option ConditionError :=
  match c.fault? with
  | some fault => some fault
  | none => if (index.find? c.name).isSome then some (.duplicateName c.name) else none

/-- The index with the names of further conditions, the first of them at `position`. The first
condition that cannot be entered ends it. -/
def enter (index : NameIndex) (position : Nat) :
    List Condition → Except ConditionError NameIndex
  | [] => .ok index
  | c :: cs =>
    match index.fault? c with
    | some fault => .error fault
    | none => enter (index.insert c.name position) (position + 1) cs

/-- The index of a list of conditions, of which there has to be one. -/
def ofConditions (conditions : List Condition) : Except ConditionError NameIndex :=
  if conditions.isEmpty then .error .emptySet else enter [] 0 conditions

variable {index : NameIndex} {position : Nat} {c : Condition} {cs : List Condition}

theorem fault?_eq_none_iff :
    index.fault? c = none ↔ c.fault? = none ∧ index.find? c.name = none := by
  unfold fault?
  cases c.fault? with
  | some fault => simp
  | none => simp

theorem fault?_of_fault {fault : ConditionError} (h : c.fault? = some fault) :
    index.fault? c = some fault := by
  rw [NameIndex.fault?, h]

/-- A writable condition is refused if its name has a position already. -/
theorem fault?_of_found (h : c.fault? = none) {earlier : Nat}
    (hfound : index.find? c.name = some earlier) :
    index.fault? c = some (.duplicateName c.name) := by
  rw [NameIndex.fault?, h, hfound]
  rfl

/-- A condition that can be entered is. -/
theorem enter_cons (h : index.fault? c = none) :
    index.enter position (c :: cs) = enter (index.insert c.name position) (position + 1) cs := by
  rw [enter, h]

/-- A condition that cannot be entered ends the loop. -/
theorem enter_cons_of_fault {fault : ConditionError} (h : index.fault? c = some fault) :
    index.enter position (c :: cs) = .error fault := by
  rw [enter, h]

/-- Conditions can be entered if they are writable and their names are new, also to each other. -/
theorem exists_enter_iff : (∃ entered, index.enter position cs = .ok entered) ↔
    (∀ c ∈ cs, c.fault? = none) ∧ (cs.map Condition.name).Nodup ∧
      ∀ c ∈ cs, index.find? c.name = none := by
  induction cs generalizing index position with
  | nil => simp [enter]
  | cons c cs ih =>
    -- the others have to be new to the index and to have another name than this one
    have hothers : (∀ d ∈ cs, (index.insert c.name position).find? d.name = none) ↔
        c.name ∉ cs.map Condition.name ∧ ∀ d ∈ cs, index.find? d.name = none := by
      simp only [Table.find?_insert_eq_none_iff, List.mem_map, not_exists, not_and]
      constructor
      · exact fun h => ⟨fun d hd => (h d hd).1, fun d hd => (h d hd).2⟩
      · exact fun ⟨hne, hmissing⟩ d hd => ⟨hne d hd, hmissing d hd⟩
    rw [List.forall_mem_cons, List.forall_mem_cons, List.map_cons, List.nodup_cons]
    cases hfault : index.fault? c with
    | some fault =>
      rw [enter_cons_of_fault hfault]
      constructor
      · rintro ⟨entered, h⟩
        exact nomatch h
      · rintro ⟨⟨hwritable, -⟩, -, hfresh, -⟩
        rw [fault?_eq_none_iff.mpr ⟨hwritable, hfresh⟩] at hfault
        exact nomatch hfault
    | none =>
      obtain ⟨hwritable, hfresh⟩ := fault?_eq_none_iff.mp hfault
      rw [enter_cons hfault, ih, hothers]
      constructor
      · rintro ⟨hall, hnodup, hnew, hmissing⟩
        exact ⟨⟨hwritable, hall⟩, ⟨hnew, hnodup⟩, hfresh, hmissing⟩
      · rintro ⟨⟨-, hall⟩, ⟨hnew, hnodup⟩, -, hmissing⟩
        exact ⟨hall, hnodup, hnew, hmissing⟩

/-- Conditions have an index if there are any, all writable, and no two of one name. -/
theorem exists_ofConditions_iff : (∃ index, ofConditions cs = .ok index) ↔
    cs ≠ [] ∧ (∀ c ∈ cs, c.fault? = none) ∧ (cs.map Condition.name).Nodup := by
  unfold ofConditions
  cases cs with
  | nil => simp
  | cons c cs =>
    rw [List.isEmpty_cons, if_neg Bool.false_ne_true, exists_enter_iff]
    constructor
    · rintro ⟨hwritable, hnodup, -⟩
      exact ⟨List.cons_ne_nil c cs, hwritable, hnodup⟩
    · rintro ⟨-, hwritable, hnodup⟩
      exact ⟨hwritable, hnodup, fun d hd => rfl⟩

end NameIndex

/-! ## Sets -/

/-- Conditions on distinct variables, in the order in which they are written. -/
structure ConditionSet where
  conditions : List Condition
  ne_nil : conditions ≠ []
  writable : ∀ c ∈ conditions, c.fault? = none
  nodup : (conditions.map Condition.name).Nodup
deriving DecidableEq

namespace ConditionSet

/-- The set with the given conditions, in their order. -/
def ofList (conditions : List Condition) : Except ConditionError ConditionSet :=
  match h : NameIndex.ofConditions conditions with
  | .error fault => .error fault
  | .ok index =>
    have hset := NameIndex.exists_ofConditions_iff.mp ⟨index, h⟩
    .ok ⟨conditions, hset.1, hset.2.1, hset.2.2⟩

theorem ofConditions_ne_error (s : ConditionSet) (fault : ConditionError) :
    NameIndex.ofConditions s.conditions ≠ .error fault := by
  obtain ⟨index, hindex⟩ := NameIndex.exists_ofConditions_iff.mpr ⟨s.ne_nil, s.writable, s.nodup⟩
  rw [hindex]
  exact nofun

/-- The positions of the names of a set. -/
def index (s : ConditionSet) : NameIndex :=
  match h : NameIndex.ofConditions s.conditions with
  | .ok index => index
  | .error fault => absurd h (s.ofConditions_ne_error fault)

/-- The index of a set is the one that its conditions were checked with. -/
theorem ofConditions_conditions (s : ConditionSet) :
    NameIndex.ofConditions s.conditions = .ok s.index := by
  unfold index
  split
  · assumption
  · next fault h => exact absurd h (s.ofConditions_ne_error fault)

theorem ofList_eq_error_iff {conditions : List Condition} {fault : ConditionError} :
    ofList conditions = .error fault ↔ NameIndex.ofConditions conditions = .error fault := by
  unfold ofList
  split
  · next found h => simp [h]
  · next index h => simp [h]

/-- A set is made from its own conditions and from no others. -/
theorem ofList_eq_ok_iff {conditions : List Condition} {s : ConditionSet} :
    ofList conditions = .ok s ↔ s.conditions = conditions := by
  constructor
  · intro h
    unfold ofList at h
    split at h
    · exact nomatch h
    · rw [← Except.ok.inj h]
  · rintro rfl
    unfold ofList
    split
    · next fault h => exact absurd h (s.ofConditions_ne_error fault)
    · rfl

/-- A set can be made from conditions that have its three properties. -/
theorem exists_ofList_iff {conditions : List Condition} : (∃ s, ofList conditions = .ok s) ↔
    conditions ≠ [] ∧ (∀ c ∈ conditions, c.fault? = none) ∧
      (conditions.map Condition.name).Nodup := by
  constructor
  · rintro ⟨s, hs⟩
    rw [← ofList_eq_ok_iff.mp hs]
    exact ⟨s.ne_nil, s.writable, s.nodup⟩
  · rintro ⟨hne, hwritable, hnodup⟩
    exact ⟨⟨conditions, hne, hwritable, hnodup⟩, ofList_eq_ok_iff.mpr rfl⟩

/-- The set with the given names and values. -/
def ofPairs (pairs : List (String × String)) : Except ConditionError ConditionSet :=
  ofList (pairs.map fun (name, value) => ⟨name, value⟩)

/-- Reads a set from condition text. -/
def parse (text : String) : Except ConditionError ConditionSet := do
  ofList (← parseConditions text)

/-! ## Looking up -/

/-- The end of a program that relied on something that is not so, with the text it leaves. -/
structure Panic where
  message : String
deriving DecidableEq, Repr

/-- The condition at a position, counted from zero. -/
def at? (s : ConditionSet) (position : Nat) : Option Condition :=
  s.conditions[position]?

/-- The value that the set asks of a variable. -/
def get? (s : ConditionSet) (name : String) : Option String :=
  (s.index.find? name).bind fun position => (s.at? position).map Condition.value

/-- The value that the set asks of a variable, which it has to mention. -/
def value (s : ConditionSet) (name : String) : Except ConditionError String :=
  match s.get? name with
  | some value => .ok value
  | none => .error (.notFound name)

/-- The value that the set asks of a variable, for those who know that it mentions it; if it does
not, the program ends. -/
def fetch (s : ConditionSet) (name : String) : Except Panic String :=
  match s.get? name with
  | some value => .ok value
  | none => .error ⟨s!"condition not found: {name}"⟩

/-- Whether the set mentions a variable. -/
def contains (s : ConditionSet) (name : String) : Bool :=
  (s.index.find? name).isSome

/-- The number of conditions. -/
def size (s : ConditionSet) : Nat :=
  s.conditions.length

/-! ## Text -/

/-- The variables as `$(A)|$(B)`. -/
def names (s : ConditionSet) : String :=
  String.ofList (joinNames s.conditions)

/-- The variables as `'$(A)|$(B)'`. -/
def quotedNames (s : ConditionSet) : String :=
  String.ofList (inQuotes (joinNames s.conditions))

/-- The values as `x|y`. -/
def values (s : ConditionSet) : String :=
  String.ofList (joinValues s.conditions)

/-- The values as `'x|y'`. -/
def quotedValues (s : ConditionSet) : String :=
  String.ofList (inQuotes (joinValues s.conditions))

/-- The set as condition text. -/
def text (s : ConditionSet) : String :=
  serializeConditions s.conditions

end ConditionSet

end BuildProject
