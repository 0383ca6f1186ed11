import BuildProject.Proofs.Condition.Grammar

/-!
# Sets of conditions by position and by name

A set of conditions answers by position from its list, and by name from an index of positions that
is made while the list is checked. `ConditionSet.Agrees` says that the two never differ: the index
has every name at its position in the list and nothing else, and whatever is asked of a name is
answered as the list has it. `ConditionSet.ofList_agrees` shows this for every list of conditions,
with which lists make a set and what is wrong with each of the others.

One invariant carries both halves. `NameIndex.Records` holds between the index and the conditions
that the loop has gone through. Each condition that is entered keeps it (`Records.concat`), so the
index in the end records the whole list (`Records.enter`); and where it holds, what the loop refuses
is what is wrong at this position of the list (`Records.faultAt_iff`), so the loop fails with the
first fault (`Records.enter_eq_error_iff`).
-/

namespace BuildProject

open ConditionText

/-! ## What is wrong with a list of conditions -/

/-- A value that can stand between the quotes and the bars of condition text. -/
def ConditionText.IsValue (value : String) : Prop :=
  '\'' ∉ value.toList ∧ '|' ∉ value.toList

namespace ConditionSet

/-- What is wrong at a position of a list. A bad name counts before a bad value, and both count
before a name that stands at an earlier position as well. -/
inductive FaultAt (conditions : List Condition) (position : Nat) : ConditionError → Prop
  | badName {c : Condition} (here : conditions[position]? = some c) (name : ¬ IsName c.name) :
      FaultAt conditions position (.invalidName c.name)
  | badValue {c : Condition} (here : conditions[position]? = some c) (name : IsName c.name)
      (value : ¬ IsValue c.value) : FaultAt conditions position (.invalidValue c.value)
  | repeated {c d : Condition} {earlier : Nat} (here : conditions[position]? = some c)
      (name : IsName c.name) (value : IsValue c.value) (before : earlier < position)
      (there : conditions[earlier]? = some d) (same : d.name = c.name) :
      FaultAt conditions position (.duplicateName c.name)

/-- The fault of a list: that it is empty, or what is wrong at the first position at which something
is. -/
inductive FirstFault : List Condition → ConditionError → Prop
  | empty : FirstFault [] .emptySet
  | atPosition {conditions : List Condition} {position : Nat} {fault : ConditionError}
      (here : FaultAt conditions position fault)
      (first : ∀ earlier < position, ∀ other, ¬ FaultAt conditions earlier other) :
      FirstFault conditions fault

end ConditionSet

open ConditionSet (FaultAt FirstFault)

/-! ## One condition -/

theorem any_isValueDelimiter_eq_false_iff {value : String} :
    value.toList.any isValueDelimiter = false ↔ IsValue value := by
  simp only [List.any_eq_false, Bool.not_eq_true]
  constructor
  · intro h
    exact ⟨fun hquote => absurd (h _ hquote) (by decide), fun hbar => absurd (h _ hbar) (by decide)⟩
  · rintro ⟨hquote, hbar⟩ d hd
    have hquote : d ≠ '\'' := fun heq => hquote (heq ▸ hd)
    have hbar : d ≠ '|' := fun heq => hbar (heq ▸ hd)
    rw [isValueDelimiter, beq_false_of_ne hquote, beq_false_of_ne hbar]
    rfl

namespace Condition

variable {c : Condition}

theorem fault?_of_bad_name (hname : ¬ IsName c.name) : c.fault? = some (.invalidName c.name) := by
  rw [fault?, Bool.eq_false_iff.mpr fun h => hname (isIdentifier_iff.mp h)]
  rfl

/-- A value is looked at behind a name only. -/
theorem fault?_of_bad_value (hname : IsName c.name) (hvalue : ¬ IsValue c.value) :
    c.fault? = some (.invalidValue c.value) := by
  have hdelimiter : c.value.toList.any isValueDelimiter = true :=
    (Bool.not_eq_false _).mp fun h => hvalue (any_isValueDelimiter_eq_false_iff.mp h)
  rw [fault?, isIdentifier_iff.mpr hname, hdelimiter]
  rfl

/-- A condition is writable if its name is a name and its value a value. -/
theorem isWritable_iff : c.fault? = none ↔ IsName c.name ∧ IsValue c.value := by
  rw [fault?_eq_none_iff, isIdentifier_iff, ← any_isValueDelimiter_eq_false_iff, List.any_eq_false]
  simp only [Bool.not_eq_true]

end Condition

/-! ## The loop -/

theorem getElem?_concat_eq_some_iff {α : Type} {l : List α} {a b : α} {position : Nat} :
    (l ++ [a])[position]? = some b ↔ l[position]? = some b ∨ position = l.length ∧ a = b := by
  rcases Nat.lt_trichotomy position l.length with hlt | rfl | hgt
  · simp [List.getElem?_append_left hlt, Nat.ne_of_lt hlt]
  · simp
  · have hbehind : (l ++ [a])[position]? = none := by
      rw [List.getElem?_eq_none_iff, List.length_append, List.length_singleton]
      exact hgt
    rw [hbehind, List.getElem?_eq_none (Nat.le_of_lt hgt)]
    simp [Nat.ne_of_gt hgt]

namespace NameIndex

variable {index entered : NameIndex} {before cs : List Condition} {c : Condition}
  {fault : ConditionError}

/-- The index has the position of every name in the list, and no other position. -/
def Records (index : NameIndex) (conditions : List Condition) : Prop :=
  ∀ name position, index.find? name = some position ↔
    ∃ value, conditions[position]? = some ⟨name, value⟩

theorem records_nil : Records [] [] := by
  intro name position
  simp [Table.find?]

/-- **Entering one condition** keeps the record. -/
theorem Records.concat (h : index.Records before) (hnew : index.find? c.name = none) :
    Records (index.insert c.name before.length) (before ++ [c]) := by
  intro name position
  simp only [getElem?_concat_eq_some_iff]
  by_cases hname : name = c.name
  · subst hname
    rw [Table.find?_insert_self]
    constructor
    · intro heq
      exact ⟨c.value, .inr ⟨(Option.some.inj heq).symm, rfl⟩⟩
    · rintro ⟨value, hbefore | ⟨rfl, -⟩⟩
      · -- the list would have had the name before
        rw [(h c.name position).mpr ⟨value, hbefore⟩] at hnew
        exact nomatch hnew
      · rfl
  · rw [Table.find?_insert_of_ne _ _ hname, h name position]
    constructor
    · rintro ⟨value, hbefore⟩
      exact ⟨value, .inl hbefore⟩
    · rintro ⟨value, hbefore | ⟨-, rfl⟩⟩
      · exact ⟨value, hbefore⟩
      · exact absurd rfl hname

/-- The loop goes on behind the condition that has been entered. -/
theorem enter_cons_concat (h : index.fault? c = none) :
    index.enter before.length (c :: cs) =
      enter (index.insert c.name before.length) (before ++ [c]).length cs := by
  rw [enter_cons h, List.length_append, List.length_singleton]

/-- **The loop records** what it goes through. -/
theorem Records.enter (h : index.Records before)
    (henter : index.enter before.length cs = .ok entered) : entered.Records (before ++ cs) := by
  induction cs generalizing index before with
  | nil =>
    rw [List.append_nil, ← Except.ok.inj henter]
    exact h
  | cons c cs ih =>
    cases hfault : index.fault? c with
    | some fault =>
      rw [enter_cons_of_fault hfault] at henter
      exact nomatch henter
    | none =>
      rw [enter_cons_concat hfault] at henter
      rw [List.append_cons]
      exact ih (h.concat (fault?_eq_none_iff.mp hfault).2) henter

/-- **What the loop refuses** is what is wrong at the position where it stands. -/
theorem Records.faultAt_iff (h : index.Records before) :
    FaultAt (before ++ c :: cs) before.length fault ↔ index.fault? c = some fault := by
  have hhere {d : Condition} : (before ++ c :: cs)[before.length]? = some d ↔ c = d := by simp
  have hthere {d : Condition} {earlier : Nat} (hlt : earlier < before.length) :
      (before ++ c :: cs)[earlier]? = some d ↔ before[earlier]? = some d := by
    rw [List.getElem?_append_left hlt]
  constructor
  · intro hfault
    cases hfault with
    | badName here name =>
      obtain rfl := hhere.mp here
      exact fault?_of_fault (Condition.fault?_of_bad_name name)
    | badValue here name value =>
      obtain rfl := hhere.mp here
      exact fault?_of_fault (Condition.fault?_of_bad_value name value)
    | @repeated c' d earlier here name value hbefore there same =>
      obtain rfl := hhere.mp here
      have hfound : index.find? c.name = some earlier :=
        (h c.name earlier).mpr ⟨d.value, same ▸ (hthere hbefore).mp there⟩
      exact fault?_of_found (Condition.isWritable_iff.mpr ⟨name, value⟩) hfound
  · intro hfault
    by_cases hname : IsName c.name
    · by_cases hvalue : IsValue c.value
      · have hwritable := Condition.isWritable_iff.mpr ⟨hname, hvalue⟩
        cases hfound : index.find? c.name with
        | none =>
          rw [fault?_eq_none_iff.mpr ⟨hwritable, hfound⟩] at hfault
          exact nomatch hfault
        | some earlier =>
          obtain ⟨value, hearlier⟩ := (h c.name earlier).mp hfound
          have hlt := (List.getElem?_eq_some_iff.mp hearlier).1
          rw [fault?_of_found hwritable hfound] at hfault
          obtain rfl := Option.some.inj hfault
          exact .repeated (hhere.mpr rfl) hname hvalue hlt ((hthere hlt).mpr hearlier) rfl
      · rw [fault?_of_fault (Condition.fault?_of_bad_value hname hvalue)] at hfault
        obtain rfl := Option.some.inj hfault
        exact .badValue (hhere.mpr rfl) hname hvalue
    · rw [fault?_of_fault (Condition.fault?_of_bad_name hname)] at hfault
      obtain rfl := Option.some.inj hfault
      exact .badName (hhere.mpr rfl) hname

/-- Nothing is wrong behind the end of a list. -/
theorem lt_length_of_faultAt {conditions : List Condition} {position : Nat}
    (h : FaultAt conditions position fault) : position < conditions.length := by
  cases h with
  | badName here | badValue here | repeated here => exact (List.getElem?_eq_some_iff.mp here).1

/-- **The loop fails with the first fault**, when nothing is wrong with what it has gone through. -/
theorem Records.enter_eq_error_iff (h : index.Records before)
    (hclean : ∀ earlier < before.length, ∀ other, ¬ FaultAt (before ++ cs) earlier other) :
    index.enter before.length cs = .error fault ↔
      ∃ position, FaultAt (before ++ cs) position fault ∧
        ∀ earlier < position, ∀ other, ¬ FaultAt (before ++ cs) earlier other := by
  induction cs generalizing index before with
  | nil =>
    constructor
    · exact fun henter => nomatch henter
    · rintro ⟨position, hfault, -⟩
      have hlt := lt_length_of_faultAt hfault
      rw [List.append_nil] at hlt
      exact absurd hfault (hclean position hlt fault)
  | cons c cs ih =>
    cases hrefused : index.fault? c with
    | some refused =>
      have hhere : FaultAt (before ++ c :: cs) before.length refused := h.faultAt_iff.mpr hrefused
      rw [enter_cons_of_fault hrefused]
      constructor
      · intro heq
        rw [← Except.error.inj heq]
        exact ⟨before.length, hhere, hclean⟩
      · rintro ⟨position, hfault, hfirst⟩
        -- the first fault is neither before this one nor behind it
        rcases Nat.lt_trichotomy position before.length with hlt | rfl | hgt
        · exact absurd hfault (hclean position hlt fault)
        · rw [h.faultAt_iff, hrefused] at hfault
          exact congrArg Except.error (Option.some.inj hfault)
        · exact absurd hhere (hfirst before.length hgt refused)
    | none =>
      rw [enter_cons_concat hrefused, List.append_cons before c cs]
      refine ih (h.concat (fault?_eq_none_iff.mp hrefused).2) fun earlier hlt other hfault => ?_
      rw [List.length_append, List.length_singleton] at hlt
      rw [← List.append_cons] at hfault
      rcases Nat.lt_succ_iff_lt_or_eq.mp hlt with hlt | rfl
      · exact hclean earlier hlt other hfault
      · rw [h.faultAt_iff, hrefused] at hfault
        exact nomatch hfault

/-- **A list of conditions without an index has the first of its faults.** -/
theorem ofConditions_eq_error_iff {conditions : List Condition} :
    ofConditions conditions = .error fault ↔ FirstFault conditions fault := by
  unfold ofConditions
  cases conditions with
  | nil =>
    constructor
    · intro h
      exact Except.error.inj h ▸ .empty
    · intro h
      cases h with
      | empty => rfl
      | atPosition here first => exact absurd (lt_length_of_faultAt here) (Nat.not_lt_zero _)
  | cons c cs =>
    have hclean : ∀ earlier < 0, ∀ other, ¬ FaultAt ([] ++ c :: cs) earlier other :=
      fun earlier hlt => absurd hlt (Nat.not_lt_zero earlier)
    rw [List.isEmpty_cons, if_neg Bool.false_ne_true]
    refine (records_nil.enter_eq_error_iff hclean).trans ⟨?_, ?_⟩
    · rintro ⟨position, here, first⟩
      exact .atPosition here first
    · intro h
      cases h with
      | atPosition here first => exact ⟨_, here, first⟩

/-- **The index of a list records it.** -/
theorem records_of_ofConditions {conditions : List Condition}
    (h : ofConditions conditions = .ok index) : index.Records conditions := by
  unfold ofConditions at h
  split at h
  · exact nomatch h
  · exact records_nil.enter h

end NameIndex

/-! ## Asking a set -/

namespace ConditionSet

variable {s : ConditionSet} {name : String}

/-- What a set answers for a name: the value that its list has with the name, and `missing` if there
is none. -/
def Answers {ε : Type} (s : ConditionSet) (name : String) (missing : ε)
    (answer : Except ε String) : Prop :=
  (∀ value, answer = .ok value ↔ ⟨name, value⟩ ∈ s.conditions) ∧
    ∀ fault, answer = .error fault ↔ fault = missing ∧ ∀ value, ⟨name, value⟩ ∉ s.conditions

/-- The index and the list of a set agree, and so does everything that is asked of a name. -/
structure Agrees (s : ConditionSet) : Prop where
  /-- The index leads to the position in the list, which is in it. -/
  index : ∀ name position, s.index.find? name = some position ↔
    ∃ value, s.at? position = some ⟨name, value⟩
  get? : ∀ name value, s.get? name = some value ↔ ⟨name, value⟩ ∈ s.conditions
  value : ∀ name, s.Answers name (.notFound name) (s.value name)
  fetch : ∀ name, s.Answers name ⟨"condition not found: " ++ name⟩ (s.fetch name)
  contains : ∀ name, s.contains name = true ↔ ∃ value, ⟨name, value⟩ ∈ s.conditions

theorem records_index (s : ConditionSet) : s.index.Records s.conditions :=
  NameIndex.records_of_ofConditions s.ofConditions_conditions

/-- A name is looked up in the list by way of the index. -/
theorem get?_eq_some_iff {value : String} :
    s.get? name = some value ↔ ⟨name, value⟩ ∈ s.conditions := by
  unfold get? at?
  rw [Option.bind_eq_some_iff, List.mem_iff_getElem?]
  constructor
  · rintro ⟨position, hfound, hvalue⟩
    obtain ⟨other, hposition⟩ := (s.records_index name position).mp hfound
    rw [hposition] at hvalue
    exact ⟨position, Option.some.inj hvalue ▸ hposition⟩
  · rintro ⟨position, hposition⟩
    refine ⟨position, (s.records_index name position).mpr ⟨value, hposition⟩, ?_⟩
    rw [hposition]
    rfl

/-- The index has the names of the list. -/
theorem contains_iff : s.contains name = true ↔ ∃ value, ⟨name, value⟩ ∈ s.conditions := by
  unfold contains
  rw [Option.isSome_iff_exists]
  constructor
  · rintro ⟨position, hfound⟩
    obtain ⟨value, hposition⟩ := (s.records_index name position).mp hfound
    exact ⟨value, List.mem_of_getElem? hposition⟩
  · rintro ⟨value, hmem⟩
    obtain ⟨position, hposition⟩ := List.mem_iff_getElem?.mp hmem
    exact ⟨position, (s.records_index name position).mpr ⟨value, hposition⟩⟩

/-- A lookup with an error for missing names answers. -/
theorem answers_of_get? {ε : Type} {missing : ε} {answer : Except ε String}
    (hsome : ∀ value, s.get? name = some value → answer = .ok value)
    (hnone : s.get? name = none → answer = .error missing) : s.Answers name missing answer := by
  simp only [Answers, ← get?_eq_some_iff]
  cases hget : s.get? name with
  | some value =>
    rw [hsome value hget]
    simp
  | none =>
    rw [hnone hget]
    simp [eq_comm]

/-- **The index and the list of every set agree.** -/
theorem agrees (s : ConditionSet) : s.Agrees where
  index := s.records_index
  get? name value := get?_eq_some_iff
  value name := answers_of_get? (fun _ h => by rw [value, h]) fun h => by rw [value, h]
  fetch name := answers_of_get? (fun _ h => by rw [fetch, h]) fun h => by rw [fetch, h]; rfl
  contains name := contains_iff

/-- **A set answers the same by position and by name.** A list of conditions makes a set if there
are any, each has a name and a value that can be written, and no two have one name. Any other list
fails with the first of its faults. The set has the conditions of the list in their order, and its
index agrees with them. -/
theorem ofList_agrees (conditions : List Condition) :
    ((∃ s, ofList conditions = .ok s) ↔
      conditions ≠ [] ∧ (∀ c ∈ conditions, IsName c.name) ∧ (∀ c ∈ conditions, IsValue c.value) ∧
        conditions.Pairwise fun c d => c.name ≠ d.name) ∧
    (∀ fault, ofList conditions = .error fault ↔ FirstFault conditions fault) ∧
    ∀ s, ofList conditions = .ok s ↔ s.conditions = conditions ∧ s.Agrees := by
  refine ⟨?_, fun fault => ?_, fun s => ?_⟩
  · rw [exists_ofList_iff, List.Nodup, List.pairwise_map]
    simp only [Condition.isWritable_iff, forall₂_and, and_assoc]
  · rw [ofList_eq_error_iff, NameIndex.ofConditions_eq_error_iff]
  · rw [ofList_eq_ok_iff]
    exact ⟨fun h => ⟨h, s.agrees⟩, And.left⟩

/-- A bad value counts before the repeated name at its position and the bad name behind it. -/
example : ofList [⟨"A", "1"⟩, ⟨"A", "x|y"⟩, ⟨"", "2"⟩] = .error (.invalidValue "x|y") := by
  decide +kernel

end ConditionSet

end BuildProject
