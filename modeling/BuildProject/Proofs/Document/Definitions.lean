import Mathlib.Data.List.Induction
import BuildProject.Document.Evaluation

/-!
# Definitions that count

The elements of property groups define properties, one after the other, and a definition counts if
its conditions hold where it stands. `Document.definitions` lists those that count, without a table
of properties: what a condition sees are the global properties and the definitions listed so far,
and of several definitions of a name the last one (`Definitions.value?`).

The table of an evaluation is these definitions put in one after the other (`table_evaluate`),
except those of a name that a global property fixes. So the last definition of a name is its value
(`property?_evaluate`).
-/

namespace BuildProject

open Text

/-! ## Letter case -/

theorem sameIgnoringCase_iff {a b : String} : sameIgnoringCase a b = true ↔ fold a = fold b := by
  rw [sameIgnoringCase, beq_iff_eq]

theorem sameIgnoringCase_eq_false_iff {a b : String} :
    sameIgnoringCase a b = false ↔ fold a ≠ fold b := by
  rw [sameIgnoringCase, beq_eq_false_iff_ne]

/-- What is the same as a name is so for every spelling of the name. -/
theorem sameIgnoringCase_congr {a b : String} (h : sameIgnoringCase a b = true) (name : String) :
    sameIgnoringCase name a = sameIgnoringCase name b := by
  rw [sameIgnoringCase, sameIgnoringCase, sameIgnoringCase_iff.mp h]

/-! ## What counts -/

/-- Names and values, in the order in which they have been given. -/
abbrev Definitions := List (String × String)

/-- The last value given to a name; case does not count. -/
def Definitions.last? (definitions : Definitions) (name : String) : Option String :=
  (definitions.filter fun p => sameIgnoringCase p.1 name).getLast?.map Prod.snd

/-- The value of a name where some definitions count: the last global property of that name, or
else the last definition. -/
def Definitions.value? (g : GlobalProperties) (counting : Definitions) (name : String) :
    Option String :=
  (last? g.entries name).or (last? counting name)

/-- Whether the condition of an element holds where properties have the given values: a missing or
blank one does, one that cannot be read does not, and any other does if each of its variables has
the value that it asks for. A property without a value counts as the empty text. -/
def Element.holdsUnder (values : String → Option String) (e : Element) : Bool :=
  match e.condition? with
  | none => true
  | some text =>
    isAllBlank text ||
      match ConditionSet.parse text with
      | .ok conditions =>
        conditions.conditions.all fun c => sameIgnoringCase ((values c.name).getD "") c.value
      | .error _ => false

namespace Definitions

variable (g : GlobalProperties)

/-- The definitions that count behind a property. -/
def afterProperty (counting : Definitions) (property : Element) : Definitions :=
  if property.holdsUnder (value? g counting) then counting ++ [(property.name, property.text)]
  else counting

/-- The definitions that count behind a property group. -/
def afterGroup (counting : Definitions) (group : Element) : Definitions :=
  if group.holdsUnder (value? g counting) then group.children.foldl (afterProperty g) counting
  else counting

end Definitions

/-- The definitions that count in a document, from top to bottom. -/
def Document.definitions (d : Document) (g : GlobalProperties) : Definitions :=
  d.propertyGroups.foldl (Definitions.afterGroup g) []

namespace Definitions

@[simp] theorem last?_nil (name : String) : last? [] name = none := rfl

/-- The last definition gives its name a value and leaves the others as they are. -/
theorem last?_concat (definitions : Definitions) (p : String × String) (name : String) :
    last? (definitions ++ [p]) name =
      if sameIgnoringCase p.1 name then some p.2 else last? definitions name := by
  unfold last?
  rw [List.filter_append]
  by_cases hsame : sameIgnoringCase p.1 name = true
  · rw [if_pos hsame, List.filter_cons_of_pos (by exact hsame), List.filter_nil,
      List.getLast?_concat]
    rfl
  · rw [if_neg hsame, List.filter_cons_of_neg (by exact hsame), List.filter_nil, List.append_nil]

/-- Every spelling of a name has the same value. -/
theorem last?_congr {a b : String} (h : sameIgnoringCase a b = true) (definitions : Definitions) :
    last? definitions a = last? definitions b := by
  unfold last?
  simp only [sameIgnoringCase_congr h]

/-- A name is fixed if a global property gives it a value. -/
theorem isFixed_eq (g : GlobalProperties) (name : String) :
    PropertyTable.isFixed g name = (last? g.entries name).isSome := by
  unfold PropertyTable.isFixed
  induction g.entries using List.reverseRecOn with
  | nil => rfl
  | append_singleton entries p ih =>
    rw [List.any_append, ih, last?_concat, List.any_cons, List.any_nil, Bool.or_false]
    by_cases hsame : sameIgnoringCase p.1 name = true
    · rw [if_pos hsame, hsame, Bool.or_true, Option.isSome_some]
    · rw [if_neg hsame, Bool.eq_false_iff.mpr hsame, Bool.or_false]

end Definitions

/-! ## Tables -/

namespace PropertyTable

/-- Conditions hold in a table if they do under its values. -/
theorem holds_eq (t : PropertyTable) (e : Element) : holds t e = e.holdsUnder t.value? := by
  unfold holds Element.holdsUnder Element.guard?
  cases e.condition? with
  | none => rfl
  | some text =>
    rw [Option.filter_some]
    dsimp only
    cases isAllBlank text with
    | true => rfl
    | false => rfl

/-- A property that is put in has its value from then on. -/
theorem value?_insert (t : PropertyTable) (p : PropertyValue) (name : String) :
    (insert t p).value? name =
      if sameIgnoringCase p.name name then some p.value else t.value? name := by
  unfold value? insert
  by_cases hsame : sameIgnoringCase p.name name = true
  · rw [if_pos hsame, sameIgnoringCase_iff.mp hsame, Table.find?_insert_self]
    rfl
  · rw [if_neg hsame]
    have hne : fold name ≠ fold p.name := fun heq => hsame (sameIgnoringCase_iff.mpr heq.symm)
    rw [Table.find?_insert_of_ne t p hne]

theorem value?_ofGlobals (g : GlobalProperties) (name : String) :
    (ofGlobals g).value? name = Definitions.last? g.entries name := by
  unfold ofGlobals
  induction g.entries using List.reverseRecOn with
  | nil => rfl
  | append_singleton entries p ih =>
    rw [List.foldl_append, Definitions.last?_concat, ← ih]
    exact value?_insert _ _ name

/-- The table in which definitions have been put one after the other, except those of fixed
names. -/
def ofDefinitions (g : GlobalProperties) (definitions : Definitions) : PropertyTable :=
  definitions.foldl (fun t p => if isFixed g p.1 then t else insert t ⟨p.1, p.2⟩) (.ofGlobals g)

theorem ofDefinitions_concat (g : GlobalProperties) (definitions : Definitions)
    (p : String × String) : ofDefinitions g (definitions ++ [p]) =
      if isFixed g p.1 then ofDefinitions g definitions
      else insert (ofDefinitions g definitions) ⟨p.1, p.2⟩ := by
  rw [ofDefinitions, List.foldl_append]
  rfl

/-- **The last definition of a name is its value in the table**, unless the name is fixed. -/
theorem value?_ofDefinitions (g : GlobalProperties) (definitions : Definitions) (name : String) :
    (ofDefinitions g definitions).value? name = Definitions.value? g definitions name := by
  induction definitions using List.reverseRecOn with
  | nil =>
    rw [Definitions.value?, Definitions.last?_nil, Option.or_none]
    exact value?_ofGlobals g name
  | append_singleton definitions p ih =>
    rw [ofDefinitions_concat, Definitions.value?, Definitions.last?_concat]
    rw [Definitions.value?] at ih
    by_cases hsame : sameIgnoringCase p.1 name = true
    · rw [if_pos hsame, Definitions.isFixed_eq, Definitions.last?_congr hsame]
      cases hfixed : Definitions.last? g.entries name with
      | none =>
        rw [Option.isSome_none, if_neg Bool.false_ne_true, value?_insert, if_pos hsame]
        rfl
      | some value =>
        rw [Option.isSome_some, if_pos rfl, ih, hfixed]
        rfl
    · rw [if_neg hsame]
      split
      · exact ih
      · rw [value?_insert, if_neg hsame]
        exact ih

/-- Conditions see the definitions that the table is made of. -/
theorem holds_ofDefinitions (g : GlobalProperties) (definitions : Definitions) (e : Element) :
    holds (ofDefinitions g definitions) e = e.holdsUnder (definitions.value? g) := by
  have hvalues : (ofDefinitions g definitions).value? = definitions.value? g :=
    funext (value?_ofDefinitions g definitions)
  rw [holds_eq, hvalues]

/-- A property adds its definition to the table, if it counts. -/
theorem applyProperty_ofDefinitions (g : GlobalProperties) (definitions : Definitions)
    (property : Element) : applyProperty g (ofDefinitions g definitions) property =
      ofDefinitions g (definitions.afterProperty g property) := by
  unfold applyProperty Definitions.afterProperty
  rw [holds_ofDefinitions]
  by_cases hholds : property.holdsUnder (definitions.value? g) = true
  · rw [if_pos hholds, if_pos hholds, ofDefinitions_concat]
  · rw [if_neg hholds, if_neg hholds, ite_self]

theorem foldl_applyProperty_ofDefinitions (g : GlobalProperties) (definitions : Definitions)
    (properties : List Element) :
    properties.foldl (applyProperty g) (ofDefinitions g definitions) =
      ofDefinitions g (properties.foldl (Definitions.afterProperty g) definitions) := by
  induction properties generalizing definitions with
  | nil => rfl
  | cons property properties ih =>
    rw [List.foldl_cons, List.foldl_cons, applyProperty_ofDefinitions, ih]

/-- A group adds the definitions in it that count. -/
theorem applyGroup_ofDefinitions (g : GlobalProperties) (definitions : Definitions)
    (group : Element) : applyGroup g (ofDefinitions g definitions) group =
      ofDefinitions g (definitions.afterGroup g group) := by
  unfold applyGroup Definitions.afterGroup
  rw [holds_ofDefinitions, foldl_applyProperty_ofDefinitions]
  split
  · rfl
  · rfl

/-! ### Names in tables -/

/-- Every property stands at its folded name, and once. -/
structure Distinct (t : PropertyTable) : Prop where
  nodup : t.keys.Nodup
  named : ∀ entry ∈ t, entry.1 = fold entry.2.name

theorem distinct_nil : Distinct [] :=
  ⟨List.nodup_nil, fun _ h => absurd h List.not_mem_nil⟩

theorem Distinct.insert {t : PropertyTable} (h : t.Distinct) (p : PropertyValue) :
    (insert t p).Distinct := by
  refine ⟨Table.nodup_keys_insert h.nodup (fold p.name) p, fun entry hentry => ?_⟩
  rcases List.mem_cons.mp hentry with rfl | hentry
  · rfl
  · exact h.named entry (List.mem_filter.mp hentry).1

theorem distinct_ofGlobals (g : GlobalProperties) : (ofGlobals g).Distinct := by
  unfold ofGlobals
  induction g.entries using List.reverseRecOn with
  | nil => exact distinct_nil
  | append_singleton entries p ih =>
    rw [List.foldl_append]
    exact ih.insert ⟨p.1, p.2⟩

theorem distinct_ofDefinitions (g : GlobalProperties) (definitions : Definitions) :
    (ofDefinitions g definitions).Distinct := by
  induction definitions using List.reverseRecOn with
  | nil => exact distinct_ofGlobals g
  | append_singleton definitions p ih =>
    rw [ofDefinitions_concat]
    split
    · exact ih
    · exact ih.insert ⟨p.1, p.2⟩

/-- No two properties of a table have one name in two spellings. -/
theorem Distinct.pairwise {t : PropertyTable} (h : t.Distinct) :
    (t.map Prod.snd).Pairwise fun p q => sameIgnoringCase p.name q.name = false := by
  rw [List.pairwise_map]
  refine (List.pairwise_map.mp h.nodup).imp_of_mem fun {a b} ha hb hne => ?_
  rw [sameIgnoringCase_eq_false_iff, ← h.named a ha, ← h.named b hb]
  exact hne

end PropertyTable

/-! ## Evaluations -/

namespace Evaluation

/-- **The table of an evaluation is made of the definitions that count.** -/
theorem table_evaluate (d : Document) (g : GlobalProperties) :
    (evaluate d g).table = .ofDefinitions g (d.definitions g) := by
  have hgroups (groups : List Element) (definitions : Definitions) :
      groups.foldl (PropertyTable.applyGroup g) (.ofDefinitions g definitions) =
        .ofDefinitions g (groups.foldl (Definitions.afterGroup g) definitions) := by
    induction groups generalizing definitions with
    | nil => rfl
    | cons group groups ih =>
      rw [List.foldl_cons, List.foldl_cons, PropertyTable.applyGroup_ofDefinitions, ih]
  exact hgroups d.propertyGroups []

/-- **The value of a property** is that of the last global property of its name, or else the last
definition that counts; and no two properties have one name in two spellings. -/
theorem property?_evaluate (d : Document) (g : GlobalProperties) :
    (∀ name, (evaluate d g).property? name = (d.definitions g).value? g name) ∧
      (evaluate d g).properties.Pairwise fun p q => sameIgnoringCase p.name q.name = false := by
  unfold property? properties
  rw [table_evaluate]
  exact ⟨PropertyTable.value?_ofDefinitions g _, (PropertyTable.distinct_ofDefinitions g _).pairwise⟩

end Evaluation

end BuildProject
