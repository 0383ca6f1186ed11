import BuildProject.Document.Query
import BuildProject.Table

/-!
# Evaluation

The properties of a project as a build sees them. The walk goes through the property groups from
top to bottom and through each group from first to last; a group or a property whose condition
does not hold is skipped, and a later value replaces an earlier one of the same name. Names of
properties ignore case. Global properties are there from the start and cannot be replaced.

Conditions are equalities of lists; any other condition counts as false. Values are taken as they
are written: references to properties inside them stay.

An evaluation remembers the document and the revision it was made from, so it can tell whether it
is out of date.
-/

namespace BuildProject

open Text

/-! ## Global properties -/

/-- Properties given from outside, in the order of their names. -/
structure GlobalProperties where
  entries : List (String × String)
  sorted : entries.Pairwise (fun a b => a.1 < b.1)
deriving DecidableEq

namespace GlobalProperties

/-- No properties. -/
def empty : GlobalProperties := ⟨[], .nil⟩

/-- The entries with one set, in the order of their names. -/
def insertEntry (name value : String) : List (String × String) → List (String × String)
  | [] => [(name, value)]
  | entry :: entries =>
    if name < entry.1 then (name, value) :: entry :: entries
    else if entry.1 < name then entry :: insertEntry name value entries
    else (name, value) :: entries

theorem mem_insertEntry {name value : String} {entries : List (String × String)}
    {e : String × String} (h : e ∈ insertEntry name value entries) :
    e = (name, value) ∨ e ∈ entries := by
  induction entries with
  | nil => simpa [insertEntry] using h
  | cons entry entries ih =>
    simp only [insertEntry] at h
    split at h
    · simpa using h
    · split at h
      · simp only [List.mem_cons] at h ⊢
        rcases h with h | h
        · exact .inr (.inl h)
        · exact (ih h).imp id .inr
      · simp only [List.mem_cons] at h ⊢
        exact h.imp id .inr

theorem sorted_insertEntry {name value : String} {entries : List (String × String)}
    (h : entries.Pairwise (fun a b => a.1 < b.1)) :
    (insertEntry name value entries).Pairwise (fun a b => a.1 < b.1) := by
  induction entries with
  | nil => simp [insertEntry]
  | cons entry entries ih =>
    have hcons := List.pairwise_cons.mp h
    simp only [insertEntry]
    split
    · rename_i hlt
      refine List.pairwise_cons.mpr ⟨fun e he => ?_, h⟩
      rcases List.mem_cons.mp he with rfl | he
      · exact hlt
      · exact String.lt_trans hlt (hcons.1 e he)
    · split
      · rename_i hlt
        refine List.pairwise_cons.mpr ⟨fun e he => ?_, ih hcons.2⟩
        rcases mem_insertEntry he with rfl | he
        · exact hlt
        · exact hcons.1 e he
      · rename_i hnlt hngt
        have heq : name = entry.1 :=
          String.le_antisymm (String.not_lt.mp hngt) (String.not_lt.mp hnlt)
        exact List.pairwise_cons.mpr ⟨fun e he => heq ▸ hcons.1 e he, hcons.2⟩

/-- The properties with one set. -/
def insert (g : GlobalProperties) (name value : String) : GlobalProperties :=
  ⟨insertEntry name value g.entries, sorted_insertEntry g.sorted⟩

/-- The properties of a list; the last value of a name counts. -/
def ofList (entries : List (String × String)) : GlobalProperties :=
  entries.foldl (fun g (name, value) => g.insert name value) empty

end GlobalProperties

/-! ## Tables -/

/-- A property with its name as it was declared. -/
structure PropertyValue where
  name : String
  value : String
deriving DecidableEq, Repr

/-- Properties by their folded names, one for each name. -/
abbrev PropertyTable := Table String PropertyValue

namespace PropertyTable

/-- The table with a property set. -/
def insert (t : PropertyTable) (p : PropertyValue) : PropertyTable :=
  Table.insert t (fold p.name) p

/-- The value of a property; case does not count. -/
def value? (t : PropertyTable) (name : String) : Option String :=
  (Table.find? t (fold name)).map PropertyValue.value

/-- The table that holds global properties. Of two names that differ in case only, the later
one counts. -/
def ofGlobals (g : GlobalProperties) : PropertyTable :=
  g.entries.foldl (fun t (name, value) => insert t ⟨name, value⟩) []

/-- Whether one comparison holds; a property that is not there counts as the empty text. -/
def satisfies (t : PropertyTable) (c : Condition) : Bool :=
  sameIgnoringCase ((value? t c.name).getD "") c.value

/-- Whether the condition of an element holds. -/
def holds (t : PropertyTable) (e : Element) : Bool :=
  match e.guard? with
  | none => true
  | some text =>
    match ConditionSet.parse text with
    | .ok conditions => conditions.conditions.all (satisfies t)
    | .error _ => false

/-- Whether a global property fixes the value of a name. -/
def isFixed (g : GlobalProperties) (name : String) : Bool :=
  g.entries.any fun entry => sameIgnoringCase entry.1 name

/-- The table after a property. -/
def applyProperty (g : GlobalProperties) (t : PropertyTable) (e : Element) : PropertyTable :=
  if isFixed g e.name then t
  else if holds t e then insert t ⟨e.name, e.text⟩
  else t

/-- The table after a property group. -/
def applyGroup (g : GlobalProperties) (t : PropertyTable) (group : Element) : PropertyTable :=
  if holds t group then group.children.foldl (applyProperty g) t else t

end PropertyTable

/-! ## Evaluations -/

/-- The properties of a document at one of its revisions. -/
structure Evaluation where
  table : PropertyTable
  /-- The document, unless nothing was evaluated. -/
  document? : Option DocumentId
  revision : Nat
deriving DecidableEq, Repr

namespace Evaluation

/-- The evaluation of nothing. -/
def empty : Evaluation := ⟨[], none, 0⟩

/-- The properties of a document under the given global properties. -/
def evaluate (d : Document) (g : GlobalProperties) : Evaluation where
  table := d.propertyGroups.foldl (PropertyTable.applyGroup g) (.ofGlobals g)
  document? := some d.id
  revision := d.revision

/-- The value of a property; case does not count. -/
def property? (e : Evaluation) (name : String) : Option String :=
  e.table.value? name

/-- The properties, each with its name as it was declared. -/
def properties (e : Evaluation) : List PropertyValue :=
  e.table.map Prod.snd

/-- Whether the evaluation was made from the document as it is now. -/
def isCurrent (e : Evaluation) (d : Document) : Bool :=
  e.document? = some d.id && e.revision = d.revision

end Evaluation

end BuildProject
