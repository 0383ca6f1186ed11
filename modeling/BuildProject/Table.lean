/-!
# Tables

A table leads from keys to values. It is a list of pairs in which what was put in last stands first;
putting a key in takes its earlier value out, so a table built by `insert` has every key once. The
statements here say what `find?` answers after each change, and nothing else about a table has to
be known.
-/

namespace BuildProject

/-- Values by keys. -/
abbrev Table (α β : Type) := List (α × β)

namespace Table

variable {α β : Type} [BEq α] [LawfulBEq α]

/-- The value of a key. -/
def find? (t : Table α β) (key : α) : Option β :=
  t.lookup key

/-- The table without a key. -/
def erase (t : Table α β) (key : α) : Table α β :=
  t.filter (·.1 != key)

/-- The table with a value for a key, in the place of the one it had. -/
def insert (t : Table α β) (key : α) (value : β) : Table α β :=
  (key, value) :: t.erase key

/-- The keys, the last one put in first. -/
def keys (t : Table α β) : List α :=
  t.map Prod.fst

/-- A key that has been taken out is not found. -/
theorem find?_erase_self (t : Table α β) (key : α) : (t.erase key).find? key = none := by
  simp only [find?, erase, List.lookup_eq_none_iff]
  intro e he
  exact bne_iff_ne.mpr (Ne.symm (bne_iff_ne.mp (List.mem_filter.mp he).2))

/-- Taking a key out changes nothing for the others. -/
theorem find?_erase_of_ne (t : Table α β) {key other : α} (h : other ≠ key) :
    (t.erase key).find? other = t.find? other := by
  simp only [find?, erase]
  induction t with
  | nil => rfl
  | cons e t ih =>
    obtain ⟨k, v⟩ := e
    by_cases hk : k = key
    · have hne : (other == k) = false := beq_false_of_ne (hk ▸ h)
      rw [List.filter_cons_of_neg (by simp [hk]), ih, List.lookup_cons, hne]
    · rw [List.filter_cons_of_pos (by simp [hk]), List.lookup_cons, List.lookup_cons, ih]

/-- A key that has been put in has the value it was given. -/
theorem find?_insert_self (t : Table α β) (key : α) (value : β) :
    (t.insert key value).find? key = some value := by
  simp [find?, insert]

/-- Putting a key in changes nothing for the others. -/
theorem find?_insert_of_ne (t : Table α β) {key other : α} (value : β) (h : other ≠ key) :
    (t.insert key value).find? other = t.find? other := by
  have hne : (other == key) = false := beq_false_of_ne h
  rw [← find?_erase_of_ne t h]
  simp only [find?, insert, List.lookup_cons, hne]

/-- Only a key that was missing before, and has not been put in, is missing. -/
theorem find?_insert_eq_none_iff {t : Table α β} {key other : α} {value : β} :
    (t.insert key value).find? other = none ↔ other ≠ key ∧ t.find? other = none := by
  by_cases h : other = key
  · subst h
    simp [find?_insert_self]
  · simp [find?_insert_of_ne t value h, h]

/-- Every key is in the table once. -/
theorem nodup_keys_insert {t : Table α β} (h : t.keys.Nodup) (key : α) (value : β) :
    (t.insert key value).keys.Nodup := by
  simp only [keys, insert, erase, List.map_cons, List.nodup_cons, List.mem_map, List.mem_filter]
  refine ⟨?_, (List.Sublist.map Prod.fst List.filter_sublist).nodup h⟩
  rintro ⟨e, ⟨_, hne⟩, heq⟩
  simp [heq] at hne

end Table

end BuildProject
