import Mathlib.Algebra.GroupWithZero.Nat
import BuildProject.Guid
import BuildProject.Proofs.Text

/-!
# Identifiers that are stored and read

The stored form of an identifier is read as the identifier (`Guid.parse?_stored`): no digit is a
hyphen, so the hyphens cut the groups apart as they were joined, and the groups one after the other
are the digits, each of which is read from its capital letter.
-/

namespace BuildProject.Guid

open Text

/-! ## Pieces -/

variable {α β : Type}

theorem map_cut (f : α → β) (cs : List α) (ns : List Nat) :
    (cut cs ns).map (List.map f) = cut (cs.map f) ns := by
  induction ns generalizing cs with
  | nil => rfl
  | cons n ns ih => simp only [cut, List.map_cons, List.map_take, List.map_drop, ih]

/-- Pieces have the lengths that are asked for if there is enough to cut. -/
theorem map_length_cut {cs : List α} {ns : List Nat} (h : ns.sum ≤ cs.length) :
    (cut cs ns).map List.length = ns := by
  induction ns generalizing cs with
  | nil => rfl
  | cons n ns ih =>
    rw [List.sum_cons] at h
    have hrest : ns.sum ≤ (cs.drop n).length := by
      rw [List.length_drop]
      omega
    rw [cut, List.map_cons, List.length_take, ih hrest, Nat.min_eq_left (by omega)]

/-- The pieces one after the other are what has been cut. -/
theorem flatten_cut (cs : List α) (ns : List Nat) : (cut cs ns).flatten = cs.take ns.sum := by
  induction ns generalizing cs with
  | nil => rfl
  | cons n ns ih => rw [cut, List.flatten_cons, ih, List.sum_cons, List.take_add]

/-! ## Digits -/

/-- The capital character for a digit. -/
def capital (d : Fin 16) : Char :=
  (digitChar d).toUpper

theorem digit?_capital (d : Fin 16) : digit? (capital d) = some d := by
  revert d
  decide

theorem capital_ne_hyphen (d : Fin 16) : capital d ≠ '-' := by
  revert d
  decide

theorem mapM_digit?_capital (digits : List (Fin 16)) :
    (digits.map capital).mapM digit? = some digits := by
  induction digits with
  | nil => rfl
  | cons d digits ih =>
    rw [List.map_cons, List.mapM_cons, digit?_capital, ih]
    rfl

variable (g : Guid)

theorem ofDigits?_capital : ofDigits? (g.digits.map capital) = some g := by
  rw [ofDigits?, mapM_digit?_capital]
  exact dif_pos g.length_eq

/-! ## The stored form -/

/-- What stands between the braces. -/
theorem map_toUpper_hyphenated : g.hyphenated.map Char.toUpper =
    ['-'].intercalate (cut (g.digits.map capital) groupLengths) := by
  have hupper : Char.toUpper ∘ digitChar = capital := rfl
  rw [hyphenated, map_intercalate, map_cut, List.map_map, hupper]
  rfl

theorem ofHyphenated?_capital :
    ofHyphenated? (['-'].intercalate (cut (g.digits.map capital) groupLengths)) = some g := by
  have hlength : groupLengths.sum = (g.digits.map capital).length := by
    rw [List.length_map, g.length_eq]
    rfl
  have hflatten : (cut (g.digits.map capital) groupLengths).flatten = g.digits.map capital := by
    rw [flatten_cut, hlength, List.take_length]
  have hsplit : (['-'].intercalate (cut (g.digits.map capital) groupLengths)).splitOn '-' =
      cut (g.digits.map capital) groupLengths := by
    refine List.splitOn_intercalate '-' (fun piece hpiece hhyphen => ?_) (List.cons_ne_nil _ _)
    have hmem : '-' ∈ g.digits.map capital :=
      hflatten ▸ List.mem_flatten.mpr ⟨piece, hpiece, hhyphen⟩
    obtain ⟨d, -, hd⟩ := List.mem_map.mp hmem
    exact capital_ne_hyphen d hd
  rw [ofHyphenated?, hsplit, if_pos (map_length_cut (Nat.le_of_eq hlength)), hflatten]
  exact g.ofDigits?_capital

/-- **What has been stored is read.** -/
theorem parse?_stored : parse? (trimmed g.stored) = some g := by
  have htrim : trim g.stored.toList = g.stored.toList := by
    rw [stored, String.toList_ofList]
    exact trim_between (by decide) (by decide) _
  have hlength : (g.hyphenated.map Char.toUpper).length = 36 := by
    simp [hyphenated, groupLengths, cut, List.intercalate, g.length_eq]
  rw [trimmed, htrim, String.ofList_toList, parse?, stored, String.toList_ofList,
    if_neg (by simp [hlength]), if_pos ⟨rfl, List.getLast?_concat⟩, List.cons_append,
    List.drop_one, List.tail_cons, List.dropLast_concat, map_toUpper_hyphenated]
  exact g.ofHyphenated?_capital

end BuildProject.Guid
