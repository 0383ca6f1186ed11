import BuildProject.Proofs.Condition.Roundtrip

/-!
# The grammar of condition text

A condition text is an equality of two quoted lists of one length: references to variables on the
left, values on the right. `ConditionText.Says` states this without reading anything, and states
which error belongs to each text that is none: the quoted shape counts before the names, the names
count from left to right, and the lengths count last. `parseConditions_eq_iff_says` shows that the
reader does just that.

The reader works in three steps, and each has one lemma that says when it answers what: the shape
(`quotedSides?_eq_some_iff`), one name (`readName_eq_ok_iff`, `readName_eq_error_iff`), and the
names in a row (`mapM_readName_eq_ok_iff`, `mapM_readName_eq_error_iff`).
-/

namespace BuildProject

open Text

/-! ## What condition text is -/

namespace ConditionText

/-- The characters a name starts with: the letters of ASCII and the underscore. -/
def IsNameStart (c : Char) : Prop :=
  ('A' ≤ c ∧ c ≤ 'Z') ∨ ('a' ≤ c ∧ c ≤ 'z') ∨ c = '_'

/-- The characters a name goes on with: those it starts with, digits and hyphens. -/
def IsNameRest (c : Char) : Prop :=
  IsNameStart c ∨ ('0' ≤ c ∧ c ≤ '9') ∨ c = '-'

/-- The name of a variable. -/
def IsName (name : String) : Prop :=
  ∃ first rest, name.toList = first :: rest ∧ IsNameStart first ∧ ∀ c ∈ rest, IsNameRest c

/-- Two quoted texts with `==` between them, and with blanks around the operator only. No quote is
inside either text. -/
def IsEquality (cs left right : List Char) : Prop :=
  '\'' ∉ left ∧ '\'' ∉ right ∧ ∃ before after : List Char,
    (∀ c ∈ before, isBlank c = true) ∧ (∀ c ∈ after, isBlank c = true) ∧
      cs = inQuotes left ++ (before ++ '=' :: '=' :: (after ++ inQuotes right))

/-- At least one entry, with bars between the entries and none inside. -/
def IsList (side : List Char) (entries : List (List Char)) : Prop :=
  entries ≠ [] ∧ (∀ entry ∈ entries, '|' ∉ entry) ∧ side = ['|'].intercalate entries

/-- What a text says: conditions, or what is wrong with it. -/
inductive Says (text : String) : Except ConditionError (List Condition) → Prop
  /-- As many values as references, one condition for each pair. -/
  | conditions {left right : List Char} {conditions : List Condition}
      (equality : IsEquality (trim text.toList) left right)
      (references : IsList left (conditions.map fun c => reference c.name))
      (names : ∀ c ∈ conditions, IsName c.name)
      (values : IsList right (conditions.map fun c => c.value.toList)) :
      Says text (.ok conditions)
  /-- No equality; the error shows the text with the blanks around it. -/
  | noEquality (none : ∀ left right, ¬ IsEquality (trim text.toList) left right) :
      Says text (.error (.invalidText text))
  /-- An entry on the left that is no reference, behind entries that are. -/
  | badName {left right bad : List Char} {good : List String} {others : List (List Char)}
      (equality : IsEquality (trim text.toList) left right)
      (entries : IsList left (good.map reference ++ bad :: others))
      (names : ∀ name ∈ good, IsName name)
      (noReference : ∀ name, IsName name → bad ≠ reference name) :
      Says text (.error (.invalidName (String.ofList bad)))
  /-- References only, but not as many as there are values. -/
  | otherCount {left right : List Char} {names : List String} {values : List (List Char)}
      (equality : IsEquality (trim text.toList) left right)
      (references : IsList left (names.map reference))
      (areNames : ∀ name ∈ names, IsName name)
      (entries : IsList right values)
      (differ : names.length ≠ values.length) :
      Says text (.error (.countMismatch names.length values.length))

end ConditionText

open ConditionText

/-! ## Names -/

theorem isAlpha_iff {c : Char} :
    c.isAlpha = true ↔ ('A' ≤ c ∧ c ≤ 'Z') ∨ ('a' ≤ c ∧ c ≤ 'z') := by
  have halpha : c.isAlpha = (decide (c.val ≥ 'A'.val ∧ c.val ≤ 'Z'.val) ||
      (decide (c.val ≥ 'a'.val) && decide (c.val ≤ 'z'.val))) := rfl
  rw [halpha, Bool.or_eq_true, Bool.and_eq_true]
  simp only [decide_eq_true_eq]
  exact Iff.rfl

theorem isIdentifierStart_iff {c : Char} : isIdentifierStart c = true ↔ IsNameStart c := by
  rw [isIdentifierStart, Bool.or_eq_true, isAlpha_iff, beq_iff_eq, or_assoc]
  exact Iff.rfl

theorem isIdentifierRest_iff {c : Char} : isIdentifierRest c = true ↔ IsNameRest c := by
  rw [IsNameRest, ← isIdentifierStart_iff]
  simp only [isIdentifierRest, isIdentifierStart, Char.isAlphanum, Char.isDigit, Bool.or_eq_true,
    Bool.and_eq_true, decide_eq_true_eq, beq_iff_eq]
  constructor
  · rintro (((hletter | hdigit) | hunderscore) | hhyphen)
    · exact .inl (.inl hletter)
    · exact .inr (.inl hdigit)
    · exact .inl (.inr hunderscore)
    · exact .inr (.inr hhyphen)
  · rintro ((hletter | hunderscore) | hdigit | hhyphen)
    · exact .inl (.inl (.inl hletter))
    · exact .inl (.inr hunderscore)
    · exact .inl (.inl (.inr hdigit))
    · exact .inr hhyphen

/-- Names are the identifiers that the reader looks for. -/
theorem isIdentifier_iff {name : String} : isIdentifier name.toList = true ↔ IsName name := by
  unfold IsName isIdentifier
  cases name.toList with
  | nil => simp
  | cons c cs =>
    rw [Bool.and_eq_true, isIdentifierStart_iff, List.all_eq_true]
    simp only [isIdentifierRest_iff]
    constructor
    · rintro ⟨hfirst, hrest⟩
      exact ⟨c, cs, rfl, hfirst, hrest⟩
    · rintro ⟨first, rest, heq, hfirst, hrest⟩
      obtain ⟨rfl, rfl⟩ := List.cons.inj heq
      exact ⟨hfirst, hrest⟩

theorem readName_eq_ok_iff {entry : List Char} {name : String} :
    readName entry = .ok name ↔ entry = reference name ∧ IsName name := by
  rw [readName_eq_ok, isIdentifier_iff]

/-- An entry that is no reference is shown in the error. -/
theorem readName_eq_error_iff {entry : List Char} {fault : ConditionError} :
    readName entry = .error fault ↔
      (∀ name, IsName name → entry ≠ reference name) ∧
        fault = .invalidName (String.ofList entry) := by
  constructor
  · intro h
    constructor
    · intro name hname hentry
      rw [readName_eq_ok_iff.mpr ⟨hentry, hname⟩] at h
      exact absurd h (by simp)
    · unfold readName at h
      split at h
      · exact absurd h (by simp)
      · exact (Except.error.inj h).symm
  · rintro ⟨hnone, rfl⟩
    cases hread : readName entry with
    | ok name =>
      obtain ⟨hentry, hname⟩ := readName_eq_ok_iff.mp hread
      exact absurd hentry (hnone name hname)
    | error fault =>
      unfold readName at hread
      split at hread
      · exact absurd hread (by simp)
      · exact hread.symm

/-- The names in a row are read if every entry is a reference. -/
theorem mapM_readName_eq_ok_iff {entries : List (List Char)} {names : List String} :
    entries.mapM readName = .ok names ↔
      entries = names.map reference ∧ ∀ name ∈ names, IsName name := by
  induction entries generalizing names with
  | nil =>
    rw [List.mapM_nil, pure_eq_ok]
    constructor
    · rintro rfl
      simp
    · rintro ⟨hnil, -⟩
      exact (List.map_eq_nil_iff.mp hnil.symm).symm
  | cons entry entries ih =>
    rw [List.mapM_cons, bind_eq_ok]
    constructor
    · rintro ⟨name, hfirst, hrest⟩
      obtain ⟨others, hothers, hnames⟩ := bind_eq_ok.mp hrest
      obtain rfl := pure_eq_ok.mp hnames
      obtain ⟨rfl, hname⟩ := readName_eq_ok_iff.mp hfirst
      obtain ⟨rfl, hall⟩ := ih.mp hothers
      exact ⟨rfl, List.forall_mem_cons.mpr ⟨hname, hall⟩⟩
    · rintro ⟨hentries, hall⟩
      obtain ⟨name, others, rfl, hentry, hothers⟩ := List.map_eq_cons_iff.mp hentries.symm
      obtain ⟨hname, hall⟩ := List.forall_mem_cons.mp hall
      exact ⟨name, readName_eq_ok_iff.mpr ⟨hentry.symm, hname⟩,
        bind_eq_ok.mpr ⟨others, ih.mpr ⟨hothers.symm, hall⟩, rfl⟩⟩

/-- The first entry that is no reference is the one that counts. -/
theorem mapM_readName_eq_error_iff {entries : List (List Char)} {fault : ConditionError} :
    entries.mapM readName = .error fault ↔
      ∃ (good : List String) (bad : List Char) (others : List (List Char)),
        entries = good.map reference ++ bad :: others ∧ (∀ name ∈ good, IsName name) ∧
          (∀ name, IsName name → bad ≠ reference name) ∧
            fault = .invalidName (String.ofList bad) := by
  induction entries with
  | nil =>
    rw [List.mapM_nil]
    constructor
    · exact fun h => nomatch h
    · rintro ⟨good, bad, others, hentries, -⟩
      exact absurd hentries (by simp)
  | cons entry entries ih =>
    rw [List.mapM_cons]
    cases hfirst : readName entry with
    | error first =>
      obtain ⟨hnone, rfl⟩ := readName_eq_error_iff.mp hfirst
      constructor
      · intro h
        exact ⟨[], entry, entries, rfl, by simp, hnone, (Except.error.inj h).symm⟩
      · rintro ⟨good, bad, others, hentries, hgood, -, rfl⟩
        cases good with
        | nil =>
          obtain ⟨rfl, -⟩ := List.cons.inj hentries
          rfl
        | cons name good =>
          -- the first entry would be a reference
          obtain ⟨hentry, -⟩ := List.cons.inj hentries
          exact absurd hentry (hnone name (hgood name List.mem_cons_self))
    | ok name =>
      obtain ⟨rfl, hname⟩ := readName_eq_ok_iff.mp hfirst
      have hrest : (Except.ok name >>= fun name => entries.mapM readName >>= fun names =>
          pure (name :: names)) = .error fault ↔ entries.mapM readName = .error fault := by
        show (entries.mapM readName >>= fun names => pure (name :: names)) = .error fault ↔ _
        cases entries.mapM readName with
        | error other => exact Iff.rfl
        | ok names =>
          constructor
          · exact fun h => nomatch h
          · exact fun h => nomatch h
      rw [hrest, ih]
      constructor
      · rintro ⟨good, bad, others, rfl, hgood, hbad, hfault⟩
        exact ⟨name :: good, bad, others, rfl, List.forall_mem_cons.mpr ⟨hname, hgood⟩, hbad,
          hfault⟩
      · rintro ⟨good, bad, others, hentries, hgood, hbad, hfault⟩
        cases good with
        | nil =>
          obtain ⟨hentry, -⟩ := List.cons.inj hentries
          exact absurd hentry.symm (hbad name hname)
        | cons first good =>
          obtain ⟨-, hothers⟩ := List.cons.inj hentries
          exact ⟨good, bad, others, hothers, (List.forall_mem_cons.mp hgood).2, hbad, hfault⟩

/-! ## The quoted shape -/

/-- **The two sides are found** in an equality and in nothing else, so there is one way only to take
a text for an equality. -/
theorem quotedSides?_eq_some_iff {cs left right : List Char} :
    quotedSides? cs = some (left, right) ↔ IsEquality cs left right := by
  constructor
  · intro h
    unfold quotedSides? at h
    split at h
    · exact absurd h (by simp)
    · next run rest hfirst =>
      split at h
      · next behind hoperator =>
        split at h
        · next other hsecond =>
          obtain ⟨rfl, rfl⟩ := Prod.mk.inj (Option.some.inj h)
          obtain ⟨hleft, rfl⟩ := quoted?_eq_some_iff.mp hfirst
          obtain ⟨hright, hquoted⟩ := quoted?_eq_some_iff.mp hsecond
          refine ⟨hleft, hright, rest.takeWhile isBlank, behind.takeWhile isBlank,
            fun c hc => List.mem_takeWhile_imp hc, fun c hc => List.mem_takeWhile_imp hc, ?_⟩
          rw [List.append_nil] at hquoted
          rw [← hquoted, List.takeWhile_append_dropWhile, ← hoperator,
            List.takeWhile_append_dropWhile]
        · exact absurd h (by simp)
      · exact absurd h (by simp)
  · rintro ⟨hleft, hright, before, after, hbefore, hafter, rfl⟩
    exact quotedSides?_inQuotes hbefore hafter hleft hright

/-- A side is cut into its entries. -/
theorem isList_iff {side : List Char} {entries : List (List Char)} :
    IsList side entries ↔ side.splitOn '|' = entries := by
  constructor
  · rintro ⟨hne, hentries, rfl⟩
    exact List.splitOn_intercalate '|' hentries hne
  · rintro rfl
    exact ⟨List.splitOn_ne_nil _ _, fun entry => not_mem_of_mem_splitOn,
      (List.intercalate_splitOn _).symm⟩

/-! ## The whole text -/

/-- Names and values in pairs, as many of the one as of the other, are both found again. -/
theorem map_zipWith_mk {names : List String} {values : List (List Char)}
    (h : names.length = values.length) :
    (List.zipWith Condition.mk names (values.map String.ofList)).map Condition.name = names ∧
      (List.zipWith Condition.mk names (values.map String.ofList)).map
        (fun c => c.value.toList) = values := by
  induction names generalizing values with
  | nil =>
    rw [List.length_eq_zero_iff.mp h.symm]
    exact ⟨rfl, rfl⟩
  | cons name names ih =>
    cases values with
    | nil => exact absurd h (by simp)
    | cons value values =>
      obtain ⟨hnames, hvalues⟩ := ih (Nat.succ.inj h)
      simp [hnames, hvalues]

variable {text : String} {left right : List Char}

/-- Without an equality nothing else counts. -/
theorem parseConditions_of_no_equality
    (h : ∀ left right, ¬ IsEquality (trim text.toList) left right) :
    parseConditions text = .error (.invalidText text) := by
  have hsides : quotedSides? (trim text.toList) = none := by
    cases hfound : quotedSides? (trim text.toList) with
    | none => rfl
    | some sides => exact absurd (quotedSides?_eq_some_iff.mp hfound) (h _ _)
  rw [parseConditions, hsides]

/-- A bad name counts before the lengths of the lists. -/
theorem parseConditions_of_bad_name (h : IsEquality (trim text.toList) left right)
    {fault : ConditionError} (hnames : (left.splitOn '|').mapM readName = .error fault) :
    parseConditions text = .error fault := by
  rw [parseConditions, quotedSides?_eq_some_iff.mpr h]
  simp only [hnames, bind, Except.bind]

/-- With all names read, the lengths decide. -/
theorem parseConditions_of_names (h : IsEquality (trim text.toList) left right)
    {names : List String} (hnames : (left.splitOn '|').mapM readName = .ok names) :
    parseConditions text =
      if names.length = (right.splitOn '|').length then
        .ok (List.zipWith Condition.mk names ((right.splitOn '|').map String.ofList))
      else .error (.countMismatch names.length (right.splitOn '|').length) := by
  rw [parseConditions, quotedSides?_eq_some_iff.mpr h]
  simp only [hnames, bind, Except.bind, List.length_map]
  rfl

/-- What is read is said by the text. -/
theorem says_parseConditions (text : String) : Says text (parseConditions text) := by
  by_cases hequality : ∃ left right, IsEquality (trim text.toList) left right
  · obtain ⟨left, right, hequality⟩ := hequality
    have hvalues : IsList right (right.splitOn '|') := isList_iff.mpr rfl
    cases hread : (left.splitOn '|').mapM readName with
    | error fault =>
      rw [parseConditions_of_bad_name hequality hread]
      obtain ⟨good, bad, others, hentries, hgood, hbad, rfl⟩ := mapM_readName_eq_error_iff.mp hread
      exact .badName hequality (isList_iff.mpr hentries) hgood hbad
    | ok names =>
      rw [parseConditions_of_names hequality hread]
      obtain ⟨hentries, hnames⟩ := mapM_readName_eq_ok_iff.mp hread
      by_cases hcount : names.length = (right.splitOn '|').length
      · rw [if_pos hcount]
        obtain ⟨hfirst, hsecond⟩ := map_zipWith_mk hcount
        refine .conditions hequality ?_ ?_ (hsecond.symm ▸ hvalues)
        · rw [← hfirst, List.map_map] at hentries
          exact isList_iff.mpr hentries
        · intro c hc
          exact hnames c.name (hfirst ▸ List.mem_map_of_mem hc)
      · rw [if_neg hcount]
        exact .otherCount hequality (isList_iff.mpr hentries) hnames hvalues hcount
  · have hnone : ∀ left right, ¬ IsEquality (trim text.toList) left right :=
      fun left right h => hequality ⟨left, right, h⟩
    rw [parseConditions_of_no_equality hnone]
    exact .noEquality hnone

/-- A text says one thing only, and that is read. -/
theorem ConditionText.Says.parseConditions_eq {outcome : Except ConditionError (List Condition)}
    (h : Says text outcome) : parseConditions text = outcome := by
  cases h with
  | @conditions left right conditions equality references names values =>
    have hnames : (left.splitOn '|').mapM readName = .ok (conditions.map Condition.name) := by
      rw [isList_iff.mp references, mapM_readName_eq_ok_iff, List.map_map]
      refine ⟨rfl, fun name hname => ?_⟩
      obtain ⟨c, hc, rfl⟩ := List.mem_map.mp hname
      exact names c hc
    rw [parseConditions_of_names equality hnames, isList_iff.mp values, List.length_map,
      List.length_map, if_pos rfl, List.map_map, List.zipWith_map]
    simp [List.zipWith_self]
  | noEquality none => exact parseConditions_of_no_equality none
  | badName equality entries names noReference =>
    refine parseConditions_of_bad_name equality (mapM_readName_eq_error_iff.mpr ?_)
    exact ⟨_, _, _, isList_iff.mp entries, names, noReference, rfl⟩
  | otherCount equality references areNames entries differ =>
    have hnames := mapM_readName_eq_ok_iff.mpr ⟨isList_iff.mp references, areNames⟩
    rw [parseConditions_of_names equality hnames, isList_iff.mp entries, if_neg differ]

/-- **Condition text is read by its grammar**, for every text and every outcome: it gives the
conditions that it says, and a text that says none fails with the error that belongs to it. -/
theorem parseConditions_eq_iff_says (text : String)
    (outcome : Except ConditionError (List Condition)) :
    parseConditions text = outcome ↔ Says text outcome := by
  constructor
  · rintro rfl
    exact says_parseConditions text
  · exact Says.parseConditions_eq

/-- A bad name counts before the lengths. -/
example : parseConditions "\n'$(A)|B|C'\t=='x' " = .error (.invalidName "B") := by decide +kernel

end BuildProject
