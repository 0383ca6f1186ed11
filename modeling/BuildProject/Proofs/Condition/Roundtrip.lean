import Mathlib.Data.List.TakeWhile
import BuildProject.Condition.Set
import BuildProject.Proofs.Action
import BuildProject.Proofs.Text

/-!
# Condition text that reads back

What is written for conditions reads back as the same conditions exactly if there are any and each
is writable (`parseConditions_serializeConditions_iff`). One half is the writer's: writable names
and values hold no quote and no bar, so the quotes and bars around them are found again. The other
half is the reader's: whatever it reads is writable (`writable_of_parseConditions`), so an
unwritable list cannot read back as itself.
-/

namespace BuildProject

open Text

/-! ## Names and values -/

theorem isIdentifierRest_of_start {c : Char} (h : isIdentifierStart c = true) :
    isIdentifierRest c = true := by
  rw [isIdentifierStart, Bool.or_eq_true] at h
  rw [isIdentifierRest, Bool.or_eq_true, Bool.or_eq_true]
  rcases h with h | h
  · exact .inl (.inl (by rw [Char.isAlphanum, h, Bool.true_or]))
  · exact .inl (.inr h)

/-- Every character of an identifier is one that identifiers may go on with. -/
theorem isIdentifierRest_of_mem {cs : List Char} (h : isIdentifier cs = true) :
    ∀ c ∈ cs, isIdentifierRest c = true := by
  cases cs with
  | nil => exact fun c hc => absurd hc List.not_mem_nil
  | cons d cs =>
    rw [isIdentifier, Bool.and_eq_true] at h
    intro c hc
    rcases List.mem_cons.mp hc with rfl | hc
    · exact isIdentifierRest_of_start h.1
    · exact List.all_eq_true.mp h.2 c hc

/-- A condition is writable if its name is an identifier and its value needs no delimiter. -/
theorem Condition.fault?_eq_none_iff {c : Condition} : c.fault? = none ↔
    isIdentifier c.name.toList = true ∧ ∀ d ∈ c.value.toList, isValueDelimiter d = false := by
  have hvalue : c.value.toList.any isValueDelimiter = false ↔
      ∀ d ∈ c.value.toList, isValueDelimiter d = false := by
    simp only [List.any_eq_false, Bool.not_eq_true]
  rw [← hvalue, Condition.fault?]
  cases isIdentifier c.name.toList with
  | false => simp
  | true => cases c.value.toList.any isValueDelimiter <;> simp

/-- A character that identifiers do not hold stands in a reference to one only around it. -/
theorem not_mem_reference {name : String} (h : isIdentifier name.toList = true) {c : Char}
    (hrest : isIdentifierRest c = false) (hc : c ∉ ['$', '(', ')']) : c ∉ reference name := by
  intro hmem
  simp only [reference, List.mem_append, List.mem_cons, List.not_mem_nil, or_false] at hmem hc
  rcases hmem with (rfl | rfl | hmem) | hmem
  · exact hc (.inl rfl)
  · exact hc (.inr (.inl rfl))
  · rw [isIdentifierRest_of_mem h c hmem] at hrest
    exact absurd hrest Bool.noConfusion
  · exact hc (.inr (.inr hmem))

/-- A reference that has been written is read back. -/
theorem readName_reference {name : String} (h : isIdentifier name.toList = true) :
    readName (reference name) = .ok name := by
  have hname : referencedName? (reference name) = some name.toList := by
    rw [reference, List.cons_append, List.cons_append, referencedName?, List.getLast?_concat,
      List.dropLast_concat, h]
    rfl
  rw [readName, hname]
  show Except.ok (String.ofList name.toList) = _
  rw [String.ofList_toList]

/-- **One name is read** from the reference to it and from nothing else. -/
theorem readName_eq_ok {entry : List Char} {name : String} :
    readName entry = .ok name ↔ entry = reference name ∧ isIdentifier name.toList = true := by
  constructor
  · intro h
    unfold readName at h
    split at h
    · next found hfound =>
      unfold referencedName? at hfound
      split at hfound
      · next cs =>
        split at hfound
        · next hclosed =>
          rw [Bool.and_eq_true, decide_eq_true_eq] at hclosed
          obtain ⟨hlast, hidentifier⟩ := hclosed
          obtain ⟨inside, hinside⟩ := List.getLast?_eq_some_iff.mp hlast
          rw [hinside, List.dropLast_concat] at hfound hidentifier
          rw [← Except.ok.inj h, ← Option.some.inj hfound, hinside, reference,
            String.toList_ofList]
          exact ⟨rfl, hidentifier⟩
        · exact absurd hfound (by simp)
      · exact absurd hfound (by simp)
    · exact absurd h (by simp)
  · rintro ⟨rfl, hname⟩
    exact readName_reference hname

/-! ## Quotes -/

theorem quote_not_mem_takeWhile (cs : List Char) : '\'' ∉ cs.takeWhile (· != '\'') := by
  intro hmem
  simpa using List.mem_takeWhile_imp hmem

/-- A quoted run without quotes in it is cut off as it is. -/
theorem quoted?_inQuotes {cs : List Char} (h : '\'' ∉ cs) (rest : List Char) :
    quoted? (inQuotes cs ++ rest) = some (cs, rest) := by
  have hinside : ∀ c ∈ cs, (c != '\'') = true := by
    rintro c hc
    exact bne_iff_ne.mpr fun heq => h (heq ▸ hc)
  have hshape : inQuotes cs ++ rest = '\'' :: (cs ++ '\'' :: rest) := by simp [inQuotes]
  rw [hshape, quoted?, List.dropWhile_append_of_pos hinside, List.takeWhile_append_of_pos hinside]
  simp

/-- **A quoted run** is cut off where it ends. -/
theorem quoted?_eq_some_iff {cs run rest : List Char} :
    quoted? cs = some (run, rest) ↔ '\'' ∉ run ∧ cs = inQuotes run ++ rest := by
  constructor
  · intro h
    unfold quoted? at h
    split at h
    · next cs =>
      split at h
      · exact absurd h (by simp)
      · next closing behind hbehind =>
        obtain ⟨rfl, rfl⟩ := Prod.mk.inj (Option.some.inj h)
        have hclosing : closing = '\'' := by
          have hhead := List.head?_dropWhile_not (· != '\'') cs
          simpa [hbehind] using hhead
        have hwhole := List.takeWhile_append_dropWhile (p := (· != '\'')) (l := cs)
        rw [hbehind, hclosing] at hwhole
        refine ⟨quote_not_mem_takeWhile cs, ?_⟩
        rw [inQuotes, List.append_assoc, List.cons_append, List.singleton_append, hwhole]
    · exact absurd h (by simp)
  · rintro ⟨hrun, rfl⟩
    exact quoted?_inQuotes hrun rest

/-- Two quoted runs with an operator between them, and blanks around it, are found again. -/
theorem quotedSides?_inQuotes {before after left right : List Char}
    (hbefore : ∀ c ∈ before, isBlank c = true) (hafter : ∀ c ∈ after, isBlank c = true)
    (hleft : '\'' ∉ left) (hright : '\'' ∉ right) :
    quotedSides? (inQuotes left ++ (before ++ '=' :: '=' :: (after ++ inQuotes right))) =
      some (left, right) := by
  have hoperator (rest : List Char) : (before ++ '=' :: rest).dropWhile isBlank = '=' :: rest := by
    rw [List.dropWhile_append_of_pos hbefore, List.dropWhile_cons_of_neg (by decide)]
  have hquote : (after ++ inQuotes right).dropWhile isBlank = inQuotes right := by
    rw [List.dropWhile_append_of_pos hafter, inQuotes, List.cons_append,
      List.dropWhile_cons_of_neg (by decide)]
  have hlast : quoted? (inQuotes right) = some (right, []) :=
    quoted?_eq_some_iff.mpr ⟨hright, (List.append_nil _).symm⟩
  rw [quotedSides?, quoted?_inQuotes hleft]
  simp only [hoperator, hquote, hlast]

theorem quote_not_mem_of_quotedSides? {cs left right : List Char}
    (h : quotedSides? cs = some (left, right)) : '\'' ∉ left ∧ '\'' ∉ right := by
  unfold quotedSides? at h
  split at h
  · exact absurd h (by simp)
  · next hfirst =>
    split at h
    · split at h
      · next hsecond =>
        rw [Option.some.injEq, Prod.mk.injEq] at h
        obtain ⟨rfl, rfl⟩ := h
        exact ⟨(quoted?_eq_some_iff.mp hfirst).1, (quoted?_eq_some_iff.mp hsecond).1⟩
      · exact absurd h (by simp)
    · exact absurd h (by simp)

/-! ## What is read is writable -/

theorem identifiers_of_mapM_readName {entries : List (List Char)} {names : List String}
    (h : entries.mapM readName = .ok names) :
    names.length = entries.length ∧ ∀ name ∈ names, isIdentifier name.toList = true := by
  induction entries generalizing names with
  | nil =>
    rw [← Except.ok.inj h]
    exact ⟨rfl, fun name hname => absurd hname List.not_mem_nil⟩
  | cons entry entries ih =>
    rw [List.mapM_cons] at h
    obtain ⟨name, hfirst, hrest⟩ := bind_eq_ok.mp h
    obtain ⟨others, hothers, hnames⟩ := bind_eq_ok.mp hrest
    obtain ⟨hlength, hall⟩ := ih hothers
    rw [← pure_eq_ok.mp hnames]
    refine ⟨congrArg (· + 1) hlength, fun n hn => ?_⟩
    rcases List.mem_cons.mp hn with rfl | hn
    · exact (readName_eq_ok.mp hfirst).2
    · exact hall n hn

/-- A text is read as conditions if it is an equality of two quoted lists of one length, the left
one of references. -/
theorem parseConditions_eq_ok {text : String} {conditions : List Condition} :
    parseConditions text = .ok conditions ↔
      ∃ left right names, quotedSides? (trim text.toList) = some (left, right) ∧
        (left.splitOn '|').mapM readName = .ok names ∧
        names.length = (right.splitOn '|').length ∧
        conditions = List.zipWith Condition.mk names ((right.splitOn '|').map String.ofList) := by
  unfold parseConditions
  cases hsides : quotedSides? (trim text.toList) with
  | none => simp
  | some sides =>
    obtain ⟨left, right⟩ := sides
    cases hnames : (left.splitOn '|').mapM readName with
    | error fault => simp [hnames, bind, Except.bind]
    | ok names =>
      by_cases hlength : names.length = (right.splitOn '|').length
      · simp [hnames, hlength, bind, Except.bind, pure, Except.pure, eq_comm]
      · simp [hnames, hlength, bind, Except.bind, throw, throwThe, MonadExceptOf.throw]

/-- **Whatever is read is writable**, and there is something. -/
theorem writable_of_parseConditions {text : String} {conditions : List Condition}
    (h : parseConditions text = .ok conditions) :
    conditions ≠ [] ∧ ∀ c ∈ conditions, c.fault? = none := by
  obtain ⟨left, right, names, hsides, hnames, hlength, rfl⟩ := parseConditions_eq_ok.mp h
  obtain ⟨hcount, hidentifiers⟩ := identifiers_of_mapM_readName hnames
  constructor
  · have hpieces : 0 < (left.splitOn '|').length :=
      List.length_pos_of_ne_nil (List.splitOn_ne_nil _ _)
    refine List.ne_nil_of_length_pos ?_
    rw [List.length_zipWith, List.length_map, ← hlength, Nat.min_self, hcount]
    exact hpieces
  · intro c hc
    obtain ⟨position, hposition, rfl⟩ := List.mem_iff_getElem.mp hc
    rw [List.getElem_zipWith, List.getElem_map, Condition.fault?_eq_none_iff]
    refine ⟨hidentifiers _ (List.getElem_mem _), fun d hd => ?_⟩
    rw [String.toList_ofList] at hd
    have hbar : d ≠ '|' := fun heq =>
      not_mem_of_mem_splitOn (List.getElem_mem _) (heq ▸ hd)
    have hquote : d ≠ '\'' := fun heq =>
      (quote_not_mem_of_quotedSides? hsides).2 (heq ▸ mem_of_mem_splitOn (List.getElem_mem _) hd)
    rw [isValueDelimiter, beq_false_of_ne hquote, beq_false_of_ne hbar]
    rfl

/-! ## What is writable is read -/

variable {conditions : List Condition}

theorem quote_not_mem_joinNames (h : ∀ c ∈ conditions, c.fault? = none) :
    '\'' ∉ joinNames conditions := by
  intro hmem
  rcases mem_of_mem_intercalate hmem with hbar | ⟨entry, hentry, hquote⟩
  · exact absurd hbar (by decide)
  · obtain ⟨c, hc, rfl⟩ := List.mem_map.mp hentry
    have hname := (Condition.fault?_eq_none_iff.mp (h c hc)).1
    exact not_mem_reference hname (by decide) (by decide) hquote

theorem quote_not_mem_joinValues (h : ∀ c ∈ conditions, c.fault? = none) :
    '\'' ∉ joinValues conditions := by
  intro hmem
  rcases mem_of_mem_intercalate hmem with hbar | ⟨value, hvalue, hquote⟩
  · exact absurd hbar (by decide)
  · obtain ⟨c, hc, rfl⟩ := List.mem_map.mp hvalue
    exact absurd ((Condition.fault?_eq_none_iff.mp (h c hc)).2 '\'' hquote) (by decide)

/-- The names are cut apart as they were joined. -/
theorem splitOn_joinNames (hne : conditions ≠ []) (h : ∀ c ∈ conditions, c.fault? = none) :
    (joinNames conditions).splitOn '|' = conditions.map fun c => reference c.name := by
  refine List.splitOn_intercalate '|' (fun entry hentry => ?_) (by simpa using hne)
  obtain ⟨c, hc, rfl⟩ := List.mem_map.mp hentry
  exact not_mem_reference (Condition.fault?_eq_none_iff.mp (h c hc)).1 (by decide) (by decide)

/-- The values are cut apart as they were joined. -/
theorem splitOn_joinValues (hne : conditions ≠ []) (h : ∀ c ∈ conditions, c.fault? = none) :
    (joinValues conditions).splitOn '|' = conditions.map fun c => c.value.toList := by
  refine List.splitOn_intercalate '|' (fun value hvalue hbar => ?_) (by simpa using hne)
  obtain ⟨c, hc, rfl⟩ := List.mem_map.mp hvalue
  exact absurd ((Condition.fault?_eq_none_iff.mp (h c hc)).2 '|' hbar) (by decide)

theorem mapM_readName_references (h : ∀ c ∈ conditions, c.fault? = none) :
    (conditions.map fun c => reference c.name).mapM readName =
      .ok (conditions.map Condition.name) := by
  induction conditions with
  | nil => rfl
  | cons c conditions ih =>
    have hname := (Condition.fault?_eq_none_iff.mp (h c List.mem_cons_self)).1
    rw [List.map_cons, List.mapM_cons, readName_reference hname,
      ih fun other hother => h other (List.mem_cons_of_mem _ hother)]
    rfl

/-- Only the blanks at the ends are trimmed off condition text. -/
theorem trim_serializeConditions (conditions : List Condition) :
    trim (serializeConditions conditions).toList =
      inQuotes (joinNames conditions) ++
        ([' ', '=', '=', ' '] ++ inQuotes (joinValues conditions)) := by
  have hquote : isBlank '\'' = false := by decide
  have hblank : isBlank ' ' = true := by decide
  rw [serializeConditions, String.toList_ofList]
  simp [inQuotes, trim, trimStart, trimEnd, hquote, hblank]

/-- Writable conditions are read back. -/
theorem parseConditions_serializeConditions (hne : conditions ≠ [])
    (h : ∀ c ∈ conditions, c.fault? = none) :
    parseConditions (serializeConditions conditions) = .ok conditions := by
  refine parseConditions_eq_ok.mpr ⟨joinNames conditions, joinValues conditions,
    conditions.map Condition.name, ?_, ?_, ?_, ?_⟩
  · rw [trim_serializeConditions]
    have hblank : ∀ c ∈ [' '], isBlank c = true := by
      intro c hc
      rw [List.mem_singleton.mp hc]
      decide
    exact quotedSides?_inQuotes hblank hblank (quote_not_mem_joinNames h)
      (quote_not_mem_joinValues h)
  · rw [splitOn_joinNames hne h, mapM_readName_references h]
  · rw [splitOn_joinValues hne h, List.length_map, List.length_map]
  · rw [splitOn_joinValues hne h, List.map_map, List.zipWith_map]
    simp [List.zipWith_self]

namespace ConditionSet

/-! ## Sets -/

/-- The text of a set is read as the set. -/
theorem parse_text (s : ConditionSet) : parse s.text = .ok s := by
  rw [parse, text, parseConditions_serializeConditions s.ne_nil s.writable]
  exact ofList_eq_ok_iff.mpr rfl

/-- Sets name the same variables in the same order if the names make the same text. -/
theorem names_eq_iff {s t : ConditionSet} :
    s.names = t.names ↔ s.conditions.map Condition.name = t.conditions.map Condition.name := by
  constructor
  · intro h
    have hjoined : joinNames s.conditions = joinNames t.conditions := String.ofList_inj.mp h
    have hreferences := splitOn_joinNames s.ne_nil s.writable
    rw [hjoined, splitOn_joinNames t.ne_nil t.writable] at hreferences
    have hnames := mapM_readName_references s.writable
    rw [← hreferences, mapM_readName_references t.writable] at hnames
    exact (Except.ok.inj hnames).symm
  · intro h
    have hreferences (u : ConditionSet) : (u.conditions.map fun c => reference c.name) =
        (u.conditions.map Condition.name).map reference := by
      rw [List.map_map]
      rfl
    rw [names, names, joinNames, joinNames, hreferences, hreferences, h]

end ConditionSet

/-! ## The round trip -/

/-- **Condition text reads back exactly if the conditions are writable** and there are any. So every
set reads back from its text, and sets are equal exactly if their texts are. -/
theorem parseConditions_serializeConditions_iff :
    (∀ conditions : List Condition,
      parseConditions (serializeConditions conditions) = .ok conditions ↔
        conditions ≠ [] ∧ ∀ c ∈ conditions, c.fault? = none) ∧
    (∀ s : ConditionSet, ConditionSet.parse s.text = .ok s) ∧
    ∀ s t : ConditionSet, s = t ↔ s.text = t.text := by
  refine ⟨fun conditions => ⟨writable_of_parseConditions, fun ⟨hne, h⟩ => ?_⟩,
    ConditionSet.parse_text, fun s t => ⟨congrArg ConditionSet.text, fun htext => ?_⟩⟩
  · exact parseConditions_serializeConditions hne h
  · have hparse := s.parse_text
    rw [htext, t.parse_text] at hparse
    exact (Except.ok.inj hparse).symm

/-- A name that looks like the end of a reference is read as two. -/
example : parseConditions (serializeConditions [⟨"A)|$(B", "1|2"⟩]) =
    .ok [⟨"A", "1"⟩, ⟨"B", "2"⟩] := by decide +kernel

end BuildProject
