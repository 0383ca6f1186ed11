import BuildProject.Proofs.Include.Follow

/-!
# Resolving includes

An include without root and drive continues the directory it is read in. Two such includes, one
read behind the other, lead where both lead as one text, and from a rooted directory they lead to a
path whose text is its own resolved form everywhere (`resolveInclude_resolveInclude`).

An include with a drive but no root continues a directory on that drive only if the directory has
no root either (`resolveInclude_onDrive`).
-/

namespace BuildProject.IncludePath

/-! ## One include behind another -/

/-- A path written from a root: its drive, if it has one, the root, and names that stand for
themselves. -/
def IsRootedText (drive? : Option Char) (text : List Char) : Prop :=
  ∃ names, (∀ s ∈ names, IsName s) ∧
    text = drive?.elim [] (fun letter => [letter, ':']) ++ '\\' :: joinSegments names

theorem Clean.isRootedText {p : IncludePath} (h : p.Clean) (hrooted : p.rooted = true) :
    IsRootedText p.drive? p.toChars := by
  refine ⟨p.segments, (hrooted ▸ h.segments).isName, ?_⟩
  rw [toChars, hrooted, if_pos rfl, List.append_assoc, List.singleton_append]

/-- Written paths have backslashes only. -/
theorem Clean.slash_not_mem {p : IncludePath} (h : p.Clean) : '/' ∉ p.toChars := by
  intro hmem
  rcases List.mem_append.mp hmem with hfront | hnames
  · rcases List.mem_append.mp hfront with hdrive | hroot
    · cases hletter : p.drive? with
      | none => simp [hletter] at hdrive
      | some letter =>
        have halpha := h.isAlpha letter hletter
        have hslash : letter = '/' := by simpa [hletter, eq_comm] using hdrive
        rw [hslash] at halpha
        exact absurd halpha (by decide)
    · split at hroot <;> simp at hroot
  · rcases Text.mem_of_mem_intercalate hnames with hbackslash | ⟨s, hs, hslash⟩
    · simp at hbackslash
    · exact absurd (h.segments.not_separator s hs '/' hslash) (by decide)

/-- The text of a rooted path leads to it from everywhere. -/
theorem resolve_toChars_of_rooted {p : IncludePath} (h : p.Clean) (hrooted : p.rooted = true)
    (base : List Char) : resolve base p.toChars = p := by
  have hread : ofChars p.toChars = p := ofChars_toChars h (.inl hrooted)
  unfold resolve
  dsimp only
  rw [hread, if_pos hrooted]

/-- What stands behind the first name does not give a text a drive or a root. -/
theorem IsRelative.append {first : List Char} (h : IsRelative first) (hne : first ≠ [])
    (rest : List Char) : IsRelative (first ++ '\\' :: rest) := by
  obtain ⟨c, cs, rfl⟩ := List.exists_cons_of_ne_nil hne
  refine ⟨?_, h.not_rooted⟩
  have hjoin : joinSegments [c :: cs, rest] = (c :: cs) ++ '\\' :: rest := by
    rw [joinSegments, List.intercalate_cons_cons, List.intercalate_singleton, List.append_assoc,
      List.singleton_append]
  rw [← hjoin, startsLikeDrive_joinSegments, h.not_like]

/-- What an include names from a rooted directory. -/
theorem isRootedText_resolveInclude {base target : String}
    (hbase : (ofChars base.toList).rooted = true) (htarget : IsRelative target.toList) :
    IsRootedText (ofChars base.toList).drive? (resolveInclude base target).toList ∧
      '/' ∉ (resolveInclude base target).toList ∧
      ∀ other, resolveInclude other (resolveInclude base target) = resolveInclude base target := by
  have hclean := clean_resolve base.toList target.toList
  have hpush := htarget.resolve base.toList
  have hrooted : (resolve base.toList target.toList).rooted = true := by
    rw [hpush, push_rooted, hbase]
  have hdrive : (resolve base.toList target.toList).drive? = (ofChars base.toList).drive? := by
    rw [hpush, push_drive?]
  rw [toList_resolveInclude]
  refine ⟨hdrive ▸ hclean.isRootedText hrooted, hclean.slash_not_mem, fun other => ?_⟩
  rw [resolveInclude, toList_resolveInclude, resolve_toChars_of_rooted hclean hrooted,
    resolveInclude]

/-- **An include read behind another one leads where both lead as one text.** What comes out of a
rooted directory keeps its drive, is written with names only, and is the same read from anywhere. -/
theorem resolveInclude_resolveInclude (base first second : String)
    (hbase : (ofChars base.toList).rooted = true) (hne : first ≠ "")
    (hfirst : IsRelative first.toList) (hsecond : IsRelative second.toList) :
    resolveInclude (resolveInclude base first) second
        = resolveInclude base (first ++ "\\" ++ second) ∧
      ∀ r ∈ [resolveInclude base first, resolveInclude base (first ++ "\\" ++ second)],
        IsRootedText (ofChars base.toList).drive? r.toList ∧ '/' ∉ r.toList ∧
          ∀ other, resolveInclude other r = r := by
  have hjoined : (first ++ "\\" ++ second).toList = first.toList ++ '\\' :: second.toList := by
    simp
  have hfirstList : first.toList ≠ [] := fun hnil => hne (String.toList_eq_nil_iff.mp hnil)
  have hboth : IsRelative (first ++ "\\" ++ second).toList := by
    rw [hjoined]
    exact hfirst.append hfirstList _
  refine ⟨?_, fun r hr => ?_⟩
  · have hrooted : (resolve base.toList first.toList).rooted = true := by
      rw [hfirst.resolve, push_rooted, hbase]
    rw [resolveInclude, toList_resolveInclude, hsecond.resolve,
      ofChars_toChars (clean_resolve _ _) (.inl hrooted), hfirst.resolve, resolveInclude,
      hboth.resolve, hjoined, push_append _ _ _ (by decide)]
  · rcases List.mem_pair.mp hr with rfl | rfl
    · exact isRootedText_resolveInclude hbase hfirst
    · exact isRootedText_resolveInclude hbase hboth

/-- The first include climbs above the root of the drive. -/
theorem resolveInclude_resolveInclude_clamped :
    resolveInclude (resolveInclude "C:/Proj" "..\\../Shared") "./Foo.cs"
        = resolveInclude "C:/Proj" ("..\\../Shared" ++ "\\" ++ "./Foo.cs") ∧
      resolveInclude "C:/Proj" ("..\\../Shared" ++ "\\" ++ "./Foo.cs") = "C:\\Shared\\Foo.cs" ∧
      resolveInclude "D:\\Elsewhere" "C:\\Shared\\Foo.cs" = "C:\\Shared\\Foo.cs" := by
  have hclean : resolveInclude "C:/Proj" ("..\\../Shared" ++ "\\" ++ "./Foo.cs")
      = "C:\\Shared\\Foo.cs" := by decide
  obtain ⟨hsame, hresults⟩ := resolveInclude_resolveInclude "C:/Proj" "..\\../Shared" "./Foo.cs"
    (by decide) (by decide) ⟨by decide, by decide⟩ ⟨by decide, by decide⟩
  obtain ⟨-, -, heverywhere⟩ := hresults _ (List.mem_pair.mpr (.inr rfl))
  exact ⟨hsame, hclean, hclean ▸ heverywhere "D:\\Elsewhere"⟩

/-! ## Includes on a drive -/

/-- The text of a path below a directory. Behind a drive alone a separator would be a root, so none
is written. -/
def joinTexts (directory rest : List Char) : List Char :=
  if (splitDrive directory).2 = [] then directory ++ rest else directory ++ '\\' :: rest

/-- The normal form of a path as text. -/
def cleanForm (text : List Char) : String :=
  String.ofList (ofChars text).toChars

theorem exists_of_startsLikeDrive {cs : List Char} (h : startsLikeDrive cs = true) :
    ∃ letter rest, letter.isAlpha = true ∧ cs = letter :: ':' :: rest := by
  unfold startsLikeDrive splitDrive at h
  split at h
  · next letter rest =>
    split at h
    · next halpha => exact ⟨letter, rest, halpha, rfl⟩
    · contradiction
  · contradiction

theorem ofChars_of_drive {letter : Char} (h : letter.isAlpha = true) (rest : List Char) :
    ofChars (letter :: ':' :: rest) = push ⟨some letter, rest.head?.any isSeparator, []⟩ rest := by
  rw [ofChars, splitDrive_drive h]

/-- A text that is read below a directory on a drive continues the directory. -/
theorem ofChars_joinTexts {directory rest : List Char} (hdrive : startsLikeDrive directory = true)
    (hrest : rest.head?.any isSeparator = false) :
    ofChars (joinTexts directory rest) = (ofChars directory).push rest := by
  obtain ⟨letter, body, halpha, rfl⟩ := exists_of_startsLikeDrive hdrive
  rw [joinTexts, splitDrive_drive halpha, ofChars_of_drive halpha]
  cases body with
  | nil =>
    rw [if_pos rfl, List.cons_append, List.cons_append, List.nil_append, ofChars_of_drive halpha,
      hrest, push_nil]
    rfl
  | cons c body =>
    rw [if_neg (List.cons_ne_nil c body), List.cons_append, List.cons_append,
      ofChars_of_drive halpha, push_append _ _ _ (by decide)]
    rfl

/-- Where a text with a drive but no root leads from a directory. -/
theorem resolve_onDrive (base : List Char) {letter : Char} {rest : List Char}
    (hletter : letter.isAlpha = true) (hrest : rest.head?.any isSeparator = false) :
    resolve base (letter :: ':' :: rest) =
      if (ofChars base).rooted = false ∧
          (ofChars base).drive?.map Char.toLower = some letter.toLower then
        (ofChars base).push rest
      else ofChars (letter :: ':' :: rest) := by
  have hrooted : (ofChars (letter :: ':' :: rest)).rooted = false := by
    rw [ofChars_of_drive hletter, push_rooted, hrest]
  have hdrive : (ofChars (letter :: ':' :: rest)).drive? = some letter := by
    rw [ofChars_of_drive hletter, push_drive?]
  have hroot : sameRoot (ofChars base) (ofChars (letter :: ':' :: rest)) = true ↔
      (ofChars base).rooted = false ∧
        (ofChars base).drive?.map Char.toLower = some letter.toLower := by
    rw [sameRoot_iff, hrooted, hdrive, Option.map_some]
  unfold resolve
  dsimp only
  rw [hrooted, if_neg Bool.false_ne_true, hdrive, splitDrive_drive hletter]
  by_cases hsame : sameRoot (ofChars base) (ofChars (letter :: ':' :: rest)) = true
  · rw [if_neg (by simp [hsame]), if_pos (hroot.mp hsame)]
  · rw [if_pos (by simp [hsame]), if_neg (mt hroot.mpr hsame)]

/-- An include with a drive but no root is not written like a path below a rooted directory. -/
theorem cleanForm_ne_cleanForm_joinTexts {directory rest : List Char} {letter : Char}
    (hletter : letter.isAlpha = true) (hrest : rest.head?.any isSeparator = false)
    (hdrive : startsLikeDrive directory = true) (hrooted : (ofChars directory).rooted = true) :
    cleanForm (letter :: ':' :: rest) ≠ cleanForm (joinTexts directory rest) := by
  intro hsame
  have hjoin := ofChars_joinTexts hdrive hrest
  -- both texts show what they are, so the paths would be the same
  have hequal := eq_of_toChars_eq (clean_ofChars _) (clean_ofChars _)
    (.inr (.inl (by rw [ofChars_of_drive hletter]; rfl)))
    (.inl (by rw [hjoin, push_rooted, hrooted])) (String.ofList_injective hsame)
  have hroots : false = true := by
    calc false = (ofChars (letter :: ':' :: rest)).rooted := by
          rw [ofChars_of_drive hletter, push_rooted, hrest]
      _ = (ofChars (joinTexts directory rest)).rooted := by rw [hequal]
      _ = true := by rw [hjoin, push_rooted, hrooted]
  contradiction

/-- **Where an include with a drive but no root leads.** From a directory on its drive it leads
below the directory exactly if the directory has no root; from one with a root, on another drive or
on none it stays as it is. -/
theorem resolveInclude_onDrive (base target rest : String) (letter : Char)
    (hletter : letter.isAlpha = true) (hrest : rest.toList.head?.any isSeparator = false)
    (htarget : target.toList = letter :: ':' :: rest.toList) :
    ((ofChars base.toList).drive?.map Char.toLower = some letter.toLower →
      (resolveInclude base target = cleanForm (joinTexts base.toList rest.toList) ↔
        (ofChars base.toList).rooted = false)) ∧
    ((ofChars base.toList).drive?.map Char.toLower ≠ some letter.toLower ∨
        (ofChars base.toList).rooted = true →
      resolveInclude base target = cleanForm target.toList) := by
  have hresolve := resolve_onDrive base.toList hletter hrest
  have hstays : (ofChars base.toList).drive?.map Char.toLower ≠ some letter.toLower ∨
      (ofChars base.toList).rooted = true →
      resolveInclude base target = cleanForm target.toList := by
    intro hcase
    rw [resolveInclude, htarget, hresolve, if_neg, cleanForm]
    rintro ⟨hrooted, hsame⟩
    exact hcase.elim (absurd hsame) fun hroot => absurd (hrooted.symm.trans hroot) (by decide)
  refine ⟨fun hsame => ?_, hstays⟩
  have hdrive : startsLikeDrive base.toList = true := by
    rw [startsLikeDrive, ← ofChars_drive?, ← Option.isSome_map (f := Char.toLower), hsame]
    rfl
  cases hrooted : (ofChars base.toList).rooted with
  | false =>
    refine ⟨fun _ => rfl, fun _ => ?_⟩
    rw [resolveInclude, htarget, hresolve, if_pos ⟨hrooted, hsame⟩, cleanForm,
      ofChars_joinTexts hdrive hrest]
  | true =>
    refine ⟨fun hbelow => absurd hbelow ?_, fun hfalse => absurd hfalse (by decide)⟩
    rw [hstays (.inr hrooted), htarget]
    exact cleanForm_ne_cleanForm_joinTexts hletter hrest hdrive hrooted

/-- A directory on a drive without a root, and one with a root. -/
theorem resolveInclude_onDrive_rooted :
    resolveInclude "C:Proj" "c:..\\Foo.cs"
        = cleanForm (joinTexts "C:Proj".toList "..\\Foo.cs".toList) ∧
      cleanForm (joinTexts "C:Proj".toList "..\\Foo.cs".toList) = "C:Foo.cs" ∧
      resolveInclude "C:\\Proj" "C:Foo.cs"
        ≠ cleanForm (joinTexts "C:\\Proj".toList "Foo.cs".toList) ∧
      cleanForm (joinTexts "C:\\Proj".toList "Foo.cs".toList) = "C:\\Proj\\Foo.cs" ∧
      resolveInclude "C:\\Proj" "C:Foo.cs" = "C:Foo.cs" := by
  have hbelow := resolveInclude_onDrive "C:Proj" "c:..\\Foo.cs" "..\\Foo.cs" 'c' (by decide)
    (by decide) (by decide)
  have hstays := resolveInclude_onDrive "C:\\Proj" "C:Foo.cs" "Foo.cs" 'C' (by decide) (by decide)
    (by decide)
  exact ⟨(hbelow.1 (by decide)).mpr (by decide), by decide,
    mt (hstays.1 (by decide)).mp (by decide), by decide, hstays.2 (.inr (by decide))⟩

end BuildProject.IncludePath
