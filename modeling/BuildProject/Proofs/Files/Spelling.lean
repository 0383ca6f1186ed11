import Mathlib.Data.List.Induction
import Mathlib.Logic.Relation
import BuildProject.Proofs.Files.NormalForm

/-!
# Spellings of a file path

One path has many spellings: idle names and detours (`name/..`) may stand between its names or
behind them, a relative path may have the working directory in front, and `..` does nothing at the
root. `Respelling` is one such change of a text and `SamePath` any number of them, in both
directions.

Every text can be changed step by step into its normal form (`samePath_renderLocation`), and no
change leads to another normal form (`locationOf_eq_of_samePath`). So two texts have one normal form
exactly if they are spellings of one path (`normalizePath_eq_iff_samePath`).
-/

namespace BuildProject

/-! ## Changes of spelling -/

/-- What may stand between two slashes and lead nowhere: nothing at all, a dot, or a name and the
way back. -/
inductive IsDetour : List Char → Prop where
  | idle {name : List Char} (h : isIdleName name = true) : IsDetour name
  | back {name : List Char} (h : IsFileName name) : IsDetour (name ++ '/' :: upName)

/-- One change of the spelling of a path. -/
inductive Respelling (workingDirectory : List Char) : List Char → List Char → Prop where
  /-- A detour is taken between two names, or at the root. -/
  | between {detour : List Char} (h : IsDetour detour) (before after : List Char) :
    Respelling workingDirectory (before ++ '/' :: after)
      (before ++ '/' :: (detour ++ '/' :: after))
  /-- A detour is taken behind the last name. -/
  | behind {detour path : List Char} (h : IsDetour detour) (hne : path ≠ []) :
    Respelling workingDirectory path (path ++ '/' :: detour)
  /-- A relative path is written behind the working directory. -/
  | absolute {path : List Char} (hne : path ≠ []) (hrelative : path.head? ≠ some '/') :
    Respelling workingDirectory path (workingDirectory ++ '/' :: path)
  /-- A path leads up at the root. -/
  | atRoot (path : List Char) :
    Respelling workingDirectory ('/' :: path) ('/' :: (upName ++ '/' :: path))

/-- Two texts are spellings of one path. -/
abbrev SamePath (workingDirectory : List Char) : List Char → List Char → Prop :=
  Relation.EqvGen (Respelling workingDirectory)

/-! ## Following a text -/

/-- Follows the names of a text from a location. -/
def followPath (location : List (List Char)) (text : List Char) : List (List Char) :=
  (pathNames text).foldl followName location

theorem pathNames_of_not_mem {name : List Char} (h : '/' ∉ name) : pathNames name = [name] := by
  have hjoined : (['/'].intercalate [name]).splitOn '/' = [name] :=
    List.splitOn_intercalate '/' (by simpa using h) (by simp)
  rwa [List.intercalate_singleton] at hjoined

theorem followPath_append (location : List (List Char)) (before after : List Char) :
    followPath location (before ++ '/' :: after)
      = followPath (followPath location before) after := by
  rw [followPath, pathNames, List.splitOn_append_cons_self, List.foldl_append]
  rfl

theorem followPath_name (location : List (List Char)) {name : List Char} (h : '/' ∉ name) :
    followPath location name = followName location name := by
  rw [followPath, pathNames_of_not_mem h, List.foldl_cons, List.foldl_nil]

theorem followName_idle (location : List (List Char)) {name : List Char}
    (h : isIdleName name = true) : followName location name = location := by
  rw [followName, if_pos h]

/-- `..` cancels the last name. -/
theorem followName_up (location : List (List Char)) :
    followName location upName = location.dropLast := by
  rw [followName, if_neg (by decide), if_pos rfl]

theorem IsDetour.followPath {detour : List Char} (h : IsDetour detour)
    (location : List (List Char)) : followPath location detour = location := by
  cases h with
  | idle h =>
    have hslash : '/' ∉ detour := by
      have hcases : detour = [] ∨ detour = ['.'] := by simpa [isIdleName] using h
      rcases hcases with rfl | rfl <;> decide
    rw [followPath_name _ hslash, followName_idle _ h]
  | back h =>
    rw [followPath_append, followPath_name _ h.not_slash, followPath_name _ (by decide),
      followName_name h, followName_up, List.dropLast_concat]

theorem followPath_slash (location : List (List Char)) (path : List Char) :
    followPath location ('/' :: path) = followPath location path := by
  have hidle : IsDetour [] := .idle rfl
  exact (followPath_append location [] path).trans (by rw [hidle.followPath])

/-! ## No change leads elsewhere -/

section Sound

variable {workingDirectory path path' : List Char}

theorem startOf_of_absolute (h : path.head? = some '/') : startOf workingDirectory path = [] :=
  if_pos h

theorem startOf_congr (h : path.head? = path'.head?) :
    startOf workingDirectory path = startOf workingDirectory path' := by
  rw [startOf, startOf, h]

theorem Respelling.locationOf_eq (hdirectory : workingDirectory.head? = some '/')
    (h : Respelling workingDirectory path path') :
    locationOf workingDirectory path = locationOf workingDirectory path' := by
  show followPath (startOf workingDirectory path) path
    = followPath (startOf workingDirectory path') path'
  cases h with
  | @between detour h before after =>
    have hstart : startOf workingDirectory (before ++ '/' :: after)
        = startOf workingDirectory (before ++ '/' :: (detour ++ '/' :: after)) :=
      startOf_congr (by cases before <;> rfl)
    rw [hstart, followPath_append, followPath_append, followPath_append, h.followPath]
  | @behind detour _ h hne =>
    have hstart : startOf workingDirectory path
        = startOf workingDirectory (path ++ '/' :: detour) :=
      startOf_congr (List.head?_append_of_ne_nil _ hne).symm
    rw [← hstart, followPath_append, h.followPath]
  | absolute hne hrelative =>
    have habsolute : (workingDirectory ++ '/' :: path).head? = some '/' := by
      rw [List.head?_append, hdirectory]
      rfl
    rw [startOf, if_neg hrelative, startOf_of_absolute habsolute, followPath_append]
    rfl
  | atRoot path =>
    have hup : '/' ∉ upName := by decide
    rw [startOf_of_absolute rfl, startOf_of_absolute rfl, followPath_slash, followPath_slash,
      followPath_append, followPath_name _ hup, followName_up]
    rfl

theorem Respelling.ne_nil (h : Respelling workingDirectory path path') :
    path ≠ [] ∧ path' ≠ [] := by
  cases h with
  | between h before after => exact ⟨by simp, by simp⟩
  | behind h hne => exact ⟨hne, by simp⟩
  | absolute hne => exact ⟨hne, by simp⟩
  | atRoot path => exact ⟨by simp, by simp⟩

/-- Spellings of one path lead to one location. -/
theorem locationOf_eq_of_samePath (hdirectory : workingDirectory.head? = some '/')
    (h : SamePath workingDirectory path path') :
    locationOf workingDirectory path = locationOf workingDirectory path' := by
  induction h with
  | rel _ _ h => exact h.locationOf_eq hdirectory
  | refl _ => rfl
  | symm _ _ _ ih => exact ih.symm
  | trans _ _ _ _ _ ih ih' => exact ih.trans ih'

theorem eq_nil_iff_of_samePath (h : SamePath workingDirectory path path') :
    path = [] ↔ path' = [] := by
  induction h with
  | rel _ _ h => exact ⟨fun hnil => absurd hnil h.ne_nil.1, fun hnil => absurd hnil h.ne_nil.2⟩
  | refl _ => exact Iff.rfl
  | symm _ _ _ ih => exact ih.symm
  | trans _ _ _ _ _ ih ih' => exact ih.trans ih'

end Sound

/-! ## Every text reaches its normal form -/

/-- Names, each of them behind a slash. -/
def spell (names : List (List Char)) : List Char :=
  names.flatMap ('/' :: ·)

theorem spell_concat (names : List (List Char)) (name : List Char) :
    spell (names ++ [name]) = spell names ++ '/' :: name := by
  simp [spell]

/-- A path through names is spelt with a slash before each of them. -/
theorem renderLocation_eq_spell {location : List (List Char)} (h : location ≠ []) :
    renderLocation location = spell location := by
  obtain ⟨name, names, rfl⟩ := List.exists_cons_of_ne_nil h
  clear h
  induction names generalizing name with
  | nil => simp [renderLocation, spell]
  | cons next names ih =>
    have hrest := ih next
    rw [renderLocation] at hrest
    rw [renderLocation, List.intercalate_cons_cons, List.append_assoc, List.singleton_append, hrest]
    rfl

/-- An absolute path is spelt by the names behind its first slash. -/
theorem spell_pathNames (rest : List Char) : spell (pathNames rest) = '/' :: rest := by
  have hne : pathNames rest ≠ [] := List.splitOn_ne_nil '/' rest
  rw [← renderLocation_eq_spell hne, renderLocation, pathNames, List.intercalate_splitOn]

section Complete

variable {workingDirectory : List Char}

/-- One name, written behind a location, is followed. -/
theorem samePath_followName {location : List (List Char)} (h : IsLocation location)
    {name : List Char} (hname : '/' ∉ name) (after : List Char) :
    SamePath workingDirectory (spell location ++ '/' :: (name ++ '/' :: after))
      (spell (followName location name) ++ '/' :: after) := by
  by_cases hidle : isIdleName name = true
  · rw [followName_idle _ hidle]
    exact .symm _ _ (.rel _ _ (.between (.idle hidle) _ _))
  by_cases hup : name = upName
  · subst hup
    rw [followName_up]
    cases location using List.reverseRecOn with
    | nil => exact .symm _ _ (.rel _ _ (.atRoot after))
    | append_singleton location last =>
      -- `..` makes a detour of the last name
      have hback := @Respelling.between workingDirectory _ (.back (h last (by simp)))
        (spell location) after
      rw [List.dropLast_concat, spell_concat]
      rw [List.append_assoc, List.cons_append] at hback ⊢
      exact .symm _ _ (.rel _ _ hback)
  · have hnew : IsFileName name := ⟨by simpa using hidle, hup, hname⟩
    rw [followName_name hnew, spell_concat, List.append_assoc, List.cons_append]
    exact .refl _

/-- Names, written behind a location, are followed one after the other. -/
theorem samePath_foldl {names : List (List Char)} (hnames : ∀ name ∈ names, '/' ∉ name)
    {location : List (List Char)} (h : IsLocation location) :
    SamePath workingDirectory (spell location ++ (spell names ++ ['/']))
      (spell (names.foldl followName location) ++ ['/']) := by
  induction names generalizing location with
  | nil => exact .refl _
  | cons name names ih =>
    obtain ⟨after, hafter⟩ : ∃ after, spell names ++ ['/'] = '/' :: after := by
      cases names with
      | nil => exact ⟨[], rfl⟩
      | cons next names => exact ⟨_, rfl⟩
    have hname := hnames name (by simp)
    have hrest := ih (fun x hx => hnames x (by simp [hx])) (isLocation_followName h hname)
    have hfirst : spell (name :: names) ++ ['/'] = '/' :: (name ++ '/' :: after) := by
      rw [← hafter, spell, List.flatMap_cons, List.cons_append, List.cons_append, List.append_assoc]
      rfl
    rw [hfirst]
    rw [hafter] at hrest
    exact .trans _ _ _ (samePath_followName h hname after) hrest

/-- The path through a location may be written with a slash behind it. -/
theorem samePath_renderLocation_slash (location : List (List Char)) :
    SamePath workingDirectory (spell location ++ ['/']) (renderLocation location) := by
  by_cases hne : location = []
  · subst hne
    exact .refl _
  · have hspell : renderLocation location ≠ [] := by simp [renderLocation]
    rw [← renderLocation_eq_spell hne]
    exact .symm _ _ (.rel _ _ (.behind (.idle rfl) hspell))

theorem samePath_renderLocation_absolute {path : List Char} (h : path.head? = some '/') :
    SamePath workingDirectory path (renderLocation (locationOf workingDirectory path)) := by
  obtain ⟨rest, rfl⟩ := List.head?_eq_some_iff.mp h
  have hlocation : locationOf workingDirectory ('/' :: rest)
      = (pathNames rest).foldl followName [] := by
    show followPath (startOf workingDirectory ('/' :: rest)) ('/' :: rest) = _
    rw [startOf_of_absolute rfl, followPath_slash, followPath]
  have hslash : SamePath workingDirectory ('/' :: rest) ('/' :: rest ++ ['/']) :=
    .rel _ _ (.behind (.idle rfl) (by simp))
  have hfollow := @samePath_foldl workingDirectory (pathNames rest)
    (fun _ hname => not_slash_of_mem_pathNames hname) [] (by simp [IsLocation])
  rw [spell_pathNames] at hfollow
  rw [hlocation]
  exact .trans _ _ _ hslash (.trans _ _ _ hfollow (samePath_renderLocation_slash _))

/-- Every text is a spelling of its normal form. -/
theorem samePath_renderLocation (hdirectory : workingDirectory.head? = some '/') {path : List Char}
    (hne : path ≠ []) :
    SamePath workingDirectory path (renderLocation (locationOf workingDirectory path)) := by
  by_cases habsolute : path.head? = some '/'
  · exact samePath_renderLocation_absolute habsolute
  · have hchange : Respelling workingDirectory path (workingDirectory ++ '/' :: path) :=
      .absolute hne habsolute
    have hhead : (workingDirectory ++ '/' :: path).head? = some '/' := by
      rw [List.head?_append, hdirectory]
      rfl
    rw [hchange.locationOf_eq hdirectory]
    exact .trans _ _ _ (.rel _ _ hchange) (samePath_renderLocation_absolute hhead)

end Complete

/-! ## Normal forms -/

theorem normalizePath_empty (workingDirectory : String) :
    normalizePath workingDirectory "" = .error .emptyPath := by
  rw [normalizePath, if_pos (by decide)]

theorem normalizePath_of_ne_empty (workingDirectory : String) {path : String} (h : path ≠ "") :
    normalizePath workingDirectory path = .ok (String.ofList
      (renderLocation (locationOf workingDirectory.toList path.toList))) := by
  rw [normalizePath, if_neg (by rwa [String.isEmpty_iff])]

/-- Two texts have one normal form exactly if they are spellings of one path. -/
theorem normalizePath_eq_iff_samePath {workingDirectory : String}
    (hdirectory : workingDirectory.toList.head? = some '/') (path path' : String) :
    normalizePath workingDirectory path = normalizePath workingDirectory path' ↔
      SamePath workingDirectory.toList path.toList path'.toList := by
  constructor
  · intro h
    by_cases hempty : path = ""
    · by_cases hempty' : path' = ""
      · rw [hempty, hempty']
        exact .refl _
      · rw [normalizePath_of_ne_empty _ hempty', hempty, normalizePath_empty] at h
        contradiction
    · by_cases hempty' : path' = ""
      · rw [normalizePath_of_ne_empty _ hempty, hempty', normalizePath_empty] at h
        contradiction
      · rw [normalizePath_of_ne_empty _ hempty, normalizePath_of_ne_empty _ hempty',
          Except.ok.injEq] at h
        have hnormal := samePath_renderLocation hdirectory (mt String.toList_eq_nil_iff.mp hempty)
        have hnormal' := samePath_renderLocation hdirectory (mt String.toList_eq_nil_iff.mp hempty')
        rw [String.ofList_injective h] at hnormal
        exact .trans _ _ _ hnormal (.symm _ _ hnormal')
  · intro h
    have hempty : path = "" ↔ path' = "" := by
      rw [← String.toList_eq_nil_iff, ← String.toList_eq_nil_iff, eq_nil_iff_of_samePath h]
    by_cases hne : path = ""
    · rw [hne, hempty.mp hne]
    · rw [normalizePath_of_ne_empty _ hne, normalizePath_of_ne_empty _ (mt hempty.mpr hne),
        locationOf_eq_of_samePath hdirectory h]

end BuildProject
