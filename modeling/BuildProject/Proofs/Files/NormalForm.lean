import BuildProject.Files.Path
import BuildProject.Proofs.Text

/-!
# The normal form of file paths

`normalizePath` gives every spelling of a path one form: a slash before each of the names that lead
down from the root. The names in it stand for themselves, so a path in normal form is its own normal
form, whatever the working directory (`normalizePath_of_normal`).
-/

namespace BuildProject

/-! ## Names -/

/-- A name that stands for something in the directory where it is looked up. -/
structure IsFileName (name : List Char) : Prop where
  not_idle : isIdleName name = false
  ne_up : name ≠ upName
  not_slash : '/' ∉ name

/-- Names that lead down from the root. -/
def IsLocation (location : List (List Char)) : Prop :=
  ∀ name ∈ location, IsFileName name

/-- A path in normal form: the path through the names of a location. -/
def IsNormalPath (path : String) : Prop :=
  ∃ location, IsLocation location ∧ path.toList = renderLocation location

/-- A name is added at the end. -/
theorem followName_name {location : List (List Char)} {name : List Char} (h : IsFileName name) :
    followName location name = location ++ [name] := by
  rw [followName, h.not_idle, if_neg Bool.false_ne_true, if_neg h.ne_up]

/-- Following a name from a location leads to a location. -/
theorem isLocation_followName {location : List (List Char)} {name : List Char}
    (h : IsLocation location) (hname : '/' ∉ name) : IsLocation (followName location name) := by
  unfold followName
  split
  · exact h
  · next hidle =>
    split
    · exact fun x hx => h x (List.dropLast_subset location hx)
    · next hup =>
      intro x hx
      rcases List.mem_append.mp hx with hx | hx
      · exact h x hx
      · rw [List.mem_singleton.mp hx]
        exact ⟨by simpa using hidle, hup, hname⟩

theorem isLocation_foldl {names : List (List Char)} (hnames : ∀ name ∈ names, '/' ∉ name)
    {location : List (List Char)} (h : IsLocation location) :
    IsLocation (names.foldl followName location) := by
  induction names generalizing location with
  | nil => exact h
  | cons name names ih =>
    exact ih (fun x hx => hnames x (by simp [hx])) (isLocation_followName h (hnames name (by simp)))

/-- Names are added at the end, one after the other. -/
theorem foldl_followName {names : List (List Char)} (h : IsLocation names)
    (location : List (List Char)) : names.foldl followName location = location ++ names := by
  induction names generalizing location with
  | nil => simp
  | cons name names ih =>
    rw [List.foldl_cons, followName_name (h name (by simp)), ih (fun x hx => h x (by simp [hx]))]
    simp

/-- The names between the slashes of a path hold no slash. -/
theorem not_slash_of_mem_pathNames {path name : List Char} (h : name ∈ pathNames path) :
    '/' ∉ name :=
  Text.not_mem_of_mem_splitOn h

/-! ## Locations -/

theorem isLocation_startOf (workingDirectory path : List Char) :
    IsLocation (startOf workingDirectory path) := by
  unfold startOf
  split
  · simp [IsLocation]
  · exact isLocation_foldl (fun _ hname => not_slash_of_mem_pathNames hname) (by simp [IsLocation])

theorem isLocation_locationOf (workingDirectory path : List Char) :
    IsLocation (locationOf workingDirectory path) :=
  isLocation_foldl (fun _ hname => not_slash_of_mem_pathNames hname)
    (isLocation_startOf workingDirectory path)

/-- The path through the names of a location leads to that location. -/
theorem locationOf_renderLocation (workingDirectory : List Char) {location : List (List Char)}
    (h : IsLocation location) :
    locationOf workingDirectory (renderLocation location) = location := by
  have hstart : startOf workingDirectory (renderLocation location) = [] := by
    simp [startOf, renderLocation]
  have hnames : pathNames (renderLocation location)
      = [] :: pathNames (['/'].intercalate location) := by
    simp [pathNames, renderLocation, List.splitOn_cons_eq_if_modifyHead]
  rw [locationOf, hstart, hnames, List.foldl_cons]
  show (pathNames (['/'].intercalate location)).foldl followName [] = location
  by_cases hne : location = []
  · subst hne
    decide
  · rw [pathNames, List.splitOn_intercalate '/' (fun name hname => (h name hname).not_slash) hne,
      foldl_followName h, List.nil_append]

/-! ## Normal paths -/

theorem isNormalPath_of_normalizePath {workingDirectory path key : String}
    (h : normalizePath workingDirectory path = .ok key) : IsNormalPath key := by
  unfold normalizePath at h
  split at h
  · exact absurd h (by simp)
  · rw [Except.ok.injEq] at h
    refine ⟨_, isLocation_locationOf workingDirectory.toList path.toList, ?_⟩
    rw [← h, String.toList_ofList]

/-- **A path in normal form is its own normal form**, from every working directory. -/
theorem normalizePath_of_normal {path : String} (h : IsNormalPath path)
    (workingDirectory : String) : normalizePath workingDirectory path = .ok path := by
  obtain ⟨location, hlocation, hpath⟩ := h
  have hne : path.isEmpty = false := by
    rw [Bool.eq_false_iff, Ne, String.isEmpty_iff]
    intro hempty
    rw [hempty] at hpath
    exact absurd hpath (by simp [renderLocation])
  rw [normalizePath, hne, if_neg Bool.false_ne_true, hpath,
    locationOf_renderLocation _ hlocation, ← hpath, String.ofList_toList]

end BuildProject
