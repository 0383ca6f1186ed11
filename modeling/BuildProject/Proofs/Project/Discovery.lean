import BuildProject.Project
import BuildProject.Proofs.Text

/-!
# What discovery goes by

Discovery cuts what it reads in a document: a reference to what stands before its first comma, a
path to what stands behind its last separator. What it compares with, the text of the conventions,
it does not cut. So a text that is written as a reference is recognized exactly if it is a bare name
(`isReferenceTo_self_iff`), and one that is written behind a directory exactly if it is the name of
a file alone (`Conventions.isBuildToolsImport_behind_iff`).
-/

namespace BuildProject

open Text

/-! ## References -/

/-- The name of an assembly alone: no version or key behind a comma, no blanks around it. -/
def IsAssemblyName (text : String) : Prop :=
  ',' ∉ text.toList ∧ trim text.toList = text.toList

instance : DecidablePred IsAssemblyName :=
  fun _ => inferInstanceAs (Decidable (_ ∧ _))

/-- **A text refers to itself** only if it is a bare name: a reference loses its version and the
blanks around it before it is compared with the same text as it stands. -/
theorem isReferenceTo_self_iff {text : String} :
    isReferenceTo text text = true ↔ IsAssemblyName text := by
  have hname : (trim (text.toList.takeWhile (· != ','))).Sublist
      (text.toList.takeWhile (· != ',')) := trim_sublist _
  have hbefore : (text.toList.takeWhile (· != ',')).Sublist text.toList := List.takeWhile_sublist _
  rw [isReferenceTo, sameIgnoringCase_of_sublist (hname.trans hbefore)]
  constructor
  · intro hself
    -- nothing is lost on the way, so neither step loses anything
    rw [hself] at hname
    have hall := hbefore.eq_of_length_le hname.length_le
    rw [hall] at hself
    refine ⟨fun hcomma => ?_, hself⟩
    exact absurd (List.takeWhile_eq_self_iff.mp hall ',' hcomma) (by decide)
  · rintro ⟨hcomma, htrim⟩
    have hall : text.toList.takeWhile (· != ',') = text.toList :=
      List.takeWhile_eq_self_iff.mpr fun c hc => by
        simpa using fun heq : c = ',' => hcomma (heq ▸ hc)
    rw [hall, htrim]

/-! ## Imports -/

/-- The name of a file alone, without directories before it. -/
def IsBareFileName (text : String) : Prop :=
  '\\' ∉ text.toList ∧ '/' ∉ text.toList

instance : DecidablePred IsBareFileName :=
  fun _ => inferInstanceAs (Decidable (_ ∧ _))

/-- **A text behind a directory names itself** if it is the name of a file. -/
theorem Conventions.isBuildToolsImport_behind_iff (c : Conventions) (directory : String) :
    c.isBuildToolsImport (directory ++ "\\" ++ c.buildToolsImport) = true ↔
      IsBareFileName c.buildToolsImport := by
  have hcharacters : (directory ++ "\\" ++ c.buildToolsImport).toList =
      directory.toList ++ '\\' :: c.buildToolsImport.toList := by
    simp
  rw [isBuildToolsImport, hcharacters, lastPiece_behind _ (by decide),
    sameIgnoringCase_of_sublist lastPiece_sublist, lastPiece_eq_self_iff]
  simp only [Bool.or_eq_false_iff, beq_eq_false_iff_ne]
  constructor
  · intro hall
    exact ⟨fun hmem => (hall _ hmem).1 rfl, fun hmem => (hall _ hmem).2 rfl⟩
  · rintro ⟨hbackslash, hslash⟩ ch hch
    exact ⟨fun heq => hbackslash (heq ▸ hch), fun heq => hslash (heq ▸ hch)⟩

end BuildProject
