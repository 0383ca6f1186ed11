import Mathlib.Data.List.Chain
import BuildProject.Proofs.Text
import BuildProject.Proofs.Markup.Tag

/-!
# Declarations that are written and read back

A declaration is read back as it was written if its values hold no double quote
(`readDeclaration_print`), since they are not escaped; it is closed where it ends if they hold no
`?>` (`unclosed_print`), and none that has been read does (`unclosed_of_readDeclaration`).
-/

namespace BuildProject.Markup

open Text

/-- Holds no `?>`. -/
def Unclosed (cs : List Char) : Prop :=
  cs.IsChain fun a b => ¬(a = '?' ∧ b = '>')

/-- The value that is found is that of the attribute that is found. -/
theorem RawAttributes.find_of_find? {raw : RawAttributes} (hfault : raw.fault? = none)
    {key : List Char} {found? : Option RawAttribute}
    (h : raw.items.find? (·.key == key) = found?) :
    raw.find key = .ok (found?.map fun found => String.ofList found.value) := by
  unfold RawAttributes.find
  rw [h, hfault]
  cases found? <;> rfl

namespace Declaration

/-- The values that a declaration gives. -/
def values (d : Declaration) : List String :=
  d.version :: (d.encoding?.toList ++ d.standalone?.toList)

/-- The attributes of a declaration as they are written. -/
def items (d : Declaration) : List RawAttribute :=
  ⟨"version".toList, d.version.toList⟩ ::
    (d.encoding?.toList.map (⟨"encoding".toList, ·.toList⟩) ++
      d.standalone?.toList.map (⟨"standalone".toList, ·.toList⟩))

/-- The keys that a declaration can have. -/
def keys : List String :=
  ["version", "encoding", "standalone"]

theorem exists_of_mem_items {d : Declaration} {raw : RawAttribute} (h : raw ∈ d.items) :
    ∃ key ∈ keys, ∃ v ∈ d.values, raw = ⟨key.toList, v.toList⟩ := by
  simp only [items, List.mem_cons, List.mem_append, List.mem_map, Option.mem_toList] at h
  rcases h with rfl | ⟨v, hv, rfl⟩ | ⟨v, hv, rfl⟩
  · exact ⟨"version", by simp [keys], d.version, by simp [values], rfl⟩
  · exact ⟨"encoding", by simp [keys], v, by simp [values, hv], rfl⟩
  · exact ⟨"standalone", by simp [keys], v, by simp [values, hv], rfl⟩

/-- Every attribute is printable if no value holds a double quote. -/
theorem printable_items {d : Declaration} (h : ∀ v ∈ d.values, '"' ∉ v.toList) :
    ∀ raw ∈ d.items, raw.Printable := by
  intro raw hraw
  obtain ⟨key, hkey, v, hv, rfl⟩ := exists_of_mem_items hraw
  have hplain : ∀ key ∈ keys, IsPlainName key := by decide
  exact ⟨(hplain key hkey).exists_cons, h v hv⟩

theorem printDeclaration_eq (d : Declaration) :
    printDeclaration d = '<' :: '?' :: ("xml".toList ++
      (d.items.flatMap RawAttribute.print ++ "?>".toList)) := by
  have hopen : "<?xml".toList = '<' :: '?' :: "xml".toList := by simp
  have hitems : d.items.flatMap RawAttribute.print =
      printAttribute "version".toList d.version.toList ++
        ((d.encoding?.elim [] fun v => printAttribute "encoding".toList v.toList) ++
          d.standalone?.elim [] fun v => printAttribute "standalone".toList v.toList) := by
    obtain ⟨version, encoding?, standalone?⟩ := d
    cases encoding? <;> cases standalone? <;>
      simp only [items, RawAttribute.print, Option.elim, Option.toList, List.map_cons,
        List.map_nil, List.nil_append, List.append_nil, List.cons_append, List.flatMap_cons,
        List.flatMap_nil]
  unfold printDeclaration
  rw [hitems, hopen]
  simp only [List.append_assoc, List.cons_append]

theorem find?_items (d : Declaration) :
    d.items.find? (·.key == "encoding".toList) = d.encoding?.map (⟨"encoding".toList, ·.toList⟩) ∧
      d.items.find? (·.key == "standalone".toList) =
        d.standalone?.map (⟨"standalone".toList, ·.toList⟩) := by
  obtain ⟨version, encoding?, standalone?⟩ := d
  cases encoding? <;> cases standalone? <;> constructor <;> rfl

/-- A declaration is read back from its attributes. -/
theorem readDeclaration_print {d : Declaration} (h : ∀ v ∈ d.values, '"' ∉ v.toList) :
    readDeclaration ("xml".toList ++ d.items.flatMap RawAttribute.print) = .ok d := by
  have hscan : scanAttributes false [] 3 (d.items.flatMap RawAttribute.print) = ⟨d.items, none⟩ :=
    scanAttributes_print (printable_items h) (fun _ _ => rfl)
      (fun hdistinct => absurd hdistinct Bool.false_ne_true) 3
  have hdrop : ("xml".toList ++ d.items.flatMap RawAttribute.print).drop 3 =
      d.items.flatMap RawAttribute.print := rfl
  have hversion : (⟨d.items, none⟩ : RawAttributes).version = .ok d.version := by
    show (if "version".toList = "version".toList then Except.ok (String.ofList d.version.toList)
      else Except.error (Fault.versionNotFirst (String.ofList "version".toList))) = _
    rw [if_pos rfl, String.ofList_toList]
  have hvalue (value? : Option String) (key : List Char) :
      (value?.map (fun v => (⟨key, v.toList⟩ : RawAttribute))).map
        (fun found => String.ofList found.value) = value? := by
    cases value? with
    | none => rfl
    | some v => simp
  have hfound {key : List Char} {value? : Option String}
      (h : d.items.find? (·.key == key) = value?.map (⟨key, ·.toList⟩)) :
      (⟨d.items, none⟩ : RawAttributes).find key = .ok value? := by
    rw [RawAttributes.find_of_find? rfl h, hvalue]
  unfold readDeclaration
  rw [hdrop, hscan]
  exact bind_eq_ok.mpr ⟨d.version, hversion, bind_eq_ok.mpr ⟨d.encoding?,
    mapError_eq_ok.mpr (hfound (find?_items d).1), bind_eq_ok.mpr ⟨d.standalone?,
      mapError_eq_ok.mpr (hfound (find?_items d).2), rfl⟩⟩⟩

end Declaration

/-! ## The end of a declaration -/

theorem Unclosed.append {cs ds : List Char} (hcs : Unclosed cs) (hds : Unclosed ds)
    (h : cs.getLast? ≠ some '?' ∨ ds.head? ≠ some '>') : Unclosed (cs ++ ds) := by
  refine List.isChain_append.mpr ⟨hcs, hds, fun a ha b hb hmark => ?_⟩
  rcases h with h | h
  · exact h (hmark.1 ▸ ha)
  · exact h (hmark.2 ▸ hb)

theorem closes_of_unclosed {cs : List Char} (h : Unclosed cs) : Closes ['?', '>'] cs := by
  intro rest
  induction cs with
  | nil => exact cutAt?_of_prefix (by simp) rest
  | cons c cs ih =>
    have hne : ¬ ['?', '>'].isPrefixOf (c :: (cs ++ (['?', '>'] ++ rest))) = true := by
      intro hfits
      cases cs with
      | nil => simp [List.isPrefixOf] at hfits
      | cons d cs =>
        simp only [List.cons_append, List.isPrefixOf, Bool.and_eq_true, beq_iff_eq] at hfits
        exact (List.isChain_cons_cons.mp h).1 ⟨hfits.1.symm, hfits.2.1.symm⟩
    rw [List.cons_append, cutAt?, if_neg hne, ih (List.IsChain.tail h)]
    rfl

theorem unclosed_of_cutAt? {cs before after : List Char}
    (h : cutAt? ['?', '>'] cs = some (before, after)) : Unclosed before := by
  induction cs generalizing before with
  | nil => simp [cutAt?] at h
  | cons c cs ih =>
    have hwhole := eq_of_cutAt? h
    rw [cutAt?] at h
    split at h
    · rw [Option.some.injEq, Prod.mk.injEq] at h
      obtain ⟨rfl, -⟩ := h
      exact List.isChain_nil
    · next hfits =>
      obtain ⟨⟨before', after'⟩, hcut, heq⟩ := Option.map_eq_some_iff.mp h
      rw [Prod.mk.injEq] at heq
      obtain ⟨rfl, rfl⟩ := heq
      cases before' with
      | nil => exact List.isChain_singleton c
      | cons d before' =>
        refine List.isChain_cons_cons.mpr ⟨fun hmark => hfits ?_, ih hcut⟩
        rw [hwhole, hmark.1, hmark.2]
        rfl

/-- An attribute whose value holds no `?>` adds none. -/
theorem unclosed_print {key v : String} (hkey : key ∈ Declaration.keys)
    (hvalue : Unclosed v.toList) : Unclosed (RawAttribute.print ⟨key.toList, v.toList⟩) := by
  have hprint : RawAttribute.print ⟨key.toList, v.toList⟩ =
      ' ' :: (key.toList ++ ['=', '"']) ++ (v.toList ++ ['"']) := by
    simp [RawAttribute.print, printAttribute]
  have hstart : ∀ key ∈ Declaration.keys, Unclosed (' ' :: (key.toList ++ ['=', '"'])) := by
    unfold Unclosed
    decide
  rw [hprint]
  refine (hstart key hkey).append (hvalue.append (List.isChain_singleton _) (.inr (by simp))) ?_
  exact .inl (by simp [List.getLast?_cons])

/-- The content of a declaration ends with it if no value holds `?>`. -/
theorem Declaration.closes {d : Declaration} (h : ∀ v ∈ d.values, Unclosed v.toList) :
    Closes ['?', '>'] ("xml".toList ++ d.items.flatMap RawAttribute.print) := by
  have hitems : ∀ items : List RawAttribute, (∀ raw ∈ items, raw ∈ d.items) →
      Unclosed (items.flatMap RawAttribute.print) := by
    intro items hitems
    induction items with
    | nil => exact List.isChain_nil
    | cons raw items ih =>
      obtain ⟨key, hkey, v, hv, rfl⟩ := exists_of_mem_items (hitems raw List.mem_cons_self)
      rw [List.flatMap_cons]
      refine (unclosed_print hkey (h v hv)).append
        (ih fun raw hmem => hitems raw (List.mem_cons_of_mem _ hmem)) (.inl ?_)
      -- every attribute ends with its quote
      simp [RawAttribute.print, printAttribute, List.getLast?_cons]
  refine closes_of_unclosed (Unclosed.append ?_ (hitems d.items fun _ hmem => hmem) (.inl ?_))
  · unfold Unclosed
    decide
  · decide

/-! ## What has been read -/

theorem RawAttributes.find_eq_ok {raw : RawAttributes} {key : List Char} {v : String}
    (h : raw.find key = .ok (some v)) : ∃ item ∈ raw.items, v = String.ofList item.value := by
  unfold RawAttributes.find at h
  split at h
  · next found hfound =>
    rw [Except.ok.injEq, Option.some.injEq] at h
    exact ⟨found, List.mem_of_find?_eq_some hfound, h.symm⟩
  · split at h <;> exact absurd h (by simp)

theorem RawAttributes.version_eq_ok {raw : RawAttributes} {v : String}
    (h : raw.version = .ok v) : ∃ item ∈ raw.items, v = String.ofList item.value := by
  unfold RawAttributes.version at h
  split at h
  · next first others hitems =>
    split at h
    · rw [Except.ok.injEq] at h
      exact ⟨first, hitems ▸ List.mem_cons_self, h.symm⟩
    · exact absurd h (by simp)
  · split at h <;> exact absurd h (by simp)

/-- The values of a declaration are parts of its content. -/
theorem exists_item_of_readDeclaration {content : List Char} {d : Declaration}
    (h : readDeclaration content = .ok d) : ∀ v ∈ d.values, v.toList <:+: content := by
  let raw := scanAttributes false [] 3 (content.drop 3)
  have hitem : ∀ v, (∃ item ∈ raw.items, v = String.ofList item.value) → v.toList <:+: content := by
    rintro v ⟨item, hmem, rfl⟩
    rw [String.toList_ofList]
    exact (value_isInfix_of_mem_scanAttributes hmem).trans (List.drop_suffix 3 content).isInfix
  obtain ⟨version, hversion, hrest⟩ := bind_eq_ok.mp h
  obtain ⟨encoding?, hencoding, hrest⟩ := bind_eq_ok.mp hrest
  obtain ⟨standalone?, hstandalone, hd⟩ := bind_eq_ok.mp hrest
  rw [← pure_eq_ok.mp hd]
  intro v hv
  simp only [Declaration.values, List.mem_cons, List.mem_append, Option.mem_toList] at hv
  rcases hv with rfl | rfl | rfl
  · exact hitem _ (RawAttributes.version_eq_ok hversion)
  · exact hitem _ (RawAttributes.find_eq_ok (mapError_eq_ok.mp hencoding))
  · exact hitem _ (RawAttributes.find_eq_ok (mapError_eq_ok.mp hstandalone))

/-- A declaration that has been read holds no `?>`. -/
theorem unclosed_of_readDeclaration {content : List Char} {d : Declaration}
    (hcontent : Unclosed content) (h : readDeclaration content = .ok d) :
    ∀ v ∈ d.values, Unclosed v.toList :=
  fun v hv => List.IsChain.infix hcontent (exists_item_of_readDeclaration h v hv)

end BuildProject.Markup
