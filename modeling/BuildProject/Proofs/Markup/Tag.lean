import Mathlib.Data.List.Nodup
import BuildProject.Document.Printer
import BuildProject.Proofs.Action
import BuildProject.Proofs.Markup.Escape

/-!
# Tags that are written and read back

A tag is read back as it was written if its names are plain and no two of its attributes have one
name (`readTag_printTag`). A tag that has been read has distinct attribute names
(`distinct_of_readTag`); that its names are plain is not checked by the reader.
-/

namespace BuildProject.Markup

open Text

/-! ## Plain names -/

/-- Whether a character is neither white space nor one that markup gives a meaning. -/
def isPlain (c : Char) : Bool :=
  !isSpace c && !(['<', '>', '/', '=', '"', '\'', '!', '?', '&'].contains c)

/-- Every name in the sense of the markup language is plain. -/
def IsPlainName (name : String) : Prop :=
  name ≠ "" ∧ ∀ c ∈ name.toList, isPlain c = true

instance (name : String) : Decidable (IsPlainName name) :=
  decidable_of_iff (name ≠ "" ∧ name.toList.all isPlain = true)
    (and_congr_right fun _ => List.all_eq_true)

namespace Tag

/-- The names in a tag are plain. -/
structure Plain (tag : Tag) : Prop where
  name : IsPlainName tag.name
  attributes : ∀ a ∈ tag.attributes, IsPlainName a.name

instance (tag : Tag) : Decidable tag.Plain :=
  decidable_of_iff (IsPlainName tag.name ∧ ∀ a ∈ tag.attributes, IsPlainName a.name)
    ⟨fun h => ⟨h.1, h.2⟩, fun h => ⟨h.name, h.attributes⟩⟩

/-- No two attributes have one name. -/
def Distinct (tag : Tag) : Prop :=
  (tag.attributes.map Attribute.name).Nodup

/-- Setting an attribute adds a name only if it is not there yet. -/
theorem map_name_setIn (name value : String) (attributes : List Attribute) :
    (setIn name value attributes).map Attribute.name =
      attributes.map Attribute.name ++
        if name ∈ attributes.map Attribute.name then [] else [name] := by
  induction attributes with
  | nil => rfl
  | cons a as ih =>
    rw [setIn]
    split
    · next ha => simp [ha]
    · next ha =>
      have hne : name ≠ a.name := fun heq => ha heq.symm
      simp only [List.map_cons, List.cons_append, List.mem_cons, hne, false_or, ih]

theorem Distinct.set {tag : Tag} (h : tag.Distinct) (name value : String) :
    (tag.set name value).Distinct := by
  unfold Distinct at *
  rw [Tag.set, map_name_setIn]
  split
  · rwa [List.append_nil]
  · next hnew => exact h.append (List.nodup_singleton name) (List.disjoint_singleton.mpr hnew)

theorem Distinct.erase {tag : Tag} (h : tag.Distinct) (name : String) :
    (tag.erase name).Distinct :=
  (List.eraseP_sublist.map _).nodup h

end Tag

theorem ne_of_isPlain {c d : Char} (h : isPlain c = true) (hd : isPlain d = false) : c ≠ d := by
  rintro rfl
  rw [h] at hd
  exact absurd hd (by decide)

theorem not_isSpace_of_isPlain {c : Char} (h : isPlain c = true) : isSpace c = false := by
  rw [isPlain, Bool.and_eq_true, Bool.not_eq_true'] at h
  exact h.1

theorem isKeyRest_of_isPlain {c : Char} (h : isPlain c = true) : isKeyRest c = true := by
  have hne : c ≠ '=' := ne_of_isPlain h (by decide)
  simp [isKeyRest, not_isSpace_of_isPlain h, hne]

/-- The characters of a plain name. -/
theorem IsPlainName.exists_cons {name : String} (h : IsPlainName name) :
    ∃ c cs, name.toList = c :: cs ∧ isPlain c = true ∧ ∀ x ∈ cs, isPlain x = true := by
  obtain ⟨hne, hplain⟩ := h
  cases hname : name.toList with
  | nil => exact absurd (String.toList_eq_nil_iff.mp hname) hne
  | cons c cs =>
    rw [hname] at hplain
    exact ⟨c, cs, rfl, hplain c List.mem_cons_self,
      fun x hx => hplain x (List.mem_cons_of_mem c hx)⟩

/-! ## Reading an attribute back -/

/-- Writes an attribute with its value as it is. -/
def RawAttribute.print (raw : RawAttribute) : List Char :=
  printAttribute raw.key raw.value

/-- The key is plain and the value does not hold the quote that would end it. -/
def RawAttribute.Printable (raw : RawAttribute) : Prop :=
  (∃ c cs, raw.key = c :: cs ∧ isPlain c = true ∧ ∀ x ∈ cs, isPlain x = true) ∧ '"' ∉ raw.value

theorem readValue_quoted {value : List Char} (h : '"' ∉ value) (position : Nat)
    (rest : List Char) :
    ∃ stop, readValue position ('"' :: (value ++ '"' :: rest)) = .ok (value, stop, rest) := by
  have hinside : ∀ c ∈ value, (c != '"') = true := by
    intro c hc
    rw [bne_iff_ne]
    rintro rfl
    exact h hc
  have htake : (value ++ '"' :: rest).takeWhile (· != '"') = value := by
    rw [List.takeWhile_append_of_pos hinside]
    simp
  have hdrop : (value ++ '"' :: rest).dropWhile (· != '"') = '"' :: rest := by
    rw [List.dropWhile_append_of_pos hinside]
    simp
  have hquote : isSpace '"' = false := by decide
  unfold readValue
  simp only [List.dropWhile_cons, hquote, Bool.false_eq_true, if_false, true_or, if_true, htake,
    hdrop]
  exact ⟨_, rfl⟩

theorem readAttribute_print {seen : List (List Char × Nat)} {c : Char} {cs value : List Char}
    (hplain : ∀ x ∈ cs, isPlain x = true) (hvalue : '"' ∉ value)
    (hseen : seen.lookup (c :: cs) = none) (start : Nat) (rest : List Char) :
    ∃ stop, readAttribute seen start c (cs ++ '=' :: '"' :: (value ++ '"' :: rest)) =
      .ok (⟨c :: cs, value⟩, stop, rest) := by
  have hkey : ∀ x ∈ cs, isKeyRest x = true := fun x hx => isKeyRest_of_isPlain (hplain x hx)
  have hequals : isKeyRest '=' = false := by decide
  have hspace : isSpace '=' = false := by decide
  unfold readAttribute
  simp only [List.takeWhile_append_of_pos hkey, List.dropWhile_append_of_pos hkey,
    List.takeWhile_cons, List.dropWhile_cons, hequals, hspace, Bool.false_eq_true, if_false,
    List.append_nil, hseen]
  obtain ⟨stop, hread⟩ := readValue_quoted hvalue _ rest
  rw [hread]
  exact ⟨stop, rfl⟩

theorem scanAttributes_of_readAttribute {distinct : Bool} {seen seen' : List (List Char × Nat)}
    {position : Nat} {cs body rest : List Char} {c : Char} {raw : RawAttribute} {stop : Nat}
    (hspace : cs.dropWhile isSpace = c :: body)
    (hread : readAttribute seen (position + byteLength (cs.takeWhile isSpace)) c body =
      .ok (raw, stop, rest))
    (hseen : (if distinct then (raw.key, position + byteLength (cs.takeWhile isSpace)) :: seen
      else seen) = seen') :
    scanAttributes distinct seen position cs =
      ⟨raw :: (scanAttributes distinct seen' stop rest).items,
        (scanAttributes distinct seen' stop rest).fault?⟩ := by
  rw [scanAttributes]
  split
  · next hnil => exact absurd (hspace.symm.trans hnil) (List.cons_ne_nil _ _)
  · next c' body' heq =>
    obtain ⟨rfl, rfl⟩ := List.cons.inj (hspace.symm.trans heq)
    dsimp only
    split
    · next fault hfault => exact absurd (hread.symm.trans hfault) (by simp)
    · next raw' stop' rest' hok =>
      obtain ⟨rfl, rfl, rfl⟩ : raw = raw' ∧ stop = stop' ∧ rest = rest' := by
        simpa using hread.symm.trans hok
      rw [hseen]

/-- Attributes are read back as they were written, if no key is met again while it counts. -/
theorem scanAttributes_print {distinct : Bool} {items : List RawAttribute}
    (hprintable : ∀ raw ∈ items, raw.Printable) {seen : List (List Char × Nat)}
    (hseen : ∀ raw ∈ items, seen.lookup raw.key = none)
    (hdistinct : distinct = true → (items.map RawAttribute.key).Nodup) (position : Nat) :
    scanAttributes distinct seen position (items.flatMap RawAttribute.print) = ⟨items, none⟩ := by
  induction items generalizing seen position with
  | nil =>
    rw [List.flatMap_nil, scanAttributes]
    rfl
  | cons raw items ih =>
    obtain ⟨key, value⟩ := raw
    obtain ⟨⟨c, cs, rfl, hc, hcs⟩, hvalue⟩ := hprintable _ List.mem_cons_self
    have hblank : isSpace ' ' = true := by decide
    have hc' : isSpace c = false := not_isSpace_of_isPlain hc
    let rest := items.flatMap RawAttribute.print
    have hspace : (List.flatMap RawAttribute.print (⟨c :: cs, value⟩ :: items)).dropWhile isSpace
        = c :: (cs ++ '=' :: '"' :: (value ++ '"' :: rest)) := by
      simp [RawAttribute.print, printAttribute, hblank, hc', rest]
    obtain ⟨stop, hread⟩ := readAttribute_print hcs hvalue (hseen _ List.mem_cons_self)
      (position + byteLength ((List.flatMap RawAttribute.print
        (⟨c :: cs, value⟩ :: items)).takeWhile isSpace)) rest
    rw [scanAttributes_of_readAttribute hspace hread rfl,
      ih (fun raw hraw => hprintable raw (List.mem_cons_of_mem _ hraw))]
    · intro raw hraw
      have hbefore := hseen raw (List.mem_cons_of_mem _ hraw)
      split
      · next h =>
        have hnodup := hdistinct h
        rw [List.map_cons, List.nodup_cons] at hnodup
        have hne : raw.key ≠ c :: cs := fun heq =>
          hnodup.1 (List.mem_map.mpr ⟨raw, hraw, heq⟩)
        rw [List.lookup_cons, beq_eq_false_iff_ne.mpr hne]
        exact hbefore
      · exact hbefore
    · exact fun h => (List.nodup_cons.mp (hdistinct h)).2

/-! ## Reading a tag back -/

/-- The attribute as it is written. -/
def Attribute.raw (a : Attribute) : RawAttribute :=
  ⟨a.name.toList, escapeValue a.value.toList⟩

theorem Attribute.decode_raw (a : Attribute) : a.raw.decode = .ok a := by
  simp [RawAttribute.decode, raw]

theorem decode_map_raw (attributes : List Attribute) :
    (⟨attributes.map Attribute.raw, none⟩ : RawAttributes).decode = .ok attributes := by
  have hmap : (attributes.map Attribute.raw).mapM RawAttribute.decode = .ok attributes := by
    induction attributes with
    | nil => rfl
    | cons a attributes ih =>
      rw [List.map_cons, List.mapM_cons, a.decode_raw, ih]
      rfl
  rw [RawAttributes.decode, hmap]
  rfl

theorem printTag_eq (tag : Tag) :
    printTag tag = tag.name.toList ++ (tag.attributes.map Attribute.raw).flatMap
      RawAttribute.print := by
  rw [printTag, List.flatMap_map]
  rfl

namespace Tag

theorem Plain.printable {tag : Tag} (h : tag.Plain) :
    ∀ raw ∈ tag.attributes.map Attribute.raw, raw.Printable := by
  intro raw hraw
  obtain ⟨a, ha, rfl⟩ := List.mem_map.mp hraw
  exact ⟨(h.attributes a ha).exists_cons, quote_not_mem_escapeValue _⟩

theorem Distinct.nodup_keys {tag : Tag} (h : tag.Distinct) :
    ((tag.attributes.map Attribute.raw).map RawAttribute.key).Nodup := by
  have hinjective : Function.Injective String.toList := fun _ _ heq => String.toList_inj.mp heq
  have hkeys := List.Nodup.map hinjective h
  rw [List.map_map] at hkeys ⊢
  exact hkeys

end Tag

/-- **A tag that has been written is read back.** -/
theorem readTag_printTag {tag : Tag} (hplain : tag.Plain) (hdistinct : tag.Distinct) :
    readTag (printTag tag) = .ok tag := by
  have hname : ∀ c ∈ tag.name.toList, (!isSpace c) = true := fun c hc => by
    rw [not_isSpace_of_isPlain (hplain.name.2 c hc)]
    rfl
  -- behind the name there is a blank or nothing
  have hrest : ∀ attributes : List Attribute,
      ((attributes.map Attribute.raw).flatMap RawAttribute.print).takeWhile (!isSpace ·) = [] ∧
      ((attributes.map Attribute.raw).flatMap RawAttribute.print).dropWhile (!isSpace ·) =
        (attributes.map Attribute.raw).flatMap RawAttribute.print := by
    intro attributes
    have hblank : isSpace ' ' = true := by decide
    cases attributes with
    | nil => exact ⟨rfl, rfl⟩
    | cons a attributes => simp [RawAttribute.print, printAttribute, hblank]
  have hscan (position : Nat) : scanAttributes true [] position
      ((tag.attributes.map Attribute.raw).flatMap RawAttribute.print) =
        ⟨tag.attributes.map Attribute.raw, none⟩ :=
    scanAttributes_print hplain.printable (fun _ _ => rfl) (fun _ => hdistinct.nodup_keys) position
  rw [readTag, printTag_eq, List.takeWhile_append_of_pos hname, List.dropWhile_append_of_pos hname,
    (hrest _).1, (hrest _).2, hscan, decode_map_raw, List.append_nil]
  show Except.ok (⟨String.ofList tag.name.toList, tag.attributes⟩ : Tag) = .ok tag
  rw [String.ofList_toList]

/-! ## Finding the end of a tag -/

/-- Whether a character neither ends a tag nor opens a quoted value in it. -/
def isTagChar (c : Char) : Bool :=
  c != '>' && c != '"' && c != '\''

theorem isTagChar_of_isPlain {c : Char} (h : isPlain c = true) : isTagChar c = true := by
  have hend : c ≠ '>' := ne_of_isPlain h (by decide)
  have hdouble : c ≠ '"' := ne_of_isPlain h (by decide)
  have hsingle : c ≠ '\'' := ne_of_isPlain h (by decide)
  simp [isTagChar, hend, hdouble, hsingle]

/-- The content of a tag goes on with what is put before it. -/
def prepend (start : List Char) (cut : List Char × List Char) : List Char × List Char :=
  (start ++ cut.1, cut.2)

theorem cutTag?_append {start : List Char} (h : ∀ c ∈ start, isTagChar c = true)
    (cs : List Char) : cutTag? none (start ++ cs) = (cutTag? none cs).map (prepend start) := by
  induction start with
  | nil =>
    rw [List.nil_append]
    cases cutTag? none cs <;> rfl
  | cons c start ih =>
    have hc := h c List.mem_cons_self
    simp only [isTagChar, Bool.and_eq_true, bne_iff_ne] at hc
    obtain ⟨⟨hend, hdouble⟩, hsingle⟩ := hc
    rw [List.cons_append, cutTag?]
    simp only [if_neg hend, hdouble, hsingle, or_self, if_false]
    rw [ih fun x hx => h x (List.mem_cons_of_mem c hx), Option.map_map]
    rfl

theorem cutTag?_quoted {value : List Char} (h : '"' ∉ value) (cs : List Char) :
    cutTag? (some '"') (value ++ '"' :: cs) =
      (cutTag? none cs).map (prepend (value ++ ['"'])) := by
  induction value with
  | nil =>
    rw [List.nil_append, cutTag?]
    rfl
  | cons c value ih =>
    have hc : c ≠ '"' := by
      rintro rfl
      exact h List.mem_cons_self
    rw [List.cons_append, cutTag?]
    simp only [if_neg hc]
    rw [ih fun hmem => h (List.mem_cons_of_mem c hmem), Option.map_map]
    rfl

theorem prepend_comp (start content : List Char) :
    prepend start ∘ prepend content = prepend (start ++ content) := by
  funext cut
  simp [prepend]

/-- An attribute ends no tag. -/
theorem cutTag?_print {raw : RawAttribute} (h : raw.Printable) (cs : List Char) :
    cutTag? none (raw.print ++ cs) = (cutTag? none cs).map (prepend raw.print) := by
  obtain ⟨⟨c, key, hkey, hc, hplain⟩, hvalue⟩ := h
  have hstart : ∀ x ∈ ' ' :: raw.key ++ ['='], isTagChar x = true := by
    intro x hx
    rw [hkey] at hx
    simp only [List.cons_append, List.mem_cons, List.mem_append, List.not_mem_nil, or_false] at hx
    rcases hx with rfl | rfl | hx | rfl
    · decide
    · exact isTagChar_of_isPlain hc
    · exact isTagChar_of_isPlain (hplain x hx)
    · decide
  have hprint : raw.print = ' ' :: raw.key ++ ['='] ++ ('"' :: (raw.value ++ ['"'])) := by
    simp [RawAttribute.print, printAttribute]
  have hquoted : cutTag? none ('"' :: (raw.value ++ ['"']) ++ cs) =
      (cutTag? none cs).map (prepend ('"' :: (raw.value ++ ['"']))) := by
    have hcut := cutTag?_quoted hvalue cs
    rw [List.cons_append, List.append_assoc, List.singleton_append, cutTag?]
    simp only [Char.reduceEq, if_false, true_or, if_true]
    rw [hcut, Option.map_map]
    rfl
  rw [hprint, List.append_assoc, cutTag?_append hstart, hquoted, Option.map_map, prepend_comp]

/-- The end of a tag is the `>` behind what has been written of it; `slash` is what an empty tag
has before that. -/
theorem cutTag?_printTag {tag : Tag} (h : tag.Plain) {slash : List Char}
    (hslash : slash.all isTagChar = true) (rest : List Char) :
    cutTag? none (printTag tag ++ (slash ++ '>' :: rest)) = some (printTag tag ++ slash, rest) := by
  have hend : cutTag? none (slash ++ '>' :: rest) = some (slash, rest) := by
    rw [cutTag?_append (List.all_eq_true.mp hslash)]
    simp [cutTag?, prepend]
  have hattributes : ∀ items : List RawAttribute, (∀ raw ∈ items, raw.Printable) →
      cutTag? none (items.flatMap RawAttribute.print ++ (slash ++ '>' :: rest)) =
        some (items.flatMap RawAttribute.print ++ slash, rest) := by
    intro items hitems
    induction items with
    | nil => exact hend
    | cons raw items ih =>
      rw [List.flatMap_cons, List.append_assoc, cutTag?_print (hitems raw List.mem_cons_self),
        ih fun raw hraw => hitems raw (List.mem_cons_of_mem _ hraw)]
      simp [prepend]
  have hname : ∀ c ∈ tag.name.toList, isTagChar c = true :=
    fun c hc => isTagChar_of_isPlain (h.name.2 c hc)
  rw [printTag_eq, List.append_assoc, cutTag?_append hname, hattributes _ h.printable]
  simp [prepend]

/-! ## What has been read -/

/-- Keys that have been seen before are not read again, and a value is a part of the text. -/
theorem readAttribute_eq_ok {seen : List (List Char × Nat)} {start stop : Nat} {c : Char}
    {body rest : List Char} {raw : RawAttribute}
    (h : readAttribute seen start c body = .ok (raw, stop, rest)) :
    seen.lookup raw.key = none ∧ raw.value <:+: body ∧ rest <:+ body := by
  have hequals : (body.dropWhile isKeyRest).dropWhile isSpace <:+ body :=
    (List.dropWhile_suffix isSpace).trans (List.dropWhile_suffix isKeyRest)
  simp only [readAttribute] at h
  split at h
  · next afterEquals hafter =>
    rw [hafter] at hequals
    split at h
    · exact absurd h (by simp)
    · next hlookup =>
      have hquoted : afterEquals.dropWhile isSpace <:+ body :=
        (List.dropWhile_suffix isSpace).trans ((List.suffix_cons '=' afterEquals).trans hequals)
      unfold readValue at h
      simp only at h
      split at h
      · exact absurd h (by simp [Except.map])
      · next quote quoted hopen =>
        rw [hopen] at hquoted
        have hinside : quoted <:+ body := (List.suffix_cons quote quoted).trans hquoted
        split at h
        · split at h
          · exact absurd h (by simp [Except.map])
          · next closing after hclose =>
            simp only [Except.map, Except.ok.injEq, Prod.mk.injEq] at h
            obtain ⟨rfl, -, rfl⟩ := h
            refine ⟨hlookup, ?_, ?_⟩
            · exact (List.takeWhile_prefix _).isInfix.trans hinside.isInfix
            · have hrest : closing :: after <:+ quoted := hclose ▸ List.dropWhile_suffix _
              exact (List.suffix_cons closing after).trans (hrest.trans hinside)
        · exact absurd h (by simp [Except.map])
  · exact absurd h (by simp)

/-- The values of attributes are parts of the text they were read from. -/
theorem value_isInfix_of_mem_scanAttributes {distinct : Bool} {seen : List (List Char × Nat)}
    {position : Nat} {cs : List Char} {raw : RawAttribute}
    (h : raw ∈ (scanAttributes distinct seen position cs).items) : raw.value <:+: cs := by
  fun_induction scanAttributes distinct seen position cs with
  | case1 => exact absurd h List.not_mem_nil
  | case2 => exact absurd h List.not_mem_nil
  | case3 seen position cs c body hspace start found stop rest hread hlength seen' others ih =>
    obtain ⟨-, hvalue, hrest⟩ := readAttribute_eq_ok hread
    have hbody : body <:+ cs :=
      (List.suffix_cons c body).trans (hspace ▸ List.dropWhile_suffix isSpace)
    rcases List.mem_cons.mp h with rfl | h
    · exact hvalue.trans hbody.isInfix
    · exact (ih h).trans (hrest.trans hbody).isInfix

/-- Keys that have to be distinct are: from each other and from those seen before. -/
theorem keys_scanAttributes (seen : List (List Char × Nat)) (position : Nat) (cs : List Char) :
    (∀ raw ∈ (scanAttributes true seen position cs).items, seen.lookup raw.key = none) ∧
      ((scanAttributes true seen position cs).items.map RawAttribute.key).Nodup := by
  generalize hdistinct : true = distinct
  fun_induction scanAttributes distinct seen position cs with
  | case1 => exact ⟨fun _ h => absurd h List.not_mem_nil, List.nodup_nil⟩
  | case2 => exact ⟨fun _ h => absurd h List.not_mem_nil, List.nodup_nil⟩
  | case3 seen position cs c body hspace start found stop rest hread hlength seen' others ih =>
    obtain ⟨hseen, -, -⟩ := readAttribute_eq_ok hread
    obtain ⟨hothers, hnodup⟩ := ih
    have hseen' : seen' = (found.key, start) :: seen := by simp [seen', ← hdistinct]
    have hnew : ∀ raw ∈ others.items, raw.key ≠ found.key ∧ seen.lookup raw.key = none := by
      intro raw hraw
      have hlookup := hothers raw hraw
      rw [hseen', List.lookup_cons] at hlookup
      split at hlookup
      · exact absurd hlookup (by simp)
      · next hne => exact ⟨fun heq => by simp [heq] at hne, hlookup⟩
    constructor
    · intro raw hraw
      rcases List.mem_cons.mp hraw with rfl | hraw
      · exact hseen
      · exact (hnew raw hraw).2
    · rw [List.map_cons, List.nodup_cons]
      refine ⟨fun hmem => ?_, hnodup⟩
      obtain ⟨raw, hraw, heq⟩ := List.mem_map.mp hmem
      exact (hnew raw hraw).1 heq

/-- Unescaping the values changes no key. -/
theorem name_of_mapM_decode {items : List RawAttribute} {attributes : List Attribute}
    (h : items.mapM RawAttribute.decode = .ok attributes) :
    attributes.map Attribute.name = items.map fun raw => String.ofList raw.key := by
  induction items generalizing attributes with
  | nil =>
    rw [← Except.ok.inj h]
    rfl
  | cons raw items ih =>
    rw [List.mapM_cons] at h
    obtain ⟨a, hfirst, hrest⟩ := bind_eq_ok.mp h
    obtain ⟨others, hothers, hattributes⟩ := bind_eq_ok.mp hrest
    have hname : a.name = String.ofList raw.key := by
      unfold RawAttribute.decode at hfirst
      split at hfirst
      · rw [← Except.ok.inj hfirst]
      · exact absurd hfirst (by simp)
    rw [← pure_eq_ok.mp hattributes, List.map_cons, List.map_cons, ih hothers, hname]

/-- A tag that has been read has no two attributes of one name. -/
theorem distinct_of_readTag {content : List Char} {tag : Tag} (h : readTag content = .ok tag) :
    tag.Distinct := by
  obtain ⟨attributes, hdecode, htag⟩ := bind_eq_ok.mp h
  obtain ⟨decoded, hmap, hfault⟩ := bind_eq_ok.mp hdecode
  have hattributes : decoded = attributes := by
    split at hfault
    · exact absurd hfault (by simp [throw, throwThe, MonadExceptOf.throw])
    · exact pure_eq_ok.mp hfault
  subst hattributes
  have hinjective : Function.Injective String.ofList := fun _ _ heq => String.ofList_inj.mp heq
  have hkeys := (keys_scanAttributes [] (byteLength (content.takeWhile (!isSpace ·)))
    (content.dropWhile (!isSpace ·))).2.map hinjective
  rw [List.map_map] at hkeys
  rw [← pure_eq_ok.mp htag, Tag.Distinct, name_of_mapM_decode hmap]
  exact hkeys

end BuildProject.Markup
