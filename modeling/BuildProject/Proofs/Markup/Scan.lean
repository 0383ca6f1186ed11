import BuildProject.Proofs.Markup.Declaration

/-!
# Events that are written and read back

`Event.write` writes one part of a markup text, and the scan of a row of written events gives the
same events again (`scanFrom_write`). Four things are asked of the events. What the reader has cut
off at a mark holds nothing that ends it earlier, which is so for everything that has been read
(`Event.Sound`, `sound_of_mem_scanFrom`). The names are plain and the values of a declaration do not
hold their quote, which the reader does not check (`Event.Plain`). Tags are nested. And no text
follows a text, as the two would be read as one (`Readable`).
-/

namespace BuildProject.Markup

open Text

namespace Event

/-- Writes an event. Instructions and document types are never written. -/
def write : Event → List Char
  | declaration d => printDeclaration d
  | instruction _ => []
  | doctype _ => []
  | comment content => printComment content
  | cdata content => "<![CDATA[".toList ++ content.toList ++ "]]>".toList
  | text content => escapeText content.toList
  | startTag tag => '<' :: printTag tag ++ ['>']
  | emptyTag tag => '<' :: printTag tag ++ ['/', '>']
  | endTag name => '<' :: '/' :: name.toList ++ ['>']

/-- What is so for every event that has been read. -/
def Sound : Event → Prop
  | declaration d => ∀ v ∈ d.values, Unclosed v.toList
  | instruction _ => True
  | doctype _ => True
  | comment content => Closes ['-', '-', '>'] content.toList
  | cdata content => Closes [']', ']', '>'] content.toList
  | text content => content ≠ ""
  | startTag tag => tag.Distinct
  | emptyTag tag => tag.Distinct
  | endTag _ => True

/-- What an event that is written as it is must not hold. -/
def Plain : Event → Prop
  | declaration d => ∀ v ∈ d.values, '"' ∉ v.toList
  | startTag tag => tag.Plain
  | emptyTag tag => tag.Plain
  | endTag name => IsPlainName name
  | _ => True

def isText : Event → Bool
  | text _ => true
  | _ => false

end Event

/-- The scan of `names` open elements reads the written event, with `rest` behind it, as that
event, and goes on with `names'`. -/
def Reads (names : List String) (event : Event) (rest : List Char) (names' : List String) : Prop :=
  ∃ c cs, event.write = c :: cs ∧ readStep names c (cs ++ rest) = .ok (event, names', rest)

theorem scanFrom_of_reads {names names' : List String} {event : Event} {rest : List Char}
    (h : Reads names event rest names') :
    scanFrom names (event.write ++ rest) =
      ⟨event :: (scanFrom names' rest).events, (scanFrom names' rest).fault?⟩ := by
  obtain ⟨c, cs, hwrite, hread⟩ := h
  rw [hwrite, List.cons_append, scanFrom]
  split
  · next fault hfault => exact absurd (hread.symm.trans hfault) (by simp)
  · next event' names'' rest' hok =>
    obtain ⟨rfl, rfl, rfl⟩ : event = event' ∧ names' = names'' ∧ rest = rest' := by
      simpa using hread.symm.trans hok
    rfl

/-! ## One event -/

theorem reads_text {content : String} (hne : content ≠ "") (names : List String)
    {rest : List Char} (hrest : rest = [] ∨ rest.head? = some '<') :
    Reads names (.text content) rest names := by
  have hwritten : escapeText content.toList ≠ [] :=
    escapeText_ne_nil fun hnil => hne (String.toList_eq_nil_iff.mp hnil)
  obtain ⟨c, cs, hwrite⟩ := List.exists_cons_of_ne_nil hwritten
  have hmem : ∀ x ∈ c :: cs, x ≠ '<' := by
    rintro x hx rfl
    exact lt_not_mem_escapeText _ (hwrite ▸ hx)
  have hinside : ∀ x ∈ cs, (x != '<') = true :=
    fun x hx => bne_iff_ne.mpr (hmem x (List.mem_cons_of_mem c hx))
  have hstop : rest.takeWhile (· != '<') = [] ∧ rest.dropWhile (· != '<') = rest := by
    cases rest with
    | nil => exact ⟨rfl, rfl⟩
    | cons d rest =>
      have hd : d = '<' := by simpa using hrest
      simp [hd]
  refine ⟨c, cs, hwrite, ?_⟩
  rw [readStep, if_neg (hmem c List.mem_cons_self), readText, List.takeWhile_append_of_pos hinside,
    List.dropWhile_append_of_pos hinside, hstop.1, hstop.2, List.append_nil, ← hwrite,
    unescape_escapeText]
  show Except.ok (Event.text (String.ofList content.toList), names, rest) = _
  rw [String.ofList_toList]

theorem reads_comment {content : String} (h : Closes ['-', '-', '>'] content.toList)
    (names : List String) (rest : List Char) : Reads names (.comment content) rest names := by
  refine ⟨'<', '!' :: '-' :: '-' :: (content.toList ++ ['-', '-', '>']), ?_, ?_⟩
  · show printComment content = _
    unfold printComment
    simp
  · show readBang names ('-' :: '-' :: (content.toList ++ ['-', '-', '>'] ++ rest)) = _
    rw [List.append_assoc]
    unfold readBang
    simp only [h rest, String.ofList_toList]

/-- What follows `<![CDATA[` up to the first `]]>` is character data. -/
theorem readBang_bracket {names : List String} {cs content rest : List Char}
    (hname : cs.take 6 = "CDATA[".toList)
    (hcut : cutAt? [']', ']', '>'] (cs.drop 6) = some (content, rest)) :
    readBang names ('[' :: cs) = .ok (.cdata (String.ofList content), names, rest) := by
  unfold readBang
  simp only [hname, if_true, hcut]

theorem reads_cdata {content : String} (h : Closes [']', ']', '>'] content.toList)
    (names : List String) (rest : List Char) : Reads names (.cdata content) rest names := by
  refine ⟨'<', '!' :: '[' :: ("CDATA[".toList ++ (content.toList ++ [']', ']', '>'])), ?_, ?_⟩
  · show "<![CDATA[".toList ++ content.toList ++ "]]>".toList = _
    simp
  · show readBang names ('[' :: ("CDATA[".toList ++ (content.toList ++ [']', ']', '>']) ++ rest))
      = _
    have htake (cs : List Char) : ("CDATA[".toList ++ cs).take 6 = "CDATA[".toList := by simp
    have hdrop (cs : List Char) : ("CDATA[".toList ++ cs).drop 6 = cs := by simp
    have hcut := h rest
    rw [← hdrop (content.toList ++ ([']', ']', '>'] ++ rest))] at hcut
    rw [List.append_assoc, List.append_assoc, readBang_bracket (htake _) hcut, String.ofList_toList]

/-- What starts with a plain name is a tag that opens an element. -/
theorem readMarkup_of_plain {tag : Tag} (h : tag.Plain) (names : List String) (rest : List Char) :
    readMarkup names (printTag tag ++ rest) = readStartTag names (printTag tag ++ rest) := by
  obtain ⟨c, cs, hname, hc, -⟩ := h.name.exists_cons
  have hbang : c ≠ '!' := ne_of_isPlain hc (by decide)
  have hquestion : c ≠ '?' := ne_of_isPlain hc (by decide)
  have hslash : c ≠ '/' := ne_of_isPlain hc (by decide)
  rw [printTag_eq, hname, List.cons_append, List.cons_append]
  unfold readMarkup
  split
  · next heq => exact absurd heq (List.cons_ne_nil _ _)
  · next heq => exact absurd (List.cons.inj heq).1 hbang
  · next heq => exact absurd (List.cons.inj heq).1 hquestion
  · next heq => exact absurd (List.cons.inj heq).1 hslash
  · next heq => rw [heq]

/-- A start tag does not look like an empty one. -/
theorem getLast?_printTag_ne {tag : Tag} (h : tag.Plain) : (printTag tag).getLast? ≠ some '/' := by
  have hprint : printTag tag = tag.name.toList ++ tag.attributes.flatMap fun a =>
      printAttribute a.name.toList (escapeValue a.value.toList) := rfl
  rw [hprint]
  rcases List.eq_nil_or_concat tag.attributes with hnil | ⟨attributes, a, hattributes⟩
  · rw [hnil, List.flatMap_nil, List.append_nil]
    intro hlast
    have hslash := h.name.2 '/' (List.mem_of_getLast? hlast)
    exact absurd hslash (by decide)
  · rw [hattributes, List.concat_eq_append, List.flatMap_append, ← List.append_assoc,
      List.flatMap_singleton, printAttribute, ← List.append_assoc, List.getLast?_concat]
    simp

/-- There is no white space behind a plain name. -/
theorem endTagName_of_plain {name : String} (h : IsPlainName name) :
    endTagName name.toList = name.toList := by
  have hspace : ∀ c ∈ name.toList.reverse, isSpace c = false :=
    fun c hc => not_isSpace_of_isPlain (h.2 c (List.mem_reverse.mp hc))
  have hkeep : name.toList.reverse.dropWhile isSpace = name.toList.reverse := by
    cases hreverse : name.toList.reverse with
    | nil => rfl
    | cons c cs =>
      have hc := hspace c (hreverse ▸ List.mem_cons_self)
      rw [List.dropWhile_cons, hc, if_neg Bool.false_ne_true]
  rw [endTagName, hkeep, List.reverse_reverse, ite_self]

theorem reads_startTag {tag : Tag} (hplain : tag.Plain) (hdistinct : tag.Distinct)
    (names : List String) (rest : List Char) :
    Reads names (.startTag tag) rest (tag.name :: names) := by
  have hcut : cutTag? none (printTag tag ++ '>' :: rest) = some (printTag tag, rest) := by
    have h := @cutTag?_printTag tag hplain [] (by simp) rest
    rwa [List.nil_append, List.append_nil] at h
  refine ⟨'<', printTag tag ++ ['>'], rfl, ?_⟩
  rw [List.append_assoc, List.singleton_append, readStep, if_pos rfl,
    readMarkup_of_plain hplain, readStartTag, hcut]
  dsimp only
  rw [if_neg (getLast?_printTag_ne hplain), readTag_printTag hplain hdistinct]
  rfl

theorem reads_emptyTag {tag : Tag} (hplain : tag.Plain) (hdistinct : tag.Distinct)
    (names : List String) (rest : List Char) :
    Reads names (.emptyTag tag) rest names := by
  have hcut := @cutTag?_printTag tag hplain ['/'] (by decide) rest
  refine ⟨'<', printTag tag ++ ['/', '>'], rfl, ?_⟩
  rw [List.append_assoc, readStep, if_pos rfl]
  show readMarkup names (printTag tag ++ (['/'] ++ '>' :: rest)) = _
  rw [readMarkup_of_plain hplain, readStartTag, hcut]
  dsimp only
  rw [if_pos List.getLast?_concat, List.dropLast_concat, readTag_printTag hplain hdistinct]
  rfl

theorem reads_endTag {name : String} (hplain : IsPlainName name) (names : List String)
    (rest : List Char) : Reads (name :: names) (.endTag name) rest names := by
  have hcut : cutTag? none (name.toList ++ '>' :: rest) = some (name.toList, rest) := by
    rw [cutTag?_append fun c hc => isTagChar_of_isPlain (hplain.2 c hc)]
    simp [cutTag?, prepend]
  refine ⟨'<', '/' :: (name.toList ++ ['>']), rfl, ?_⟩
  rw [List.cons_append, List.append_assoc, List.singleton_append]
  show readEndTag (name :: names) (name.toList ++ '>' :: rest) = _
  rw [readEndTag, hcut]
  dsimp only
  rw [endTagName_of_plain hplain, String.ofList_toList, if_pos rfl]

theorem reads_declaration {d : Declaration} (hunclosed : ∀ v ∈ d.values, Unclosed v.toList)
    (hquote : ∀ v ∈ d.values, '"' ∉ v.toList) (names : List String) (rest : List Char) :
    Reads names (.declaration d) rest names := by
  let content := "xml".toList ++ d.items.flatMap RawAttribute.print
  have hshape : "xml".toList ++ (d.items.flatMap RawAttribute.print ++ "?>".toList) ++ rest =
      content ++ (['?', '>'] ++ rest) := by
    simp [content]
  have hfirst : (content ++ (['?', '>'] ++ rest)).head? ≠ some '>' := by simp [content]
  -- the first attribute starts with a blank
  have hxml : content.take 3 = ['x', 'm', 'l'] ∧ (content.drop 3).head?.all isSpace = true := by
    have hblank : isSpace ' ' = true := by decide
    simp [content, Declaration.items, RawAttribute.print, printAttribute, hblank]
  refine ⟨'<', _, Declaration.printDeclaration_eq d, ?_⟩
  rw [readStep, if_pos rfl, List.cons_append, hshape]
  show readInstruction names (content ++ (['?', '>'] ++ rest)) = _
  rw [readInstruction, if_neg hfirst, Declaration.closes hunclosed rest]
  dsimp only
  rw [if_pos hxml, Declaration.readDeclaration_print hquote]
  rfl

/-! ## All events -/

/-- Whether events can be read back one by one inside the open elements `names`. -/
def Readable (names : List String) : List Event → Prop
  | [] => True
  | event :: events =>
    event.Sound ∧ event.Plain ∧
      match event with
      | .startTag tag => Readable (tag.name :: names) events
      | .endTag name => names.head? = some name ∧ Readable names.tail events
      | .text _ => events.head?.all (!·.isText) = true ∧ Readable names events
      | .instruction _ => False
      | .doctype _ => False
      | _ => Readable names events

/-- What is written for anything but a text starts with a `<`. -/
theorem head?_write {names : List String} {events : List Event} (h : Readable names events)
    (htext : events.head?.all (!·.isText) = true) :
    events.flatMap Event.write = [] ∨ (events.flatMap Event.write).head? = some '<' := by
  cases events with
  | nil => exact .inl rfl
  | cons event events =>
    refine .inr ?_
    rw [List.flatMap_cons]
    obtain ⟨-, -, h⟩ := h
    cases event with
    | instruction content => exact h.elim
    | doctype content => exact h.elim
    | text content => simp [Event.isText] at htext
    | declaration d =>
      show (printDeclaration d ++ _).head? = _
      rw [Declaration.printDeclaration_eq]
      rfl
    | comment content =>
      show (printComment content ++ _).head? = _
      unfold printComment
      simp
    | cdata content =>
      show ("<![CDATA[".toList ++ content.toList ++ "]]>".toList ++ _).head? = _
      simp
    | startTag tag => rfl
    | emptyTag tag => rfl
    | endTag name => rfl

/-- **Events that have been written are read back.** -/
theorem scanFrom_write {names : List String} {events : List Event} (h : Readable names events) :
    scanFrom names (events.flatMap Event.write) = ⟨events, none⟩ := by
  induction events generalizing names with
  | nil => rw [List.flatMap_nil, scanFrom]
  | cons event events ih =>
    obtain ⟨hsound, hplain, h⟩ := h
    rw [List.flatMap_cons]
    cases event with
    | declaration d => rw [scanFrom_of_reads (reads_declaration hsound hplain names _), ih h]
    | instruction content => exact h.elim
    | doctype content => exact h.elim
    | comment content => rw [scanFrom_of_reads (reads_comment hsound names _), ih h]
    | cdata content => rw [scanFrom_of_reads (reads_cdata hsound names _), ih h]
    | text content =>
      obtain ⟨htext, h⟩ := h
      rw [scanFrom_of_reads (reads_text hsound names (head?_write h htext)), ih h]
    | startTag tag => rw [scanFrom_of_reads (reads_startTag hplain hsound names _), ih h]
    | emptyTag tag => rw [scanFrom_of_reads (reads_emptyTag hplain hsound names _), ih h]
    | endTag name =>
      obtain ⟨hname, h⟩ := h
      obtain ⟨others, rfl⟩ := List.head?_eq_some_iff.mp hname
      have h : Readable others events := h
      rw [scanFrom_of_reads (reads_endTag hplain others _), ih h]

/-! ## What has been read -/

theorem sound_of_readText {names names' : List String} {c : Char} {cs rest : List Char}
    {event : Event} (h : readText names c cs = .ok (event, names', rest)) : event.Sound := by
  unfold readText at h
  split at h
  · next content hread =>
    rw [Except.ok.injEq, Prod.mk.injEq] at h
    rw [← h.1]
    exact fun hempty => ne_nil_of_unescape hread (String.ofList_eq_empty_iff.mp hempty)
  · exact absurd h (by simp)

theorem sound_of_readBang {names names' : List String} {cs rest : List Char} {event : Event}
    (h : readBang names cs = .ok (event, names', rest)) : event.Sound := by
  unfold readBang at h
  split at h
  · split at h
    · split at h
      · next content rest' hcut =>
        rw [Except.ok.injEq, Prod.mk.injEq] at h
        rw [← h.1, Event.Sound, String.toList_ofList]
        exact closes_of_cutAt? (by simp) hcut
      · exact absurd h (by simp)
    · exact absurd h (by simp)
  · split at h
    · split at h
      · next content rest' hcut =>
        rw [Except.ok.injEq, Prod.mk.injEq] at h
        rw [← h.1, Event.Sound, String.toList_ofList]
        exact closes_of_cutAt? (by simp) hcut
      · exact absurd h (by simp)
    · exact absurd h (by simp)
  · split at h
    · split at h
      · split at h
        · split at h
          · exact absurd h (by simp)
          · rw [Except.ok.injEq, Prod.mk.injEq] at h
            rw [← h.1]
            trivial
        · exact absurd h (by simp)
      · exact absurd h (by simp)
    · exact absurd h (by simp)
  · exact absurd h (by simp)

theorem sound_of_readInstruction {names names' : List String} {cs rest : List Char}
    {event : Event} (h : readInstruction names cs = .ok (event, names', rest)) : event.Sound := by
  rw [readInstruction] at h
  split at h
  · exact absurd h (by simp)
  · split at h
    · exact absurd h (by simp)
    · next content rest' hcut =>
      split at h
      · obtain ⟨d, hread, hstep⟩ := bind_eq_ok.mp h
        have hevent : Event.declaration d = event := congrArg Prod.fst (pure_eq_ok.mp hstep)
        rw [← hevent]
        exact unclosed_of_readDeclaration (unclosed_of_cutAt? hcut) hread
      · rw [Except.ok.injEq, Prod.mk.injEq] at h
        rw [← h.1]
        trivial

theorem sound_of_readMarkup {names names' : List String} {cs rest : List Char} {event : Event}
    (h : readMarkup names cs = .ok (event, names', rest)) : event.Sound := by
  unfold readMarkup at h
  split at h
  · exact absurd h (by simp)
  · exact sound_of_readBang h
  · exact sound_of_readInstruction h
  · rw [readEndTag] at h
    split at h
    · exact absurd h (by simp)
    · dsimp only at h
      split at h
      · exact absurd h (by simp)
      · split at h
        · rw [Except.ok.injEq, Prod.mk.injEq] at h
          rw [← h.1]
          trivial
        · exact absurd h (by simp)
  · rw [readStartTag] at h
    split at h
    · exact absurd h (by simp)
    · split at h
      · obtain ⟨tag, hread, hstep⟩ := bind_eq_ok.mp h
        have hevent : Event.emptyTag tag = event := congrArg Prod.fst (pure_eq_ok.mp hstep)
        rw [← hevent]
        exact distinct_of_readTag hread
      · obtain ⟨tag, hread, hstep⟩ := bind_eq_ok.mp h
        have hevent : Event.startTag tag = event := congrArg Prod.fst (pure_eq_ok.mp hstep)
        rw [← hevent]
        exact distinct_of_readTag hread

/-- **Every event that has been read can be written without ending early.** -/
theorem sound_of_mem_scanFrom {names : List String} {cs : List Char} {event : Event}
    (h : event ∈ (scanFrom names cs).events) : event.Sound := by
  fun_induction scanFrom names cs with
  | case1 => exact absurd h List.not_mem_nil
  | case2 => exact absurd h List.not_mem_nil
  | case3 names c cs found names' rest hread hlength others ih =>
    rcases List.mem_cons.mp h with rfl | h
    · unfold readStep at hread
      split at hread
      · exact sound_of_readMarkup hread
      · exact sound_of_readText hread
    · exact ih h

end BuildProject.Markup
