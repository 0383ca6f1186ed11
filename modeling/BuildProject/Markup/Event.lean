import BuildProject.Markup.Attribute

/-!
# Events

The parts of a markup text in the order in which they are written. `scanEvents` reads them from
left to right and stops at the first fault, keeping what it read before: what the events mean is
decided elsewhere, and an event may be refused there before a later fault counts.

A `<` opens one of six things, by the character behind it:

* `!` and `?`: a comment, character data, a document type; an instruction or a declaration;
* `/`: an end tag, which has to name the innermost open element;
* anything else: a start tag, or an empty tag if its last character is `/`.

Everything up to the next `<` is text. Nothing is checked about names or characters.

Each event takes at least one character, so the scan ends with the text.
-/

namespace BuildProject.Markup

open Text

/-- The declaration at the start of a document. -/
structure Declaration where
  version : String
  encoding? : Option String
  standalone? : Option String
deriving DecidableEq, Repr

/-- A part of a markup text. -/
inductive Event where
  | declaration (declaration : Declaration)
  | instruction (content : String)
  | doctype (content : String)
  | comment (content : String)
  | cdata (content : String)
  | text (content : String)
  | startTag (tag : Tag)
  | emptyTag (tag : Tag)
  | endTag (name : String)
deriving DecidableEq, Repr

/-- Events up to the first fault. -/
structure EventStream where
  events : List Event
  fault? : Option Fault
deriving DecidableEq, Repr

/-! ## Declarations -/

/-- The first value of the given key, unless a fault comes before it. -/
def RawAttributes.find (raw : RawAttributes) (key : List Char) :
    Except AttributeFault (Option String) :=
  match raw.items.find? (·.key == key) with
  | some found => .ok (some (String.ofList found.value))
  | none =>
    match raw.fault? with
    | some fault => .error fault
    | none => .ok none

/-- The version of a declaration, which has to be its first attribute. -/
def RawAttributes.version (raw : RawAttributes) : Except Fault String :=
  match raw.items with
  | first :: _ =>
    if first.key = "version".toList then .ok (String.ofList first.value)
    else .error (.versionNotFirst (String.ofList first.key))
  | [] =>
    match raw.fault? with
    | some fault => .error (.attribute fault)
    | none => .error .missingVersion

/-- Reads the content of a declaration, `xml` and its attributes. Keys may repeat, and values stand
as they are written. -/
def readDeclaration (content : List Char) : Except Fault Declaration := do
  let raw := scanAttributes false [] 3 (content.drop 3)
  let version ← raw.version
  let encoding? ← (raw.find "encoding".toList).mapError .attribute
  let standalone? ← (raw.find "standalone".toList).mapError .attribute
  return ⟨version, encoding?, standalone?⟩

/-! ## One part -/

/-- The content of a tag and what follows its `>`. A `>` between quotes does not count; `quote?`
is the quote that is open. -/
def cutTag? (quote? : Option Char) : List Char → Option (List Char × List Char)
  | [] => none
  | c :: cs =>
    let add := fun (content, rest) => (c :: content, rest)
    match quote? with
    | some quote => (cutTag? (if c = quote then none else quote?) cs).map add
    | none =>
      if c = '>' then some ([], cs)
      else (cutTag? (if c = '"' ∨ c = '\'' then some c else none) cs).map add

/-- The content of a document type and what follows its `>`. The angle brackets inside balance;
`depth` counts those that are open. -/
def cutDoctype? (depth : Nat) : List Char → Option (List Char × List Char)
  | [] => none
  | c :: cs =>
    let add := fun (content, rest) => (c :: content, rest)
    if c = '<' then (cutDoctype? (depth + 1) cs).map add
    else if c = '>' then
      match depth with
      | 0 => some ([], cs)
      | depth + 1 => (cutDoctype? depth cs).map add
    else (cutDoctype? depth cs).map add

/-- An event, the names of the elements open after it, and the rest of the text. -/
abbrev Step := Event × List String × List Char

/-- Reads what stands behind `<?`. -/
def readInstruction (names : List String) (cs : List Char) : Except Fault Step :=
  if cs.head? = some '>' then .error .unclosedInstruction
  else
    match cutAt? ['?', '>'] cs with
    | none => .error .unclosedInstruction
    | some (content, rest) =>
      if content.take 3 = ['x', 'm', 'l'] ∧ (content.drop 3).head?.all isSpace then do
        let declaration ← readDeclaration content
        return (.declaration declaration, names, rest)
      else .ok (.instruction (String.ofList content), names, rest)

/-- Reads what stands behind `<!`. -/
def readBang (names : List String) (cs : List Char) : Except Fault Step :=
  match cs with
  | '-' :: cs =>
    match cs with
    | '-' :: cs =>
      match cutAt? ['-', '-', '>'] cs with
      | some (content, rest) => .ok (.comment (String.ofList content), names, rest)
      | none => .error .unclosedComment
    | _ => .error .unclosedComment
  | '[' :: cs =>
    if cs.take 6 = "CDATA[".toList then
      match cutAt? [']', ']', '>'] (cs.drop 6) with
      | some (content, rest) => .ok (.cdata (String.ofList content), names, rest)
      | none => .error .unclosedCData
    else .error .unclosedCData
  | c :: cs =>
    if c = 'D' ∨ c = 'd' then
      if (cs.take 6).map Char.toLower = "octype".toList then
        match cutDoctype? 0 (cs.drop 6) with
        | some (content, rest) =>
          if content.all isSpace then .error .namelessDoctype
          else .ok (.doctype (String.ofList (content.dropWhile isSpace)), names, rest)
        | none => .error .unclosedDoctype
      else .error .unclosedDoctype
    else .error .unknownMarkup
  | [] => .error .unknownMarkup

/-- The name in an end tag: white space behind it does not count, unless there is nothing else. -/
def endTagName (content : List Char) : List Char :=
  if content.all isSpace then content else (content.reverse.dropWhile isSpace).reverse

/-- Reads what stands behind `</`. -/
def readEndTag (names : List String) (cs : List Char) : Except Fault Step :=
  match cutTag? none cs with
  | none => .error .unclosedTag
  | some (content, rest) =>
    let found := String.ofList (endTagName content)
    match names with
    | [] => .error (.unmatchedEnd found)
    | expected :: names =>
      if found = expected then .ok (.endTag found, names, rest)
      else .error (.mismatchedEnd expected found)

/-- Reads what stands behind a `<` that opens a start tag or an empty tag. -/
def readStartTag (names : List String) (cs : List Char) : Except Fault Step :=
  match cutTag? none cs with
  | none => .error .unclosedTag
  | some (content, rest) =>
    if content.getLast? = some '/' then do
      let tag ← readTag content.dropLast
      return (.emptyTag tag, names, rest)
    else do
      let tag ← readTag content
      return (.startTag tag, tag.name :: names, rest)

/-- Reads what stands behind `<`. -/
def readMarkup (names : List String) : List Char → Except Fault Step
  | [] => .error .unclosedTag
  | '!' :: cs => readBang names cs
  | '?' :: cs => readInstruction names cs
  | '/' :: cs => readEndTag names cs
  | c :: cs => readStartTag names (c :: cs)

/-- Reads the text that starts with the character `c`. -/
def readText (names : List String) (c : Char) (cs : List Char) : Except Fault Step :=
  match unescape (c :: cs.takeWhile (· != '<')) with
  | .ok content => .ok (.text (String.ofList content), names, cs.dropWhile (· != '<'))
  | .error fault => .error (.entity fault)

/-! ## What a part leaves -/

theorem length_of_cutTag? {quote? : Option Char} {cs content rest : List Char}
    (h : cutTag? quote? cs = some (content, rest)) : rest.length ≤ cs.length := by
  induction cs generalizing quote? content with
  | nil => simp [cutTag?] at h
  | cons c cs ih =>
    simp only [cutTag?] at h
    simp only [List.length_cons]
    split at h
    · obtain ⟨⟨b, a⟩, hcut, heq⟩ := Option.map_eq_some_iff.mp h
      simp only [Prod.mk.injEq] at heq
      have := ih (heq.2 ▸ hcut)
      omega
    · split at h
      · simp only [Option.some.injEq, Prod.mk.injEq] at h
        simp [h.2]
      · obtain ⟨⟨b, a⟩, hcut, heq⟩ := Option.map_eq_some_iff.mp h
        simp only [Prod.mk.injEq] at heq
        have := ih (heq.2 ▸ hcut)
        omega

theorem length_of_cutDoctype? {depth : Nat} {cs content rest : List Char}
    (h : cutDoctype? depth cs = some (content, rest)) : rest.length ≤ cs.length := by
  induction cs generalizing depth content with
  | nil => simp [cutDoctype?] at h
  | cons c cs ih =>
    have step {depth : Nat}
        (h : (cutDoctype? depth cs).map (fun (content, rest) => (c :: content, rest))
          = some (content, rest)) : rest.length ≤ (c :: cs).length := by
      obtain ⟨⟨b, a⟩, hcut, heq⟩ := Option.map_eq_some_iff.mp h
      simp only [Prod.mk.injEq] at heq
      have := ih (heq.2 ▸ hcut)
      simp only [List.length_cons]
      omega
    simp only [cutDoctype?] at h
    split at h
    · exact step h
    · split at h
      · split at h
        · simp only [Option.some.injEq, Prod.mk.injEq] at h
          simp [h.2]
        · exact step h
      · exact step h

theorem length_of_readInstruction {names names' : List String} {cs rest : List Char}
    {event : Event} (h : readInstruction names cs = .ok (event, names', rest)) :
    rest.length ≤ cs.length := by
  simp only [readInstruction] at h
  split at h
  · simp at h
  · split at h
    · simp at h
    · rename_i hcut
      have hlength := length_of_cutAt? hcut
      split at h
      · simp only [bind, Except.bind, pure, Except.pure] at h
        split at h
        · simp at h
        · simp only [Except.ok.injEq, Prod.mk.injEq] at h
          rw [← h.2.2]
          exact hlength
      · simp only [Except.ok.injEq, Prod.mk.injEq] at h
        rw [← h.2.2]
        exact hlength

theorem length_of_readBang {names names' : List String} {cs rest : List Char} {event : Event}
    (h : readBang names cs = .ok (event, names', rest)) : rest.length ≤ cs.length := by
  unfold readBang at h
  split at h
  · split at h
    · split at h
      · rename_i hcut
        have hlength := length_of_cutAt? hcut
        simp only [Except.ok.injEq, Prod.mk.injEq] at h
        simp only [List.length_cons, ← h.2.2]
        omega
      · simp at h
    · simp at h
  · split at h
    · split at h
      · rename_i hcut
        have hlength := length_of_cutAt? hcut
        simp only [Except.ok.injEq, Prod.mk.injEq] at h
        simp only [List.length_cons, ← h.2.2]
        simp only [List.length_drop] at hlength
        omega
      · simp at h
    · simp at h
  · split at h
    · split at h
      · split at h
        · rename_i hcut
          have hlength := length_of_cutDoctype? hcut
          simp only [List.length_drop] at hlength
          split at h
          · simp at h
          · simp only [Except.ok.injEq, Prod.mk.injEq] at h
            simp only [List.length_cons, ← h.2.2]
            omega
        · simp at h
      · simp at h
    · simp at h
  · simp at h

theorem length_of_readEndTag {names names' : List String} {cs rest : List Char} {event : Event}
    (h : readEndTag names cs = .ok (event, names', rest)) : rest.length ≤ cs.length := by
  unfold readEndTag at h
  split at h
  · simp at h
  · rename_i hcut
    have hlength := length_of_cutTag? hcut
    dsimp only at h
    split at h
    · simp at h
    · split at h
      · simp only [Except.ok.injEq, Prod.mk.injEq] at h
        rw [← h.2.2]
        exact hlength
      · simp at h

theorem length_of_readStartTag {names names' : List String} {cs rest : List Char}
    {event : Event} (h : readStartTag names cs = .ok (event, names', rest)) :
    rest.length ≤ cs.length := by
  unfold readStartTag at h
  split at h
  · simp at h
  · rename_i hcut
    have hlength := length_of_cutTag? hcut
    split at h <;>
    · simp only [bind, Except.bind, pure, Except.pure] at h
      split at h
      · simp at h
      · simp only [Except.ok.injEq, Prod.mk.injEq] at h
        rw [← h.2.2]
        exact hlength

theorem length_of_readMarkup {names names' : List String} {cs rest : List Char} {event : Event}
    (h : readMarkup names cs = .ok (event, names', rest)) : rest.length ≤ cs.length := by
  unfold readMarkup at h
  split at h
  · simp at h
  · exact Nat.le_succ_of_le (length_of_readBang h)
  · exact Nat.le_succ_of_le (length_of_readInstruction h)
  · exact Nat.le_succ_of_le (length_of_readEndTag h)
  · exact length_of_readStartTag h

theorem length_of_readText {names names' : List String} {c : Char} {cs rest : List Char}
    {event : Event} (h : readText names c cs = .ok (event, names', rest)) :
    rest.length ≤ cs.length := by
  unfold readText at h
  split at h
  · simp only [Except.ok.injEq, Prod.mk.injEq] at h
    rw [← h.2.2]
    exact length_dropWhile_le _ cs
  · simp at h

/-! ## The whole text -/

/-- Reads the part that starts with the character `c`. -/
def readStep (names : List String) (c : Char) (cs : List Char) : Except Fault Step :=
  if c = '<' then readMarkup names cs else readText names c cs

/-- A part takes at least its first character. -/
theorem length_of_readStep {names names' : List String} {c : Char} {cs rest : List Char}
    {event : Event} (h : readStep names c cs = .ok (event, names', rest)) :
    rest.length ≤ cs.length := by
  unfold readStep at h
  split at h
  · exact length_of_readMarkup h
  · exact length_of_readText h

/-- Reads the rest of a text, where `names` are the elements open before it, innermost first. -/
def scanFrom (names : List String) (cs : List Char) : EventStream :=
  match cs with
  | [] => ⟨[], none⟩
  | c :: cs =>
    match hstep : readStep names c cs with
    | .error fault => ⟨[], some fault⟩
    | .ok (event, names', rest) =>
      have : rest.length < (c :: cs).length := Nat.lt_succ_of_le (length_of_readStep hstep)
      let others := scanFrom names' rest
      ⟨event :: others.events, others.fault?⟩
termination_by cs.length
decreasing_by simp only [List.length_cons] at this; exact this

/-- Reads a text from its start. -/
def scanEvents (cs : List Char) : EventStream :=
  scanFrom [] cs

end BuildProject.Markup
