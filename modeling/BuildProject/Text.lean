/-!
# Text

Character classes and small operations on texts that the whole library shares.

Texts are kept as `String` in the types of the domain and worked on as `List Char`. Three rules
about characters recur:

* **blank** is the Unicode property `White_Space`: 25 characters, among them U+0085, U+00A0,
  U+2003 and U+3000, but neither U+200B nor U+FEFF;
* **letter case** is ASCII only: `É` and `é` are different letters everywhere;
* **offsets** inside a text are counted in UTF-8 bytes.
-/

namespace BuildProject.Text

/-! ## White space -/

/-- Whether a character has the Unicode property `White_Space`. -/
def isBlank (c : Char) : Bool :=
  let n := c.toNat
  (0x09 ≤ n && n ≤ 0x0D) || n == 0x20 || n == 0x85 || n == 0xA0 || n == 0x1680 ||
    (0x2000 ≤ n && n ≤ 0x200A) || n == 0x2028 || n == 0x2029 || n == 0x202F || n == 0x205F ||
    n == 0x3000

/-- The characters from the first that is not blank on. -/
def trimStart (cs : List Char) : List Char :=
  cs.dropWhile isBlank

/-- The characters up to the last that is not blank. -/
def trimEnd (cs : List Char) : List Char :=
  (cs.reverse.dropWhile isBlank).reverse

/-- The characters between the first and the last that are not blank. -/
def trim (cs : List Char) : List Char :=
  trimEnd (trimStart cs)

/-- The text without blanks at its ends. -/
def trimmed (s : String) : String :=
  String.ofList (trim s.toList)

/-- Whether a text holds nothing but blanks. -/
def isAllBlank (s : String) : Bool :=
  s.toList.all isBlank

/-! ## Letter case -/

/-- The text with the letters `A` to `Z` made small; two texts are equal ignoring case when
their folded forms are equal. -/
def fold (s : String) : String :=
  String.ofList (s.toList.map Char.toLower)

/-- Equality that ignores the case of ASCII letters. -/
def sameIgnoringCase (a b : String) : Bool :=
  fold a == fold b

/-! ## Offsets -/

/-- The number of bytes that the characters take in UTF-8. -/
def byteLength (cs : List Char) : Nat :=
  (String.ofList cs).utf8ByteSize

/-! ## Cutting and joining -/

/-- The text before and the text after the first occurrence of `mark`, a mark of at least one
character. -/
def cutAt? (mark : List Char) : List Char → Option (List Char × List Char)
  | [] => none
  | c :: cs =>
    if mark.isPrefixOf (c :: cs) then some ([], (c :: cs).drop mark.length)
    else (cutAt? mark cs).map fun (before, after) => (c :: before, after)

/-- What stands after the first occurrence of a mark is no longer than the text. -/
theorem length_of_cutAt? {mark cs before after : List Char}
    (h : cutAt? mark cs = some (before, after)) : after.length ≤ cs.length := by
  induction cs generalizing before with
  | nil => simp [cutAt?] at h
  | cons c cs ih =>
    simp only [cutAt?] at h
    split at h
    · simp only [Option.some.injEq, Prod.mk.injEq] at h
      simp [← h.2]
    · obtain ⟨⟨b, a⟩, hcut, heq⟩ := Option.map_eq_some_iff.mp h
      simp only [Prod.mk.injEq] at heq
      have := ih (heq.2 ▸ hcut)
      simp only [List.length_cons]
      omega

/-- The last of the pieces that `isSeparator` cuts the characters into. -/
def lastPiece (isSeparator : Char → Bool) (cs : List Char) : List Char :=
  (cs.reverse.takeWhile (fun c => !isSeparator c)).reverse

/-- What remains after dropping characters is no longer than before. -/
theorem length_dropWhile_le (p : Char → Bool) (cs : List Char) :
    (cs.dropWhile p).length ≤ cs.length :=
  (List.dropWhile_sublist p).length_le

end BuildProject.Text
