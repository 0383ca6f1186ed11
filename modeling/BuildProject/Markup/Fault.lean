/-!
# Faults of markup

Everything that can be wrong with a text that should be markup, and the wording of each fault.
Positions are byte offsets: inside a tag they count from the byte after `<`, inside a reference
from the start of the text or value that holds it.
-/

namespace BuildProject.Markup

/-- What is wrong with the number of a character reference such as `&#65;`. -/
inductive CharRefFault where
  /-- The number has a sign. -/
  | sign
  /-- There is no number. -/
  | empty
  /-- A character is no digit of the base. -/
  | badDigit
  /-- The number needs more than 32 bits. -/
  | tooLarge
  /-- The number is zero. -/
  | zero
  /-- The number is a surrogate or lies beyond the last character. -/
  | notScalar (code : Nat)
deriving DecidableEq, Repr

/-- What is wrong with a reference in a text or in an attribute value. -/
inductive EntityFault where
  /-- An ampersand has no semicolon; the whole text ends at `stop`. -/
  | unterminated (start stop : Nat)
  /-- The name between `start` and `stop` is not predefined. -/
  | unknown (start stop : Nat) (name : String)
  /-- The number of a character reference is wrong. -/
  | charRef (fault : CharRefFault)
deriving DecidableEq, Repr

/-- What is wrong with the attributes of a tag. -/
inductive AttributeFault where
  /-- A key is followed neither by an equals sign nor by a space and one. -/
  | missingEquals (position : Nat)
  /-- A key is repeated. -/
  | duplicated (position previous : Nat)
  /-- Nothing follows an equals sign. -/
  | missingValue (position : Nat)
  /-- A value starts without a quote. -/
  | unquoted (position : Nat)
  /-- The quote that opened a value does not close it. -/
  | unclosedQuote (position : Nat) (quote : Char)
deriving DecidableEq, Repr

/-- What can be wrong with markup. -/
inductive Fault where
  /-- A tag does not end. -/
  | unclosedTag
  /-- A processing instruction or declaration does not end. -/
  | unclosedInstruction
  /-- An exclamation mark is followed by nothing that is known. -/
  | unknownMarkup
  /-- A comment does not end, or does not start properly. -/
  | unclosedComment
  /-- A character data section does not end, or does not start properly. -/
  | unclosedCData
  /-- A document type does not end, or does not start properly. -/
  | unclosedDoctype
  /-- An end tag names another element than the innermost open one. -/
  | mismatchedEnd (expected found : String)
  /-- An end tag stands where nothing is open. -/
  | unmatchedEnd (found : String)
  /-- A document type has no name. -/
  | namelessDoctype
  /-- A declaration has no attributes. -/
  | missingVersion
  /-- The first attribute of a declaration is not its version. -/
  | versionNotFirst (found : String)
  /-- The attributes of a tag or declaration are wrong. -/
  | attribute (fault : AttributeFault)
  /-- A reference is wrong. -/
  | entity (fault : EntityFault)
deriving DecidableEq, Repr

/-! ## Wording -/

/-- The text shown for a fault of a character reference. -/
def CharRefFault.message : CharRefFault → String
  | .sign => "invalid character reference: unexpected number sign"
  | .empty => "invalid character reference: cannot parse integer from empty string"
  | .badDigit => "invalid character reference: invalid digit found in string"
  | .tooLarge => "invalid character reference: number too large to fit in target type"
  | .zero => "invalid character reference: 0x0 character is not permitted in XML"
  | .notScalar code => s!"invalid character reference: `{code}` is not a valid codepoint"

/-- The text shown for a fault of a reference. -/
def EntityFault.message : EntityFault → String
  | .unterminated start stop =>
    s!"Error while escaping character at range {start}..{stop}: Cannot find ';' after '&'"
  | .unknown start stop name => s!"at {start}..{stop}: unrecognized entity `{name}`"
  | .charRef fault => fault.message

/-- The text shown for a fault of attributes. -/
def AttributeFault.message : AttributeFault → String
  | .missingEquals position =>
    s!"position {position}: attribute key must be directly followed by `=` or space"
  | .duplicated position previous =>
    s!"position {position}: duplicated attribute, previous declaration at position {previous}"
  | .missingValue position => s!"position {position}: `=` must be followed by an attribute value"
  | .unquoted position =>
    s!"position {position}: attribute value must be enclosed in `\"` or `'`"
  | .unclosedQuote position quote =>
    s!"position {position}: missing closing quote `{quote}` in attribute value"

/-- The text shown for a fault of markup. -/
def Fault.message : Fault → String
  | .unclosedTag => "syntax error: tag not closed: `>` not found before end of input"
  | .unclosedInstruction =>
    "syntax error: processing instruction or xml declaration not closed: " ++
      "`?>` not found before end of input"
  | .unknownMarkup => "syntax error: unknown or missed symbol in markup"
  | .unclosedComment => "syntax error: comment not closed: `-->` not found before end of input"
  | .unclosedCData => "syntax error: CDATA not closed: `]]>` not found before end of input"
  | .unclosedDoctype => "syntax error: DOCTYPE not closed: `>` not found before end of input"
  | .mismatchedEnd expected found =>
    s!"ill-formed document: expected `</{expected}>`, but `</{found}>` was found"
  | .unmatchedEnd found =>
    s!"ill-formed document: close tag `</{found}>` does not match any open tag"
  | .namelessDoctype =>
    "ill-formed document: `<!DOCTYPE>` declaration does not contain a name of a document type"
  | .versionNotFirst found =>
    "ill-formed document: an XML declaration must start with `version` attribute, " ++
      s!"but in starts with `{found}`"
  | .missingVersion =>
    "ill-formed document: an XML declaration does not contain `version` attribute"
  | .attribute fault => s!"error while parsing attribute: {fault.message}"
  | .entity fault => fault.message

end BuildProject.Markup
