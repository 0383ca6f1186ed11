import BuildProject.Document

/-!
# Writing documents

A document is written as a row of pieces: tags, comments, declaration, text. A piece of markup
goes on a line of its own, two blanks deeper for each element around it, unless the piece before it
is text or character data; so no blank is ever added to a text. The first piece starts the text,
and a line break ends it.

Texts and attribute values are escaped, everything else is written as it is.
-/

namespace BuildProject

open Markup

/-! ## Pieces -/

/-- Something that is written in one go. -/
inductive Piece where
  /-- Markup that may start a line, inside `depth` elements. -/
  | markup (depth : Nat) (body : List Char)
  /-- Text or character data, where line breaks would count. -/
  | text (body : List Char)
deriving DecidableEq, Repr

/-- Writes an attribute with a blank before it. -/
def printAttribute (name value : List Char) : List Char :=
  ' ' :: name ++ ['=', '"'] ++ value ++ ['"']

/-- What stands between the angle brackets of a start tag. -/
def printTag (tag : Tag) : List Char :=
  tag.name.toList ++
    tag.attributes.flatMap fun a => printAttribute a.name.toList (escapeValue a.value.toList)

/-- Writes a comment. -/
def printComment (content : String) : List Char :=
  "<!--".toList ++ content.toList ++ "-->".toList

/-- Writes a declaration. Its values are not escaped. -/
def printDeclaration (d : Declaration) : List Char :=
  "<?xml".toList ++ printAttribute "version".toList d.version.toList ++
    (d.encoding?.elim [] fun v => printAttribute "encoding".toList v.toList) ++
    (d.standalone?.elim [] fun v => printAttribute "standalone".toList v.toList) ++
    "?>".toList

/-- The piece that a leaf makes. -/
def Leaf.piece (depth : Nat) : Leaf → Piece
  | .text content => .text (escapeText content.toList)
  | .cdata content => .text ("<![CDATA[".toList ++ content.toList ++ "]]>".toList)
  | .comment content => .markup depth (printComment content)

/-- The pieces of a forest inside `depth` elements. An element without any node below it is one
empty tag. -/
def Forest.pieces (depth : Nat) : Forest → List Piece
  | .nil => []
  | .element _ tag .nil rest =>
    .markup depth ('<' :: printTag tag ++ ['/', '>']) :: pieces depth rest
  | .element _ tag content rest =>
    .markup depth ('<' :: printTag tag ++ ['>']) ::
      (pieces (depth + 1) content ++
        .markup depth ('<' :: '/' :: tag.name.toList ++ ['>']) :: pieces depth rest)
  | .leaf _ l rest => l.piece depth :: pieces depth rest

/-- The pieces of a document. -/
def DocumentContent.pieces (d : DocumentContent) : List Piece :=
  (d.declaration?.elim [] fun declaration => [.markup 0 (printDeclaration declaration)]) ++
    d.prolog.map (fun comment => .markup 0 (printComment comment)) ++
    (Forest.ofElement d.tree.root).pieces 0

/-! ## Lines -/

/-- A line break and the indentation for `depth`. -/
def indentation (depth : Nat) : List Char :=
  '\n' :: List.replicate (2 * depth) ' '

/-- Writes pieces one after the other; `breaks` says whether a line may start before the next. -/
def layout (breaks : Bool) : List Piece → List Char
  | [] => []
  | .markup depth body :: pieces =>
    (if breaks then indentation depth else []) ++ body ++ layout true pieces
  | .text body :: pieces => body ++ layout false pieces

/-- The text of a document. -/
def DocumentContent.render (d : DocumentContent) : String :=
  String.ofList (layout false d.pieces ++ ['\n'])

end BuildProject
