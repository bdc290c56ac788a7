import PhpStyle.Token.Kind

/-!
# Tokens and their positions

A lexer produces *lexemes*: a kind and a text. A *token* is a lexeme that knows where it stands: its
line, its column in characters and its offset in bytes. Positions follow from the texts alone, so
`Token.layout` computes them for a whole file, and the source is the concatenation of the texts.
-/

namespace PhpStyle

/-- A classified piece of text, before its position is known. -/
structure Lexeme where
  kind : Kind
  text : String
  deriving DecidableEq, Repr, Inhabited

/-- A place between two characters of a text. -/
structure Place where
  /-- Line, counted from one. -/
  line : Nat
  /-- Column in characters, counted from one. -/
  column : Nat
  /-- Distance from the start in bytes of UTF-8. -/
  offset : Nat
  deriving DecidableEq, Repr

namespace Place

/-- The place before the first character. -/
def start : Place := ⟨1, 1, 0⟩

/-- The place after one more character; a line break starts the next line. -/
def step (p : Place) (c : Char) : Place :=
  if c = '\n' then ⟨p.line + 1, 1, p.offset + c.utf8Size⟩
  else ⟨p.line, p.column + 1, p.offset + c.utf8Size⟩

/-- The place after a whole text. -/
def after (p : Place) (text : String) : Place :=
  text.toList.foldl step p

end Place

/-- A lexeme together with the place of its first character. -/
structure Token where
  kind : Kind
  text : String
  line : Nat
  column : Nat
  /-- Length in characters. -/
  length : Nat
  /-- Offset of the first byte. -/
  offset : Nat
  deriving DecidableEq, Repr

namespace Token

/-- What is found where no token is: no text, and a kind that no rule asks for. -/
def absent : Token := ⟨.unknown, "", 0, 0, 0, 0⟩

instance : Inhabited Token := ⟨absent⟩

/-- A lexeme put at a place. -/
def put (p : Place) (l : Lexeme) : Token :=
  ⟨l.kind, l.text, p.line, p.column, l.text.length, p.offset⟩

/-- Lexemes put one after the other, the first at the given place. -/
def layoutFrom : Place → List Lexeme → List Token
  | _, [] => []
  | p, l :: rest => put p l :: layoutFrom (p.after l.text) rest

/-- The tokens of a file made of these lexemes. -/
def layout (lexemes : List Lexeme) : List Token :=
  layoutFrom .start lexemes

/-- Whitespace or part of a comment. -/
def isTrivia (t : Token) : Bool := t.kind.isTrivia

/-- Offset one past the last byte. -/
def endOffset (t : Token) : Nat := t.offset + t.text.utf8ByteSize

/-- Line of the last character; a line break sits on the line that it ends. -/
def endLine (t : Token) : Nat :=
  let breaks := t.text.toList.count '\n'
  if t.text.toList.getLast? = some '\n' then t.line + breaks - 1 else t.line + breaks

/-- Whether the last character is a line break. -/
def endsLine (t : Token) : Bool :=
  t.text.toList.getLast? == some '\n'

end Token

end PhpStyle
