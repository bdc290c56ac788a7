import PhpStyle.Token.Basic

/-!
# Words in context

The lexer takes every word that is spelled like a keyword for that keyword. Whether it is one
depends on its neighbours: names of members, functions and constants, and parts of a qualified name,
are identifiers however they are spelled; some words are keywords in one construct only; and
`function` and `class` have kinds of their own where they declare no name. Words are settled from
left to right, each by the settled kinds before it and the lexed kinds after it.
-/

namespace PhpStyle.Php

/-- Whether a lexeme is a word: an identifier or a keyword. -/
def isWord (l : Lexeme) : Bool :=
  !l.kind.isTrivia && l.kind != .inlineHtml &&
    l.text.toList.head?.any fun c => c.isAlpha || c == '_' || 128 ≤ c.toNat

namespace Words

/-- Pass over whitespace and comments. -/
def code (ls : List Lexeme) : List Lexeme :=
  ls.dropWhile fun l => l.kind.isTrivia

/-- The kind of the first lexeme of code. -/
def firstKind (ls : List Lexeme) : Option Kind :=
  (code ls).head?.map (·.kind)

/-- The kind of the first lexeme of code that is not, in first place, an `&`. -/
def kindPastReference (ls : List Lexeme) : Option Kind :=
  match code ls with
  | [] => none
  | l :: rest => if l.kind = .bitwiseAnd then firstKind rest else some l.kind

/-- Whether the word behind `before`, a reversed list, is the name of a function or constant. -/
def isDeclaredName (before : List Lexeme) : Bool :=
  match kindPastReference before with
  | some .kwFunction | some .kwConst => true
  | _ => false

/-- Whether the kind is that of an operator that selects a member. -/
def selectsMember : Kind → Bool
  | .objectOperator | .nullsafeObjectOperator | .doubleColon => true
  | _ => false

/-- Whether a word is a member's name; behind `::`, `class` stays a keyword. -/
def isMemberName (kind : Kind) (before : List Lexeme) : Bool :=
  (firstKind before).any fun k => selectsMember k && !(kind == .kwClass && k == .doubleColon)

/-- Whether a word is part of a qualified name. -/
def isQualified (kind : Kind) (before after : List Lexeme) : Bool :=
  kind != .kwNamespace &&
    (before.head?.any (·.kind == .nsSeparator) || after.head?.any (·.kind == .nsSeparator))

/-- The kind of a keyword in its construct. -/
def keywordKind (kind : Kind) (before after : List Lexeme) : Kind :=
  let next := firstKind after
  match kind with
  | .kwFunction => if kindPastReference after = some .openParen then .closure else kind
  | .kwClass => if firstKind before = some .kwNew then .anonClass else kind
  | .kwArray | .kwList | .kwMatch => if next = some .openParen then kind else .identifier
  | .kwEnum => if (code after).head?.any isWord then kind else .identifier
  | .kwReadonly => if next = some .openParen then .identifier else kind
  | .kwFn => if next = some .openParen ∨ next = some .bitwiseAnd then kind else .identifier
  | _ => kind

/-- The kind of a word between the settled lexemes before it, nearest first, and those after it. -/
def settledKind (kind : Kind) (before after : List Lexeme) : Kind :=
  if kind = .identifier then kind
  else if isMemberName kind before || isDeclaredName before || isQualified kind before after then
    .identifier
  else keywordKind kind before after

/-- Settle the words of `after`, given the settled lexemes before it, nearest first. -/
def settleFrom (before : List Lexeme) : List Lexeme → List Lexeme
  | [] => []
  | l :: after =>
    let settled := if isWord l then { l with kind := settledKind l.kind before after } else l
    settled :: settleFrom (settled :: before) after

end Words

/-- Give every word the kind that it has in its context. -/
def settleWords (lexemes : List Lexeme) : List Lexeme :=
  Words.settleFrom [] lexemes

end PhpStyle.Php
