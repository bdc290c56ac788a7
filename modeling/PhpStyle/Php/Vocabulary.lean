import PhpStyle.Token.Kind

/-!
# Words and operators of PHP

The keywords with their kinds, the operators with theirs, and the characters that words are made of.
-/

namespace PhpStyle.Php

/-- Operators and punctuation. An operator stands before those that it starts with, so the first
that fits is the longest. -/
def operators : List (String × Kind) :=
  [("===", .identical), ("!==", .notIdentical), ("<=>", .spaceship), ("**=", .compoundAssign),
   ("<<=", .compoundAssign), (">>=", .compoundAssign), ("??=", .compoundAssign),
   ("?->", .nullsafeObjectOperator), ("...", .ellipsis), ("==", .equal), ("!=", .notEqual),
   ("<>", .notEqual), ("<=", .lessOrEqual), (">=", .greaterOrEqual), ("&&", .booleanAnd),
   ("||", .booleanOr), ("??", .coalesce), ("->", .objectOperator), ("=>", .doubleArrow),
   ("::", .doubleColon), ("++", .increment), ("--", .decrement), ("+=", .compoundAssign),
   ("-=", .compoundAssign), ("*=", .compoundAssign), ("/=", .compoundAssign),
   (".=", .compoundAssign), ("%=", .compoundAssign), ("&=", .compoundAssign),
   ("|=", .compoundAssign), ("^=", .compoundAssign), ("<<", .shiftLeft), (">>", .shiftRight),
   ("**", .power), ("+", .plus), ("-", .minus), ("*", .multiply), ("/", .divide),
   ("%", .modulus), ("=", .assign), ("<", .lessThan), (">", .greaterThan), ("!", .booleanNot),
   (".", .dot), ("&", .bitwiseAnd), ("|", .bitwiseOr), ("^", .bitwiseXor), ("~", .bitwiseNot),
   ("?", .question), (":", .colon), (";", .semicolon), (",", .comma), ("(", .openParen),
   (")", .closeParen), ("[", .openSquare), ("]", .closeSquare), ("\x7b", .openCurly),
   ("\x7d", .closeCurly), ("@", .atSign), ("$", .dollar), ("\\", .nsSeparator)]

/-- Keywords in lower case. -/
def keywords : List (String × Kind) :=
  [("abstract", .kwAbstract), ("and", .logicalAnd), ("array", .kwArray), ("as", .kwAs),
   ("break", .kwBreak), ("case", .kwCase), ("catch", .kwCatch), ("class", .kwClass),
   ("clone", .kwClone), ("const", .kwConst), ("continue", .kwContinue), ("declare", .kwDeclare),
   ("default", .kwDefault), ("do", .kwDo), ("echo", .kwEcho), ("else", .kwElse),
   ("elseif", .kwElseIf), ("empty", .kwEmpty), ("enddeclare", .kwEndDeclare),
   ("endfor", .kwEndFor), ("endforeach", .kwEndForeach), ("endif", .kwEndIf),
   ("endswitch", .kwEndSwitch), ("endwhile", .kwEndWhile), ("enum", .kwEnum),
   ("extends", .kwExtends), ("false", .kwFalse), ("final", .kwFinal), ("finally", .kwFinally),
   ("fn", .kwFn), ("for", .kwFor), ("foreach", .kwForeach), ("function", .kwFunction),
   ("global", .kwGlobal), ("goto", .kwGoto), ("if", .kwIf), ("implements", .kwImplements),
   ("include", .kwInclude), ("include_once", .kwIncludeOnce), ("instanceof", .kwInstanceOf),
   ("insteadof", .kwInsteadOf), ("interface", .kwInterface), ("isset", .kwIsset),
   ("list", .kwList), ("match", .kwMatch), ("namespace", .kwNamespace), ("new", .kwNew),
   ("null", .kwNull), ("or", .logicalOr), ("parent", .kwParent), ("print", .kwPrint),
   ("private", .kwPrivate), ("protected", .kwProtected), ("public", .kwPublic),
   ("readonly", .kwReadonly), ("require", .kwRequire), ("require_once", .kwRequireOnce),
   ("return", .kwReturn), ("self", .kwSelf), ("static", .kwStatic), ("switch", .kwSwitch),
   ("throw", .kwThrow), ("trait", .kwTrait), ("true", .kwTrue), ("try", .kwTry),
   ("unset", .kwUnset), ("use", .kwUse), ("var", .kwVar), ("while", .kwWhile),
   ("xor", .logicalXor), ("yield", .kwYield)]

/-- Characters that can start a word: letters, the underscore and all that is not ASCII. -/
def startsWord (c : Char) : Bool :=
  c.isAlpha || c == '_' || 128 ≤ c.toNat

/-- Characters that can go on a word. -/
def continuesWord (c : Char) : Bool :=
  c.isAlphanum || c == '_' || 128 ≤ c.toNat

/-- What starts a word can go one on. -/
theorem continuesWord_of_startsWord {c : Char} (h : startsWord c = true) :
    continuesWord c = true := by
  simp only [startsWord, continuesWord, Char.isAlphanum, Bool.or_eq_true] at h ⊢
  rcases h with (hletter | hunderscore) | hwide
  · exact .inl (.inl (.inl hletter))
  · exact .inl (.inr hunderscore)
  · exact .inr hwide

/-- The kind of a word: that of the keyword it spells, in letters of either case, or an
identifier. -/
def wordKind (word : List Char) : Kind :=
  (keywords.lookup (String.ofList (word.map Char.toLower))).getD .identifier

end PhpStyle.Php
