/-!
# Token kinds

Every lexeme of a PHP file is classified by one of the kinds below. Two distinctions run through the
whole library: *trivia* (whitespace and every part of a comment) against code, and the three
families of brackets. Both are predicates here, so that rules never list the kinds themselves.
-/

namespace PhpStyle

/-- What a lexeme of a PHP file is. Kinds whose name starts with `kw` are keywords. -/
inductive Kind
  | inlineHtml | openTag | openTagEcho | closeTag | whitespace | comment | docOpen | docClose
  | docWhitespace | docStar | docTag | docText | attribute | variable | identifier
  | nsSeparator
  | integer | decimal | quotedString | interpolatedString | heredoc | kwAbstract | kwArray
  | kwAs | kwBreak | kwCase | kwCatch | kwClass | anonClass | kwClone | kwConst | kwContinue
  | kwDeclare | kwDefault | kwDo | kwEcho | kwElse | kwElseIf | kwEmpty | kwEndDeclare
  | kwEndFor | kwEndForeach | kwEndIf | kwEndSwitch | kwEndWhile | kwEnum | kwExtends | kwFalse
  | kwFinal | kwFinally | kwFn | kwFor | kwForeach | kwFunction | closure | kwGlobal | kwGoto
  | kwIf | kwImplements | kwInclude | kwIncludeOnce | kwInstanceOf | kwInsteadOf | kwInterface
  | kwIsset | kwList | logicalAnd | logicalOr | logicalXor | kwMatch | kwNamespace | kwNew
  | kwNull | kwParent | kwPrint | kwPrivate | kwProtected | kwPublic | kwReadonly | kwRequire
  | kwRequireOnce | kwReturn | kwSelf | kwStatic | kwSwitch | kwThrow | kwTrait | kwTrue
  | kwTry | kwUnset | kwUse | kwVar | kwWhile | kwYield | openCurly | closeCurly | openParen
  | closeParen | openSquare | closeSquare | semicolon | comma | colon | doubleColon
  | objectOperator | nullsafeObjectOperator | doubleArrow | assign | compoundAssign
  | booleanAnd | booleanOr | booleanNot | equal | notEqual | identical | notIdentical
  | lessThan | greaterThan | lessOrEqual | greaterOrEqual | spaceship | coalesce | question
  | plus | minus | multiply | divide | modulus | power | dot | increment | decrement
  | bitwiseAnd | bitwiseOr | bitwiseXor | bitwiseNot | shiftLeft | shiftRight | atSign
  | ellipsis | backtick | dollar | unknown
  deriving DecidableEq, Repr, Inhabited

namespace Kind

/-- Every kind, in order of declaration. -/
def all : List Kind :=
  [.inlineHtml, .openTag, .openTagEcho, .closeTag, .whitespace, .comment, .docOpen, .docClose,
   .docWhitespace, .docStar, .docTag, .docText, .attribute, .variable, .identifier, .nsSeparator,
   .integer, .decimal, .quotedString, .interpolatedString, .heredoc, .kwAbstract, .kwArray,
   .kwAs, .kwBreak, .kwCase, .kwCatch, .kwClass, .anonClass, .kwClone, .kwConst, .kwContinue,
   .kwDeclare, .kwDefault, .kwDo, .kwEcho, .kwElse, .kwElseIf, .kwEmpty, .kwEndDeclare,
   .kwEndFor, .kwEndForeach, .kwEndIf, .kwEndSwitch, .kwEndWhile, .kwEnum, .kwExtends,
   .kwFalse, .kwFinal, .kwFinally, .kwFn, .kwFor, .kwForeach, .kwFunction, .closure, .kwGlobal,
   .kwGoto, .kwIf, .kwImplements, .kwInclude, .kwIncludeOnce, .kwInstanceOf, .kwInsteadOf,
   .kwInterface, .kwIsset, .kwList, .logicalAnd, .logicalOr, .logicalXor, .kwMatch,
   .kwNamespace, .kwNew, .kwNull, .kwParent, .kwPrint, .kwPrivate, .kwProtected, .kwPublic,
   .kwReadonly, .kwRequire, .kwRequireOnce, .kwReturn, .kwSelf, .kwStatic, .kwSwitch, .kwThrow,
   .kwTrait, .kwTrue, .kwTry, .kwUnset, .kwUse, .kwVar, .kwWhile, .kwYield, .openCurly,
   .closeCurly, .openParen, .closeParen, .openSquare, .closeSquare, .semicolon, .comma, .colon,
   .doubleColon, .objectOperator, .nullsafeObjectOperator, .doubleArrow, .assign,
   .compoundAssign, .booleanAnd, .booleanOr, .booleanNot, .equal, .notEqual, .identical,
   .notIdentical, .lessThan, .greaterThan, .lessOrEqual, .greaterOrEqual, .spaceship,
   .coalesce, .question, .plus, .minus, .multiply, .divide, .modulus, .power, .dot, .increment,
   .decrement, .bitwiseAnd, .bitwiseOr, .bitwiseXor, .bitwiseNot, .shiftLeft, .shiftRight,
   .atSign, .ellipsis, .backtick, .dollar, .unknown]

/-- The name by which a kind is known outside the library. -/
def name : Kind → String
  | .inlineHtml => "InlineHtml"
  | .openTag => "OpenTag"
  | .openTagEcho => "OpenTagWithEcho"
  | .closeTag => "CloseTag"
  | .whitespace => "Whitespace"
  | .comment => "Comment"
  | .docOpen => "DocCommentOpenTag"
  | .docClose => "DocCommentCloseTag"
  | .docWhitespace => "DocCommentWhitespace"
  | .docStar => "DocCommentStar"
  | .docTag => "DocCommentTag"
  | .docText => "DocCommentString"
  | .attribute => "Attribute"
  | .variable => "Variable"
  | .identifier => "String"
  | .nsSeparator => "NsSeparator"
  | .integer => "LNumber"
  | .decimal => "DNumber"
  | .quotedString => "ConstantEncapsedString"
  | .interpolatedString => "DoubleQuotedString"
  | .heredoc => "Heredoc"
  | .kwAbstract => "Abstract"
  | .kwArray => "Array"
  | .kwAs => "As"
  | .kwBreak => "Break"
  | .kwCase => "Case"
  | .kwCatch => "Catch"
  | .kwClass => "Class"
  | .anonClass => "AnonClass"
  | .kwClone => "Clone"
  | .kwConst => "Const"
  | .kwContinue => "Continue"
  | .kwDeclare => "Declare"
  | .kwDefault => "Default"
  | .kwDo => "Do"
  | .kwEcho => "Echo"
  | .kwElse => "Else"
  | .kwElseIf => "ElseIf"
  | .kwEmpty => "Empty"
  | .kwEndDeclare => "EndDeclare"
  | .kwEndFor => "EndFor"
  | .kwEndForeach => "EndForeach"
  | .kwEndIf => "EndIf"
  | .kwEndSwitch => "EndSwitch"
  | .kwEndWhile => "EndWhile"
  | .kwEnum => "Enum"
  | .kwExtends => "Extends"
  | .kwFalse => "False"
  | .kwFinal => "Final"
  | .kwFinally => "Finally"
  | .kwFn => "Fn"
  | .kwFor => "For"
  | .kwForeach => "Foreach"
  | .kwFunction => "Function"
  | .closure => "Closure"
  | .kwGlobal => "Global"
  | .kwGoto => "Goto"
  | .kwIf => "If"
  | .kwImplements => "Implements"
  | .kwInclude => "Include"
  | .kwIncludeOnce => "IncludeOnce"
  | .kwInstanceOf => "InstanceOf"
  | .kwInsteadOf => "InsteadOf"
  | .kwInterface => "Interface"
  | .kwIsset => "Isset"
  | .kwList => "List"
  | .logicalAnd => "LogicalAnd"
  | .logicalOr => "LogicalOr"
  | .logicalXor => "LogicalXor"
  | .kwMatch => "Match"
  | .kwNamespace => "Namespace"
  | .kwNew => "New"
  | .kwNull => "Null"
  | .kwParent => "Parent"
  | .kwPrint => "Print"
  | .kwPrivate => "Private"
  | .kwProtected => "Protected"
  | .kwPublic => "Public"
  | .kwReadonly => "Readonly"
  | .kwRequire => "Require"
  | .kwRequireOnce => "RequireOnce"
  | .kwReturn => "Return"
  | .kwSelf => "SelfKeyword"
  | .kwStatic => "Static"
  | .kwSwitch => "Switch"
  | .kwThrow => "Throw"
  | .kwTrait => "Trait"
  | .kwTrue => "True"
  | .kwTry => "Try"
  | .kwUnset => "Unset"
  | .kwUse => "Use"
  | .kwVar => "Var"
  | .kwWhile => "While"
  | .kwYield => "Yield"
  | .openCurly => "OpenCurlyBracket"
  | .closeCurly => "CloseCurlyBracket"
  | .openParen => "OpenParenthesis"
  | .closeParen => "CloseParenthesis"
  | .openSquare => "OpenSquareBracket"
  | .closeSquare => "CloseSquareBracket"
  | .semicolon => "Semicolon"
  | .comma => "Comma"
  | .colon => "Colon"
  | .doubleColon => "DoubleColon"
  | .objectOperator => "ObjectOperator"
  | .nullsafeObjectOperator => "NullsafeObjectOperator"
  | .doubleArrow => "DoubleArrow"
  | .assign => "Equal"
  | .compoundAssign => "AssignOp"
  | .booleanAnd => "BooleanAnd"
  | .booleanOr => "BooleanOr"
  | .booleanNot => "BooleanNot"
  | .equal => "IsEqual"
  | .notEqual => "IsNotEqual"
  | .identical => "IsIdentical"
  | .notIdentical => "IsNotIdentical"
  | .lessThan => "LessThan"
  | .greaterThan => "GreaterThan"
  | .lessOrEqual => "IsSmallerOrEqual"
  | .greaterOrEqual => "IsGreaterOrEqual"
  | .spaceship => "Spaceship"
  | .coalesce => "Coalesce"
  | .question => "InlineThen"
  | .plus => "Plus"
  | .minus => "Minus"
  | .multiply => "Multiply"
  | .divide => "Divide"
  | .modulus => "Modulus"
  | .power => "Pow"
  | .dot => "StringConcat"
  | .increment => "Inc"
  | .decrement => "Dec"
  | .bitwiseAnd => "BitwiseAnd"
  | .bitwiseOr => "BitwiseOr"
  | .bitwiseXor => "BitwiseXor"
  | .bitwiseNot => "BitwiseNot"
  | .shiftLeft => "ShiftLeft"
  | .shiftRight => "ShiftRight"
  | .atSign => "Asperand"
  | .ellipsis => "Ellipsis"
  | .backtick => "Backtick"
  | .dollar => "Dollar"
  | .unknown => "Unknown"

/-- The kind with the given outside name. -/
def ofName? (s : String) : Option Kind :=
  all.find? fun k => k.name == s

/-- Comments of every form, with all parts of a documentation comment. -/
def isComment : Kind → Bool
  | .comment | .docOpen | .docClose | .docWhitespace | .docStar | .docTag | .docText => true
  | _ => false

/-- Whitespace and comments: what may stand between two tokens of code. -/
def isTrivia (k : Kind) : Bool :=
  k == .whitespace || k.isComment

/-- Tokens that open a bracketed group; an attribute opens with `#[`. -/
def opensGroup : Kind → Bool
  | .openCurly | .openParen | .openSquare | .attribute => true
  | _ => false

/-- Tokens that close a bracketed group. -/
def closesGroup : Kind → Bool
  | .closeCurly | .closeParen | .closeSquare => true
  | _ => false

/-- Declarations whose body holds members. -/
def isClassLike : Kind → Bool
  | .kwClass | .anonClass | .kwInterface | .kwTrait | .kwEnum => true
  | _ => false

/-- Operators that join two conditions. -/
def isBooleanOperator : Kind → Bool
  | .booleanAnd | .booleanOr | .logicalAnd | .logicalOr | .logicalXor => true
  | _ => false

end Kind

end PhpStyle
