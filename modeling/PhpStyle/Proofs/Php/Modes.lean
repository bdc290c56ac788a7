import PhpStyle.Php.Lexer

/-!
# Modes of the lexer

The lexer moves a cursor. What its next lexeme is depends on the text ahead and on little else:
whether it is in text outside PHP, in code, or inside a comment. Each of these is a *mode*. A mode
measures the text ahead and takes one `Step`: it says of what kind the next lexeme is, how many
characters it has behind its first, and in which mode to go on. `lexFrom` takes one step after the
other. It is the form of the lexer that facts about whole files are proved of; that the cursor takes
these steps is proved of its readers.
-/

namespace PhpStyle.Php

/-- Where in a file the lexer stands. -/
inductive Mode
  /-- Text outside PHP. -/
  | html
  /-- Between an open tag and a close tag. -/
  | code
  /-- Inside a comment, at the start of one of its lines. -/
  | blockComment
  /-- Inside a documentation comment; the flag says that only blanks came since the line break. -/
  | docComment (lineStart : Bool)
  /-- Inside a documentation comment, behind the last visible character of a line. -/
  | docTail
  deriving DecidableEq, Repr

/-- The next lexeme, as measured on the text ahead. -/
structure Step where
  kind : Kind
  /-- Number of characters behind the first. -/
  extra : Nat
  next : Mode

namespace Lexer

/-- Number of characters at the start of a text that pass a test. -/
def run (test : Char → Bool) : List Char → Nat
  | [] => 0
  | c :: rest => if test c then run test rest + 1 else 0

/-- Length of the line break at the start of a text. -/
def lineBreakLength : List Char → Nat
  | '\r' :: '\n' :: _ => 2
  | '\n' :: _ => 1
  | _ => 0

/-- Length of a piece of text outside PHP: to the end of its line or up to an open tag. -/
def htmlLength : List Char → Nat
  | [] => 0
  | c :: rest =>
    if atOpenTag (c :: rest) then 0
    else if c = '\n' then 1 else htmlLength rest + 1

/-- Length of the blank or line break that the tag `<?php` takes with it. -/
def tagGap : List Char → Nat
  | ' ' :: _ | '\t' :: _ => 1
  | text => lineBreakLength text

/-- Where no blank follows a tag, the gap behind it is a line break or nothing. -/
theorem tagGap_of_ne {c : Char} (hc : c ≠ ' ' ∧ c ≠ '\t') (rest : List Char) :
    tagGap (c :: rest) = lineBreakLength (c :: rest) := by
  rw [tagGap]
  · rintro _ heq
    exact hc.1 (List.cons_eq_cons.mp heq).1
  · rintro _ heq
    exact hc.2 (List.cons_eq_cons.mp heq).1

/-- The step outside PHP. -/
def htmlStep (c : Char) (rest : List Char) : Step :=
  if at? "<?=" (c :: rest) then ⟨.openTagEcho, 2, .code⟩
  else if atPhpTag (c :: rest) then ⟨.openTag, 4 + tagGap (rest.drop 4), .code⟩
  else ⟨.inlineHtml, if c = '\n' then 0 else htmlLength rest, .html⟩

/-- Length of whitespace: blanks up to and with a line break. -/
def whitespaceLength : List Char → Nat
  | [] => 0
  | c :: rest => if c = '\n' then 1 else if isBlank c then whitespaceLength rest + 1 else 0

/-- Length of a comment to the end of its line, line break and all, or up to a close tag. -/
def lineCommentLength : List Char → Nat
  | [] => 0
  | c :: rest =>
    if at? "?>" (c :: rest) then 0
    else if c = '\n' then 1 else lineCommentLength rest + 1

/-- Length of one line of a comment, with the mode behind it. -/
def blockLine : List Char → Nat × Mode
  | [] => (0, .blockComment)
  | '\n' :: _ => (1, .blockComment)
  | '*' :: '/' :: _ => (2, .code)
  | _ :: rest => let (n, mode) := blockLine rest; (n + 1, mode)

/-- Length of what follows an opening quote, closing quote and all; a backslash takes the next
character with it. -/
def quotedLength (quote : Char) : List Char → Nat
  | [] => 0
  | '\\' :: _ :: rest => quotedLength quote rest + 2
  | c :: rest => if c = quote then 1 else quotedLength quote rest + 1

/-- Whether a text between double quotes holds a variable. -/
def interpolates : List Char → Bool
  | [] => false
  | '\\' :: _ :: rest => interpolates rest
  | '$' :: c :: rest => startsWord c || c == '{' || interpolates (c :: rest)
  | '{' :: '$' :: _ => true
  | c :: rest => c != '"' && interpolates rest

/-- Length of a heredoc: to the end of the first line that starts with its name. -/
def heredocLength (name : List Char) (lineStart : Bool) : List Char → Nat
  | [] => 0
  | c :: rest =>
    let indent := run isGap (c :: rest)
    let body := (c :: rest).drop indent
    let closes := lineStart && name.isPrefixOf body &&
      !(body.drop name.length).head?.any continuesWord
    if closes then indent + name.length
    else heredocLength name (c == '\n') rest + 1

/-- Length of the fraction at the start of a text. Two points are no fraction. -/
def fractionLength : List Char → Nat
  | '.' :: '.' :: _ => 0
  | '.' :: rest => run isDigitOrGroup rest + 1
  | _ => 0

/-- Length of the exponent at the start of a text. -/
def exponentLength : List Char → Nat
  | e :: rest =>
    let sign := match rest with
      | '+' :: _ | '-' :: _ => 1
      | _ => 0
    if (e == 'e' || e == 'E') && (rest.drop sign).head?.any Char.isDigit then
      1 + sign + run isDigitOrGroup (rest.drop sign)
    else 0
  | [] => 0

/-- Kind and length of the number at the start of a text. -/
def number (text : List Char) : Kind × Nat :=
  match text with
  | '0' :: base :: rest =>
    if isBase base then (.integer, 2 + run isHexOrGroup rest) else plain
  | _ => plain
where
  /-- A number in base ten. -/
  plain : Kind × Nat :=
    let whole := run isDigitOrGroup text
    let fraction := fractionLength (text.drop whole)
    let exponent := exponentLength (text.drop (whole + fraction))
    (if fraction + exponent = 0 then .integer else .decimal, whole + fraction + exponent)

/-- The step at an operator, or at a character that means nothing. -/
def operatorStep (text : List Char) : Step :=
  match operators.find? fun o => at? o.1 text with
  | some (op, kind) => ⟨kind, op.length - 1, .code⟩
  | none => ⟨.unknown, 0, .code⟩

/-- The step at a character of code that starts no comment, string or number. -/
def wordStep (c : Char) (rest : List Char) : Step :=
  if startsWord c then
    let extra := run continuesWord rest
    ⟨wordKind (c :: rest.take extra), extra, .code⟩
  else operatorStep (c :: rest)

/-- The step at a slash. -/
def slashStep (rest : List Char) : Step :=
  match rest with
  | '/' :: _ => ⟨.comment, lineCommentLength rest, .code⟩
  | '*' :: body =>
    if at? "*" body && (body.drop 1).head?.any (fun c => isBlank c || c == '\n') then
      ⟨.docOpen, 2, .docComment false⟩
    else let (n, mode) := blockLine body; ⟨.comment, n + 1, mode⟩
  | _ => operatorStep ('/' :: rest)

/-- The step in code. -/
def codeStep (c : Char) (rest : List Char) : Step :=
  if at? "?>" (c :: rest) then ⟨.closeTag, 1 + lineBreakLength (rest.drop 1), .html⟩
  else if isBlank c || c == '\n' then ⟨.whitespace, whitespaceLength (c :: rest) - 1, .code⟩
  else if c == '#' then
    if at? "[" rest then ⟨.attribute, 1, .code⟩ else ⟨.comment, lineCommentLength rest, .code⟩
  else if c == '/' then slashStep rest
  else if c == '$' && rest.head?.any startsWord then ⟨.variable, run continuesWord rest, .code⟩
  else if c == '\'' then ⟨.quotedString, quotedLength c rest, .code⟩
  else if c == '"' then
    ⟨if interpolates rest then .interpolatedString else .quotedString, quotedLength c rest, .code⟩
  else if c == '`' then ⟨.backtick, quotedLength c rest, .code⟩
  else if at? "<<<" (c :: rest) then
    match heredocName (rest.drop 2) with
    | [] => ⟨.shiftLeft, 1, .code⟩
    | name => ⟨.heredoc, heredocLength name false rest, .code⟩
  else if c.isDigit || (c == '.' && rest.head?.any Char.isDigit) then
    let (kind, length) := number (c :: rest)
    ⟨kind, length - 1, .code⟩
  else wordStep c rest

/-- The characters of a documentation comment up to the end of its line or of the comment. -/
def docLine : List Char → List Char
  | [] => []
  | '\n' :: _ | '\r' :: '\n' :: _ | '*' :: '/' :: _ => []
  | c :: rest => c :: docLine rest

/-- Number of characters of a list up to its last visible one. -/
def visibleLength : List Char → Nat
  | [] => 0
  | c :: rest =>
    let n := visibleLength rest
    if n = 0 && isBlank c then 0 else n + 1

/-- The step inside a documentation comment. A star is a mark of its own at the start of a line and
text elsewhere. -/
def docStep (lineStart : Bool) (c : Char) (rest : List Char) : Step :=
  if at? "*/" (c :: rest) then ⟨.docClose, 1, .code⟩
  else
    match lineBreakLength (c :: rest) with
    | n + 1 => ⟨.docWhitespace, n, .docComment true⟩
    | 0 =>
      if isBlank c then ⟨.docWhitespace, run isBlank rest, .docComment lineStart⟩
      else if c == '*' && lineStart then ⟨.docStar, 0, .docComment false⟩
      else if c == '@' && rest.head?.any startsTag then
        ⟨.docTag, run continuesTag rest, .docComment false⟩
      else ⟨.docText, visibleLength (docLine rest), .docTail⟩

/-- The step behind the text of a line of a documentation comment: the blanks up to its end. -/
def docTailStep (c : Char) (rest : List Char) : Step :=
  match docLine (c :: rest) with
  | _ :: blanks =>
    if isBlank c then ⟨.docWhitespace, blanks.length, .docComment false⟩ else docStep false c rest
  | [] => docStep false c rest

/-! ### The measures, one character at a time

A measure is defined by the first characters that matter to it. These equations say what it is at a
character that starts none of them, and that it counts the character where it should. -/

section

variable {c d : Char}

/-- What passes a test is what `run` counts. -/
theorem drop_run (test : Char → Bool) (text : List Char) :
    text.drop (run test text) = text.dropWhile test := by
  induction text with
  | nil => rfl
  | cons c text ih =>
    by_cases hc : test c = true
    · rw [run, if_pos hc, List.drop_succ_cons, List.dropWhile_cons_of_pos hc, ih]
    · rw [run, if_neg hc, List.drop_zero, List.dropWhile_cons_of_neg hc]

/-- The characters of a word that a text starts with. -/
theorem take_of_at? {word : String} {text : List Char} (h : at? word text = true) :
    text.take word.length = word.toList := by
  rw [at?, List.isPrefixOf_iff_prefix] at h
  rw [← String.length_toList]
  exact (List.prefix_iff_eq_take.mp h).symm

/-- A text starts with two characters if they are its first and the first behind it. -/
theorem at?_pair_iff {word : String} {p q : Char} (hword : word.toList = [p, q])
    {rest : List Char} : at? word (c :: rest) = true ↔ c = p ∧ rest.head? = some q := by
  rw [at?, hword, List.isPrefixOf_cons_cons, Bool.and_eq_true, beq_iff_eq, eq_comm]
  refine and_congr_right fun _ => ?_
  cases rest with
  | nil => simp
  | cons d rest =>
    rw [List.isPrefixOf_cons_cons, List.isPrefixOf_nil_left, Bool.and_true, beq_iff_eq]
    simp [eq_comm]

/-- Where the end of a comment stands. -/
theorem at?_close_iff {rest : List Char} :
    at? "*/" (c :: rest) = true ↔ c = '*' ∧ rest.head? = some '/' :=
  at?_pair_iff rfl

/-- Where a line break of two characters stands. -/
theorem at?_return_iff {rest : List Char} :
    at? "\r\n" (c :: rest) = true ↔ c = '\r' ∧ rest.head? = some '\n' :=
  at?_pair_iff rfl

/-- A line break is a line feed, or a carriage return in front of one. -/
theorem lineBreakLength_cons (d : Char) (rest : List Char) :
    lineBreakLength (d :: rest) =
      if d = '\n' then 1 else if d = '\r' ∧ rest.head? = some '\n' then 2 else 0 := by
  by_cases hbreak : d = '\n'
  · subst hbreak
    rfl
  rw [if_neg hbreak]
  by_cases hreturn : d = '\r' ∧ rest.head? = some '\n'
  · obtain ⟨rfl, hhead⟩ := hreturn
    obtain ⟨rest, rfl⟩ := List.head?_eq_some_iff.mp hhead
    rfl
  · rw [if_neg hreturn, lineBreakLength]
    · rintro _ heq
      obtain ⟨rfl, rfl⟩ := List.cons_eq_cons.mp heq
      exact hreturn ⟨rfl, rfl⟩
    · rintro _ heq
      exact hbreak (List.cons_eq_cons.mp heq).1

/-- A line of a documentation comment ends in front of a line break or the end of the comment. -/
theorem docLine_cons (d : Char) (rest : List Char) :
    docLine (d :: rest) =
      if d = '\n' ∨ d = '\r' ∧ rest.head? = some '\n' ∨ d = '*' ∧ rest.head? = some '/' then []
      else d :: docLine rest := by
  split
  · rename_i hends
    rcases hends with rfl | ⟨rfl, hhead⟩ | ⟨rfl, hhead⟩
    · rfl
    · obtain ⟨rest, rfl⟩ := List.head?_eq_some_iff.mp hhead
      rfl
    · obtain ⟨rest, rfl⟩ := List.head?_eq_some_iff.mp hhead
      rfl
  · rename_i hnot
    rw [docLine]
    · exact fun hbreak => hnot (.inl hbreak)
    · rintro _ hreturn rfl
      exact hnot (.inr (.inl ⟨hreturn, rfl⟩))
    · rintro _ hstar rfl
      exact hnot (.inr (.inr ⟨hstar, rfl⟩))

/-- A line goes on behind a beginning of it. -/
theorem docLine_append {a b : List Char} (h : a.length ≤ (docLine (a ++ b)).length) :
    docLine (a ++ b) = a ++ docLine b := by
  induction a with
  | nil => rfl
  | cons d a ih =>
    rw [List.cons_append, docLine_cons, List.length_cons] at h
    rw [List.cons_append, docLine_cons]
    split at h
    · simp at h
    · rename_i hends
      rw [if_neg hends, ih (by simpa using h), List.cons_append]

/-- Nothing is visible on a line of blanks. -/
theorem visibleLength_eq_zero_iff {a : List Char} :
    visibleLength a = 0 ↔ ∀ c ∈ a, isBlank c = true := by
  induction a with
  | nil => simp [visibleLength]
  | cons d a ih =>
    rw [visibleLength, List.forall_mem_cons, ← ih]
    split
    · rename_i hblank
      simpa [and_comm] using hblank
    · rename_i hvisible
      simpa [and_comm] using hvisible

/-- What is visible on a line to its end has only blanks behind it there. -/
theorem isBlank_of_visibleLength {a b : List Char}
    (h : visibleLength (docLine (a ++ b)) = a.length) :
    ∀ c ∈ docLine b, isBlank c = true := by
  induction a with
  | nil => exact visibleLength_eq_zero_iff.mp h
  | cons d a ih =>
    rw [List.cons_append, docLine_cons, List.length_cons] at h
    split at h
    · simp [visibleLength] at h
    rw [visibleLength] at h
    split at h
    · omega
    · exact ih (by omega)

/-- Whitespace that starts with a blank or a line break counts it. -/
theorem whitespaceLength_pos (hc : isBlank c = true ∨ c = '\n') (rest : List Char) :
    0 < whitespaceLength (c :: rest) := by
  rw [whitespaceLength]
  split
  · exact Nat.one_pos
  · rename_i hbreak
    rw [if_pos (hc.resolve_right hbreak)]
    exact Nat.succ_pos _

/-- A line of a comment counts its first character. -/
theorem blockLine_pos (c : Char) (rest : List Char) : 0 < (blockLine (c :: rest)).1 := by
  unfold blockLine
  split
  · rename_i heq
    cases heq
  · exact Nat.one_pos
  · exact Nat.two_pos
  · exact Nat.succ_pos _

/-- A character that neither breaks the line nor ends the comment is one more of its line. -/
theorem blockLine_cons {rest : List Char} (hbreak : d ≠ '\n')
    (hclose : ¬ (d = '*' ∧ rest.head? = some '/')) :
    blockLine (d :: rest) = ((blockLine rest).1 + 1, (blockLine rest).2) := by
  rw [blockLine]
  · simpa using hbreak
  · rintro rest' rfl rfl
    exact hclose ⟨rfl, rfl⟩

/-- A character that escapes nothing either closes the string or is one more of it. -/
theorem quotedLength_cons {quote : Char} (hd : d ≠ '\\') (rest : List Char) :
    quotedLength quote (d :: rest) = if d = quote then 1 else quotedLength quote rest + 1 := by
  rw [quotedLength]
  rintro _ _ rfl
  exact absurd rfl hd

/-- What follows an opening quote counts its first character. -/
theorem quotedLength_pos {quote c : Char} {rest : List Char} :
    0 < quotedLength quote (c :: rest) := by
  by_cases hc : c = '\\'
  · subst hc
    cases rest with
    | nil =>
      rw [quotedLength]
      · split <;> omega
      · simp
    | cons d rest => simp [quotedLength]
  · rw [quotedLength_cons hc]
    split <;> omega

/-- A character that cannot start a variable is passed over. -/
theorem interpolates_cons (hslash : d ≠ '\\') (hdollar : d ≠ '$') (hcurly : d ≠ '{')
    (rest : List Char) : interpolates (d :: rest) = (d != '"' && interpolates rest) := by
  rw [interpolates]
  · rintro _ _ rfl
    exact absurd rfl hslash
  · rintro _ _ rfl
    exact absurd rfl hdollar
  · rintro _ rfl
    exact absurd rfl hcurly

/-- A character that escapes nothing and ends nothing starts a variable, or is passed over. -/
theorem interpolates_eq (hslash : d ≠ '\\') (hquote : d ≠ '"') (rest : List Char) :
    interpolates (d :: rest) = (startsVariable d rest.head? || interpolates rest) := by
  by_cases hdollar : d = '$'
  · subst hdollar
    cases rest with
    | nil => rfl
    | cons e rest => simp [interpolates, startsVariable]
  by_cases hcurly : d = '{'
  · subst hcurly
    by_cases hvariable : rest.head? = some '$'
    · obtain ⟨rest, rfl⟩ := List.head?_eq_some_iff.mp hvariable
      rfl
    · rw [interpolates]
      · simp [startsVariable, hvariable]
      · simp
      · simp
      · rintro _ _ rfl
        exact hvariable rfl
  · have hquotes : (d != '"') = true := by simpa using hquote
    have hnone : startsVariable d rest.head? = false := by
      rw [startsVariable, beq_false_of_ne hdollar, beq_false_of_ne hcurly]
      simp
    rw [interpolates_cons hslash hdollar hcurly, hquotes, hnone, Bool.true_and, Bool.false_or]

/-- A heredoc ends where a line closes it; any other character is one more of it. -/
theorem heredocLength_cons (name : List Char) (lineStart : Bool) (c : Char) (rest : List Char) :
    heredocLength name lineStart (c :: rest) =
      if lineStart && closesHeredoc name (c :: rest) then run isGap (c :: rest) + name.length
      else heredocLength name (c == '\n') rest + 1 := by
  rw [closesHeredoc, ← drop_run, ← Bool.and_assoc]
  rfl

/-- The sign at the start of a text. -/
def signLength : List Char → Nat
  | '+' :: _ | '-' :: _ => 1
  | _ => 0

/-- An exponent is a letter, perhaps a sign, and digits. -/
theorem exponentLength_cons (e : Char) (rest : List Char) :
    exponentLength (e :: rest) =
      if (e == 'e' || e == 'E') && (rest.drop (signLength rest)).head?.any Char.isDigit then
        1 + signLength rest + run isDigitOrGroup (rest.drop (signLength rest))
      else 0 := by
  rfl

/-- Without a point there is no fraction. -/
theorem fractionLength_of_ne (hc : c ≠ '.') (rest : List Char) :
    fractionLength (c :: rest) = 0 := by
  rw [fractionLength]
  · rintro _ heq
    exact hc (List.cons_eq_cons.mp heq).1
  · rintro _ heq
    exact hc (List.cons_eq_cons.mp heq).1

/-- A point that is not one of two starts a fraction. -/
theorem fractionLength_point (hc : c ≠ '.') (rest : List Char) :
    fractionLength ('.' :: c :: rest) = run isDigitOrGroup (c :: rest) + 1 := by
  rw [fractionLength]
  rintro _ heq
  exact hc (List.cons_eq_cons.mp heq).1

/-- Two characters tell whether a number states its base. -/
theorem number_cons_cons (d e : Char) (rest : List Char) :
    number (d :: e :: rest) =
      if d = '0' ∧ isBase e then (.integer, 2 + run isHexOrGroup rest)
      else number.plain (d :: e :: rest) := by
  by_cases hd : d = '0'
  · subst hd
    simp [number]
  · rw [number, if_neg (by simp [hd])]
    rintro _ _ heq
    exact hd (List.cons_eq_cons.mp heq).1

end

end Lexer

/-- The next lexeme in a mode, of a text given as its first character and the rest. -/
def Mode.step (mode : Mode) (c : Char) (rest : List Char) : Step :=
  match mode with
  | .html => Lexer.htmlStep c rest
  | .code => Lexer.codeStep c rest
  | .blockComment => let (n, next) := Lexer.blockLine (c :: rest); ⟨.comment, n - 1, next⟩
  | .docComment lineStart => Lexer.docStep lineStart c rest
  | .docTail => Lexer.docTailStep c rest

/-- The lexemes of a text from a mode on. -/
def lexFrom (mode : Mode) (text : List Char) : List Lexeme :=
  match text with
  | [] => []
  | c :: rest =>
    let s := mode.step c rest
    ⟨s.kind, String.ofList (c :: rest.take s.extra)⟩ :: lexFrom s.next (rest.drop s.extra)
  termination_by text.length

end PhpStyle.Php
