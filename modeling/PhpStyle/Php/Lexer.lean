import PhpStyle.Php.Cursor
import PhpStyle.Php.Vocabulary

/-!
# Lexing PHP

A cursor goes through a source once. Outside PHP it cuts off a lexeme for each line, up to an open
tag; from there it takes one lexeme after the other, each with a reader of its own, up to and with a
close tag. A reader remembers where it started, reads on, and emits what it has passed. What no rule
knows is a lexeme of unknown kind, and what is not closed goes on to the end of the source.

The loops end because every turn leaves fewer characters ahead. That is a lemma beside each reader,
and the loops around the readers rest on it.
-/

namespace PhpStyle.Php

namespace Lexer

/-- Whether a text starts with these characters. -/
def at? (word : String) (text : List Char) : Bool :=
  word.toList.isPrefixOf text

/-- Blanks within a line; a carriage return counts as one. -/
def isBlank (c : Char) : Bool :=
  c == ' ' || c == '\t' || c == '\r'

/-- Blanks that may stand in front of the name of a heredoc. -/
def isGap (c : Char) : Bool :=
  c == ' ' || c == '\t'

/-- Whether a text starts with the tag `<?php`, in letters of either case. -/
def atPhpTag (text : List Char) : Bool :=
  (text.take 5).map Char.toLower == "<?php".toList

/-- Whether a text starts with a tag that opens code. -/
def atOpenTag (text : List Char) : Bool :=
  at? "<?=" text || atPhpTag text

/-- Whether a variable starts at a character between double quotes, given the character behind
it. -/
def startsVariable (ch : Char) (next : Option Char) : Bool :=
  ch == '$' && next.any (fun c => startsWord c || c == '{') || ch == '{' && next == some '$'

/-- The name that ends a heredoc, read behind `<<<`. It may stand in quotes. -/
def heredocName (header : List Char) : List Char :=
  let unquoted := match header.dropWhile isGap with
    | '\'' :: name | '"' :: name => name
    | name => name
  match unquoted with
  | c :: _ => if startsWord c then unquoted.takeWhile continuesWord else []
  | [] => []

/-- Whether a line closes the heredoc of this name. -/
def closesHeredoc (name line : List Char) : Bool :=
  name.isPrefixOf (line.dropWhile isGap) &&
    !((line.dropWhile isGap).drop name.length).head?.any continuesWord

/-- Digits, which may be grouped by underscores. -/
def isDigitOrGroup (c : Char) : Bool := c.isDigit || c == '_'

/-- Digits of any base, which may be grouped by underscores. -/
def isHexOrGroup (c : Char) : Bool :=
  c.isDigit || ('a' ≤ c && c ≤ 'f') || ('A' ≤ c && c ≤ 'F') || c == '_'

/-- Letters that state the base of a number behind a zero. -/
def isBase (c : Char) : Bool := "xXbBoO".toList.contains c

/-- Characters that can start the name of a tag. -/
def startsTag (c : Char) : Bool := c.isAlpha || c == '_' || c == '\\'

/-- Characters that can go on the name of a tag. -/
def continuesTag (c : Char) : Bool :=
  c.isAlphanum || c == '-' || c == '_' || c == '\\' || c == ':'

end Lexer

open Lexer

namespace Cursor

variable {source : String}

/-- Whether the text ahead starts with these characters. -/
def at? (c : Cursor source) (word : String) : Bool :=
  Lexer.at? word c.ahead

/-- A cursor at a word has characters ahead. -/
theorem ahead_ne_nil_of_at? {c : Cursor source} {word : String} (h : c.at? word = true)
    (hword : word ≠ "" := by decide) : c.ahead ≠ [] := by
  intro hnil
  rw [at?, Lexer.at?, hnil, List.isPrefixOf_iff_prefix, List.prefix_nil,
    String.toList_eq_nil_iff] at h
  exact hword h

/-! ### Outside PHP -/

/-- Text outside PHP, a lexeme for each line, up to an open tag or the end. The line being read
began at `start`. -/
def lexHtmlLines (start : Nat) (c : Cursor source) : Cursor source :=
  if _ : c.position < source.utf8ByteSize then
    if atOpenTag c.ahead then c.emit .inlineHtml start
    else if c.peek = some '\n' then
      (c.advance.emit .inlineHtml start).lexHtmlLines c.advance.position
    else c.advance.lexHtmlLines start
  else c.emit .inlineHtml start
termination_by c.ahead.length
decreasing_by
  · rw [ahead_emit]
    exact length_advance_lt (position_lt_iff.mp ‹_›)
  · exact length_advance_lt (position_lt_iff.mp ‹_›)

/-- The blank or line break that belongs to the tag `<?php`. -/
def skipTagBlank (c : Cursor source) : Cursor source :=
  if c.at? "\r\n" then c.skip 2
  else if c.peek = some ' ' ∨ c.peek = some '\t' ∨ c.peek = some '\n' then c.advance
  else c

/-- An open tag, if the cursor stands at one. -/
def lexOpenTag (c : Cursor source) : Cursor source :=
  if c.at? "<?=" then (c.skip 3).emit .openTagEcho c.position
  else if atPhpTag c.ahead then (c.skip 5).skipTagBlank.emit .openTag c.position
  else c

/-- Text outside PHP, and the open tag behind it. -/
def lexInlineHtml (c : Cursor source) : Cursor source :=
  (c.lexHtmlLines c.position).lexOpenTag

/-- Reading lines of template text never goes back. -/
theorem length_lexHtmlLines_le (start : Nat) (c : Cursor source) :
    (c.lexHtmlLines start).ahead.length ≤ c.ahead.length := by
  fun_induction lexHtmlLines start c with
  | case1 start c h hopen => exact Nat.le_of_eq (congrArg _ (ahead_emit c _ _))
  | case2 start c h hopen hbreak ih =>
    rw [ahead_emit] at ih
    exact Nat.le_trans ih (length_advance_le c)
  | case3 start c h hopen hbreak ih => exact Nat.le_trans ih (length_advance_le c)
  | case4 start c h => exact Nat.le_of_eq (congrArg _ (ahead_emit c _ _))

/-- Away from an open tag a character of text is read. -/
theorem length_lexHtmlLines_lt {start : Nat} {c : Cursor source}
    (h : c.position < source.utf8ByteSize) (hopen : ¬ atOpenTag c.ahead = true) :
    (c.lexHtmlLines start).ahead.length < c.ahead.length := by
  have hlt := length_advance_lt (position_lt_iff.mp h)
  rw [lexHtmlLines, dif_pos h, if_neg hopen]
  split
  · have hle := length_lexHtmlLines_le c.advance.position (c.advance.emit .inlineHtml start)
    rw [ahead_emit] at hle
    exact Nat.lt_of_le_of_lt hle hlt
  · exact Nat.lt_of_le_of_lt (length_lexHtmlLines_le _ _) hlt

/-- Skipping the blank behind a tag never goes back. -/
theorem length_skipTagBlank_le (c : Cursor source) :
    c.skipTagBlank.ahead.length ≤ c.ahead.length := by
  unfold skipTagBlank
  split
  · exact length_skip_le 2 c
  split
  · exact length_advance_le c
  · exact Nat.le_refl _

/-- A cursor at an open tag has characters ahead. -/
theorem ahead_ne_nil_of_atPhpTag {c : Cursor source} (h : atPhpTag c.ahead = true) :
    c.ahead ≠ [] := by
  intro hnil
  rw [hnil] at h
  exact absurd h (by decide)

/-- Reading an open tag never goes back. -/
theorem length_lexOpenTag_le (c : Cursor source) :
    c.lexOpenTag.ahead.length ≤ c.ahead.length := by
  unfold lexOpenTag
  split
  · rw [ahead_emit]
    exact length_skip_le 3 c
  split
  · rw [ahead_emit]
    exact Nat.le_trans (length_skipTagBlank_le _) (length_skip_le 5 c)
  · exact Nat.le_refl _

/-- An open tag is read. -/
theorem length_lexOpenTag_lt {c : Cursor source} (h : atOpenTag c.ahead = true) :
    c.lexOpenTag.ahead.length < c.ahead.length := by
  unfold lexOpenTag
  split
  · rename_i hecho
    rw [ahead_emit]
    exact length_skip_lt (by decide) (ahead_ne_nil_of_at? hecho)
  split
  · rename_i htag
    rw [ahead_emit]
    exact Nat.lt_of_le_of_lt (length_skipTagBlank_le _)
      (length_skip_lt (by decide) (ahead_ne_nil_of_atPhpTag htag))
  · rename_i hecho htag
    rw [atOpenTag, Bool.or_eq_true] at h
    exact absurd h (not_or.mpr ⟨hecho, htag⟩)

/-- Before the end of the source either text outside PHP or an open tag is read. -/
theorem length_lexInlineHtml_lt {c : Cursor source} (h : c.position < source.utf8ByteSize) :
    c.lexInlineHtml.ahead.length < c.ahead.length := by
  by_cases hopen : atOpenTag c.ahead = true
  · have hstays : (c.lexHtmlLines c.position).ahead = c.ahead := by
      rw [lexHtmlLines, dif_pos h, if_pos hopen, ahead_emit]
    have hlt := length_lexOpenTag_lt (hstays.symm ▸ hopen)
    rwa [hstays] at hlt
  · exact Nat.lt_of_le_of_lt (length_lexOpenTag_le _) (length_lexHtmlLines_lt h hopen)

/-! ### Whitespace and comments -/

/-- The line break that ends a lexeme, if one is next. -/
def skipNewline (c : Cursor source) : Cursor source :=
  if c.peek = some '\n' then c.advance else c

/-- Blanks up to and with a line break. -/
def lexWhitespace (c : Cursor source) : Cursor source :=
  (c.advanceWhile isBlank).skipNewline.emit .whitespace c.position

/-- Read to the end of the line, line break and all, or up to a close tag. -/
def passLineComment (c : Cursor source) : Cursor source :=
  match _ : c.peek with
  | none => c
  | some ch =>
    if c.at? "?>" then c
    else if ch = '\n' then c.advance
    else c.advance.passLineComment
termination_by c.ahead.length
decreasing_by exact length_advance_lt (ahead_ne_nil_of_peek ‹_›)

/-- A comment that ends with its line. -/
def lexLineComment (c : Cursor source) : Cursor source :=
  c.passLineComment.emit .comment c.position

/-- The lines of a comment, a lexeme for each, up to its end or that of the source. The line being
read began at `start`. -/
def lexCommentLines (start : Nat) (c : Cursor source) : Cursor source :=
  if _ : c.position < source.utf8ByteSize then
    if c.at? "*/" then (c.skip 2).emit .comment start
    else if c.peek = some '\n' then
      (c.advance.emit .comment start).lexCommentLines c.advance.position
    else c.advance.lexCommentLines start
  else c.emit .comment start
termination_by c.ahead.length
decreasing_by
  · rw [ahead_emit]
    exact length_advance_lt (position_lt_iff.mp ‹_›)
  · exact length_advance_lt (position_lt_iff.mp ‹_›)

/-- A comment between marks. -/
def lexBlockComment (c : Cursor source) : Cursor source :=
  (c.skip 2).lexCommentLines c.position

/-- Skipping a line break never goes back. -/
theorem length_skipNewline_le (c : Cursor source) :
    c.skipNewline.ahead.length ≤ c.ahead.length := by
  unfold skipNewline
  split
  · exact length_advance_le c
  · exact Nat.le_refl _

/-- Reading whitespace moves on, as it takes the blank or the line break that it starts at. -/
theorem length_lexWhitespace_lt {c : Cursor source} {ch : Char} (h : c.peek = some ch)
    (hblank : isBlank ch = true ∨ ch = '\n') :
    c.lexWhitespace.ahead.length < c.ahead.length := by
  rw [lexWhitespace, ahead_emit]
  by_cases htest : isBlank ch = true
  · exact Nat.lt_of_le_of_lt (length_skipNewline_le _) (length_advanceWhile_lt h htest)
  · obtain rfl : ch = '\n' := hblank.resolve_left htest
    have hstays : c.advanceWhile isBlank = c := by
      rw [advanceWhile]
      split
      · rfl
      · rename_i found hfound
        obtain rfl : found = '\n' := Option.some.inj (hfound.symm.trans h)
        rfl
    rw [hstays, skipNewline, if_pos h]
    exact length_advance_lt (ahead_ne_nil_of_peek h)

/-- Passing a line comment never goes back. -/
theorem length_passLineComment_le (c : Cursor source) :
    c.passLineComment.ahead.length ≤ c.ahead.length := by
  fun_induction passLineComment c with
  | case1 c h => exact Nat.le_refl _
  | case2 c ch h hclose => exact Nat.le_refl _
  | case3 c h hclose => exact length_advance_le c
  | case4 c ch h hclose hbreak ih => exact Nat.le_trans ih (length_advance_le c)

/-- Reading a line comment moves on unless a close tag ends it where it starts. -/
theorem length_lexLineComment_lt {c : Cursor source} (h : c.ahead ≠ [])
    (hclose : ¬ c.at? "?>" = true) : c.lexLineComment.ahead.length < c.ahead.length := by
  have hlt := length_advance_lt h
  rw [lexLineComment, ahead_emit, passLineComment]
  split
  · rename_i hnone
    exact absurd (List.head?_eq_none_iff.mp hnone) h
  · rw [if_neg hclose]
    split
    · exact hlt
    · exact Nat.lt_of_le_of_lt (length_passLineComment_le _) hlt

/-- Reading lines of a block comment never goes back. -/
theorem length_lexCommentLines_le (start : Nat) (c : Cursor source) :
    (c.lexCommentLines start).ahead.length ≤ c.ahead.length := by
  fun_induction lexCommentLines start c with
  | case1 start c h hclose =>
    rw [ahead_emit]
    exact length_skip_le 2 c
  | case2 start c h hclose hbreak ih =>
    rw [ahead_emit] at ih
    exact Nat.le_trans ih (length_advance_le c)
  | case3 start c h hclose hbreak ih => exact Nat.le_trans ih (length_advance_le c)
  | case4 start c h => exact Nat.le_of_eq (congrArg _ (ahead_emit c _ _))

/-- Reading a block comment moves on. -/
theorem length_lexBlockComment_lt {c : Cursor source} (h : c.ahead ≠ []) :
    c.lexBlockComment.ahead.length < c.ahead.length :=
  Nat.lt_of_le_of_lt (length_lexCommentLines_le _ _) (length_skip_lt (by decide) h)

/-! ### Documentation comments -/

/-- Read the text of a line of a documentation comment, blanks at its end included. The second
component is the position behind its last visible character, `stop` as long as there is none. -/
def passDocText (stop : Nat) (c : Cursor source) : Cursor source × Nat :=
  match _ : c.peek with
  | none => (c, stop)
  | some ch =>
    if ch = '\n' ∨ c.at? "\r\n" = true ∨ c.at? "*/" = true then (c, stop)
    else c.advance.passDocText (if isBlank ch then stop else c.advance.position)
termination_by c.ahead.length
decreasing_by exact length_advance_lt (ahead_ne_nil_of_peek ‹_›)

/-- The text of a line of a documentation comment, and the blanks at its end as a lexeme of their
own. -/
def lexDocString (c : Cursor source) : Cursor source :=
  let (d, stop) := c.passDocText c.position
  let text := d.push .docText c.position stop
  if stop < d.position then text.push .docWhitespace stop d.position else text

/-- One part of a documentation comment, and whether only blanks came since the last line break. -/
def lexDocPart (lineStart : Bool) (c : Cursor source) : Cursor source × Bool :=
  match c.peek with
  | none => (c, lineStart)
  | some ch =>
    if ch = '\n' then (c.advance.emit .docWhitespace c.position, true)
    else if c.at? "\r\n" then ((c.skip 2).emit .docWhitespace c.position, true)
    else if isBlank ch then
      ((c.advanceWhile isBlank).emit .docWhitespace c.position, lineStart)
    else if ch = '*' ∧ lineStart = true then (c.advance.emit .docStar c.position, false)
    else if ch = '@' ∧ (c.peekAt 1).any startsTag = true then
      ((c.advance.advanceWhile continuesTag).emit .docTag c.position, false)
    else (c.lexDocString, false)

/-- Passing the text of a documentation line never goes back. -/
theorem length_passDocText_le (stop : Nat) (c : Cursor source) :
    (c.passDocText stop).1.ahead.length ≤ c.ahead.length := by
  fun_induction passDocText stop c with
  | case1 stop c h => exact Nat.le_refl _
  | case2 stop c ch h hends => exact Nat.le_refl _
  | case3 stop c ch h hends ih => exact Nat.le_trans ih (length_advance_le c)

/-- What is ahead behind the text of a documentation line is what is ahead once it is passed: the
two pushes do not move the cursor. -/
theorem ahead_lexDocString (c : Cursor source) :
    c.lexDocString.ahead = (c.passDocText c.position).1.ahead := by
  rw [lexDocString]
  split
  rename_i d stop heq
  rw [heq]
  dsimp only
  split <;> rfl

/-- Reading the text of a documentation line moves on unless the line or the comment ends where it
starts. -/
theorem length_lexDocString_lt {c : Cursor source} {ch : Char} (h : c.peek = some ch)
    (hends : ¬ (ch = '\n' ∨ c.at? "\r\n" = true ∨ c.at? "*/" = true)) :
    c.lexDocString.ahead.length < c.ahead.length := by
  rw [ahead_lexDocString, passDocText]
  split
  · rename_i hnone
    rw [h] at hnone
    cases hnone
  · rename_i found hfound
    obtain rfl : found = ch := Option.some.inj (hfound.symm.trans h)
    rw [if_neg hends]
    exact Nat.lt_of_le_of_lt (length_passDocText_le _ _)
      (length_advance_lt (ahead_ne_nil_of_peek h))

/-- Inside a documentation comment every turn reads something. -/
theorem length_lexDocPart_lt {c : Cursor source} (lineStart : Bool) (h : c.ahead ≠ [])
    (hclose : ¬ c.at? "*/" = true) :
    (c.lexDocPart lineStart).1.ahead.length < c.ahead.length := by
  have hlt := length_advance_lt h
  unfold lexDocPart
  split
  · rename_i hnone
    exact absurd (List.head?_eq_none_iff.mp hnone) h
  rename_i ch hpeek
  split
  · rwa [ahead_emit]
  rename_i hbreak
  split
  · rw [ahead_emit]
    exact length_skip_lt (by decide) h
  rename_i hreturn
  split
  · rename_i hblank
    rw [ahead_emit]
    exact length_advanceWhile_lt hpeek hblank
  split
  · rwa [ahead_emit]
  split
  · rw [ahead_emit]
    exact Nat.lt_of_le_of_lt (length_advanceWhile_le _ _) hlt
  · exact length_lexDocString_lt hpeek (by simp [hbreak, hclose, hreturn])

/-- The parts of a documentation comment up to its end. -/
def lexDocBody (lineStart : Bool) (c : Cursor source) : Cursor source :=
  if _ : c.ahead = [] then c
  else if _ : c.at? "*/" = true then (c.skip 2).emit .docClose c.position
  else lexDocBody (c.lexDocPart lineStart).2 (c.lexDocPart lineStart).1
termination_by c.ahead.length
decreasing_by exact length_lexDocPart_lt lineStart ‹_› ‹_›

/-- A documentation comment in its parts. -/
def lexDocComment (c : Cursor source) : Cursor source :=
  ((c.skip 3).emit .docOpen c.position).lexDocBody false

/-- Reading the lines of a documentation comment never goes back. -/
theorem length_lexDocBody_le (lineStart : Bool) (c : Cursor source) :
    (c.lexDocBody lineStart).ahead.length ≤ c.ahead.length := by
  fun_induction lexDocBody lineStart c with
  | case1 lineStart c h => exact Nat.le_refl _
  | case2 lineStart c h hclose =>
    rw [ahead_emit]
    exact length_skip_le 2 c
  | case3 lineStart c h hclose ih =>
    exact Nat.le_trans ih (Nat.le_of_lt (length_lexDocPart_lt lineStart h hclose))

/-- Reading a documentation comment moves on. -/
theorem length_lexDocComment_lt {c : Cursor source} (h : c.ahead ≠ []) :
    c.lexDocComment.ahead.length < c.ahead.length := by
  have hle := length_lexDocBody_le false ((c.skip 3).emit .docOpen c.position)
  rw [ahead_emit] at hle
  exact Nat.lt_of_le_of_lt hle (length_skip_lt (by decide) h)

/-! ### Strings -/

/-- Read up to and with a closing quote; a backslash takes the next character with it. -/
def passQuoted (quote : Char) (c : Cursor source) : Cursor source :=
  match _ : c.peek with
  | none => c
  | some ch =>
    if ch = '\\' then c.advance.advance.passQuoted quote
    else if ch = quote then c.advance
    else c.advance.passQuoted quote
termination_by c.ahead.length
decreasing_by
  · exact Nat.lt_of_le_of_lt (length_advance_le _) (length_advance_lt (ahead_ne_nil_of_peek ‹_›))
  · exact length_advance_lt (ahead_ne_nil_of_peek ‹_›)

/-- A string between single quotes. -/
def lexSingleQuoted (c : Cursor source) : Cursor source :=
  (c.advance.passQuoted '\'').emit .quotedString c.position

/-- A command between backticks. -/
def lexBacktick (c : Cursor source) : Cursor source :=
  (c.advance.passQuoted '`').emit .backtick c.position

/-- Read up to and with a closing double quote. The second component says whether a variable was
met. -/
def passDoubleQuoted (interpolated : Bool) (c : Cursor source) : Cursor source × Bool :=
  match _ : c.peek with
  | none => (c, interpolated)
  | some ch =>
    if ch = '\\' then c.advance.advance.passDoubleQuoted interpolated
    else if ch = '"' then (c.advance, interpolated)
    else c.advance.passDoubleQuoted (interpolated || startsVariable ch c.advance.peek)
termination_by c.ahead.length
decreasing_by
  · exact Nat.lt_of_le_of_lt (length_advance_le _) (length_advance_lt (ahead_ne_nil_of_peek ‹_›))
  · exact length_advance_lt (ahead_ne_nil_of_peek ‹_›)

/-- A string between double quotes. -/
def lexDoubleQuoted (c : Cursor source) : Cursor source :=
  let (d, interpolated) := c.advance.passDoubleQuoted false
  d.emit (if interpolated then .interpolatedString else .quotedString) c.position

/-- Read the lines of a heredoc up to and with the name that ends it, from the start of a line
on. -/
def passHeredoc (name : List Char) (c : Cursor source) : Cursor source :=
  if _ : c.position < source.utf8ByteSize then
    if closesHeredoc name c.ahead then
      c.skip ((String.ofList (c.ahead.takeWhile isGap)).utf8ByteSize +
        (String.ofList name).utf8ByteSize)
    else c.advanceLine.passHeredoc name
  else c
termination_by c.ahead.length
decreasing_by exact length_advanceLine_lt (position_lt_iff.mp ‹_›)

/-- A heredoc, or the operator `<<` where no name follows. -/
def lexHeredoc (c : Cursor source) : Cursor source :=
  match heredocName (c.ahead.drop 3) with
  | [] => (c.skip 2).emit .shiftLeft c.position
  | name => (c.advanceLine.passHeredoc name).emit .heredoc c.position

/-- Passing a string in single quotes never goes back. -/
theorem length_passQuoted_le (quote : Char) (c : Cursor source) :
    (c.passQuoted quote).ahead.length ≤ c.ahead.length := by
  fun_induction passQuoted quote c with
  | case1 c h => exact Nat.le_refl _
  | case2 c h ih =>
    exact Nat.le_trans ih (Nat.le_trans (length_advance_le _) (length_advance_le c))
  | case3 c h hescape => exact length_advance_le c
  | case4 c ch h hescape hquote ih => exact Nat.le_trans ih (length_advance_le c)

/-- Passing a string in double quotes never goes back. -/
theorem length_passDoubleQuoted_le (interpolated : Bool) (c : Cursor source) :
    (c.passDoubleQuoted interpolated).1.ahead.length ≤ c.ahead.length := by
  fun_induction passDoubleQuoted interpolated c with
  | case1 interpolated c h => exact Nat.le_refl _
  | case2 interpolated c h ih =>
    exact Nat.le_trans ih (Nat.le_trans (length_advance_le _) (length_advance_le c))
  | case3 interpolated c h hescape => exact length_advance_le c
  | case4 interpolated c ch h hescape hquote ih => exact Nat.le_trans ih (length_advance_le c)

/-- Passing the lines of a heredoc never goes back. -/
theorem length_passHeredoc_le (name : List Char) (c : Cursor source) :
    (c.passHeredoc name).ahead.length ≤ c.ahead.length := by
  fun_induction passHeredoc name c with
  | case1 c h hcloses => exact length_skip_le _ c
  | case2 c h hcloses ih => exact Nat.le_trans ih (length_advanceLine_le c)
  | case3 c h => exact Nat.le_refl _

/-- Reading a string in single quotes moves on. -/
theorem length_lexSingleQuoted_lt {c : Cursor source} (h : c.ahead ≠ []) :
    c.lexSingleQuoted.ahead.length < c.ahead.length := by
  rw [lexSingleQuoted, ahead_emit]
  exact Nat.lt_of_le_of_lt (length_passQuoted_le _ _) (length_advance_lt h)

/-- Reading a command in backticks moves on. -/
theorem length_lexBacktick_lt {c : Cursor source} (h : c.ahead ≠ []) :
    c.lexBacktick.ahead.length < c.ahead.length := by
  rw [lexBacktick, ahead_emit]
  exact Nat.lt_of_le_of_lt (length_passQuoted_le _ _) (length_advance_lt h)

/-- Reading a string in double quotes moves on. -/
theorem length_lexDoubleQuoted_lt {c : Cursor source} (h : c.ahead ≠ []) :
    c.lexDoubleQuoted.ahead.length < c.ahead.length := by
  rw [lexDoubleQuoted, ahead_emit]
  exact Nat.lt_of_le_of_lt (length_passDoubleQuoted_le _ _) (length_advance_lt h)

/-- Reading a heredoc moves on. -/
theorem length_lexHeredoc_lt {c : Cursor source} (h : c.ahead ≠ []) :
    c.lexHeredoc.ahead.length < c.ahead.length := by
  unfold lexHeredoc
  split
  · rw [ahead_emit]
    exact length_skip_lt (by decide) h
  · rw [ahead_emit]
    exact Nat.lt_of_le_of_lt (length_passHeredoc_le _ _) (length_advanceLine_lt h)

/-! ### Numbers, words and operators -/

/-- Read a fraction, if one is next. Two points are none. The second component says whether it
was. -/
def passFraction (c : Cursor source) : Cursor source × Bool :=
  if c.peek = some '.' ∧ ¬ c.at? ".." = true then (c.advance.advanceWhile isDigitOrGroup, true)
  else (c, false)

/-- Length of the sign of an exponent, behind its letter. -/
def signLength (c : Cursor source) : Nat :=
  if c.peekAt 1 = some '+' ∨ c.peekAt 1 = some '-' then 1 else 0

/-- Read an exponent, if one is next. The second component says whether it was. -/
def passExponent (c : Cursor source) : Cursor source × Bool :=
  if (c.peek = some 'e' ∨ c.peek = some 'E') ∧
      (c.peekAt (1 + c.signLength)).any Char.isDigit = true then
    ((c.skip (1 + c.signLength)).advanceWhile isDigitOrGroup, true)
  else (c, false)

/-- A number. -/
def lexNumber (c : Cursor source) : Cursor source :=
  if c.peek = some '0' ∧ (c.peekAt 1).any isBase = true then
    ((c.skip 2).advanceWhile isHexOrGroup).emit .integer c.position
  else
    let (fraction, isBroken) := (c.advanceWhile isDigitOrGroup).passFraction
    let (exponent, isScaled) := fraction.passExponent
    exponent.emit (if isBroken || isScaled then .decimal else .integer) c.position

/-- A keyword or an identifier. -/
def lexWord (c : Cursor source) : Cursor source :=
  let d := c.advanceWhile continuesWord
  d.emit (wordKind (slice source c.position d.position).toList) c.position

/-- A variable. -/
def lexVariable (c : Cursor source) : Cursor source :=
  (c.advance.advanceWhile continuesWord).emit .variable c.position

/-- An operator, or a character that means nothing. -/
def lexOperator (c : Cursor source) : Cursor source :=
  match operators.find? fun o => c.at? o.1 with
  | some (op, kind) => (c.skip op.utf8ByteSize).emit kind c.position
  | none => c.advance.emit .unknown c.position

/-- Passing a fraction never goes back. -/
theorem length_passFraction_le (c : Cursor source) :
    c.passFraction.1.ahead.length ≤ c.ahead.length := by
  unfold passFraction
  split
  · exact Nat.le_trans (length_advanceWhile_le _ _) (length_advance_le c)
  · exact Nat.le_refl _

/-- Passing an exponent never goes back. -/
theorem length_passExponent_le (c : Cursor source) :
    c.passExponent.1.ahead.length ≤ c.ahead.length := by
  unfold passExponent
  split
  · exact Nat.le_trans (length_advanceWhile_le _ _) (length_skip_le _ c)
  · exact Nat.le_refl _

/-- Where a number starts, with a digit or with a point in front of one, something is read. -/
theorem length_lexNumber_lt {c : Cursor source} {ch : Char} (h : c.peek = some ch)
    (hstarts : ch.isDigit = true ∨ ch = '.' ∧ (c.peekAt 1).any Char.isDigit = true) :
    c.lexNumber.ahead.length < c.ahead.length := by
  have hne := ahead_ne_nil_of_peek h
  unfold lexNumber
  split
  · rw [ahead_emit]
    exact Nat.lt_of_le_of_lt (length_advanceWhile_le _ _) (length_skip_lt (by decide) hne)
  rw [ahead_emit]
  refine Nat.lt_of_le_of_lt (length_passExponent_le _) ?_
  by_cases hdigit : ch.isDigit = true
  · refine Nat.lt_of_le_of_lt (length_passFraction_le _) (length_advanceWhile_lt h ?_)
    rw [isDigitOrGroup, hdigit, Bool.true_or]
  obtain ⟨rfl, hnext⟩ := hstarts.resolve_left hdigit
  have hstays : c.advanceWhile isDigitOrGroup = c := by
    rw [advanceWhile]
    split
    · rfl
    · rename_i found hfound
      obtain rfl : found = '.' := Option.some.inj (hfound.symm.trans h)
      rfl
  have hpoints : ¬ c.at? ".." = true := by
    intro hat
    rw [at?, Lexer.at?, List.isPrefixOf_iff_prefix] at hat
    obtain ⟨rest, hrest⟩ := hat
    rw [peekAt, ← hrest] at hnext
    simp at hnext
  rw [hstays, passFraction, if_pos ⟨h, hpoints⟩]
  exact Nat.lt_of_le_of_lt (length_advanceWhile_le _ _) (length_advance_lt hne)

/-- Reading a word moves on, as it takes the character that starts it. -/
theorem length_lexWord_lt {c : Cursor source} {ch : Char} (h : c.peek = some ch)
    (hstarts : startsWord ch = true) : c.lexWord.ahead.length < c.ahead.length := by
  rw [lexWord, ahead_emit]
  exact length_advanceWhile_lt h (continuesWord_of_startsWord hstarts)

/-- Reading a variable moves on. -/
theorem length_lexVariable_lt {c : Cursor source} (h : c.ahead ≠ []) :
    c.lexVariable.ahead.length < c.ahead.length := by
  rw [lexVariable, ahead_emit]
  exact Nat.lt_of_le_of_lt (length_advanceWhile_le _ _) (length_advance_lt h)

/-- No operator is empty. -/
theorem operators_ne_empty : ∀ o ∈ operators, 0 < o.1.utf8ByteSize := by
  decide

/-- Reading an operator moves on, also over a character that is none. -/
theorem length_lexOperator_lt {c : Cursor source} (h : c.ahead ≠ []) :
    c.lexOperator.ahead.length < c.ahead.length := by
  unfold lexOperator
  split
  · rename_i hfound
    rw [ahead_emit]
    exact length_skip_lt (operators_ne_empty _ (List.mem_of_find?_eq_some hfound)) h
  · rw [ahead_emit]
    exact length_advance_lt h

/-! ### Code -/

/-- The close tag with its line break. -/
def lexCloseTag (c : Cursor source) : Cursor source :=
  let tag := c.skip 2
  (if tag.at? "\r\n" then tag.skip 2 else tag.skipNewline).emit .closeTag c.position

/-- Whether what starts like a documentation comment is one. -/
def isDocComment (c : Cursor source) : Bool :=
  (c.peekAt 3).any fun ch => isBlank ch || ch == '\n'

/-- What starts with a hash: an attribute, or a comment that ends with its line. -/
def lexHash (c : Cursor source) : Cursor source :=
  if c.at? "#[" then (c.skip 2).emit .attribute c.position else c.lexLineComment

/-- What starts with a slash: a comment of one of the three sorts, or an operator. -/
def lexSlash (c : Cursor source) : Cursor source :=
  if c.at? "//" then c.lexLineComment
  else if c.at? "/**" && c.isDocComment then c.lexDocComment
  else if c.at? "/*" then c.lexBlockComment
  else c.lexOperator

/-- What starts at the next character, in code and away from a close tag. -/
def lexToken (c : Cursor source) : Cursor source :=
  match c.peek with
  | none => c
  | some ch =>
    if isBlank ch || ch == '\n' then c.lexWhitespace
    else if ch == '#' then c.lexHash
    else if ch == '/' then c.lexSlash
    else if ch == '$' && (c.peekAt 1).any startsWord then c.lexVariable
    else if ch == '\'' then c.lexSingleQuoted
    else if ch == '"' then c.lexDoubleQuoted
    else if ch == '`' then c.lexBacktick
    else if c.at? "<<<" then c.lexHeredoc
    else if ch.isDigit || (ch == '.' && (c.peekAt 1).any Char.isDigit) then c.lexNumber
    else if startsWord ch then c.lexWord
    else c.lexOperator

/-- Of two readers the one that is taken reads something. -/
theorem length_ite_lt {n : Nat} {p : Prop} [Decidable p] {c d : Cursor source}
    (hc : p → c.ahead.length < n) (hd : ¬ p → d.ahead.length < n) :
    (if p then c else d).ahead.length < n := by
  split
  · exact hc ‹_›
  · exact hd ‹_›

/-- What is read at a hash moves on: an attribute or a line comment. -/
theorem length_lexHash_lt {c : Cursor source} (h : c.ahead ≠ []) (hclose : ¬ c.at? "?>" = true) :
    c.lexHash.ahead.length < c.ahead.length := by
  refine length_ite_lt (fun _ => ?_) fun _ => length_lexLineComment_lt h hclose
  rw [ahead_emit]
  exact length_skip_lt (by decide) h

/-- What is read at a slash moves on: a comment or an operator. -/
theorem length_lexSlash_lt {c : Cursor source} (h : c.ahead ≠ []) (hclose : ¬ c.at? "?>" = true) :
    c.lexSlash.ahead.length < c.ahead.length :=
  length_ite_lt (fun _ => length_lexLineComment_lt h hclose) fun _ =>
    length_ite_lt (fun _ => length_lexDocComment_lt h) fun _ =>
      length_ite_lt (fun _ => length_lexBlockComment_lt h) fun _ => length_lexOperator_lt h

/-- In code every turn reads something. -/
theorem length_lexToken_lt {c : Cursor source} (h : c.ahead ≠ []) (hclose : ¬ c.at? "?>" = true) :
    c.lexToken.ahead.length < c.ahead.length := by
  unfold lexToken
  cases hpeek : c.peek with
  | none => exact absurd (List.head?_eq_none_iff.mp hpeek) h
  | some ch =>
    refine length_ite_lt (fun hblank => length_lexWhitespace_lt hpeek (by simpa using hblank))
      fun _ => ?_
    refine length_ite_lt (fun _ => length_lexHash_lt h hclose) fun _ => ?_
    refine length_ite_lt (fun _ => length_lexSlash_lt h hclose) fun _ => ?_
    refine length_ite_lt (fun _ => length_lexVariable_lt h) fun _ => ?_
    refine length_ite_lt (fun _ => length_lexSingleQuoted_lt h) fun _ => ?_
    refine length_ite_lt (fun _ => length_lexDoubleQuoted_lt h) fun _ => ?_
    refine length_ite_lt (fun _ => length_lexBacktick_lt h) fun _ => ?_
    refine length_ite_lt (fun _ => length_lexHeredoc_lt h) fun _ => ?_
    refine length_ite_lt (fun hstarts => length_lexNumber_lt hpeek (by simpa using hstarts))
      fun _ => ?_
    exact length_ite_lt (fun hstarts => length_lexWord_lt hpeek hstarts)
      fun _ => length_lexOperator_lt h

/-- Code, up to and with a close tag. -/
def lexPhp (c : Cursor source) : Cursor source :=
  if _ : c.ahead = [] then c
  else if _ : c.at? "?>" = true then c.lexCloseTag
  else c.lexToken.lexPhp
termination_by c.ahead.length
decreasing_by exact length_lexToken_lt ‹_› ‹_›

/-- A close tag is read. -/
theorem length_lexCloseTag_lt {c : Cursor source} (h : c.ahead ≠ []) :
    c.lexCloseTag.ahead.length < c.ahead.length := by
  have htag : (c.skip 2).ahead.length < c.ahead.length := length_skip_lt (by decide) h
  rw [lexCloseTag, ahead_emit]
  split
  · exact Nat.lt_of_le_of_lt (length_skip_le _ _) htag
  · exact Nat.lt_of_le_of_lt (length_skipNewline_le _) htag

/-- Reading code up to its close tag never goes back. -/
theorem length_lexPhp_le (c : Cursor source) : c.lexPhp.ahead.length ≤ c.ahead.length := by
  fun_induction lexPhp c with
  | case1 c h => exact Nat.le_refl _
  | case2 c h hclose => exact Nat.le_of_lt (length_lexCloseTag_lt h)
  | case3 c h hclose ih => exact Nat.le_trans ih (Nat.le_of_lt (length_lexToken_lt h hclose))

/-- Text outside PHP and code in turn, to the end of the source. -/
def lexAll (c : Cursor source) : Cursor source :=
  if _ : c.position < source.utf8ByteSize then c.lexInlineHtml.lexPhp.lexAll else c
termination_by c.ahead.length
decreasing_by exact Nat.lt_of_le_of_lt (length_lexPhp_le _) (length_lexInlineHtml_lt ‹_›)

end Cursor

/-- The lexemes of a PHP file. -/
def lex (source : String) : List Lexeme :=
  (Cursor.start source).lexAll.emitted.toList

end PhpStyle.Php
