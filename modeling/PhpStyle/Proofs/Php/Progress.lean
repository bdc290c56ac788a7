import PhpStyle.Proofs.Php.Turns

/-!
# Every reader moves on and leaves no gap

Wherever the lexer calls a reader, the reader moves the cursor on by a character at least, and cuts
off lexemes that make up just what it has passed (`Takes`). That holds of each reader by itself,
those of several lexemes and those that emit nothing through `emit` included, and of every turn of
the loops around them. So the lexer ends, behind the whole source.
-/

namespace PhpStyle.Php

open Lexer

namespace Cursor

variable {source : String} {c d : Cursor source}

/-- From `c` to `d` the cursor has moved on, and has cut off at least one lexeme: all that it has
passed, without a gap. -/
def Takes (c d : Cursor source) : Prop :=
  c.position < d.position ∧ ∃ ls, ls ≠ [] ∧ c.Cuts ls d

/-- What is cut off without a gap is all that was passed, so a cursor with fewer characters ahead
has moved on. -/
theorem Cuts.takes {ls : List Lexeme} (h : c.Cuts ls d) (hlt : d.ahead.length < c.ahead.length) :
    c.Takes d := by
  have hsize := c.position_add_size.trans d.position_add_size.symm
  have hletters : ls.flatMap (·.text.toList) ≠ [] := by
    intro hnil
    have hspells := h.spells
    rw [hnil, List.nil_append] at hspells
    rw [hspells] at hlt
    omega
  refine ⟨?_, ls, fun hnil => hletters (by rw [hnil, List.flatMap_nil]), h⟩
  have hpos := Nat.pos_of_ne_zero fun hzero => hletters (String.utf8Len_eq_zero.mp hzero)
  rw [h.spells, String.ofList_append, String.utf8ByteSize_append, String.utf8ByteSize_ofList]
    at hsize
  omega

/-- Emitting behind a reader cuts off what it has read, be it nothing. -/
theorem exists_cuts_emit (c : Cursor source) (n : Nat) (kind : Kind) :
    ∃ ls, c.Cuts ls ((c.pass n).emit kind c.position) := by
  by_cases hn : n = 0
  · subst hn
    exact ⟨[], by rw [pass, emit_self]; exact .refl c⟩
  by_cases hend : c.ahead = []
  · exact ⟨[], by rw [pass_of_ahead_nil hend, emit_self]; exact .refl c⟩
  · exact ⟨_, cuts_emit_pass kind (Nat.pos_of_ne_zero hn) hend⟩

/-- A reader of one lexeme that leaves fewer characters ahead has taken them. -/
theorem takes_of_eq {n : Nat} {kind : Kind} (h : d = (c.pass n).emit kind c.position)
    (hlt : d.ahead.length < c.ahead.length) : c.Takes d := by
  obtain ⟨ls, hcuts⟩ := exists_cuts_emit c n kind
  exact (h ▸ hcuts).takes hlt

/-- What follows the steps of the modes, and leaves fewer characters ahead, has taken them. -/
theorem Follows.takes {mode next : Mode} (h : Follows mode c next d)
    (hlt : d.ahead.length < c.ahead.length) : c.Takes d := by
  obtain ⟨ls, hcuts, -⟩ := h
  exact hcuts.takes hlt

/-- That every reader of the lexer takes something wherever it is called: the readers outside PHP,
those of code, those of the parts of a documentation comment, and the choice between them at each
turn. -/
structure ReadersTake (source : String) : Prop where
  inlineHtml (c : Cursor source) : c.position < source.utf8ByteSize → c.Takes c.lexInlineHtml
  closeTag (c : Cursor source) : c.at? "?>" = true → c.Takes c.lexCloseTag
  whitespace (c : Cursor source) (ch : Char) : c.peek = some ch → isBlank ch = true ∨ ch = '\n' →
    c.Takes c.lexWhitespace
  lineComment (c : Cursor source) : c.ahead ≠ [] → ¬ c.at? "?>" = true → c.Takes c.lexLineComment
  blockComment (c : Cursor source) : c.at? "/*" = true →
    ¬ (c.at? "/**" && c.isDocComment) = true → c.Takes c.lexBlockComment
  docComment (c : Cursor source) : (c.at? "/**" && c.isDocComment) = true →
    c.Takes c.lexDocComment
  docPart (lineStart : Bool) (c : Cursor source) : c.ahead ≠ [] → ¬ c.at? "*/" = true →
    c.Takes (c.lexDocPart lineStart).1
  docString (c : Cursor source) (ch : Char) : c.peek = some ch → isBlank ch = false →
    ¬ (ch = '\n' ∨ c.at? "\r\n" = true ∨ c.at? "*/" = true) → c.Takes c.lexDocString
  singleQuoted (c : Cursor source) : c.ahead ≠ [] → c.Takes c.lexSingleQuoted
  doubleQuoted (c : Cursor source) : c.ahead ≠ [] → c.Takes c.lexDoubleQuoted
  backtick (c : Cursor source) : c.ahead ≠ [] → c.Takes c.lexBacktick
  heredoc (c : Cursor source) : c.at? "<<<" = true → c.Takes c.lexHeredoc
  number (c : Cursor source) (ch : Char) : c.peek = some ch →
    ch.isDigit = true ∨ ch = '.' ∧ (c.peekAt 1).any Char.isDigit = true → c.Takes c.lexNumber
  name (c : Cursor source) : c.ahead ≠ [] → c.Takes c.lexVariable
  word (c : Cursor source) (ch : Char) : c.peek = some ch → startsWord ch = true →
    c.Takes c.lexWord
  operator (c : Cursor source) : c.ahead ≠ [] → c.Takes c.lexOperator
  token (c : Cursor source) : c.ahead ≠ [] → ¬ c.at? "?>" = true → c.Takes c.lexToken

section Readers

/-- A block comment takes its lines, each of them as a token. -/
theorem takes_lexBlockComment (h : c.at? "/*" = true)
    (hdoc : ¬ (c.at? "/**" && c.isDocComment) = true) : c.Takes c.lexBlockComment := by
  obtain ⟨body, hahead⟩ := ahead_of_at? h
  replace hahead : c.ahead = '/' :: '*' :: body := hahead
  rw [isDocComment_eq hahead] at hdoc
  exact (follows_lexBlockComment hahead (if_neg hdoc)).takes
    (length_lexBlockComment_lt (ahead_ne_nil_of_at? h))

/-- A documentation comment takes its tags, its blanks and its texts, each of them as a token. -/
theorem takes_lexDocComment (h : (c.at? "/**" && c.isDocComment) = true) :
    c.Takes c.lexDocComment := by
  have hat := (Bool.and_eq_true_iff.mp h).1
  obtain ⟨body, hahead⟩ := ahead_of_at? hat
  replace hahead : c.ahead = '/' :: '*' :: ('*' :: body) := hahead
  rw [isDocComment_eq hahead] at h
  exact (follows_lexDocComment hahead hat (if_pos h)).takes
    (length_lexDocComment_lt (ahead_ne_nil_of_at? hat))

/-- The text of a line starts with a visible character, so the two pushes leave no gap between
them. -/
theorem takes_lexDocString {ch : Char} (h : c.peek = some ch) (hblank : isBlank ch = false)
    (hends : ¬ (ch = '\n' ∨ c.at? "\r\n" = true ∨ c.at? "*/" = true)) :
    c.Takes c.lexDocString := by
  have hlt := length_lexDocString_lt h hends
  have hvisible : 0 < visibleLength (docLine c.ahead) := by
    rw [at?, at?, ahead_eq_cons h, at?_return_iff, at?_close_iff] at hends
    rw [ahead_eq_cons h, docLine_cons, if_neg hends, visibleLength, if_neg (by simp [hblank])]
    exact Nat.succ_pos _
  rw [lexDocString_eq hvisible] at hlt ⊢
  obtain ⟨ls, htext⟩ := exists_cuts_emit c (visibleLength (docLine c.ahead)) .docText
  obtain ⟨ms, hblanks⟩ := exists_cuts_emit c.passVisible
    ((docLine c.ahead).length - visibleLength (docLine c.ahead)) .docWhitespace
  exact (Cuts.trans htext hblanks).takes hlt

/-- A heredoc takes its lines up to the one that closes it as one token. -/
theorem takes_lexHeredoc (h : c.at? "<<<" = true) : c.Takes c.lexHeredoc := by
  obtain ⟨body, hahead⟩ := ahead_of_at? h
  have hskip : c.skip 2 = c.pass 2 := skip_eq ['<', '<'] hahead
  have hlt := length_lexHeredoc_lt (ahead_ne_nil_of_at? h)
  unfold lexHeredoc at hlt ⊢
  split at hlt
  · rw [hskip] at hlt ⊢
    exact takes_of_eq rfl hlt
  · rw [advanceLine_eq, passHeredoc_eq, pass_pass] at hlt ⊢
    exact takes_of_eq rfl hlt

/-- An operator, or a character that means nothing, is taken as one token. -/
theorem takes_lexOperator (h : c.ahead ≠ []) : c.Takes c.lexOperator := by
  have hlt := length_lexOperator_lt h
  unfold lexOperator at hlt ⊢
  split at hlt
  · rename_i op kind hfound
    have hat : c.at? op = true := List.find?_some (p := fun o : String × Kind => c.at? o.1) hfound
    rw [skip_of_at? hat] at hlt ⊢
    exact takes_of_eq rfl hlt
  · exact takes_of_eq (n := 1) rfl hlt

/-- Every reader takes something wherever the lexer calls it. -/
theorem readersTake (source : String) : ReadersTake source where
  inlineHtml c h := (follows_lexInlineHtml c).takes (length_lexInlineHtml_lt h)
  closeTag c h :=
    (follows_lexCloseTag h).takes (length_lexCloseTag_lt (ahead_ne_nil_of_at? h))
  whitespace c ch h hblank := takes_of_eq (lexWhitespace_eq c) (length_lexWhitespace_lt h hblank)
  lineComment c h hclose :=
    takes_of_eq (by rw [lexLineComment, passLineComment_eq]) (length_lexLineComment_lt h hclose)
  blockComment c h hdoc := takes_lexBlockComment h hdoc
  docComment c h := takes_lexDocComment h
  docPart lineStart c h hclose := by
    obtain ⟨ch, rest, hahead⟩ := List.exists_cons_of_ne_nil h
    exact (follows_lexDocPart lineStart hahead hclose).takes
      (length_lexDocPart_lt lineStart h hclose)
  docString c ch h hblank hends := takes_lexDocString h hblank hends
  singleQuoted c h := by
    have hlt := length_lexSingleQuoted_lt h
    rw [lexSingleQuoted, passQuoted_eq] at hlt ⊢
    exact takes_of_eq (n := _ + 1) rfl hlt
  doubleQuoted c h := by
    have hlt := length_lexDoubleQuoted_lt h
    rw [lexDoubleQuoted, passDoubleQuoted_eq] at hlt ⊢
    exact takes_of_eq (n := _ + 1) rfl hlt
  backtick c h := by
    have hlt := length_lexBacktick_lt h
    rw [lexBacktick, passQuoted_eq] at hlt ⊢
    exact takes_of_eq (n := _ + 1) rfl hlt
  heredoc c h := takes_lexHeredoc h
  number c ch h hstarts := takes_of_eq (lexNumber_eq c) (length_lexNumber_lt h hstarts)
  name c h := by
    have hlt := length_lexVariable_lt h
    rw [lexVariable, advanceWhile_eq] at hlt ⊢
    exact takes_of_eq (n := _ + 1) rfl hlt
  word c ch h hstarts := by
    have hlt := length_lexWord_lt h hstarts
    rw [lexWord, advanceWhile_eq] at hlt ⊢
    exact takes_of_eq rfl hlt
  operator c h := takes_lexOperator h
  token c h hclose := (follows_lexToken h hclose).takes (length_lexToken_lt h hclose)

end Readers

section Run

/-- A turn of the outermost loop, over text outside PHP and the code behind it, takes something. -/
theorem takes_turn (h : c.position < source.utf8ByteSize) : c.Takes c.lexInlineHtml.lexPhp :=
  ((follows_lexInlineHtml c).trans (follows_lexPhp _)).takes
    (Nat.lt_of_le_of_lt (length_lexPhp_le _) (length_lexInlineHtml_lt h))

/-- The lexer ends behind the last byte of the source. -/
theorem position_lexAll (c : Cursor source) : c.lexAll.position = source.utf8ByteSize := by
  have hsize := c.lexAll.position_add_size
  rw [(follows_lexAll c).2] at hsize
  simpa using hsize

end Run

end Cursor

end PhpStyle.Php
