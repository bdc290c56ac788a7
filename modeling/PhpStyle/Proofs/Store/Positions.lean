import Mathlib.Data.List.DropRight
import PhpStyle.Proofs.Store.Building
import PhpStyle.Proofs.Token.Lines
import PhpStyle.Store.Walk

/-!
# Positions count the text in front

A place is moved on by one character at a time, and its line, its column and its offset are counted
apart from each other. All three agree with the text that has been gone over, so where a token
stands can be read off the texts of the tokens in front of it.
-/

namespace PhpStyle

/-- A text has no more characters than bytes. -/
theorem length_le_utf8ByteSize (text : String) : text.toList.length ≤ text.utf8ByteSize := by
  have hlist (cs : List Char) : cs.length ≤ Splice.byteLength cs := by
    induction cs with
    | nil => exact Nat.le_refl 0
    | cons c cs ih =>
      have := c.utf8Size_pos
      rw [List.length_cons, Splice.byteLength]
      omega
  rw [← Splice.byteLength_toList]
  exact hlist text.toList

/-- The bytes of a middle part of a text are found behind those of its front. -/
theorem extract_toUTF8_append (a b c : String) :
    (a ++ b ++ c).toUTF8.extract a.utf8ByteSize (a ++ b).utf8ByteSize = b.toUTF8 := by
  have hsplit : (a ++ b ++ c).toUTF8 = a.toUTF8 ++ (b.toUTF8 ++ c.toUTF8) := by
    rw [← ByteArray.append_assoc]
    exact String.toByteArray_append.trans (congrArg (· ++ c.toByteArray) String.toByteArray_append)
  rw [hsplit, String.utf8ByteSize_append, ← Nat.add_zero a.utf8ByteSize, Nat.add_assoc,
    Nat.zero_add]
  exact (ByteArray.extract_append_size_add (a := a.toUTF8)).trans
    (ByteArray.extract_append_eq_left rfl)

namespace Place

/-- Going on behind two texts goes on behind the second from where the first ends. -/
theorem after_append (p : Place) (a b : String) : p.after (a ++ b) = (p.after a).after b := by
  rw [after, String.toList_append, List.foldl_append]
  rfl

/-- The column counts the characters since the last line break. -/
theorem foldl_step_column (cs : List Char) :
    (cs.foldl step start).column = 1 + (cs.rtakeWhile (· ≠ '\n')).length := by
  induction cs using List.reverseRecOn with
  | nil => rfl
  | append_singleton cs c ih =>
    rw [List.foldl_append, List.foldl_cons, List.foldl_nil, step]
    split
    · rename_i hbreak
      rw [List.rtakeWhile_concat_neg _ _ _ (by simp [hbreak])]
      rfl
    · rename_i hbreak
      rw [List.rtakeWhile_concat_pos _ _ _ (by simp [hbreak]), List.length_append,
        ← Nat.add_assoc, ← ih]
      rfl

/-- The place behind a text that starts a file. -/
theorem start_after (text : String) :
    start.after text = ⟨1 + text.toList.count '\n', 1 + (text.toList.rtakeWhile (· ≠ '\n')).length,
      text.utf8ByteSize⟩ := by
  have hline : (start.after text).line = 1 + text.toList.count '\n' := after_line start text
  have hcolumn : (start.after text).column = 1 + (text.toList.rtakeWhile (· ≠ '\n')).length :=
    foldl_step_column text.toList
  have hoffset : (start.after text).offset = text.utf8ByteSize := by
    rw [after_offset, start, Nat.zero_add]
  rw [← hline, ← hcolumn, ← hoffset]

end Place

/-- The text in front of a lexeme. -/
def Lexeme.textBefore (lexemes : List Lexeme) (i : Nat) : String :=
  String.join ((lexemes.take i).map (·.text))

/-- The text in front of the next token is that in front of this one and its own. -/
theorem Lexeme.textBefore_succ {lexemes : List Lexeme} {i : Nat} {l : Lexeme}
    (hl : lexemes[i]? = some l) : textBefore lexemes (i + 1) = textBefore lexemes i ++ l.text := by
  rw [textBefore, List.take_add_one, hl, List.map_append, String.join_append]
  rfl

namespace Token

/-- A token stands where a text ends that starts at the first line and column. -/
structure StandsBehind (before : String) (t : Token) : Prop where
  offset : t.offset = before.utf8ByteSize
  line : t.line = 1 + before.toList.count '\n'
  column : t.column = 1 + (before.toList.rtakeWhile (· ≠ '\n')).length
  endOffset : t.endOffset = (before ++ t.text).utf8ByteSize
  /-- Its last character sits on a line that starts in front of it, also if it is a line break. -/
  endLine : ∀ front c, t.text.toList = front ++ [c] →
    t.endLine = 1 + (before.toList ++ front).count '\n'

/-- No line and no column is larger than the text in front. -/
theorem StandsBehind.le {before : String} {t : Token} (h : StandsBehind before t) :
    t.line ≤ before.utf8ByteSize + 1 ∧ t.column ≤ before.utf8ByteSize + 1 := by
  have hlength := length_le_utf8ByteSize before
  have hline := List.count_le_length (a := '\n') (l := before.toList)
  have hcolumn := (List.rtakeWhile_suffix (· ≠ '\n') before.toList).length_le
  rw [h.line, h.column]
  omega

/-- A token ends on the line of its last character, which is as far down as the line breaks in front
of it. -/
theorem endLine_of_toList {t : Token} {front : List Char} {c : Char}
    (h : t.text.toList = front ++ [c]) : t.endLine = t.line + front.count '\n' := by
  rw [endLine, h, List.getLast?_concat, List.count_append]
  by_cases hc : c = '\n'
  · simp [hc, ← Nat.add_assoc]
  · simp [hc]

/-- A token put behind a text stands where the text ends. -/
theorem standsBehind_put (before : String) (l : Lexeme) :
    StandsBehind before (put (Place.start.after before) l) := by
  rw [Place.start_after]
  exact {
    offset := rfl
    line := rfl
    column := rfl
    endOffset := (String.utf8ByteSize_append ..).symm
    endLine := by
      intro front c h
      rw [endLine_of_toList h, List.count_append, ← Nat.add_assoc]
      rfl }

/-- Each token of a layout is put behind the text in front of it. -/
theorem getElem?_layoutFrom (p : Place) (lexemes : List Lexeme) (i : Nat) :
    (layoutFrom p lexemes)[i]? = lexemes[i]?.map (put (p.after (Lexeme.textBefore lexemes i))) := by
  induction lexemes generalizing p i with
  | nil => rfl
  | cons l lexemes ih =>
    cases i with
    | zero => rfl
    | succ i =>
      have hbefore : Lexeme.textBefore (l :: lexemes) (i + 1) = l.text ++
          Lexeme.textBefore lexemes i :=
        String.join_cons
      rw [layoutFrom, List.getElem?_cons_succ, List.getElem?_cons_succ, ih, hbefore,
        Place.after_append]

end Token

namespace Store

variable {lexemes : List Lexeme} {outline : Outline} {store : Store}

/-- Each token of a store is put behind the text in front of it. -/
theorem token_eq_put (hbuild : Store.build? lexemes outline = .ok store) {i : Nat} {l : Lexeme}
    (hl : lexemes[i]? = some l) :
    store.token i = .put (Place.start.after (Lexeme.textBefore lexemes i)) l := by
  rw [token, (build?_spec hbuild).1, List.getElem?_toArray, Token.layout, Token.getElem?_layoutFrom,
    hl]
  rfl

/-- The text between two tokens lies in the source behind the text in front of the first one. -/
theorem exists_source_eq (hbuild : Store.build? lexemes outline = .ok store) {p q : Nat}
    (hpq : p ≤ q) :
    Lexeme.textBefore lexemes p ++ store.textBetween p q = Lexeme.textBefore lexemes (q + 1) ∧
      ∃ rest, store.source = Lexeme.textBefore lexemes p ++ store.textBetween p q ++ rest := by
  obtain ⟨htokens, hsource⟩ := build?_spec hbuild
  have hbetween : store.textBetween p q =
      String.join (((lexemes.drop p).take (q + 1 - p)).map (·.text)) := by
    have hcount : p + (q - p + 1) = q + 1 := by omega
    rw [textBetween, if_neg (Nat.not_lt.mpr hpq), textOf, htokens, Array.toList_extract, hcount,
      List.extract_eq_take_drop, List.map_take, List.map_drop, Token.layout,
      Token.map_text_layoutFrom, List.map_take, List.map_drop]
  have hfront : Lexeme.textBefore lexemes p ++ store.textBetween p q = Lexeme.textBefore lexemes
      (q + 1) := by
    have htake : lexemes.take p ++ (lexemes.drop p).take (q + 1 - p) = lexemes.take (q + 1) := by
      rw [← List.take_add, Nat.add_sub_cancel' (by omega)]
    rw [hbetween, Lexeme.textBefore, ← String.join_append, ← List.map_append, htake]
    rfl
  refine ⟨hfront, String.join ((lexemes.drop (q + 1)).map (·.text)), ?_⟩
  rw [hfront, hsource, Lexeme.textBefore, ← String.join_append, ← List.map_append,
    List.take_append_drop]

/-- Every sequence of lexemes makes a store, and in every store made of it the source is all texts
one after the other. A token stands behind the texts in front of it, no position is larger than the
source allows, and the text between two tokens is the source from where the first one starts to
where the second one ends. -/
theorem positions_count_texts (lexemes : List Lexeme) :
    (∃ store, Store.build? lexemes {} = .ok store) ∧
      ∀ outline store, Store.build? lexemes outline = .ok store →
        store.source = String.join (lexemes.map (·.text)) ∧ store.size = lexemes.length ∧
        (∀ i l, lexemes[i]? = some l → store.kind i = l.kind ∧ store.text i = l.text ∧
          (store.token i).StandsBehind (Lexeme.textBefore lexemes i) ∧
          (store.token i).endOffset ≤ store.source.utf8ByteSize ∧
          (store.token i).line ≤ store.source.utf8ByteSize + 1 ∧
          (store.token i).column ≤ store.source.utf8ByteSize + 1) ∧
        ∀ p q, p ≤ q → q < store.size →
          (store.textBetween p q).toUTF8 =
            store.source.toUTF8.extract (store.token p).offset (store.token q).endOffset := by
  refine ⟨(exists_build?_iff lexemes {}).mpr (Outline.wellFormed_empty _),
    fun outline store hbuild => ?_⟩
  have hsize := size_of_build? hbuild
  have hstands {i : Nat} {l : Lexeme} (hl : lexemes[i]? = some l) :
      (store.token i).StandsBehind (Lexeme.textBefore lexemes i) := by
    rw [token_eq_put hbuild hl]
    exact Token.standsBehind_put _ l
  have hend {i : Nat} {l : Lexeme} (hl : lexemes[i]? = some l) :
      (store.token i).endOffset = (Lexeme.textBefore lexemes (i + 1)).utf8ByteSize := by
    have htext : (store.token i).text = l.text := (token_of_build? hbuild hl).2
    rw [(hstands hl).endOffset, htext, Lexeme.textBefore_succ hl]
  refine ⟨(build?_spec hbuild).2, hsize, fun i l hl => ?_, fun p q hpq hq => ?_⟩
  · obtain ⟨hkind, htext⟩ := token_of_build? hbuild hl
    obtain ⟨rest, hsource⟩ := (exists_source_eq hbuild (Nat.le_refl i)).2
    rw [(exists_source_eq hbuild (Nat.le_refl i)).1] at hsource
    have hbound : (Lexeme.textBefore lexemes (i + 1)).utf8ByteSize ≤ store.source.utf8ByteSize := by
      rw [hsource, String.utf8ByteSize_append]
      exact Nat.le_add_right _ _
    have hnext : (Lexeme.textBefore lexemes (i + 1)).utf8ByteSize =
        (Lexeme.textBefore lexemes i).utf8ByteSize + l.text.utf8ByteSize := by
      rw [Lexeme.textBefore_succ hl, String.utf8ByteSize_append]
    obtain ⟨hline, hcolumn⟩ := (hstands hl).le
    have hstop := hend hl
    exact ⟨hkind, htext, hstands hl, by omega, by omega, by omega⟩
  · obtain ⟨hfront, rest, hsource⟩ := exists_source_eq hbuild hpq
    have hp : p < lexemes.length := by omega
    have hq : q < lexemes.length := by omega
    rw [(hstands (List.getElem?_eq_getElem hp)).offset, hend (List.getElem?_eq_getElem hq),
      ← hfront, hsource, extract_toUTF8_append]

/-- A letter of two bytes, a token without text and a comment over two lines with the break behind
it. -/
theorem positions_of_wide_and_empty_tokens :
    ∃ store, Store.build? [⟨.openTag, "<?php\n"⟩, ⟨.variable, "$é"⟩, ⟨.whitespace, ""⟩,
      ⟨.comment, "/*\n*/\n"⟩, ⟨.identifier, "b"⟩] {} = .ok store ∧
      store.source = "<?php\n$é/*\n*/\nb" ∧
      ((store.token 3).line = 2 ∧ (store.token 3).column = 3 ∧ (store.token 3).offset = 9 ∧
        (store.token 3).endLine = 3) ∧
      ((store.token 4).line = 4 ∧ (store.token 4).column = 1 ∧ (store.token 4).offset = 15) ∧
      (store.textBetween 1 3).toUTF8 = store.source.toUTF8.extract 6 15 := by
  obtain ⟨⟨store, hbuild⟩, hall⟩ := positions_count_texts [⟨.openTag, "<?php\n"⟩, ⟨.variable, "$é"⟩,
    ⟨.whitespace, ""⟩, ⟨.comment, "/*\n*/\n"⟩, ⟨.identifier, "b"⟩]
  obtain ⟨hsource, hsize, htoken, hbetween⟩ := hall {} store hbuild
  obtain ⟨_, htext, hcomment, _⟩ := htoken 3 _ rfl
  obtain ⟨_, _, hlast, _⟩ := htoken 4 _ rfl
  obtain ⟨_, _, hwide, _⟩ := htoken 1 _ rfl
  have hlines : (store.token 3).text = "/*\n*/\n" := htext
  have hendLine := hcomment.endLine "/*\n*/".toList '\n' (by rw [hlines]; rfl)
  have hend := hcomment.endOffset
  rw [hlines] at hend
  refine ⟨store, hbuild, hsource, ⟨hcomment.line, hcomment.column, hcomment.offset, hendLine⟩,
    ⟨hlast.line, hlast.column, hlast.offset⟩, ?_⟩
  rw [hbetween 1 3 (by decide) (by rw [hsize]; decide), hwide.offset, hend]
  rfl

end Store

end PhpStyle
