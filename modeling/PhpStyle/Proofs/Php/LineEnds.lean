import PhpStyle.Proofs.Php.Exact
import PhpStyle.Proofs.Php.Rereading
import PhpStyle.Proofs.Php.Tokenizing
import PhpStyle.Proofs.Run.Preview
import PhpStyle.Proofs.Store.Positions

/-!
# Tokens end with their lines

Of all tokens of a PHP text only strings, heredocs and commands in backticks go on over the end of a
line. Every other one has a line break at its end or none, so it ends on the line on which it
starts. Whitespace has nothing but blanks in front of such a break, and goes on to it if there is
more whitespace behind.
-/

namespace PhpStyle

/-- A token without a line break in front of its last character ends on the line on which it
starts. -/
theorem Token.endLine_of_oneLine {t : Token} (hne : t.text ≠ "") (h : OneLine t.text.toList) :
    t.endLine = t.line := by
  have hnil : t.text.toList ≠ [] := fun hnil => hne (String.toList_eq_nil_iff.mp hnil)
  rw [endLine_of_toList (List.dropLast_append_getLast hnil).symm, List.count_eq_zero_of_not_mem h,
    Nat.add_zero]

/-- Characters of whitespace with a break at most at their end are blanks, with or without the
break. -/
theorem OneLine.exists_blanks {cs : List Char} (h : OneLine cs)
    (hlayout : ∀ c ∈ cs, Php.isLayout c = true) :
    ∃ blanks, (∀ c ∈ blanks, c ∈ [' ', '\t', '\r']) ∧ (cs = blanks ∨ cs = blanks ++ ['\n']) := by
  have hblank {c : Char} (hc : c ∈ cs) (hbreak : c ≠ '\n') : c ∈ [' ', '\t', '\r'] := by
    have := hlayout c hc
    simp_all [Php.isLayout, Php.Lexer.isBlank, or_assoc]
  rcases List.eq_nil_or_concat' cs with rfl | ⟨front, last, rfl⟩
  · exact ⟨[], by simp, .inl rfl⟩
  · rw [OneLine, List.dropLast_concat] at h
    have hfront : ∀ c ∈ front, c ∈ [' ', '\t', '\r'] := fun c hc =>
      hblank (List.mem_append_left _ hc) fun hbreak => h (hbreak ▸ hc)
    by_cases hlast : last = '\n'
    · exact ⟨front, hfront, .inr (by rw [hlast])⟩
    · refine ⟨front ++ [last], fun c hc => ?_, .inl rfl⟩
      rcases List.mem_append.mp hc with hc | hc
      · exact hfront c hc
      · rw [List.mem_singleton.mp hc]
        exact hblank (by simp) hlast

namespace Php

section

variable {source : String} {store : Store}
  (hbuild : Store.build? (settleWords (lex source)) (outline (settleWords (lex source))) =
    .ok store)

include hbuild

/-- Whitespace of a store has characters of whitespace only. -/
theorem isLayout_of_build {i : Nat} (hkind : store.kind i = .whitespace) :
    ∀ c ∈ (store.text i).toList, isLayout c = true := by
  obtain ⟨raw, prior, _, hmem, htext, hsettled⟩ :=
    exists_raw_of_build hbuild (Store.lt_size_of_kind hkind (by decide))
  rw [htext]
  exact isLayout_of_mem (lex_eq_lexFrom source ▸ hmem)
    (kind_of_settle (hsettled.symm.trans hkind) (by decide))

end

/-- Every token of a text that is no string, heredoc or command in backticks has a line break at
most as its last character, and so it ends on the line on which it starts. Whitespace is made of
blanks, tabs and carriage returns, with or without a break at its end, and it has the break if
whitespace follows. -/
theorem tokens_end_with_lines (source : String) :
    ∃ store, tokenize source = .ok store ∧ store.source = source ∧ ∀ i < store.size,
      (store.kind i ∉ [.quotedString, .interpolatedString, .heredoc, .backtick] →
        '\n' ∉ (store.text i).toList.dropLast ∧ (store.token i).endLine = store.line i) ∧
      (store.kind i = .whitespace →
        (∃ blanks, (∀ c ∈ blanks, c ∈ [' ', '\t', '\r']) ∧
          ((store.text i).toList = blanks ∨ (store.text i).toList = blanks ++ ['\n'])) ∧
        (i + 1 < store.size → store.kind (i + 1) = .whitespace →
          (store.text i).toList.getLast? = some '\n')) := by
  obtain ⟨store, hstore, hbuild⟩ := exists_tokenize source
  have hshapes := (sound_of_build hbuild).shapes
  refine ⟨store, hstore, (source_of_build hbuild).1,
    fun i hi => ⟨fun hkind => ?_, fun hkind => ⟨?_, ?_⟩⟩⟩
  · have hwraps : (store.kind i).isWrapping = false := by
      revert hkind
      cases store.kind i <;> simp [Kind.isWrapping]
    have hone := (hshapes i).oneLine hwraps
    exact ⟨hone, Token.endLine_of_oneLine (text_ne_of_build hbuild hi) hone⟩
  · have hone := (hshapes i).oneLine (by rw [hkind]; rfl)
    exact hone.exists_blanks (isLayout_of_build hbuild hkind)
  · exact fun hnext hsecond => blank_of_build hbuild hnext hkind hsecond

/-- A documentation comment over two lines and a string over two lines, with blanks behind: the
comment is cut at the break and the string is not, and of the blanks the first ones go to the end of
the line. -/
theorem tokens_end_with_lines_around_string :
    ∃ store, tokenize "<?php /** a\r\n */'x\ny' \t\r\n " = .ok store ∧
      (4 < store.size ∧ store.kind 4 ∉ [.quotedString, .interpolatedString, .heredoc, .backtick] ∧
        store.text 4 = "\r\n" ∧ (store.token 4).endLine = store.line 4) ∧
      (store.kind 7 = .quotedString ∧ (store.token 7).endLine = store.line 7 + 1) ∧
      (9 < store.size ∧ store.kind 8 = .whitespace ∧ store.kind 9 = .whitespace ∧
        (store.text 8).toList.getLast? = some '\n') := by
  have hdraft : (draft? "<?php /** a\r\n */'x\ny' \t\r\n ").any (fun s =>
      s.size = 10 ∧ s.kind 4 = .docWhitespace ∧ s.text 4 = "\r\n" ∧ s.kind 7 = .quotedString ∧
        (s.token 7).endLine = s.line 7 + 1 ∧ s.kind 8 = .whitespace ∧
        s.kind 9 = .whitespace) = true := by
    decide +kernel
  obtain ⟨drafted, hdrafted, hcomputed⟩ := exists_of_draft hdraft
  obtain ⟨hsize, hbreak, htext, hstring, hlong, hfirst, hsecond⟩ := of_decide_eq_true hcomputed
  obtain ⟨store, hstore, _, hends⟩ := tokens_end_with_lines "<?php /** a\r\n */'x\ny' \t\r\n "
  obtain rfl : store = drafted := Except.ok.inj (hstore.symm.trans hdrafted)
  have hkind : store.kind 4 ∉ [.quotedString, .interpolatedString, .heredoc, .backtick] := by
    rw [hbreak]
    decide
  obtain ⟨_, hline⟩ := (hends 4 (by omega)).1 hkind
  obtain ⟨_, hlast⟩ := (hends 8 (by omega)).2 hfirst
  exact ⟨store, hstore, ⟨by omega, hkind, htext, hline⟩, ⟨hstring, hlong⟩,
    ⟨by omega, hfirst, hsecond, hlast (by omega) hsecond⟩⟩

end Php

end PhpStyle
