import Mathlib.Data.String.Basic
import PhpStyle.Proofs.Php.Measures

/-!
# What the readers of the cursor read

Every reader of the lexer is a loop that moves a cursor on. This file says how far: each reads
exactly as many characters as a measure of the text ahead says (`pass`). And it says what `emit`
cuts off behind a reader: the lexeme of just those characters.
-/

namespace PhpStyle.Php

open Lexer

namespace Cursor

variable {source : String}

/-- Read a number of characters. -/
def pass (c : Cursor source) : Nat → Cursor source
  | 0 => c
  | n + 1 => c.advance.pass n

section Passing

/-- A step emits nothing. -/
@[simp] theorem emitted_advance (c : Cursor source) : c.advance.emitted = c.emitted := by
  unfold advance
  split <;> rfl

/-- What is ahead is the character seen and what is ahead one step on. -/
theorem ahead_eq_cons {c : Cursor source} {ch : Char} (h : c.peek = some ch) :
    c.ahead = ch :: c.advance.ahead := by
  obtain ⟨rest, hahead⟩ := List.head?_eq_some_iff.mp h
  rw [ahead_advance, hahead, List.tail_cons]

/-- The character seen is the first one ahead. -/
theorem peek_eq_some {c : Cursor source} {ch : Char} {rest : List Char} (h : c.ahead = ch :: rest) :
    c.peek = some ch := by
  rw [peek, h, List.head?_cons]

/-- A cursor sees no character exactly at the end of the text. -/
theorem peek_eq_none_iff {c : Cursor source} : c.peek = none ↔ c.ahead = [] :=
  List.head?_eq_none_iff

/-- At the end of the text a step goes nowhere. -/
theorem advance_of_ahead_nil {c : Cursor source} (h : c.ahead = []) : c.advance = c := by
  unfold advance
  split
  · rfl
  · rename_i hcons
    rw [h] at hcons
    cases hcons

/-- At the end of the text there is nothing to pass. -/
theorem pass_of_ahead_nil {c : Cursor source} (h : c.ahead = []) (n : Nat) : c.pass n = c := by
  induction n with
  | zero => rfl
  | succ n ih => rw [pass, advance_of_ahead_nil h, ih]

/-- Passing some characters leaves the others ahead. -/
@[simp] theorem ahead_pass (c : Cursor source) (n : Nat) : (c.pass n).ahead = c.ahead.drop n := by
  induction n generalizing c with
  | zero => rfl
  | succ n ih => rw [pass, ih, ahead_advance, List.drop_tail]

/-- Passing characters emits nothing. -/
@[simp] theorem emitted_pass (c : Cursor source) (n : Nat) : (c.pass n).emitted = c.emitted := by
  induction n generalizing c with
  | zero => rfl
  | succ n ih => rw [pass, ih, emitted_advance]

/-- Passing some characters and then some more passes both. -/
theorem pass_pass (c : Cursor source) (m n : Nat) : (c.pass m).pass n = c.pass (m + n) := by
  induction m generalizing c with
  | zero => rw [pass, Nat.zero_add]
  | succ m ih => rw [pass, ih, Nat.succ_add, pass]

/-- One step behind passed characters passes one more. -/
theorem pass_succ (c : Cursor source) (n : Nat) : (c.pass n).advance = c.pass (n + 1) :=
  pass_pass c n 1

/-- A step moves the position by the bytes of the first character, if there is one. -/
theorem position_advance (c : Cursor source) :
    c.advance.position = c.position + String.utf8Len (c.ahead.take 1) := by
  unfold advance
  split
  · rename_i h
    rw [h, List.take_nil, String.utf8Len_nil, Nat.add_zero]
  · rename_i ch rest h
    have htake : c.ahead.take 1 = [ch] := by rw [h, List.take_succ_cons, List.take_zero]
    rw [htake, String.utf8Len_cons, String.utf8Len_nil, Nat.zero_add]

/-- The position goes up by the bytes of the characters read. -/
theorem position_pass (c : Cursor source) (n : Nat) :
    (c.pass n).position = c.position + String.utf8Len (c.ahead.take n) := by
  induction n generalizing c with
  | zero => simp [pass]
  | succ n ih =>
    have htake : c.ahead.take (n + 1) = c.ahead.take 1 ++ c.ahead.tail.take n := by
      cases c.ahead <;> simp
    rw [pass, ih, position_advance, ahead_advance, htake, String.utf8Len_append, Nat.add_assoc]

/-- What lies between a cursor and the one some characters on are those characters. -/
theorem slice_pass (c : Cursor source) (n : Nat) :
    slice source c.position (c.pass n).position = String.ofList (c.ahead.take n) := by
  obtain ⟨front, hsource, hposition⟩ := c.aligned
  have hfront : c.position = String.utf8Len front.toList := by
    rw [← hposition, ← String.utf8ByteSize_ofList, String.ofList_toList]
  have hsplit : source = String.ofList (front.toList ++ c.ahead.take n ++ c.ahead.drop n) := by
    refine hsource.trans ?_
    rw [List.append_assoc, List.take_append_drop, String.ofList_append, String.ofList_toList]
  rw [slice, position_pass, hfront]
  exact (congrArg (fun s => String.Pos.Raw.extract s _ _) hsplit).trans
    (String.extract_of_valid _ _ _)

/-- What has been cut off does not matter to reading on. -/
theorem pass_push (c : Cursor source) (kind : Kind) (start stop n : Nat) :
    (c.push kind start stop).pass n = (c.pass n).push kind start stop := by
  have hadvance (c : Cursor source) :
      (c.push kind start stop).advance = c.advance.push kind start stop := by
    obtain ⟨ahead, position, emitted, aligned⟩ := c
    cases ahead <;> rfl
  induction n generalizing c with
  | zero => rfl
  | succ n ih => rw [pass, hadvance, ih, pass]

/-- A reader that has read something emits it. -/
theorem emit_pass_eq {c : Cursor source} {n : Nat} (kind : Kind) (hn : 0 < n) (h : c.ahead ≠ []) :
    (c.pass n).emit kind c.position = (c.pass n).push kind c.position (c.pass n).position := by
  obtain ⟨ch, rest, hahead⟩ := List.exists_cons_of_ne_nil h
  obtain ⟨m, rfl⟩ : ∃ m, n = m + 1 := ⟨n - 1, by omega⟩
  refine if_pos ?_
  have hpos := ch.utf8Size_pos
  rw [position_pass, hahead, List.take_succ_cons, String.utf8Len_cons]
  omega

/-- Behind a reader that has read something, the lexeme of what it has read is cut off. -/
theorem emit_pass {c : Cursor source} {n : Nat} (kind : Kind) (hn : 0 < n) (h : c.ahead ≠ []) :
    ((c.pass n).emit kind c.position).emitted =
      c.emitted.push ⟨kind, String.ofList (c.ahead.take n)⟩ := by
  rw [emit_pass_eq kind hn h, push, slice_pass, emitted_pass]

/-- Behind a reader that has read nothing, nothing is cut off. -/
theorem emit_self (c : Cursor source) (kind : Kind) : c.emit kind c.position = c := by
  rw [emit, if_neg (Nat.lt_irrefl _)]

end Passing

section Readers

/-- Reading the bytes of what is ahead reads those characters. -/
theorem skip_eq {c : Cursor source} (word : List Char) {rest : List Char}
    (h : c.ahead = word ++ rest) : c.skip (String.utf8Len word) = c.pass word.length := by
  have hto (word rest : List Char) (c : Cursor source) (h : c.ahead = word ++ rest) :
      c.skipTo (c.position + String.utf8Len word) = c.pass word.length := by
    induction word generalizing c with
    | nil => rw [skipTo, dif_neg (by simp)]; rfl
    | cons ch word ih =>
      have hne : c.ahead ≠ [] := by simp [h]
      have hpos := ch.utf8Size_pos
      have htail : c.advance.ahead = word ++ rest := by rw [ahead_advance, h]; rfl
      have hposition : c.position + String.utf8Len (ch :: word) =
          c.advance.position + String.utf8Len word := by
        rw [position_advance, h]
        simp only [List.cons_append, List.take_succ_cons, List.take_zero, String.utf8Len_cons,
          String.utf8Len_nil]
        omega
      rw [skipTo, dif_pos ⟨by rw [String.utf8Len_cons]; omega, hne⟩, hposition, ih _ htail]
      rfl
  exact hto word rest c h

/-- What is ahead of a cursor at a word begins with the word. -/
theorem ahead_of_at? {c : Cursor source} {word : String} (h : c.at? word = true) :
    ∃ rest, c.ahead = word.toList ++ rest := by
  rw [at?, Lexer.at?, List.isPrefixOf_iff_prefix] at h
  obtain ⟨rest, hrest⟩ := h
  exact ⟨rest, hrest.symm⟩

/-- Reading the bytes of a word that is ahead reads its characters. -/
theorem skip_of_at? {c : Cursor source} {word : String} (h : c.at? word = true) :
    c.skip word.utf8ByteSize = c.pass word.length := by
  obtain ⟨rest, hahead⟩ := ahead_of_at? h
  have hskip := skip_eq _ hahead
  rwa [← String.utf8ByteSize_ofList, String.ofList_toList, String.length_toList] at hskip

/-- Advancing over characters passes the longest run of them. -/
theorem advanceWhile_eq (test : Char → Bool) (c : Cursor source) :
    c.advanceWhile test = c.pass (run test c.ahead) := by
  fun_induction advanceWhile test c with
  | case1 c h => rw [peek_eq_none_iff.mp h]; rfl
  | case2 c ch h htest ih => rw [ih, ahead_eq_cons h, run, if_pos htest]; rfl
  | case3 c ch h htest => rw [ahead_eq_cons h, run, if_neg htest]; rfl

/-- Reading whitespace emits its measure. -/
theorem lexWhitespace_eq (c : Cursor source) :
    c.lexWhitespace = (c.pass (whitespaceLength c.ahead)).emit .whitespace c.position := by
  have hreads : (c.advanceWhile isBlank).skipNewline = c.pass (whitespaceLength c.ahead) := by
    fun_induction advanceWhile isBlank c with
    | case1 c h =>
      rw [skipNewline, if_neg (by simp [h]), peek_eq_none_iff.mp h]
      rfl
    | case2 c ch h hblank ih =>
      have hbreak : ch ≠ '\n' := by
        rintro rfl
        exact absurd hblank (by decide)
      rw [ih, ahead_eq_cons h, whitespaceLength, if_neg hbreak, if_pos hblank]
      rfl
    | case3 c ch h hblank =>
      rw [ahead_eq_cons h, whitespaceLength, if_neg hblank, skipNewline]
      by_cases hbreak : ch = '\n'
      · rw [if_pos (hbreak ▸ h), if_pos hbreak]
        rfl
      · rw [if_neg (by simpa [h] using hbreak), if_neg hbreak]
        rfl
  rw [lexWhitespace, hreads]

/-- Passing a line comment passes its measure. -/
theorem passLineComment_eq (c : Cursor source) :
    c.passLineComment = c.pass (lineCommentLength c.ahead) := by
  fun_induction passLineComment c with
  | case1 c h => rw [peek_eq_none_iff.mp h]; rfl
  | case2 c ch h hclose =>
    rw [at?, ahead_eq_cons h] at hclose
    rw [ahead_eq_cons h, lineCommentLength, if_pos hclose]
    rfl
  | case3 c hclose h =>
    rw [at?, ahead_eq_cons h] at hclose
    rw [ahead_eq_cons h, lineCommentLength, if_neg hclose, if_pos rfl]
    rfl
  | case4 c ch h hclose hbreak ih =>
    rw [at?, ahead_eq_cons h] at hclose
    rw [ih, ahead_eq_cons h, lineCommentLength, if_neg hclose, if_neg hbreak]
    rfl

/-- An escape reads the next character too, if there is one. -/
theorem pass_escape (quote : Char) (c : Cursor source) (h : c.peek = some '\\') (n : Nat)
    (hn : quotedLength quote c.ahead = n) :
    c.advance.advance.pass (quotedLength quote c.advance.advance.ahead) = c.pass n := by
  rw [ahead_eq_cons h] at hn
  cases hrest : c.advance.ahead with
  | nil =>
    have hone : n = 1 := by
      rw [← hn, hrest, quotedLength]
      · split <;> rfl
      · simp
    rw [advance_of_ahead_nil hrest, hrest, hone]
    rfl
  | cons d rest =>
    rw [hrest, quotedLength] at hn
    rw [ahead_advance, hrest, List.tail_cons, ← hn]
    rfl

/-- Passing a string in single quotes or a command in backticks passes its measure. -/
theorem passQuoted_eq (quote : Char) (c : Cursor source) :
    c.passQuoted quote = c.pass (quotedLength quote c.ahead) := by
  fun_induction passQuoted quote c with
  | case1 c h => rw [peek_eq_none_iff.mp h]; rfl
  | case2 c h ih => rw [ih, pass_escape quote c h _ rfl]
  | case3 c h hescape =>
    rw [ahead_eq_cons h, quotedLength_cons hescape, if_pos rfl]
    rfl
  | case4 c ch h hescape hquote ih =>
    rw [ih, ahead_eq_cons h, quotedLength_cons hescape, if_neg hquote]
    rfl

/-- Passing a string in double quotes passes its measure, and tells whether it interpolates. -/
theorem passDoubleQuoted_eq (interpolated : Bool) (c : Cursor source) :
    c.passDoubleQuoted interpolated =
      (c.pass (quotedLength '"' c.ahead), interpolated || interpolates c.ahead) := by
  fun_induction passDoubleQuoted interpolated c with
  | case1 interpolated c h =>
    rw [peek_eq_none_iff.mp h]
    simp [quotedLength, interpolates, pass]
  | case2 interpolated c h ih =>
    have hsame : interpolates c.advance.advance.ahead = interpolates c.ahead := by
      rw [ahead_eq_cons h]
      cases hrest : c.advance.ahead with
      | nil => rw [advance_of_ahead_nil hrest, hrest]; rfl
      | cons d rest => rw [ahead_advance, hrest]; rfl
    rw [ih, pass_escape '"' c h _ rfl, hsame]
  | case3 interpolated c h hescape =>
    rw [ahead_eq_cons h, quotedLength_cons hescape, if_pos rfl]
    simp [interpolates, pass]
  | case4 interpolated c ch h hescape hquote ih =>
    rw [ih, ahead_eq_cons h, quotedLength_cons hescape, if_neg hquote,
      interpolates_eq hescape hquote, Bool.or_assoc]
    rfl

/-- Length of the first line of a text, line break and all. -/
def lineLength : List Char → Nat
  | [] => 0
  | c :: rest => if c = '\n' then 1 else lineLength rest + 1

/-- Advancing over a line passes the line with its break. -/
theorem advanceLine_eq (c : Cursor source) : c.advanceLine = c.pass (lineLength c.ahead) := by
  fun_induction advanceLine c with
  | case1 c h => rw [peek_eq_none_iff.mp h]; rfl
  | case2 c h => rw [ahead_eq_cons h, lineLength, if_pos rfl]; rfl
  | case3 c ch h hbreak ih => rw [ih, ahead_eq_cons h, lineLength, if_neg hbreak]; rfl

/-- From inside a line, a heredoc goes on to the end of the line at least. -/
theorem heredocLength_line (name text : List Char) :
    heredocLength name false text =
      lineLength text + heredocLength name true (text.drop (lineLength text)) := by
  induction text with
  | nil => rfl
  | cons c text ih =>
    rw [heredocLength_cons, Bool.false_and, if_neg (by decide), lineLength]
    by_cases hbreak : c = '\n'
    · rw [if_pos hbreak, hbreak, List.drop_succ_cons, List.drop_zero, Nat.add_comm]
      rfl
    · rw [if_neg hbreak, beq_false_of_ne hbreak, ih, List.drop_succ_cons]
      omega

/-- Passing the lines of a heredoc passes its measure. -/
theorem passHeredoc_eq (name : List Char) (c : Cursor source) :
    c.passHeredoc name = c.pass (heredocLength name true c.ahead) := by
  fun_induction passHeredoc name c with
  | case1 c h hcloses =>
    obtain ⟨ch, rest, hahead⟩ := List.exists_cons_of_ne_nil (position_lt_iff.mp h)
    have hmeasure : heredocLength name true c.ahead = run isGap c.ahead + name.length := by
      rw [hahead] at hcloses ⊢
      rw [heredocLength_cons, hcloses, Bool.and_self, if_pos rfl]
    have hprefix : name <+: c.ahead.dropWhile isGap := by
      rw [closesHeredoc, Bool.and_eq_true, List.isPrefixOf_iff_prefix] at hcloses
      exact hcloses.1
    obtain ⟨behind, hbehind⟩ := hprefix
    have hsplit : c.ahead = (c.ahead.takeWhile isGap ++ name) ++ behind := by
      rw [List.append_assoc, hbehind, List.takeWhile_append_dropWhile]
    have hlength : run isGap c.ahead = (c.ahead.takeWhile isGap).length := by
      have hdrop := congrArg List.length (drop_run isGap c.ahead)
      have htaken := congrArg List.length
          (List.takeWhile_append_dropWhile (p := isGap) (l := c.ahead))
      have hle := run_le isGap c.ahead
      rw [List.length_append] at htaken
      rw [List.length_drop] at hdrop
      omega
    rw [String.utf8ByteSize_ofList, String.utf8ByteSize_ofList, ← String.utf8Len_append,
      skip_eq _ hsplit, hmeasure, hlength, List.length_append]
  | case2 c h hcloses ih =>
    obtain ⟨ch, rest, hahead⟩ := List.exists_cons_of_ne_nil (position_lt_iff.mp h)
    have hinside : heredocLength name true c.ahead = heredocLength name false c.ahead := by
      rw [hahead] at hcloses ⊢
      rw [heredocLength_cons, heredocLength_cons, Bool.eq_false_iff.mpr hcloses]
      rfl
    rw [ih, advanceLine_eq, pass_pass, ahead_pass, hinside, ← heredocLength_line]
  | case3 c h =>
    rw [Classical.not_not.mp fun hne => h (position_lt_iff.mpr hne)]
    rfl

/-- Passing a fraction passes its measure, and tells whether there is one. -/
theorem passFraction_eq (c : Cursor source) :
    c.passFraction = (c.pass (fractionLength c.ahead), decide (0 < fractionLength c.ahead)) := by
  unfold passFraction
  by_cases hpoint : c.peek = some '.'
  · have hahead := ahead_eq_cons hpoint
    by_cases hpoints : c.at? ".." = true
    · obtain ⟨rest, hrest⟩ := ahead_of_at? hpoints
      have hnone : fractionLength c.ahead = 0 := by rw [hrest]; rfl
      rw [if_neg (by simp [hpoints]), hnone]
      rfl
    · have hsome : fractionLength c.ahead = run isDigitOrGroup c.advance.ahead + 1 := by
        rw [hahead]
        cases hrest : c.advance.ahead with
        | nil => rfl
        | cons d rest =>
          refine fractionLength_point (fun hd => hpoints ?_) rest
          rw [at?, hahead, hrest, hd]
          exact at?_pair_iff rfl |>.mpr ⟨rfl, rfl⟩
      rw [if_pos ⟨hpoint, hpoints⟩, advanceWhile_eq, hsome]
      simp [pass]
  · have hnone : fractionLength c.ahead = 0 := by
      cases hahead : c.ahead with
      | nil => rfl
      | cons d rest =>
        refine fractionLength_of_ne (fun hd => hpoint ?_) rest
        rw [peek_eq_some hahead, hd]
    rw [if_neg (fun h => hpoint h.1), hnone]
    rfl

/-- A character further ahead is one of those behind the first. -/
theorem peekAt_succ {c : Cursor source} {e : Char} {rest : List Char} (h : c.ahead = e :: rest)
    (n : Nat) : c.peekAt (n + 1) = (rest.drop n).head? := by
  rw [peekAt, h, List.getElem?_cons_succ, List.head?_drop]

/-- The sign of an exponent is measured behind its letter. -/
theorem signLength_eq {c : Cursor source} {e : Char} {rest : List Char}
    (h : c.ahead = e :: rest) : c.signLength = Lexer.signLength rest := by
  rw [signLength, peekAt_succ h, List.drop_zero]
  cases rest with
  | nil => rfl
  | cons d rest =>
    by_cases hplus : d = '+'
    · simp [hplus, Lexer.signLength]
    by_cases hminus : d = '-'
    · simp [hminus, Lexer.signLength]
    · simp [Lexer.signLength, hplus, hminus]

/-- The letter of an exponent and its sign take a byte each. -/
theorem skip_exponent {c : Cursor source} {e : Char} {rest : List Char} (h : c.ahead = e :: rest)
    (he : e = 'e' ∨ e = 'E') : c.skip (1 + c.signLength) = c.pass (1 + c.signLength) := by
  have hsize : e.utf8Size = 1 := by rcases he with rfl | rfl <;> rfl
  unfold signLength
  split
  · rename_i hsign
    rw [peekAt_succ h, List.drop_zero] at hsign
    obtain ⟨d, rest, rfl, hd⟩ : ∃ d t, rest = d :: t ∧ d.utf8Size = 1 := by
      rcases hsign with hsign | hsign
      all_goals
        obtain ⟨t, ht⟩ := List.head?_eq_some_iff.mp hsign
        exact ⟨_, t, ht, rfl⟩
    have hskip := skip_eq [e, d] h
    simp only [String.utf8Len_cons, String.utf8Len_nil, hsize, hd] at hskip
    exact hskip
  · have hskip := skip_eq [e] h
    simp only [String.utf8Len_cons, String.utf8Len_nil, hsize] at hskip
    exact hskip

/-- Passing an exponent passes its measure, and tells whether there is one. -/
theorem passExponent_eq (c : Cursor source) :
    c.passExponent = (c.pass (exponentLength c.ahead), decide (0 < exponentLength c.ahead)) := by
  unfold passExponent
  cases hahead : c.ahead with
  | nil =>
    rw [if_neg (by simp [peek, hahead])]
    rfl
  | cons e rest =>
    rw [peek_eq_some hahead, exponentLength_cons, Nat.add_comm 1, peekAt_succ hahead,
      signLength_eq hahead]
    have hguard : ((e == 'e' || e == 'E') &&
        (rest.drop (Lexer.signLength rest)).head?.any Char.isDigit) = true ↔
        (some e = some 'e' ∨ some e = some 'E') ∧
          (rest.drop (Lexer.signLength rest)).head?.any Char.isDigit = true := by
      rw [Bool.and_eq_true, Bool.or_eq_true, beq_iff_eq, beq_iff_eq, Option.some.injEq,
        Option.some.injEq]
    by_cases hscaled : (some e = some 'e' ∨ some e = some 'E') ∧
        (rest.drop (Lexer.signLength rest)).head?.any Char.isDigit = true
    · have hskip := skip_exponent hahead (hscaled.1.imp Option.some.inj Option.some.inj)
      rw [signLength_eq hahead, Nat.add_comm] at hskip
      rw [if_pos hscaled, if_pos (hguard.mpr hscaled), hskip, advanceWhile_eq, pass_pass,
        ahead_pass, hahead, List.drop_succ_cons, Nat.add_comm 1 (Lexer.signLength rest)]
      simp only [Prod.mk.injEq, true_and]
      exact (decide_eq_true (by omega)).symm
    · rw [if_neg hscaled, if_neg (mt hguard.mp hscaled)]
      rfl

/-- The base of a number is a letter of one byte. -/
theorem utf8Size_of_isBase {base : Char} (h : isBase base = true) : base.utf8Size = 1 := by
  have hmem : base ∈ ['x', 'X', 'b', 'B', 'o', 'O'] := List.contains_iff_mem.mp h
  simp only [List.mem_cons, List.not_mem_nil, or_false] at hmem
  rcases hmem with rfl | rfl | rfl | rfl | rfl | rfl
  all_goals rfl

/-- A number is decimal if it has a fraction or an exponent. -/
theorem kind_of_lengths (fraction exponent : Nat) :
    (if (decide (0 < fraction) || decide (0 < exponent)) = true then Kind.decimal else .integer) =
      if fraction + exponent = 0 then .integer else .decimal := by
  by_cases hnone : fraction + exponent = 0
  · obtain ⟨rfl, rfl⟩ := Nat.add_eq_zero_iff.mp hnone
    rfl
  · rw [if_neg hnone, if_pos]
    rw [Bool.or_eq_true, decide_eq_true_eq, decide_eq_true_eq]
    omega

/-- Reading a number emits its measure under its kind. -/
theorem lexNumber_eq (c : Cursor source) :
    c.lexNumber = (c.pass (number c.ahead).2).emit (number c.ahead).1 c.position := by
  unfold lexNumber
  by_cases hbase : c.peek = some '0' ∧ (c.peekAt 1).any isBase = true
  · have hahead := ahead_eq_cons hbase.1
    obtain ⟨base, hnext, hstates⟩ := (Option.any_eq_true _ _).mp hbase.2
    rw [peekAt_succ hahead, List.drop_zero] at hnext
    obtain ⟨rest, hrest⟩ := List.head?_eq_some_iff.mp hnext
    rw [hrest] at hahead
    have hskip := skip_eq ['0', base] hahead
    simp only [String.utf8Len_cons, String.utf8Len_nil, utf8Size_of_isBase hstates] at hskip
    rw [if_pos hbase, show c.skip 2 = c.pass 2 from hskip, advanceWhile_eq, pass_pass, ahead_pass,
      hahead, number_cons_cons, if_pos ⟨rfl, hstates⟩]
    rfl
  · have hplain : number c.ahead = number.plain c.ahead := by
      cases hahead : c.ahead with
      | nil => rfl
      | cons d rest =>
        cases rest with
        | nil => rw [number]; simp
        | cons e rest =>
          rw [number_cons_cons, if_neg]
          rintro ⟨rfl, hstates⟩
          refine hbase ⟨peek_eq_some hahead, ?_⟩
          rw [peekAt_succ hahead]
          exact hstates
    rw [if_neg hbase, hplain, advanceWhile_eq, passFraction_eq]
    dsimp only
    rw [passExponent_eq]
    simp only [pass_pass, ahead_pass, number.plain, kind_of_lengths]

end Readers

section DocReaders

/-- Passing the text of a documentation line passes the line, and stops behind what is visible of
it. -/
theorem passDocText_eq (stop : Nat) (c : Cursor source) :
    c.passDocText stop = (c.pass (docLine c.ahead).length,
      if visibleLength (docLine c.ahead) = 0 then stop
      else (c.pass (visibleLength (docLine c.ahead))).position) := by
  fun_induction passDocText stop c with
  | case1 stop c h =>
    rw [peek_eq_none_iff.mp h]
    rfl
  | case2 stop c ch h hends =>
    have hline : docLine c.ahead = [] := by
      rw [at?, at?, ahead_eq_cons h, at?_return_iff, at?_close_iff] at hends
      rw [ahead_eq_cons h, docLine_cons, if_pos hends]
    rw [hline]
    rfl
  | case3 stop c ch h hends ih =>
    have hline : docLine c.ahead = ch :: docLine c.advance.ahead := by
      rw [at?, at?, ahead_eq_cons h, at?_return_iff, at?_close_iff] at hends
      exact (congrArg docLine (ahead_eq_cons h)).trans ((docLine_cons _ _).trans (if_neg hends))
    simp only [dite_eq_ite] at ih
    rw [ih, hline, visibleLength]
    generalize docLine c.advance.ahead = line
    by_cases hrest : visibleLength line = 0
    · cases hblank : isBlank ch <;> simp [hrest, pass]
    · simp [hrest, pass]

/-- The cursor behind the visible text of a line, which it has cut off. -/
def passVisible (c : Cursor source) : Cursor source :=
  (c.pass (visibleLength (docLine c.ahead))).emit .docText c.position

/-- The text of a line and the blanks behind it are cut off one after the other. -/
theorem lexDocString_eq {c : Cursor source} (h : 0 < visibleLength (docLine c.ahead)) :
    c.lexDocString =
      (c.passVisible.pass ((docLine c.ahead).length - visibleLength (docLine c.ahead))).emit
        .docWhitespace c.passVisible.position := by
  have hne : c.ahead ≠ [] := by
    intro hnil
    rw [hnil] at h
    exact absurd h (by decide)
  rw [lexDocString, passDocText_eq, if_neg (by omega), passVisible, emit_pass_eq _ h hne,
    pass_push, pass_pass, Nat.add_sub_cancel' (visibleLength_le (docLine c.ahead))]
  rfl

end DocReaders

end Cursor

end PhpStyle.Php
