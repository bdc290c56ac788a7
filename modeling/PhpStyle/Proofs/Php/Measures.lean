import PhpStyle.Proofs.Php.Modes

/-!
# No measure passes the end of the text

Every mode of the lexer says how many characters the next lexeme has behind its first. This file
proves of each way to measure that the characters are there, and so that no step reads past the end
of a text, closed or not.
-/

namespace PhpStyle.Php.Lexer

/-- A run goes no further than the text. -/
theorem run_le (test : Char → Bool) (text : List Char) : run test text ≤ text.length := by
  induction text with
  | nil => exact Nat.le_refl 0
  | cons c rest ih =>
    simp only [run, List.length_cons]
    split <;> omega

/-- A text that starts with a word has at least its characters. -/
theorem length_le_of_at? {word : String} {text : List Char} (h : at? word text = true) :
    word.length ≤ text.length := by
  rw [at?, List.isPrefixOf_iff_prefix] at h
  have hle := h.length_le
  rwa [String.length_toList] at hle

/-- A line break goes no further than the text. -/
theorem lineBreakLength_le (text : List Char) : lineBreakLength text ≤ text.length := by
  unfold lineBreakLength
  split <;> simp

/-- A piece of template text goes no further than the text. -/
theorem htmlLength_le (text : List Char) : htmlLength text ≤ text.length := by
  induction text with
  | nil => exact Nat.le_refl 0
  | cons c rest ih =>
    simp only [htmlLength, List.length_cons]
    split
    · omega
    · split <;> omega

/-- Whitespace goes no further than the text. -/
theorem whitespaceLength_le (text : List Char) : whitespaceLength text ≤ text.length := by
  induction text with
  | nil => exact Nat.le_refl 0
  | cons c rest ih =>
    simp only [whitespaceLength, List.length_cons]
    split
    · omega
    · split <;> omega

/-- A line comment goes no further than the text. -/
theorem lineCommentLength_le (text : List Char) : lineCommentLength text ≤ text.length := by
  induction text with
  | nil => exact Nat.le_refl 0
  | cons c rest ih =>
    simp only [lineCommentLength, List.length_cons]
    split
    · omega
    · split <;> omega

/-- A line of a block comment goes no further than the text. -/
theorem blockLine_le (text : List Char) : (blockLine text).1 ≤ text.length := by
  fun_induction blockLine text with
  | case1 => simp
  | case2 => simp
  | case3 => simp
  | case4 c rest hbreak hclose n mode heq ih =>
    rw [heq] at ih
    simp only [List.length_cons] at ih ⊢
    omega

/-- A string goes no further than the text, closed or not. -/
theorem quotedLength_le (quote : Char) (text : List Char) :
    quotedLength quote text ≤ text.length := by
  fun_induction quotedLength quote text with
  | case1 => simp
  | case2 c rest ih => simpa using ih
  | case3 => simp
  | case4 c rest _ _ ih => simpa using ih

/-- A heredoc goes no further than the text, closed or not. -/
theorem heredocLength_le (name : List Char) (lineStart : Bool) (text : List Char) :
    heredocLength name lineStart text ≤ text.length := by
  induction text generalizing lineStart with
  | nil => exact Nat.le_refl 0
  | cons c rest ih =>
    let indent := run isGap (c :: rest)
    simp only [heredocLength]
    split
    · rename_i hcloses
      simp only [Bool.and_eq_true, List.isPrefixOf_iff_prefix] at hcloses
      have hname : name.length ≤ ((c :: rest).drop indent).length := hcloses.1.2.length_le
      have hindent : indent ≤ (c :: rest).length := run_le _ _
      rw [List.length_drop] at hname
      change indent + name.length ≤ _
      omega
    · have := ih (c == '\n')
      simp only [List.length_cons]
      omega

/-- A fraction goes no further than the text. -/
theorem fractionLength_le (text : List Char) : fractionLength text ≤ text.length := by
  unfold fractionLength
  split
  · simp
  · simpa using run_le _ _
  · simp

/-- An exponent goes no further than the text. -/
theorem exponentLength_le (text : List Char) : exponentLength text ≤ text.length := by
  cases text with
  | nil => exact Nat.le_refl 0
  | cons e rest =>
    have hread (sign : Nat) (hsign : sign ≤ rest.length) (starts : Bool) :
        (if starts then 1 + sign + run isDigitOrGroup (rest.drop sign) else 0) ≤
          (e :: rest).length := by
      have hrun := run_le isDigitOrGroup (rest.drop sign)
      rw [List.length_drop] at hrun
      rw [List.length_cons]
      split <;> omega
    refine hread _ ?_ _
    split <;> simp

/-- A number goes no further than the text. -/
theorem number_le (text : List Char) : (number text).2 ≤ text.length := by
  have hplain : (number.plain text).2 ≤ text.length := by
    have hwhole := run_le isDigitOrGroup text
    have hfraction := fractionLength_le (text.drop (run isDigitOrGroup text))
    have hexponent := exponentLength_le (text.drop (run isDigitOrGroup text +
      fractionLength (text.drop (run isDigitOrGroup text))))
    simp only [List.length_drop] at hfraction hexponent
    simp only [number.plain]
    omega
  unfold number
  split
  · split
    · rename_i base rest _
      have := run_le isHexOrGroup rest
      simp only [List.length_cons]
      omega
    · exact hplain
  · exact hplain

/-- A line of a documentation comment goes no further than the text. -/
theorem length_docLine_le (text : List Char) : (docLine text).length ≤ text.length := by
  fun_induction docLine text with
  | case1 => simp
  | case2 => simp
  | case3 => simp
  | case4 => simp
  | case5 c rest _ _ _ ih => simpa using ih

/-- What is visible of a line goes no further than the text. -/
theorem visibleLength_le (text : List Char) : visibleLength text ≤ text.length := by
  induction text with
  | nil => exact Nat.le_refl 0
  | cons c rest ih =>
    simp only [visibleLength, List.length_cons]
    split <;> omega

/-- The gap behind a tag does not pass the end. -/
theorem tagGap_le (text : List Char) : tagGap text ≤ text.length := by
  unfold tagGap
  split
  · simp
  · simp
  · exact lineBreakLength_le _

/-- No step through template text passes the end. -/
theorem htmlStep_extra_le (c : Char) (rest : List Char) :
    (htmlStep c rest).extra ≤ rest.length := by
  unfold htmlStep
  split
  · rename_i hecho
    have h := length_le_of_at? hecho
    have : "<?=".length = 3 := rfl
    simp only [List.length_cons] at h ⊢
    omega
  · split
    · rename_i hopen
      have hfour : 4 ≤ rest.length := by
        have h := congrArg List.length (beq_iff_eq.mp hopen)
        simp only [List.length_map, List.length_take, List.length_cons] at h
        have : "<?php".toList.length = 5 := rfl
        omega
      have hsum (gap : Nat) (hgap : gap ≤ (rest.drop 4).length) : 4 + gap ≤ rest.length := by
        rw [List.length_drop] at hgap
        omega
      exact hsum _ (tagGap_le _)
    · simp only
      split
      · omega
      · exact htmlLength_le rest

/-- No operator passes the end. -/
theorem operatorStep_extra_le (c : Char) (rest : List Char) :
    (operatorStep (c :: rest)).extra ≤ rest.length := by
  unfold operatorStep
  split
  · rename_i op kind hfind
    have hfound := List.find?_some hfind
    have h := length_le_of_at? hfound
    simp only [List.length_cons] at h ⊢
    omega
  · exact Nat.zero_le _

/-- No word passes the end. -/
theorem wordStep_extra_le (c : Char) (rest : List Char) :
    (wordStep c rest).extra ≤ rest.length := by
  unfold wordStep
  split
  · exact run_le _ _
  · exact operatorStep_extra_le c rest

/-- Nothing that starts with a slash passes the end. -/
theorem slashStep_extra_le (rest : List Char) : (slashStep rest).extra ≤ rest.length := by
  unfold slashStep
  split
  · exact lineCommentLength_le _
  · rename_i body
    split
    · rename_i hdoc
      rw [Bool.and_eq_true] at hdoc
      have h := length_le_of_at? hdoc.1
      have : "*".length = 1 := rfl
      simp only [List.length_cons]
      omega
    · have h := blockLine_le body
      simp only [List.length_cons]
      omega
  · exact operatorStep_extra_le '/' _

/-- What is said of each beginning that a text can have in code is said of the step there. The
quotes share one case: they measure in the same way. -/
theorem codeStep_cases {p : Step → Prop} {c : Char} {rest : List Char}
    (hclose : at? "?>" (c :: rest) = true → p ⟨.closeTag, 1 + lineBreakLength (rest.drop 1), .html⟩)
    (hblank : isBlank c = true ∨ c = '\n' →
      p ⟨.whitespace, whitespaceLength (c :: rest) - 1, .code⟩)
    (hattribute : c = '#' → at? "[" rest = true → p ⟨.attribute, 1, .code⟩)
    (hcomment : c = '#' → p ⟨.comment, lineCommentLength rest, .code⟩)
    (hslash : c = '/' → p (slashStep rest))
    (hdollar : c = '$' → p ⟨.variable, run continuesWord rest, .code⟩)
    (hquoted : c ∈ ['\'', '"', '`'] → ∀ k ∈ [Kind.quotedString, .interpolatedString, .backtick],
      p ⟨k, quotedLength c rest, .code⟩)
    (hshift : at? "<<<" (c :: rest) = true → p ⟨.shiftLeft, 1, .code⟩)
    (hheredoc : at? "<<<" (c :: rest) = true → heredocName (rest.drop 2) ≠ [] →
      p ⟨.heredoc, heredocLength (heredocName (rest.drop 2)) false rest, .code⟩)
    (hnumber : ¬ (isBlank c = true ∨ c = '\n') →
      p ⟨(number (c :: rest)).1, (number (c :: rest)).2 - 1, .code⟩)
    (hword : ¬ (isBlank c = true ∨ c = '\n') → p (wordStep c rest)) : p (codeStep c rest) := by
  have hquoted (mark : Char) (hc : (c == mark) = true) (k : Kind)
      (hmark : mark ∈ ['\'', '"', '`'] := by decide)
      (hk : k ∈ [Kind.quotedString, .interpolatedString, .backtick] := by decide) :
      p ⟨k, quotedLength c rest, .code⟩ :=
    hquoted (beq_iff_eq.mp hc ▸ hmark) k hk
  unfold codeStep
  refine iteInduction hclose fun _ => ?_
  refine iteInduction (fun h => hblank (by simpa using h)) fun hshown => ?_
  replace hshown : ¬ (isBlank c = true ∨ c = '\n') := by simpa using hshown
  refine iteInduction (fun hc => ?hash) fun _ => ?_
  case hash =>
    exact iteInduction (hattribute (beq_iff_eq.mp hc)) fun _ => hcomment (beq_iff_eq.mp hc)
  refine iteInduction (fun hc => hslash (beq_iff_eq.mp hc)) fun _ => ?_
  refine iteInduction (fun h => hdollar (beq_iff_eq.mp (Bool.and_eq_true_iff.mp h).1)) fun _ => ?_
  refine iteInduction (fun hc => hquoted '\'' hc .quotedString) fun _ => ?_
  refine iteInduction (fun hc => ?double) fun _ => ?_
  case double =>
    split
    · exact hquoted '"' hc .interpolatedString
    · exact hquoted '"' hc .quotedString
  refine iteInduction (fun hc => hquoted '`' hc .backtick) fun _ => ?_
  refine iteInduction (fun hat => ?heredoc) fun _ => ?_
  case heredoc =>
    split
    · exact hshift hat
    · exact hheredoc hat ‹_›
  exact iteInduction (fun _ => hnumber hshown) fun _ => hword hshown

/-- No step through code passes the end. -/
theorem codeStep_extra_le (c : Char) (rest : List Char) :
    (codeStep c rest).extra ≤ rest.length := by
  apply codeStep_cases (p := fun s => s.extra ≤ rest.length)
  case hclose =>
    intro hclose
    have h := length_le_of_at? hclose
    have hbreak := lineBreakLength_le (rest.drop 1)
    have : "?>".length = 2 := rfl
    simp only [List.length_cons, List.length_drop] at h hbreak ⊢
    omega
  case hblank =>
    intro _
    have h := whitespaceLength_le (c :: rest)
    simp only [List.length_cons] at h ⊢
    omega
  case hattribute => exact fun _ => length_le_of_at?
  case hcomment => exact fun _ => lineCommentLength_le rest
  case hslash => exact fun _ => slashStep_extra_le rest
  case hdollar => exact fun _ => run_le _ _
  case hquoted => exact fun _ _ _ => quotedLength_le c rest
  case hshift =>
    intro hshift
    have h := length_le_of_at? hshift
    have : "<<<".length = 3 := rfl
    simp only [List.length_cons] at h ⊢
    omega
  case hheredoc => exact fun _ _ => heredocLength_le _ _ rest
  case hnumber =>
    intro _
    have h := number_le (c :: rest)
    simp only [List.length_cons] at h ⊢
    omega
  case hword => exact fun _ => wordStep_extra_le c rest

/-- No step through a line of a documentation comment passes the end. -/
theorem docStep_extra_le (lineStart : Bool) (c : Char) (rest : List Char) :
    (docStep lineStart c rest).extra ≤ rest.length := by
  unfold docStep
  split
  · rename_i hclose
    have h := length_le_of_at? hclose
    have : "*/".length = 2 := rfl
    simp only [List.length_cons] at h ⊢
    omega
  split
  · rename_i n hbreak
    have h := lineBreakLength_le (c :: rest)
    simp only [List.length_cons] at h ⊢
    omega
  split
  · exact run_le _ _
  split
  · exact Nat.zero_le _
  split
  · exact run_le _ _
  · exact Nat.le_trans (visibleLength_le _) (length_docLine_le rest)

/-- No step at the end of a documentation comment passes the end. -/
theorem docTailStep_extra_le (c : Char) (rest : List Char) :
    (docTailStep c rest).extra ≤ rest.length := by
  unfold docTailStep
  split
  · rename_i first blanks hline
    split
    · have h := length_docLine_le (c :: rest)
      rw [hline] at h
      simpa using h
    · exact docStep_extra_le false c rest
  · exact docStep_extra_le false c rest

end PhpStyle.Php.Lexer

namespace PhpStyle.Php

/-- No step of any mode measures more characters than there are. -/
theorem Mode.step_extra_le (mode : Mode) (c : Char) (rest : List Char) :
    (mode.step c rest).extra ≤ rest.length := by
  cases mode with
  | html => exact Lexer.htmlStep_extra_le c rest
  | code => exact Lexer.codeStep_extra_le c rest
  | blockComment =>
    have h := Lexer.blockLine_le (c :: rest)
    simp only [List.length_cons] at h
    simp only [step]
    omega
  | docComment lineStart => exact Lexer.docStep_extra_le lineStart c rest
  | docTail => exact Lexer.docTailStep_extra_le c rest

end PhpStyle.Php
