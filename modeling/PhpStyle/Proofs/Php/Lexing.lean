import PhpStyle.Php.Words
import PhpStyle.Proofs.Php.Turns

/-!
# What the lexer cuts a text into

`Cut` says step by step how lexemes are taken off a text: each has the characters that its step
measured, no fewer and no more, and the next mode goes on right behind it. The lexer cuts every text
in this way to its end. So no lexeme is empty, there are at most as many as characters, and together
they spell the text; settling the words changes none of their texts.
-/

namespace PhpStyle.Php

/-- Lexemes cut off a whole text one after the other, from a mode on: each is of the kind that the
step says and has exactly the characters that it measures. -/
inductive Cut : Mode → List Char → List Lexeme → Prop
  | done (mode : Mode) : Cut mode [] []
  | step {mode : Mode} {c : Char} {taken rest : List Char} {lexemes : List Lexeme}
      (hextra : (mode.step c (taken ++ rest)).extra = taken.length)
      (hrest : Cut (mode.step c (taken ++ rest)).next rest lexemes) :
      Cut mode (c :: (taken ++ rest))
        (⟨(mode.step c (taken ++ rest)).kind, String.ofList (c :: taken)⟩ :: lexemes)

/-- The lexer cuts every text to its end. -/
theorem lexFrom_cut (mode : Mode) (text : List Char) : Cut mode text (lexFrom mode text) := by
  fun_induction lexFrom mode text with
  | case1 mode => exact .done mode
  | case2 mode c rest s ih =>
    have hle : s.extra ≤ rest.length := mode.step_extra_le c rest
    obtain ⟨taken, behind, hsplit, hlength⟩ :
        ∃ taken behind, rest = taken ++ behind ∧ taken.length = s.extra :=
      ⟨rest.take s.extra, rest.drop s.extra, (List.take_append_drop _ _).symm,
        List.length_take_of_le hle⟩
    have htake : rest.take s.extra = taken := by rw [hsplit, List.take_left' hlength]
    have hdrop : rest.drop s.extra = behind := by rw [hsplit, List.drop_left' hlength]
    rw [hdrop] at ih
    rw [htake, hdrop]
    subst hsplit
    exact .step hlength.symm ih

namespace Cut

/-- No token cut off a text is empty. -/
theorem text_ne_empty {mode : Mode} {text : List Char} {lexemes : List Lexeme}
    (h : Cut mode text lexemes) : ∀ l ∈ lexemes, l.text ≠ "" := by
  induction h with
  | done => simp
  | @step mode c taken rest lexemes _ _ ih =>
    intro l hl
    rcases List.mem_cons.mp hl with rfl | hl
    · intro hempty
      have h := congrArg String.toList hempty
      simp at h
    · exact ih l hl

/-- The tokens cut off a text spell it. -/
theorem spells {mode : Mode} {text : List Char} {lexemes : List Lexeme}
    (h : Cut mode text lexemes) : lexemes.flatMap (·.text.toList) = text := by
  induction h with
  | done => rfl
  | step _ _ ih => simp [ih]

/-- A text has no more tokens than characters. -/
theorem length_le {mode : Mode} {text : List Char} {lexemes : List Lexeme}
    (h : Cut mode text lexemes) : lexemes.length ≤ text.length := by
  induction h with
  | done => exact Nat.le_refl 0
  | step _ _ ih =>
    simp only [List.length_cons, List.length_append]
    omega

end Cut

namespace Lexer

/-- A number is an integer or a decimal. -/
theorem number_kind (text : List Char) :
    (number text).1 = .integer ∨ (number text).1 = .decimal := by
  have hplain : (number.plain text).1 = .integer ∨ (number.plain text).1 = .decimal := by
    simp only [number.plain]
    split
    · exact .inl rfl
    · exact .inr rfl
  unfold number
  split
  · split
    · exact .inl rfl
    · exact hplain
  · exact hplain

/-- Kinds of the lexemes that are read in code and followed by code, but for whitespace, comments,
operators and words. -/
def plainKinds : List Kind :=
  [.attribute, .variable, .quotedString, .interpolatedString, .backtick, .shiftLeft,
    .heredoc, .integer, .decimal, .unknown]

/-- What can be said of every step in code is said of close tags, of comments of each sort, of
whitespace, of operators, of words, and of what is left. -/
theorem codeStep_induct {p : Step → Prop} {c : Char} (rest : List Char)
    (hclose : c = '?' → ∀ n, p ⟨.closeTag, n, .html⟩)
    (hblank : isBlank c = true ∨ c = '\n' → ∀ n, p ⟨.whitespace, n, .code⟩)
    (hline : c = '#' ∨ c = '/' → ∀ n, p ⟨.comment, n, .code⟩)
    (hdoc : c = '/' → p ⟨.docOpen, 2, .docComment false⟩)
    (hblock : c = '/' → ∀ body, p ⟨.comment, (blockLine body).1 + 1, (blockLine body).2⟩)
    (hplain : ∀ k ∈ plainKinds, ∀ n, p ⟨k, n, .code⟩)
    (hoperator : ∀ o ∈ operators, ∀ n, p ⟨o.2, n, .code⟩)
    (hword : startsWord c = true → ∀ word n, p ⟨wordKind word, n, .code⟩) :
    p (codeStep c rest) := by
  have hquotes : ∀ k ∈ [Kind.quotedString, .interpolatedString, .backtick], k ∈ plainKinds := by
    decide
  have hmark (text : List Char) : p (operatorStep text) := by
    unfold operatorStep
    split
    · rename_i hfound
      exact hoperator _ (List.mem_of_find?_eq_some hfound) _
    · exact hplain .unknown (by decide) 0
  apply codeStep_cases
  case hclose =>
    intro htag
    rw [at?, List.isPrefixOf_iff_prefix] at htag
    exact hclose (List.cons_prefix_cons.mp htag).1.symm _
  case hblank => exact fun h => hblank h _
  case hattribute => exact fun _ _ => hplain .attribute (by decide) _
  case hcomment => exact fun hhash => hline (.inl hhash) _
  case hslash =>
    intro hslash
    unfold slashStep
    split
    · exact hline (.inr hslash) _
    · exact iteInduction (fun _ => hdoc hslash) fun _ => hblock hslash _
    · exact hmark _
  case hdollar => exact fun _ => hplain .variable (by decide) _
  case hquoted => exact fun _ k hk => hplain k (hquotes k hk) _
  case hshift => exact fun _ => hplain .shiftLeft (by decide) _
  case hheredoc => exact fun _ _ => hplain .heredoc (by decide) _
  case hnumber =>
    intro _
    rcases number_kind (c :: rest) with h | h
    · rw [h]
      exact hplain .integer (by decide) _
    · rw [h]
      exact hplain .decimal (by decide) _
  case hword => exact fun _ => iteInduction (fun hstarts => hword hstarts _ _) fun _ => hmark _

end Lexer

/-- Settling words keeps every text. -/
theorem Words.map_text_settleFrom (before after : List Lexeme) :
    (settleFrom before after).map (·.text) = after.map (·.text) := by
  induction after generalizing before with
  | nil => rfl
  | cons l after ih =>
    have htext : (if isWord l then { l with kind := settledKind l.kind before after } else l).text =
        l.text := by
      split <;> rfl
    simp only [settleFrom, List.map_cons, ih, htext]

/-- Settling words leaves all texts as they are. -/
theorem map_text_settleWords (lexemes : List Lexeme) :
    (settleWords lexemes).map (·.text) = lexemes.map (·.text) :=
  Words.map_text_settleFrom [] lexemes

/-- The lexer cuts every source to its end, from text outside PHP on. -/
theorem lex_cut (source : String) : Cut .html source.toList (lex source) :=
  lex_eq_lexFrom source ▸ lexFrom_cut .html source.toList

/-- The texts of the lexemes make up the source. -/
theorem join_text_lex (source : String) : String.join ((lex source).map (·.text)) = source := by
  rw [← String.toList_inj, String.toList_join, List.flatMap_map]
  exact (lex_cut source).spells

end PhpStyle.Php
