import PhpStyle.Proofs.Php.Shapes

/-!
# How comments end

What a comment ends with is no mere blank: the last lexeme of a comment shows a character or ends
its line, if anything follows it. So in front of a token that stands further in on a line there is
no comment that nobody sees.
-/

namespace PhpStyle.Php

/-- A text with a visible character, or one that ends its line. -/
def ShowsOrBreaks (cs : List Char) : Prop :=
  (∃ c ∈ cs, Text.isSpace c = false) ∨ cs.getLast? = some '\n'

namespace Lexer

/-- A line of a comment that is not the end of the text breaks, or shows the end of the comment. -/
theorem showsOrBreaks_take_blockLine (text : List Char) (h : text.drop (blockLine text).1 ≠ []) :
    ShowsOrBreaks (text.take (blockLine text).1) := by
  fun_induction blockLine text with
  | case1 => exact absurd rfl h
  | case2 => exact .inr rfl
  | case3 => exact .inl ⟨'/', by simp, rfl⟩
  | case4 c rest _ _ n mode heq ih =>
    rw [heq] at ih
    rw [List.take_succ_cons]
    rcases ih h with ⟨d, hd, hvisible⟩ | hlast
    · exact .inl ⟨d, List.mem_cons_of_mem c hd, hvisible⟩
    · exact .inr (by simp [List.getLast?_cons, hlast])

/-- Operators are no comments. -/
theorem isComment_operatorStep (text : List Char) : (operatorStep text).kind.isComment = false := by
  have htable : ∀ o ∈ operators, o.2.isComment = false := by decide
  unfold operatorStep
  split
  · rename_i hfound
    exact htable _ (List.mem_of_find?_eq_some hfound)
  · rfl

/-- In code a comment starts with a hash or a slash. -/
theorem start_of_isComment_codeStep (c : Char) (rest : List Char) :
    (codeStep c rest).kind.isComment = true → c = '#' ∨ c = '/' := by
  have hnever {k : Kind} (hk : k.isComment = false) (h : k.isComment = true) : c = '#' ∨ c = '/' :=
    absurd (h.symm.trans hk) (by decide)
  have hplain : ∀ k ∈ plainKinds, k.isComment = false := by decide
  have hoperator : ∀ o ∈ operators, o.2.isComment = false := by decide
  apply codeStep_induct (p := fun s => s.kind.isComment = true → c = '#' ∨ c = '/')
  case hclose => exact fun _ _ => nofun
  case hblank => exact fun _ _ => nofun
  case hline => exact fun hc _ _ => hc
  case hdoc => exact fun hc _ => .inr hc
  case hblock => exact fun hc _ _ => .inr hc
  case hplain => exact fun k hk _ => hnever (hplain k hk)
  case hoperator => exact fun o ho _ => hnever (hoperator o ho)
  case hword => exact fun _ word _ => hnever (isComment_wordKind word)

/-- Comments in code start with a character that is no blank. -/
theorem isSpace_of_isComment_codeStep {c : Char} {rest : List Char}
    (h : (codeStep c rest).kind.isComment = true) : Text.isSpace c = false := by
  rcases start_of_isComment_codeStep c rest h with rfl | rfl
  · rfl
  · rfl

end Lexer

/-- The kinds of lexemes that a comment can end with. -/
def endsComment (k : Kind) : Bool := k == .comment || k == .docClose

/-- What ends a comment is part of one. -/
theorem isComment_of_endsComment {k : Kind} (h : endsComment k = true) : k.isComment = true := by
  rw [endsComment, Bool.or_eq_true, beq_iff_eq, beq_iff_eq] at h
  rcases h with rfl | rfl <;> rfl

/-- What is part of a comment and leaves no documentation comment open can end it. -/
theorem endsComment_of_isComment {k : Kind} (h : k.isComment = true)
    (hopen : k.leavesDocOpen = false) : endsComment k = true := by
  revert h hopen
  cases k <;> decide

/-- Text outside PHP is no comment. -/
theorem endsComment_htmlStep (c : Char) (rest : List Char) :
    endsComment (Lexer.htmlStep c rest).kind = false := by
  unfold Lexer.htmlStep
  split
  · rfl
  split
  · rfl
  · rfl

/-- In a documentation comment only the closing tag can end it. -/
theorem endsComment_docStep (lineStart : Bool) {c : Char} {rest : List Char}
    (hclose : ¬ Lexer.at? "*/" (c :: rest) = true) :
    endsComment (Lexer.docStep lineStart c rest).kind = false := by
  unfold Lexer.docStep
  rw [if_neg hclose]
  split
  · rfl
  split
  · rfl
  split
  · rfl
  split
  · rfl
  · rfl

/-- What a documentation comment ends with shows something, or it is a line break. -/
theorem showsOrBreaks_docStep {lineStart : Bool} {c : Char} {rest : List Char}
    (hkind : endsComment (Lexer.docStep lineStart c rest).kind = true) :
    ShowsOrBreaks (c :: rest.take (Lexer.docStep lineStart c rest).extra) := by
  have hclose : Lexer.at? "*/" (c :: rest) = true := by
    by_contra hnot
    simp [endsComment_docStep lineStart hnot] at hkind
  rw [Lexer.at?, List.isPrefixOf_iff_prefix] at hclose
  have hstar : c = '*' := (List.cons_prefix_cons.mp hclose).1.symm
  exact .inl ⟨'*', by simp [hstar], rfl⟩

/-- A step that leaves some of the text and takes what a comment can end with shows a character or
ends the line. -/
theorem Mode.step_showsOrBreaks (mode : Mode) (c : Char) (rest : List Char)
    (hkind : endsComment (mode.step c rest).kind = true)
    (hleft : rest.drop (mode.step c rest).extra ≠ []) :
    ShowsOrBreaks (c :: rest.take (mode.step c rest).extra) := by
  cases mode with
  | html =>
    rw [step, endsComment_htmlStep] at hkind
    cases hkind
  | code =>
    have hvisible := Lexer.isSpace_of_isComment_codeStep (isComment_of_endsComment hkind)
    exact .inl ⟨c, List.mem_cons_self, hvisible⟩
  | blockComment =>
    obtain ⟨n, hn⟩ : ∃ n, (Lexer.blockLine (c :: rest)).1 = n + 1 :=
      ⟨_, (Nat.succ_pred_eq_of_pos (Lexer.blockLine_pos c rest)).symm⟩
    have hshows := Lexer.showsOrBreaks_take_blockLine (c :: rest)
    rw [hn] at hshows
    simp only [step, hn] at hleft ⊢
    exact hshows hleft
  | docComment lineStart => exact showsOrBreaks_docStep hkind
  | docTail =>
    simp only [step, Lexer.docTailStep] at hkind ⊢
    split
    · split
      · rename_i hline hblank
        simp only [hline, hblank] at hkind
        cases hkind
      · rename_i hline hblank
        simp only [hline, hblank] at hkind
        exact showsOrBreaks_docStep hkind
    · rename_i hline
      simp only [hline] at hkind
      exact showsOrBreaks_docStep hkind

/-- Of the lexemes of a text, all but the last that a comment can end with show a character or end
their line. -/
theorem showsOrBreaks_lexFrom (mode : Mode) (text : List Char) :
    ∀ l ∈ (lexFrom mode text).dropLast, endsComment l.kind = true →
      ShowsOrBreaks l.text.toList := by
  fun_induction lexFrom mode text with
  | case1 => simp
  | case2 mode c rest s ih =>
    intro l hl hkind
    by_cases hleft : rest.drop s.extra = []
    · rw [hleft, lexFrom] at hl
      cases hl
    · have hne : lexFrom s.next (rest.drop s.extra) ≠ [] := by
        obtain ⟨d, rest', hrest⟩ := List.exists_cons_of_ne_nil hleft
        rw [hrest, lexFrom]
        exact List.cons_ne_nil _ _
      rw [List.dropLast_cons_of_ne_nil hne] at hl
      rcases List.mem_cons.mp hl with rfl | hl
      · rw [String.toList_ofList]
        exact mode.step_showsOrBreaks c rest hkind hleft
      · exact ih l hl hkind

/-- Settling words touches no comment. -/
theorem mem_of_mem_settleFrom {before after : List Lexeme} {l : Lexeme}
    (hl : l ∈ (Words.settleFrom before after).dropLast) (hcomment : l.kind.isComment = true) :
    l ∈ after.dropLast := by
  induction after generalizing before with
  | nil => cases hl
  | cons first after ih =>
    rw [Words.settleFrom] at hl
    cases after with
    | nil => cases hl
    | cons second after =>
      rw [List.dropLast_cons_of_ne_nil (by rw [Words.settleFrom]; exact List.cons_ne_nil _ _)] at hl
      rw [List.dropLast_cons_of_ne_nil (List.cons_ne_nil _ _)]
      rcases List.mem_cons.mp hl with heq | hl
      · split at heq
        · rename_i hword
          have hkind := (isComment_settledKind hword before (second :: after)).2
          rw [heq] at hcomment
          simp [hkind] at hcomment
        · rw [heq]
          exact List.mem_cons_self
      · exact List.mem_cons_of_mem first (ih hl)

/-- Of the lexemes of a file, all but the last that a comment can end with show a character or end
their line. -/
theorem showsOrBreaks_settleWords {source : String} {l : Lexeme}
    (hl : l ∈ (settleWords (lex source)).dropLast) (hkind : endsComment l.kind = true) :
    ShowsOrBreaks l.text.toList := by
  rw [lex_eq_lexFrom] at hl
  exact showsOrBreaks_lexFrom .html source.toList l
    (mem_of_mem_settleFrom hl (isComment_of_endsComment hkind)) hkind

end PhpStyle.Php
