import PhpStyle.Proofs.Php.Settling

/-!
# How lexemes are spelled and what follows them

Some kinds are spelled in one way only, and tags and texts of documentation comments stay within a
line. Blanks are taken together, so whitespace comes behind whitespace only at the start of a line.
A word is taken to its end, so what follows it does not go it on.
-/

namespace PhpStyle

/-- Characters that are tokens of their own wherever they stand in code. -/
def Php.Lexer.marks : List Char := [';', ',', '(', ')', '[', ']', '{', '}']

namespace Kind

/-- The kinds of these characters. -/
def isMark : Kind → Bool
  | .semicolon | .comma | .openParen | .closeParen | .openSquare | .closeSquare | .openCurly
  | .closeCurly => true
  | _ => false

/-- Kinds that say how a lexeme is spelled, or that it holds no line break. -/
def isStrict (k : Kind) : Bool :=
  k.isMark || k == .nsSeparator || k == .docOpen || k == .docTag || k == .docText

/-- What a kind says of the spelling of a lexeme. -/
structure Spells (k : Kind) (cs : List Char) : Prop where
  mark : k.isMark = true → ∃ c ∈ Php.Lexer.marks, cs = [c]
  openParen : k = .openParen → cs = ['(']
  nsSeparator : k = .nsSeparator → cs = ['\\']
  docOpen : k = .docOpen → cs = ['/', '*', '*']
  docLine : k = .docTag ∨ k = .docText → '\n' ∉ cs

/-- A kind that says nothing of its spelling may be spelled in any way. -/
theorem Spells.of_loose {k : Kind} {cs : List Char} (hk : k.isStrict = false) : k.Spells cs := by
  simp only [isStrict, Bool.or_eq_false_iff, beq_eq_false_iff_ne, ne_eq] at hk
  obtain ⟨⟨⟨⟨hmark, hseparator⟩, hopen⟩, htag⟩, htext⟩ := hk
  exact {
    mark := fun h => absurd h (by simp [hmark])
    openParen := fun h => absurd (h ▸ rfl : k.isMark = true) (by simp [hmark])
    nsSeparator := fun h => absurd h hseparator
    docOpen := fun h => absurd h hopen
    docLine := fun h => absurd h (by simp [htag, htext]) }

/-- A tag or a text of a documentation comment may be spelled in any way without a line break. -/
theorem Spells.of_docLine {k : Kind} {cs : List Char} (hk : k = .docTag ∨ k = .docText)
    (h : '\n' ∉ cs) : k.Spells cs where
  mark heq := by rcases hk with rfl | rfl <;> cases heq
  openParen heq := by rcases hk with rfl | rfl <;> cases heq
  nsSeparator heq := by rcases hk with rfl | rfl <;> cases heq
  docOpen heq := by rcases hk with rfl | rfl <;> cases heq
  docLine _ := h

end Kind

namespace Php

namespace Lexer

variable {c : Char} {rest : List Char}

/-- Template text and open tags may be spelled in any way. -/
theorem htmlStep_spells (c : Char) (rest : List Char) :
    (htmlStep c rest).kind.Spells (c :: rest.take (htmlStep c rest).extra) := by
  refine .of_loose ?_
  unfold htmlStep
  split
  · rfl
  split
  · rfl
  · rfl

/-- An operator that is a mark is spelled as that character. -/
theorem operatorStep_spells (c : Char) (rest : List Char) :
    (operatorStep (c :: rest)).kind.Spells (c :: rest.take (operatorStep (c :: rest)).extra) := by
  have htable : ∀ o ∈ operators, 0 < o.1.length ∧
      (o.2.isStrict = false ∨ (∃ c ∈ marks, o.1.toList = [c] ∧ (o.2 = .openParen → c = '(') ∧
          o.2.isMark = true) ∨ o.1 = "\\" ∧ o.2 = .nsSeparator) := by
    decide
  unfold operatorStep
  split
  · rename_i op kind hfound
    obtain ⟨hlength, hkind⟩ := htable _ (List.mem_of_find?_eq_some hfound)
    have hop := List.find?_some hfound
    have htaken := take_of_at? hop
    rw [cons_take_sub_one hlength, htaken]
    rcases hkind with hloose | ⟨mark, hmem, hspelled, hparen, hmark⟩ | ⟨rfl, rfl⟩
    · exact .of_loose hloose
    · have hnot {k : Kind} (hk : k.isMark = false) : kind ≠ k := by
        rintro rfl
        rw [hk] at hmark
        cases hmark
      exact {
        mark := fun _ => ⟨mark, hmem, hspelled⟩
        openParen := fun h => hparen h ▸ hspelled
        nsSeparator := fun h => absurd h (hnot rfl)
        docOpen := fun h => absurd h (hnot rfl)
        docLine := fun h => h.elim (absurd · (hnot rfl)) (absurd · (hnot rfl)) }
    · exact ⟨nofun, nofun, fun _ => rfl, nofun, nofun⟩
  · exact .of_loose rfl

/-- What a slash starts is spelled as its kind says: the opening tag of a documentation comment in
one way. -/
theorem slashStep_spells (rest : List Char) :
    (slashStep rest).kind.Spells ('/' :: rest.take (slashStep rest).extra) := by
  unfold slashStep
  split
  · exact .of_loose rfl
  · rename_i body
    split
    · rename_i hdoc
      rw [Bool.and_eq_true] at hdoc
      have htaken : body.take 1 = ['*'] := take_of_at? hdoc.1
      refine ⟨nofun, nofun, nofun, fun _ => ?_, nofun⟩
      simp [List.take_succ_cons, htaken]
    · exact .of_loose rfl
  · exact operatorStep_spells '/' rest

/-- Words may be spelled in any way, and what is no word is an operator. -/
theorem wordStep_spells (c : Char) (rest : List Char) :
    (wordStep c rest).kind.Spells (c :: rest.take (wordStep c rest).extra) := by
  unfold wordStep
  split
  · exact .of_loose (wordKind_of_keywords (p := fun k => k.isStrict = false) rfl (by decide) _)
  · exact operatorStep_spells c rest

/-- Each step through code reads what its kind is spelled like. -/
theorem codeStep_spells (c : Char) (rest : List Char) :
    (codeStep c rest).kind.Spells (c :: rest.take (codeStep c rest).extra) := by
  apply codeStep_cases (p := fun s => s.kind.Spells (c :: rest.take s.extra))
  case hclose => exact fun _ => .of_loose rfl
  case hblank => exact fun _ => .of_loose rfl
  case hattribute => exact fun _ _ => .of_loose rfl
  case hcomment => exact fun _ => .of_loose rfl
  case hslash =>
    rintro rfl
    exact slashStep_spells rest
  case hdollar => exact fun _ => .of_loose rfl
  case hquoted =>
    have hloose : ∀ k ∈ [Kind.quotedString, .interpolatedString, .backtick],
        k.isStrict = false := by decide
    exact fun _ k hk => .of_loose (hloose k hk)
  case hshift => exact fun _ => .of_loose rfl
  case hheredoc => exact fun _ _ => .of_loose rfl
  case hnumber =>
    intro _
    refine .of_loose ?_
    rcases number_kind (c :: rest) with h | h
    · rw [h]
      rfl
    · rw [h]
      rfl
  case hword => exact fun _ => wordStep_spells c rest

/-- Each step through a line of a documentation comment reads what its kind is spelled like. -/
theorem docStep_spells (lineStart : Bool) (c : Char) (rest : List Char) :
    (docStep lineStart c rest).kind.Spells (c :: rest.take (docStep lineStart c rest).extra) := by
  unfold docStep
  split
  · exact .of_loose rfl
  split
  · exact .of_loose rfl
  rename_i hbreak
  have hc : c ≠ '\n' := by
    rintro rfl
    simp [lineBreakLength] at hbreak
  split
  · exact .of_loose rfl
  split
  · exact .of_loose rfl
  split
  · refine .of_docLine (.inl rfl) ?_
    have hrun : '\n' ∉ rest.take (run continuesTag rest) := not_mem_take_run (by decide) rest
    simp [hc.symm, hrun]
  · refine .of_docLine (.inr rfl) ?_
    simp [hc.symm, not_mem_take_docLine (visibleLength_le _)]

/-- Each step at the end of a documentation comment reads what its kind is spelled like. -/
theorem docTailStep_spells (c : Char) (rest : List Char) :
    (docTailStep c rest).kind.Spells (c :: rest.take (docTailStep c rest).extra) := by
  unfold docTailStep
  split
  · split
    · exact .of_loose rfl
    · exact docStep_spells false c rest
  · exact docStep_spells false c rest

/-- What starts with neither a blank nor a line break is no whitespace. -/
theorem isBlank_of_whitespace (h : (codeStep c rest).kind = .whitespace) :
    isBlank c = true ∨ c = '\n' := by
  by_contra hblank
  exact codeStep_kind (p := (· ≠ .whitespace)) (by decide) (by decide) (fun h => absurd h hblank)
    (fun _ => wordKind_of_keywords (p := (· ≠ .whitespace)) (by decide) (by decide)) rest h

/-- In code, whitespace is read where a blank or a line break stands. -/
theorem codeStep_of_isBlank (hc : isBlank c = true ∨ c = '\n') (rest : List Char) :
    codeStep c rest = ⟨.whitespace, whitespaceLength (c :: rest) - 1, .code⟩ := by
  have hclose : at? "?>" (c :: rest) = false := by
    refine at?_cons_ne (d := '?') rfl ?_
    rintro rfl
    revert hc
    decide
  have hblank : (isBlank c || c == '\n') = true := by simpa using hc
  rw [codeStep, if_neg (by simp [hclose]), if_pos hblank]

/-- In code, a backslash is read as a separator. -/
theorem codeStep_of_backslash (rest : List Char) : (codeStep '\\' rest).kind = .nsSeparator := by
  rfl

/-- Blanks are taken up to the end of their line or to what is no blank. -/
theorem whitespaceLength_spec (text : List Char) :
    (text.take (whitespaceLength text)).getLast? = some '\n' ∨
      ∀ c rest, text.drop (whitespaceLength text) = c :: rest → isBlank c = false ∧ c ≠ '\n' := by
  induction text with
  | nil => exact .inr (by simp [whitespaceLength])
  | cons c rest ih =>
    rw [whitespaceLength]
    split
    · rename_i hc
      exact .inl (by simp [hc])
    · rename_i hbreak
      split
      · rw [List.take_succ_cons, List.drop_succ_cons]
        rcases ih with hlast | hnext
        · exact .inl (by simp [List.getLast?_cons, hlast])
        · exact .inr hnext
      · rename_i hblank
        refine .inr fun d behind heq => ?_
        obtain ⟨rfl, _⟩ := List.cons_eq_cons.mp heq
        exact ⟨by simpa using hblank, hbreak⟩

/-- The characters of a run pass its test. -/
theorem mem_take_run {test : Char → Bool} (text : List Char) :
    ∀ c ∈ text.take (run test text), test c = true := by
  induction text with
  | nil => simp
  | cons d text ih =>
    rw [run]
    split
    · rename_i hd
      exact List.forall_mem_cons.mpr ⟨hd, ih⟩
    · simp

/-- A run goes as far as the characters that pass its test. -/
theorem run_append {test : Char → Bool} {word : List Char} (hword : ∀ c ∈ word, test c = true)
    {c : Char} (hc : test c = false) (rest : List Char) :
    run test (word ++ c :: rest) = word.length := by
  induction word with
  | nil => simp [run, hc]
  | cons d word ih =>
    obtain ⟨hd, hword⟩ := List.forall_mem_cons.mp hword
    rw [List.cons_append, run, if_pos hd, ih hword, List.length_cons]

/-- A word is taken to its end. -/
theorem run_spec {test : Char → Bool} (text : List Char) {c : Char} {rest : List Char}
    (h : text.drop (run test text) = c :: rest) : test c = false := by
  induction text with
  | nil => cases h
  | cons d text ih =>
    rw [run] at h
    split at h
    · exact ih h
    · rename_i hd
      obtain ⟨rfl, _⟩ := List.cons_eq_cons.mp h
      simpa using hd

end Lexer

/-- In every mode a step takes what its kind spells. -/
theorem Mode.step_spells (mode : Mode) (c : Char) (rest : List Char) :
    (mode.step c rest).kind.Spells (c :: rest.take (mode.step c rest).extra) := by
  cases mode with
  | html => exact Lexer.htmlStep_spells c rest
  | code => exact Lexer.codeStep_spells c rest
  | blockComment => exact .of_loose rfl
  | docComment lineStart => exact Lexer.docStep_spells lineStart c rest
  | docTail => exact Lexer.docTailStep_spells c rest

/-- Every lexeme of a text is spelled as its kind says. -/
theorem spells_lexFrom (mode : Mode) (text : List Char) :
    ∀ l ∈ lexFrom mode text, l.kind.Spells l.text.toList := by
  fun_induction lexFrom mode text with
  | case1 => simp
  | case2 mode c rest s ih =>
    refine List.forall_mem_cons.mpr ⟨?_, ih⟩
    rw [String.toList_ofList]
    exact mode.step_spells c rest

/-- Every lexeme of a file is spelled as its kind says. -/
theorem spells_lex (source : String) : ∀ l ∈ lex source, l.kind.Spells l.text.toList :=
  lex_eq_lexFrom source ▸ spells_lexFrom .html source.toList

/-- A word starts with a character that starts one and goes on with characters that do. -/
theorem word_spec {mode : Mode} {text : List Char} : ∀ l ∈ lexFrom mode text, isWord l = true →
    ∃ c cs, l.text.toList = c :: cs ∧ startsWord c = true ∧ ∀ d ∈ cs, continuesWord d = true := by
  fun_induction lexFrom mode text with
  | case1 => simp
  | case2 mode c rest s ih =>
    refine List.forall_mem_cons.mpr ⟨fun hword => ?_, ih⟩
    obtain ⟨rfl, hstarts⟩ := code_of_isWord hword
    rw [show s = _ from Lexer.codeStep_of_startsWord hstarts rest, String.toList_ofList]
    exact ⟨c, _, rfl, hstarts, Lexer.mem_take_run rest⟩

/-- What two lexemes promise that stand side by side. -/
structure Beside (a b : Lexeme) : Prop where
  /-- Behind whitespace that does not end its line comes no more whitespace. -/
  blank : a.kind = .whitespace → b.kind = .whitespace → a.text.toList.getLast? = some '\n'
  /-- What follows a word does not go it on. -/
  word : isWord a = true → b.text.toList.head?.any continuesWord = false
  /-- A backslash behind a word is the separator of a qualified name. -/
  separator : isWord a = true → b.text.toList.head? = some '\\' → b.kind = .nsSeparator

/-- Outside of code, and within comments, there is no whitespace. -/
theorem code_of_whitespace {mode : Mode} {c : Char} {rest : List Char}
    (h : (mode.step c rest).kind = .whitespace) : mode = .code := by
  cases mode with
  | code => rfl
  | html =>
    have hkinds := Lexer.htmlStep_kind c rest
    rw [Mode.step] at h
    simp [h] at hkinds
  | blockComment => cases h
  | docComment lineStart =>
    have hpart := (Lexer.docStep_tracks lineStart c rest).1
    rw [Mode.step] at h
    rw [h] at hpart
    cases hpart
  | docTail =>
    have hpart := (Lexer.docTailStep_tracks c rest).1
    rw [Mode.step] at h
    rw [h] at hpart
    cases hpart

/-- Lexemes of a text stand side by side as they promise. -/
theorem beside_lexFrom (mode : Mode) (text : List Char) : (lexFrom mode text).IsChain Beside := by
  fun_induction lexFrom mode text with
  | case1 => exact .nil
  | case2 mode c rest s ih =>
    cases hrest : rest.drop s.extra with
    | nil =>
      rw [lexFrom]
      exact .singleton _
    | cons d behind =>
      rw [hrest, lexFrom] at ih
      rw [lexFrom]
      refine .cons_cons ⟨fun hfirst hsecond => ?_, fun hword => ?_, fun hword hslash => ?_⟩ ih
      · obtain rfl := code_of_whitespace hfirst
        have hc := Lexer.isBlank_of_whitespace hfirst
        have hs : s = ⟨.whitespace, Lexer.whitespaceLength (c :: rest) - 1, .code⟩ :=
          Lexer.codeStep_of_isBlank hc rest
        have hpos := Lexer.whitespaceLength_pos hc rest
        rw [hs] at hsecond
        rw [String.toList_ofList, hs, Lexer.cons_take_sub_one hpos]
        rcases Lexer.whitespaceLength_spec (c :: rest) with hlast | hnext
        · exact hlast
        · have hdrop : (c :: rest).drop (Lexer.whitespaceLength (c :: rest)) = d :: behind := by
            rw [← hrest, hs, Lexer.drop_sub_one hpos c]
          obtain ⟨hblank, hbreak⟩ := hnext d behind hdrop
          rcases Lexer.isBlank_of_whitespace hsecond with h | h
          · rw [hblank] at h
            cases h
          · exact absurd h hbreak
      · obtain ⟨rfl, hstarts⟩ := code_of_isWord hword
        rw [show s = _ from Lexer.codeStep_of_startsWord hstarts rest] at hrest
        simp [Lexer.run_spec rest hrest]
      · obtain ⟨rfl, hstarts⟩ := code_of_isWord hword
        obtain rfl : d = '\\' := by simpa using hslash
        rw [show s = _ from Lexer.codeStep_of_startsWord hstarts rest]
        exact Lexer.codeStep_of_backslash behind

end Php

end PhpStyle
