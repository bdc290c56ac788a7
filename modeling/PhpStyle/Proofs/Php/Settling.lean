import Mathlib.Data.List.TakeWhile
import PhpStyle.Proofs.Php.Shapes

/-!
# What words are settled to

The lexer knows a word by its first character and takes it for the keyword that it spells. Settling
changes words only, so brackets and operators stay what they are. A `function` becomes a closure by
what stands behind it: nothing but whitespace, comments and an `&` comes before its parenthesis.
-/

namespace PhpStyle.Php

/-- What the lexer says of a lexeme: it knows no closures, takes a word for what it spells, and
finds keywords among words only. -/
structure Raw (l : Lexeme) : Prop where
  kind_ne : l.kind ≠ .closure
  word : isWord l = true → l.kind = wordKind l.text.toList
  keyword : l.kind ∈ keywords.map (·.2) → isWord l = true

/-- Trivia are never words, so every rule for words holds of them. -/
theorem Raw.of_isTrivia {l : Lexeme} (h : l.kind.isTrivia = true) : Raw l where
  kind_ne heq := by simp [heq, Kind.isTrivia, Kind.isComment] at h
  word hword := by simp [isWord, h] at hword
  keyword hkeyword := by
    have hnone : ∀ k ∈ keywords.map (·.2), k.isTrivia = false := by decide
    rw [hnone _ hkeyword] at h
    cases h

/-- Parts of documentation comments are trivia. -/
theorem Kind.isTrivia_of_isDocPart {k : Kind} (h : k.isDocPart = true) : k.isTrivia = true := by
  cases k <;> first | rfl | cases h

namespace Lexer

/-- A character that starts a word is none that code knows otherwise. -/
theorem not_special_of_startsWord {c : Char} (hc : startsWord c = true) :
    c ∉ ['?', ' ', '\t', '\r', '\n', '#', '/', '$', '\'', '"', '`', '<', '.'] ∧
      c.isDigit = false := by
  constructor
  · intro hmem
    have hnone : (['?', ' ', '\t', '\r', '\n', '#', '/', '$', '\'', '"', '`', '<', '.'].all
        fun d => !startsWord d) = true := by
      decide
    have := List.all_eq_true.mp hnone c hmem
    simp [hc] at this
  · by_contra hdigit
    have hdigits : ∀ n < 10, startsWord (Char.ofNat (48 + n)) = false := by decide
    have hrange : 48 ≤ c.toNat ∧ c.toNat ≤ 57 := by
      simpa [Char.isDigit, UInt32.le_iff_toNat_le] using hdigit
    have hnot := hdigits (c.toNat - 48) (by omega)
    rw [Nat.add_sub_cancel' hrange.1, Char.ofNat_toNat, hc] at hnot
    cases hnot

/-- A text does not start with a word that starts with another character. -/
theorem at?_cons_ne {d c : Char} {word : String} {text : List Char}
    (hword : word.toList.head? = some d) (hne : c ≠ d) : at? word (c :: text) = false := by
  unfold at?
  cases h : word.toList with
  | nil => simp [h] at hword
  | cons e word =>
    obtain rfl : e = d := by simpa [h] using hword
    simp [List.isPrefixOf, hne.symm]

/-- In code, a character that starts a word starts one. -/
theorem codeStep_of_startsWord {c : Char} (hc : startsWord c = true) (rest : List Char) :
    codeStep c rest = ⟨wordKind (c :: rest.take (run continuesWord rest)), run continuesWord rest,
      .code⟩ := by
  obtain ⟨hnot, hdigit⟩ := not_special_of_startsWord hc
  simp only [List.mem_cons, List.not_mem_nil, or_false, not_or] at hnot
  obtain ⟨hclose, hspace, htab, hreturn, hbreak, hhash, hslash, hdollar, hsingle, hdouble, hcommand,
    hless, hpoint⟩ := hnot
  have htag : at? "?>" (c :: rest) = false := at?_cons_ne (d := '?') rfl hclose
  have hheredoc : at? "<<<" (c :: rest) = false := at?_cons_ne (d := '<') rfl hless
  simp [codeStep, wordStep, isBlank, *]

/-- No other character becomes a `<` in lower case. -/
theorem eq_of_toLower_eq {c : Char} (h : c.toLower = '<') : c = '<' := by
  unfold Char.toLower at h
  split at h
  · rename_i hupper
    have h := congrArg (fun d : Char => d.val.toNat) h
    simp only [ge_iff_le, UInt32.le_iff_toNat_le] at hupper
    simp [UInt32.toNat_add] at h hupper
    omega
  · exact h

/-- Outside PHP there are tags, which start no word, and template text. -/
theorem isWord_htmlStep (c : Char) (rest : List Char) :
    isWord
      ⟨(htmlStep c rest).kind, String.ofList (c :: rest.take (htmlStep c rest).extra)⟩ = false := by
  have htag (k : Kind) (n : Nat) (hc : c = '<') :
      isWord ⟨k, String.ofList (c :: rest.take n)⟩ = false := by
    simp [isWord, hc]
  unfold htmlStep
  split
  · rename_i hecho
    have hfirst : (c :: rest).take 3 = ['<', '?', '='] := take_of_at? hecho
    exact htag _ _ (List.cons_eq_cons.mp hfirst).1
  · split
    · rename_i hopen
      have hfirst : ((c :: rest).take 5).map Char.toLower = ['<', '?', 'p', 'h', 'p'] :=
        beq_iff_eq.mp hopen
      exact htag _ _ (eq_of_toLower_eq (List.cons_eq_cons.mp hfirst).1)
    · simp [isWord]

/-- Outside of code there are tags and template text only. -/
theorem htmlStep_kind (c : Char) (rest : List Char) :
    (htmlStep c rest).kind ∈ [Kind.openTagEcho, .openTag, .inlineHtml] := by
  unfold htmlStep
  split
  · simp
  split
  · simp
  · simp

/-- Kinds of the lexemes of code that are no operators, no words and no whitespace. -/
def otherKinds : List Kind :=
  [.closeTag, .attribute, .comment, .docOpen, .variable, .quotedString,
    .interpolatedString, .backtick, .shiftLeft, .heredoc, .integer, .decimal, .unknown]

/-- What holds of every kind that is read in code holds of what a step in code reads. -/
theorem codeStep_kind {p : Kind → Prop} {c : Char} (hothers : ∀ k ∈ otherKinds, p k)
    (hoperators : ∀ o ∈ operators, p o.2) (hblank : isBlank c = true ∨ c = '\n' → p .whitespace)
    (hword : startsWord c = true → ∀ word, p (wordKind word)) (rest : List Char) :
    p (codeStep c rest).kind := by
  have hother (k : Kind) (hk : k ∈ otherKinds := by decide) : p k := hothers k hk
  have hplain : ∀ k ∈ plainKinds, k ∈ otherKinds := by decide
  apply codeStep_induct (p := fun s => p s.kind)
  case hclose => exact fun _ _ => hother .closeTag
  case hblank => exact fun hc _ => hblank hc
  case hline => exact fun _ _ => hother .comment
  case hdoc => exact fun _ => hother .docOpen
  case hblock => exact fun _ _ => hother .comment
  case hplain => exact fun k hk _ => hother k (hplain k hk)
  case hoperator => exact fun o ho _ => hoperators o ho
  case hword => exact fun hstarts word _ => hword hstarts word

/-- No step in code gives a closure. -/
theorem codeStep_kind_ne (c : Char) (rest : List Char) : (codeStep c rest).kind ≠ .closure :=
  codeStep_kind (p := (· ≠ .closure)) (by decide) (by decide) (by simp)
    (fun _ => wordKind_of_keywords (p := (· ≠ .closure)) (by decide) (by decide)) rest

end Lexer

/-- Words are read in code only, from a character that starts one. -/
theorem code_of_isWord {mode : Mode} {c : Char} {rest : List Char}
    (h : isWord ⟨(mode.step c rest).kind, String.ofList (c :: rest.take (mode.step c rest).extra)⟩ =
      true) : mode = .code ∧ startsWord c = true := by
  have hstarts : startsWord c = true := by
    simp only [isWord, String.toList_ofList, List.head?_cons, Option.any_some, Bool.and_eq_true]
      at h
    exact h.2
  have htrivia : (mode.step c rest).kind.isTrivia = false := by
    simp only [isWord, Bool.and_eq_true, Bool.not_eq_true'] at h
    exact h.1.1
  refine ⟨?_, hstarts⟩
  cases mode with
  | code => rfl
  | html =>
    rw [Mode.step, Lexer.isWord_htmlStep] at h
    cases h
  | blockComment => cases htrivia
  | docComment lineStart =>
    rw [Mode.step, Kind.isTrivia_of_isDocPart (Lexer.docStep_tracks ..).1] at htrivia
    cases htrivia
  | docTail =>
    rw [Mode.step, Kind.isTrivia_of_isDocPart (Lexer.docTailStep_tracks ..).1] at htrivia
    cases htrivia

/-- The lexer says of every lexeme what it promises. -/
theorem raw_lexFrom (mode : Mode) (text : List Char) : ∀ l ∈ lexFrom mode text, Raw l := by
  fun_induction lexFrom mode text with
  | case1 => simp
  | case2 mode c rest s ih =>
    refine List.forall_mem_cons.mpr ⟨?_, ih⟩
    cases mode with
    | code =>
      refine ⟨Lexer.codeStep_kind_ne c rest, fun hword => ?_, fun hkeyword => ?_⟩
      · have hstarts := (code_of_isWord hword).2
        simp only [s, Mode.step, Lexer.codeStep_of_startsWord hstarts, String.toList_ofList]
      · have hothers : ∀ k ∈ Lexer.otherKinds, k ∉ keywords.map (·.2) := by decide
        have hoperators : ∀ o ∈ operators, o.2 ∉ keywords.map (·.2) := by decide
        have hstarts : s.kind ∉ keywords.map (·.2) ∨ startsWord c = true :=
          Lexer.codeStep_kind (p := fun k => k ∉ keywords.map (·.2) ∨ startsWord c = true)
            (fun k hk => .inl (hothers k hk)) (fun o ho => .inl (hoperators o ho))
            (fun _ => .inl (by decide)) (fun hstarts _ => .inr hstarts) rest
        have hstarts := hstarts.resolve_left fun hnot => hnot hkeyword
        have hplain : ∀ k ∈ keywords.map (·.2), k.isTrivia = false ∧ k ≠ .inlineHtml := by decide
        obtain ⟨htrivia, hhtml⟩ := hplain _ hkeyword
        simpa [isWord, htrivia, hhtml, startsWord] using hstarts
    | html =>
      have hkinds := Lexer.htmlStep_kind c rest
      have hword := Lexer.isWord_htmlStep c rest
      have htable : ∀ k ∈ [Kind.openTagEcho, .openTag, .inlineHtml],
          k ≠ .closure ∧ k ∉ keywords.map (·.2) := by
        decide
      obtain ⟨hclosure, hkeyword⟩ := htable _ hkinds
      exact ⟨hclosure, fun h => absurd (hword.symm.trans h) (by simp), fun h => absurd h hkeyword⟩
    | blockComment => exact .of_isTrivia rfl
    | docComment lineStart =>
      exact .of_isTrivia (Kind.isTrivia_of_isDocPart (Lexer.docStep_tracks ..).1)
    | docTail => exact .of_isTrivia (Kind.isTrivia_of_isDocPart (Lexer.docTailStep_tracks ..).1)

/-- What the lexer gives, before words are settled. -/
theorem raw_lex (source : String) : ∀ l ∈ lex source, Raw l :=
  lex_eq_lexFrom source ▸ raw_lexFrom .html source.toList

namespace Words

/-- A lexeme settled between those before it, nearest first, and those after it. -/
def settle (before after : List Lexeme) (l : Lexeme) : Lexeme :=
  if isWord l then { l with kind := settledKind l.kind before after } else l

/-- Each lexeme is settled by itself, between what stands on its sides. -/
theorem exists_settle (before after : List Lexeme) (i : Nat) :
    ∃ prior, (settleFrom before after)[i]? = after[i]?.map (settle prior (after.drop (i + 1))) := by
  induction after generalizing before i with
  | nil => exact ⟨before, by simp [settleFrom]⟩
  | cons first after ih =>
    rw [settleFrom]
    cases i with
    | zero => exact ⟨before, rfl⟩
    | succ i => exact ih _ i

/-- What is passed over in front of code is whitespace and comments. -/
theorem exists_gap (ls : List Lexeme) :
    ∃ gap, ls = gap ++ code ls ∧ ∀ g ∈ gap, g.kind.isTrivia = true :=
  ⟨ls.takeWhile fun l => l.kind.isTrivia, List.takeWhile_append_dropWhile.symm, fun _ hg =>
    List.mem_takeWhile_imp (p := fun l : Lexeme => l.kind.isTrivia) hg⟩

/-- The first lexeme of a kind is found behind trivia. -/
theorem exists_of_firstKind {ls : List Lexeme} {k : Kind} (h : firstKind ls = some k) :
    ∃ gap l rest, ls = gap ++ l :: rest ∧ l.kind = k ∧ ∀ g ∈ gap, g.kind.isTrivia = true := by
  obtain ⟨l, hl, hk⟩ := Option.map_eq_some_iff.mp h
  obtain ⟨rest, hcode⟩ := List.head?_eq_some_iff.mp hl
  obtain ⟨gap, hsplit, hgap⟩ := exists_gap ls
  exact ⟨gap, l, rest, hcode ▸ hsplit, hk, hgap⟩

/-- In front of the kind found past a reference there is nothing but whitespace, comments and
`&`. -/
theorem exists_of_kindPastReference {ls : List Lexeme} {k : Kind}
    (h : kindPastReference ls = some k) : ∃ gap l rest, ls = gap ++ l :: rest ∧ l.kind = k ∧
      ∀ g ∈ gap, g.kind.isTrivia = true ∨ g.kind = .bitwiseAnd := by
  obtain ⟨gap, hsplit, hgap⟩ := exists_gap ls
  unfold kindPastReference at h
  split at h
  · cases h
  rename_i first rest hcode
  rw [hcode] at hsplit
  split at h
  · rename_i href
    obtain ⟨inner, l, behind, rfl, hk, hinner⟩ := exists_of_firstKind h
    refine ⟨gap ++ first :: inner, l, behind, by simpa using hsplit, hk, fun g hg => ?_⟩
    rcases List.mem_append.mp hg with hg | hg
    · exact .inl (hgap g hg)
    rcases List.mem_cons.mp hg with rfl | hg
    · exact .inr href
    · exact .inl (hinner g hg)
  · exact ⟨gap, first, rest, hsplit, Option.some.inj h, fun g hg => .inl (hgap g hg)⟩

/-- A word becomes a closure only in front of a parenthesis. -/
theorem kindPastReference_of_settledKind {kind : Kind} {before after : List Lexeme}
    (hkind : kind ≠ .closure) (h : settledKind kind before after = .closure) :
    kindPastReference after = some .openParen := by
  unfold settledKind at h
  split at h
  · exact absurd h hkind
  split at h
  · cases h
  unfold keywordKind at h
  dsimp only at h
  split at h
  · split at h
    · assumption
    · cases h
  all_goals first | exact absurd h hkind | split at h
  all_goals first | exact absurd h hkind | cases h

end Words

/-- A lexeme that is no word keeps its kind. -/
theorem kind_settleWords_of_isWord {lexemes : List Lexeme} {i : Nat} {l : Lexeme}
    (hl : lexemes[i]? = some l) (hword : isWord l = false) :
    ((settleWords lexemes).map (·.kind))[i]? = some l.kind := by
  obtain ⟨prior, hsettled⟩ := Words.exists_settle [] lexemes i
  simp [settleWords, hsettled, hl, Words.settle, hword]

/-- Neither a parenthesis nor an `&` is a word. -/
theorem Raw.isWord_eq_false {l : Lexeme} (h : Raw l)
    (hkind : l.kind.isTrivia = true ∨ l.kind = .bitwiseAnd ∨ l.kind = .openParen) :
    isWord l = false := by
  by_contra hword
  have hword : isWord l = true := by simpa using hword
  have hspelled : wordKind l.text.toList ≠ .bitwiseAnd ∧ wordKind l.text.toList ≠ .openParen :=
    wordKind_of_keywords (p := fun k => k ≠ .bitwiseAnd ∧ k ≠ .openParen) (by decide) (by decide) _
  rw [← h.word hword] at hspelled
  rcases hkind with htrivia | hkind | hkind
  · simp [isWord, htrivia] at hword
  · exact hspelled.1 hkind
  · exact hspelled.2 hkind

/-- Behind a closure comes its parenthesis, with nothing but whitespace, comments and an `&`
between. -/
theorem exists_paren_of_closure {source : String} {i : Nat}
    (h : ((settleWords (lex source)).map (·.kind))[i]? = some .closure) :
    ∃ p, i < p ∧ ((settleWords (lex source)).map (·.kind))[p]? = some .openParen ∧
      ∀ k, i < k → k < p → ∃ kind, ((settleWords (lex source)).map (·.kind))[k]? = some kind ∧
        (kind.isTrivia = true ∨ kind = .bitwiseAnd) := by
  have hraw : ∀ l ∈ lex source, Raw l := raw_lex source
  obtain ⟨prior, hsettled⟩ := Words.exists_settle [] (lex source) i
  obtain ⟨l, hl, hclosure⟩ : ∃ l, (lex source)[i]? = some l ∧
      (Words.settle prior ((lex source).drop (i + 1)) l).kind = .closure := by
    rw [List.getElem?_map, settleWords, hsettled] at h
    simpa using h
  have hne := (hraw l (List.mem_of_getElem? hl)).kind_ne
  have hpast : Words.kindPastReference ((lex source).drop (i + 1)) = some .openParen := by
    unfold Words.settle at hclosure
    split at hclosure
    · exact Words.kindPastReference_of_settledKind hne hclosure
    · exact absurd hclosure hne
  obtain ⟨gap, paren, rest, hsplit, hparen, hgap⟩ := Words.exists_of_kindPastReference hpast
  have hbehind (n : Nat) : (lex source)[i + 1 + n]? = (gap ++ paren :: rest)[n]? := by
    rw [← hsplit, List.getElem?_drop]
  refine ⟨i + 1 + gap.length, by omega, ?_, fun k hik hk => ?_⟩
  · have hget : (lex source)[i + 1 + gap.length]? = some paren := by simp [hbehind]
    have hword := (hraw paren (List.mem_of_getElem? hget)).isWord_eq_false (.inr (.inr hparen))
    rw [kind_settleWords_of_isWord hget hword, hparen]
  · obtain ⟨n, rfl⟩ : ∃ n, k = i + 1 + n := ⟨k - (i + 1), by omega⟩
    have hn : n < gap.length := by omega
    have hget : (lex source)[i + 1 + n]? = some gap[n] := by
      rw [hbehind, List.getElem?_append_left hn, List.getElem?_eq_getElem hn]
    have hkind := hgap gap[n] (List.getElem_mem hn)
    have hword := (hraw _ (List.mem_of_getElem? hget)).isWord_eq_false (hkind.imp_right .inl)
    exact ⟨_, kind_settleWords_of_isWord hget hword, hkind⟩

end PhpStyle.Php
