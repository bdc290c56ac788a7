import PhpStyle.Proofs.Php.Exact

/-!
# Gaps in code

Behind a token of code the lexer stands in code, and what starts there without being code shows: a
comment starts with a hash or a slash, a close tag with a question mark. So blank tokens behind a
token of code are whitespace. The parentheses of a condition are the next code behind its keyword,
and its brace is the next code behind them: between them there is nothing but whitespace and
comments.
-/

namespace PhpStyle

/-- Whether the lexer can stand outside of code behind a token of this kind. -/
def Kind.leavesCode (k : Kind) : Bool := k.isComment || k == .closeTag || k == .inlineHtml

/-- What does not leave code is no comment. -/
theorem Kind.isComment_of_leavesCode {k : Kind} (h : k.leavesCode = false) :
    k.isComment = false := by
  simp only [leavesCode, Bool.or_eq_false_iff] at h
  exact h.1.1

namespace Php

/-- A step in code goes on there behind a lexeme of code, and a lexeme that leaves code starts with
a character that shows. -/
def Step.Marks (c : Char) (s : Step) : Prop :=
  (s.kind.leavesCode = false → s.next = .code) ∧ (s.kind.leavesCode = true → Text.isSpace c = false)

/-- A step that stays in code marks its end if its kind says so. -/
theorem Step.Marks.of_code {c : Char} {s : Step} (hnext : s.next = .code)
    (hkind : s.kind.leavesCode = false) : s.Marks c :=
  ⟨fun _ => hnext, fun h => absurd (h.symm.trans hkind) (by decide)⟩

/-- A step that leaves code shows it with its first character. -/
theorem Step.Marks.of_shown {c : Char} {s : Step} (hkind : s.kind.leavesCode = true)
    (hshown : Text.isSpace c = false) : s.Marks c :=
  ⟨fun h => absurd (h.symm.trans hkind) (by decide), fun _ => hshown⟩

namespace Lexer

/-- Every step through code either stays there or shows that it leaves it. -/
theorem codeStep_marks (c : Char) (rest : List Char) : (codeStep c rest).Marks c := by
  have hplain : ∀ k ∈ plainKinds, k.leavesCode = false := by decide
  have hoperator : ∀ o ∈ operators, o.2.leavesCode = false := by decide
  apply codeStep_induct (p := Step.Marks c)
  case hclose =>
    rintro rfl _
    exact .of_shown rfl rfl
  case hblank => exact fun _ _ => .of_code rfl rfl
  case hline =>
    rintro (rfl | rfl) _
    · exact .of_shown rfl rfl
    · exact .of_shown rfl rfl
  case hdoc =>
    rintro rfl
    exact .of_shown rfl rfl
  case hblock =>
    rintro rfl _
    exact .of_shown rfl rfl
  case hplain => exact fun k hk _ => .of_code rfl (hplain k hk)
  case hoperator => exact fun o ho _ => .of_code rfl (hoperator o ho)
  case hword =>
    exact fun _ word _ =>
      .of_code rfl (wordKind_of_keywords (p := (·.leavesCode = false)) rfl (by decide) word)

end Lexer

/-- Behind a lexeme that does not leave code the lexer stands in code, whatever its mode was. -/
theorem Mode.next_of_leavesCode {mode : Mode} {c : Char} {rest : List Char}
    (h : (mode.step c rest).kind.leavesCode = false) : (mode.step c rest).next = .code := by
  have hcomment := Kind.isComment_of_leavesCode h
  cases mode with
  | html =>
    rw [step, Lexer.htmlStep] at h ⊢
    split
    · rfl
    · rename_i htag
      rw [if_neg htag] at h
      split
      · rfl
      · rename_i hphp
        rw [if_neg hphp] at h
        cases h
  | code => exact (Lexer.codeStep_marks c rest).1 h
  | blockComment => cases hcomment
  | docComment lineStart =>
    have hpart := (Lexer.docStep_tracks lineStart c rest).1
    exact absurd ((Kind.isComment_of_isDocPart hpart).symm.trans hcomment) (by decide)
  | docTail =>
    have hpart := (Lexer.docTailStep_tracks c rest).1
    exact absurd ((Kind.isComment_of_isDocPart hpart).symm.trans hcomment) (by decide)

/-- Behind a lexeme that does not leave code, one that leaves code starts with a character that
shows. -/
def LeavesShown (a b : Lexeme) : Prop :=
  a.kind.leavesCode = false → b.kind.leavesCode = true →
    b.text.toList.head?.any Text.isSpace = false

/-- In a text, code is left with a character that shows. -/
theorem leavesShown_lexFrom (mode : Mode) (text : List Char) :
    (lexFrom mode text).IsChain LeavesShown := by
  fun_induction lexFrom mode text with
  | case1 => exact .nil
  | case2 mode c rest s ih =>
    cases hrest : rest.drop s.extra with
    | nil =>
      rw [lexFrom]
      exact .singleton _
    | cons d behind =>
      rw [hrest, lexFrom] at ih
      rw [lexFrom]
      refine .cons_cons (fun hstays hleaves => ?_) ih
      rw [String.toList_ofList]
      have hnext : s.next = .code := Mode.next_of_leavesCode hstays
      rw [hnext] at hleaves
      exact (Lexer.codeStep_marks d behind).2 hleaves

namespace Skeleton

variable {s : Skeleton} {taken : List Nat} {owner opener j : Nat}

/-- Parentheses belong to their own opener or to a keyword that can own some. -/
theorem parenOwner_kind (s : Skeleton) (opener : Nat) : s.parenOwner opener = opener ∨
    ownsParens (s.kind (s.parenOwner opener)) = true ∨ s.kind (s.parenOwner opener) = .kwUse ∨
      s.kind (s.parenOwner opener) = .kwFunction := by
  unfold parenOwner
  cases hprev : s.prevCode? opener with
  | none => exact .inl rfl
  | some prev =>
    dsimp only
    split
    · rename_i howns
      exact .inr (.inl howns)
    split
    · rename_i hkind
      cases s.prevCodeIf? (· == Kind.closeParen) prev with
      | none => exact .inl rfl
      | some _ => exact .inr (.inr (.inl hkind))
    · cases hfound : s.prevCodeIf? (fun k => k == Kind.closure || k == Kind.kwFn) prev with
      | none => exact .inl rfl
      | some owner =>
        have howner := (prevCodeIf?_eq_some_iff.mp hfound).2
        rw [Bool.or_eq_true, beq_iff_eq, beq_iff_eq] at howner
        refine .inr (.inl ?_)
        rcases howner with h | h <;> rw [Option.getD_some, h] <;> rfl
    · cases hfound : s.functionOfName? prev with
      | none => exact .inl rfl
      | some owner =>
        unfold functionOfName? at hfound
        exact .inr (.inr (.inr (beq_iff_eq.mp (prevCodeIf?_eq_some_iff.mp hfound).2)))
    · exact .inl rfl

/-- The brace of a condition is the next code behind the parentheses that are the next code behind
its keyword. -/
theorem scopeOpener?_of_hasCondition (hkind : hasCondition (s.kind owner) = true)
    (h : s.scopeOpener? taken owner = some j) : ∃ opener closer, s.nextCode? owner = some opener ∧
      s.kind opener = .openParen ∧ s.partner? opener = some closer ∧
      s.nextCode? closer = some j := by
  have hbare : isBare (s.kind owner) = false := by
    revert hkind
    cases s.kind owner <;> decide
  rw [scopeOpener?] at h
  simp only [hbare, hkind, Bool.false_eq_true, if_false, if_true, Option.bind_eq_bind,
    blockPastParens?, Option.bind_eq_some_iff, Option.guard_eq_some', freeCurly?_eq_some_iff] at h
  obtain ⟨opener, hopener, _, hparen, block, ⟨closer, hcloser, hblock⟩, rfl, _⟩ := h
  exact ⟨opener, closer, hopener, hparen, hcloser, hblock⟩

end Skeleton

section

variable {source : String} {store : Store}
  (hbuild : Store.build? (settleWords (lex source)) (outline (settleWords (lex source))) =
    .ok store)

include hbuild

/-- No word leaves code, so of what does every token is as it was lexed. -/
theorem exists_raw_leavesCode {i : Nat} (hi : i < store.size) :
    ∃ raw, (lex source)[i]? = some raw ∧ store.text i = raw.text ∧
      (store.kind i).leavesCode = raw.kind.leavesCode := by
  have hloose : ∀ k ∈ [Kind.identifier, .closure, .anonClass], k.leavesCode = false := by decide
  obtain ⟨raw, prior, hraw, hmem, htext, hkind⟩ := exists_raw_of_build hbuild hi
  refine ⟨raw, hraw, htext, ?_⟩
  rw [hkind]
  rcases kind_settle prior _ raw with hsame | ⟨hword, hother⟩
  · rw [hsame]
  · rw [hloose _ hother, (raw_lex source raw hmem).word hword]
    exact (wordKind_of_keywords (p := (·.leavesCode = false)) rfl (by decide) _).symm

/-- Behind a token that does not leave code, one that leaves code is not blank. -/
theorem shown_of_build {i : Nat} (hi : i + 1 < store.size)
    (hstays : (store.kind i).leavesCode = false)
    (hleaves : (store.kind (i + 1)).leavesCode = true) :
    Text.isBlank (store.text (i + 1)) = false := by
  obtain ⟨a, ha, _, hakind⟩ := exists_raw_leavesCode hbuild (Nat.lt_of_succ_lt hi)
  obtain ⟨b, hb, hbtext, hbkind⟩ := exists_raw_leavesCode hbuild hi
  obtain ⟨_, rfl⟩ := List.getElem?_eq_some_iff.mp ha
  obtain ⟨hlt, rfl⟩ := List.getElem?_eq_some_iff.mp hb
  have hchain := leavesShown_lexFrom .html source.toList
  rw [← lex_eq_lexFrom] at hchain
  have hshown := List.isChain_iff_getElem.mp hchain i hlt
    (hakind.symm.trans hstays) (hbkind.symm.trans hleaves)
  have hne := (exact_of_build hbuild).text_ne (i + 1) hi
  rw [hbtext] at hne ⊢
  obtain ⟨c, cs, hcs⟩ := List.exists_cons_of_ne_nil (mt String.toList_eq_nil_iff.mp hne)
  rw [Text.isBlank, hcs, List.all_cons]
  change Option.any Text.isSpace (lex source)[i + 1].text.toList.head? = false at hshown
  rw [hcs, List.head?_cons, Option.any_some] at hshown
  rw [hshown, Bool.false_and]

/-- If a keyword that has its block right behind it or behind a condition owns parentheses, they are
the condition, and the brace is the next code behind them. -/
theorem gap_of_build {i : Nat} {parens scope : Group}
    (hkind : (Skeleton.hasCondition (store.kind i) || Skeleton.isBare (store.kind i)) = true)
    (hparens : store.paren? i = some parens) (hscope : store.scope? i = some scope) :
    Skeleton.hasCondition (store.kind i) = true ∧ parens.closer < scope.opener ∧
      ∀ k, parens.closer < k → k < scope.opener → (store.kind k).isTrivia = true := by
  have hbracket : (store.kind i).isBracket = false := by
    revert hkind
    cases store.kind i <;> decide
  obtain ⟨hpowner, hsowner⟩ := owner_of_build hbuild hbracket hparens hscope
  obtain ⟨hpair, hopen, howner, howns⟩ := parens_of_build hbuild hbracket hparens hpowner
  obtain ⟨hsmem, _⟩ := (Store.scope?_eq_some_iff hbuild).mp hscope
  have hne : i ≠ parens.opener := by
    rintro rfl
    rw [kind_of_build hbuild, hopen] at hbracket
    cases hbracket
  have hkeyword :=
    (Skeleton.ofKinds ((settleWords (lex source)).map (·.kind))).parenOwner_kind parens.opener
  rw [howner] at hkeyword
  replace hkeyword := hkeyword.resolve_left hne
  simp only [kind_of_build hbuild] at hkind ⊢
  have hcondition :
      Skeleton.hasCondition ((Skeleton.ofKinds ((settleWords (lex source)).map (·.kind))).kind i) =
      true := by
    revert hkind hkeyword
    cases (Skeleton.ofKinds ((settleWords (lex source)).map (·.kind))).kind i <;> decide
  obtain ⟨taken, hscopeOpener⟩ := scopeOpener?_of_mem_scopesFrom scope hsmem
  rw [← hsowner] at hscopeOpener
  obtain ⟨opener, closer, hopener, hkindOpener, hcloser, hnext⟩ :=
    Skeleton.scopeOpener?_of_hasCondition hcondition hscopeOpener
  have hsame : parens.opener = opener := by
    have hbehind := howns.2.2
    simp only [Skeleton.parenBehind?, hopener, Option.bind_eq_bind, Option.bind_some, hkindOpener,
      reduceCtorEq, if_false, if_true, Option.some.injEq] at hbehind
    exact hbehind.symm
  obtain rfl : parens.closer = closer :=
    Brackets.closer_unique hpair (hsame ▸ mem_pair_of_partner? (by rw [hkindOpener]; rfl) hcloser)
  obtain ⟨hlt, _, _, htrivia⟩ := Skeleton.after?_eq_some_iff.mp hnext
  exact ⟨hcondition, hlt, fun k hk hko => by simpa using htrivia k hk hko⟩

end

/-- What the tokens of a PHP text promise of the gaps in its code. -/
structure Gapped (s : Store) : Prop where
  sound : Sound s
  shown : ∀ i, i + 1 < s.size → (s.kind i).leavesCode = false → (s.kind (i + 1)).leavesCode = true →
    Text.isBlank (s.text (i + 1)) = false
  gap : ∀ i parens scope, (Skeleton.hasCondition (s.kind i) || Skeleton.isBare (s.kind i)) = true →
    s.paren? i = some parens → s.scope? i = some scope →
    Skeleton.hasCondition (s.kind i) = true ∧ parens.closer < scope.opener ∧
      ∀ k, parens.closer < k → k < scope.opener → (s.kind k).isTrivia = true

/-- The store of a PHP text promises all this. -/
theorem gapped_of_build {source : String} {store : Store}
    (hbuild : Store.build? (settleWords (lex source)) (outline (settleWords (lex source))) =
      .ok store) : Gapped store where
  sound := sound_of_build hbuild
  shown _ := shown_of_build hbuild
  gap _ _ _ := gap_of_build hbuild

/-- Behind a token that does not leave code, no token of a blank row does. -/
theorem Gapped.leavesCode_of_isBlank {s : Store} (hs : Gapped s) {i j : Nat}
    (hstays : (s.kind i).leavesCode = false) (hij : i ≤ j) (hj : j < s.size)
    (hblank : ∀ k, i < k → k ≤ j → Text.isBlank (s.text k) = true) :
    (s.kind j).leavesCode = false := by
  induction j, hij using Nat.le_induction with
  | base => exact hstays
  | succ j hle ih =>
    have hprev := ih (by omega) fun k hk hkj => hblank k hk (by omega)
    by_contra hleaves
    rw [Bool.not_eq_false] at hleaves
    have hshown := hs.shown j hj hprev hleaves
    rw [hblank (j + 1) (by omega) (Nat.le_refl _)] at hshown
    cases hshown

end Php

end PhpStyle
