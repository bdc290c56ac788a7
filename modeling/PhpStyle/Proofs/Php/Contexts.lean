import PhpStyle.Proofs.Php.Exact
import PhpStyle.Proofs.Php.Resettling

/-!
# Words in their final context

A word is settled by kinds before it that are final and kinds behind it that are not. What it looks
for behind it are words, parentheses, ampersands and backslashes, and settling neither makes nor
removes one of these. So a settled word is what it would be settled to between its final neighbours:
settling once is enough, and every settled word keeps the rules of its kind.
-/

namespace PhpStyle.Php

/-- The first lexeme of code has this kind. -/
def Leads (ls : List Lexeme) (k : Kind) : Prop :=
  ∃ gap l rest, ls = gap ++ l :: rest ∧ l.kind = k ∧ ∀ g ∈ gap, g.kind.isTrivia = true

/-- The lexemes start with a parenthesis, which may stand behind an `&`. -/
def OpensParameters (ls : List Lexeme) : Prop :=
  Leads ls .openParen ∨ ∃ gap amp rest, ls = gap ++ amp :: rest ∧ amp.kind = .bitwiseAnd ∧
    (∀ g ∈ gap, g.kind.isTrivia = true) ∧ Leads rest .openParen

/-- The rules that a word keeps between the lexemes in front of it and those behind it: a member's
name is an identifier, some keywords need a parenthesis, and `function` and `class` declare what
they name. -/
structure InContext (front : List Lexeme) (l : Lexeme) (behind : List Lexeme) : Prop where
  member : isWord l = true → ∀ op, Leads front.reverse op →
    op ∈ [Kind.objectOperator, .nullsafeObjectOperator, .doubleColon] →
    l.kind = .identifier ∨ l.kind = .kwClass ∧ op = .doubleColon
  parenthesized : l.kind ∈ [Kind.kwArray, .kwList, .kwMatch] → Leads behind .openParen
  closure : l.kind = .closure → OpensParameters behind
  function : l.kind = .kwFunction → ¬ OpensParameters behind
  anonymous : l.kind = .kwClass → ¬ Leads front.reverse .kwNew

namespace Words

variable {ls before after : List Lexeme} {l : Lexeme} {k : Kind}

/-! ## What a word finds on its sides -/

/-- Trivia in front of a lexeme of code is skipped. -/
theorem code_append {gap : List Lexeme} (hgap : ∀ g ∈ gap, g.kind.isTrivia = true)
    (hl : l.kind.isTrivia = false) (ls : List Lexeme) : code (gap ++ l :: ls) = l :: ls := by
  rw [code, List.dropWhile_append_of_pos hgap, List.dropWhile_cons, if_neg]
  simp [hl]

/-- The first kind of code is told of the lexemes without a function for it. -/
theorem firstKind_eq_some_iff (hk : k.isTrivia = false) : firstKind ls = some k ↔ Leads ls k := by
  constructor
  · exact exists_of_firstKind
  · rintro ⟨gap, l, rest, rfl, rfl, hgap⟩
    rw [firstKind, code_append hgap hk]
    rfl

/-- Whether a parenthesis follows, past an `&` or not, is told of the lexemes without a function for
it. -/
theorem kindPastReference_eq_some_iff :
    kindPastReference ls = some .openParen ↔ OpensParameters ls := by
  constructor
  · intro h
    obtain ⟨gap, hsplit, hgap⟩ := exists_gap ls
    unfold kindPastReference at h
    split at h
    · cases h
    rename_i first rest hcode
    rw [hcode] at hsplit
    split at h
    · rename_i href
      exact .inr ⟨gap, first, rest, hsplit, href, hgap, (firstKind_eq_some_iff rfl).mp h⟩
    · exact .inl ⟨gap, first, rest, hsplit, Option.some.inj h, hgap⟩
  · rintro (⟨gap, paren, rest, rfl, hparen, hgap⟩ | ⟨gap, amp, rest, rfl, hamp, hgap, hparen⟩)
    · rw [kindPastReference, code_append hgap (by rw [hparen]; rfl)]
      simp [hparen]
    · rw [kindPastReference, code_append hgap (by rw [hamp]; rfl)]
      simp [hamp, (firstKind_eq_some_iff rfl).mpr hparen]

/-- Lexemes behind a word that look alike to it. -/
structure AlikeAhead (after after' : List Lexeme) : Prop where
  paren : firstKind after = some .openParen ↔ firstKind after' = some .openParen
  reference : firstKind after = some .bitwiseAnd ↔ firstKind after' = some .bitwiseAnd
  past : kindPastReference after = some .openParen ↔ kindPastReference after' = some .openParen
  word : (code after).head?.any isWord = (code after').head?.any isWord
  separates : separates after = separates after'

/-- Lexemes in front of a word, nearest first, that look alike to it. -/
structure AlikeBehind (before before' : List Lexeme) : Prop where
  first : firstKind before = firstKind before'
  past : kindPastReference before = kindPastReference before'
  separates : separates before = separates before'

/-- Lexemes look like themselves. -/
theorem AlikeAhead.refl (after : List Lexeme) : AlikeAhead after after :=
  ⟨.rfl, .rfl, .rfl, rfl, rfl⟩

/-- Looking alike goes both ways. -/
theorem AlikeAhead.symm {after' : List Lexeme} (h : AlikeAhead after after') :
    AlikeAhead after' after :=
  ⟨h.paren.symm, h.reference.symm, h.past.symm, h.word.symm, h.separates.symm⟩

/-- Lexemes in front of a word look like themselves. -/
theorem AlikeBehind.refl (before : List Lexeme) : AlikeBehind before before := ⟨rfl, rfl, rfl⟩

/-- The first kind of code is that of the first lexeme, unless it is trivia. -/
theorem firstKind_cons (l : Lexeme) (ls : List Lexeme) :
    firstKind (l :: ls) = if l.kind.isTrivia = true then firstKind ls else some l.kind := by
  rw [firstKind, code_cons]
  split
  · rfl
  · rfl

/-- What follows past an `&` is found behind trivia, and behind the `&` if there is one. -/
theorem kindPastReference_cons (l : Lexeme) (ls : List Lexeme) :
    kindPastReference (l :: ls) = if l.kind.isTrivia = true then kindPastReference ls
      else if l.kind = .bitwiseAnd then firstKind ls else some l.kind := by
  by_cases htrivia : l.kind.isTrivia = true
  · rw [kindPastReference, code_cons, if_pos htrivia, if_pos htrivia]
    rfl
  · rw [kindPastReference, code_cons, if_neg htrivia, if_neg htrivia]

/-- Lexemes look alike behind the same lexeme too. -/
theorem AlikeAhead.cons {after' : List Lexeme} (h : AlikeAhead after after') (l : Lexeme) :
    AlikeAhead (l :: after) (l :: after') where
  paren := by
    rw [firstKind_cons, firstKind_cons]
    split
    · exact h.paren
    · rfl
  reference := by
    rw [firstKind_cons, firstKind_cons]
    split
    · exact h.reference
    · rfl
  past := by
    rw [kindPastReference_cons, kindPastReference_cons]
    split
    · exact h.past
    · split
      · exact h.paren
      · rfl
  word := by
    rw [code_cons, code_cons]
    split
    · exact h.word
    · rfl
  separates := rfl

/-- One more lexeme in front keeps looks alike. -/
theorem AlikeBehind.cons {before' : List Lexeme} (h : AlikeBehind before before') (l : Lexeme) :
    AlikeBehind (l :: before) (l :: before') where
  first := by rw [firstKind_cons, firstKind_cons, h.first]
  past := by rw [kindPastReference_cons, kindPastReference_cons, h.past, h.first]
  separates := rfl

/-- A word does not look past code other than an `&`. -/
theorem AlikeBehind.of_code (hl : l.kind.isTrivia = false) (hother : l.kind ≠ .bitwiseAnd)
    (before before' : List Lexeme) : AlikeBehind (l :: before) (l :: before') where
  first := by simp [firstKind_cons, hl]
  past := by simp [kindPastReference_cons, hl, hother]
  separates := rfl

/-- A word is settled alike between lexemes that look alike to it. -/
theorem settledKind_alike {before' after' : List Lexeme} (hbefore : AlikeBehind before before')
    (hafter : AlikeAhead after after') (kind : Kind) :
    settledKind kind before after = settledKind kind before' after' := by
  have hqualified : isQualified kind before after = isQualified kind before' after' := by
    have hb := hbefore.separates
    have ha := hafter.separates
    unfold separates at hb ha
    rw [isQualified, isQualified, hb, ha]
  have hkeyword : keywordKind kind before after = keywordKind kind before' after' := by
    unfold keywordKind
    simp only [hafter.paren, hafter.reference, hafter.past, hafter.word, hbefore.first]
  rw [settledKind, settledKind, hqualified, hkeyword, isMemberName, isMemberName, isDeclaredName,
    isDeclaredName, hbefore.first, hbefore.past]

/-- A word is settled alike where its sides look alike. -/
theorem settle_alike {before' after' : List Lexeme} (hbefore : AlikeBehind before before')
    (hafter : AlikeAhead after after') (l : Lexeme) :
    settle before after l = settle before' after' l := by
  rw [settle, settle, settledKind_alike hbefore hafter]

/-! ## What settling keeps -/

/-- Settling keeps what is trivia. -/
theorem isTrivia_settle (before after : List Lexeme) (l : Lexeme) :
    (settle before after l).kind.isTrivia = l.kind.isTrivia := by
  rcases kind_settle before after l with h | ⟨hword, h⟩
  · rw [h]
  · have htable : ∀ k ∈ [Kind.identifier, .closure, .anonClass], k.isTrivia = false := by decide
    have hl : l.kind.isTrivia = false := by
      simp only [isWord, Bool.and_eq_true, Bool.not_eq_true'] at hword
      exact hword.1.1
    rw [htable _ h, hl]

/-- Settling keeps what is a word. -/
theorem isWord_settle (before after : List Lexeme) (l : Lexeme) :
    isWord (settle before after l) = isWord l := by
  unfold settle
  split
  · rename_i hword
    rw [hword]
    rcases settledKind_cases l.kind before after with h | h
    · rw [h]
      exact hword
    · have htable : ∀ k ∈ [Kind.identifier, .closure, .anonClass],
          k.isTrivia = false ∧ k ≠ .inlineHtml := by
        decide
      obtain ⟨htrivia, hhtml⟩ := htable _ h
      simp only [isWord, Bool.and_eq_true] at hword ⊢
      exact ⟨⟨by simp [htrivia], by simp [hhtml]⟩, hword.2⟩
  · rfl

/-- The marks that a word looks for behind it. -/
def beacons : List Kind := [.openParen, .bitwiseAnd, .nsSeparator]

/-- No word is settled from or to one of the marks that words look for. -/
theorem kind_settle_eq_iff (hraw : Raw l) (hk : k ∈ beacons) (before after : List Lexeme) :
    (settle before after l).kind = k ↔ l.kind = k := by
  rcases kind_settle before after l with h | ⟨hword, h⟩
  · rw [h]
  · have hsettled : ∀ k ∈ beacons, k ∉ [Kind.identifier, .closure, .anonClass] := by decide
    have hspelled : l.kind ∉ beacons := by
      rw [hraw.word hword]
      exact wordKind_of_keywords (p := (· ∉ beacons)) (by decide) (by decide) _
    constructor
    · rintro rfl
      exact absurd h (hsettled _ hk)
    · rintro rfl
      exact absurd hk hspelled

/-- Skipping trivia and settling may be done in either order. -/
theorem exists_code_settleFrom (before ls : List Lexeme) :
    ∃ prior, code (settleFrom before ls) = settleFrom prior (code ls) := by
  induction ls generalizing before with
  | nil => exact ⟨before, rfl⟩
  | cons l ls ih =>
    rw [settleFrom_cons, code_cons, code_cons, isTrivia_settle]
    split
    · exact ih _
    · exact ⟨before, (settleFrom_cons ..).symm⟩

/-- Behind trivia there are lexemes as they were read. -/
theorem raw_of_code (hraw : ∀ l ∈ ls, Raw l) : ∀ l ∈ code ls, Raw l :=
  fun l hl => hraw l ((List.dropWhile_suffix _).mem hl)

/-- Settling what follows neither makes nor removes a beacon. -/
theorem firstKind_settleFrom_iff (hraw : ∀ l ∈ ls, Raw l) (hk : k ∈ beacons) :
    firstKind (settleFrom before ls) = some k ↔ firstKind ls = some k := by
  obtain ⟨prior, hprior⟩ := exists_code_settleFrom before ls
  have hraw := raw_of_code hraw
  rw [firstKind, firstKind, hprior]
  cases hcode : code ls with
  | nil => rfl
  | cons l rest =>
    rw [settleFrom_cons, List.head?_cons, List.head?_cons, Option.map_some, Option.map_some,
      Option.some_inj, Option.some_inj]
    exact kind_settle_eq_iff (hraw l (hcode ▸ List.mem_cons_self)) hk prior rest

/-- Settling what follows neither makes nor removes a parenthesis past an `&`. -/
theorem kindPastReference_settleFrom_iff (hraw : ∀ l ∈ ls, Raw l) :
    kindPastReference (settleFrom before ls) = some .openParen ↔
      kindPastReference ls = some .openParen := by
  obtain ⟨prior, hprior⟩ := exists_code_settleFrom before ls
  have hraw := raw_of_code hraw
  rw [kindPastReference, kindPastReference, hprior]
  cases hcode : code ls with
  | nil => rfl
  | cons l rest =>
    obtain ⟨hl, hrest⟩ := List.forall_mem_cons.mp (hcode ▸ hraw)
    rw [settleFrom_cons]
    by_cases href : l.kind = .bitwiseAnd
    · simpa only [(kind_settle_eq_iff hl (by decide) prior rest).mpr href, href, if_true]
        using firstKind_settleFrom_iff hrest (by decide)
    · have hkept : (settle prior rest l).kind ≠ .bitwiseAnd :=
        fun h => href ((kind_settle_eq_iff hl (by decide) prior rest).mp h)
      simp only [if_neg hkept, if_neg href, Option.some_inj]
      exact kind_settle_eq_iff hl (by decide) prior rest

/-- Settling what follows keeps whether a word comes first. -/
theorem wordAhead_settleFrom (before ls : List Lexeme) :
    (code (settleFrom before ls)).head?.any isWord = (code ls).head?.any isWord := by
  obtain ⟨prior, hprior⟩ := exists_code_settleFrom before ls
  rw [hprior]
  cases code ls with
  | nil => rfl
  | cons l rest =>
    rw [settleFrom_cons, List.head?_cons, List.head?_cons, Option.any_some, Option.any_some,
      isWord_settle]

/-- Settling what follows keeps whether a backslash separates it. -/
theorem separates_settleFrom (hraw : ∀ l ∈ ls, Raw l) :
    separates (settleFrom before ls) = separates ls := by
  cases ls with
  | nil => rfl
  | cons l rest =>
    have hl := kind_settle_eq_iff (k := .nsSeparator) (hraw l List.mem_cons_self)
        (by decide) before rest
    rw [settleFrom_cons, separates, separates, List.head?_cons, List.head?_cons, Option.any_some,
      Option.any_some, Bool.eq_iff_iff, beq_iff_eq, beq_iff_eq]
    exact hl

/-- A word is settled alike by the raw and by the settled lexemes behind it. -/
theorem alikeAhead_settleFrom (hraw : ∀ l ∈ ls, Raw l) (prior : List Lexeme) :
    AlikeAhead (settleFrom prior ls) ls where
  paren := firstKind_settleFrom_iff hraw (by decide)
  reference := firstKind_settleFrom_iff hraw (by decide)
  past := kindPastReference_settleFrom_iff hraw
  word := wordAhead_settleFrom prior ls
  separates := separates_settleFrom hraw

/-! ## Settling once is enough -/

/-- A keyword changes to a closure or an anonymous class, if not to a name, and each comes from one
keyword. -/
theorem keywordKind_cases (kind : Kind) (before after : List Lexeme) :
    keywordKind kind before after = kind ∨ keywordKind kind before after = .identifier ∨
      kind = .kwFunction ∧ keywordKind kind before after = .closure ∨
      kind = .kwClass ∧ firstKind before = some .kwNew ∧
      keywordKind kind before after = .anonClass := by
  unfold keywordKind
  dsimp only
  split
  · split
    · exact .inr (.inr (.inl ⟨rfl, rfl⟩))
    · exact .inl rfl
  · split
    · rename_i hnew
      exact .inr (.inr (.inr ⟨rfl, hnew, rfl⟩))
    · exact .inl rfl
  all_goals first | exact .inl rfl | split
  all_goals first | exact .inl rfl | exact .inr (.inl rfl)

/-- A settled kind is settled. -/
theorem settledKind_settledKind (kind : Kind) (before after : List Lexeme) :
    settledKind (settledKind kind before after) before after = settledKind kind before after := by
  by_cases hidentifier : kind = .identifier
  · subst hidentifier
    rfl
  by_cases hname : (isMemberName kind before || isDeclaredName before ||
      isQualified kind before after) = true
  · have hsettled : settledKind kind before after = .identifier := by
      rw [settledKind, if_neg hidentifier, if_pos hname]
    rw [hsettled]
    rfl
  have hsettled : settledKind kind before after = keywordKind kind before after := by
    rw [settledKind, if_neg hidentifier, if_neg hname]
  rcases keywordKind_cases kind before after with h | h | ⟨rfl, h⟩ | ⟨rfl, hnew, h⟩
  · rw [hsettled, h, hsettled, h]
  · rw [hsettled, h]
    rfl
  · rw [hsettled, h, settledKind, if_neg (by decide), if_neg]
    · rfl
    · exact hname
  · rw [hsettled, h, settledKind, if_neg (by decide), if_neg]
    · rfl
    · simpa [isMemberName, hnew, isQualified] using hname

/-- A word that is settled between its neighbours stays as it is when settled again. -/
theorem settle_settle (before after : List Lexeme) (l : Lexeme) :
    settle before after (settle before after l) = settle before after l := by
  by_cases hword : isWord l = true
  · have hagain := isWord_settle before after l
    rw [hword] at hagain
    rw [settle, if_pos hagain]
    simp only [settle, if_pos hword, settledKind_settledKind]
  · have hsame : settle before after l = l := if_neg hword
    rw [hsame, hsame]

/-- Settling settled lexemes changes nothing. -/
theorem settleFrom_settleFrom (hraw : ∀ l ∈ ls, Raw l) (before : List Lexeme) :
    settleFrom before (settleFrom before ls) = settleFrom before ls := by
  induction ls generalizing before with
  | nil => rfl
  | cons l ls ih =>
    have hls := (List.forall_mem_cons.mp hraw).2
    rw [settleFrom_cons, settleFrom_cons, settle_alike (.refl before) (alikeAhead_settleFrom hls _),
      settle_settle, ih hls]

/-- Where settling changes nothing, each lexeme is settled between its neighbours. -/
theorem settle_of_settleFrom {front behind : List Lexeme}
    (h : settleFrom before (front ++ l :: behind) = front ++ l :: behind) :
    settle (front.reverse ++ before) behind l = l := by
  induction front generalizing before with
  | nil => exact (List.cons_eq_cons.mp h).1
  | cons first front ih =>
    rw [List.cons_append, settleFrom_cons] at h
    obtain ⟨hfirst, hrest⟩ := List.cons_eq_cons.mp h
    rw [hfirst] at hrest
    rw [List.reverse_cons, List.append_assoc]
    exact ih hrest

/-- Each settled lexeme comes from one that is settled between what is settled in front of it and
what is still raw behind it. -/
theorem exists_of_settleFrom {front behind : List Lexeme}
    (h : settleFrom before ls = front ++ l :: behind) :
    ∃ raw rest, raw ∈ ls ∧ (∀ r ∈ rest, r ∈ ls) ∧ l = settle (front.reverse ++ before) rest raw ∧
      behind = settleFrom (l :: (front.reverse ++ before)) rest := by
  induction front generalizing before ls with
  | nil =>
    cases ls with
    | nil => cases h
    | cons raw rest =>
      rw [settleFrom_cons] at h
      obtain ⟨hl, hbehind⟩ := List.cons_eq_cons.mp h
      refine ⟨raw, rest, List.mem_cons_self, fun r hr => List.mem_cons_of_mem raw hr, hl.symm, ?_⟩
      rw [← hbehind, hl]
      rfl
  | cons first front ih =>
    cases ls with
    | nil => cases h
    | cons head ls =>
      rw [settleFrom_cons] at h
      obtain ⟨hfirst, hrest⟩ := List.cons_eq_cons.mp h
      obtain ⟨raw, rest, hmem, hsub, hl, hbehind⟩ := ih hrest
      rw [hfirst] at hl hbehind
      refine ⟨raw, rest, List.mem_cons_of_mem head hmem,
        fun r hr => List.mem_cons_of_mem head (hsub r hr), ?_, ?_⟩
      · rw [hl]
        simp
      · rw [hbehind]
        simp

/-! ## The rules of settled words -/

/-- Keywords and closures are words, also after settling. -/
theorem isWord_of_settle (hraw : Raw l) (before after : List Lexeme)
    (hkind : (settle before after l).kind ∈ Kind.closure :: keywords.map (·.2)) :
    isWord (settle before after l) = true := by
  rw [isWord_settle]
  rcases kind_settle before after l with hsame | ⟨hword, _⟩
  · rw [hsame] at hkind
    rcases List.mem_cons.mp hkind with hclosure | hkeyword
    · exact absurd hclosure hraw.kind_ne
    · exact hraw.keyword hkeyword
  · exact hword

/-- A keyword that is settled to itself stands in its construct. -/
theorem keywordKind_of_settle (hword : isWord l = true) (h : settle before after l = l)
    (hname : l.kind ≠ .identifier) :
    isMemberName l.kind before = false ∧ keywordKind l.kind before after = l.kind := by
  have hkind : settledKind l.kind before after = l.kind := by
    rw [settle, if_pos hword] at h
    exact congrArg Lexeme.kind h
  rw [settledKind, if_neg hname] at hkind
  split at hkind
  · exact absurd hkind.symm hname
  · rename_i hplain
    simp only [Bool.or_eq_true, not_or, Bool.not_eq_true] at hplain
    exact ⟨hplain.1.1, hkind⟩

/-- A keyword that needs a parenthesis keeps its kind only where there is one. -/
theorem firstKind_of_keywordKind (hkind : k ∈ [Kind.kwArray, .kwList, .kwMatch])
    (hname : k ≠ .identifier) (hself : keywordKind k before after = k) :
    firstKind after = some .openParen := by
  by_contra hnext
  have hother : keywordKind k before after = .identifier := by
    simp only [List.mem_cons, List.not_mem_nil, or_false] at hkind
    rcases hkind with rfl | rfl | rfl
    · exact if_neg hnext
    · exact if_neg hnext
    · exact if_neg hnext
  exact hname (hself.symm.trans hother)

/-- Behind the operator of a member, a settled word is an identifier, or `class` behind `::`. -/
theorem member_of_settle (hword : isWord l = true) (hfixed : settle before after l = l)
    (hleads : Leads before k)
    (hk : k ∈ [Kind.objectOperator, .nullsafeObjectOperator, .doubleColon]) :
    l.kind = .identifier ∨ l.kind = .kwClass ∧ k = .doubleColon := by
  by_cases hname : l.kind = .identifier
  · exact .inl hname
  have htable : ∀ k ∈ [Kind.objectOperator, .nullsafeObjectOperator, .doubleColon],
      k.isTrivia = false ∧ selectsMember k = true := by
    decide
  obtain ⟨htrivia, hselects⟩ := htable k hk
  have hmember := (keywordKind_of_settle hword hfixed hname).1
  rw [isMemberName, (firstKind_eq_some_iff htrivia).mpr hleads, Option.any_some,
    hselects] at hmember
  right
  simpa using hmember

/-- A settled keyword that needs a parenthesis has one behind it. -/
theorem leads_of_settle (hword : isWord l = true) (hfixed : settle before after l = l)
    (hkind : l.kind ∈ [Kind.kwArray, .kwList, .kwMatch]) : Leads after .openParen := by
  have htable : ∀ k ∈ [Kind.kwArray, .kwList, .kwMatch], k ≠ .identifier := by decide
  have hname := htable _ hkind
  have hself := (keywordKind_of_settle hword hfixed hname).2
  exact (firstKind_eq_some_iff rfl).mp (firstKind_of_keywordKind hkind hname hself)

/-- A settled `function` has no parameters right behind it. -/
theorem not_opensParameters_of_settle (hword : isWord l = true) (hfixed : settle before after l = l)
    (hkind : l.kind = .kwFunction) : ¬ OpensParameters after := by
  intro hopens
  have hself := (keywordKind_of_settle hword hfixed (by simp [hkind])).2
  rw [hkind, keywordKind, if_pos (kindPastReference_eq_some_iff.mpr hopens)] at hself
  cases hself

/-- A settled `class` does not stand behind `new`. -/
theorem not_leads_of_settle (hword : isWord l = true) (hfixed : settle before after l = l)
    (hkind : l.kind = .kwClass) : ¬ Leads before .kwNew := by
  intro hleads
  have hself := (keywordKind_of_settle hword hfixed (by simp [hkind])).2
  rw [hkind, keywordKind, if_pos ((firstKind_eq_some_iff rfl).mpr hleads)] at hself
  cases hself

/-- Every lexeme of a settled list keeps the rules of its kind between its final neighbours. -/
theorem inContext_of_settleFrom {front behind : List Lexeme} (hraw : ∀ l ∈ ls, Raw l)
    (h : settleFrom [] ls = front ++ l :: behind) : InContext front l behind := by
  have hfixed : settle front.reverse behind l = l := by
    have hagain := settleFrom_settleFrom hraw []
    rw [h] at hagain
    simpa using settle_of_settleFrom hagain
  obtain ⟨raw, rest, hmem, hsub, hl, hbehind⟩ := exists_of_settleFrom h
  have hkeyword (hkind : l.kind ∈ Kind.closure :: keywords.map (·.2)) : isWord l = true := by
    rw [hl] at hkind ⊢
    exact isWord_of_settle (hraw raw hmem) _ _ hkind
  constructor
  case member => exact fun hword op hleads hop => member_of_settle hword hfixed hleads hop
  case parenthesized =>
    intro hkind
    have htable : ∀ k ∈ [Kind.kwArray, .kwList, .kwMatch],
        k ∈ Kind.closure :: keywords.map (·.2) := by decide
    exact leads_of_settle (hkeyword (htable _ hkind)) hfixed hkind
  case closure =>
    intro hkind
    rw [hbehind]
    apply kindPastReference_eq_some_iff.mp
    apply (kindPastReference_settleFrom_iff fun r hr => hraw r (hsub r hr)).mpr
    have hne := (hraw raw hmem).kind_ne
    rw [hl, settle] at hkind
    split at hkind
    · exact kindPastReference_of_settledKind hne hkind
    · exact absurd hkind hne
  case function =>
    intro hkind
    apply not_opensParameters_of_settle _ hfixed hkind
    exact hkeyword (by rw [hkind]; decide)
  case anonymous =>
    intro hkind
    apply not_leads_of_settle _ hfixed hkind
    exact hkeyword (by rw [hkind]; decide)

end Words

/-- Settling keeps texts and what is no word, and once is enough. What it leaves keeps the rules of
members, keywords and declarations. -/
theorem settleWords_settles (source : String) :
    (settleWords (lex source)).map (·.text) = (lex source).map (·.text) ∧
    (∀ (i : Nat) (l : Lexeme), (lex source)[i]? = some l → isWord l = false →
      (settleWords (lex source))[i]? = some l) ∧
    settleWords (settleWords (lex source)) = settleWords (lex source) ∧
    ∀ front l behind, settleWords (lex source) = front ++ l :: behind →
      InContext front l behind := by
  have hraw : ∀ l ∈ lex source, Raw l := raw_lex source
  refine ⟨map_text_settleWords _, ?_, Words.settleFrom_settleFrom hraw [], ?_⟩
  · intro i l hl hword
    obtain ⟨prior, hsettled⟩ := Words.exists_settle [] (lex source) i
    rw [settleWords, hsettled, hl, Option.map_some, Words.settle, if_neg (by simp [hword])]
  · exact fun front l behind h => Words.inContext_of_settleFrom hraw h

/-- In a call of a method `list`, the arrow stays what it is and the name becomes an identifier. -/
theorem settleWords_settles_member :
    (settleWords (lex "<?php $a->list()"))[2]? = some ⟨.objectOperator, "->"⟩ ∧
    InContext [⟨.openTag, "<?php "⟩, ⟨.variable, "$a"⟩, ⟨.objectOperator, "->"⟩]
      ⟨.identifier, "list"⟩ [⟨.openParen, "("⟩, ⟨.closeParen, ")"⟩] := by
  obtain ⟨_, hkept, _, hrules⟩ := settleWords_settles "<?php $a->list()"
  constructor
  · exact hkept 2 _ (by decide +kernel) (by decide)
  · exact hrules _ _ _ (by decide +kernel)

end PhpStyle.Php
