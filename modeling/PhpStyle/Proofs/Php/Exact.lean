import PhpStyle.Proofs.Php.Declarations
import PhpStyle.Proofs.Php.Spelling

/-!
# What the store of a PHP text promises of its texts

Beside what every rule relies on, the tokens of a file have texts: none is empty, a few are spelled
in one way, and columns count their characters. So whether an edit changes anything can be read off
the places of tokens.
-/

namespace PhpStyle.Php

open Text (isBlank)

namespace Skeleton

variable {s : Skeleton} {owner opener : Nat}

/-- The parentheses that a token owns are the first ones behind it. -/
theorem Owns.after? (h : s.Owns owner opener) (hopen : s.kind opener = .openParen) :
    s.after? (· == .openParen) owner = some opener := by
  have hgap {a b k : Nat} (hnext : s.nextCode? a = some b) (hak : a < k) (hkb : k < b) :
      s.kind k ≠ .openParen := by
    intro hk
    have := (after?_eq_some_iff.mp hnext).2.2.2 k hak hkb
    simp [hk, Kind.isTrivia, Kind.isComment] at this
  have hname {a b : Nat} (hb : (if s.kind a = .openParen then some a else s.nextCode? a) = some b)
      {k : Nat} (hak : a ≤ k) (hkb : k < b) : s.kind k ≠ .openParen := by
    split at hb
    · cases hb
      omega
    · rename_i ha
      rcases Nat.eq_or_lt_of_le hak with rfl | hak
      · exact ha
      · exact hgap hb hak hkb
  obtain ⟨_, hlt, hbehind⟩ := h
  refine after?_eq_some_iff.mpr ⟨hlt, lt_size_of_kind_ne (by simp [hopen]), by simp [hopen], ?_⟩
  intro k hk hko
  suffices s.kind k ≠ .openParen by simpa using this
  simp only [parenBehind?, Option.bind_eq_bind] at hbehind
  obtain ⟨first, hfirst, hbehind⟩ := Option.bind_eq_some_iff.mp hbehind
  by_cases hbefore : k < first
  · exact hgap hfirst hk hbefore
  split at hbehind
  · rename_i href
    obtain ⟨name, hreference, hopener⟩ := Option.bind_eq_some_iff.mp hbehind
    rcases Nat.eq_or_lt_of_le (Nat.le_of_not_lt hbefore) with rfl | hbehind
    · simp [href]
    · by_cases hinside : k < name
      · exact hgap hreference hbehind hinside
      · exact hname hopener (Nat.le_of_not_lt hinside) hko
  · exact hname hbehind (Nat.le_of_not_lt hbefore) hko

/-- The braces of a function are looked for behind the first parentheses behind it. -/
theorem scopeOpener?_of_kwFunction {taken : List Nat} {j : Nat} (hkind : s.kind owner = .kwFunction)
    (h : s.scopeOpener? taken owner = some j) :
    ∃ opener closer, s.after? (· == .openParen) owner = some opener ∧
      s.partner? opener = some closer ∧ closer < j := by
  have hbare : isBare .kwFunction = false := rfl
  have hcondition : hasCondition .kwFunction = false := rfl
  simp only [scopeOpener?, hkind, hbare, hcondition, Bool.false_eq_true, if_false, true_or, if_true,
    Option.bind_eq_bind, Option.bind_eq_some_iff] at h
  obtain ⟨opener, hopener, closer, hcloser, hblock⟩ := h
  exact ⟨opener, closer, hopener, hcloser, (blockFrom?_eq_some hblock).1⟩

end Skeleton

/-- What rules may rely on in the texts of a store of a PHP text. -/
structure Exact (s : Store) : Prop where
  sound : Sound s
  length : ∀ i, (s.token i).length = (s.text i).length
  text_ne : ∀ i < s.size, s.text i ≠ ""
  spells : ∀ i, (s.kind i).Spells (s.text i).toList
  column : ∀ i, i + 1 < s.size → '\n' ∉ (s.text i).toList →
    (s.token (i + 1)).column = (s.token i).column + (s.text i).length
  blank : ∀ i, i + 1 < s.size → s.kind i = .whitespace → s.kind (i + 1) = .whitespace →
    (s.text i).toList.getLast? = some '\n'
  /-- The braces of a function stand behind its parameters. -/
  head : ∀ i parens scope, s.kind i = .kwFunction → s.paren? i = some parens →
    s.scope? i = some scope → parens.closer < scope.opener
  comment_lt : ∀ i j, s.commentMatch? i = some j → j < s.size
  /-- A `declare` moved right behind the open tag is a `declare` there. -/
  declare_ : ∀ i rest, s.kind i = .kwDeclare → i + 1 < s.size →
    s.source.toList = "<?php ".toList ++ (s.text i).toList ++ (s.text (i + 1)).toList ++ rest →
    s.kind 0 = .openTag ∧ s.text 0 = "<?php " ∧ s.kind 1 = .kwDeclare

/-- Settling puts every lexeme of a text among its neighbours and changes nothing but the kinds of
words. -/
theorem exists_raw_of_settleWords {lexemes : List Lexeme} {i : Nat} {l : Lexeme}
    (hl : (settleWords lexemes)[i]? = some l) :
    ∃ raw prior, lexemes[i]? = some raw ∧ l = Words.settle prior (lexemes.drop (i + 1)) raw ∧
      l.text = raw.text := by
  obtain ⟨prior, hsettled⟩ := Words.exists_settle [] lexemes i
  rw [settleWords, hsettled] at hl
  obtain ⟨raw, hraw, rfl⟩ := Option.map_eq_some_iff.mp hl
  refine ⟨raw, prior, hraw, rfl, ?_⟩
  unfold Words.settle
  split
  · rfl
  · rfl

/-- A word keeps its kind or becomes a name, a closure or an anonymous class. -/
theorem kind_settle (prior after : List Lexeme) (l : Lexeme) :
    (Words.settle prior after l).kind = l.kind ∨
      isWord l = true ∧ (Words.settle prior after l).kind ∈ [Kind.identifier, .closure,
        .anonClass] := by
  unfold Words.settle
  split
  · rename_i hword
    rcases Words.settledKind_cases l.kind prior after with h | h
    · exact .inl h
    · exact .inr ⟨hword, h⟩
  · exact .inl rfl

/-- What is settled to be whitespace was whitespace. -/
theorem kind_of_settle {prior after : List Lexeme} {l : Lexeme} {k : Kind}
    (h : (Words.settle prior after l).kind = k) (hk : k ∉ [Kind.identifier, .closure, .anonClass]) :
    l.kind = k := by
  rcases kind_settle prior after l with hsame | ⟨_, hother⟩
  · exact hsame.symm.trans h
  · rw [h] at hother
    exact absurd hother hk

/-- Every settled lexeme is spelled as its kind says. -/
theorem spells_settleWords (source : String) :
    ∀ l ∈ settleWords (lex source), l.kind.Spells l.text.toList := by
  intro l hl
  obtain ⟨i, hi⟩ := List.mem_iff_getElem?.mp hl
  obtain ⟨raw, prior, hraw, hsettle, htext⟩ := exists_raw_of_settleWords hi
  have hspells := spells_lex source raw (List.mem_of_getElem? hraw)
  rw [htext]
  rcases kind_settle prior ((lex source).drop (i + 1)) raw with hsame | ⟨_, hother⟩
  · rw [hsettle, hsame]
    exact hspells
  · have hloose : ∀ k ∈ [Kind.identifier, .closure, .anonClass], k.isStrict = false := by decide
    rw [hsettle]
    exact .of_loose (hloose _ hother)

/-- Two lexemes in turn are such as can stand beside each other. -/
theorem beside_of_getElem? {source : String} {i : Nat} {a b : Lexeme}
    (ha : (lex source)[i]? = some a) (hb : (lex source)[i + 1]? = some b) : Beside a b := by
  obtain ⟨_, rfl⟩ := List.getElem?_eq_some_iff.mp ha
  obtain ⟨hi, rfl⟩ := List.getElem?_eq_some_iff.mp hb
  exact List.isChain_iff_getElem.mp
    (lex_eq_lexFrom source ▸ beside_lexFrom .html source.toList) i hi

/-- A `declare` moved right behind the open tag, with what follows it, is read as a `declare`
there. -/
theorem declare_behind_tag {word : List Char} {c : Char} {cs : List Char} (hword : word = c :: cs)
    (hstarts : startsWord c = true) (hgoes : ∀ d ∈ cs, continuesWord d = true)
    (hkind : wordKind word = .kwDeclare) {x : Char} (hends : continuesWord x = false)
    (hslash : x ≠ '\\') (rest : List Char) (source : String)
    (hsource : source.toList = "<?php ".toList ++ word ++ x :: rest) :
    ∃ behind, settleWords (lex source) =
      ⟨.openTag, "<?php "⟩ :: ⟨.kwDeclare, String.ofList word⟩ :: behind := by
  subst hword
  have htail : lexFrom .code (c :: (cs ++ x :: rest)) =
      ⟨.kwDeclare, String.ofList (c :: cs)⟩ :: lexFrom .code (x :: rest) := by
    rw [lexFrom]
    simp only [Mode.step, Lexer.codeStep_of_startsWord hstarts, Lexer.run_append hgoes hends,
      List.take_left, List.drop_left, hkind]
  have htag (text : List Char) :
      lexFrom .html ("<?php ".toList ++ text) = ⟨.openTag, "<?php "⟩ :: lexFrom .code text := by
    change lexFrom .html ('<' :: _) = _
    rw [lexFrom]
    rfl
  have hlex : lex source = ⟨.openTag, "<?php "⟩ :: ⟨.kwDeclare, String.ofList (c :: cs)⟩ ::
      lexFrom .code (x :: rest) := by
    rw [lex_eq_lexFrom, hsource, List.append_assoc, htag, ← htail]
    rfl
  have hnext : (lexFrom .code (x :: rest)).head?.any (·.kind == .nsSeparator) = false := by
    have hspells := Mode.step_spells .code x rest
    rw [lexFrom]
    by_contra hseparator
    have hkind : (Mode.code.step x rest).kind = .nsSeparator := by simpa using hseparator
    exact hslash (List.cons_eq_cons.mp (hspells.nsSeparator hkind)).1
  have hsettled (behind : List Lexeme) (h : behind.head?.any (·.kind == .nsSeparator) = false) :
      Words.settledKind .kwDeclare [⟨.openTag, "<?php "⟩] behind = .kwDeclare := by
    have hqualified : Words.isQualified .kwDeclare [⟨.openTag, "<?php "⟩] behind = false := by
      simp [Words.isQualified, h]
    rw [Words.settledKind, if_neg (by simp), if_neg]
    · rfl
    · rw [hqualified]
      decide
  have htagword : isWord ⟨.openTag, "<?php "⟩ = false := by decide
  have hword : isWord ⟨.kwDeclare, String.ofList (c :: cs)⟩ = true := by
    simpa [isWord, startsWord, Kind.isTrivia, Kind.isComment] using hstarts
  refine ⟨Words.settleFrom [⟨.kwDeclare, String.ofList (c :: cs)⟩, ⟨.openTag, "<?php "⟩]
    (lexFrom .code (x :: rest)), ?_⟩
  simp only [settleWords, hlex, Words.settleFrom, htagword, hword, hsettled _ hnext, if_true,
    Bool.false_eq_true, if_false]

section

variable {source : String} {store : Store}
  (hbuild : Store.build? (settleWords (lex source)) (outline (settleWords (lex source))) =
    .ok store)

include hbuild

/-- A token is as long as its text. -/
theorem length_of_build (i : Nat) : (store.token i).length = (store.text i).length := by
  by_cases hi : i < store.size
  · have hmem : store.token i ∈ store.tokens := by
      rw [Store.token, Array.getElem?_eq_getElem hi]
      exact Array.getElem_mem hi
    rw [(Store.build?_spec hbuild).1] at hmem
    exact Token.length_of_mem_layoutFrom _ (List.mem_toArray.mp hmem)
  · rw [Store.text, Store.token_of_size_le (Nat.le_of_not_lt hi)]
    rfl

/-- Within a store stand the lexemes of the text, settled. -/
theorem exists_raw_of_build {i : Nat} (hi : i < store.size) :
    ∃ raw prior, (lex source)[i]? = some raw ∧ raw ∈ lex source ∧ store.text i = raw.text ∧
      store.kind i = (Words.settle prior ((lex source).drop (i + 1)) raw).kind := by
  obtain ⟨l, hl, hkind, htext⟩ := Store.exists_lexeme_of_build? hbuild hi
  obtain ⟨raw, prior, hraw, rfl, hsame⟩ := exists_raw_of_settleWords hl
  exact ⟨raw, prior, hraw, List.mem_of_getElem? hraw, htext.trans hsame, hkind⟩

/-- No token of a store is empty. -/
theorem text_ne_of_build {i : Nat} (hi : i < store.size) : store.text i ≠ "" := by
  obtain ⟨raw, _, _, hraw, htext, _⟩ := exists_raw_of_build hbuild hi
  rw [htext]
  exact (lex_cut source).text_ne_empty raw hraw

/-- Whitespace stands behind whitespace only where a line ends. -/
theorem blank_of_build {i : Nat} (hi : i + 1 < store.size) (hfirst : store.kind i = .whitespace)
    (hsecond : store.kind (i + 1) = .whitespace) :
    (store.text i).toList.getLast? = some '\n' := by
  obtain ⟨a, _, ha, _, htext, hakind⟩ := exists_raw_of_build hbuild (Nat.lt_of_succ_lt hi)
  obtain ⟨b, _, hb, _, _, hbkind⟩ := exists_raw_of_build hbuild hi
  have hblank : Kind.whitespace ∉ [Kind.identifier, .closure, .anonClass] := by decide
  rw [htext]
  exact (beside_of_getElem? ha hb).blank (kind_of_settle (hakind.symm.trans hfirst) hblank)
    (kind_of_settle (hbkind.symm.trans hsecond) hblank)

/-- A token that is no bracket and has parentheses owns them, and so for scopes. -/
theorem owner_of_build {i : Nat} (hkind : (store.kind i).isBracket = false) {parens scope : Group}
    (hparens : store.paren? i = some parens) (hscope : store.scope? i = some scope) :
    i = parens.owner ∧ i = scope.owner := by
  have hne {j : Nat} {k : Kind} (hj : store.kind j = k) (hk : k.isBracket = true) : i ≠ j := by
    rintro rfl
    rw [hj, hk] at hkind
    cases hkind
  obtain ⟨_, hopen, hclose⟩ := paren_of_build hbuild hparens
  obtain ⟨_, hopenCurly, hcloseCurly⟩ := scope_of_build hbuild hscope
  have hpin := Group.mem_tokens_iff.mp ((Store.paren?_eq_some_iff hbuild).mp hparens).2
  have hsin := Group.mem_tokens_iff.mp ((Store.scope?_eq_some_iff hbuild).mp hscope).2
  constructor
  · rcases hpin with h | h | h
    · exact h
    · exact absurd h (hne hopen (by decide))
    · exact absurd h (hne hclose (by decide))
  · rcases hsin with h | h | h
    · exact h
    · exact absurd h (hne hopenCurly (by decide))
    · exact absurd h (hne hcloseCurly (by decide))

/-- The parentheses of what is no bracket are a pair that belongs to it. -/
theorem parens_of_build {i : Nat} (hkind : (store.kind i).isBracket = false) {parens : Group}
    (hparens : store.paren? i = some parens) (howner : i = parens.owner) :
    (parens.opener, parens.closer) ∈ Brackets.pair ((settleWords (lex source)).map (·.kind)) ∧
      (Skeleton.ofKinds ((settleWords (lex source)).map (·.kind))).kind parens.opener = .openParen ∧
      (Skeleton.ofKinds ((settleWords (lex source)).map (·.kind))).parenOwner parens.opener = i ∧
      (Skeleton.ofKinds ((settleWords (lex source)).map (·.kind))).Owns i parens.opener := by
  obtain ⟨hmem, _⟩ := (Store.paren?_eq_some_iff hbuild).mp hparens
  obtain ⟨p, hp, rfl⟩ := List.mem_map.mp hmem
  obtain ⟨hpair, hparen⟩ := List.mem_filter.mp hp
  have hopen : (Skeleton.ofKinds ((settleWords (lex source)).map (·.kind))).kind p.1 = .openParen :=
    of_decide_eq_true hparen
  refine ⟨hpair, hopen, howner.symm, ?_⟩
  rcases Skeleton.parenOwner_cases hopen with hself | howns
  · rw [kind_of_build hbuild, howner.trans hself, hopen] at hkind
    cases hkind
  · exact howner ▸ howns

/-- The braces of a function are looked for behind its own parentheses. -/
theorem head_of_build {i : Nat} {parens scope : Group} (hkind : store.kind i = .kwFunction)
    (hparens : store.paren? i = some parens) (hscope : store.scope? i = some scope) :
    parens.closer < scope.opener := by
  obtain ⟨hpowner, hsowner⟩ := owner_of_build hbuild (by rw [hkind]; rfl) hparens hscope
  obtain ⟨hpair, hopen, _, howns⟩ := parens_of_build hbuild (by rw [hkind]; rfl) hparens hpowner
  obtain ⟨hsmem, _⟩ := (Store.scope?_eq_some_iff hbuild).mp hscope
  rw [kind_of_build hbuild] at hkind
  obtain ⟨taken, hscopeOpener⟩ := scopeOpener?_of_mem_scopesFrom scope hsmem
  obtain ⟨opener, closer, hopener, hcloser, hbehind⟩ :=
    Skeleton.scopeOpener?_of_kwFunction hkind (hsowner ▸ hscopeOpener)
  obtain rfl : parens.opener = opener := Option.some.inj ((howns.after? hopen).symm.trans hopener)
  have hsame := mem_pair_of_partner? (by rw [hopen]; rfl) hcloser
  obtain rfl : parens.closer = closer := Brackets.closer_unique hpair hsame
  exact hbehind

/-- A `declare` whose text follows the open tag at once stands behind it in the store as well. -/
theorem declare_of_build {i : Nat} {rest : List Char} (hkind : store.kind i = .kwDeclare)
    (hi : i + 1 < store.size) (hsource : store.source.toList =
      "<?php ".toList ++ (store.text i).toList ++ (store.text (i + 1)).toList ++ rest) :
    store.kind 0 = .openTag ∧ store.text 0 = "<?php " ∧ store.kind 1 = .kwDeclare := by
  obtain ⟨a, prior, ha, hamem, hatext, hakind⟩ := exists_raw_of_build hbuild (Nat.lt_of_succ_lt hi)
  obtain ⟨b, priorb, hb, hbmem, hbtext, hbkind⟩ := exists_raw_of_build hbuild hi
  have hdeclare : a.kind = .kwDeclare := kind_of_settle (hakind.symm.trans hkind) (by decide)
  have hraw := raw_lex source a hamem
  have hword : isWord a = true := hraw.keyword (by rw [hdeclare]; decide)
  obtain ⟨c, cs, htext, hstarts, hgoes⟩ := word_spec a (lex_eq_lexFrom source ▸ hamem) hword
  have hspelled : wordKind a.text.toList = .kwDeclare := (hraw.word hword).symm.trans hdeclare
  have hbeside := beside_of_getElem? ha hb
  -- a backslash behind the word would make it part of a name
  have hnext : b.kind ≠ .nsSeparator := by
    intro hseparator
    have hqualified : Words.isQualified a.kind prior ((lex source).drop (i + 1)) = true := by
      simp [Words.isQualified, hdeclare, List.head?_drop, hb, hseparator]
    rw [hakind, Words.settle, if_pos hword] at hkind
    simp [Words.settledKind, hdeclare ▸ hqualified, hdeclare] at hkind
  obtain ⟨x, v, hx⟩ := List.exists_cons_of_ne_nil fun hnil =>
    (lex_cut source).text_ne_empty b hbmem (String.toList_eq_nil_iff.mp hnil)
  have hends : continuesWord x = false := by simpa [hx] using hbeside.word hword
  have hslash : x ≠ '\\' := by
    rintro rfl
    exact hnext (hbeside.separator hword (by simp [hx]))
  rw [(Store.build?_spec hbuild).2, hatext, hbtext, hx] at hsource
  have hsame : String.join ((settleWords (lex source)).map (·.text)) = source := by
    rw [map_text_settleWords, join_text_lex]
  rw [hsame] at hsource
  obtain ⟨behind, hsettled⟩ := declare_behind_tag htext hstarts hgoes hspelled hends hslash
      (v ++ rest) source (by simpa using hsource)
  have htag := Store.token_of_build? hbuild (i := 0) (by rw [hsettled]; rfl)
  have hfirst := Store.token_of_build? hbuild (i := 1) (by rw [hsettled]; rfl)
  exact ⟨htag.1, htag.2, hfirst.1⟩

/-- The store of a PHP text promises all this. -/
theorem exact_of_build : Exact store where
  sound := sound_of_build hbuild
  length := length_of_build hbuild
  text_ne _ := text_ne_of_build hbuild
  spells := Store.forall_token_of_build? hbuild (p := fun k text => k.Spells text.toList)
    (.of_loose rfl) (spells_settleWords source)
  column _ hi hbreak :=
    adjacent_of_build hbuild (R := fun a b => '\n' ∉ a.text.toList →
      b.column = a.column + a.text.length) (fun _ _ _ => Place.after_column_add) hi hbreak
  blank _ := blank_of_build hbuild
  head _ _ _ := head_of_build hbuild
  comment_lt _ _ := Store.lt_size_of_commentMatch? hbuild
  declare_ _ _ := declare_of_build hbuild

end

end PhpStyle.Php
