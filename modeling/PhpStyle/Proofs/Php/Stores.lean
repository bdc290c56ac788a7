import PhpStyle.Proofs.Php.CommentEnds
import PhpStyle.Proofs.Php.Outlining
import PhpStyle.Proofs.Store.Lookups
import PhpStyle.Proofs.Text.Visible
import PhpStyle.Proofs.Token.Lines

/-!
# What the store of a PHP text promises

Rules look at stores and not at texts. What they may rely on is that the tokens make up the source,
have the shapes of their kinds and follow one another, that scopes stand between braces, and that
groups stand between parentheses.
-/

namespace PhpStyle

namespace Store

variable {lexemes : List Lexeme} {outline : Outline} {store : Store}

/-- The partners of comment tags are those of the outline, either way round. -/
theorem comment_of_build? (hbuild : Store.build? lexemes outline = .ok store) {i j : Nat}
    (h : store.commentMatch? i = some j) :
    ∃ p ∈ outline.comments, p.1 < p.2 ∧ p.2 < store.size ∧ (p = (i, j) ∨ p = (j, i)) := by
  have hfit := (wellFormed_of_build? hbuild).comments_fit
  rw [size_of_build? hbuild]
  rcases (commentMatch?_eq_some_iff hbuild).mp h with hp | hp
  · obtain ⟨hlt, hsize⟩ := hfit _ hp
    exact ⟨_, hp, hlt, hsize, .inl rfl⟩
  · obtain ⟨hlt, hsize⟩ := hfit _ hp
    exact ⟨_, hp, hlt, hsize, .inr rfl⟩

/-- The partner of a comment tag is a token. -/
theorem lt_size_of_commentMatch? (hbuild : Store.build? lexemes outline = .ok store) {i j : Nat}
    (h : store.commentMatch? i = some j) : j < store.size := by
  obtain ⟨p, _, hlt, hsize, rfl | rfl⟩ := comment_of_build? hbuild h
  · exact hsize
  · exact Nat.lt_trans hlt hsize

/-- Past the end of a store there is no token. -/
theorem token_of_size_le {i : Nat} (h : store.size ≤ i) : store.token i = .absent := by
  rw [token, Array.getElem?_eq_none h]
  rfl

/-- Within a built store stand its lexemes. -/
theorem exists_lexeme_of_build? (hbuild : Store.build? lexemes outline = .ok store) {i : Nat}
    (hi : i < store.size) :
    ∃ l, lexemes[i]? = some l ∧ store.kind i = l.kind ∧ store.text i = l.text := by
  rw [size_of_build? hbuild] at hi
  exact ⟨_, List.getElem?_eq_getElem hi, token_of_build? hbuild (List.getElem?_eq_getElem hi)⟩

/-- What holds of every lexeme, and of none, holds of every token. -/
theorem forall_token_of_build? (hbuild : Store.build? lexemes outline = .ok store)
    {p : Kind → String → Prop} (habsent : p .unknown "") (h : ∀ l ∈ lexemes, p l.kind l.text)
    (i : Nat) : p (store.kind i) (store.text i) := by
  by_cases hi : i < store.size
  · obtain ⟨l, hl, hkind, htext⟩ := exists_lexeme_of_build? hbuild hi
    rw [hkind, htext]
    exact h l (List.mem_of_getElem? hl)
  · rw [kind, text, token_of_size_le (Nat.le_of_not_lt hi)]
    exact habsent

/-- A place with a known kind is a token of the store. -/
theorem lt_size_of_kind_ne {i : Nat} (h : store.kind i ≠ .unknown) : i < store.size := by
  by_contra hge
  exact h (by rw [kind, token_of_size_le (Nat.le_of_not_lt hge), Token.absent])

/-- A place whose kind is given and known is a token of the store. -/
theorem lt_size_of_kind {i : Nat} {k : Kind} (h : store.kind i = k) (hk : k ≠ .unknown) :
    i < store.size :=
  lt_size_of_kind_ne (h ▸ hk)

/-- A place whose kind may run over lines is a token of the store. -/
theorem lt_size_of_isWrapping {i : Nat} (h : (store.kind i).isWrapping = true) : i < store.size :=
  lt_size_of_kind_ne fun hkind => by simp [hkind, Kind.isWrapping] at h

end Store

namespace Php

/-- What rules may rely on in the store of a PHP text. -/
structure Sound (s : Store) : Prop where
  source : s.source = String.join (s.tokens.toList.map (·.text))
  shapes : ∀ i, (s.kind i).Shapes (s.text i).toList
  follows : ∀ i, i + 1 < s.size → Token.Follows (s.token i) (s.token (i + 1))
  comment : ∀ i, i + 1 < s.size → (s.kind i).isComment = true → (s.kind (i + 1)).isComment = false →
    ShowsOrBreaks (s.text i).toList
  scope : ∀ i g, s.scope? i = some g →
    g.opener < g.closer ∧ s.kind g.opener = .openCurly ∧ s.kind g.closer = .closeCurly
  paren : ∀ i g, s.paren? i = some g →
    g.opener < g.closer ∧ s.kind g.opener = .openParen ∧ s.kind g.closer = .closeParen

/-- The bracket that closes a group is that of the one that opens it. -/
theorem closer_of_fits {closer opener : Kind} (hcloses : closer.closesGroup = true)
    (hfits : Brackets.fits closer opener = true) :
    (opener = .openCurly → closer = .closeCurly) ∧
    (opener = .openParen → closer = .closeParen) := by
  have hkinds : closer = .closeCurly ∨ closer = .closeParen ∨ closer = .closeSquare := by
    revert hcloses
    cases closer <;> simp [Kind.closesGroup]
  constructor
  · rintro rfl
    rcases hkinds with rfl | rfl | rfl
    · rfl
    · cases hfits
    · cases hfits
  · rintro rfl
    rcases hkinds with rfl | rfl | rfl
    · cases hfits
    · rfl
    · cases hfits

section

variable {lexemes : List Lexeme} {store : Store}
  (hbuild : Store.build? lexemes (outline lexemes) = .ok store)

include hbuild

/-- Of a pair of brackets, what the store says of its ends. -/
theorem ends_of_build {p : Nat × Nat} (hp : p ∈ Brackets.pair (lexemes.map (·.kind))) :
    p.1 < p.2 ∧ store.kind p.1 = (Skeleton.ofKinds (lexemes.map (·.kind))).kind p.1 ∧
      (store.kind p.1 = .openCurly → store.kind p.2 = .closeCurly) ∧
      (store.kind p.1 = .openParen → store.kind p.2 = .closeParen) := by
  obtain ⟨hlt, opener, closer, hopener, hcloser, _, hcloses, hfits⟩ := Brackets.mem_pair hp
  rw [Store.kind_of_kinds hbuild hopener, Store.kind_of_kinds hbuild hcloser, kind_ofKinds hopener]
  exact ⟨hlt, rfl, closer_of_fits hcloses hfits⟩

/-- The braces of a scope are an opening and a closing one, in order. -/
theorem scope_of_build {i : Nat} {g : Group} (h : store.scope? i = some g) :
    g.opener < g.closer ∧ store.kind g.opener = .openCurly ∧ store.kind g.closer = .closeCurly := by
  obtain ⟨hmem, _⟩ := (Store.scope?_eq_some_iff hbuild).mp h
  obtain ⟨hlt, hopener, hcurly, _⟩ := ends_of_build hbuild ((family_scopes _).ends g hmem)
  obtain ⟨_, _, hfound⟩ := Skeleton.mem_scopesFrom (partnersBehind_ofKinds _) g hmem
  have hopen : store.kind g.opener = .openCurly := hopener.trans hfound.opener
  exact ⟨hlt, hopen, hcurly hopen⟩

/-- Parentheses are an opening and a closing one, in order. -/
theorem paren_of_build {i : Nat} {g : Group} (h : store.paren? i = some g) :
    g.opener < g.closer ∧ store.kind g.opener = .openParen ∧ store.kind g.closer = .closeParen := by
  obtain ⟨hmem, _⟩ := (Store.paren?_eq_some_iff hbuild).mp h
  obtain ⟨hlt, hopener, _, hparen⟩ := ends_of_build hbuild ((family_parens _).ends g hmem)
  obtain ⟨p, hp, rfl⟩ := List.mem_map.mp hmem
  have hopen := hopener.trans (of_decide_eq_true (List.mem_filter.mp hp).2)
  exact ⟨hlt, hopen, hparen hopen⟩

/-- What holds of two lexemes put side by side holds along the tokens of a store. -/
theorem adjacent_of_build {R : Token → Token → Prop}
    (h : ∀ p l l', R (.put p l) (.put (p.after l.text) l')) {i : Nat} (hi : i + 1 < store.size) :
    R (store.token i) (store.token (i + 1)) := by
  have htokens := (Store.build?_spec hbuild).1
  have hsize : i + 1 < (Token.layout lexemes).length := by
    rw [Store.size, htokens] at hi
    exact hi
  have hget (j : Nat) (hj : j < (Token.layout lexemes).length) :
      store.token j = (Token.layout lexemes)[j] := by
    rw [Store.token, htokens, List.getElem?_toArray, List.getElem?_eq_getElem hj]
    rfl
  rw [hget i (by omega), hget (i + 1) hsize]
  exact List.isChain_iff_getElem.mp (Token.isChain_layoutFrom_of h .start lexemes) i hsize

/-- Each token starts where the one before it ends. -/
theorem follows_of_build {i : Nat} (hi : i + 1 < store.size) :
    Token.Follows (store.token i) (store.token (i + 1)) :=
  adjacent_of_build hbuild (fun p l _ => ⟨Place.after_line p l.text, Place.after_column⟩) hi

/-- Each token has the shape of its kind. -/
theorem shapes_of_build (hshapes : ∀ l ∈ lexemes, l.kind.Shapes l.text.toList) (i : Nat) :
    (store.kind i).Shapes (store.text i).toList :=
  Store.forall_token_of_build? hbuild (p := fun k text => k.Shapes text.toList)
    (.of_oneLine rfl .nil) hshapes i

end

/-- A comment that ends in front of a token shows a character or ends its line. -/
theorem comment_of_build {source : String} {store : Store}
    (hbuild : Store.build? (settleWords (lex source)) (outline (settleWords (lex source))) =
      .ok store) {i : Nat} (hi : i + 1 < store.size) (hcomment : (store.kind i).isComment = true)
    (hnext : (store.kind (i + 1)).isComment = false) : ShowsOrBreaks (store.text i).toList := by
  have hsize : i + 1 < (settleWords (lex source)).length := Store.size_of_build? hbuild ▸ hi
  have htoken (j : Nat) (hj : j < (settleWords (lex source)).length) :=
    Store.token_of_build? hbuild (List.getElem?_eq_getElem hj)
  obtain ⟨hkind, htext⟩ := htoken i (by omega)
  rw [hkind] at hcomment
  rw [(htoken (i + 1) hsize).1] at hnext
  have hfollows := List.isChain_iff_getElem.mp (isChain_settleWords source) i (by simpa using hsize)
  simp only [List.getElem_map, DocFollows, Kind.isDocPart_of_isComment hnext] at hfollows
  have hlast : (settleWords (lex source))[i] ∈ (settleWords (lex source)).dropLast := by
    have hin : i < (settleWords (lex source)).dropLast.length := by
      rw [List.length_dropLast]
      omega
    rw [← List.getElem_dropLast hin]
    exact List.getElem_mem hin
  rw [htext]
  exact showsOrBreaks_settleWords hlast (endsComment_of_isComment hcomment hfollows.symm)

/-- The store of a PHP text keeps every promise. -/
theorem sound_of_build {source : String} {store : Store}
    (hbuild : Store.build? (settleWords (lex source)) (outline (settleWords (lex source))) =
      .ok store) : Sound store where
  source := by
    obtain ⟨htokens, hsource⟩ := Store.build?_spec hbuild
    rw [hsource, htokens, Token.layout, Token.map_text_layoutFrom]
  shapes := shapes_of_build hbuild (shapes_settleWords source)
  follows _ := follows_of_build hbuild
  comment _ := comment_of_build hbuild
  scope _ _ := scope_of_build hbuild
  paren _ _ := paren_of_build hbuild

namespace Sound

variable {s : Store} {i j : Nat}

/-- Lines do not fall along a file. -/
theorem line_le (h : Sound s) (hij : i ≤ j) (hj : j < s.size) : s.line i ≤ s.line j := by
  induction j, hij using Nat.le_induction with
  | base => exact Nat.le_refl _
  | succ j _ ih =>
    have hnext := (h.follows j hj).line
    have hprev := ih (by omega)
    simp only [Store.line] at hprev ⊢
    omega

/-- A token in front of one that starts on a later line, but not in the first column, goes on over
the end of its line. -/
theorem isWrapping_of_line_ne (h : Sound s) (hi : i + 1 < s.size)
    (hline : s.line i ≠ s.line (i + 1)) (hcolumn : (s.token (i + 1)).column ≠ 1) :
    (s.kind i).isWrapping = true := by
  by_contra hwraps
  have hfollows := h.follows i hi
  have hone : OneLine (s.token i).text.toList := (h.shapes i).oneLine (by simpa using hwraps)
  have hbreak : '\n' ∈ (s.token i).text.toList := by
    by_contra hnone
    apply hline
    rw [Store.line, Store.line, hfollows.line, List.count_eq_zero_of_not_mem hnone, Nat.add_zero]
  refine hcolumn (hfollows.column ?_)
  have hne : (s.token i).text.toList ≠ [] := List.ne_nil_of_mem hbreak
  rw [← List.dropLast_append_getLast hne, List.mem_append, List.mem_singleton] at hbreak
  rw [List.getLast?_eq_some_getLast hne, ← hbreak.resolve_left hone]

/-- A comment in front of a token that is none, and that does not start in the first column,
shows. -/
theorem visible_ne_nil_of_isComment (h : Sound s) (hi : i + 1 < s.size)
    (hcomment : (s.kind i).isComment = true) (hnext : (s.kind (i + 1)).isComment = false)
    (hcolumn : (s.token (i + 1)).column ≠ 1) : Text.visible (s.text i) ≠ [] := by
  rcases h.comment i hi hcomment hnext with ⟨c, hc, hvisible⟩ | hbreak
  · exact Text.visible_ne_nil_of_mem hc hvisible
  · exact absurd ((h.follows i hi).column hbreak) hcolumn

/-- Whitespace of a store is blank. -/
theorem isBlank_of_whitespace (h : Sound s) (hi : s.kind i = .whitespace) :
    Text.isBlank (s.text i) = true :=
  List.all_eq_true.mpr ((h.shapes i).blank hi)

/-- A token that goes on over the end of its line starts with a visible character. -/
theorem visible_ne_nil_of_isWrapping (h : Sound s) (hi : (s.kind i).isWrapping = true) :
    Text.visible (s.text i) ≠ [] := by
  obtain ⟨c, rest, htext, hquote⟩ := (h.shapes i).quoted hi
  exact Text.visible_ne_nil_of_mem (by simp [htext]) (quote_spec hquote).1

end Sound

end Php

end PhpStyle
