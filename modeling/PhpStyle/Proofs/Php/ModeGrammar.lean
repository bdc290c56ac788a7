import PhpStyle.Proofs.Php.DocStores

/-!
# The grammar of modes

The lexer alternates between template text and code, and in code it may be inside a documentation
comment. Each step tells by its kind in which mode it was taken and in which the lexer goes on, so
the kinds of a file follow one another as the modes do. Settling words touches no kind that tells a
mode.
-/

namespace PhpStyle

namespace Kind

/-- What is read outside of code: template text and the tags that open code. -/
def isOutside (k : Kind) : Bool := k ∈ [Kind.inlineHtml, .openTag, .openTagEcho]

/-- What leaves the lexer outside of code. -/
def leavesOutside (k : Kind) : Bool := k ∈ [Kind.inlineHtml, .closeTag]

/-- In front of a part of a documentation comment stands another part or the opening tag, but no
closing tag. -/
theorem of_leavesDocOpen {k : Kind} (h : k.leavesDocOpen = true) :
    (k = .docOpen ∨ k.isDocPart = true) ∧ k ≠ .docClose := by
  cases k <;> first | cases h; done | exact ⟨.inl rfl, by decide⟩ | exact ⟨.inr rfl, by decide⟩

end Kind

namespace Php

/-- A step that starts outside of code takes what is read there, and it goes on outside exactly if
its lexeme leaves the lexer there. -/
def Step.Alternates (outside : Bool) (s : Step) : Prop :=
  s.kind.isOutside = outside ∧ s.kind.leavesOutside = decide (s.next = .html)

namespace Lexer

/-- A line of a block comment leads into the comment or back into code, and not out of it. -/
theorem blockLine_ne_html (text : List Char) : (blockLine text).2 ≠ .html := by
  fun_induction blockLine text with
  | case1 => decide
  | case2 => decide
  | case3 => decide
  | case4 _ _ _ _ n mode heq ih => simpa [heq] using ih

/-- A step through code leaves it exactly with a close tag. -/
theorem codeStep_alternates (c : Char) (rest : List Char) : (codeStep c rest).Alternates false := by
  have hcode {k : Kind} (hk : k.isOutside = false ∧ k.leavesOutside = false) (n : Nat) :
      Step.Alternates false ⟨k, n, .code⟩ := hk
  have hplain : ∀ k ∈ plainKinds, k.isOutside = false ∧ k.leavesOutside = false := by decide
  have hoperator : ∀ o ∈ operators, o.2.isOutside = false ∧ o.2.leavesOutside = false := by decide
  apply codeStep_induct
  case hclose => exact fun _ _ => ⟨rfl, rfl⟩
  case hblank => exact fun _ => hcode ⟨rfl, rfl⟩
  case hline => exact fun _ => hcode ⟨rfl, rfl⟩
  case hdoc => exact fun _ => ⟨rfl, rfl⟩
  case hblock => exact fun _ body => ⟨rfl, (decide_eq_false (blockLine_ne_html body)).symm⟩
  case hplain => exact fun k hk => hcode (hplain k hk)
  case hoperator => exact fun o ho => hcode (hoperator o ho)
  case hword =>
    refine fun _ word => hcode ?_
    exact wordKind_of_keywords (p := fun k => k.isOutside = false ∧ k.leavesOutside = false)
      ⟨rfl, rfl⟩ (by decide) word

/-- A step through template text leads into code exactly with an open tag. -/
theorem htmlStep_alternates (c : Char) (rest : List Char) : (htmlStep c rest).Alternates true := by
  unfold htmlStep
  split
  · exact ⟨rfl, rfl⟩
  · split
    · exact ⟨rfl, rfl⟩
    · exact ⟨rfl, rfl⟩

/-- A step through a line of a documentation comment leads out of no code. -/
theorem docStep_alternates (lineStart : Bool) (c : Char) (rest : List Char) :
    (docStep lineStart c rest).Alternates false := by
  unfold docStep
  split
  · exact ⟨rfl, rfl⟩
  split
  · exact ⟨rfl, rfl⟩
  split
  · exact ⟨rfl, rfl⟩
  split
  · exact ⟨rfl, rfl⟩
  split
  · exact ⟨rfl, rfl⟩
  · exact ⟨rfl, rfl⟩

/-- A step at the end of a documentation comment leads out of no code. -/
theorem docTailStep_alternates (c : Char) (rest : List Char) :
    (docTailStep c rest).Alternates false := by
  unfold docTailStep
  split
  · split
    · exact ⟨rfl, rfl⟩
    · exact docStep_alternates false c rest
  · exact docStep_alternates false c rest

/-- No tag opens code inside a piece of template text. -/
theorem atOpenTag_of_htmlLength {text ahead behind : List Char} (hsplit : text = ahead ++ behind)
    (hlt : ahead.length < htmlLength text) : atOpenTag behind = false := by
  induction ahead generalizing text with
  | nil =>
    obtain rfl : text = behind := hsplit
    cases text with
    | nil => rfl
    | cons c rest =>
      rw [htmlLength] at hlt
      split at hlt
      · cases hlt
      · rename_i htag
        exact Bool.eq_false_iff.mpr htag
  | cons c ahead ih =>
    subst hsplit
    apply ih rfl
    rw [List.cons_append, htmlLength] at hlt
    split at hlt
    · cases hlt
    split at hlt
    · simp at hlt
    · simpa using hlt

end Lexer

/-- Every step leads outside of code exactly if its kind does. -/
theorem Mode.step_alternates (mode : Mode) (c : Char) (rest : List Char) :
    (mode.step c rest).Alternates (decide (mode = .html)) := by
  cases mode with
  | html => exact Lexer.htmlStep_alternates c rest
  | code => exact Lexer.codeStep_alternates c rest
  | blockComment => exact ⟨rfl, (decide_eq_false (Lexer.blockLine_ne_html (c :: rest))).symm⟩
  | docComment lineStart => exact Lexer.docStep_alternates lineStart c rest
  | docTail => exact Lexer.docTailStep_alternates c rest

/-- What is read outside of code stands exactly behind a kind that leaves the lexer there. -/
def OutsideFollows (a b : Kind) : Prop := b.isOutside = a.leavesOutside

/-- Each lexeme stands outside of code exactly if the one in front of it leads there. -/
theorem isChain_outside (mode : Mode) (text : List Char) :
    ∀ k : Kind, k.leavesOutside = decide (mode = .html) →
      (k :: (lexFrom mode text).map (·.kind)).IsChain OutsideFollows := by
  fun_induction lexFrom mode text with
  | case1 mode => exact fun k _ => .singleton k
  | case2 mode c rest s ih =>
    intro k hk
    obtain ⟨houtside, hleaves⟩ := mode.step_alternates c rest
    exact .cons_cons (houtside.trans hk.symm) (ih s.kind hleaves)

/-- What tells no word from another is the same before and after settling. -/
theorem map_kind_settle {β : Type} (f : Kind → β)
    (hf : ∀ k ∈ [Kind.identifier, .closure, .anonClass] ++ keywords.map (·.2), f k = f .identifier)
    {l : Lexeme} (hraw : Raw l) (before after : List Lexeme) :
    f (Words.settle before after l).kind = f l.kind := by
  rcases kind_settle before after l with h | ⟨hword, h⟩
  · rw [h]
  · have hspelled : f l.kind = f .identifier := by
      rw [hraw.word hword]
      exact wordKind_of_keywords (p := fun k => f k = f .identifier) rfl
        (fun e he => hf e.2 (List.mem_append_right _ (List.mem_map_of_mem he))) _
    rw [hspelled]
    exact hf _ (List.mem_append_left _ h)

/-! ## Template text -/

namespace Lexer

/-- Whether a text starts with an open tag is settled by its first characters. -/
theorem atOpenTag_append {text : List Char} (h : atOpenTag text = true) (behind : List Char) :
    atOpenTag (text ++ behind) = true := by
  rw [atOpenTag, Bool.or_eq_true] at h ⊢
  rcases h with hecho | htag
  · left
    rw [at?, List.isPrefixOf_iff_prefix] at hecho ⊢
    exact hecho.trans (List.prefix_append text behind)
  · right
    have hlength : 5 ≤ text.length := by
      have hfive := congrArg List.length (beq_iff_eq.mp htag)
      rw [List.length_map, List.length_take] at hfive
      exact (Nat.le_min.mp hfive.ge).2
    rw [atPhpTag, List.take_append_of_le_length hlength]
    exact htag

/-- A piece of template text is taken up to the next tag that opens code. -/
theorem htmlStep_of_inlineHtml {c : Char} {rest : List Char}
    (h : (htmlStep c rest).kind = .inlineHtml) :
    atOpenTag (c :: rest) = false ∧ (htmlStep c rest).extra ≤ htmlLength rest := by
  unfold htmlStep at h ⊢
  split at h
  · cases h
  rename_i hecho
  split at h
  · cases h
  rename_i htag
  rw [if_neg hecho, if_neg htag]
  refine ⟨by simp [atOpenTag, hecho, htag], ?_⟩
  dsimp only
  split
  · exact Nat.zero_le _
  · exact Nat.le_refl _

/-- Template text has no open tag in it: it ends where the first one starts. -/
theorem atOpenTag_of_htmlStep {c : Char} {rest ahead behind : List Char}
    (hkind : (htmlStep c rest).kind = .inlineHtml)
    (hsplit : c :: rest.take (htmlStep c rest).extra = ahead ++ behind) :
    atOpenTag behind = false := by
  obtain ⟨hfirst, hextra⟩ := htmlStep_of_inlineHtml hkind
  by_contra htag
  have htag : atOpenTag behind = true := by simpa using htag
  have hlonger := atOpenTag_append htag (rest.drop (htmlStep c rest).extra)
  cases ahead with
  | nil =>
    rw [List.nil_append] at hsplit
    rw [← hsplit, List.cons_append, List.take_append_drop, hfirst] at hlonger
    cases hlonger
  | cons d ahead =>
    have hrest : rest.take (htmlStep c rest).extra = ahead ++ behind :=
      (List.cons_eq_cons.mp hsplit).2
    have hwhole : rest = ahead ++ (behind ++ rest.drop (htmlStep c rest).extra) := by
      rw [← List.append_assoc, ← hrest, List.take_append_drop]
    have hbehind : behind ≠ [] := by
      rintro rfl
      cases htag
    have hlt : ahead.length < htmlLength rest := by
      have htaken := List.length_take_le (htmlStep c rest).extra rest
      rw [hrest, List.length_append] at htaken
      have := List.length_pos_of_ne_nil hbehind
      omega
    rw [atOpenTag_of_htmlLength hwhole hlt] at hlonger
    cases hlonger

end Lexer

/-- Template text holds no tag that opens code. -/
theorem atOpenTag_of_inlineHtml (mode : Mode) (text : List Char) :
    ∀ l ∈ lexFrom mode text, l.kind = .inlineHtml →
      ∀ ahead behind, l.text.toList = ahead ++ behind → Lexer.atOpenTag behind = false := by
  fun_induction lexFrom mode text with
  | case1 => simp
  | case2 mode c rest s ih =>
    refine List.forall_mem_cons.mpr ⟨fun hkind ahead behind hsplit => ?_, ih⟩
    have hmode : mode = .html := by
      have houtside := (mode.step_alternates c rest).1
      rw [show (mode.step c rest).kind = .inlineHtml from hkind] at houtside
      exact of_decide_eq_true houtside.symm
    subst hmode
    rw [String.toList_ofList] at hsplit
    exact Lexer.atOpenTag_of_htmlStep hkind hsplit

/-- Text in which no tag opens code holds neither tag, in letters of either case. -/
theorem not_infix_of_atOpenTag {text : List Char}
    (h : ∀ ahead behind, text = ahead ++ behind → Lexer.atOpenTag behind = false) :
    ¬ "<?=".toList <:+: text ∧ ¬ "<?php".toList <:+: text.map Char.toLower := by
  constructor
  · rintro ⟨ahead, behind, rfl⟩
    have hnone := h ahead ("<?=".toList ++ behind) (List.append_assoc ..)
    simp [Lexer.atOpenTag, Lexer.at?] at hnone
  · rintro ⟨ahead, behind, hsplit⟩
    rw [List.append_assoc] at hsplit
    obtain ⟨front, back, rfl, -, hback⟩ := List.map_eq_append_iff.mp hsplit.symm
    have hnone := h front back rfl
    have htag : Lexer.atPhpTag back = true := by
      rw [Lexer.atPhpTag, beq_iff_eq, List.map_take, hback]
      rfl
    rw [Lexer.atOpenTag, htag, Bool.or_true] at hnone
    cases hnone

end Php

namespace Store

/-- A run of documentation tokens: an opening tag with the parts behind it, up to the first closing
tag or to the end of the file. -/
structure DocRun (s : Store) (a b : Nat) : Prop where
  le : a ≤ b
  lt_size : b < s.size
  opens : s.kind a = .docOpen
  parts : ∀ k, a < k → k ≤ b → (s.kind k).isDocPart = true
  unclosed : ∀ k, a ≤ k → k < b → s.kind k ≠ .docClose
  ends : s.kind b = .docClose ∨ b + 1 = s.size

/-- Tokens follow one another as the modes of the lexer do. -/
structure FollowsModes (s : Store) : Prop where
  outside : ∀ i, i + 1 < s.size → s.kind (i + 1) ∈ [Kind.inlineHtml, .openTag, .openTagEcho] →
    s.kind i ∈ [Kind.inlineHtml, .closeTag]
  inside : ∀ i < s.size, s.kind i ∉ [Kind.inlineHtml, .openTag, .openTagEcho] →
    ∃ j < i, s.kind j ∈ [Kind.openTag, .openTagEcho] ∧ ∀ k, j < k → k < i → s.kind k ≠ .closeTag
  template : ∀ i, s.kind i = .inlineHtml → ¬ "<?=".toList <:+: (s.text i).toList ∧
    ¬ "<?php".toList <:+: (s.text i).toList.map Char.toLower
  comment : ∀ i < s.size, s.kind i = .docOpen ∨ (s.kind i).isDocPart = true →
    ∃ a b, a ≤ i ∧ i ≤ b ∧ s.DocRun a b
  partners : ∀ i j, s.commentMatch? i = some j ↔
    ∃ a b, s.DocRun a b ∧ s.kind b = .docClose ∧ (i = a ∧ j = b ∨ i = b ∧ j = a)

end Store

namespace Php

section

variable {source : String} {store : Store}
  (hbuild : Store.build? (settleWords (lex source)) (outline (settleWords (lex source))) =
    .ok store)

include hbuild

/-- Settling changes nothing of what a kind tells about being outside of code. -/
theorem exists_raw_outside {i : Nat} (hi : i < store.size) :
    ∃ raw, (lex source)[i]? = some raw ∧ (store.kind i).isOutside = raw.kind.isOutside ∧
      (store.kind i).leavesOutside = raw.kind.leavesOutside := by
  obtain ⟨raw, prior, hraw, hmem, _, hkind⟩ := exists_raw_of_build hbuild hi
  have hraws := raw_lex source raw hmem
  refine ⟨raw, hraw, ?_, ?_⟩
  · rw [hkind, map_kind_settle Kind.isOutside (by decide) hraws]
  · rw [hkind, map_kind_settle Kind.leavesOutside (by decide) hraws]

/-- The first token is read outside of code. -/
theorem isOutside_of_build (hi : 0 < store.size) : (store.kind 0).isOutside = true := by
  obtain ⟨raw, hraw, houtside, _⟩ := exists_raw_outside hbuild hi
  rw [houtside]
  cases hlex : lex source with
  | nil => simp [hlex] at hraw
  | cons l ls =>
    obtain rfl : l = raw := by simpa [hlex] using hraw
    have hchain := isChain_outside .html source.toList .inlineHtml rfl
    rw [(lex_eq_lexFrom source).symm.trans hlex, List.map_cons, List.isChain_cons_cons] at hchain
    exact hchain.1

/-- Each token of a store stands outside of code exactly if the one in front of it leads there. -/
theorem outsideFollows_of_build {i : Nat} (hi : i + 1 < store.size) :
    (store.kind (i + 1)).isOutside = (store.kind i).leavesOutside := by
  obtain ⟨a, ha, _, hleaves⟩ := exists_raw_outside hbuild (Nat.lt_of_succ_lt hi)
  obtain ⟨b, hb, houtside, _⟩ := exists_raw_outside hbuild hi
  have hchain := (isChain_outside .html source.toList .inlineHtml rfl).tail
  rw [← lex_eq_lexFrom] at hchain
  obtain ⟨hlast, rfl⟩ := List.getElem?_eq_some_iff.mp hb
  obtain ⟨hfirst, rfl⟩ := List.getElem?_eq_some_iff.mp ha
  rw [List.tail_cons] at hchain
  have hfollows := List.isChain_iff_getElem.mp hchain i (by rw [List.length_map]; exact hlast)
  simp only [List.getElem_map] at hfollows
  rw [hleaves, houtside]
  exact hfollows

/-- In front of code stands the tag that opens it. -/
theorem exists_openTag_of_build {i : Nat} (hi : i < store.size)
    (hcode : (store.kind i).isOutside = false) :
    ∃ j < i, store.kind j ∈ [Kind.openTag, .openTagEcho] ∧ ∀ k, j < k → k < i →
      store.kind k ≠ .closeTag := by
  induction i with
  | zero =>
    rw [isOutside_of_build hbuild hi] at hcode
    cases hcode
  | succ i ih =>
    have hstays := (outsideFollows_of_build hbuild hi).symm.trans hcode
    have hclose : store.kind i ≠ .closeTag := by
      intro h
      rw [h] at hstays
      cases hstays
    by_cases hopen : store.kind i ∈ [Kind.openTag, .openTagEcho]
    · exact ⟨i, Nat.lt_succ_self i, hopen, fun k hik hki => absurd hki (Nat.not_lt.mpr hik)⟩
    · have hinside : (store.kind i).isOutside = false := by
        simp only [Kind.leavesOutside, decide_eq_false_iff_not, List.mem_cons, not_or]
          at hstays hopen
        simp [Kind.isOutside, hstays.1, hopen.1, hopen.2.1]
      obtain ⟨j, hj, htag, hnone⟩ := ih (Nat.lt_of_succ_lt hi) hinside
      refine ⟨j, Nat.lt_succ_of_lt hj, htag, fun k hjk hki => ?_⟩
      rcases Nat.eq_or_lt_of_le (Nat.le_of_lt_succ hki) with rfl | hki
      · exact hclose
      · exact hnone k hjk hki

/-! ## Runs of documentation tokens -/

/-- In front of a documentation token stands its opening tag, with parts of the comment between. -/
theorem exists_docOpen_of_build {i : Nat} (hi : i < store.size)
    (hdoc : store.kind i = .docOpen ∨ (store.kind i).isDocPart = true) :
    ∃ a ≤ i, store.kind a = .docOpen ∧ (∀ k, a < k → k ≤ i → (store.kind k).isDocPart = true) ∧
      ∀ k, a ≤ k → k < i → store.kind k ≠ .docClose := by
  have hhere {i : Nat} (hopen : store.kind i = .docOpen) : ∃ a ≤ i, store.kind a = .docOpen ∧
      (∀ k, a < k → k ≤ i → (store.kind k).isDocPart = true) ∧
      ∀ k, a ≤ k → k < i → store.kind k ≠ .docClose :=
    ⟨i, Nat.le_refl i, hopen, fun k hik hki => absurd hki (Nat.not_le.mpr hik),
      fun k hik hki => absurd hki (Nat.not_lt.mpr hik)⟩
  induction i with
  | zero =>
    have houtside := isOutside_of_build hbuild hi
    refine hdoc.elim hhere fun hpart => ?_
    have htable : ∀ k ∈ [Kind.inlineHtml, .openTag, .openTagEcho], k.isDocPart = false := by decide
    rw [htable _ (of_decide_eq_true houtside)] at hpart
    cases hpart
  | succ i ih =>
    refine hdoc.elim hhere fun hpart => ?_
    have hopen : (store.kind i).leavesDocOpen = true :=
      (docFollows_of_build hbuild hi).symm.trans hpart
    obtain ⟨hbefore, hclose⟩ := Kind.of_leavesDocOpen hopen
    obtain ⟨a, ha, hstart, hparts, hnone⟩ := ih (Nat.lt_of_succ_lt hi) hbefore
    refine ⟨a, Nat.le_succ_of_le ha, hstart, fun k hak hki => ?_, fun k hak hki => ?_⟩
    · rcases Nat.eq_or_lt_of_le hki with rfl | hki
      · exact hpart
      · exact hparts k hak (Nat.le_of_lt_succ hki)
    · rcases Nat.eq_or_lt_of_le (Nat.le_of_lt_succ hki) with rfl | hki
      · exact hclose
      · exact hnone k hak hki

/-- Behind a documentation token come parts of the comment, up to its closing tag or to the end of
the file. -/
theorem exists_end_of_build {i : Nat} (hi : i < store.size)
    (hdoc : store.kind i = .docOpen ∨ (store.kind i).isDocPart = true) :
    ∃ b, i ≤ b ∧ b < store.size ∧ (∀ k, i < k → k ≤ b → (store.kind k).isDocPart = true) ∧
      (∀ k, i ≤ k → k < b → store.kind k ≠ .docClose) ∧
      (store.kind b = .docClose ∨ b + 1 = store.size) := by
  by_cases hends : store.kind i = .docClose ∨ i + 1 = store.size
  · exact ⟨i, Nat.le_refl i, hi, fun k hik hki => absurd hki (Nat.not_le.mpr hik),
      fun k hik hki => absurd hki (Nat.not_lt.mpr hik), hends⟩
  · obtain ⟨hclose, hlast⟩ := not_or.mp hends
    have hnext : i + 1 < store.size := Nat.lt_of_le_of_ne hi hlast
    have hopen : (store.kind i).leavesDocOpen = true := by
      rcases hdoc with hopen | hpart
      · rw [hopen]
        rfl
      · exact Kind.leavesDocOpen_of_isDocPart hpart hclose
    have hpart := (docFollows_of_build hbuild hnext).trans hopen
    obtain ⟨b, hb, hsize, hparts, hnone, hend⟩ := exists_end_of_build hnext (.inr hpart)
    refine ⟨b, Nat.le_of_succ_le hb, hsize, fun k hik hkb => ?_, fun k hik hkb => ?_, hend⟩
    · rcases Nat.eq_or_lt_of_le (Nat.succ_le_of_lt hik) with rfl | hik
      · exact hpart
      · exact hparts k hik hkb
    · rcases Nat.eq_or_lt_of_le hik with rfl | hik
      · exact hclose
      · exact hnone k hik hkb
termination_by store.size - i

/-- Every part of a documentation comment stands in the run of one. -/
theorem exists_docRun_of_build {i : Nat} (hi : i < store.size)
    (hdoc : store.kind i = .docOpen ∨ (store.kind i).isDocPart = true) :
    ∃ a b, a ≤ i ∧ i ≤ b ∧ store.DocRun a b := by
  obtain ⟨a, ha, hopens, hfront, hunclosed⟩ := exists_docOpen_of_build hbuild hi hdoc
  obtain ⟨b, hb, hsize, hbehind, hnone, hends⟩ := exists_end_of_build hbuild hi hdoc
  refine ⟨a, b, ha, hb, Nat.le_trans ha hb, hsize, hopens, fun k hak hkb => ?_,
    fun k hak hkb => ?_, hends⟩
  · rcases Nat.lt_or_ge i k with hik | hki
    · exact hbehind k hik hkb
    · exact hfront k hak hki
  · rcases Nat.lt_or_ge k i with hki | hik
    · exact hunclosed k hak hki
    · exact hnone k hik hkb

/-- Partners among comment tags stand at the two ends of a run. -/
theorem docRun_of_mem_comments {a b : Nat}
    (hmem : (a, b) ∈ (outline (settleWords (lex source))).comments) :
    store.DocRun a b ∧ store.kind b = .docClose := by
  have hmatch := (Store.commentMatch?_eq_some_iff hbuild).mpr (.inl hmem)
  obtain ⟨_, hsize, hopen, _⟩ := isDocPart_of_mem_pairComments (isChain_settleWords source) hmem
  replace hopen := Store.kind_of_kinds hbuild hopen
  obtain ⟨_, ⟨hnone, _⟩ | ⟨_, _, hnone⟩⟩ :=
    mem_pairComments (Brackets.pending_zipIdx _).rising (a, b) hmem
  · cases hnone
  obtain ⟨hlt, hclose, hparts⟩ := comment_parts_of_build hbuild hopen hmatch
  rw [List.length_map, ← Store.size_of_build? hbuild] at hsize
  refine ⟨⟨hlt.le, hsize, hopen, hparts, fun k hak hkb => ?_, .inl hclose⟩, hclose⟩
  rcases Nat.eq_or_lt_of_le hak with rfl | hak
  · rw [hopen]
    exact nofun
  · obtain ⟨l, hl, hkind, _⟩ := Store.exists_lexeme_of_build? hbuild (Nat.lt_trans hkb hsize)
    rw [hkind]
    refine hnone (l.kind, k) (List.mem_zipIdx_iff_getElem?.mpr ?_) hak hkb
    rw [List.getElem?_map, hl]
    rfl

/-- The two ends of a closed run are partners. -/
theorem mem_comments_of_docRun {a b : Nat} (hrun : store.DocRun a b)
    (hclose : store.kind b = .docClose) :
    (a, b) ∈ (outline (settleWords (lex source))).comments := by
  have hlt : a < b := by
    refine Nat.lt_of_le_of_ne hrun.le ?_
    rintro rfl
    cases hrun.opens.symm.trans hclose
  have hmatch := commentMatch?_of_kinds hbuild hlt hrun.opens hclose fun k hak hkb => by
    refine ⟨?_, hrun.unclosed k hak.le hkb⟩
    have hpart := hrun.parts k hak hkb.le
    rintro h
    rw [h] at hpart
    cases hpart
  rcases (Store.commentMatch?_eq_some_iff hbuild).mp hmatch with hmem | hmem
  · exact hmem
  · have hflip := (isDocPart_of_mem_pairComments (isChain_settleWords source) hmem).1
    exact absurd hlt (Nat.lt_asymm hflip)

/-- The pairs of comments are the first and the last tokens of closed runs. -/
theorem mem_comments_iff_docRun {a b : Nat} :
    (a, b) ∈ (outline (settleWords (lex source))).comments ↔ store.DocRun a b ∧
      store.kind b = .docClose :=
  ⟨docRun_of_mem_comments hbuild, fun h => mem_comments_of_docRun hbuild h.1 h.2⟩

end

/-- The tokens of every text follow the modes of the lexer: template text and open tags stand at the
start, behind template text and behind close tags, all else stands in code, and documentation
comments come in runs whose closed ones are paired at their ends. -/
theorem tokenize_followsModes (source : String) :
    ∃ store, tokenize source = .ok store ∧ store.FollowsModes := by
  obtain ⟨store, hstore, hbuild⟩ := exists_tokenize source
  refine ⟨store, hstore, ?_⟩
  constructor
  case outside =>
    intro i hi hkind
    have hfollows := outsideFollows_of_build hbuild hi
    rw [show (store.kind (i + 1)).isOutside = true from decide_eq_true hkind] at hfollows
    exact of_decide_eq_true hfollows.symm
  case inside =>
    intro i hi hkind
    apply exists_openTag_of_build hbuild hi
    exact decide_eq_false hkind
  case template =>
    intro i hkind
    obtain ⟨raw, _, hraw, hmem, htext, _⟩ :=
      exists_raw_of_build hbuild (Store.lt_size_of_kind hkind (by decide))
    have hsame := raw_kind_of_build hbuild hraw (by rw [hkind]; decide)
    apply not_infix_of_atOpenTag
    rw [htext]
    exact atOpenTag_of_inlineHtml .html source.toList raw (lex_eq_lexFrom source ▸ hmem)
      (hsame.trans hkind)
  case comment => exact fun i hi hdoc => exists_docRun_of_build hbuild hi hdoc
  case partners =>
    intro i j
    rw [Store.commentMatch?_eq_some_iff hbuild, mem_comments_iff_docRun hbuild,
      mem_comments_iff_docRun hbuild]
    constructor
    · rintro (⟨hrun, hclose⟩ | ⟨hrun, hclose⟩)
      · exact ⟨i, j, hrun, hclose, .inl ⟨rfl, rfl⟩⟩
      · exact ⟨j, i, hrun, hclose, .inr ⟨rfl, rfl⟩⟩
    · rintro ⟨a, b, hrun, hclose, ⟨rfl, rfl⟩ | ⟨rfl, rfl⟩⟩
      · exact .inl ⟨hrun, hclose⟩
      · exact .inr ⟨hrun, hclose⟩

end Php

end PhpStyle
