import PhpStyle.Proofs.Php.Exact
import PhpStyle.Proofs.Php.Lookahead

/-!
# Line breaks that are cut in two

Every reader of the lexer that stops in front of a line feed has taken a line feed itself or a
character that is no blank. One does not: the blanks of a documentation comment are taken up to the
end of their line, and a carriage return is one of them. So where two tokens share a line break, the
first is such a blank and the second is the line feed alone.
-/

namespace PhpStyle

/-- The line break behind a token is cut: the token has its carriage return, and the next one its
line feed. -/
def Store.CutsBreak (s : Store) (i : Nat) : Prop :=
  (s.text i).toList.getLast? = some '\r' ∧ (s.text (i + 1)).toList.head? = some '\n'

namespace Php

namespace Lexer

/-- A measure that stops in front of a line feed does not stop behind a carriage return. -/
def Whole (n : Nat) (text : List Char) : Prop :=
  (text.drop n).head? = some '\n' → (text.take n).getLast? ≠ some '\r'

section

variable {c : Char} {m n : Nat} {text rest : List Char}

/-- A measure of nothing cuts no line break. -/
theorem Whole.zero : Whole 0 text := fun _ => by simp

/-- A measure without carriage returns cuts no line break. -/
theorem Whole.of_not_mem (h : '\r' ∉ text.take n) : Whole n text :=
  fun _ hlast => h (List.mem_of_getLast? hlast)

/-- A measure that goes on at a line feed is whole with one more character in front. -/
theorem Whole.succ (h : Whole n rest) (hpos : ∀ more, rest = '\n' :: more → 0 < n) :
    Whole (n + 1) (c :: rest) := by
  intro hfeed hlast
  rw [List.drop_succ_cons] at hfeed
  rw [List.take_succ_cons, List.getLast?_cons] at hlast
  cases hrest : (rest.take n).getLast? with
  | some d => exact h hfeed (by rw [hrest, ← hlast, hrest, Option.getD_some])
  | none =>
    rcases List.take_eq_nil_iff.mp (List.getLast?_eq_none_iff.mp hrest) with rfl | rfl
    · obtain ⟨more, hmore⟩ := List.head?_eq_some_iff.mp hfeed
      exact absurd (hpos more hmore) (Nat.lt_irrefl 0)
    · simp at hfeed

/-- Characters without carriage returns in front of a whole measure keep it whole. -/
theorem Whole.add (hm : '\r' ∉ text.take m) (hn : Whole n (text.drop m)) : Whole (m + n) text := by
  intro hfeed hlast
  rw [← List.drop_drop] at hfeed
  rw [List.take_add, List.getLast?_append] at hlast
  cases hrest : ((text.drop m).take n).getLast? with
  | some d => exact hn hfeed (by rw [hrest, ← hlast, hrest, Option.some_or])
  | none => exact hm (List.mem_of_getLast? (by simpa [hrest] using hlast))

end

/-- A line break is taken whole. -/
theorem whole_lineBreakLength (text : List Char) : Whole (lineBreakLength text) text := by
  unfold lineBreakLength
  split
  · exact fun _ => by simp
  · exact fun _ => by simp
  · exact .zero

/-- The gap behind a tag takes line breaks whole. -/
theorem whole_tagGap (text : List Char) : Whole (tagGap text) text := by
  unfold tagGap
  split
  · exact fun _ => by simp
  · exact fun _ => by simp
  · exact whole_lineBreakLength _

/-- Template text that starts with a line break is the line break alone. -/
theorem htmlLength_break (rest : List Char) : htmlLength ('\n' :: rest) = 1 := by
  rw [htmlLength, if_neg, if_pos rfl]
  rw [atOpenTag, atPhpTag_cons, at?_cons_ne (d := '<') rfl (by decide)]
  exact Bool.false_ne_true

/-- Template text takes line breaks whole. -/
theorem whole_htmlLength (text : List Char) : Whole (htmlLength text) text := by
  induction text with
  | nil => exact .zero
  | cons c rest ih =>
    rw [htmlLength]
    split
    · exact .zero
    split
    · rename_i hbreak
      exact .of_not_mem (by simp [hbreak])
    · refine ih.succ ?_
      rintro more rfl
      rw [htmlLength_break]
      exact Nat.one_pos

/-- Whitespace takes line breaks whole. -/
theorem whole_whitespaceLength (text : List Char) : Whole (whitespaceLength text) text := by
  induction text with
  | nil => exact .zero
  | cons c rest ih =>
    rw [whitespaceLength]
    split
    · rename_i hbreak
      exact .of_not_mem (by simp [hbreak])
    split
    · refine ih.succ ?_
      rintro more rfl
      exact whitespaceLength_pos (.inr rfl) more
    · exact .zero

/-- A line comment takes line breaks whole, as it ends in front of them. -/
theorem whole_lineCommentLength (text : List Char) : Whole (lineCommentLength text) text := by
  induction text with
  | nil => exact .zero
  | cons c rest ih =>
    rw [lineCommentLength]
    split
    · exact .zero
    split
    · rename_i hbreak
      exact .of_not_mem (by simp [hbreak])
    · refine ih.succ ?_
      rintro more rfl
      exact lineCommentLength_pos (by decide) more

/-- A block comment takes line breaks whole. -/
theorem whole_blockLine (text : List Char) : Whole (blockLine text).1 text := by
  fun_induction blockLine text with
  | case1 => exact .zero
  | case2 => exact .of_not_mem (by simp)
  | case3 => exact .of_not_mem (by simp)
  | case4 c rest _ _ n mode heq ih =>
    rw [heq] at ih
    refine ih.succ ?_
    rintro more rfl
    have hpos := blockLine_pos '\n' more
    rwa [heq] at hpos

/-- A string takes line breaks whole, as it ends with its quote. -/
theorem whole_quotedLength {quote : Char} (hquote : quote ≠ '\r') (text : List Char) :
    Whole (quotedLength quote text) text := by
  have hpos (rest more : List Char) (hrest : rest = '\n' :: more) : 0 < quotedLength quote rest :=
    hrest ▸ quotedLength_pos
  fun_induction quotedLength quote text with
  | case1 => exact .zero
  | case2 d rest ih => exact (ih.succ (hpos rest)).succ fun _ _ => Nat.succ_pos _
  | case3 rest => exact .of_not_mem (by simpa using hquote.symm)
  | case4 c rest _ _ ih => exact ih.succ (hpos rest)

/-- A heredoc takes line breaks whole, as it ends with its name. -/
theorem whole_heredocLength {name : List Char} (hne : name ≠ [])
    (hname : ∀ c ∈ name, continuesWord c = true) (lineStart : Bool) (text : List Char) :
    Whole (heredocLength name lineStart text) text := by
  induction text generalizing lineStart with
  | nil => exact .zero
  | cons c rest ih =>
    rw [heredocLength_cons]
    split
    · rename_i hcloses
      obtain ⟨behind, hbehind, _⟩ := closesHeredoc_eq_true_iff.mp
          (Bool.and_eq_true_iff.mp hcloses).2
      refine .of_not_mem (not_mem_take_add (not_mem_take_run (by decide) _) ?_)
      rw [drop_run, hbehind, List.take_left]
      exact fun hmem => absurd (hname _ hmem) (by decide)
    · refine (ih _).succ ?_
      rintro more rfl
      have hlength := List.length_pos_iff.mpr hne
      rw [heredocLength_cons]
      split <;> omega

/-- What is visible of a line ends with a character that is no blank. -/
theorem getLast?_take_visibleLength (text : List Char) :
    ∀ d ∈ (text.take (visibleLength text)).getLast?, isBlank d = false := by
  induction text with
  | nil => simp
  | cons c rest ih =>
    rw [visibleLength]
    split
    · simp
    rename_i hvisible
    rw [List.take_succ_cons, List.getLast?_cons]
    rintro d hd
    cases hlast : (rest.take (visibleLength rest)).getLast? with
    | some e =>
      rw [hlast, Option.getD_some, Option.mem_some_iff] at hd
      exact ih d (hd ▸ hlast)
    | none =>
      rw [hlast, Option.getD_none, Option.mem_some_iff] at hd
      subst hd
      rcases List.take_eq_nil_iff.mp (List.getLast?_eq_none_iff.mp hlast) with hzero | rfl
      · simpa [hzero] using hvisible
      · simpa [visibleLength] using hvisible

/-! ### The steps -/

/-- No step through template text cuts a line break. -/
theorem htmlStep_whole (c : Char) (rest : List Char) :
    Whole ((htmlStep c rest).extra + 1) (c :: rest) := by
  by_cases hecho : at? "<?=" (c :: rest) = true
  · rw [htmlStep, if_pos hecho]
    refine .of_not_mem ?_
    rw [show 2 + 1 = "<?=".length from rfl, take_of_at? hecho]
    decide
  by_cases htag : atPhpTag (c :: rest) = true
  · rw [htmlStep_of_atPhpTag hecho htag,
      show 4 + tagGap (rest.drop 4) + 1 = 5 + tagGap (rest.drop 4) by omega]
    refine .add (fun hmem => ?_) (whole_tagGap _)
    have hlower : '\r'.toLower ∈ ((c :: rest).take 5).map Char.toLower := List.mem_map_of_mem hmem
    rw [beq_iff_eq.mp htag] at hlower
    revert hlower
    decide
  · rw [htmlStep, if_neg hecho, if_neg htag]
    dsimp only
    split
    · rename_i hbreak
      exact .of_not_mem (by simp [hbreak])
    · refine (whole_htmlLength rest).succ ?_
      rintro more rfl
      rw [htmlLength_break]
      exact Nat.one_pos

/-- No operator cuts a line break. -/
theorem operatorStep_whole {c : Char} (hc : c ≠ '\r') (rest : List Char) :
    Whole ((operatorStep (c :: rest)).extra + 1) (c :: rest) := by
  have htable : ∀ o ∈ operators, 0 < o.1.length ∧ '\r' ∉ o.1.toList := by decide
  unfold operatorStep
  split
  · rename_i op kind hfound
    obtain ⟨hlength, hreturn⟩ := htable _ (List.mem_of_find?_eq_some hfound)
    have hop := List.find?_some hfound
    have htaken := take_of_at? hop
    dsimp only
    rw [Nat.sub_add_cancel hlength]
    exact .of_not_mem (htaken ▸ hreturn)
  · exact .of_not_mem (by simpa using hc.symm)

/-- No word cuts a line break. -/
theorem wordStep_whole {c : Char} (hc : c ≠ '\r') (rest : List Char) :
    Whole ((wordStep c rest).extra + 1) (c :: rest) := by
  unfold wordStep
  split
  · refine .of_not_mem ?_
    rw [List.take_succ_cons, List.mem_cons, not_or]
    exact ⟨hc.symm, not_mem_take_run (by decide) rest⟩
  · exact operatorStep_whole hc rest

/-- Nothing that starts with a slash cuts a line break. -/
theorem slashStep_whole (rest : List Char) : Whole ((slashStep rest).extra + 1) ('/' :: rest) := by
  unfold slashStep
  split
  · rename_i more
    exact (whole_lineCommentLength _).succ fun _ _ => lineCommentLength_pos (by decide) more
  · rename_i body
    split
    · rename_i hdoc
      have htaken : body.take 1 = ['*'] := take_of_at? (Bool.and_eq_true_iff.mp hdoc).1
      refine .of_not_mem ?_
      simp [htaken]
    · refine ((whole_blockLine body).succ ?_).succ fun _ _ => Nat.succ_pos _
      rintro more rfl
      exact blockLine_pos '\n' more
  · exact operatorStep_whole (by decide) rest

/-- No step through code cuts a line break. -/
theorem codeStep_whole (c : Char) (rest : List Char) :
    Whole ((codeStep c rest).extra + 1) (c :: rest) := by
  have hshown (h : ¬ (isBlank c = true ∨ c = '\n')) : c ≠ '\r' := by
    rintro rfl
    exact h (.inl rfl)
  apply codeStep_cases (p := fun s => Whole (s.extra + 1) (c :: rest))
  case hclose =>
    intro hclose
    dsimp only
    rw [show 1 + lineBreakLength (rest.drop 1) + 1 = "?>".length + lineBreakLength (rest.drop 1) by
      rw [show "?>".length = 2 from rfl]; omega]
    refine .add ?_ (whole_lineBreakLength _)
    rw [take_of_at? hclose]
    decide
  case hblank =>
    intro hblank
    dsimp only
    rw [Nat.sub_add_cancel (whitespaceLength_pos hblank rest)]
    exact whole_whitespaceLength _
  case hattribute =>
    rintro rfl hbracket
    refine .of_not_mem ?_
    rw [List.take_succ_cons, show (1 : Nat) = "[".length from rfl, take_of_at? hbracket]
    decide
  case hcomment =>
    rintro rfl
    refine (whole_lineCommentLength rest).succ ?_
    rintro more rfl
    exact lineCommentLength_pos (by decide) more
  case hslash =>
    rintro rfl
    exact slashStep_whole rest
  case hdollar =>
    rintro rfl
    refine .of_not_mem ?_
    rw [List.take_succ_cons, List.mem_cons, not_or]
    exact ⟨by decide, not_mem_take_run (by decide) rest⟩
  case hquoted =>
    intro hquote _ _
    have hc : c ≠ '\r' := by
      rintro rfl
      exact absurd hquote (by decide)
    refine (whole_quotedLength hc rest).succ ?_
    rintro more rfl
    exact quotedLength_pos
  case hshift =>
    intro hshift
    have htaken : (c :: rest).take 3 = ['<', '<', '<'] := take_of_at? hshift
    refine .of_not_mem fun hmem => ?_
    have hmem := List.take_subset_take_left (c :: rest) (show 1 + 1 ≤ 3 by decide) hmem
    simp [htaken] at hmem
  case hheredoc =>
    intro hheredoc hname
    have htaken : (c :: rest).take 3 = ['<', '<', '<'] := take_of_at? hheredoc
    refine (whole_heredocLength hname (heredocName_continues _) false rest).succ ?_
    rintro more rfl
    cases (List.cons_eq_cons.mp (List.cons_eq_cons.mp htaken).2).1
  case hnumber =>
    intro h
    refine .of_not_mem fun hmem => ?_
    dsimp only at hmem
    rcases Nat.eq_zero_or_pos (number (c :: rest)).2 with hzero | hpos
    · simp [hzero, (hshown h).symm] at hmem
    · rw [Nat.sub_add_cancel hpos] at hmem
      exact not_mem_take_number (by decide) (c :: rest) hmem
  case hword => exact fun h => wordStep_whole (hshown h) rest

/-- Behind its blanks, what a documentation comment is made of ends visibly. -/
theorem docStep_visible {lineStart : Bool} {c : Char} {rest : List Char}
    (hkind : (docStep lineStart c rest).kind ≠ .docWhitespace) :
    (c :: rest.take (docStep lineStart c rest).extra).getLast? ≠ some '\r' := by
  revert hkind
  unfold docStep
  split
  · rename_i hclose
    have htaken : (c :: rest).take 2 = ['*', '/'] := take_of_at? hclose
    rw [List.take_succ_cons] at htaken
    simp [htaken]
  split
  · exact fun hkind => absurd rfl hkind
  split
  · exact fun hkind => absurd rfl hkind
  rename_i hblank
  have hc : c ≠ '\r' := by
    rintro rfl
    exact hblank rfl
  split
  · simpa using hc
  split
  · intro _ hlast
    rcases List.mem_cons.mp (List.mem_of_getLast? hlast) with heq | hmem
    · exact hc heq.symm
    · exact not_mem_take_run (by decide) rest hmem
  · intro _ hlast
    have hle := visibleLength_le (docLine rest)
    have hvisible := getLast?_take_visibleLength (docLine rest)
    obtain ⟨behind, hsplit⟩ := docLine_prefix rest
    dsimp only at hlast
    generalize docLine rest = line at hle hvisible hsplit hlast
    subst hsplit
    rw [List.take_append_of_le_length hle, List.getLast?_cons] at hlast
    cases hend : (line.take (visibleLength line)).getLast? with
    | some d =>
      obtain rfl : d = '\r' := by simpa [hend] using hlast
      cases hvisible '\r' hend
    | none => exact hc (by simpa [hend] using hlast)

/-- At the end of a documentation comment only blanks end with a carriage return. -/
theorem docTailStep_visible {c : Char} {rest : List Char}
    (hkind : (docTailStep c rest).kind ≠ .docWhitespace) :
    (c :: rest.take (docTailStep c rest).extra).getLast? ≠ some '\r' := by
  revert hkind
  unfold docTailStep
  split
  · split
    · exact fun hkind => absurd rfl hkind
    · exact docStep_visible
  · exact docStep_visible

end Lexer

/-- Of the characters of a part of a documentation comment, blanks apart, the last one is
visible. -/
theorem Mode.step_visible {mode : Mode} {c : Char} {rest : List Char} (hdoc : mode.inDoc = true)
    (hkind : (mode.step c rest).kind ≠ .docWhitespace) :
    (c :: rest.take (mode.step c rest).extra).getLast? ≠ some '\r' := by
  cases mode with
  | html => cases hdoc
  | code => cases hdoc
  | blockComment => cases hdoc
  | docComment lineStart => exact Lexer.docStep_visible hkind
  | docTail => exact Lexer.docTailStep_visible hkind

/-- No step stops within a line break, save at the blanks of a documentation comment. -/
theorem Mode.step_whole {mode : Mode} {c : Char} {rest : List Char}
    (hkind : (mode.step c rest).kind ≠ .docWhitespace) :
    Lexer.Whole ((mode.step c rest).extra + 1) (c :: rest) := by
  cases mode with
  | html => exact Lexer.htmlStep_whole c rest
  | code => exact Lexer.codeStep_whole c rest
  | blockComment =>
    change Lexer.Whole ((Lexer.blockLine (c :: rest)).1 - 1 + 1) (c :: rest)
    rw [Nat.sub_add_cancel (Lexer.blockLine_pos c rest)]
    exact Lexer.whole_blockLine _
  | docComment lineStart => exact fun _ => Mode.step_visible rfl hkind
  | docTail => exact fun _ => Mode.step_visible rfl hkind

/-- Two lexemes that stand side by side share a line break only as blanks of a documentation comment
and the line feed behind them. -/
def Shares (a b : Lexeme) : Prop :=
  a.text.toList.getLast? = some '\r' → b.text.toList.head? = some '\n' →
    a.kind = .docWhitespace ∧ b.kind = .docWhitespace ∧ b.text = "\n"

/-- Where two lexemes in turn share a line break, both are blanks of a documentation comment, and
the second is the line feed alone. -/
theorem shares_lexFrom (mode : Mode) (text : List Char) : (lexFrom mode text).IsChain Shares := by
  fun_induction lexFrom mode text with
  | case1 => exact .nil
  | case2 mode c rest s ih =>
    cases hrest : rest.drop s.extra with
    | nil =>
      rw [lexFrom]
      exact .singleton _
    | cons d behind =>
      rw [hrest, lexFrom] at ih
      rw [lexFrom]
      refine .cons_cons (fun hreturn hfeed => ?_) ih
      rw [String.toList_ofList] at hreturn hfeed
      obtain rfl : d = '\n' := by simpa using hfeed
      have hkind : s.kind = .docWhitespace := by
        by_contra hkind
        have hhead := congrArg List.head? hrest
        exact Mode.step_whole hkind (by rw [List.drop_succ_cons]; exact hhead) hreturn
      have hdoc : s.next.inDoc = true := by
        rw [← (mode.step_tracks c rest).2, hkind]
        rfl
      refine ⟨hkind, ?_⟩
      cases hnext : s.next with
      | html => simp [hnext, Mode.inDoc] at hdoc
      | code => simp [hnext, Mode.inDoc] at hdoc
      | blockComment => simp [hnext, Mode.inDoc] at hdoc
      | docComment lineStart => exact ⟨rfl, rfl⟩
      | docTail => exact ⟨rfl, rfl⟩

/-- No part of a documentation comment that is visible ends with a carriage return. -/
theorem visible_lexFrom (mode : Mode) (text : List Char) : ∀ l ∈ lexFrom mode text,
    l.kind.isDocPart = true → l.kind ≠ .docWhitespace → l.text.toList.getLast? ≠ some '\r' := by
  fun_induction lexFrom mode text with
  | case1 => simp
  | case2 mode c rest s ih =>
    refine List.forall_mem_cons.mpr ⟨fun hpart hkind => ?_, ih⟩
    rw [String.toList_ofList]
    exact Mode.step_visible ((mode.step_tracks c rest).1.symm.trans hpart) hkind

section

variable {source : String} {store : Store}
  (hbuild : Store.build? (settleWords (lex source)) (outline (settleWords (lex source))) =
    .ok store)

include hbuild

/-- Where two tokens share a line break, the first is a blank of a documentation comment and the
second the line feed alone. -/
theorem cut_of_build {i : Nat} (hcut : store.CutsBreak i) :
    store.kind i = .docWhitespace ∧ store.kind (i + 1) = .docWhitespace ∧
      store.text (i + 1) = "\n" := by
  have hi : i + 1 < store.size := by
    by_contra hge
    have habsent : store.text (i + 1) = "" := by
      rw [Store.text, Store.token_of_size_le (Nat.le_of_not_lt hge)]
      rfl
    simp [Store.CutsBreak, habsent] at hcut
  have hkeeps {prior after : List Lexeme} {l : Lexeme} (hl : l.kind = .docWhitespace) :
      (Words.settle prior after l).kind = .docWhitespace := by
    rcases kind_settle prior after l with hsame | ⟨hword, _⟩
    · exact hsame.trans hl
    · simp [isWord, hl, Kind.isTrivia, Kind.isComment] at hword
  obtain ⟨a, _, ha, _, hatext, hakind⟩ := exists_raw_of_build hbuild (Nat.lt_of_succ_lt hi)
  obtain ⟨b, _, hb, _, hbtext, hbkind⟩ := exists_raw_of_build hbuild hi
  obtain ⟨_, rfl⟩ := List.getElem?_eq_some_iff.mp ha
  obtain ⟨hlt, rfl⟩ := List.getElem?_eq_some_iff.mp hb
  have hshares := List.isChain_iff_getElem.mp
    (lex_eq_lexFrom source ▸ shares_lexFrom .html source.toList) i hlt
  obtain ⟨hfirst, hsecond, htext⟩ := hshares (hatext ▸ hcut.1) (hbtext ▸ hcut.2)
  exact ⟨hakind.trans (hkeeps hfirst), hbkind.trans (hkeeps hsecond), hbtext.trans htext⟩

/-- Of a part of a documentation comment, blanks apart, the last character is visible. -/
theorem visible_of_build {i : Nat} (hpart : (store.kind i).isDocPart = true)
    (hkind : store.kind i ≠ .docWhitespace) : (store.text i).toList.getLast? ≠ some '\r' := by
  have hi : i < store.size := Store.lt_size_of_kind_ne fun hunknown => by
    rw [hunknown] at hpart
    cases hpart
  obtain ⟨l, _, _, hl, htext, hsettled⟩ := exists_raw_of_build hbuild hi
  have hsame : store.kind i = l.kind := by
    rw [hsettled] at hpart ⊢
    refine (kind_settle ..).resolve_right fun ⟨_, hother⟩ => ?_
    have hloose : ∀ k ∈ [Kind.identifier, .closure, .anonClass], k.isDocPart = false := by decide
    rw [hloose _ hother] at hpart
    cases hpart
  rw [hsame] at hpart hkind
  rw [htext]
  exact visible_lexFrom .html source.toList l (lex_eq_lexFrom source ▸ hl) hpart hkind

/-- A part of a documentation comment stands exactly behind what leaves one open. -/
theorem docFollows_of_build {i : Nat} (hi : i + 1 < store.size) :
    (store.kind (i + 1)).isDocPart = (store.kind i).leavesDocOpen := by
  have hsize : i + 1 < (settleWords (lex source)).length := Store.size_of_build? hbuild ▸ hi
  have hfollows := List.isChain_iff_getElem.mp (isChain_settleWords source) i (by simpa using hsize)
  simp only [List.getElem_map, DocFollows] at hfollows
  rw [(Store.token_of_build? hbuild (List.getElem?_eq_getElem (Nat.lt_of_succ_lt hsize))).1,
    (Store.token_of_build? hbuild (List.getElem?_eq_getElem hsize)).1]
  exact hfollows

/-- A documentation comment that is closed is closed by its closing tag, and all behind its opening
tag is a part of it. -/
theorem comment_parts_of_build {i j : Nat} (hopen : store.kind i = .docOpen)
    (hmatch : store.commentMatch? i = some j) :
    i < j ∧ store.kind j = .docClose ∧ ∀ k, i < k → k ≤ j → (store.kind k).isDocPart = true := by
  obtain ⟨p, hp, hlt, _, hends⟩ := Store.comment_of_build? hbuild hmatch
  have hclose : store.kind p.2 = .docClose := by
    obtain ⟨hcloser, _⟩ := mem_pairComments (Brackets.pending_zipIdx _).rising p hp
    exact Store.kind_of_kinds hbuild (List.mem_zipIdx_iff_getElem?.mp hcloser)
  obtain ⟨_, _, _, hparts⟩ := isDocPart_of_mem_pairComments (isChain_settleWords source) hp
  rcases hends with rfl | rfl
  · refine ⟨hlt, hclose, fun k hik hkj => ?_⟩
    obtain ⟨kind, hkind, hpart⟩ := hparts k hik hkj
    rw [Store.kind_of_kinds hbuild hkind, hpart]
  · cases hopen.symm.trans hclose

end

/-- What the tokens of a PHP text promise of the line breaks that two of them share. -/
structure Breaking (s : Store) : Prop where
  exact : Exact s
  cut : ∀ i, s.CutsBreak i →
    s.kind i = .docWhitespace ∧ s.kind (i + 1) = .docWhitespace ∧ s.text (i + 1) = "\n"
  visible : ∀ i, (s.kind i).isDocPart = true → s.kind i ≠ .docWhitespace →
    (s.text i).toList.getLast? ≠ some '\r'
  follows : ∀ i, i + 1 < s.size → (s.kind (i + 1)).isDocPart = (s.kind i).leavesDocOpen
  comment : ∀ i j, s.kind i = .docOpen → s.commentMatch? i = some j →
    i < j ∧ s.kind j = .docClose ∧ ∀ k, i < k → k ≤ j → (s.kind k).isDocPart = true

/-- The store of a PHP text promises all this. -/
theorem breaking_of_build {source : String} {store : Store}
    (hbuild : Store.build? (settleWords (lex source)) (outline (settleWords (lex source))) =
      .ok store) : Breaking store where
  exact := exact_of_build hbuild
  cut _ := cut_of_build hbuild
  visible _ := visible_of_build hbuild
  follows _ := docFollows_of_build hbuild
  comment _ _ := comment_parts_of_build hbuild

end Php

end PhpStyle
