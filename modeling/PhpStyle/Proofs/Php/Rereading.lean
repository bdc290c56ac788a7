import PhpStyle.Proofs.Php.Endings
import PhpStyle.Proofs.Php.Exact
import PhpStyle.Proofs.Php.Resettling

/-!
# Tokens that stay

A text is read again after some of its line breaks were taken out. If what comes to stand side by
side stays apart, then the lexemes that are left are the lexemes of the new text, and its words are
settled as before.
-/

namespace PhpStyle.Php

open Lexer

/-- A mark, a tag or a comment is no word, and no backslash either. -/
theorem Raw.of_isWord {l : Lexeme} (h : Raw l) (hword : isWord l = true) :
    isClosed l = false ∧ l.kind ≠ .openTag ∧ l.kind.isMark = false := by
  have hkind : (wordKind l.text.toList).isTrivia = false ∧ wordKind l.text.toList ≠ .openTag ∧
      (wordKind l.text.toList).isMark = false :=
    wordKind_of_keywords (p := fun k => k.isTrivia = false ∧ k ≠ .openTag ∧ k.isMark = false)
      (by decide) (by decide) _
  rw [← h.word hword] at hkind
  obtain ⟨htrivia, htag, hmark⟩ := hkind
  refine ⟨?_, htag, hmark⟩
  have hne {k : Kind} (hk : k.isTrivia = true) : l.kind ≠ k := by
    rintro rfl
    rw [hk] at htrivia
    cases htrivia
  simp [isClosed, hmark, htag, hne (k := .comment) rfl, hne (k := .docClose) rfl,
    hne (k := .whitespace) rfl]

/-- No closed lexeme is a backslash. -/
theorem kind_ne_of_isClosed {l : Lexeme} (h : isClosed l = true) : l.kind ≠ .nsSeparator := by
  intro hkind
  simp [isClosed, hkind, Kind.isMark] at h

/-- That what stands in front of a line break and what comes behind it can be told apart without it:
in front is the tag that opens the file or a lexeme that ends by itself, or a mark comes behind. -/
def StaysApart (pre : List Lexeme) (q : Lexeme) (post : List Lexeme) : Prop :=
  pre = [] ∧ q.kind = .openTag ∨ isClosed q = true ∨ post.head?.any (·.kind.isMark) = true

/-- Where a line break is not needed, the text without it has the same lexemes but for the break. -/
theorem reread_erase {pre post : List Lexeme} {q w : Lexeme} (hw : IsBreak w)
    (hlex : lexFrom .html (letters (pre ++ q :: w :: post)) = pre ++ q :: w :: post)
    (hapart : StaysApart pre q post) :
    lexFrom .html (letters (pre ++ q :: post)) = pre ++ q :: post ∧
      solid (settleWords (pre ++ q :: post)) = solid (settleWords (pre ++ q :: w :: post)) := by
  refine ⟨lexFrom_erase hlex hw hapart, ?_⟩
  have hraw (l : Lexeme) (hl : l ∈ pre ++ q :: w :: post) : Raw l :=
    raw_lexFrom .html (letters (pre ++ q :: w :: post)) l (hlex.symm ▸ hl)
  suffices hsame : solid (settleWords (pre ++ q :: ([w] ++ post))) =
      solid (settleWords (pre ++ q :: post)) from hsame.symm
  refine solid_settleWords_blanks (by simp [hw.1]) (fun hword => ?_) fun n hn hword _ => ?_
  · obtain ⟨hopen, htag, _⟩ := (hraw q (by simp)).of_isWord hword
    rcases hapart with ⟨_, h⟩ | h | hmark
    · exact absurd h htag
    · rw [hopen] at h
      cases h
    · cases post with
      | nil => rfl
      | cons m post =>
        have hne : m.kind ≠ .nsSeparator := by
          intro hkind
          simp [hkind, Kind.isMark] at hmark
        simpa [separates] using hne
  · obtain ⟨post, rfl⟩ := List.head?_eq_some_iff.mp hn
    rcases hapart with ⟨_, h⟩ | h | hmark
    · rw [h]
      decide
    · exact kind_ne_of_isClosed h
    · rw [List.head?_cons, Option.any_some, ((hraw n (by simp)).of_isWord hword).2.2] at hmark
      cases hmark

/-- Of two line breaks alike, one can go wherever they stand: the other comes behind whitespace. -/
theorem reread_erase_same {pre post : List Lexeme} {q w : Lexeme} (hw : IsBreak w)
    (hlex : lexFrom .html (letters (pre ++ q :: w :: w :: post)) = pre ++ q :: w :: w :: post) :
    lexFrom .html (letters (pre ++ q :: w :: post)) = pre ++ q :: w :: post ∧
      solid (settleWords (pre ++ q :: w :: post)) =
      solid (settleWords (pre ++ q :: w :: w :: post)) := by
  have hsplit (ks : List Lexeme) : pre ++ q :: w :: ks = (pre ++ [q]) ++ w :: ks := by simp
  have hblank : isClosed w = true := by simp [isClosed, hw.1]
  rw [hsplit, hsplit]
  rw [hsplit] at hlex
  exact reread_erase hw hlex (.inr (.inl hblank))

/-- What is left of lexemes, numbered from `n` on, when those with some numbers are taken out. -/
def keep (gone : Nat → Bool) : Nat → List Lexeme → List Lexeme
  | _, [] => []
  | n, l :: ls => if gone n then keep gone (n + 1) ls else l :: keep gone (n + 1) ls

/-- That two that are left come to stand side by side. -/
structure Meet (gone : Nat → Bool) (p n : Nat) : Prop where
  lt : p + 1 < n
  between : ∀ k, p < k → k < n → gone k = true
  first : gone p = false
  last : gone n = false

/-- Line breaks are taken out one after the other, from the left to the right: of a row of them, the
last goes only if the lexemes on its two sides stay apart, or as if another break behind it went. -/
theorem reread_keep_from {gone : Nat → Bool} {ls : List Lexeme} {w : Lexeme} (hw : IsBreak w)
    (hgone : ∀ k, gone k = true → ls[k]? = some w ∧ k + 1 < ls.length)
    (hapart : ∀ p n q m, Meet gone p n → ls[p]? = some q → ls[n]? = some m →
      p = 0 ∧ q.kind = .openTag ∨ isClosed q = true ∨ m.kind.isMark = true ∨ m = w)
    {rest pre : List Lexeme} {q : Lexeme} {p n : Nat} (hpn : p < n) (hq : ls[p]? = some q)
    (hp : gone p = false) (hpre : p = 0 → pre = []) (hbetween : ∀ k, p < k → k < n → gone k = true)
    (hrest : ls.drop n = rest)
    (hlex : lexFrom .html (letters (pre ++ q :: rest)) = pre ++ q :: rest) :
    lexFrom .html (letters (pre ++ q :: keep gone n rest)) = pre ++ q :: keep gone n rest ∧
      solid (settleWords (pre ++ q :: keep gone n rest)) =
      solid (settleWords (pre ++ q :: rest)) := by
  induction rest generalizing pre q p n with
  | nil => exact ⟨hlex, rfl⟩
  | cons l rest ih =>
    have hl : ls[n]? = some l := by
      rw [← List.head?_drop, hrest, List.head?_cons]
    have hdrop : ls.drop (n + 1) = rest := by
      rw [← List.tail_drop, hrest, List.tail_cons]
    by_cases hn : gone n = true
    case neg =>
      have hkeep : keep gone n (l :: rest) = l :: keep gone (n + 1) rest := if_neg hn
      have hsplit (ks : List Lexeme) : pre ++ q :: l :: ks = (pre ++ [q]) ++ l :: ks := by simp
      rw [hkeep, hsplit, hsplit]
      rw [hsplit] at hlex
      exact ih (Nat.lt_succ_self n) hl (by simpa using hn) (by omega)
        (fun k _ _ => by omega) hdrop hlex
    have hkeep : keep gone n (l :: rest) = keep gone (n + 1) rest := if_pos hn
    obtain ⟨hbreak, hlength⟩ := hgone n hn
    obtain rfl : w = l := Option.some.inj (hbreak.symm.trans hl)
    obtain ⟨m, hm⟩ : ∃ m, ls[n + 1]? = some m := ⟨_, List.getElem?_eq_getElem hlength⟩
    obtain ⟨rest, rfl⟩ : ∃ behind, rest = m :: behind := by
      refine List.head?_eq_some_iff.mp ?_
      rw [← hdrop, List.head?_drop, hm]
    have herased : lexFrom .html (letters (pre ++ q :: m :: rest)) = pre ++ q :: m :: rest ∧
        solid (settleWords (pre ++ q :: m :: rest)) =
        solid (settleWords (pre ++ q :: w :: m :: rest)) := by
      by_cases hsame : m = w
      · subst hsame
        exact reread_erase_same hw hlex
      · have hlast : gone (n + 1) = false := by
          by_contra hnext
          exact hsame (Option.some.inj (hm.symm.trans (hgone (n + 1) (by simpa using hnext)).1))
        have hmeet : Meet gone p (n + 1) := by
          refine ⟨by omega, fun k hpk hk => ?_, hp, hlast⟩
          rcases Nat.lt_succ_iff_lt_or_eq.mp hk with hk | rfl
          · exact hbetween k hpk hk
          · exact hn
        refine reread_erase hw hlex ?_
        rcases hapart p (n + 1) q m hmeet hq hm with ⟨hzero, htag⟩ | hclosed | hmark | heq
        · exact .inl ⟨hpre hzero, htag⟩
        · exact .inr (.inl hclosed)
        · exact .inr (.inr hmark)
        · exact absurd heq hsame
    rw [hkeep, ← herased.2]
    refine ih (by omega) hq hp hpre (fun k hpk hk => ?_) hdrop herased.1
    rcases Nat.lt_succ_iff_lt_or_eq.mp hk with hk | rfl
    · exact hbetween k hpk hk
    · exact hn

/-- If line breaks are taken out only where what comes to stand side by side stays apart, then the
lexemes that are left are those of the new text, and they are settled as before. -/
theorem reread_keep {gone : Nat → Bool} {ls : List Lexeme} {w : Lexeme} (hw : IsBreak w)
    (hlex : lexFrom .html (letters ls) = ls) (hzero : gone 0 = false)
    (hgone : ∀ k, gone k = true → ls[k]? = some w ∧ k + 1 < ls.length)
    (hapart : ∀ p n q m, Meet gone p n → ls[p]? = some q → ls[n]? = some m →
      p = 0 ∧ q.kind = .openTag ∨ isClosed q = true ∨ m.kind.isMark = true ∨ m = w) :
    lexFrom .html (letters (keep gone 0 ls)) = keep gone 0 ls ∧
      solid (settleWords (keep gone 0 ls)) = solid (settleWords ls) := by
  cases ls with
  | nil => exact ⟨hlex, rfl⟩
  | cons q rest =>
    have hkeep : keep gone 0 (q :: rest) = q :: keep gone 1 rest := by
      rw [keep, hzero]
      rfl
    rw [hkeep]
    have hlex : lexFrom .html (letters ([] ++ q :: rest)) = [] ++ q :: rest := hlex
    exact reread_keep_from hw hgone hapart Nat.zero_lt_one rfl hzero (fun _ => rfl)
      (fun k _ _ => by omega) rfl hlex

/-- Everything between an open tag and a word on its line can be taken out. -/
theorem reread_behind_tag {text : List Char} {tag n : Lexeme} {mid rest : List Lexeme}
    (hlex : lexFrom .html text = tag :: (mid ++ n :: rest)) (htag : tag.kind = .openTag)
    (hn : isWord n = true) : lexFrom .html (letters (tag :: n :: rest)) = tag :: n :: rest := by
  obtain ⟨between, _, htagRead, hbehind⟩ := exists_reads hlex
  obtain ⟨next, _, _, hrest⟩ := exists_readsAll hbehind
  obtain ⟨_, _, hread, _⟩ := exists_reads hrest
  obtain rfl := hread.code_of_isWord hn
  obtain ⟨_, rfl, _, gap, _, _, hgap, hsame⟩ := htagRead.openTag htag
  have hstays : Reads .html tag (letters (n :: rest)) .code := by
    refine hsame _ ?_
    by_cases hnil : gap = []
    case neg => exact tagGap_closed hgap hnil _
    obtain ⟨c, cs, htext, hstarts, _⟩ := word_spec n
      (show n ∈ lexFrom .code (letters (n :: rest)) by rw [hrest]; exact List.mem_cons_self) hn
    obtain ⟨hnot, _⟩ := not_special_of_startsWord hstarts
    simp only [List.mem_cons, List.not_mem_nil, or_false, not_or] at hnot
    obtain ⟨_, hspace, htab, hreturn, hbreak, _⟩ := hnot
    rw [hnil, List.nil_append, letters_cons, htext, List.cons_append, tagGap_of_ne ⟨hspace, htab⟩,
      lineBreakLength_cons, if_neg hbreak, if_neg (fun h => hreturn h.1)]
    rfl
  rw [letters_cons, hstays.lexFrom_append, hrest]

/-! ### Where a lexeme stands in a text that is read again -/

/-- Characters of whitespace. -/
def isLayout (c : Char) : Bool := Lexer.isBlank c || c == '\n'

/-- Whitespace is made of blanks and line breaks. -/
theorem isLayout_of_whitespaceLength {a b : List Char} (h : whitespaceLength (a ++ b) = a.length) :
    ∀ c ∈ a, isLayout c = true := by
  induction a with
  | nil => simp
  | cons d a ih =>
    rw [List.cons_append, whitespaceLength, List.length_cons] at h
    split at h
    · rename_i hbreak
      obtain rfl : a = [] := List.length_eq_zero_iff.mp (by omega)
      simp [isLayout, hbreak]
    split at h
    · rename_i hblank
      exact List.forall_mem_cons.mpr ⟨by simp [isLayout, hblank], ih (by omega)⟩
    · omega

/-- Whitespace has characters of whitespace only. -/
theorem isLayout_of_mem {mode : Mode} {text : List Char} {l : Lexeme} (hl : l ∈ lexFrom mode text)
    (hkind : l.kind = .whitespace) : ∀ c ∈ l.text.toList, isLayout c = true := by
  obtain ⟨ls, ks, hsplit⟩ := List.append_of_mem hl
  obtain ⟨_, _, _, hbehind⟩ := exists_readsAll hsplit
  obtain ⟨_, _, hread, _⟩ := exists_reads hbehind
  exact isLayout_of_whitespaceLength (hread.whitespace hkind).2.2

/-- A text is split in one way only at a visible character with a given number of others in
front. -/
theorem append_cons_inj {p : Char → Bool} {x : Char} (hx : p x = true) {a a' b b' : List Char}
    (h : a ++ x :: b = a' ++ x :: b') (hfilter : a.filter p = a'.filter p) : a = a' ∧ b = b' := by
  have hnil {c : List Char} {d d' e : List Char} (hc : x :: d = c ++ x :: d')
      (hlength : (e ++ c).filter p = e.filter p) : c = [] := by
    cases c with
    | nil => rfl
    | cons y c =>
      obtain rfl : x = y := (List.cons_eq_cons.mp hc).1
      simp [List.filter_append, hx] at hlength
  rcases List.append_eq_append_iff.mp h with ⟨c, rfl, hc⟩ | ⟨c, rfl, hc⟩
  · obtain rfl := hnil hc hfilter.symm
    exact ⟨(List.append_nil a).symm, (List.cons_eq_cons.mp hc).2⟩
  · obtain rfl := hnil hc hfilter
    exact ⟨List.append_nil a', (List.cons_eq_cons.mp hc).2.symm⟩

/-- Leaving whitespace out leaves the characters that are no layout. -/
theorem filter_letters_solid {ls : List Lexeme}
    (hblank : ∀ l ∈ ls, l.kind = .whitespace → ∀ c ∈ l.text.toList, isLayout c = true) :
    (letters (solid ls)).filter (!isLayout ·) = (letters ls).filter (!isLayout ·) := by
  induction ls with
  | nil => rfl
  | cons l ls ih =>
    obtain ⟨hl, hls⟩ := List.forall_mem_cons.mp hblank
    rw [solid_cons, letters_cons, List.filter_append, ← ih hls]
    split
    · rename_i hkind
      have hnone : l.text.toList.filter (!isLayout ·) = [] := by
        rw [List.filter_eq_nil_iff]
        intro c hc
        simp [hl hkind c hc]
      rw [hnone, List.nil_append]
    · rw [letters_cons, List.filter_append]

/-- Of two ways to cut one text into the same lexemes but for whitespace, each has a lexeme that is
none at the same place of the text. -/
theorem exists_split_of_solid {ls front behind : List Lexeme} {q : Lexeme}
    (hsolid : solid ls = solid (front ++ q :: behind))
    (hletters : letters ls = letters (front ++ q :: behind))
    (hls : ∀ l ∈ ls, l.kind = .whitespace → ∀ c ∈ l.text.toList, isLayout c = true)
    (hfront : ∀ l ∈ front, l.kind = .whitespace → ∀ c ∈ l.text.toList, isLayout c = true)
    (hq : q.kind ≠ .whitespace) (hvisible : ∃ c cs, q.text.toList = c :: cs ∧ isLayout c = false) :
    ∃ front' behind', ls = front' ++ q :: behind' ∧ letters behind' = letters behind := by
  rw [solid_append, solid_cons, if_neg hq, solid, List.filter_eq_append_iff] at hsolid
  obtain ⟨front', rest, rfl, hsame, hrest⟩ := hsolid
  obtain ⟨blanks, behind', rfl, hblanks, _, _⟩ := List.filter_eq_cons_iff.mp hrest
  refine ⟨front' ++ blanks, behind', by simp, ?_⟩
  have hsolid' : solid (front' ++ blanks) = solid front := by
    have hnone : solid blanks = [] := solid_eq_nil fun l hl => by simpa using hblanks l hl
    rw [solid_append, hnone, List.append_nil]
    exact hsame
  have hfilter : (letters (front' ++ blanks)).filter (!isLayout ·) = (letters front).filter
      (!isLayout ·) := by
    rw [← filter_letters_solid hfront, ← hsolid', filter_letters_solid]
    intro l hl
    refine hls l ?_
    simp only [List.mem_append, List.mem_cons] at hl ⊢
    tauto
  obtain ⟨c, cs, htext, hc⟩ := hvisible
  rw [← List.append_assoc, letters_append, letters_append front, letters_cons, letters_cons, htext,
    List.cons_append, List.cons_append] at hletters
  obtain ⟨_, hbehind⟩ := append_cons_inj (p := (!isLayout ·)) (by simp [hc]) hletters hfilter
  exact List.append_cancel_left hbehind

/-- Lexemes with the same texts have the same characters. -/
theorem letters_congr {ls ks : List Lexeme} (h : ls.map (·.text) = ks.map (·.text)) :
    letters ls = letters ks := by
  have hmap (ls : List Lexeme) : letters ls = (ls.map (·.text)).flatMap String.toList := by
    rw [letters, List.flatMap_map]
  rw [hmap, hmap, h]

/-- Each lexeme of a text was read in front of what comes behind it, and then settled. -/
theorem exists_reads_of_settleWords {source : String} {front behind : List Lexeme} {q : Lexeme}
    (h : settleWords (lex source) = front ++ q :: behind) :
    ∃ mode raw prior after next, Reads mode raw (letters behind) next ∧
      q = Words.settle prior after raw ∧ q.text = raw.text := by
  have hq : (settleWords (lex source))[front.length]? = some q := by simp [h]
  obtain ⟨raw, prior, hraw, hsettle, htext⟩ := exists_raw_of_settleWords hq
  obtain ⟨hlt, hget⟩ := List.getElem?_eq_some_iff.mp hraw
  have hsplit : lex source = (lex source).take front.length ++ raw :: (lex source).drop
      (front.length + 1) := by
    rw [← hget, ← List.drop_eq_getElem_cons hlt, List.take_append_drop]
  obtain ⟨mode, _, _, hbehind⟩ := exists_readsAll ((lex_eq_lexFrom source).symm.trans hsplit)
  obtain ⟨next, _, hread, _⟩ := exists_reads hbehind
  have hletters : letters ((lex source).drop (front.length + 1)) = letters behind := by
    refine letters_congr ?_
    rw [List.map_drop, ← map_text_settleWords, h, ← List.map_drop]
    simp
  exact ⟨mode, raw, prior, _, next, hletters ▸ hread, hsettle, htext⟩

/-- No word stands in front of what goes it on. -/
theorem Reads.continuesWord {mode next : Mode} {l : Lexeme} {c : Char} {rest : List Char}
    (hl : Reads mode l (c :: rest) next) (hword : isWord l = true) : continuesWord c = false := by
  obtain rfl := hl.code_of_isWord hword
  obtain ⟨d, taken, htext, hstep⟩ := hl
  have hstarts : startsWord d = true := by
    simp only [isWord, htext, List.head?_cons, Option.any_some, Bool.and_eq_true] at hword
    exact hword.2
  rw [Mode.step, codeStep_of_startsWord hstarts] at hstep
  have hrun : run Php.continuesWord (taken ++ c :: rest) = taken.length := congrArg Step.extra hstep
  exact run_spec (taken ++ c :: rest) (by rw [hrun, List.drop_left])

/-- No open tag without a blank stands in front of a line break. -/
theorem Reads.lineBreakLength_eq_zero {mode next : Mode} {l : Lexeme} {rest : List Char}
    (hl : Reads mode l rest next) (hkind : l.kind = .openTag) (hlength : l.text.length = 5) :
    lineBreakLength rest = 0 := by
  by_contra hbreak
  obtain ⟨_, _, tag, gap, htext, htag, hgap, _⟩ := hl.openTag hkind
  have hnil : gap = [] := by
    have htotal := congrArg List.length htext
    rw [String.length_toList, hlength, List.length_append, htag] at htotal
    exact List.length_eq_zero_iff.mp (by omega)
  obtain ⟨x, behind, rfl, hx⟩ := exists_of_lineBreakLength (Nat.pos_of_ne_zero hbreak)
  have hblank : ∀ c ∈ ['\n', '\r'], c ≠ ' ' ∧ c ≠ '\t' := by decide
  rw [hnil, List.nil_append, tagGap_of_ne (hblank x hx)] at hgap
  exact hbreak hgap

end PhpStyle.Php
