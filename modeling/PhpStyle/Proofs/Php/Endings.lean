import PhpStyle.Proofs.Php.Relexing

/-!
# Taking line breaks out and putting them in

Marks, comments, whitespace that has a line break and tags that took one end by themselves: what
comes behind them does not matter. So a line break behind one of them can be taken out, and so can
one in front of a mark. A line can be broken in front of a word that starts with an `n`, unless an
open tag would take the break.
-/

namespace PhpStyle.Php

open Lexer

/-! ### Lexemes that end by themselves -/

namespace Lexer

variable {x : Char} {a b : List Char}

/-- A comment to the end of its line that stops in front of more of the text has the line break. -/
theorem lineCommentLength_closed (hx : x ≠ '?') (h : lineCommentLength (a ++ x :: b) = a.length) :
    (∃ w, a = w ++ ['\n']) ∧ ∀ rest, lineCommentLength (a ++ rest) = a.length := by
  induction a with
  | nil =>
    have hpos := lineCommentLength_pos hx b
    rw [List.nil_append, List.length_nil] at h
    omega
  | cons d a ih =>
    rw [List.cons_append, lineCommentLength, List.length_cons] at h
    split at h
    · omega
    rename_i hopen
    split at h
    · rename_i hbreak
      obtain rfl : a = [] := List.length_eq_zero_iff.mp (by omega)
      subst hbreak
      exact ⟨⟨[], rfl⟩, fun rest => rfl⟩
    · rename_i hbreak
      obtain ⟨⟨w, rfl⟩, hrest⟩ := ih (by omega)
      refine ⟨⟨d :: w, rfl⟩, fun rest => ?_⟩
      have hsame : at? "?>" (d :: (w ++ ['\n'] ++ rest)) = at? "?>"
          (d :: (w ++ ['\n'] ++ x :: b)) := by
        cases w <;> rfl
      rw [List.cons_append, lineCommentLength, hsame, if_neg hopen, if_neg hbreak, hrest,
        List.length_cons]

/-- A comment that is closed ends in a slash. -/
theorem blockLine_closed (h : blockLine (a ++ b) = (a.length, .code)) :
    (∃ w, a = w ++ ['/']) ∧ ∀ rest, blockLine (a ++ rest) = (a.length, .code) := by
  induction a with
  | nil =>
    cases b with
    | nil => cases h
    | cons c b =>
      have hpos := blockLine_pos c b
      rw [List.nil_append] at h
      rw [h, List.length_nil] at hpos
      omega
  | cons d a ih =>
    by_cases hbreak : d = '\n'
    · subst hbreak
      cases congrArg Prod.snd h
    by_cases hclose : d = '*' ∧ (a ++ b).head? = some '/'
    · obtain ⟨rfl, hhead⟩ := hclose
      obtain ⟨behind, hbehind⟩ := List.head?_eq_some_iff.mp hhead
      rw [List.cons_append, hbehind] at h
      have hone : a.length = 1 := by
        have htwo : 2 = a.length + 1 := congrArg Prod.fst h
        omega
      obtain ⟨e, rfl⟩ := List.length_eq_one_iff.mp hone
      obtain rfl : e = '/' := (List.cons_eq_cons.mp hbehind).1
      exact ⟨⟨['*'], rfl⟩, fun rest => rfl⟩
    · rw [List.cons_append, blockLine_cons hbreak hclose, List.length_cons, Prod.mk.injEq] at h
      obtain ⟨⟨w, rfl⟩, hrest⟩ := ih (Prod.ext (by omega) h.2)
      refine ⟨⟨d :: w, rfl⟩, fun rest => ?_⟩
      have hopen : ¬ (d = '*' ∧ (w ++ ['/'] ++ rest).head? = some '/') := by
        cases w <;> exact hclose
      rw [List.cons_append, blockLine_cons hbreak hopen, hrest, List.length_cons]

/-- Blanks in front of whitespace are whitespace. -/
theorem whitespaceLength_append (ha : ∀ c ∈ a, isBlank c = true ∧ c ≠ '\n') (rest : List Char) :
    whitespaceLength (a ++ rest) = a.length + whitespaceLength rest := by
  induction a with
  | nil => simp
  | cons d a ih =>
    obtain ⟨⟨hblank, hbreak⟩, ha⟩ := List.forall_mem_cons.mp ha
    rw [List.cons_append, whitespaceLength, if_neg hbreak, if_pos hblank, ih ha, List.length_cons]
    omega

/-- Whitespace has a line break at its end, or none. -/
theorem whitespaceLength_cases (h : whitespaceLength (a ++ b) = a.length) :
    ((∃ w, a = w ++ ['\n']) ∧ ∀ rest, whitespaceLength (a ++ rest) = a.length) ∨
      ∀ c ∈ a, isBlank c = true ∧ c ≠ '\n' := by
  induction a with
  | nil => exact .inr (by simp)
  | cons d a ih =>
    rw [List.cons_append, whitespaceLength, List.length_cons] at h
    split at h
    · rename_i hbreak
      obtain rfl : a = [] := List.length_eq_zero_iff.mp (by omega)
      subst hbreak
      exact .inl ⟨⟨[], rfl⟩, fun rest => rfl⟩
    rename_i hbreak
    split at h
    · rename_i hblank
      refine (ih (by omega)).imp ?_ fun hall => List.forall_mem_cons.mpr ⟨⟨hblank, hbreak⟩, hall⟩
      rintro ⟨⟨w, rfl⟩, hrest⟩
      refine ⟨⟨d :: w, rfl⟩, fun rest => ?_⟩
      rw [List.cons_append, whitespaceLength, if_neg hbreak, if_pos hblank, hrest, List.length_cons]
    · omega

/-- Whitespace that stops in front of a break has a line break itself. -/
theorem whitespaceLength_closed (hx : x ∈ ['\n', '\r'])
    (h : whitespaceLength (a ++ x :: b) = a.length) :
    (∃ w, a = w ++ ['\n']) ∧ ∀ rest, whitespaceLength (a ++ rest) = a.length := by
  refine (whitespaceLength_cases h).resolve_right fun hall => ?_
  have hblank : ∀ c ∈ ['\n', '\r'], isBlank c = true ∨ c = '\n' := by decide
  have hpos := whitespaceLength_pos (hblank x hx) b
  rw [whitespaceLength_append hall] at h
  omega

/-- What an open tag took with it, it takes whatever comes behind. -/
theorem tagGap_closed (h : tagGap (a ++ b) = a.length) (ha : a ≠ []) :
    ∀ rest, tagGap (a ++ rest) = a.length := by
  obtain ⟨d, a, rfl⟩ := List.exists_cons_of_ne_nil ha
  intro rest
  rw [List.cons_append] at h ⊢
  rw [List.length_cons] at h ⊢
  by_cases hspace : d = ' '
  · subst hspace
    exact h
  by_cases htab : d = '\t'
  · subst htab
    exact h
  rw [tagGap_of_ne ⟨hspace, htab⟩, lineBreakLength_cons] at h ⊢
  by_cases hbreak : d = '\n'
  · rw [if_pos hbreak] at h ⊢
    exact h
  rw [if_neg hbreak] at h ⊢
  split at h
  · rename_i hreturn
    obtain ⟨e, rfl⟩ := List.length_eq_one_iff.mp (show a.length = 1 by omega)
    rw [if_pos (by simpa using hreturn)]
    rfl
  · omega

/-- A comment behind a slash runs to the end of its line, or up to its closing tag. -/
theorem slashStep_comment {rest : List Char} (h : (slashStep rest).kind = .comment) :
    slashStep rest = ⟨.comment, lineCommentLength rest, .code⟩ ∧ rest.head? = some '/' ∨
      ∃ body, rest = '*' :: body ∧ opensDoc body = false ∧
        slashStep rest = ⟨.comment, (blockLine body).1 + 1, (blockLine body).2⟩ := by
  unfold slashStep at h
  split at h
  · exact .inl ⟨rfl, rfl⟩
  · rename_i body
    refine .inr ⟨body, rfl, ?_⟩
    rw [slashStep_star]
    cases hdoc : opensDoc body with
    | true =>
      rw [show (at? "*" body && _) = true from hdoc, if_pos rfl] at h
      cases h
    | false => exact ⟨rfl, if_neg (by simp)⟩
  · have hnot := isComment_operatorStep ('/' :: rest)
    rw [h] at hnot
    cases hnot

/-- A mark is read as one character, whatever follows. -/
theorem codeStep_of_mark {c : Char} (hc : c ∈ marks) (rest : List Char) :
    codeStep c rest = ⟨(codeStep c []).kind, 0, .code⟩ := by
  simp only [marks, List.mem_cons, List.not_mem_nil, or_false] at hc
  rcases hc with rfl | rfl | rfl | rfl | rfl | rfl | rfl | rfl <;> rfl

end Lexer

/-- Lexemes that end by themselves, whatever comes behind them. -/
def isClosed (l : Lexeme) : Bool :=
  l.kind.isMark || l.kind == .comment || l.kind == .docClose || l.kind == .whitespace ||
    l.kind == .openTag && l.text.toList.getLast? == some '\n'

variable {mode next : Mode} {l : Lexeme} {rest : List Char}

/-- Outside of code there are comments, tags and text outside of PHP. -/
theorem Reads.code_or (hl : Reads mode l rest next) :
    mode = .code ∨ l.kind.isComment = true ∨ mode = .html ∧
      l.kind ∈ [.openTagEcho, .openTag, .inlineHtml] := by
  obtain ⟨c, taken, _, hstep⟩ := hl
  have hkind : (mode.step c (taken ++ rest)).kind = l.kind := by rw [hstep]
  rw [← hkind]
  cases mode with
  | code => exact .inl rfl
  | html => exact .inr (.inr ⟨rfl, htmlStep_kind c (taken ++ rest)⟩)
  | blockComment => exact .inr (.inl rfl)
  | docComment lineStart =>
    exact .inr (.inl (Kind.isComment_of_isDocPart (docStep_tracks lineStart c (taken ++ rest)).1))
  | docTail =>
    exact .inr (.inl (Kind.isComment_of_isDocPart (docTailStep_tracks c (taken ++ rest)).1))

/-- A line break starts with a line feed or a carriage return. -/
theorem exists_of_lineBreakLength (hbreak : 0 < lineBreakLength rest) :
    ∃ x behind, rest = x :: behind ∧ x ∈ ['\n', '\r'] := by
  cases rest with
  | nil => exact absurd hbreak (by decide)
  | cons x behind =>
    refine ⟨x, behind, rfl, ?_⟩
    rw [lineBreakLength_cons] at hbreak
    split at hbreak
    · simp_all
    split at hbreak
    · simp_all
    · omega

/-- An open tag has five letters and what it takes with them; that depends on what comes behind only
if it is nothing. -/
theorem Reads.openTag (hl : Reads mode l rest next) (hkind : l.kind = .openTag) :
    mode = .html ∧ next = .code ∧ ∃ tag gap, l.text.toList = tag ++ gap ∧ tag.length = 5 ∧
      tagGap (gap ++ rest) = gap.length ∧
      ∀ rest', tagGap (gap ++ rest') = gap.length → Reads mode l rest' .code := by
  have hmode : mode = .html := by
    rcases hl.code_or with rfl | hcomment | ⟨rfl, _⟩
    · obtain ⟨c, taken, _, hstep⟩ := hl
      refine absurd ((congrArg Step.kind hstep).trans hkind) ?_
      exact codeStep_kind (p := (· ≠ .openTag)) (by decide) (by decide) (by simp)
        (fun _ => wordKind_of_keywords (p := (· ≠ .openTag)) (by decide) (by decide))
        (taken ++ rest)
    · rw [hkind] at hcomment
      cases hcomment
    · rfl
  subst hmode
  obtain ⟨c, taken, htext, hstep⟩ := hl
  rw [Mode.step, hkind] at hstep
  by_cases hecho : at? "<?=" (c :: (taken ++ rest)) = true
  · rw [htmlStep, if_pos hecho] at hstep
    cases congrArg Step.kind hstep
  by_cases htag : atPhpTag (c :: (taken ++ rest)) = true
  · rw [htmlStep_of_atPhpTag hecho htag, Step.mk.injEq] at hstep
    obtain ⟨_, hextra, hnext⟩ := hstep
    have hlength : 4 ≤ taken.length := by omega
    obtain ⟨t₁, t₂, t₃, t₄, gap, rfl⟩ : ∃ t₁ t₂ t₃ t₄ gap, taken = t₁ :: t₂ :: t₃ :: t₄ :: gap := by
      rcases taken with _ | ⟨t₁, _ | ⟨t₂, _ | ⟨t₃, _ | ⟨t₄, gap⟩⟩⟩⟩ <;> simp at hlength ⊢
    have hgap : tagGap (gap ++ rest) = gap.length := by
      simp only [List.cons_append, List.drop_succ_cons, List.drop_zero, List.length_cons] at hextra
      omega
    refine ⟨rfl, hnext.symm, [c, t₁, t₂, t₃, t₄], gap, htext, rfl, hgap, fun rest' hsame => ?_⟩
    refine ⟨c, _, htext, ?_⟩
    have hstep' : htmlStep c (t₁ :: t₂ :: t₃ :: t₄ :: (gap ++ rest')) = _ :=
      htmlStep_of_atPhpTag hecho htag
    simp only [List.drop_succ_cons, List.drop_zero, hsame] at hstep'
    rw [Mode.step, List.cons_append, List.cons_append, List.cons_append, List.cons_append,
      hstep', hkind, Step.mk.injEq]
    refine ⟨rfl, ?_, rfl⟩
    simp only [List.length_cons]
    omega
  · rw [htmlStep, if_neg hecho, if_neg htag] at hstep
    cases congrArg Step.kind hstep

/-- An open tag starts with a `<`. -/
theorem Reads.head?_openTag (hl : Reads mode l rest next) (hkind : l.kind = .openTag) :
    l.text.toList.head? = some '<' := by
  obtain ⟨rfl, _⟩ := hl.openTag hkind
  obtain ⟨c, taken, htext, hstep⟩ := hl
  have hread : (htmlStep c (taken ++ rest)).kind = .openTag :=
    (congrArg Step.kind hstep).trans hkind
  have htag : atPhpTag (c :: (taken ++ rest)) = true := by
    unfold htmlStep at hread
    split at hread
    · cases hread
    split at hread
    · assumption
    · cases hread
  rw [atPhpTag_cons, Bool.and_eq_true, beq_iff_eq] at htag
  rw [htext, List.head?_cons, eq_of_toLower_eq htag.1]

/-- An open tag in front of a line break has taken a blank or another line break already. -/
theorem Reads.of_openTag (hl : Reads mode l rest next) (hkind : l.kind = .openTag)
    (hbreak : 0 < lineBreakLength rest) (rest' : List Char) : Reads mode l rest' .code := by
  obtain ⟨_, _, tag, gap, _, _, hgap, hsame⟩ := hl.openTag hkind
  refine hsame rest' (tagGap_closed hgap ?_ rest')
  rintro rfl
  obtain ⟨x, behind, rfl, hx⟩ := exists_of_lineBreakLength hbreak
  have hblank : ∀ c ∈ ['\n', '\r'], c ≠ ' ' ∧ c ≠ '\t' := by decide
  rw [List.nil_append, tagGap_of_ne (hblank x hx), List.length_nil] at hgap
  omega

/-- Marks stand in code. -/
theorem Reads.code_of_isMark (hl : Reads mode l rest next) (hkind : l.kind.isMark = true) :
    mode = .code := by
  have hmarks : ∀ k ∈ [Kind.openTagEcho, .openTag, .inlineHtml], k.isMark = false := by decide
  rcases hl.code_or with hcode | hcomment | ⟨_, hmem⟩
  · exact hcode
  · cases hk : l.kind <;> simp_all [Kind.isMark, Kind.isComment]
  · rw [hmarks _ hmem] at hkind
    cases hkind

/-- A lexeme of one of the marks is that mark, wherever it stands. -/
theorem Reads.of_mark (hl : Reads mode l rest next) (hkind : l.kind.isMark = true) :
    (∃ z ∈ marks, l.text.toList = [z]) ∧ ∀ rest', Reads mode l rest' .code := by
  obtain rfl := hl.code_of_isMark hkind
  obtain ⟨c, taken, htext, hstep⟩ := hl
  have hspells := Mode.step_spells .code c (taken ++ rest)
  rw [hstep] at hspells
  simp only [List.take_left] at hspells
  obtain ⟨z, hz, hone⟩ := hspells.mark hkind
  obtain ⟨rfl, rfl⟩ := List.cons_eq_cons.mp hone
  refine ⟨⟨c, hz, htext⟩, fun rest' => ⟨c, [], htext, ?_⟩⟩
  have hkind : (codeStep c []).kind = l.kind :=
    (congrArg Step.kind (codeStep_of_mark hz rest)).symm.trans (congrArg Step.kind hstep)
  rw [Mode.step, List.nil_append, codeStep_of_mark hz, hkind, List.length_nil]

/-- Whitespace stands in code and takes as many characters as can be taken. -/
theorem Reads.whitespace (hl : Reads mode l rest next) (hkind : l.kind = .whitespace) :
    mode = .code ∧ next = .code ∧
      whitespaceLength (l.text.toList ++ rest) = l.text.toList.length := by
  obtain ⟨c, taken, htext, hstep⟩ := hl
  have hread : (mode.step c (taken ++ rest)).kind = .whitespace :=
    (congrArg Step.kind hstep).trans hkind
  obtain rfl := code_of_whitespace hread
  have hblank := isBlank_of_whitespace hread
  have hpos := whitespaceLength_pos hblank (taken ++ rest)
  rw [Mode.step, codeStep_of_isBlank hblank, Step.mk.injEq] at hstep
  refine ⟨rfl, hstep.2.2.symm, ?_⟩
  rw [htext, List.cons_append, List.length_cons]
  omega

/-- Whitespace is read as one lexeme if it goes no further than the lexeme. -/
theorem reads_of_whitespaceLength (hkind : l.kind = .whitespace) (hne : l.text.toList ≠ [])
    (h : whitespaceLength (l.text.toList ++ rest) = l.text.toList.length) :
    Reads .code l rest .code := by
  obtain ⟨c, taken, htext⟩ := List.exists_cons_of_ne_nil hne
  rw [htext, List.cons_append, List.length_cons] at h
  have hblank : isBlank c = true ∨ c = '\n' := by
    by_contra hnot
    obtain ⟨hblank, hbreak⟩ := not_or.mp hnot
    rw [whitespaceLength, if_neg hbreak, if_neg hblank] at h
    omega
  refine ⟨c, taken, htext, ?_⟩
  rw [Mode.step, codeStep_of_isBlank hblank, h, hkind]
  rfl

/-- What follows whitespace on its line is no whitespace, so in front of a break it has one
itself. -/
theorem Reads.of_whitespace (hl : Reads mode l rest next) (hkind : l.kind = .whitespace)
    (hbreak : 0 < lineBreakLength rest) :
    (∃ w, l.text.toList = w ++ ['\n']) ∧ ∀ rest', Reads mode l rest' .code := by
  obtain ⟨x, behind, rfl, hx⟩ := exists_of_lineBreakLength hbreak
  obtain ⟨rfl, rfl, hlength⟩ := hl.whitespace hkind
  obtain ⟨⟨w, hw⟩, hsame⟩ := whitespaceLength_closed hx hlength
  exact ⟨⟨w, hw⟩, fun rest' => reads_of_whitespaceLength hkind (by simp [hw]) (hsame rest')⟩

/-- The tag that closes a documentation comment is read in front of everything. -/
theorem Reads.of_docClose (hl : Reads mode l rest .code) (hkind : l.kind = .docClose)
    (rest' : List Char) : l.text.toList = ['*', '/'] ∧ Reads mode l rest' .code := by
  have hmode : mode.inDoc = true := by
    obtain ⟨c, taken, _, hstep⟩ := hl
    rw [← (mode.step_tracks c (taken ++ rest)).1, hstep, hkind]
    rfl
  have htext := hl.exists_slash hmode rfl
  refine ⟨htext, '*', ['/'], htext, ?_⟩
  rw [hkind]
  cases mode with
  | html => cases hmode
  | code => cases hmode
  | blockComment => cases hmode
  | docComment lineStart => rfl
  | docTail => rfl

/-- A comment behind a hash is read in front of everything if it stops in front of a break. -/
theorem Reads.of_hash {taken : List Char} (htext : l.text.toList = '#' :: taken)
    (hstep : codeStep '#' (taken ++ rest) = ⟨.comment, taken.length, next⟩)
    (hkind : l.kind = .comment) (hbreak : 0 < lineBreakLength rest) :
    (∃ w, l.text.toList = w ++ ['\n']) ∧ ∀ rest', Reads .code l rest' .code := by
  have hhash (behind : List Char) : codeStep '#' behind =
      if at? "[" behind then ⟨.attribute, 1, .code⟩
      else ⟨.comment, lineCommentLength behind, .code⟩ := rfl
  obtain ⟨x, behind, rfl, hx⟩ := exists_of_lineBreakLength hbreak
  have hne : ∀ c ∈ ['\n', '\r'], c ≠ '?' := by decide
  rw [hhash] at hstep
  split at hstep
  · cases congrArg Step.kind hstep
  rename_i hattribute
  obtain ⟨⟨w, rfl⟩, hsame⟩ := lineCommentLength_closed (hne x hx) (congrArg Step.extra hstep)
  refine ⟨⟨'#' :: w, htext⟩, fun rest' => ⟨'#', _, htext, ?_⟩⟩
  have hattribute' : ¬ at? "[" (w ++ ['\n'] ++ rest') = true := by
    cases w with
    | nil => simp [at?]
    | cons d w => exact hattribute
  rw [Mode.step, hhash, if_neg hattribute', hsame, hkind]

/-- A comment behind a slash is read in front of everything if it stops in front of a break. -/
theorem Reads.of_slash {taken : List Char} (htext : l.text.toList = '/' :: taken)
    (hstep : slashStep (taken ++ rest) = ⟨.comment, taken.length, .code⟩)
    (hkind : l.kind = .comment) (hbreak : 0 < lineBreakLength rest) :
    (∃ w z, l.text.toList = w ++ [z] ∧ z ∈ ['\n', '/']) ∧ ∀ rest', Reads .code l rest' .code := by
  obtain ⟨x, behind, rfl, hx⟩ := exists_of_lineBreakLength hbreak
  have hne : ∀ c ∈ ['\n', '\r'], c ≠ '?' := by decide
  have hcode (behind : List Char) : Mode.code.step '/' behind = slashStep behind := rfl
  rcases slashStep_comment (congrArg Step.kind hstep) with
    ⟨hline, hhead⟩ | ⟨body, hbody, hdoc, hblock⟩
  · rw [hline] at hstep
    obtain ⟨⟨w, rfl⟩, hsame⟩ := lineCommentLength_closed (hne x hx) (congrArg Step.extra hstep)
    refine ⟨⟨'/' :: w, '\n', htext, by simp⟩, fun rest' => ⟨'/', _, htext, ?_⟩⟩
    have hslash (behind : List Char) (h : behind.head? = some '/') :
        slashStep behind = ⟨.comment, lineCommentLength behind, .code⟩ := by
      obtain ⟨_, rfl⟩ := List.head?_eq_some_iff.mp h
      rfl
    have hhead' : (w ++ ['\n'] ++ rest').head? = some '/' := by
      cases w with
      | nil => cases hhead
      | cons d w => exact hhead
    rw [hcode, hslash _ hhead', hsame, hkind]
  · rw [hblock, Step.mk.injEq] at hstep
    obtain ⟨_, hextra, hnext⟩ := hstep
    obtain ⟨t, rfl⟩ : ∃ t, taken = '*' :: t := by
      cases taken with
      | nil => simp at hextra
      | cons d t => exact ⟨t, by rw [(List.cons_eq_cons.mp hbody).1]⟩
    obtain rfl : t ++ x :: behind = body := (List.cons_eq_cons.mp hbody).2
    obtain ⟨⟨w, rfl⟩, hsame⟩ := blockLine_closed (Prod.ext (by simpa using hextra) hnext)
    refine ⟨⟨'/' :: '*' :: w, '/', htext, by simp⟩, fun rest' => ⟨'/', _, htext, ?_⟩⟩
    have hdoc' : opensDoc (w ++ ['/'] ++ rest') = false := by
      match w with
      | [] => rfl
      | [d] => simp [opensDoc_cons, isBlank]
      | d :: e :: w => exact hdoc
    rw [hcode, List.cons_append, slashStep_star, hdoc', if_neg (by simp), hsame, hkind]
    rfl

/-- A comment on one line, or the last line of a comment, is read in front of everything if it stops
in front of a break. -/
theorem Reads.of_comment (hl : Reads mode l rest .code) (hkind : l.kind = .comment)
    (hbreak : 0 < lineBreakLength rest) :
    (∃ w z, l.text.toList = w ++ [z] ∧ z ∈ ['\n', '/']) ∧ ∀ rest', Reads mode l rest' .code := by
  have hl' := hl
  obtain ⟨c, taken, htext, hstep⟩ := hl
  rw [hkind] at hstep
  cases mode with
  | html =>
    have hmem := htmlStep_kind c (taken ++ rest)
    rw [Mode.step] at hstep
    rw [hstep] at hmem
    simp at hmem
  | code =>
    have hcomment : (codeStep c (taken ++ rest)).kind.isComment = true := by
      rw [Mode.step] at hstep
      rw [hstep]
      rfl
    rcases start_of_isComment_codeStep c _ hcomment with rfl | rfl
    · obtain ⟨⟨w, hw⟩, hsame⟩ := Reads.of_hash htext hstep hkind hbreak
      exact ⟨⟨w, '\n', hw, by simp⟩, hsame⟩
    · exact Reads.of_slash htext hstep hkind hbreak
  | blockComment =>
    have hpos := blockLine_pos c (taken ++ rest)
    simp only [Mode.step, Step.mk.injEq] at hstep
    have hline : blockLine (c :: taken ++ rest) = ((c :: taken).length, .code) := by
      rw [List.cons_append, List.length_cons]
      exact Prod.ext (by dsimp only; omega) hstep.2.2
    obtain ⟨⟨w, hw⟩, hsame⟩ := blockLine_closed hline
    refine ⟨⟨w, '/', htext.trans hw, by simp⟩, fun rest' => ⟨c, taken, htext, ?_⟩⟩
    have hrest := hsame rest'
    rw [List.cons_append, List.length_cons] at hrest
    rw [Mode.step, hrest, hkind]
    rfl
  | docComment lineStart =>
    have hpart := (docStep_tracks lineStart c (taken ++ rest)).1
    rw [Mode.step] at hstep
    rw [hstep] at hpart
    cases hpart
  | docTail =>
    have hpart := (docTailStep_tracks c (taken ++ rest)).1
    rw [Mode.step] at hstep
    rw [hstep] at hpart
    cases hpart

/-- A lexeme that ends by itself in front of a break is read in front of everything, and its last
character is a bound. -/
theorem Reads.of_isClosed (hl : Reads mode l rest .code) (hclosed : isClosed l = true)
    (hbreak : 0 < lineBreakLength rest) :
    (∃ w z, l.text.toList = w ++ [z] ∧ z ∈ '\n' :: '/' :: marks) ∧
      ∀ rest', Reads mode l rest' .code := by
  simp only [isClosed, Bool.or_eq_true, Bool.and_eq_true, beq_iff_eq] at hclosed
  rcases hclosed with (((hmark | hcomment) | hdoc) | hblank) | ⟨htag, hlast⟩
  · obtain ⟨⟨z, hz, htext⟩, hsame⟩ := hl.of_mark hmark
    exact ⟨⟨[], z, htext, List.mem_cons_of_mem _ (List.mem_cons_of_mem _ hz)⟩, hsame⟩
  · obtain ⟨⟨w, z, htext, hz⟩, hsame⟩ := hl.of_comment hcomment hbreak
    have hends : ∀ c ∈ ['\n', '/'], c ∈ '\n' :: '/' :: marks := by decide
    exact ⟨⟨w, z, htext, hends z hz⟩, hsame⟩
  · have htext := (hl.of_docClose hdoc rest).1
    exact ⟨⟨['*'], '/', htext, by simp⟩, fun rest' => (hl.of_docClose hdoc rest').2⟩
  · obtain ⟨⟨w, htext⟩, hsame⟩ := hl.of_whitespace hblank hbreak
    exact ⟨⟨w, '\n', htext, by simp⟩, hsame⟩
  · obtain ⟨w, htext⟩ := List.getLast?_eq_some_iff.mp hlast
    exact ⟨⟨w, '\n', htext, by simp⟩, hl.of_openTag htag hbreak⟩

/-- Whitespace that is a line break and nothing else. -/
def IsBreak (l : Lexeme) : Prop := l.kind = .whitespace ∧ (l.text = "\n" ∨ l.text = "\r\n")

/-- A line break lexeme starts with a line break. -/
theorem IsBreak.lineBreakLength_pos (h : IsBreak l) (rest : List Char) :
    0 < lineBreakLength (l.text.toList ++ rest) := by
  rcases h.2 with htext | htext
  · rw [htext]
    exact Nat.one_pos
  · rw [htext]
    exact Nat.two_pos

/-- A break can be taken out behind the open tag of the file, behind what ends by itself, and in
front of a mark: all else is read as before. -/
theorem lexFrom_erase {pre post : List Lexeme} {q w : Lexeme} {text : List Char}
    (hlex : lexFrom mode text = pre ++ q :: w :: post) (hw : IsBreak w)
    (hapart : pre = [] ∧ q.kind = .openTag ∨ isClosed q = true ∨
      post.head?.any (·.kind.isMark) = true) :
    lexFrom mode (letters (pre ++ q :: post)) = pre ++ q :: post := by
  have hname : ∀ c ∈ ['n', 'N'], c ∉ '\n' :: '/' :: marks ∧ c ∉ ['\n', '\r'] := by decide
  have hsplit (ks : List Lexeme) : pre ++ q :: ks = pre ++ [q] ++ ks := by simp
  rw [hsplit] at hlex
  obtain ⟨between, _, hpre, hbehind⟩ := exists_readsAll hlex
  obtain ⟨next, _, hbreak, hpost⟩ := exists_reads hbehind
  obtain ⟨rfl, rfl, _⟩ := hbreak.whitespace hw.1
  have hpos := hw.lineBreakLength_pos (letters post)
  suffices hread : ReadsAll mode (pre ++ [q]) (letters post) .code by
    rw [hsplit, letters_append, hread.lexFrom_append, hpost]
  obtain ⟨first, hall, hq⟩ := hpre.of_append
  have hone : Reads first q (letters (w :: post)) .code := by
    cases hq with
    | cons hq hnil =>
      cases hnil
      exact hq
  rcases hapart with ⟨rfl, htag⟩ | hclosed | hmark
  · cases hall
    exact .singleton (hone.of_openTag htag hpos _)
  · obtain ⟨⟨a, z, htext, hz⟩, hsame⟩ := hone.of_isClosed hclosed hpos
    refine .append ?_ (.singleton (hsame _))
    rw [letters_cons, letters_nil, List.append_nil, htext, List.append_assoc] at hall ⊢
    exact hall.bound (.same hz) (absurd rfl) fun hx => absurd hz (hname z hx).1
  · cases post with
    | nil => cases hmark
    | cons n post =>
      obtain ⟨_, _, hn, _⟩ := exists_reads hpost
      obtain ⟨⟨y, hy, hmark⟩, _⟩ := hn.of_mark hmark
      obtain ⟨x, behind, hx, hmem⟩ := exists_of_lineBreakLength hpos
      rw [letters_cons, hx] at hpre
      rw [letters_cons, hmark]
      exact hpre.bound (u := []) (.join (List.mem_append_left _ hmem) hy) (fun _ => rfl) fun hx =>
        absurd hmem (hname x hx).2

/-! ### Breaking a line -/

/-- Words are read in code only. -/
theorem Reads.code_of_isWord (hl : Reads mode l rest next) (hword : isWord l = true) :
    mode = .code := by
  obtain ⟨c, taken, htext, hstep⟩ := hl
  suffices hread : isWord ⟨(mode.step c (taken ++ rest)).kind,
      String.ofList (c :: (taken ++ rest).take (mode.step c (taken ++ rest)).extra)⟩ = true from
    (Php.code_of_isWord hread).1
  rw [hstep, List.take_left, ← htext, String.ofList_toList]
  exact hword

/-- A line break lexeme is read as one in code, whatever follows. -/
theorem IsBreak.reads {w : Lexeme} (hw : IsBreak w) (rest : List Char) :
    Reads .code w rest .code := by
  obtain ⟨hkind, htext | htext⟩ := hw
  · exact ⟨'\n', [], congrArg String.toList htext, by rw [hkind]; rfl⟩
  · exact ⟨'\r', ['\n'], congrArg String.toList htext, by rw [hkind]; rfl⟩

/-- Line break lexemes are read one by one in code. -/
theorem IsBreak.readsAll {w : Lexeme} (hw : IsBreak w) (n : Nat) (rest : List Char) :
    ReadsAll .code (List.replicate n w) rest .code := by
  induction n with
  | zero => exact .nil _ _
  | succ n ih => exact .cons (hw.reads _) ih

/-- A break has one of two characters first; if that is the line feed, it is the whole break. -/
theorem IsBreak.exists_head {w : Lexeme} (hw : IsBreak w) : ∃ y ws, y ∈ ['\n', '\r'] ∧
    w.text.toList = y :: ws ∧ (y = '\n' → w.text = "\n") := by
  rcases hw.2 with htext | htext
  · exact ⟨'\n', [], by simp, congrArg String.toList htext, fun _ => htext⟩
  · exact ⟨'\r', ['\n'], by simp, congrArg String.toList htext, by simp⟩

/-- What is read in front of an `n` is read in front of a break too, save for whitespace without a
break in the end, which goes on to that. -/
theorem ReadsAll.exists_break {pre : List Lexeme} {w : Lexeme} {x : Char} {behind : List Char}
    (hpre : ReadsAll .html pre (x :: behind) .code) (hx : x ∈ ['n', 'N']) (hw : IsBreak w)
    (hopen : ∀ q ∈ pre.getLast?, q.kind = .openTag → q.text.length ≠ 5)
    (hreturn : ∀ front q blank, pre = front ++ [q, blank] → blank.text = "\r" → w.text = "\n" →
      q.kind = .openTag → q.text.length ≠ 5) (rest : List Char) :
    ∃ front old new, pre = front ++ old ∧ (∀ b ∈ old ++ new, b.kind = .whitespace) ∧
      letters old ++ w.text.toList = letters new ∧
      ReadsAll .html front (letters new ++ rest) .code ∧ ReadsAll .code new rest .code := by
  obtain ⟨y, ws, hy, hws, hyw⟩ := hw.exists_head
  have hbound : Bounds x y := .split hx hy
  have hbreak (front : List Lexeme) (hfront : ReadsAll .html front (y :: (ws ++ rest)) .code) :
      ReadsAll .html front (letters [w] ++ rest) .code ∧ ReadsAll .code [w] rest .code := by
    refine ⟨?_, .singleton (hw.reads rest)⟩
    rwa [letters_cons, letters_nil, List.append_nil, hws, List.cons_append]
  rcases List.eq_nil_or_concat pre with rfl | ⟨front, q, rfl⟩
  · cases hpre
  rw [List.concat_eq_append] at hpre hopen hreturn ⊢
  by_cases hkind : q.kind = .whitespace
  case neg =>
    refine ⟨front ++ [q], [], [w], by simp, by simp [hw.1], by simp, hbreak _ ?_⟩
    refine hpre.bound (u := []) hbound (fun _ => rfl) fun _ l hl => ?_
    obtain rfl : q = l := by simpa using hl
    exact ⟨fun _ => hkind, fun _ => hopen q (by simp)⟩
  obtain ⟨first, hfront, hq⟩ := hpre.of_append
  have hqread : Reads first q (x :: behind) .code := by
    cases hq with
    | cons hq hnil =>
      cases hnil
      exact hq
  obtain ⟨rfl, _, hlength⟩ := hqread.whitespace hkind
  have hne : q.text.toList ≠ [] := by
    obtain ⟨c, taken, htext, _⟩ := hqread
    simp [htext]
  rw [letters_cons, letters_nil, List.append_nil] at hfront
  rcases whitespaceLength_cases hlength with ⟨⟨a, ha⟩, hsame⟩ | hblank
  · refine ⟨front ++ [q], [], [w], by simp, by simp [hw.1], by simp, hbreak _ ?_⟩
    refine .append ?_ (.singleton (reads_of_whitespaceLength hkind hne (hsame _)))
    rw [letters_cons, letters_nil, List.append_nil]
    rw [ha, List.append_assoc] at hfront ⊢
    exact hfront.bound (.same (by simp)) (absurd rfl) fun hx => absurd hx (by decide)
  · have htext : letters [⟨Kind.whitespace, q.text ++ w.text⟩] = q.text.toList ++
        w.text.toList := by
      simp
    refine ⟨front, [q], [⟨.whitespace, q.text ++ w.text⟩], rfl, by simp [hkind], by simp, ?_, ?_⟩
    · rw [htext, hws, List.append_assoc]
      refine hfront.bound hbound (fun _ => rfl) fun _ l hl => ⟨fun hnil => absurd hnil hne, ?_⟩
      rintro (hnil | ⟨hone, rfl⟩) htag
      · exact absurd hnil hne
      · obtain ⟨front, rfl⟩ := List.getLast?_eq_some_iff.mp hl
        exact hreturn front l q (by simp) (String.toList_inj.mp hone) (hyw rfl) htag
    · refine .singleton (reads_of_whitespaceLength rfl (by simp [hne]) ?_)
      have hown : whitespaceLength (w.text.toList ++ rest) = w.text.toList.length :=
        ((hw.reads rest).whitespace hw.1).2.2
      rw [String.toList_append, List.append_assoc, whitespaceLength_append hblank, hown,
        List.length_append]

/-- A line can be broken in front of a word that starts with an `n`: whitespace in front of it that
has no break yet goes on to the first, and all else is read as before. This fails where the first
break would become part of an open tag, right behind it or behind a carriage return. -/
theorem lexFrom_insert {pre post : List Lexeme} {n w : Lexeme} {text : List Char}
    (hlex : lexFrom .html text = pre ++ n :: post) (hn : isWord n = true)
    (hname : ∃ x ∈ ['n', 'N'], ∃ cs, n.text.toList = x :: cs) (hw : IsBreak w)
    (hopen : ∀ q ∈ pre.getLast?, q.kind = .openTag → q.text.length ≠ 5)
    (hreturn : ∀ front q blank, pre = front ++ [q, blank] → blank.text = "\r" → w.text = "\n" →
      q.kind = .openTag → q.text.length ≠ 5) (k : Nat) :
    ∃ front old new, pre = front ++ old ∧ (∀ b ∈ old ++ new, b.kind = .whitespace) ∧
      lexFrom .html (letters pre ++ letters (List.replicate (k + 1) w) ++ letters (n :: post)) =
        front ++ new ++ n :: post := by
  obtain ⟨x, hx, cs, hcs⟩ := hname
  obtain ⟨next, _, hpre, hpost⟩ := exists_readsAll hlex
  obtain ⟨_, _, hreads, _⟩ := exists_reads hpost
  obtain rfl := hreads.code_of_isWord hn
  rw [letters_cons, hcs, List.cons_append] at hpre
  obtain ⟨front, old, new, rfl, hblank, hnew, hfront, hnewRead⟩ :=
    hpre.exists_break hx hw hopen hreturn (letters (List.replicate k w) ++ letters (n :: post))
  refine ⟨front, old, new ++ List.replicate k w, rfl, fun b hb => ?_, ?_⟩
  · rcases List.mem_append.mp hb with hb | hb
    · exact hblank b (List.mem_append_left _ hb)
    rcases List.mem_append.mp hb with hb | hb
    · exact hblank b (List.mem_append_right _ hb)
    · rw [List.eq_of_mem_replicate hb]
      exact hw.1
  · have hall :=
      ((hfront.append hnewRead).append (hw.readsAll k (letters (n :: post)))).lexFrom_append
    rw [hpost] at hall
    rw [← List.append_assoc front, ← hall]
    congr 1
    simp only [letters_append, List.replicate_succ, letters_cons w, ← hnew, List.append_assoc]

end PhpStyle.Php
