import PhpStyle.Proofs.Php.Readers

/-!
# The cursor takes the steps of the modes

`Cuts` says what a cursor cuts off on its way: lexemes that are not empty and that make up all
characters it passes. `Follows` says that these are the lexemes which the steps of the modes give.
Both hold of each reader of a lexeme and of each loop around them, and so of the whole lexer: it
goes to the end of the source, and gives what `lexFrom` gives.
-/

namespace PhpStyle.Php

open Lexer

namespace Cursor

variable {source : String} {b c d e : Cursor source} {mode next last : Mode}

/-- On its way from `c` to `d` the cursor cuts off the lexemes `ls`: it emits them behind what it
had emitted, none of them is empty, and together they are all that it has passed. -/
structure Cuts (c : Cursor source) (ls : List Lexeme) (d : Cursor source) : Prop where
  emitted : d.emitted.toList = c.emitted.toList ++ ls
  spells : c.ahead = ls.flatMap (·.text.toList) ++ d.ahead
  text_ne_empty : ∀ l ∈ ls, l.text ≠ ""

/-- From `c` in one mode to `d` in another, the cursor cuts off the lexemes that the steps of the
modes give. -/
def Follows (mode : Mode) (c : Cursor source) (next : Mode) (d : Cursor source) : Prop :=
  ∃ ls, c.Cuts ls d ∧ lexFrom mode c.ahead = ls ++ lexFrom next d.ahead

section Basics

/-- A cursor that has not moved has cut nothing off. -/
theorem Cuts.refl (c : Cursor source) : c.Cuts [] c where
  emitted := by simp
  spells := by simp
  text_ne_empty := by simp

/-- What is cut off in two goes is cut off one behind the other. -/
theorem Cuts.trans {ls ms : List Lexeme} (h : c.Cuts ls d) (h' : d.Cuts ms e) :
    c.Cuts (ls ++ ms) e where
  emitted := by rw [h'.emitted, h.emitted, List.append_assoc]
  spells := by rw [h.spells, h'.spells, List.flatMap_append, List.append_assoc]
  text_ne_empty := fun l hl => (List.mem_append.mp hl).elim (h.text_ne_empty l) (h'.text_ne_empty l)

/-- A reader that has read something cuts it off as one lexeme. -/
theorem cuts_emit_pass {n : Nat} (kind : Kind) (hn : 0 < n) (h : c.ahead ≠ []) :
    c.Cuts [⟨kind, String.ofList (c.ahead.take n)⟩] ((c.pass n).emit kind c.position) where
  emitted := by rw [emit_pass kind hn h, Array.toList_push]
  spells := by simp
  text_ne_empty := by
    intro l hl
    rw [List.mem_singleton.mp hl, ne_eq, String.ofList_eq_empty_iff, List.take_eq_nil_iff]
    exact not_or.mpr ⟨by omega, h⟩

/-- Without a step, modes that say the same can stand for one another. -/
theorem Follows.stay (h : lexFrom mode c.ahead = lexFrom next c.ahead) :
    Follows mode c next c :=
  ⟨[], Cuts.refl c, h⟩

/-- What follows the modes in two goes follows them. -/
theorem Follows.trans (h : Follows mode c next d) (h' : Follows next d last e) :
    Follows mode c last e := by
  obtain ⟨ls, hcuts, hlex⟩ := h
  obtain ⟨ms, hcuts', hlex'⟩ := h'
  exact ⟨ls ++ ms, hcuts.trans hcuts', by rw [hlex, hlex', List.append_assoc]⟩

/-- Of no text no mode reads anything. -/
theorem lexFrom_nil (mode : Mode) : lexFrom mode [] = [] := by
  rw [lexFrom]

/-- At the end of the source no mode says anything. -/
theorem Follows.at_end (h : Follows mode c next d) (hend : d.ahead = []) :
    Follows mode c last d :=
  h.trans (.stay (by rw [hend, lexFrom_nil, lexFrom_nil]))

/-- A reader that reads what a step measures, and emits it, takes the step. -/
theorem follows_step {s : Step} {n : Nat} {ch : Char} {rest : List Char} (h : c.ahead = ch :: rest)
    (hstep : mode.step ch rest = s) (hn : s.extra + 1 = n) :
    Follows mode c s.next ((c.pass n).emit s.kind c.position) := by
  subst hstep hn
  refine ⟨_, cuts_emit_pass _ (Nat.succ_pos _) (by simp [h]), ?_⟩
  rw [ahead_emit, ahead_pass, h, lexFrom]
  rfl

/-- Emitting a token leaves the cursor where it stands. -/
@[simp] theorem position_emit (c : Cursor source) (kind : Kind) (start : Nat) :
    (c.emit kind start).position = c.position := by
  unfold emit
  split <;> rfl

end Basics

section OutsidePhp

/-- A line of text outside PHP is cut off as measured. -/
theorem follows_htmlLine {n : Nat} (hc : c = b.pass n) (hlength : htmlLength b.ahead = n) :
    Follows .html b .html (c.emit .inlineHtml b.position) := by
  subst hc
  cases n with
  | zero =>
    rw [pass, emit_self]
    exact .stay rfl
  | succ n =>
    cases hahead : b.ahead with
    | nil => simp [hahead, htmlLength] at hlength
    | cons ch rest =>
      rw [hahead, htmlLength] at hlength
      have hopen : ¬ atOpenTag (ch :: rest) = true := by
        intro hopen
        rw [if_pos hopen] at hlength
        omega
      rw [if_neg hopen] at hlength
      rw [atOpenTag, Bool.or_eq_true, not_or] at hopen
      have hstep : Mode.html.step ch rest =
          ⟨.inlineHtml, if ch = '\n' then 0 else htmlLength rest, .html⟩ := by
        rw [Mode.step, htmlStep, if_neg hopen.1, if_neg hopen.2]
      refine follows_step hahead hstep ?_
      dsimp only
      rw [← hlength]
      split <;> rfl

/-- The lines of text outside PHP are cut off as measured, the first from where it began. -/
theorem follows_lexHtmlLines {n : Nat} (hc : c = b.pass n)
    (hlength : htmlLength b.ahead = n + htmlLength c.ahead) :
    Follows .html b .html (c.lexHtmlLines b.position) := by
  generalize hstart : b.position = start
  fun_induction lexHtmlLines start c generalizing b n with
  | case1 start c h hopen =>
    obtain ⟨ch, rest, hahead⟩ := List.exists_cons_of_ne_nil (position_lt_iff.mp h)
    rw [hahead] at hopen hlength
    rw [htmlLength, if_pos hopen] at hlength
    exact hstart ▸ follows_htmlLine hc hlength
  | case2 start c h hopen hbreak ih =>
    rw [ahead_eq_cons hbreak] at hopen hlength
    rw [htmlLength, if_neg hopen, if_pos rfl] at hlength
    have hline : Follows .html b .html (c.advance.emit .inlineHtml start) :=
      hstart ▸ follows_htmlLine (by rw [hc, pass_succ]) hlength
    exact hline.trans (ih (n := 0) rfl (Nat.zero_add _).symm (position_emit _ _ _))
  | case3 start c h hopen hbreak ih =>
    obtain ⟨ch, rest, hahead⟩ := List.exists_cons_of_ne_nil (position_lt_iff.mp h)
    have hpeek := peek_eq_some hahead
    rw [ahead_eq_cons hpeek] at hopen hlength
    rw [htmlLength, if_neg hopen, if_neg (fun hch : ch = '\n' => hbreak (hch ▸ hpeek))] at hlength
    exact ih (n := n + 1) (by rw [hc, pass_succ]) (by omega) hstart
  | case4 start c h =>
    rw [Classical.not_not.mp fun hne => h (position_lt_iff.mpr hne)] at hlength
    exact hstart ▸ follows_htmlLine hc hlength

/-- Text outside PHP is read up to an open tag or to the end. -/
theorem lexHtmlLines_stops (start : Nat) (c : Cursor source) :
    (c.lexHtmlLines start).ahead = [] ∨ atOpenTag (c.lexHtmlLines start).ahead = true := by
  fun_induction lexHtmlLines start c with
  | case1 start c h hopen => exact .inr (by rwa [ahead_emit])
  | case2 start c h hopen hbreak ih => exact ih
  | case3 start c h hopen hbreak ih => exact ih
  | case4 start c h =>
    rw [ahead_emit]
    exact .inl (Classical.not_not.mp fun hne => h (position_lt_iff.mpr hne))

/-- The line break that a tag takes with it. -/
theorem skipLineBreak_eq (c : Cursor source) :
    (if c.at? "\r\n" then c.skip 2 else c.skipNewline) = c.pass (lineBreakLength c.ahead) := by
  cases hahead : c.ahead with
  | nil =>
    have hpeek : c.peek ≠ some '\n' := by simp [peek, hahead]
    have hat : ¬ c.at? "\r\n" = true := fun h => ahead_ne_nil_of_at? h (by decide) hahead
    rw [if_neg hat, skipNewline, if_neg hpeek]
    rfl
  | cons ch rest =>
    rw [lineBreakLength_cons]
    by_cases hreturn : c.at? "\r\n" = true
    · have hskip : c.skip 2 = c.pass 2 := skip_of_at? hreturn
      rw [at?, hahead, at?_return_iff] at hreturn
      have hbreak : ch ≠ '\n' := by
        rintro rfl
        exact absurd hreturn.1 (by decide)
      rw [if_pos (by rw [at?, hahead, at?_return_iff]; exact hreturn), hskip, if_neg hbreak,
        if_pos hreturn]
    · rw [if_neg hreturn, skipNewline, peek_eq_some hahead]
      rw [at?, hahead, at?_return_iff] at hreturn
      rw [if_neg hreturn]
      by_cases hbreak : ch = '\n'
      · rw [if_pos (congrArg some hbreak), if_pos hbreak]
        rfl
      · rw [if_neg (by simpa using hbreak), if_neg hbreak]
        rfl

/-- Skipping the blank behind a tag passes its gap. -/
theorem skipTagBlank_eq (c : Cursor source) : c.skipTagBlank = c.pass (tagGap c.ahead) := by
  have hbreak := skipLineBreak_eq c
  unfold skipTagBlank
  cases hahead : c.ahead with
  | nil =>
    have hat : ¬ c.at? "\r\n" = true := fun h => ahead_ne_nil_of_at? h (by decide) hahead
    rw [if_neg hat, peek, hahead, List.head?_nil, if_neg (by simp)]
    rfl
  | cons ch rest =>
    rw [peek_eq_some hahead]
    by_cases hblank : ch = ' ' ∨ ch = '\t'
    · have hat : ¬ c.at? "\r\n" = true := by
        rw [at?, hahead, at?_return_iff]
        rintro ⟨rfl, -⟩
        revert hblank
        decide
      rw [if_neg hat, if_pos (by simpa [← or_assoc] using .inl hblank)]
      rcases hblank with rfl | rfl <;> rfl
    · rw [hahead] at hbreak
      rw [tagGap_of_ne (not_or.mp hblank), ← hbreak, skipNewline, peek_eq_some hahead]
      simp only [Option.some.injEq, ← or_assoc, hblank, false_or]

/-- Letters of either case take as many bytes. -/
theorem utf8Size_toLower (c : Char) : c.toLower.utf8Size = c.utf8Size := by
  unfold Char.toLower
  split
  · rename_i h
    have hrange : 65 ≤ c.val.toNat ∧ c.val.toNat ≤ 90 := by
      simpa [UInt32.le_iff_toNat_le] using h
    have hlower : (c.val + ('a'.val - 'A'.val)).toNat ≤ 127 := by
      rw [UInt32.toNat_add, show ('a'.val - 'A'.val).toNat = 32 from rfl]
      omega
    rw [Char.utf8Size_eq_one_iff.mpr (UInt32.le_iff_toNat_le.mpr hlower),
      Char.utf8Size_eq_one_iff.mpr (UInt32.le_iff_toNat_le.mpr (Nat.le_trans hrange.2 (by decide)))]
  · rfl

/-- Letters in lower case take as many bytes as before. -/
theorem utf8Len_map_toLower (cs : List Char) :
    String.utf8Len (cs.map Char.toLower) = String.utf8Len cs := by
  induction cs with
  | nil => rfl
  | cons c cs ih =>
    rw [List.map_cons, String.utf8Len_cons, String.utf8Len_cons, ih, utf8Size_toLower]

/-- The tag `<?php` takes five bytes. -/
theorem skip_of_atPhpTag (h : atPhpTag c.ahead = true) : c.skip 5 = c.pass 5 := by
  have htag : (c.ahead.take 5).map Char.toLower = "<?php".toList := beq_iff_eq.mp h
  have hlength : (c.ahead.take 5).length = 5 := by
    rw [← List.length_map (f := Char.toLower), htag]
    rfl
  have hsize : String.utf8Len (c.ahead.take 5) = 5 := by
    rw [← utf8Len_map_toLower, htag]
    rfl
  have hskip := skip_eq _ (List.take_append_drop 5 c.ahead).symm
  rwa [hsize, hlength] at hskip

/-- An open tag is cut off as measured. -/
theorem follows_lexOpenTag (h : atOpenTag c.ahead = true) : Follows .html c .code c.lexOpenTag := by
  unfold lexOpenTag
  obtain ⟨ch, rest, hahead⟩ : ∃ ch rest, c.ahead = ch :: rest := by
    refine List.exists_cons_of_ne_nil fun hnil => ?_
    rw [hnil] at h
    exact absurd h (by decide)
  split
  · rename_i hecho
    have hskip : c.skip 3 = c.pass 3 := skip_of_at? hecho
    rw [at?, hahead] at hecho
    rw [hskip]
    refine follows_step hahead (s := ⟨.openTagEcho, 2, .code⟩) ?_ rfl
    rw [Mode.step, htmlStep, if_pos hecho]
  split
  · rename_i hecho htag
    have hskip := skip_of_atPhpTag htag
    rw [at?, hahead] at hecho
    rw [hahead] at htag
    rw [hskip, skipTagBlank_eq, pass_pass, ahead_pass, hahead, List.drop_succ_cons]
    have hstep : Mode.html.step ch rest = ⟨.openTag, 4 + tagGap (rest.drop 4), .code⟩ := by
      rw [Mode.step, htmlStep, if_neg hecho, if_pos htag]
    exact follows_step hahead hstep (by dsimp only; omega)
  · rename_i hecho htag
    rw [atOpenTag, Bool.or_eq_true] at h
    exact absurd h (not_or.mpr ⟨hecho, htag⟩)

/-- Text outside PHP, and the open tag behind it, are cut off as measured. -/
theorem follows_lexInlineHtml (c : Cursor source) : Follows .html c .code c.lexInlineHtml := by
  have hlines : Follows .html c .html (c.lexHtmlLines c.position) :=
    follows_lexHtmlLines (n := 0) rfl (Nat.zero_add _).symm
  rcases lexHtmlLines_stops c.position c with hend | hopen
  · have hstays : c.lexInlineHtml = c.lexHtmlLines c.position := by
      rw [lexInlineHtml, lexOpenTag, if_neg, if_neg]
      · rw [hend]
        decide
      · exact fun h => ahead_ne_nil_of_at? h (by decide) hend
    rw [hstays]
    exact hlines.at_end hend
  · exact hlines.trans (follows_lexOpenTag hopen)

/-- A close tag is cut off as measured. -/
theorem follows_lexCloseTag (h : c.at? "?>" = true) : Follows .code c .html c.lexCloseTag := by
  obtain ⟨ch, rest, hahead⟩ := List.exists_cons_of_ne_nil (ahead_ne_nil_of_at? h)
  have hskip : c.skip 2 = c.pass 2 := skip_of_at? h
  have hstep : Mode.code.step ch rest = ⟨.closeTag, 1 + lineBreakLength (rest.drop 1), .html⟩ := by
    rw [at?, hahead] at h
    rw [Mode.step, codeStep, if_pos h]
  rw [lexCloseTag, skipLineBreak_eq, hskip, pass_pass, ahead_pass, hahead, List.drop_succ_cons]
  refine follows_step hahead hstep ?_
  dsimp only
  omega

end OutsidePhp

section Comments

/-- A comment that ends with its line is cut off as measured. -/
theorem follows_lexLineComment {ch : Char} {rest : List Char} (h : c.ahead = ch :: rest)
    (hclose : ¬ c.at? "?>" = true) (hbreak : ch ≠ '\n')
    (hstep : Mode.code.step ch rest = ⟨.comment, lineCommentLength rest, .code⟩) :
    Follows .code c .code c.lexLineComment := by
  rw [lexLineComment, passLineComment_eq]
  refine follows_step h hstep ?_
  rw [at?, h] at hclose
  rw [h, lineCommentLength, if_neg hclose, if_neg hbreak]

/-- A line of a comment is cut off as its mode measures it. -/
theorem follows_commentLine {m : Nat} (hc : c = b.pass (m + 1)) (hne : b.ahead ≠ [])
    (hstep : ∀ ch rest, b.ahead = ch :: rest → mode.step ch rest = ⟨.comment, m, next⟩) :
    Follows mode b next (c.emit .comment b.position) := by
  obtain ⟨ch, rest, hahead⟩ := List.exists_cons_of_ne_nil hne
  exact hc ▸ follows_step hahead (hstep ch rest hahead) rfl

/-- A cursor with characters ahead behind others has characters ahead in front of these. -/
theorem ahead_ne_nil_of_pass {n : Nat} (hc : c = b.pass n) (h : c.ahead ≠ []) : b.ahead ≠ [] := by
  rintro hnil
  rw [hc, ahead_pass, hnil, List.drop_nil] at h
  exact h rfl

/-- The lines of a comment are cut off as measured, the first from where it began and as the mode
there measures it. -/
theorem follows_lexCommentLines {n : Nat} (hc : c = b.pass n)
    (hstep : ∀ ch rest m, b.ahead = ch :: rest → n + (blockLine c.ahead).1 = m + 1 →
      mode.step ch rest = ⟨.comment, m, (blockLine c.ahead).2⟩) :
    Follows mode b .code (c.lexCommentLines b.position) := by
  generalize hstart : b.position = start
  fun_induction lexCommentLines start c generalizing b n mode with
  | case1 start c h hclose =>
    have hne := ahead_ne_nil_of_pass hc (position_lt_iff.mp h)
    have hskip : c.skip 2 = c.pass 2 := skip_of_at? hclose
    obtain ⟨rest, hahead⟩ := ahead_of_at? hclose
    have hline : blockLine c.ahead = (2, .code) := by rw [hahead]; rfl
    rw [hline] at hstep
    rw [hskip, ← hstart]
    exact follows_commentLine (m := n + 1) (by rw [hc, pass_pass]) hne
      fun ch rest hb => hstep ch rest _ hb rfl
  | case2 start c h hclose hbreak ih =>
    have hne := ahead_ne_nil_of_pass hc (position_lt_iff.mp h)
    have hline : blockLine c.ahead = (1, .blockComment) := by rw [ahead_eq_cons hbreak]; rfl
    rw [hline] at hstep
    have hfirst : Follows mode b .blockComment (c.advance.emit .comment start) :=
      hstart ▸ follows_commentLine (m := n) (by rw [hc, pass_succ]) hne
        fun ch rest hb => hstep ch rest _ hb rfl
    refine hfirst.trans (ih (n := 0) rfl ?_ (position_emit _ _ _))
    intro ch rest m hahead hm
    have hmode : Mode.blockComment.step ch rest =
        ⟨.comment, (blockLine (ch :: rest)).1 - 1, (blockLine (ch :: rest)).2⟩ := rfl
    rw [hahead, Nat.zero_add] at hm
    rw [hahead, hmode, hm]
    rfl
  | case3 start c h hclose hbreak ih =>
    obtain ⟨ch, rest, hahead⟩ := List.exists_cons_of_ne_nil (position_lt_iff.mp h)
    have hpeek := peek_eq_some hahead
    have hline : blockLine c.ahead =
        ((blockLine c.advance.ahead).1 + 1, (blockLine c.advance.ahead).2) := by
      rw [at?, ahead_eq_cons hpeek, at?_close_iff] at hclose
      refine (congrArg blockLine (ahead_eq_cons hpeek)).trans (blockLine_cons ?_ hclose)
      exact fun hch => hbreak (hch ▸ hpeek)
    rw [hline] at hstep
    exact ih (n := n + 1) (by rw [hc, pass_succ])
      (fun ch rest m hb hm => hstep ch rest m hb (by omega)) hstart
  | case4 start c h =>
    have hend : c.ahead = [] := Classical.not_not.mp fun hne => h (position_lt_iff.mpr hne)
    by_cases hnil : b.ahead = []
    · obtain rfl : c = b := hc.trans (pass_of_ahead_nil hnil n)
      rw [← hstart, emit_self]
      exact (Follows.stay rfl).at_end hend
    cases n with
    | zero =>
      obtain rfl : c = b := hc
      exact absurd hend hnil
    | succ n =>
      rw [hend] at hstep
      have hline := follows_commentLine hc hnil fun ch rest hb => hstep ch rest n hb rfl
      exact hstart ▸ hline.at_end (by rw [ahead_emit, hend])

/-- A comment between marks is cut off as measured. -/
theorem follows_lexBlockComment {body : List Char} (h : c.ahead = '/' :: '*' :: body)
    (hstep : Mode.code.step '/' ('*' :: body) =
      ⟨.comment, (blockLine body).1 + 1, (blockLine body).2⟩) :
    Follows .code c .code c.lexBlockComment := by
  have hskip : c.skip 2 = c.pass 2 := skip_eq ['/', '*'] h
  have hbody : (c.pass 2).ahead = body := by rw [ahead_pass, h]; rfl
  rw [lexBlockComment, hskip]
  refine follows_lexCommentLines rfl fun ch rest m hahead hm => ?_
  obtain ⟨rfl, rfl⟩ := List.cons_eq_cons.mp (hahead.symm.trans h)
  obtain rfl : m = (blockLine body).1 + 1 := by rw [hbody] at hm; omega
  rw [hbody]
  exact hstep

end Comments

section DocComments

/-- Behind the visible text of a line, with nothing left of it, the comment goes on as elsewhere. -/
theorem lexFrom_docTail {text : List Char} (h : docLine text = []) :
    lexFrom .docTail text = lexFrom (.docComment false) text := by
  cases text with
  | nil => rw [lexFrom_nil, lexFrom_nil]
  | cons ch rest =>
    have hstep : Mode.docTail.step ch rest = (Mode.docComment false).step ch rest := by
      rw [Mode.step, Mode.step, docTailStep, h]
    rw [lexFrom, lexFrom, hstep]

/-- The blanks behind the visible text of a line are cut off as measured, if there are any. -/
theorem follows_docBlanks (hblank : ∀ ch ∈ docLine c.ahead, isBlank ch = true) :
    Follows .docTail c (.docComment false)
      ((c.pass (docLine c.ahead).length).emit .docWhitespace c.position) := by
  cases hline : docLine c.ahead with
  | nil =>
    rw [List.length_nil, pass, emit_self]
    exact .stay (lexFrom_docTail hline)
  | cons ch blanks =>
    obtain ⟨d, rest, hahead⟩ : ∃ d rest, c.ahead = d :: rest := by
      refine List.exists_cons_of_ne_nil fun hnil => ?_
      rw [hnil] at hline
      cases hline
    obtain rfl : d = ch := by
      rw [hahead, docLine_cons] at hline
      split at hline
      · cases hline
      · exact (List.cons_eq_cons.mp hline).1
    have hd : isBlank d = true := hblank d (by simp [hline])
    have hstep : Mode.docTail.step d rest = ⟨.docWhitespace, blanks.length, .docComment false⟩ := by
      rw [hahead] at hline
      rw [Mode.step, docTailStep, hline]
      exact if_pos hd
    exact follows_step hahead hstep rfl

/-- Text of a documentation comment is cut off as measured, with the blanks at the end of its
line. -/
theorem follows_lexDocString {ch : Char} {rest : List Char} (h : c.ahead = ch :: rest)
    (hstep : mode.step ch rest = ⟨.docText, visibleLength (docLine rest), .docTail⟩)
    (hline : docLine (ch :: rest) = ch :: docLine rest) (hblank : ¬ isBlank ch = true) :
    Follows mode c (.docComment false) c.lexDocString := by
  have hvisible : visibleLength (docLine c.ahead) = visibleLength (docLine rest) + 1 := by
    rw [h, hline, visibleLength, if_neg (by simp [hblank])]
  have htext : Follows mode c .docTail c.passVisible := follows_step h hstep hvisible.symm
  -- what is left of the line behind its visible text are blanks
  have hsplit := List.take_append_drop (visibleLength (docLine c.ahead)) c.ahead
  have hle := visibleLength_le (docLine c.ahead)
  have hlength : (c.ahead.take (visibleLength (docLine c.ahead))).length =
      visibleLength (docLine c.ahead) :=
    List.length_take_of_le (Nat.le_trans hle (length_docLine_le _))
  have hahead : c.passVisible.ahead = c.ahead.drop (visibleLength (docLine c.ahead)) := by
    rw [passVisible, ahead_emit, ahead_pass]
  have hrest : docLine c.ahead =
      c.ahead.take (visibleLength (docLine c.ahead)) ++ docLine c.passVisible.ahead := by
    have happend := docLine_append (a := c.ahead.take (visibleLength (docLine c.ahead)))
      (b := c.ahead.drop (visibleLength (docLine c.ahead))) (by rwa [hsplit, hlength])
    rwa [hsplit, ← hahead] at happend
  have hblanks : ∀ d ∈ docLine c.passVisible.ahead, isBlank d = true := by
    refine isBlank_of_visibleLength (a := c.ahead.take (visibleLength (docLine c.ahead))) ?_
    rw [hahead, hsplit, hlength]
  have hcount : (docLine c.ahead).length - visibleLength (docLine c.ahead) =
      (docLine c.passVisible.ahead).length := by
    have hall := congrArg List.length hrest
    rw [List.length_append, hlength] at hall
    omega
  rw [lexDocString_eq (by omega), hcount]
  exact htext.trans (follows_docBlanks hblanks)

/-- Every part of a documentation comment is cut off as measured. -/
theorem follows_lexDocPart (lineStart : Bool) {ch : Char} {rest : List Char}
    (h : c.ahead = ch :: rest) (hclose : ¬ c.at? "*/" = true) :
    Follows (.docComment lineStart) c (.docComment (c.lexDocPart lineStart).2)
      (c.lexDocPart lineStart).1 := by
  have hnot : ¬ Lexer.at? "*/" (ch :: rest) = true := by rwa [at?, h] at hclose
  have hreturns : c.at? "\r\n" = true ↔ ch = '\r' ∧ rest.head? = some '\n' := by
    rw [at?, h, at?_return_iff]
  -- the step, behind the test for the end of the comment
  have hstep : (Mode.docComment lineStart).step ch rest = docStep lineStart ch rest := rfl
  rw [docStep, if_neg hnot, lineBreakLength_cons] at hstep
  rw [lexDocPart, peek_eq_some h]
  dsimp only
  by_cases hbreak : ch = '\n'
  · rw [if_pos hbreak] at hstep ⊢
    exact follows_step h hstep rfl
  rw [if_neg hbreak] at hstep ⊢
  by_cases hreturn : ch = '\r' ∧ rest.head? = some '\n'
  · have hskip : c.skip 2 = c.pass 2 := skip_of_at? (hreturns.mpr hreturn)
    rw [if_pos hreturn] at hstep
    rw [if_pos (hreturns.mpr hreturn), hskip]
    exact follows_step h hstep rfl
  rw [if_neg hreturn] at hstep
  rw [if_neg fun hat => hreturn (hreturns.mp hat)]
  by_cases hblank : isBlank ch = true
  · dsimp only at hstep
    rw [if_pos hblank] at hstep ⊢
    rw [advanceWhile_eq]
    refine follows_step h hstep ?_
    rw [h, run, if_pos hblank]
  dsimp only at hstep
  rw [if_neg hblank] at hstep ⊢
  by_cases hstar : ch = '*' ∧ lineStart = true
  · rw [if_pos (by simpa using hstar)] at hstep
    rw [if_pos hstar]
    exact follows_step h hstep rfl
  rw [if_neg (by simpa using hstar)] at hstep
  rw [if_neg hstar, peekAt_succ h, List.drop_zero]
  by_cases htag : ch = '@' ∧ rest.head?.any startsTag = true
  · rw [if_pos (by simpa using htag)] at hstep
    rw [if_pos htag, advanceWhile_eq, ahead_advance, h, List.tail_cons]
    exact follows_step h hstep rfl
  rw [if_neg (by simpa using htag)] at hstep
  rw [if_neg htag]
  rw [at?_close_iff] at hnot
  refine follows_lexDocString h hstep ?_ hblank
  rw [docLine_cons, if_neg]
  rintro (hends | hends | hends)
  · exact hbreak hends
  · exact hreturn hends
  · exact hnot hends

/-- A documentation comment is cut off as measured, part by part. -/
theorem follows_lexDocBody (lineStart : Bool) (c : Cursor source) :
    Follows (.docComment lineStart) c .code (c.lexDocBody lineStart) := by
  fun_induction lexDocBody lineStart c with
  | case1 lineStart c h => exact (Follows.stay rfl).at_end h
  | case2 lineStart c h hclose =>
    obtain ⟨ch, rest, hahead⟩ := List.exists_cons_of_ne_nil h
    have hskip : c.skip 2 = c.pass 2 := skip_of_at? hclose
    have hstep : (Mode.docComment lineStart).step ch rest = ⟨.docClose, 1, .code⟩ := by
      rw [at?, hahead] at hclose
      rw [Mode.step, docStep, if_pos hclose]
    rw [hskip]
    exact follows_step hahead hstep rfl
  | case3 lineStart c h hclose ih =>
    obtain ⟨ch, rest, hahead⟩ := List.exists_cons_of_ne_nil h
    exact (follows_lexDocPart lineStart hahead hclose).trans ih

/-- A documentation comment is cut off as measured, from its opening on. -/
theorem follows_lexDocComment {ch : Char} {rest : List Char} (h : c.ahead = ch :: rest)
    (hat : c.at? "/**" = true)
    (hstep : Mode.code.step ch rest = ⟨.docOpen, 2, .docComment false⟩) :
    Follows .code c .code c.lexDocComment := by
  have hskip : c.skip 3 = c.pass 3 := skip_of_at? hat
  have hopen : Follows .code c (.docComment false) ((c.skip 3).emit .docOpen c.position) := by
    rw [hskip]
    exact follows_step h hstep rfl
  exact hopen.trans (follows_lexDocBody false _)

end DocComments

section Code

variable {ch : Char} {rest : List Char}

/-- A reader that starts behind an opening character reads that one too. -/
theorem follows_behind {n : Nat} {kind : Kind} (h : c.ahead = ch :: rest)
    (hstep : Mode.code.step ch rest = ⟨kind, n, .code⟩) :
    Follows .code c .code ((c.advance.pass n).emit kind c.position) :=
  follows_step h hstep rfl

/-- One step on, what is ahead is what stands behind the first character. -/
theorem ahead_advance_of_cons (h : c.ahead = ch :: rest) : c.advance.ahead = rest := by
  rw [ahead_advance, h, List.tail_cons]

/-- Reading whitespace follows the step that takes its measure. -/
theorem follows_lexWhitespace (h : c.ahead = ch :: rest) (hblank : isBlank ch = true ∨ ch = '\n')
    (hstep : Mode.code.step ch rest = ⟨.whitespace, whitespaceLength (ch :: rest) - 1, .code⟩) :
    Follows .code c .code c.lexWhitespace := by
  have hpos := whitespaceLength_pos hblank rest
  rw [lexWhitespace_eq, h]
  exact follows_step h hstep (by dsimp only; omega)

/-- Reading a variable follows the step that takes the run of its name. -/
theorem follows_lexVariable (h : c.ahead = ch :: rest)
    (hstep : Mode.code.step ch rest = ⟨.variable, run continuesWord rest, .code⟩) :
    Follows .code c .code c.lexVariable := by
  rw [lexVariable, advanceWhile_eq, ahead_advance_of_cons h]
  exact follows_behind h hstep

/-- Reading a string in single quotes follows the step that takes its measure. -/
theorem follows_lexSingleQuoted (h : c.ahead = ch :: rest)
    (hstep : Mode.code.step ch rest = ⟨.quotedString, quotedLength '\'' rest, .code⟩) :
    Follows .code c .code c.lexSingleQuoted := by
  rw [lexSingleQuoted, passQuoted_eq, ahead_advance_of_cons h]
  exact follows_behind h hstep

/-- Reading a command in backticks follows the step that takes its measure. -/
theorem follows_lexBacktick (h : c.ahead = ch :: rest)
    (hstep : Mode.code.step ch rest = ⟨.backtick, quotedLength '`' rest, .code⟩) :
    Follows .code c .code c.lexBacktick := by
  rw [lexBacktick, passQuoted_eq, ahead_advance_of_cons h]
  exact follows_behind h hstep

/-- Reading a string in double quotes follows the step that takes its measure under its kind. -/
theorem follows_lexDoubleQuoted (h : c.ahead = ch :: rest)
    (hstep : Mode.code.step ch rest =
      ⟨if interpolates rest then .interpolatedString else .quotedString, quotedLength '"' rest,
        .code⟩) :
    Follows .code c .code c.lexDoubleQuoted := by
  rw [lexDoubleQuoted, passDoubleQuoted_eq, ahead_advance_of_cons h, Bool.false_or]
  exact follows_behind h hstep

/-- A heredoc, or the operator in its place, is cut off as measured. -/
theorem follows_lexHeredoc (h : c.ahead = ch :: rest) (hat : c.at? "<<<" = true)
    (hstep : Mode.code.step ch rest = match heredocName (rest.drop 2) with
      | [] => ⟨.shiftLeft, 1, .code⟩
      | name => ⟨.heredoc, heredocLength name false rest, .code⟩) :
    Follows .code c .code c.lexHeredoc := by
  obtain ⟨behind, hahead⟩ := ahead_of_at? hat
  obtain rfl : ch = '<' := by
    have hhead := h.symm.trans hahead
    exact (List.cons_eq_cons.mp hhead).1
  have hname : c.ahead.drop 3 = rest.drop 2 := by rw [h, List.drop_succ_cons]
  rw [lexHeredoc, hname]
  split
  · rename_i hnone
    have hskip : c.skip 2 = c.pass 2 := skip_eq ['<', '<'] hahead
    rw [hnone] at hstep
    rw [hskip]
    exact follows_step h hstep rfl
  · rename_i name hsome
    have hmeasure : heredocLength (heredocName (rest.drop 2)) false c.ahead =
        heredocLength (heredocName (rest.drop 2)) false rest + 1 := by
      rw [h, heredocLength_cons]
      rfl
    have hheredoc : Mode.code.step '<' rest =
        ⟨.heredoc, heredocLength (heredocName (rest.drop 2)) false rest, .code⟩ := by
      rw [hstep]
      split
      · exact absurd ‹_› hsome
      · rfl
    rw [advanceLine_eq, passHeredoc_eq, pass_pass, ahead_pass, ← heredocLength_line, hmeasure]
    exact follows_step h hheredoc rfl

/-- A number is cut off as measured. That it reads something is why its measure is not zero. -/
theorem follows_lexNumber (h : c.ahead = ch :: rest)
    (hstarts : ch.isDigit = true ∨ ch = '.' ∧ (c.peekAt 1).any Char.isDigit = true)
    (hstep : Mode.code.step ch rest =
      ⟨(number (ch :: rest)).1, (number (ch :: rest)).2 - 1, .code⟩) :
    Follows .code c .code c.lexNumber := by
  have hlt := length_lexNumber_lt (peek_eq_some h) hstarts
  rw [lexNumber_eq, ahead_emit, ahead_pass, List.length_drop, h] at hlt
  rw [lexNumber_eq, h]
  exact follows_step h hstep (by dsimp only; omega)

/-- A word is cut off as measured, and with the kind of the word that was read. -/
theorem follows_lexWord (h : c.ahead = ch :: rest) (hstarts : startsWord ch = true)
    (hstep : Mode.code.step ch rest =
      ⟨wordKind (ch :: rest.take (run continuesWord rest)), run continuesWord rest, .code⟩) :
    Follows .code c .code c.lexWord := by
  have hrun : run continuesWord c.ahead = run continuesWord rest + 1 := by
    rw [h, run, if_pos (continuesWord_of_startsWord hstarts)]
  rw [lexWord, advanceWhile_eq, hrun, slice_pass, String.toList_ofList, h, List.take_succ_cons]
  exact follows_step h hstep rfl

/-- An operator is cut off as measured, and so is a character that means nothing. -/
theorem follows_lexOperator (h : c.ahead = ch :: rest)
    (hstep : Mode.code.step ch rest = operatorStep (ch :: rest)) :
    Follows .code c .code c.lexOperator := by
  rw [operatorStep, ← h] at hstep
  unfold lexOperator
  split
  · rename_i op kind hfound
    have hat : c.at? op = true := List.find?_some (p := fun o : String × Kind => c.at? o.1) hfound
    have hpos : 0 < op.utf8ByteSize := operators_ne_empty _ (List.mem_of_find?_eq_some hfound)
    have hlength : 0 < op.length := by
      rw [Nat.pos_iff_ne_zero, ne_eq, String.length_eq_zero_iff]
      intro hempty
      rw [hempty] at hpos
      exact absurd hpos (by decide)
    change (operators.find? fun o => Lexer.at? o.1 c.ahead) = _ at hfound
    rw [hfound] at hstep
    rw [skip_of_at? hat]
    exact follows_step h hstep (by dsimp only; omega)
  · rename_i hnone
    change (operators.find? fun o => Lexer.at? o.1 c.ahead) = _ at hnone
    rw [hnone] at hstep
    exact follows_step h hstep rfl

/-- Of two readers the one that is taken takes the step, if both are chosen by the same test. -/
theorem follows_ite {p q : Prop} [Decidable p] [Decidable q] {s s₁ s₂ : Step}
    {d₁ d₂ : Cursor source} (hpq : p ↔ q) (hs : s = if p then s₁ else s₂)
    (h₁ : q → s = s₁ → Follows mode c next d₁) (h₂ : ¬ q → s = s₂ → Follows mode c next d₂) :
    Follows mode c next (if q then d₁ else d₂) := by
  by_cases hq : q
  · rw [if_pos (hpq.mpr hq)] at hs
    rw [if_pos hq]
    exact h₁ hq hs
  · rw [if_neg fun hp => hq (hpq.mp hp)] at hs
    rw [if_neg hq]
    exact h₂ hq hs

/-- What starts with a hash is cut off as measured. -/
theorem follows_lexHash (h : c.ahead = '#' :: rest) (hclose : ¬ c.at? "?>" = true)
    (hstep : Mode.code.step '#' rest =
      if Lexer.at? "[" rest then ⟨.attribute, 1, .code⟩
      else ⟨.comment, lineCommentLength rest, .code⟩) :
    Follows .code c .code c.lexHash := by
  have htest : Lexer.at? "[" rest = true ↔ c.at? "#[" = true := by
    rw [at?, h]
    rfl
  refine follows_ite htest hstep (fun hat hstep => ?_) fun _ hstep => ?_
  · have hskip : c.skip 2 = c.pass 2 := skip_of_at? hat
    rw [hskip]
    exact follows_step h hstep rfl
  · exact follows_lexLineComment h hclose (by decide) hstep

/-- The two tests for a documentation comment agree. -/
theorem isDocComment_eq {body : List Char} (h : c.ahead = '/' :: '*' :: body) :
    (c.at? "/**" && c.isDocComment) =
      (Lexer.at? "*" body && (body.drop 1).head?.any fun c => isBlank c || c == '\n') := by
  rw [isDocComment, peekAt_succ h, at?, h]
  rfl

/-- What starts with a slash and a star is a documentation comment or a comment between marks. -/
theorem follows_slashStar {body : List Char} (h : c.ahead = '/' :: '*' :: body)
    (hstep : Mode.code.step '/' ('*' :: body) = slashStep ('*' :: body)) :
    Follows .code c .code c.lexSlash := by
  have hline : ¬ c.at? "//" = true := by
    rw [at?, h, at?_pair_iff (p := '/') (q := '/') rfl]
    simp
  have hblock : c.at? "/*" = true := by
    rw [at?, h, at?_pair_iff (p := '/') (q := '*') rfl]
    simp
  rw [lexSlash, if_neg hline]
  refine follows_ite (by rw [isDocComment_eq h]) hstep (fun hdoc hstep => ?_) fun _ hstep => ?_
  · rw [Bool.and_eq_true] at hdoc
    exact follows_lexDocComment h hdoc.1 hstep
  · rw [if_pos hblock]
    exact follows_lexBlockComment h hstep

/-- What starts with a slash is cut off as measured. -/
theorem follows_lexSlash (h : c.ahead = '/' :: rest) (hclose : ¬ c.at? "?>" = true)
    (hstep : Mode.code.step '/' rest = slashStep rest) : Follows .code c .code c.lexSlash := by
  by_cases hstar : rest.head? = some '*'
  · obtain ⟨body, rfl⟩ := List.head?_eq_some_iff.mp hstar
    exact follows_slashStar h hstep
  have hblock : ¬ c.at? "/*" = true := by
    rw [at?, h, at?_pair_iff (p := '/') (q := '*') rfl]
    simp [hstar]
  have hdoc : ¬ (c.at? "/**" && c.isDocComment) = true := by
    intro hdoc
    obtain ⟨behind, hahead⟩ := ahead_of_at? (Bool.and_eq_true_iff.mp hdoc).1
    obtain ⟨-, hrest⟩ := List.cons_eq_cons.mp (h.symm.trans hahead)
    exact hstar (by rw [hrest]; rfl)
  by_cases hslash : rest.head? = some '/'
  · obtain ⟨behind, rfl⟩ := List.head?_eq_some_iff.mp hslash
    have hline : c.at? "//" = true := by
      rw [at?, h, at?_pair_iff (p := '/') (q := '/') rfl]
      simp
    rw [lexSlash, if_pos hline]
    exact follows_lexLineComment h hclose (by decide) hstep
  · have hline : ¬ c.at? "//" = true := by
      rw [at?, h, at?_pair_iff (p := '/') (q := '/') rfl]
      simp [hslash]
    have hoperator : slashStep rest = operatorStep ('/' :: rest) := by
      unfold slashStep
      split
      · exact absurd rfl hslash
      · exact absurd rfl hstar
      · rfl
    rw [lexSlash, if_neg hline, if_neg hdoc, if_neg hblock]
    exact follows_lexOperator h (hstep.trans hoperator)

/-- What starts at the next character of code is cut off as measured. -/
theorem follows_lexToken (h : c.ahead ≠ []) (hclose : ¬ c.at? "?>" = true) :
    Follows .code c .code c.lexToken := by
  obtain ⟨ch, rest, hahead⟩ := List.exists_cons_of_ne_nil h
  have hnot : ¬ Lexer.at? "?>" (ch :: rest) = true := by rwa [at?, hahead] at hclose
  have hnext : c.peekAt 1 = rest.head? := by rw [peekAt_succ hahead, List.drop_zero]
  have hstep : Mode.code.step ch rest = codeStep ch rest := rfl
  rw [codeStep, if_neg hnot] at hstep
  rw [lexToken, peek_eq_some hahead]
  refine follows_ite Iff.rfl hstep (fun hblank hstep => ?_) fun _ hstep => ?_
  · exact follows_lexWhitespace hahead (by simpa using hblank) hstep
  refine follows_ite Iff.rfl hstep (fun hhash hstep => ?_) fun _ hstep => ?_
  · obtain rfl := beq_iff_eq.mp hhash
    exact follows_lexHash hahead hclose hstep
  refine follows_ite Iff.rfl hstep (fun hslash hstep => ?_) fun _ hstep => ?_
  · obtain rfl := beq_iff_eq.mp hslash
    exact follows_lexSlash hahead hclose hstep
  refine follows_ite (by rw [hnext]) hstep (fun _ hstep => follows_lexVariable hahead hstep)
    fun _ hstep => ?_
  refine follows_ite Iff.rfl hstep (fun hquote hstep => ?_) fun _ hstep => ?_
  · obtain rfl := beq_iff_eq.mp hquote
    exact follows_lexSingleQuoted hahead hstep
  refine follows_ite Iff.rfl hstep (fun hquote hstep => ?_) fun _ hstep => ?_
  · obtain rfl := beq_iff_eq.mp hquote
    exact follows_lexDoubleQuoted hahead hstep
  refine follows_ite Iff.rfl hstep (fun hquote hstep => ?_) fun _ hstep => ?_
  · obtain rfl := beq_iff_eq.mp hquote
    exact follows_lexBacktick hahead hstep
  refine follows_ite (by rw [at?, hahead]) hstep
    (fun hat hstep => follows_lexHeredoc hahead hat hstep) fun _ hstep => ?_
  refine follows_ite (by rw [hnext]) hstep (fun hstarts hstep => ?_) fun _ hstep => ?_
  · exact follows_lexNumber hahead (by simpa using hstarts) hstep
  exact follows_ite Iff.rfl hstep (fun hstarts hstep => follows_lexWord hahead hstarts hstep)
    fun _ hstep => follows_lexOperator hahead hstep

/-- Code is cut off as measured, up to and with a close tag. -/
theorem follows_lexPhp (c : Cursor source) : Follows .code c .html c.lexPhp := by
  fun_induction lexPhp c with
  | case1 c h => exact (Follows.stay rfl).at_end h
  | case2 c h hclose => exact follows_lexCloseTag hclose
  | case3 c h hclose ih => exact (follows_lexToken h hclose).trans ih

/-- The whole source is cut off as measured, and the cursor ends behind it. -/
theorem follows_lexAll (c : Cursor source) :
    Follows .html c .html c.lexAll ∧ c.lexAll.ahead = [] := by
  fun_induction lexAll c with
  | case1 c h ih =>
    exact ⟨((follows_lexInlineHtml c).trans (follows_lexPhp _)).trans ih.1, ih.2⟩
  | case2 c h => exact ⟨.stay rfl, Classical.not_not.mp fun hne => h (position_lt_iff.mpr hne)⟩

end Code

end Cursor

/-- The lexer gives the lexemes that the steps of the modes give. -/
theorem lex_eq_lexFrom (source : String) : lex source = lexFrom .html source.toList := by
  obtain ⟨⟨ls, hcuts, hlex⟩, hend⟩ := Cursor.follows_lexAll (Cursor.start source)
  have hemitted : lex source = ls := hcuts.emitted
  rw [hend, lexFrom, List.append_nil] at hlex
  rw [hemitted, ← hlex]
  rfl

end PhpStyle.Php
