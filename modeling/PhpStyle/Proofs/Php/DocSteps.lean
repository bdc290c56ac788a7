import PhpStyle.Proofs.Php.Patching

/-!
# Steps in documentation comments

What is read next in a documentation comment depends on little of the text behind it: a line break
on nothing, a blank, a star and a tag on the next character, a text on the rest of its line. There
is one way to read each of these, and nothing else is read.
-/

namespace PhpStyle.Php

open Lexer

namespace Lexer

variable {test : Char → Bool} {a b : List Char} {c : Char}

/-- A run ends behind characters if they pass the test and the next one does not. -/
theorem run_eq_length_iff :
    run test (a ++ b) = a.length ↔ (∀ c ∈ a, test c = true) ∧ b.head?.any test = false := by
  induction a with
  | nil =>
    cases b with
    | nil => simp [run]
    | cons d b => cases htest : test d <;> simp [run, htest]
  | cons d a ih =>
    rw [List.cons_append, run, List.length_cons, List.forall_mem_cons]
    split
    · rename_i htest
      rw [Nat.add_right_cancel_iff, ih]
      simp only [htest, true_and]
    · rename_i htest
      simp [htest]

/-- No line break starts where neither a line feed nor a carriage return with one behind it does. -/
theorem lineBreakLength_eq_zero_iff :
    lineBreakLength (c :: b) = 0 ↔ c ≠ '\n' ∧ ¬ (c = '\r' ∧ b.head? = some '\n') := by
  rw [lineBreakLength_cons]
  split
  · simp_all
  split
  · simp_all
  · simp_all

/-- A line break, with what belongs to it. -/
theorem eq_of_lineBreakLength {t : List Char} (h : lineBreakLength (c :: (t ++ b)) = t.length + 1) :
    c :: t = ['\n'] ∨ c :: t = ['\r', '\n'] := by
  rw [lineBreakLength_cons] at h
  split at h
  · rename_i hc
    obtain rfl : t = [] := List.length_eq_zero_iff.mp (by omega)
    exact .inl (by rw [hc])
  split at h
  · rename_i hreturn
    obtain ⟨d, rfl⟩ := List.length_eq_one_iff.mp (show t.length = 1 by omega)
    obtain rfl : d = '\n' := by simpa using hreturn.2
    exact .inr (by rw [hreturn.1])
  · omega

/-- Blanks do not break a line, unless a carriage return alone does with the line feed behind it. -/
theorem lineBreakLength_of_blank {t : List Char} (h : ∀ x ∈ c :: t, isBlank x = true)
    (hreturn : c :: t = ['\r'] → b.head? ≠ some '\n') : lineBreakLength (c :: (t ++ b)) = 0 := by
  obtain ⟨hc, ht⟩ := List.forall_mem_cons.mp h
  refine lineBreakLength_eq_zero_iff.mpr ⟨?_, ?_⟩
  · rintro rfl
    cases hc
  · rintro ⟨rfl, hhead⟩
    cases t with
    | nil => exact hreturn rfl hhead
    | cons d t =>
      obtain rfl : d = '\n' := by simpa using hhead
      cases (List.forall_mem_cons.mp ht).1

/-- Behind all of a line, the line has nothing more. -/
theorem docLine_eq_nil_of_append (h : docLine (a ++ b) = a) : docLine b = [] := by
  induction a with
  | nil => exact h
  | cons d a ih =>
    rw [List.cons_append, docLine_cons] at h
    split at h
    · cases h
    · exact ih (List.cons_eq_cons.mp h).2

/-- What is visible on a line to its end is so in front of other blanks, and in front of the end of
the line. -/
theorem visibleLength_docLine {b' : List Char} (h : visibleLength (docLine (a ++ b)) = a.length)
    (hblank : ∀ c ∈ docLine b', isBlank c = true) (hslash : b'.head? ≠ some '/') :
    visibleLength (docLine (a ++ b')) = a.length := by
  induction a with
  | nil => exact visibleLength_eq_zero_iff.mpr hblank
  | cons d a ih =>
    rw [List.cons_append, docLine_cons, List.length_cons] at h
    split at h
    · simp [visibleLength] at h
    rename_i hends
    rw [visibleLength] at h
    split at h
    · omega
    rename_i hvisible
    have hends' : ¬ (d = '\n' ∨ d = '\r' ∧ (a ++ b').head? = some '\n' ∨ d = '*' ∧
        (a ++ b').head? = some '/') := by
      cases a with
      | cons e a => exact hends
      | nil =>
        have hzero : visibleLength (docLine ([] ++ b)) = 0 := by simpa using h
        rintro (hfeed | ⟨rfl, _⟩ | ⟨_, hhead⟩)
        · exact hends (.inl hfeed)
        · exact hvisible (by rw [hzero]; rfl)
        · exact hslash hhead
    rw [List.cons_append, docLine_cons, if_neg hends', visibleLength, ih (by omega)]
    have hsame : visibleLength (docLine (a ++ b)) = a.length := by omega
    rw [hsame] at hvisible
    rw [if_neg hvisible, List.length_cons]

/-- Blanks are on a line to its end; only a carriage return may belong to that. -/
theorem docLine_of_blank (ha : ∀ c ∈ a, isBlank c = true) (hb : docLine b = [])
    (hreturn : a.getLast? = some '\r' → b.head? ≠ some '\n') : docLine (a ++ b) = a := by
  induction a with
  | nil => exact hb
  | cons d a ih =>
    obtain ⟨hd, htail⟩ := List.forall_mem_cons.mp ha
    have hrest : docLine (a ++ b) = a := by
      refine ih htail fun hlast => hreturn ?_
      rw [List.getLast?_cons, hlast]
      rfl
    have hgoes : ¬ (d = '\n' ∨ d = '\r' ∧ (a ++ b).head? = some '\n' ∨ d = '*' ∧
        (a ++ b).head? = some '/') := by
      rintro (rfl | ⟨rfl, hhead⟩ | ⟨rfl, _⟩)
      · cases hd
      · cases a with
        | nil => exact hreturn rfl hhead
        | cons e a =>
          obtain rfl : e = '\n' := by simpa using hhead
          have hfeed : isBlank '\n' = true := (List.forall_mem_cons.mp htail).1
          cases hfeed
      · cases hd
    rw [List.cons_append, docLine_cons, if_neg hgoes, hrest]

/-- A line of blanks ends before what is visible, so in front of that it breaks, or the comment is
closed. -/
theorem mem_of_docLine {u t : List Char} (hc : isBlank c = false)
    (hstar : c = '*' → (t ++ b).head? ≠ some '/')
    (hline : ∀ x ∈ docLine (u ++ c :: (t ++ b)), isBlank x = true) :
    '\n' ∈ u ++ c :: t ∨ '/' ∈ u ++ c :: t := by
  induction u with
  | nil =>
    rw [List.nil_append, docLine_cons] at hline
    split at hline
    · rename_i hends
      rcases hends with rfl | ⟨rfl, _⟩ | ⟨hstar', hhead⟩
      · exact .inl List.mem_cons_self
      · cases hc
      · exact absurd hhead (hstar hstar')
    · rw [hline c List.mem_cons_self] at hc
      cases hc
  | cons d u ih =>
    have hmem {x : Char} (hhead : (u ++ c :: (t ++ b)).head? = some x) : x ∈ u ++ c :: t := by
      cases u with
      | nil => simp_all
      | cons e u => simp_all
    rw [List.cons_append, docLine_cons] at hline
    split at hline
    · rename_i hends
      rcases hends with rfl | ⟨_, hhead⟩ | ⟨_, hhead⟩
      · exact .inl List.mem_cons_self
      · exact .inl (List.mem_cons_of_mem _ (hmem hhead))
      · exact .inr (List.mem_cons_of_mem _ (hmem hhead))
    · exact (ih fun x hx => hline x (List.mem_cons_of_mem _ hx)).imp (List.mem_cons_of_mem _)
        (List.mem_cons_of_mem _)

/-! ### The steps -/

variable {lineStart : Bool}

/-- A star in front of a slash closes the comment. -/
theorem docStep_close (h : b.head? = some '/') : docStep lineStart '*' b = ⟨.docClose, 1, .code⟩ :=
  if_pos (at?_close_iff.mpr ⟨rfl, h⟩)

/-- A line break is a blank that starts a line. -/
theorem docStep_break {n : Nat} (h : lineBreakLength (c :: b) = n + 1) :
    docStep lineStart c b = ⟨.docWhitespace, n, .docComment true⟩ := by
  have hclose : ¬ at? "*/" (c :: b) = true := by
    rw [at?_close_iff]
    rintro ⟨rfl, _⟩
    simp [lineBreakLength_cons] at h
  rw [docStep, if_neg hclose, h]

/-- Blanks are taken together, and leave it open whether the line has begun. -/
theorem docStep_blank (hblank : isBlank c = true) (hbreak : lineBreakLength (c :: b) = 0) :
    docStep lineStart c b = ⟨.docWhitespace, run isBlank b, .docComment lineStart⟩ := by
  have hclose : ¬ at? "*/" (c :: b) = true := by
    rw [at?_close_iff]
    rintro ⟨rfl, _⟩
    cases hblank
  rw [docStep, if_neg hclose, hbreak]
  exact if_pos hblank

/-- A star at the start of a line belongs to the layout. -/
theorem docStep_star (h : b.head? ≠ some '/') :
    docStep true '*' b = ⟨.docStar, 0, .docComment false⟩ := by
  have hclose : ¬ at? "*/" ('*' :: b) = true := by simpa [at?_close_iff] using h
  rw [docStep, if_neg hclose]
  rfl

/-- An `@` in front of a name starts a tag, which goes to the end of the name. -/
theorem docStep_tag (h : b.head?.any startsTag = true) :
    docStep lineStart '@' b = ⟨.docTag, run continuesTag b, .docComment false⟩ := by
  have hclose : ¬ at? "*/" ('@' :: b) = true := by simp [at?_close_iff]
  have hbreak : lineBreakLength ('@' :: b) = 0 := lineBreakLength_eq_zero_iff.mpr (by simp)
  have htag : ('@' == '@' && b.head?.any startsTag) = true := by simpa using h
  rw [docStep, if_neg hclose, hbreak]
  dsimp only
  rw [if_neg (by decide), if_neg (by simp), if_pos htag]

/-- What is no blank, star or tag starts a text, which goes to the last visible character of the
line. -/
theorem docStep_text (hvisible : isBlank c = false ∧ c ≠ '\n')
    (hstar : c = '*' → lineStart = false ∧ b.head? ≠ some '/')
    (htag : c = '@' → b.head?.any startsTag = false) :
    docStep lineStart c b = ⟨.docText, visibleLength (docLine b), .docTail⟩ := by
  have hclose : ¬ at? "*/" (c :: b) = true := by
    rw [at?_close_iff]
    exact fun h => (hstar h.1).2 h.2
  have hbreak : lineBreakLength (c :: b) = 0 := by
    refine lineBreakLength_eq_zero_iff.mpr ⟨hvisible.2, ?_⟩
    rintro ⟨rfl, _⟩
    cases hvisible.1
  rw [docStep, if_neg hclose, hbreak]
  dsimp only
  rw [if_neg (by simp [hvisible.1]), if_neg, if_neg]
  · rw [Bool.and_eq_true, beq_iff_eq]
    rintro ⟨hc, hstarts⟩
    rw [htag hc] at hstarts
    cases hstarts
  · rw [Bool.and_eq_true, beq_iff_eq]
    rintro ⟨hc, rfl⟩
    cases (hstar hc).1

end Lexer

/-- How the next lexeme of a documentation comment is read, in which mode, in front of what, and how
reading goes on behind it. -/
inductive DocReads : Mode → Lexeme → List Char → Mode → Prop
  | close {mode : Mode} {l : Lexeme} {rest : List Char} (hdoc : mode.inDoc = true)
      (hkind : l.kind = .docClose) (htext : l.text.toList = ['*', '/']) : DocReads mode l rest .code
  | break {mode : Mode} {l : Lexeme} {rest : List Char} (hdoc : mode.inDoc = true)
      (hkind : l.kind = .docWhitespace)
      (htext : l.text.toList = ['\n'] ∨ l.text.toList = ['\r', '\n']) :
      DocReads mode l rest (.docComment true)
  | blank {lineStart : Bool} {l : Lexeme} {rest : List Char} (hkind : l.kind = .docWhitespace)
      (hne : l.text.toList ≠ []) (hblank : ∀ c ∈ l.text.toList, isBlank c = true)
      (hrest : rest.head?.any isBlank = false) (hbreak : l.text.toList = ['\r'] →
        rest.head? ≠ some '\n') : DocReads (.docComment lineStart) l rest (.docComment lineStart)
  | tail {l : Lexeme} {rest : List Char} (hkind : l.kind = .docWhitespace) {c : Char}
      {t : List Char} (htext : l.text.toList = c :: t) (hblank : isBlank c = true)
      (hline : docLine (c :: (t ++ rest)) = c :: t) : DocReads .docTail l rest (.docComment false)
  | star {l : Lexeme} {rest : List Char} (hkind : l.kind = .docStar) (htext : l.text.toList = ['*'])
      (hrest : rest.head? ≠ some '/') : DocReads (.docComment true) l rest (.docComment false)
  | tag {mode : Mode} {l : Lexeme} {rest : List Char} (hdoc : mode.inDoc = true)
      (hkind : l.kind = .docTag) {c : Char} {t : List Char}
      (htext : l.text.toList = '@' :: c :: t) (hc : startsTag c = true)
      (ht : ∀ d ∈ t, continuesTag d = true) (hrest : rest.head?.any continuesTag = false) :
      DocReads mode l rest (.docComment false)
  | text {mode : Mode} {l : Lexeme} {rest : List Char} (hdoc : mode.inDoc = true)
      (hkind : l.kind = .docText) {c : Char} {t : List Char} (htext : l.text.toList = c :: t)
      (hvisible : isBlank c = false ∧ c ≠ '\n')
      (hstar : c = '*' → mode ≠ .docComment true ∧ (t ++ rest).head? ≠ some '/')
      (htag : c = '@' → (t ++ rest).head?.any startsTag = false)
      (hline : visibleLength (docLine (t ++ rest)) = t.length) : DocReads mode l rest .docTail

variable {mode between next : Mode} {l : Lexeme} {ls : List Lexeme} {rest : List Char}

/-- A character that can start a tag can go on with one. -/
theorem continuesTag_of_startsTag {c : Char} (h : startsTag c = true) : continuesTag c = true := by
  simp only [startsTag, continuesTag, Char.isAlphanum, Bool.or_eq_true] at h ⊢
  tauto

/-- A tag is read as one where its name starts with a character that can start it and ends with
it. -/
theorem docReads_of_tag {t : List Char} (hdoc : mode.inDoc = true) (hkind : l.kind = .docTag)
    (htext : l.text.toList = '@' :: t) (hstarts : (t ++ rest).head?.any startsTag = true)
    (hlength : run continuesTag (t ++ rest) = t.length) :
    DocReads mode l rest (.docComment false) := by
  obtain ⟨ht, hrest⟩ := run_eq_length_iff.mp hlength
  cases t with
  | nil =>
    cases rest with
    | nil => cases hstarts
    | cons d rest =>
      have hd : startsTag d = true := by simpa using hstarts
      simp [continuesTag_of_startsTag hd] at hrest
  | cons d t =>
    obtain ⟨_, ht⟩ := List.forall_mem_cons.mp ht
    exact .tag hdoc hkind htext (by simpa using hstarts) ht hrest

/-- A step of a documentation comment is one of these. -/
theorem docReads_of_docStep {lineStart : Bool} {c : Char} {t : List Char}
    (htext : l.text.toList = c :: t) (hmode : mode = .docComment lineStart ∨
      mode = .docTail ∧ lineStart = false ∧
      (isBlank c = true → 0 < lineBreakLength (c :: (t ++ rest))))
    (hstep : docStep lineStart c (t ++ rest) = ⟨l.kind, t.length, next⟩) :
    DocReads mode l rest next := by
  have hdoc : mode.inDoc = true := by
    rcases hmode with rfl | ⟨rfl, _⟩ <;> rfl
  by_cases hclose : c = '*' ∧ (t ++ rest).head? = some '/'
  · obtain ⟨rfl, hhead⟩ := hclose
    rw [docStep_close hhead, Step.mk.injEq] at hstep
    obtain ⟨hkind, hlength, rfl⟩ := hstep
    obtain ⟨d, rfl⟩ := List.length_eq_one_iff.mp hlength.symm
    obtain rfl : d = '/' := by simpa using hhead
    exact .close hdoc hkind.symm htext
  cases hbreak : lineBreakLength (c :: (t ++ rest)) with
  | succ n =>
    rw [docStep_break hbreak, Step.mk.injEq] at hstep
    obtain ⟨hkind, rfl, rfl⟩ := hstep
    exact .break hdoc hkind.symm (htext ▸ eq_of_lineBreakLength hbreak)
  | zero =>
    obtain ⟨hfeed, hreturn⟩ := lineBreakLength_eq_zero_iff.mp hbreak
    cases hblank : isBlank c with
    | true =>
      rw [docStep_blank hblank hbreak, Step.mk.injEq] at hstep
      obtain ⟨hkind, hextra, rfl⟩ := hstep
      obtain ⟨ht, hrest⟩ := run_eq_length_iff.mp hextra
      rcases hmode with rfl | ⟨_, _, hpos⟩
      · refine .blank hkind.symm (by simp [htext]) ?_ hrest fun hone hhead => hreturn ?_
        · rw [htext]
          exact List.forall_mem_cons.mpr ⟨hblank, ht⟩
        · obtain ⟨rfl, rfl⟩ := List.cons_eq_cons.mp (htext.symm.trans hone)
          exact ⟨rfl, hhead⟩
      · have := hpos hblank
        omega
    | false =>
      by_cases hstar : c = '*' ∧ lineStart = true
      · obtain ⟨rfl, rfl⟩ := hstar
        have hslash : (t ++ rest).head? ≠ some '/' := fun hhead => hclose ⟨rfl, hhead⟩
        rw [docStep_star hslash, Step.mk.injEq] at hstep
        obtain ⟨hkind, hextra, rfl⟩ := hstep
        obtain rfl : t = [] := List.length_eq_zero_iff.mp hextra.symm
        obtain rfl : mode = .docComment true := by simpa using hmode
        exact .star hkind.symm htext hslash
      by_cases htag : c = '@' ∧ (t ++ rest).head?.any startsTag = true
      · obtain ⟨rfl, hstarts⟩ := htag
        rw [docStep_tag hstarts, Step.mk.injEq] at hstep
        obtain ⟨hkind, hextra, rfl⟩ := hstep
        exact docReads_of_tag hdoc hkind.symm htext hstarts hextra
      · have hword : c = '*' → lineStart = false ∧ (t ++ rest).head? ≠ some '/' :=
          fun hc => ⟨Bool.eq_false_iff.mpr fun hstart => hstar ⟨hc, hstart⟩,
            fun hhead => hclose ⟨hc, hhead⟩⟩
        have hname : c = '@' → (t ++ rest).head?.any startsTag = false :=
          fun hc => Bool.eq_false_iff.mpr fun hstarts => htag ⟨hc, hstarts⟩
        rw [docStep_text ⟨hblank, hfeed⟩ hword hname, Step.mk.injEq] at hstep
        obtain ⟨hkind, hextra, rfl⟩ := hstep
        refine .text hdoc hkind.symm htext ⟨hblank, hfeed⟩
          (fun hc => ⟨?_, (hword hc).2⟩) hname hextra
        rintro rfl
        obtain rfl : true = lineStart := by simpa using hmode
        cases (hword hc).1

/-- What is read next in a documentation comment is one of these. -/
theorem Reads.docReads (hl : Reads mode l rest next) (hdoc : mode.inDoc = true) :
    DocReads mode l rest next := by
  obtain ⟨c, t, htext, hstep⟩ := hl
  cases mode with
  | html => cases hdoc
  | code => cases hdoc
  | blockComment => cases hdoc
  | docComment lineStart => exact docReads_of_docStep htext (.inl rfl) hstep
  | docTail =>
    rw [Mode.step] at hstep
    cases hblank : isBlank c with
    | false =>
      rw [docTailStep_of_not_isBlank hblank] at hstep
      exact docReads_of_docStep htext (.inr ⟨rfl, rfl, by simp [hblank]⟩) hstep
    | true =>
      unfold docTailStep at hstep
      split at hstep
      · rename_i d blanks hline
        rw [if_pos hblank, Step.mk.injEq] at hstep
        obtain ⟨hkind, hextra, rfl⟩ := hstep
        obtain ⟨behind, hsplit⟩ := docLine_prefix (c :: (t ++ rest))
        rw [hline] at hsplit
        obtain ⟨rfl, hbehind⟩ := List.cons_eq_cons.mp hsplit
        obtain ⟨rfl, _⟩ := List.append_inj hbehind hextra
        exact .tail hkind.symm htext hblank hline
      · rename_i hline
        refine docReads_of_docStep htext (.inr ⟨rfl, rfl, fun _ => ?_⟩) hstep
        rw [docLine_cons] at hline
        split at hline
        · rename_i hends
          have hstar : c ≠ '*' := by
            rintro rfl
            cases hblank
          rw [Nat.pos_iff_ne_zero, ne_eq, lineBreakLength_eq_zero_iff]
          tauto
        · cases hline

/-- Blanks that end a line apart, a documentation comment is read in one way, at the start of a line
or not. -/
theorem exists_docStep (hdoc : mode.inDoc = true) (c : Char) (rest : List Char)
    (hblank : isBlank c = false ∨ docLine (c :: rest) = []) : ∃ lineStart,
      (mode = .docComment lineStart ∨ mode = .docTail ∧ lineStart = false) ∧
        mode.step c rest = docStep lineStart c rest := by
  cases mode with
  | html => cases hdoc
  | code => cases hdoc
  | blockComment => cases hdoc
  | docComment lineStart => exact ⟨lineStart, .inl rfl, rfl⟩
  | docTail =>
    refine ⟨false, .inr ⟨rfl, rfl⟩, ?_⟩
    rcases hblank with hblank | hline
    · exact docTailStep_of_not_isBlank hblank
    · rw [Mode.step, docTailStep, hline]

/-- And what is one of these is read next. -/
theorem DocReads.reads (h : DocReads mode l rest next) : Reads mode l rest next := by
  cases h with
  | close hdoc hkind htext =>
    obtain ⟨lineStart, _, hstep⟩ := exists_docStep hdoc '*' ('/' :: rest) (.inl rfl)
    exact ⟨'*', ['/'], htext, by rw [hkind]; exact hstep⟩
  | «break» hdoc hkind htext =>
    rcases htext with htext | htext
    · obtain ⟨lineStart, _, hstep⟩ := exists_docStep hdoc '\n' rest (.inl rfl)
      exact ⟨'\n', [], htext, by rw [hkind]; exact hstep⟩
    · obtain ⟨lineStart, _, hstep⟩ := exists_docStep hdoc '\r' ('\n' :: rest) (.inr rfl)
      exact ⟨'\r', ['\n'], htext, by rw [hkind]; exact hstep⟩
  | blank hkind hne hblank hrest hbreak =>
    obtain ⟨c, t, htext⟩ := List.exists_cons_of_ne_nil hne
    rw [htext] at hblank hbreak
    obtain ⟨hc, ht⟩ := List.forall_mem_cons.mp hblank
    refine ⟨c, t, htext, ?_⟩
    rw [Mode.step, docStep_blank hc (lineBreakLength_of_blank hblank hbreak),
      run_eq_length_iff.mpr ⟨ht, hrest⟩, hkind]
  | tail hkind htext hblank hline =>
    refine ⟨_, _, htext, ?_⟩
    rw [Mode.step, docTailStep, hline]
    dsimp only
    rw [if_pos hblank, hkind]
  | star hkind htext hrest =>
    refine ⟨'*', [], htext, ?_⟩
    rw [List.nil_append, Mode.step, docStep_star hrest, hkind]
    rfl
  | @tag _ _ _ hdoc hkind c t htext hc ht hrest =>
    obtain ⟨lineStart, _, hstep⟩ := exists_docStep hdoc '@' (c :: t ++ rest) (.inl rfl)
    have hrun : run continuesTag (c :: t ++ rest) = (c :: t).length :=
      run_eq_length_iff.mpr ⟨List.forall_mem_cons.mpr ⟨continuesTag_of_startsTag hc, ht⟩, hrest⟩
    refine ⟨'@', c :: t, htext, hstep.trans ?_⟩
    rw [docStep_tag (by simpa using hc), hrun, hkind]
  | @text _ _ _ hdoc hkind c t htext hvisible hstar htag hline =>
    obtain ⟨lineStart, hmode, hstep⟩ := exists_docStep hdoc c (t ++ rest) (.inl hvisible.1)
    have hword : c = '*' → lineStart = false ∧ (t ++ rest).head? ≠ some '/' := by
      refine fun hc => ⟨Bool.eq_false_iff.mpr fun hstart => (hstar hc).1 ?_, (hstar hc).2⟩
      simpa [hstart] using hmode
    refine ⟨c, t, htext, hstep.trans ?_⟩
    rw [docStep_text hvisible hword htag, hline, hkind]

end PhpStyle.Php
