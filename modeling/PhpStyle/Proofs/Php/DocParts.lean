import PhpStyle.Proofs.Php.DocSteps

/-!
# Parts of documentation comments

In a documentation comment, lines of blanks and stars can be taken out, and behind the last part of
a comment the blanks can change, without the parts being read differently.
-/

namespace PhpStyle.Php

open Lexer

variable {mode between next : Mode} {l : Lexeme} {ls : List Lexeme} {rest : List Char}

/-! ### What is said and what is not -/

/-- Lexemes of a documentation comment that say nothing. -/
def Fills (l : Lexeme) : Prop := l.kind = .docWhitespace ∨ l.kind = .docStar

/-- Lexemes of a documentation comment that say something. -/
def Says (l : Lexeme) : Prop := l.kind = .docTag ∨ l.kind = .docText

/-- A line break in a documentation comment. -/
def IsDocBreak (l : Lexeme) : Prop :=
  l.kind = .docWhitespace ∧ (l.text.toList = ['\n'] ∨ l.text.toList = ['\r', '\n'])

/-- A line break in a documentation comment is read wherever the comment is open. -/
theorem IsDocBreak.reads (h : IsDocBreak l) (hdoc : mode.inDoc = true) (rest : List Char) :
    Reads mode l rest (.docComment true) :=
  (DocReads.break hdoc h.1 h.2).reads

/-- Blanks and stars close no comment. -/
theorem Fills.ne_docClose (h : Fills l) : l.kind ≠ .docClose := by
  rcases h with h | h <;> simp [h]

/-- Tags and texts close no comment. -/
theorem Says.ne_docClose (h : Says l) : l.kind ≠ .docClose := by
  rcases h with h | h <;> simp [h]

/-- What says something fills no line. -/
theorem Says.not_fills (h : Says l) : ¬ Fills l := by
  rintro (hfills | hfills)
  · rcases h with h | h <;> cases hfills.symm.trans h
  · rcases h with h | h <;> cases hfills.symm.trans h

/-- The parts of a documentation comment are read while it is open. -/
theorem DocReads.inDoc_mode (h : DocReads mode l rest next) : mode.inDoc = true := by
  cases h with
  | close hdoc => exact hdoc
  | «break» hdoc => exact hdoc
  | blank => rfl
  | tail => rfl
  | star => rfl
  | tag hdoc => exact hdoc
  | text hdoc => exact hdoc

/-- What is read in a documentation comment, its closing tag apart, leaves it open. -/
theorem DocReads.inDoc (h : DocReads mode l rest next) (hkind : l.kind ≠ .docClose) :
    next.inDoc = true := by
  cases h with
  | close _ hclose => exact absurd hclose hkind
  | «break» => rfl
  | blank => rfl
  | tail => rfl
  | star => rfl
  | tag => rfl
  | text => rfl

/-- Lexemes none of which is the closing tag leave the comment open. -/
theorem ReadsAll.inDoc (h : ReadsAll mode ls rest next) (hdoc : mode.inDoc = true)
    (hinner : ∀ l ∈ ls, l.kind ≠ .docClose) : next.inDoc = true := by
  induction h with
  | nil => exact hdoc
  | cons hl _ ih =>
    obtain ⟨hkind, hinner⟩ := List.forall_mem_cons.mp hinner
    exact ih ((hl.docReads hdoc).inDoc hkind) hinner

/-- How reading goes on behind a lexeme does not depend on how it was found. -/
theorem Reads.next_unique {next' : Mode} (h : Reads mode l rest next)
    (h' : Reads mode l rest next') : next = next' := by
  obtain ⟨c, t, htext, hstep⟩ := h
  obtain ⟨c', t', htext', hstep'⟩ := h'
  obtain ⟨rfl, rfl⟩ := List.cons_eq_cons.mp (htext.symm.trans htext')
  exact congrArg Step.next (hstep.symm.trans hstep')

/-- A line break is the last thing that is read of its line. -/
theorem ReadsAll.next_of_break {w : Lexeme} (h : ReadsAll mode (ls ++ [w]) rest next)
    (hdoc : mode.inDoc = true) (hinner : ∀ l ∈ ls, l.kind ≠ .docClose) (hw : IsDocBreak w) :
    next = .docComment true := by
  obtain ⟨between, hls, hlast⟩ := h.of_append
  cases hlast with
  | cons hread hnil =>
    cases hnil
    exact hread.next_unique (hw.reads (hls.inDoc hdoc hinner) _)

/-- The text in front of which a part that says something ends: only blanks are left on its line. -/
structure EndsPart (rest : List Char) : Prop where
  blank : ∀ c ∈ docLine rest, isBlank c = true
  apart : rest.head?.any (fun c => c == '/' || continuesTag c) = false

variable {rest' : List Char} {z : Lexeme}

/-- A part ends in front of a line break. -/
theorem EndsPart.break (rest : List Char) : EndsPart ('\n' :: rest) := ⟨by simp [docLine], rfl⟩

/-- A part ends in front of the closing tag. -/
theorem EndsPart.close (rest : List Char) : EndsPart ('*' :: '/' :: rest) :=
  ⟨by simp [docLine], rfl⟩

/-- A blank goes on with no tag and closes no comment. -/
theorem apart_of_isBlank {c : Char} (h : isBlank c = true) :
    (c == '/' || continuesTag c) = false := by
  simp only [isBlank, Bool.or_eq_true, beq_iff_eq] at h
  rcases h with (rfl | rfl) | rfl <;> rfl

/-- A part ends in front of blanks at the end of a line. -/
theorem EndsPart.append {blanks : List Char} (h : EndsPart rest)
    (hblank : ∀ c ∈ blanks, isBlank c = true) : EndsPart (blanks ++ rest) := by
  induction blanks with
  | nil => exact h
  | cons c blanks ih =>
    obtain ⟨hc, hblank⟩ := List.forall_mem_cons.mp hblank
    refine ⟨?_, by simpa using apart_of_isBlank hc⟩
    rw [List.cons_append, docLine_cons]
    split
    · simp
    · exact List.forall_mem_cons.mpr ⟨hc, (ih hblank).blank⟩

/-- A part that says something is read in front of every text that ends it. -/
theorem DocReads.of_endsPart (h : DocReads mode z rest next) (hz : Says z)
    (hrest : EndsPart rest') : DocReads mode z rest' next := by
  have hslash : rest'.head? ≠ some '/' := by
    intro hhead
    have := hrest.apart
    simp [hhead] at this
  have htag : rest'.head?.any continuesTag = false := by
    have := hrest.apart
    cases hhead : rest'.head? with
    | none => rfl
    | some c => simp_all
  cases h with
  | close _ hkind => exact absurd hkind hz.ne_docClose
  | «break» _ hkind => exact absurd (.inl hkind) hz.not_fills
  | blank hkind => exact absurd (.inl hkind) hz.not_fills
  | tail hkind => exact absurd (.inl hkind) hz.not_fills
  | star hkind => exact absurd (.inr hkind) hz.not_fills
  | tag hdoc hkind htext hc ht _ => exact .tag hdoc hkind htext hc ht htag
  | @text _ _ _ hdoc hkind c t htext hvisible hstar hat hline =>
    refine .text hdoc hkind htext hvisible (fun hc => ⟨(hstar hc).1, ?_⟩) (fun hc => ?_)
      (visibleLength_docLine hline hrest.blank hslash)
    · cases t with
      | nil => exact hslash
      | cons d t => exact (hstar hc).2
    · cases t with
      | nil =>
        cases hhead : rest'.head? with
        | none => simp [hhead]
        | some d =>
          rw [hhead] at htag
          have hd : startsTag d ≠
              true := fun hstarts => by simp [continuesTag_of_startsTag hstarts] at htag
          simpa [hhead] using hd
      | cons d t => exact hat hc

/-- A lexeme is read alike in front of texts that start with lexemes of which the last one shows, or
breaks the line. -/
theorem DocReads.of_shows {c : Char} {u t : List Char}
    (h : DocReads mode l (u ++ c :: (t ++ rest)) next) (hkind : l.kind ≠ .docClose)
    (hshows : '\n' ∈ c :: t ∨ isBlank c = false ∧ (c = '*' → (t ++ rest).head? ≠ some '/')) :
    Reads mode l (u ++ c :: (t ++ rest')) next := by
  have hhead : (u ++ c :: (t ++ rest')).head? = (u ++ c :: (t ++ rest)).head? := by
    cases u <;> rfl
  -- in front of blanks only, the line breaks within what is the same, or the comment is closed
  -- there
  have hbound (hline : ∀ x ∈ docLine (u ++ c :: (t ++ rest)), isBlank x = true) :
      Reads mode l (u ++ c :: (t ++ rest')) next := by
    obtain ⟨x, hx, hmem⟩ : ∃ x ∈ '\n' :: '/' :: marks, x ∈ u ++ c :: t := by
      rcases hshows with hbreak | ⟨hc, hstar⟩
      · exact ⟨'\n', by simp, List.mem_append_right _ hbreak⟩
      · rcases mem_of_docLine hc hstar hline with hbreak | hslash
        · exact ⟨'\n', by simp, hbreak⟩
        · exact ⟨'/', by simp, hslash⟩
    obtain ⟨before, behind, hsplit⟩ := List.append_of_mem hmem
    have hwhole (rest : List Char) : u ++ c :: (t ++ rest) = before ++ x :: (behind ++ rest) := by
      have := congrArg (· ++ rest) hsplit
      simpa using this
    rw [hwhole]
    exact h.reads.of_agree (by rw [hwhole]; exact .bound before _ _ hx)
  cases h with
  | close _ hclose => exact absurd hclose hkind
  | «break» hdoc hkind htext => exact (DocReads.break hdoc hkind htext).reads
  | blank hkind hne hblank hrest hbreak =>
    exact (DocReads.blank hkind hne hblank (hhead ▸ hrest) (hhead ▸ hbreak)).reads
  | star hkind htext hrest => exact (DocReads.star hkind htext (hhead ▸ hrest)).reads
  | tag hdoc hkind htext hc ht hrest =>
    exact (DocReads.tag hdoc hkind htext hc ht (hhead ▸ hrest)).reads
  | tail _ _ _ hline =>
    rw [← List.cons_append] at hline
    refine hbound ?_
    rw [docLine_eq_nil_of_append hline]
    simp
  | text _ _ _ _ _ _ hline => exact hbound (isBlank_of_visibleLength hline)

/-- A part that says something shows that it starts. -/
theorem DocReads.visible (h : DocReads mode z rest next) (hz : Says z) :
    ∃ c t, z.text.toList = c :: t ∧
    isBlank c = false ∧ (c = '*' → (t ++ rest).head? ≠ some '/') := by
  cases h with
  | close _ hkind => exact absurd hkind hz.ne_docClose
  | «break» _ hkind => exact absurd (.inl hkind) hz.not_fills
  | blank hkind => exact absurd (.inl hkind) hz.not_fills
  | tail hkind => exact absurd (.inl hkind) hz.not_fills
  | star hkind => exact absurd (.inr hkind) hz.not_fills
  | tag _ _ htext => exact ⟨_, _, htext, rfl, by simp⟩
  | text _ _ htext hvisible hstar => exact ⟨_, _, htext, hvisible.1, fun hc => (hstar hc).2⟩

/-- Behind a part that says something, no line starts. -/
theorem DocReads.next_ne (h : DocReads mode z rest next) (hz : Says z) :
    next ≠ .docComment true := by
  cases h with
  | close => simp
  | «break» _ hkind => exact absurd (.inl hkind) hz.not_fills
  | blank hkind => exact absurd (.inl hkind) hz.not_fills
  | tail => simp
  | star => simp
  | tag => simp
  | text => simp

/-- The closing tag is a star and a slash, and code follows. -/
theorem DocReads.text_of_close (h : DocReads mode l rest next) (hkind : l.kind = .docClose) :
    l.text.toList = ['*', '/'] ∧ next = .code := by
  cases h with
  | close _ _ htext => exact ⟨htext, rfl⟩
  | «break» _ hother => cases hkind.symm.trans hother
  | blank hother => cases hkind.symm.trans hother
  | tail hother => cases hkind.symm.trans hother
  | star hother => cases hkind.symm.trans hother
  | tag _ hother => cases hkind.symm.trans hother
  | text _ hother => cases hkind.symm.trans hother

/-- A part that says something, and a line break, show where they stand. -/
theorem DocReads.exists_shows (h : DocReads mode z rest next) (hz : Says z ∨ IsDocBreak z) :
    ∃ c t, z.text.toList = c :: t ∧
      ('\n' ∈ c :: t ∨ isBlank c = false ∧ (c = '*' → (t ++ rest).head? ≠ some '/')) := by
  rcases hz with hz | ⟨_, htext | htext⟩
  · obtain ⟨c, t, htext, hshows⟩ := h.visible hz
    exact ⟨c, t, htext, .inr hshows⟩
  · exact ⟨_, _, htext, .inl (by simp)⟩
  · exact ⟨_, _, htext, .inl (by simp)⟩

/-- What is read up to a part that says something, or up to a line break, is read in front of
another text if that part is. -/
theorem ReadsAll.of_last {a : List Lexeme} (h : ReadsAll mode (a ++ [z]) rest next)
    (hdoc : mode.inDoc = true) (ha : ∀ l ∈ a, l.kind ≠ .docClose) (hz : Says z ∨ IsDocBreak z)
    (hlast : ∀ m, DocReads m z rest next → Reads m z rest' next) :
    ReadsAll mode (a ++ [z]) rest' next := by
  obtain ⟨between, hfront, hone⟩ := h.of_append
  have hread : DocReads between z rest next := by
    cases hone with
    | cons hl hnil =>
      cases hnil
      exact hl.docReads (hfront.inDoc hdoc ha)
  refine .append ?_ (.singleton (hlast _ hread))
  obtain ⟨c, t, htext, hshows⟩ := hread.exists_shows hz
  have hletters (rest : List Char) : letters [z] ++ rest = c :: (t ++ rest) := by
    rw [letters_cons, letters_nil, List.append_nil, htext, List.cons_append]
  rw [hletters] at hfront ⊢
  generalize hbehind : c :: (t ++ rest) = behind at hfront
  clear h hone hread
  induction hfront with
  | nil mode => exact .nil mode _
  | cons hl _ ih =>
    subst hbehind
    obtain ⟨hkind, ha⟩ := List.forall_mem_cons.mp ha
    have hl := hl.docReads hdoc
    exact .cons (hl.of_shows hkind hshows) (ih (hl.inDoc hkind) ha rfl)

/-! ### Lines that are taken out -/

/-- Lines can be taken out: what starts behind a line break and ends with one. -/
theorem ReadsAll.cut {a p b : List Lexeme} {w v : Lexeme}
    (h : ReadsAll mode (a ++ [w] ++ (p ++ [v] ++ b)) rest next) (hdoc : mode.inDoc = true)
    (ha : ∀ l ∈ a, l.kind ≠ .docClose) (hp : ∀ l ∈ p, l.kind ≠ .docClose) (hw : IsDocBreak w)
    (hv : IsDocBreak v) : ReadsAll mode (a ++ [w] ++ b) rest next := by
  obtain ⟨first, hfront, hrest⟩ := h.of_append
  obtain ⟨second, hgone, hbehind⟩ := hrest.of_append
  obtain rfl := hfront.next_of_break hdoc ha hw
  obtain rfl := hgone.next_of_break rfl hp hv
  exact .append (hfront.of_last hdoc ha (.inr hw) fun m hread =>
    hw.reads hread.inDoc_mode _) hbehind

/-- At the end of a comment, everything in front of a line break can be taken out. -/
theorem ReadsAll.cut_end {a p b : List Lexeme} {w : Lexeme}
    (h : ReadsAll mode (a ++ [z] ++ (p ++ w :: b)) rest next) (hdoc : mode.inDoc = true)
    (ha : ∀ l ∈ a, l.kind ≠ .docClose) (hz : Says z) (hp : ∀ l ∈ p, l.kind ≠ .docClose)
    (hw : IsDocBreak w) : ReadsAll mode (a ++ [z] ++ w :: b) rest next := by
  have hinner : ∀ l ∈ a ++ [z], l.kind ≠ .docClose := by
    simpa [or_imp, forall_and] using ⟨ha, hz.ne_docClose⟩
  obtain ⟨first, hfront, hrest⟩ := h.of_append
  obtain ⟨second, hgone, hbehind⟩ := hrest.of_append
  have hfirst := hfront.inDoc hdoc hinner
  have hsecond := hgone.inDoc hfirst hp
  have hends : EndsPart (letters (w :: b) ++ rest) := by
    rw [letters_cons, List.append_assoc]
    rcases hw.2 with htext | htext
    · rw [htext]
      exact .break _
    · have hreturn : ∀ c ∈ ['\r'], isBlank c = true := by simp [isBlank]
      rw [htext]
      exact (EndsPart.break _).append hreturn
  refine .append (hfront.of_last hdoc ha (.inl hz) fun m hread =>
    (hread.of_endsPart hz hends).reads) ?_
  cases hbehind with
  | cons hl hb =>
    obtain rfl := hl.next_unique (hw.reads hsecond _)
    exact .cons (hw.reads hfirst _) hb

/-! ### Blanks -/

/-- Behind the text of a line, only blanks are left on it. -/
def Lulls (mode : Mode) (rest : List Char) : Prop := mode = .docTail → ∀ c ∈ docLine rest,
    isBlank c = true

/-- Behind the text of a line only blanks are left on it. -/
theorem DocReads.lulls (h : DocReads mode l rest next) : Lulls next rest := by
  cases h with
  | text _ _ _ _ _ _ hline => exact fun _ => isBlank_of_visibleLength hline
  | close => exact nofun
  | «break» => exact nofun
  | blank => exact nofun
  | tail => exact nofun
  | star => exact nofun
  | tag => exact nofun

/-- What is read of a comment, the closing tag apart, keeps that only blanks are left behind
text. -/
theorem ReadsAll.lulls (h : ReadsAll mode ls rest next) (hdoc : mode.inDoc = true)
    (hinner : ∀ l ∈ ls, l.kind ≠ .docClose) (hlulls : Lulls mode (letters ls ++ rest)) :
    Lulls next rest := by
  induction h with
  | nil => exact hlulls
  | cons hl _ ih =>
    obtain ⟨hkind, hinner⟩ := List.forall_mem_cons.mp hinner
    have hl := hl.docReads hdoc
    exact ih (hl.inDoc hkind) hinner hl.lulls

/-- What says nothing is made of blanks, or is a line break or a star at the start of a line. -/
theorem DocReads.fills_cases (h : DocReads mode l rest next) (hl : Fills l)
    (hlulls : Lulls mode (l.text.toList ++ rest)) :
    IsDocBreak l ∨ (l.text.toList = ['*'] ∧ mode = .docComment true) ∨
      (∀ c ∈ l.text.toList, isBlank c = true) ∧
      (next = mode ∨ mode = .docTail ∧ next = .docComment false) := by
  cases h with
  | close _ hkind => exact absurd hkind hl.ne_docClose
  | «break» _ hkind htext => exact .inl ⟨hkind, htext⟩
  | blank _ _ hblank => exact .inr (.inr ⟨hblank, .inl rfl⟩)
  | tail hkind htext hblank hline =>
    refine .inr (.inr ⟨fun c hc => hlulls rfl c ?_, .inr ⟨rfl, rfl⟩⟩)
    rw [htext, List.cons_append, hline, ← htext]
    exact hc
  | star _ htext => exact .inr (.inl ⟨htext, rfl⟩)
  | tag _ hkind => exact absurd hl (Says.not_fills (.inl hkind))
  | text _ hkind => exact absurd hl (Says.not_fills (.inr hkind))

/-- Between two parts on a line there are only blanks, and behind them no line starts. -/
theorem ReadsAll.blank (h : ReadsAll mode ls rest next) (hdoc : mode.inDoc = true)
    (hmode : mode ≠ .docComment true) (hlulls : Lulls mode (letters ls ++ rest))
    (hls : ∀ l ∈ ls, Fills l) (hflat : '\n' ∉ letters ls) :
    (∀ c ∈ letters ls, isBlank c = true) ∧
    (mode = .docComment false → next = .docComment false) := by
  induction h with
  | nil => simp
  | @cons _ between _ l ls _ hl _ ih =>
    obtain ⟨hfills, hls⟩ := List.forall_mem_cons.mp hls
    rw [letters_cons, List.mem_append, not_or] at hflat
    rw [letters_cons, List.append_assoc] at hlulls
    have hl := hl.docReads hdoc
    rcases hl.fills_cases hfills hlulls with ⟨_, htext⟩ | ⟨_, hstart⟩ | ⟨hblank, hnext⟩
    · rcases htext with htext | htext
      · simp [htext] at hflat
      · simp [htext] at hflat
    · exact absurd hstart hmode
    · have hbetween : between ≠ .docComment true := by
        rcases hnext with rfl | ⟨_, rfl⟩
        · exact hmode
        · simp
      obtain ⟨hrest, hsame⟩ := ih (hl.inDoc hfills.ne_docClose) hbetween hl.lulls hls hflat.2
      refine ⟨fun c hc => ?_, fun hstart => hsame ?_⟩
      · rw [letters_cons, List.mem_append] at hc
        exact hc.elim (hblank c) (hrest c)
      · rcases hnext with rfl | ⟨_, rfl⟩
        · exact hstart
        · rfl

/-- That a text is read as white space that ends a line. -/
def ReadsBreak (mode : Mode) (text : List Char) : Prop :=
  ∃ ks, letters ks = text ∧ (∀ k ∈ ks, k.kind = .docWhitespace) ∧
    ∀ rest, ReadsAll mode ks rest (.docComment true)

/-- A line break is read as one in every mode of a documentation comment. -/
theorem IsDocBreak.readsBreak (h : IsDocBreak l) (hdoc : mode.inDoc = true) :
    ReadsBreak mode l.text.toList :=
  ⟨[l], by simp, by simpa using h.1, fun rest => .singleton (h.reads hdoc rest)⟩

/-- Blanks in front of a line break. -/
theorem IsDocBreak.readsBreak_of_blank {blanks : List Char} (h : IsDocBreak l)
    (hbetween : between.inDoc = true) (hread : ∀ rest,
      DocReads mode ⟨.docWhitespace, String.ofList blanks⟩ (l.text.toList ++ rest) between) :
    ReadsBreak mode (blanks ++ l.text.toList) := by
  refine ⟨[⟨.docWhitespace, String.ofList blanks⟩, l], by simp, by simpa using h.1, fun rest => ?_⟩
  refine .cons ?_ (.singleton (h.reads hbetween rest))
  rw [letters_cons, letters_nil, List.append_nil]
  exact (hread rest).reads

/-- Blanks with a line feed behind them are read as blanks and a line break. -/
theorem readsBreak_of_blanks (hdoc : mode.inDoc = true) {blanks : List Char}
    (hblank : ∀ c ∈ blanks, isBlank c = true) : ReadsBreak mode (blanks ++ ['\n']) := by
  have hfeed : IsDocBreak ⟨.docWhitespace, "\n"⟩ := ⟨rfl, .inl rfl⟩
  have hreturn : IsDocBreak ⟨.docWhitespace, "\r\n"⟩ := ⟨rfl, .inr rfl⟩
  by_cases hnone : blanks = []
  · subst hnone
    exact hfeed.readsBreak hdoc
  by_cases hone : blanks = ['\r']
  · subst hone
    exact hreturn.readsBreak hdoc
  cases mode with
  | html => cases hdoc
  | code => cases hdoc
  | blockComment => cases hdoc
  | docComment lineStart =>
    refine hfeed.readsBreak_of_blank hdoc fun rest => .blank rfl ?_ ?_ rfl ?_
    · simpa using hnone
    · simpa using hblank
    · simp [hone]
  | docTail =>
    have hbetween : Mode.inDoc (.docComment false) = true := rfl
    -- the carriage return in front of a line feed is no blank of the line
    rcases List.eq_nil_or_concat blanks with hnil | ⟨v, c, rfl⟩
    · exact absurd hnil hnone
    rw [List.concat_eq_append] at hone hblank ⊢
    by_cases hc : c = '\r'
    · subst hc
      have hv : ∀ c ∈ v, isBlank c = true := fun c hc => hblank c (by simp [hc])
      obtain ⟨d, t, rfl⟩ := List.exists_cons_of_ne_nil (show v ≠ [] by rintro rfl; exact hone rfl)
      rw [List.append_assoc]
      refine hreturn.readsBreak_of_blank hbetween fun rest => ?_
      refine .tail rfl String.toList_ofList (hv d List.mem_cons_self) ?_
      exact docLine_of_blank hv rfl (by simp)
    · obtain ⟨d, t, hsplit⟩ := List.exists_cons_of_ne_nil (show v ++ [c] ≠ [] by simp)
      rw [hsplit] at hblank ⊢
      refine hfeed.readsBreak_of_blank hbetween fun rest => ?_
      refine .tail rfl String.toList_ofList (hblank d List.mem_cons_self) ?_
      refine docLine_of_blank hblank rfl fun hlast => absurd ?_ hc
      rw [← hsplit, List.getLast?_concat, Option.some.injEq] at hlast
      exact hlast

/-! ### Lines that are opened -/

/-- A line break as it may be put into a text. -/
def IsNewline (newline : String) : Prop := newline = "\n" ∨ newline = "\r\n"

/-- A line break of a file ends with a line feed, with nothing but a carriage return in front of
it. -/
theorem IsNewline.exists_blanks {newline : String} (h : IsNewline newline) :
    ∃ blanks, newline.toList = blanks ++ ['\n'] ∧ ∀ c ∈ blanks, isBlank c = true := by
  rcases h with rfl | rfl
  · exact ⟨[], rfl, by simp⟩
  · exact ⟨['\r'], rfl, by simp [isBlank]⟩

/-- The line break of a file is one in a documentation comment. -/
theorem IsNewline.isDocBreak {newline : String} (h : IsNewline newline) :
    IsDocBreak ⟨.docWhitespace, newline⟩ := by
  rcases h with rfl | rfl
  · exact ⟨rfl, .inl rfl⟩
  · exact ⟨rfl, .inr rfl⟩

/-- The line break of a file has one line feed. -/
theorem IsNewline.count {newline : String} (h : IsNewline newline) :
    newline.toList.count '\n' = 1 := by
  rcases h with rfl | rfl <;> rfl

/-- Blanks at the start of a line, in front of a star. -/
theorem exists_indent {blanks : List Char} (hblank : ∀ c ∈ blanks, isBlank c = true) :
    ∃ indent, letters indent = blanks ∧ (∀ k ∈ indent, Fills k) ∧
      ∀ rest, rest.head? = some '*' →
      ReadsAll (.docComment true) indent rest (.docComment true) := by
  by_cases hnone : blanks = []
  · exact ⟨[], hnone.symm, by simp, fun rest _ => .nil _ rest⟩
  · refine ⟨[⟨.docWhitespace, String.ofList blanks⟩],
      by simp, by simp [Fills], fun rest hrest => ?_⟩
    refine .singleton (DocReads.blank rfl ?_ ?_ ?_ ?_).reads
    · simpa using hnone
    · simpa using hblank
    · rw [hrest]
      rfl
    · simp [hrest]

/-- In front of the first part of a comment, a line can be opened, with a star. -/
theorem ReadsAll.open {fill b : List Lexeme} {newline : String}
    (h : ReadsAll (.docComment false) (fill ++ z :: b) rest next) (hnewline : IsNewline newline)
    (hz : Says z) (hfill : ∀ l ∈ fill, Fills l) (hflat : '\n' ∉ letters fill) :
    ∃ ks, letters ks = newline.toList ++ (letters fill ++ ['*', ' ']) ∧ (∀ k ∈ ks, Fills k) ∧
      ReadsAll (.docComment false) (ks ++ z :: b) rest next := by
  obtain ⟨between, hfront, hbehind⟩ := h.of_append
  obtain ⟨hblank, hsame⟩ := hfront.blank rfl (by simp) nofun hfill hflat
  obtain rfl := hsame rfl
  have hhead : (letters (z :: b) ++ rest).head?.any isBlank = false := by
    cases hbehind with
    | cons hl _ =>
      obtain ⟨c, t, htext, hc, _⟩ := (hl.docReads rfl).visible hz
      simp [htext, hc]
  have hstar : ReadsAll (.docComment true) [⟨.docStar, "*"⟩, ⟨.docWhitespace, " "⟩]
      (letters (z :: b) ++ rest) (.docComment false) := by
    refine .cons (DocReads.star rfl rfl (by simp)).reads
      (.singleton (DocReads.blank rfl ?_ ?_ hhead ?_).reads)
    · simp
    · simp [isBlank]
    · simp
  obtain ⟨indent, hindent, hfills, hread⟩ := exists_indent hblank
  refine ⟨⟨.docWhitespace, newline⟩ :: (indent ++ [⟨.docStar, "*"⟩, ⟨.docWhitespace, " "⟩]), ?_, ?_,
    ?_⟩
  · simp [hindent]
  · simp only [List.mem_cons, List.mem_append, List.not_mem_nil, or_false]
    rintro k (rfl | hk | rfl | rfl)
    · exact .inl rfl
    · exact hfills k hk
    · exact .inr rfl
    · exact .inl rfl
  · rw [List.cons_append, List.append_assoc]
    exact .cons (hnewline.isDocBreak.reads rfl _) (.append (hread _ rfl) (.append hstar hbehind))

/-- In front of the closing tag, the last line can be broken. -/
theorem ReadsAll.break_end {a fill : List Lexeme} {close : Lexeme} {newline : String}
    (h : ReadsAll mode (a ++ [z] ++ (fill ++ [close])) rest next) (hdoc : mode.inDoc = true)
    (hnewline : IsNewline newline) (ha : ∀ l ∈ a, l.kind ≠ .docClose) (hz : Says z)
    (hfill : ∀ l ∈ fill, Fills l) (hflat : '\n' ∉ letters fill) (hclose : close.kind = .docClose) :
    ∃ ks, letters ks = letters fill ++ newline.toList ∧ (∀ k ∈ ks, Fills k) ∧
      ReadsAll mode (a ++ [z] ++ (ks ++ [close])) rest next := by
  have hinner : ∀ l ∈ a ++ [z], l.kind ≠ .docClose := by
    simpa [or_imp, forall_and] using ⟨ha, hz.ne_docClose⟩
  obtain ⟨first, hfront, hrest⟩ := h.of_append
  obtain ⟨second, hgap, hlast⟩ := hrest.of_append
  have hfirst := hfront.inDoc hdoc hinner
  obtain ⟨hmode, hlulls⟩ : first ≠ .docComment true ∧
      Lulls first (letters (fill ++ [close]) ++ rest) := by
    obtain ⟨between, hbefore, hone⟩ := hfront.of_append
    cases hone with
    | cons hl hnil =>
      cases hnil
      have hl := hl.docReads (hbefore.inDoc hdoc ha)
      exact ⟨hl.next_ne hz, hl.lulls⟩
  rw [letters_append, List.append_assoc] at hlulls
  obtain ⟨hblank, _⟩ := hgap.blank hfirst hmode hlulls hfill hflat
  obtain ⟨more, hmore, hreturn⟩ := hnewline.exists_blanks
  have hblanks : ∀ c ∈ letters fill ++ more, isBlank c = true := by
    simpa [or_imp, forall_and] using ⟨hblank, hreturn⟩
  obtain ⟨ks, hks, hkinds, hreads⟩ := readsBreak_of_blanks hfirst hblanks
  refine ⟨ks, by rw [hks, hmore, List.append_assoc], fun k hk => .inl (hkinds k hk), ?_⟩
  have hends : EndsPart (letters (ks ++ [close]) ++ rest) := by
    rw [letters_append, hks, List.append_assoc, List.append_assoc]
    exact (EndsPart.break _).append hblanks
  refine .append (hfront.of_last hdoc ha (.inl hz) fun m hread =>
    (hread.of_endsPart hz hends).reads) (.append (hreads _) ?_)
  cases hlast with
  | cons hl hnil =>
    cases hnil
    obtain ⟨htext, rfl⟩ :=
      (hl.docReads (hgap.inDoc hfirst fun l hl => (hfill l hl).ne_docClose)).text_of_close hclose
    exact .singleton (DocReads.close rfl hclose htext).reads

end PhpStyle.Php
