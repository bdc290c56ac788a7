import PhpStyle.Proofs.Standard.DocRelaid

/-!
# Documentation comments on one line

Which comments are left alone, and which are brought to one line, can be told from their bodies. A
comment that is brought to one line says a single type, and stands afterwards as an annotation on
its line, so that it is left alone from then on.
-/

namespace PhpStyle

open Php (DocReads EndsPart Fills IsBody Legible ReadsAll Says docCloser docOpener enclosed letters)
open DocLayout
  (breaks breaks_append breaks_cons mem_parts_iff parts parts_append parts_cons_of_fills
  parts_cons_of_saying parts_of_fills)
open Finding (Makes)

namespace Php

variable {mode next : Mode} {z : Lexeme} {rest rest' : List Char}

/-- A tag can be read within any line, in front of what does not go on with it. -/
theorem DocReads.tag_within (h : DocReads mode z rest next) (hz : z.kind = .docTag)
    (hrest : rest'.head?.any Lexer.continuesTag = false) :
    DocReads (.docComment false) z rest' (.docComment false) := by
  cases h with
  | close _ hkind => cases hz.symm.trans hkind
  | «break» _ hkind => cases hz.symm.trans hkind
  | blank hkind => cases hz.symm.trans hkind
  | tail hkind => cases hz.symm.trans hkind
  | star hkind => cases hz.symm.trans hkind
  | tag _ hkind htext hc ht _ => exact .tag rfl hkind htext hc ht hrest
  | text _ hkind => cases hz.symm.trans hkind

/-- Text can be read within any line, in front of what ends it. -/
theorem DocReads.text_within (h : DocReads mode z rest next) (hz : z.kind = .docText)
    (hrest : EndsPart rest') : DocReads (.docComment false) z rest' .docTail := by
  cases h.of_endsPart (.inr hz) hrest with
  | close _ hkind => cases hz.symm.trans hkind
  | «break» _ hkind => cases hz.symm.trans hkind
  | blank hkind => cases hz.symm.trans hkind
  | tail hkind => cases hz.symm.trans hkind
  | star hkind => cases hz.symm.trans hkind
  | tag _ hkind => cases hz.symm.trans hkind
  | text _ hkind htext hvisible hstar htag hline =>
    exact .text rfl hkind htext hvisible (fun hc => ⟨by simp, (hstar hc).2⟩) htag hline

end Php

namespace DocComment

variable {l : Lexeme} {ls ks body : List Lexeme} {s : Store} {tag close i : Nat}

/-! ### What a comment says -/

/-- What fills a line adds nothing to a summary. -/
theorem Summary.add_of_fills (hl : Fills ⟨s.kind i, s.text i⟩) (m : Summary) :
    m.add (s.token i) = m := by
  rcases hl with hkind | hkind
  · rw [add, show (s.token i).kind = .docWhitespace from hkind]
  · rw [add, show (s.token i).kind = .docStar from hkind]

/-- A tag is added to the tags, and its line is noted. -/
theorem Summary.add_of_tag (hl : s.kind i = .docTag) (m : Summary) :
    m.add (s.token i) = { m with tags := s.text i :: m.tags, tagLine := some (s.line i) } := by
  rw [add, show (s.token i).kind = .docTag from hl]
  rfl

/-- Text is content unless it stands on the line of the last tag. -/
theorem Summary.add_of_text (hl : s.kind i = .docText) (m : Summary) :
    m.add (s.token i) =
      if m.tagLine = some (s.line i) then m else { m with hasContent := true } := by
  rw [add, show (s.token i).kind = .docText from hl]
  rfl

/-- The tags of a body are those of its lexemes, the last one first. -/
theorem Summary.tags_ofBody_cons (l : Lexeme) (ls : List Lexeme) :
    (ofBody (l :: ls)).tags = (ofBody ls).tags ++ if l.kind = .docTag then [l.text] else [] := by
  by_cases hkind : l.kind = .docTag
  · simp [ofBody, hkind]
  · simp [ofBody, hkind]

/-- A token is summed up as its lexeme is: it adds its tag, and what is said behind it is said
behind the lexeme. -/
theorem Summary.add_spec (h : IsComment s tag close) (hlow : tag < i) (hclose : i < close)
    (m : Summary) (hline : ∀ n, m.tagLine = some n → n ≤ s.line i) :
    (m.add (s.token i)).tags = (if s.kind i = .docTag then [s.text i] else []) ++ m.tags ∧
      (∀ n, (m.add (s.token i)).tagLine = some n → n ≤ s.line (i + 1)) ∧
      ∀ ls, ((m.add (s.token i)).hasContent ||
          saysMore ((m.add (s.token i)).tagLine == some (s.line (i + 1))) ls) =
        (m.hasContent || saysMore (m.tagLine == some (s.line i)) (⟨s.kind i, s.text i⟩ :: ls)) := by
  have hnext := h.line_eq_add_breaks (show i ≤ i + 1 by omega) hclose
  rw [Store.slice_singleton] at hnext
  have hlater : ∀ n, m.tagLine = some n → n ≤ s.line (i + 1) := by
    intro n hn
    have := hline n hn
    omega
  rcases h.fills_or_says hlow hclose with hfills | htag | htext
  · have hkind : ¬ s.kind i = .docTag := fun hkind => Says.not_fills (.inl hkind) hfills
    have hflag : (m.tagLine == some (s.line (i + 1))) =
        (m.tagLine == some (s.line i) && breaks [⟨s.kind i, s.text i⟩] == 0) := by
      rw [Bool.eq_iff_iff, Bool.and_eq_true, beq_iff_eq, beq_iff_eq, beq_iff_eq, hnext]
      cases htagLine : m.tagLine with
      | none => simp
      | some n =>
        have := hline n htagLine
        simp only [Option.some.injEq]
        omega
    rw [Summary.add_of_fills hfills, if_neg hkind, hflag]
    exact ⟨rfl, hlater, fun ls => by rw [saysMore_cons_of_fills hfills]⟩
  · have hsame := h.line_succ_of_saying hlow hclose (.inl htag)
    rw [Summary.add_of_tag htag, if_pos htag, hsame]
    refine ⟨rfl, fun n hn => Nat.le_of_eq (Option.some.inj hn).symm, fun ls => ?_⟩
    rw [saysMore, if_neg (by rw [htag]; decide), if_pos htag, beq_self_eq_true]
  · have hsame := h.line_succ_of_saying hlow hclose (.inr htext)
    have hkind : ¬ s.kind i = .docTag := fun hkind => by cases hkind.symm.trans htext
    rw [Summary.add_of_text htext, if_neg hkind, hsame]
    split
    · rename_i hsaid
      refine ⟨rfl, hline, fun ls => ?_⟩
      rw [saysMore, if_pos htext, hsaid, beq_self_eq_true]
      rfl
    · rename_i hother
      refine ⟨rfl, hline, fun ls => ?_⟩
      rw [saysMore, if_pos htext, beq_eq_false_iff_ne.mpr hother]
      simp

/-- The summary of a comment goes over its body. -/
theorem Summary.foldl_add (h : IsComment s tag close) (hlow : tag < i) (hi : i ≤ close)
    (m : Summary) (hline : ∀ n, m.tagLine = some n → n ≤ s.line i) :
    ((List.range' i (close - i)).foldl (fun m p => m.add (s.token p)) m).tags =
        (ofBody (s.slice i close)).tags ++ m.tags ∧
      ((List.range' i (close - i)).foldl (fun m p => m.add (s.token p)) m).hasContent =
        (m.hasContent || saysMore (m.tagLine == some (s.line i)) (s.slice i close)) := by
  generalize hleft : close - i = left
  induction left generalizing i m with
  | zero =>
    obtain rfl : i = close := by omega
    simp [ofBody, Store.slice_self, saysMore]
  | succ left ih =>
    have hclose : i < close := by omega
    obtain ⟨hadded, hlater, hsays⟩ := add_spec h hlow hclose m hline
    obtain ⟨htags, hcontent⟩ := ih (Nat.lt_succ_of_lt hlow) hclose (m.add (s.token i)) hlater
        (by omega)
    rw [List.range'_succ, List.foldl_cons, Store.slice_cons hclose]
    refine ⟨?_, ?_⟩
    · rw [htags, hadded, tags_ofBody_cons, List.append_assoc]
    · rw [hcontent, hsays]

/-- What the rule sums up of a comment is what its body sums up to. -/
theorem Summary.ofComment_eq (h : IsComment s tag close) :
    (ofComment s tag close).tags = (ofBody (s.slice (tag + 1) close)).tags ∧
      (ofComment s tag close).hasContent = (ofBody (s.slice (tag + 1) close)).hasContent := by
  obtain ⟨htags, hcontent⟩ := foldl_add h (Nat.lt_succ_self tag) h.lt {} nofun
  rw [List.append_nil] at htags
  exact ⟨htags, hcontent⟩

/-- Whether a comment is left in peace can be seen from its body. -/
theorem Summary.isExempt_ofComment (h : IsComment s tag close) :
    (ofComment s tag close).isExempt = (ofBody (s.slice (tag + 1) close)).isExempt := by
  obtain ⟨htags, hcontent⟩ := ofComment_eq h
  rw [isExempt, isExempt, htags, hcontent]

/-- Whether a comment states a type alone can be seen from its body. -/
theorem Summary.isLoneType_ofComment (h : IsComment s tag close) :
    (ofComment s tag close).isLoneType = (ofBody (s.slice (tag + 1) close)).isLoneType := by
  obtain ⟨htags, hcontent⟩ := ofComment_eq h
  rw [isLoneType, isLoneType, htags, hcontent]

/-- Whether a body is that of an annotation on one line. -/
def annotates (body : List Lexeme) : Bool :=
  breaks body == 0 &&
    (secondWord? (String.ofList (letters (enclosed body)))).any oneLineTags.contains

/-- Whether a comment is an annotation can be seen from its body. -/
theorem isAnnotation_eq (h : IsComment s tag close) :
    isAnnotation s tag close = annotates (s.slice (tag + 1) close) := by
  have htext : s.textBetween tag close = String.ofList
      (letters (enclosed (s.slice (tag + 1) close))) := by
    rw [← String.toList_inj, Store.toList_textBetween s h.lt_size, String.toList_ofList, ← h.slice,
      Store.letters_slice]
  have hline : s.sameLine tag close = (breaks (s.slice (tag + 1) close) == 0) := by
    have hfirst := h.line_succ_tag
    have hlast := h.line_eq_add_breaks (show tag + 1 ≤ close from h.lt) (Nat.le_refl close)
    rw [Store.sameLine, Bool.eq_iff_iff, beq_iff_eq, beq_iff_eq]
    omega
  rw [annotates, isAnnotation, htext, hline]

/-- A comment that is left alone, for what it says. -/
def Spared (body : List Lexeme) : Prop := annotates body = true ∨
    (Summary.ofBody body).isExempt = true

/-- What is wrong with a comment that is closed. -/
theorem findings_eq (h : IsComment s tag close) (settings : Settings) :
    (Spared (s.slice (tag + 1) close) ∧ findings settings (.ofStore s) tag = []) ∨
      (¬ Spared (s.slice (tag + 1) close) ∧
        (Summary.ofBody (s.slice (tag + 1) close)).isLoneType = true ∧
        findings settings (.ofStore s) tag = [{
          code := "OneLineTypeDeclare", index := tag
          message := "Comments with only @var should be on one line"
          fix := some (toOneLine s tag close) }]) ∨
      ¬ Spared (s.slice (tag + 1) close) ∧
      (Summary.ofBody (s.slice (tag + 1) close)).isLoneType = false ∧
        findings settings (.ofStore s) tag = DocLayout.findings settings (.ofStore s) tag := by
  have hspared : ( isAnnotation s tag close || (Summary.ofComment s tag close).isExempt) = true ↔
      Spared (s.slice (tag + 1) close) := by
    rw [isAnnotation_eq h, Summary.isExempt_ofComment h, Bool.or_eq_true, Spared]
  unfold findings
  dsimp only [File.ofStore_store]
  rw [h.paired]
  dsimp only
  by_cases hleft : Spared (s.slice (tag + 1) close)
  · exact .inl ⟨hleft, if_pos (hspared.mpr hleft)⟩
  rw [if_neg fun hheld => hleft (hspared.mp hheld), Summary.isLoneType_ofComment h]
  cases hlone : (Summary.ofBody (s.slice (tag + 1) close)).isLoneType with
  | true => exact .inr (.inl ⟨hleft, rfl, rfl⟩)
  | false => exact .inr (.inr ⟨hleft, rfl, rfl⟩)

/-! ### Comments that are brought to one line -/

/-- The blank that a comment on one line has between its parts. -/
def blank : Lexeme := ⟨.docWhitespace, " "⟩

/-- The parts of a comment with blanks around them. -/
def oneLine (body : List Lexeme) : List Lexeme := blank :: (parts body).flatMap fun l => [l, blank]

/-- A blank says nothing. -/
theorem fills_blank : Fills blank := .inl rfl

/-- On one line a comment has the parts that it had. -/
theorem parts_oneLine (body : List Lexeme) : parts (oneLine body) = parts body := by
  have hparts (ls : List Lexeme) (hls : ∀ l ∈ ls, Says l) :
      parts (ls.flatMap fun l => [l, blank]) = ls := by
    induction ls with
    | nil => rfl
    | cons l ls ih =>
      obtain ⟨hl, hls⟩ := List.forall_mem_cons.mp hls
      have hblank : parts [blank] = [] := rfl
      rw [List.flatMap_cons, parts_append, ih hls, parts_cons_of_saying hl, hblank]
      rfl
  have hfirst : parts (oneLine body) = parts ((parts body).flatMap fun l => [l, blank]) := rfl
  rw [hfirst, hparts _ fun l hl => (mem_parts_iff.mp hl).2]

/-- If a comment says no more than its tags, its texts stand on the lines of these. -/
theorem breaks_of_saysMore {mid behind : List Lexeme} (hmid : ∀ l ∈ mid, Fills l)
    (hl : l.kind = .docText) (h : saysMore true (mid ++ l :: behind) = false) :
    breaks mid = 0 ∧ saysMore true behind = false := by
  rw [saysMore_append_of_fills hmid, Bool.true_and, saysMore, if_pos hl, Bool.or_eq_false_iff,
    Bool.not_eq_false', beq_iff_eq] at h
  obtain ⟨hflat, hbehind⟩ := h
  rw [hflat] at hbehind
  exact ⟨hflat, hbehind⟩

/-- A comment with a lone type starts with its tag, and says nothing behind it but text on the same
line. -/
theorem exists_lone_tag (hbody : IsBody body) (hlone : (Summary.ofBody body).isLoneType = true) :
    ∃ lead name behind, body = lead ++ name :: behind ∧ (∀ l ∈ lead, Fills l) ∧
      name.kind = .docTag ∧
      (name.text = "@var" ∨ name.text = "@type") ∧ (∀ l ∈ behind, Says l → l.kind = .docText) ∧
      saysMore true behind = false := by
  obtain ⟨hcontent, text, htext, htags⟩ := Summary.isLoneType_spec hlone
  change saysMore false body = false at hcontent
  rw [Summary.ofBody, tags_eq_parts] at htags
  rcases DocLayout.exists_first hbody with hnone | ⟨lead, name, behind, rfl, hlead, hname⟩
  · rw [parts_of_fills hnone] at htags
    cases htags
  rw [saysMore_append_of_fills hlead, Bool.false_and, saysMore] at hcontent
  have htag : name.kind = .docTag := by
    refine hname.resolve_right fun hkind => ?_
    rw [if_pos hkind] at hcontent
    cases hcontent
  rw [if_neg (by rw [htag]; decide), if_pos htag] at hcontent
  rw [parts_append, parts_of_fills hlead, parts_cons_of_saying hname, List.nil_append,
    List.filter_cons_of_pos (by simp [htag]), List.map_cons, List.reverse_cons] at htags
  -- the tag is the only one, so all else that is said is text
  obtain ⟨hrest, hsame⟩ := List.append_eq_singleton_iff.mp htags |>.resolve_right
      fun h => by cases h.2
  rw [List.reverse_eq_nil_iff, List.map_eq_nil_iff, List.filter_eq_nil_iff] at hrest
  refine ⟨lead, name, behind, rfl, hlead, htag, ?_, fun l hl hsaid => ?_, hcontent⟩
  · rwa [(List.cons_eq_cons.mp hsame).1]
  · refine hsaid.resolve_left fun hkind => hrest l (mem_parts_iff.mpr ⟨hl, hsaid⟩) ?_
    simp [hkind]

/-- A comment with a lone type is made of a tag, and perhaps of text on the line of the tag. -/
theorem parts_of_isLoneType (hlegible : Legible body)
    (hlone : (Summary.ofBody body).isLoneType = true) :
    ∃ name ∈ body, name.kind = .docTag ∧ (name.text = "@var" ∨ name.text = "@type") ∧
      (parts body = [name] ∨
        ∃ words ∈ body, words.kind = .docText ∧ parts body = [name, words]) := by
  obtain ⟨lead, name, behind, rfl, hlead, htag, htext, hwordy, hcontent⟩ :=
    exists_lone_tag hlegible.isBody hlone
  have hparts : parts (lead ++ name :: behind) = name :: parts behind := by
    rw [parts_append, parts_of_fills hlead, parts_cons_of_saying (.inl htag), List.nil_append]
  have hbody : IsBody behind := fun l hl => hlegible.isBody l (by simp [hl])
  refine ⟨name, by simp, htag, htext, ?_⟩
  rw [hparts]
  rcases DocLayout.exists_first hbody with hnone | ⟨mid, words, rest, rfl, hmid, hwords⟩
  · exact .inl (by rw [parts_of_fills hnone])
  have hkind := hwordy words (by simp) hwords
  obtain ⟨_, hrest⟩ := breaks_of_saysMore hmid hkind hcontent
  refine .inr ⟨words, by simp, hkind, ?_⟩
  rw [parts_append, parts_of_fills hmid, parts_cons_of_saying hwords, List.nil_append]
  have hbehind : IsBody rest := fun l hl => hbody l (by simp [hl])
  rcases DocLayout.exists_first hbehind with hnone | ⟨gap, other, last, rfl, hgap, hother⟩
  · rw [parts_of_fills hnone]
  · obtain ⟨hflat, _⟩ := breaks_of_saysMore hgap (hwordy other (by simp) hother) hrest
    have hfeed := Legible.feed_of_text (a := lead ++ name :: mid)
        (by simpa using hlegible) hkind hgap hother
    exact absurd hfeed (DocLayout.breaks_eq_zero_iff.mp hflat)

/-- A blank behind the opening tag is read as one, in front of what is none. -/
theorem blank_reads {rest : List Char} (hrest : rest.head?.any Php.Lexer.isBlank = false) :
    Php.Reads (.docComment false) blank rest (.docComment false) :=
  (DocReads.blank rfl (by decide) (by decide) hrest fun hone => absurd hone (by decide)).reads

/-- A comment with a lone type can be read on one line. -/
theorem legible_oneLine (hlegible : Legible body)
    (hlone : (Summary.ofBody body).isLoneType = true) : Legible (oneLine body) := by
  have hbody : IsBody (oneLine body) := by
    intro l hl
    rcases List.mem_cons.mp hl with rfl | hl
    · exact .inl fills_blank
    obtain ⟨part, hpart, hl⟩ := List.mem_flatMap.mp hl
    rcases List.mem_cons.mp hl with rfl | hl
    · exact .inr (mem_parts_iff.mp hpart).2
    · exact .inl (List.mem_singleton.mp hl ▸ fills_blank)
  suffices hread : Php.ReadsAll (.docComment false) (oneLine body ++ [docCloser]) [] .code from
    Php.legible_of_reads hbody rfl hread
  obtain ⟨name, hname, htag, _, hparts⟩ := parts_of_isLoneType hlegible hlone
  obtain ⟨_, _, _, hread, _⟩ := hlegible.exists_docReads hname
  obtain ⟨c, t, hnameText, hc, _⟩ := hread.visible (.inl htag)
  rw [oneLine]
  rcases hparts with hparts | ⟨words, hwords, hkind, hparts⟩
  · rw [hparts]
    refine .cons (blank_reads (by simp [hnameText, hc]))
      (.cons (hread.tag_within htag rfl).reads ?_)
    exact .cons (blank_reads rfl) (.singleton (DocReads.close rfl rfl rfl).reads)
  · obtain ⟨_, _, _, hwordsRead, _⟩ := hlegible.exists_docReads hwords
    obtain ⟨d, u, hwordsText, hd, _⟩ := hwordsRead.visible (.inr hkind)
    have hblank : ∀ c ∈ [' '], Php.Lexer.isBlank c = true := by decide
    have hends : EndsPart (' ' :: '*' :: '/' :: []) := (EndsPart.close []).append hblank
    rw [hparts]
    refine .cons (blank_reads (by simp [hnameText, hc]))
      (.cons (hread.tag_within htag rfl).reads ?_)
    refine .cons (blank_reads (by simp [hwordsText, hd]))
      (.cons (hwordsRead.text_within hkind hends).reads ?_)
    exact .cons (DocReads.tail rfl rfl rfl rfl).reads
      (.singleton (DocReads.close rfl rfl rfl).reads)

/-- And it is an annotation there. -/
theorem annotates_oneLine (hlegible : Legible body)
    (hlone : (Summary.ofBody body).isLoneType = true) : annotates (oneLine body) = true := by
  have hnew := legible_oneLine hlegible hlone
  obtain ⟨name, hname, htag, hnames, hparts⟩ := parts_of_isLoneType hlegible hlone
  have hflat : breaks (oneLine body) = 0 := by
    rw [DocLayout.breaks_eq_zero_iff, letters, List.mem_flatMap]
    rintro ⟨l, hl, hfeed⟩
    rcases List.mem_cons.mp hl with rfl | hl
    · simp [blank] at hfeed
    obtain ⟨part, hpart, hl⟩ := List.mem_flatMap.mp hl
    obtain ⟨hmem, hsaid⟩ := mem_parts_iff.mp hpart
    rcases List.mem_cons.mp hl with rfl | hl
    · exact hlegible.flat hmem hsaid hfeed
    · simp [List.mem_singleton.mp hl, blank] at hfeed
  obtain ⟨rest, hrest⟩ : ∃ rest, letters (enclosed (oneLine body)) =
      ['/', '*', '*'] ++ ' ' :: (name.text.toList ++ ' ' :: rest) := by
    rcases hparts with hparts | ⟨words, _, _, hparts⟩
    · exact ⟨letters [docCloser], by simp [oneLine, hparts, enclosed, docOpener, blank]⟩
    · exact ⟨letters [words, blank, docCloser],
        by simp [oneLine, hparts, enclosed, docOpener, blank]⟩
  have hsecond := secondWord?_of_toList (String.toList_ofList.trans hrest) (by decide)
    (by rcases hnames with hnames | hnames <;> rw [hnames] <;> decide)
  rw [annotates, hflat, hsecond, String.ofList_toList]
  rcases hnames with hnames | hnames
  · simp [hnames, oneLineTags]
  · simp [hnames, oneLineTags]

/-- The fix for a lone type puts a blank behind every part, and takes out what says nothing. -/
theorem rewritten_toOneLine {edits : List Edit} {fs : List Finding}
    (hmade : MadeIn s edits tag close fs) (hmakes : ∀ e, Makes fs e ↔ e ∈ toOneLine s tag close)
    (hlow : tag < i) (hhigh : i < close) :
    s.rewritten edits i =
      if s.kind i = .docTag ∨ s.kind i = .docText then s.text i ++ " " else "" := by
  have hmem :
      (if s.kind i = .docTag ∨ s.kind i = .docText then Edit.append i " " else .replace i "") ∈
        toOneLine s tag close :=
    List.mem_cons_of_mem _ (List.mem_map.mpr ⟨i, Store.mem_between.mpr ⟨hlow, hhigh⟩, rfl⟩)
  split at hmem
  · rename_i hpart
    rw [if_pos hpart]
    exact hmade.rewritten (e := .append i " ") ((hmakes _).mpr hmem) (Nat.le_of_lt hlow)
      (Nat.le_of_lt hhigh)
  · rename_i hpart
    rw [if_neg hpart]
    exact hmade.rewritten (e := .replace i "") ((hmakes _).mpr hmem) (Nat.le_of_lt hlow)
      (Nat.le_of_lt hhigh)

/-- Of a comment put on one line each part is left, with a blank behind it. -/
theorem remade_parts (h : IsComment s tag close) {edits : List Edit} {fs : List Finding}
    (hmade : MadeIn s edits tag close fs) (hmakes : ∀ e, Makes fs e ↔ e ∈ toOneLine s tag close)
    (hlow : tag < i) (hi : i ≤ close) :
    s.remade edits i close = letters ((parts (s.slice i close)).flatMap fun l => [l, blank]) := by
  generalize hleft : close - i = left
  induction left generalizing i with
  | zero =>
    obtain rfl : i = close := by omega
    rw [Store.remade_self, Store.slice_self]
    rfl
  | succ left ih =>
    have hclose : i < close := by omega
    rw [Store.remade_cons s edits hclose, Store.slice_cons hclose,
      ih (Nat.lt_succ_of_lt hlow) hclose (by omega), rewritten_toOneLine hmade hmakes hlow hclose]
    split
    · rename_i hpart
      rw [parts_cons_of_saying (show Says ⟨s.kind i, s.text i⟩ from hpart)]
      simp [blank]
    · rename_i hpart
      rw [parts_cons_of_fills ((h.fills_or_says hlow hclose).resolve_right hpart)]
      rfl

/-- The fix for a lone type puts its parts on one line. -/
theorem remade_toOneLine (h : IsComment s tag close) {edits : List Edit} {fs : List Finding}
    (hmade : MadeIn s edits tag close fs) (hmakes : ∀ e, Makes fs e ↔ e ∈ toOneLine s tag close) :
    s.remade edits tag (close + 1) = letters (enclosed (oneLine (s.slice (tag + 1) close))) := by
  have hlt := h.lt
  have htag : s.rewritten edits tag = s.text tag ++ " " :=
    hmade.rewritten (e := .append tag " ") ((hmakes _).mpr List.mem_cons_self) (Nat.le_refl tag)
      (Nat.le_of_lt hlt)
  have hclose : s.rewritten edits close = s.text close := by
    refine hmade.rewritten_of_forall_ne (Nat.le_of_lt hlt) (Nat.le_refl close) fun e he => ?_
    exact Nat.ne_of_lt (target_of_mem_toOneLine hlt e ((hmakes e).mp he)).2
  rw [Store.remade_cons s edits (by omega), Store.remade_succ s edits hlt, htag, hclose,
    remade_parts h hmade hmakes (Nat.lt_succ_self tag) hlt, h.text_tag, h.text_close]
  simp [enclosed, oneLine, blank, docOpener, docCloser]

end DocComment

end PhpStyle
