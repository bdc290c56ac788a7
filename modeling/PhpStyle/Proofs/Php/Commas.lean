import PhpStyle.Proofs.Php.Contexts
import PhpStyle.Proofs.Php.Retokenizing

/-!
# Texts with commas put in

A comma may be put in behind the last visible lexeme of a list in parentheses. What stands in front
of it is read as before, and so is the whitespace behind it. No word looks past the comma, or past
the parenthesis that closes the list, so all words are settled as before. This holds of any number
of commas that are put in at once.
-/

namespace PhpStyle.Php

open Lexer

/-- The lexeme that is put in. -/
def comma : Lexeme := ⟨.comma, ","⟩

/-- That a list ends here: there is whitespace, and then the parenthesis that closes the list. -/
def ClosesList (ls : List Lexeme) : Prop :=
  ∃ blanks paren behind, ls = blanks ++ paren :: behind ∧ (∀ l ∈ blanks, l.kind = .whitespace) ∧
    paren.kind = .closeParen

/-- Lexemes, the first of them at a position, with a comma put in behind the marked ones. -/
def withCommas (marked : Nat → Bool) (n : Nat) : List Lexeme → List Lexeme
  | [] => []
  | l :: ls =>
    if marked n then l :: comma :: withCommas marked (n + 1) ls
    else l :: withCommas marked (n + 1) ls

/-- Of lexemes, the first of them at a position, only such are marked as are visible and have the
end of a list behind them. -/
def MarksEnds (marked : Nat → Bool) (n : Nat) (ls : List Lexeme) : Prop :=
  ∀ front l behind, ls = front ++ l :: behind → marked (n + front.length) = true →
    l.kind ≠ .whitespace ∧ ClosesList behind

/-- A comma stands behind a lexeme of this kind, with nothing but trivia between the two. -/
def CommaBehind (k : Kind) (ls : List Lexeme) : Prop :=
  ∃ front l behind, ls = front ++ l :: behind ∧ l.kind = k ∧ Leads behind .comma

/-- Of a lexeme at a position and the trivia behind it, one is marked. -/
def MarksGap (marked : Nat → Bool) (n : Nat) (ls : List Lexeme) : Prop :=
  ∃ gap behind, ls = gap ++ behind ∧ (∀ g ∈ gap, g.kind.isTrivia = true) ∧
    marked (n + gap.length) = true

/-- Of a lexeme of this kind and the trivia behind it, one is marked. -/
def MarksBehind (marked : Nat → Bool) (n : Nat) (k : Kind) (ls : List Lexeme) : Prop :=
  ∃ front l behind, ls = front ++ l :: behind ∧ l.kind = k ∧
    MarksGap marked (n + front.length) behind

variable {marked : Nat → Bool} {n : Nat} {l : Lexeme} {ls : List Lexeme}

/-- The end of a list starts with the parenthesis or with whitespace in front of it. -/
theorem ClosesList.cons_cases (h : ClosesList (l :: ls)) :
    l.kind = .closeParen ∨ l.kind = .whitespace ∧ ClosesList ls := by
  obtain ⟨blanks, paren, behind, hsplit, hblank, hparen⟩ := h
  cases blanks with
  | nil =>
    obtain ⟨rfl, _⟩ := List.cons_eq_cons.mp hsplit
    exact .inl hparen
  | cons w blanks =>
    obtain ⟨rfl, rfl⟩ := List.cons_eq_cons.mp hsplit
    obtain ⟨hw, hblank⟩ := List.forall_mem_cons.mp hblank
    exact .inr ⟨hw, blanks, paren, behind, rfl, hblank, hparen⟩

/-- Where a list ends, there is at least the parenthesis. -/
theorem ClosesList.ne_nil (h : ClosesList ls) : ls ≠ [] := by
  obtain ⟨blanks, paren, behind, rfl, _⟩ := h
  simp

/-- Whitespace in front of the end of a list is part of it. -/
theorem ClosesList.cons (hl : l.kind = .whitespace) (h : ClosesList ls) : ClosesList (l :: ls) := by
  obtain ⟨blanks, paren, behind, rfl, hblank, hparen⟩ := h
  exact ⟨l :: blanks, paren, behind, rfl, List.forall_mem_cons.mpr ⟨hl, hblank⟩, hparen⟩

/-- Marks stand at ends of lists if the one of the first lexeme does and those of the others do. -/
theorem marksEnds_cons_iff : MarksEnds marked n (l :: ls) ↔
    (marked n = true → l.kind ≠ .whitespace ∧ ClosesList ls) ∧ MarksEnds marked (n + 1) ls := by
  constructor
  · intro h
    refine ⟨h [] l ls rfl, fun front k behind hsplit hk => ?_⟩
    refine h (l :: front) k behind (by rw [hsplit, List.cons_append]) ?_
    rwa [List.length_cons, Nat.add_comm front.length, ← Nat.add_assoc]
  · rintro ⟨hhead, htail⟩ front k behind hsplit hk
    cases front with
    | nil =>
      obtain ⟨rfl, rfl⟩ := List.cons_eq_cons.mp hsplit
      exact hhead hk
    | cons _ front =>
      obtain ⟨rfl, rfl⟩ := List.cons_eq_cons.mp hsplit
      refine htail front k behind rfl ?_
      rwa [List.length_cons, Nat.add_comm front.length, ← Nat.add_assoc] at hk

/-- A marked lexeme is visible and has the end of a list behind it. -/
theorem MarksEnds.head (h : MarksEnds marked n (l :: ls)) (hl : marked n = true) :
    l.kind ≠ .whitespace ∧ ClosesList ls :=
  (marksEnds_cons_iff.mp h).1 hl

/-- The marks behind a lexeme stand at ends of lists as well. -/
theorem MarksEnds.tail (h : MarksEnds marked n (l :: ls)) : MarksEnds marked (n + 1) ls :=
  (marksEnds_cons_iff.mp h).2

/-! ## Reading -/

/-- Whitespace and marks are read in code, and a comma does not join what they start with. -/
theorem Reads.starts_edge {mode next : Mode} {after : List Char} (hread : Reads mode l after next)
    (hl : l.kind = .whitespace ∨ l.kind.isMark = true) :
    mode = .code ∧ ∃ x rest, l.text.toList = x :: rest ∧
      x ∈ ['\n', '\r'] ++ ' ' :: '\t' :: marks := by
  rcases hl with hl | hl
  · obtain ⟨rfl, _, _⟩ := hread.whitespace hl
    obtain ⟨c, taken, htext, hstep⟩ := hread
    refine ⟨rfl, c, taken, htext, ?_⟩
    rcases isBlank_of_whitespace ((congrArg Step.kind hstep).trans hl) with hc | hc
    · simp only [isBlank, Bool.or_eq_true, beq_iff_eq] at hc
      rcases hc with (rfl | rfl) | rfl <;> decide
    · rw [hc]
      decide
  · obtain ⟨⟨z, hz, htext⟩, _⟩ := hread.of_mark hl
    refine ⟨hread.code_of_isMark hl, z, [], htext, ?_⟩
    exact List.mem_append_right _ (List.mem_cons_of_mem _ (List.mem_cons_of_mem _ hz))

/-- The end of a list is read as code, and starts with a break, a blank or a mark. -/
theorem exists_edge_of_closesList {next : Mode} (hclose : ClosesList ls)
    (hls : lexFrom next (letters ls) = ls) :
    next = .code ∧ ∃ x rest, letters ls = x :: rest ∧ x ∈ ['\n', '\r'] ++ ' ' :: '\t' :: marks := by
  cases ls with
  | nil => exact absurd rfl hclose.ne_nil
  | cons l ls =>
    have hl : l.kind = .whitespace ∨ l.kind.isMark = true := by
      rcases hclose.cons_cases with hparen | ⟨hblank, _⟩
      · exact .inr (by rw [hparen]; rfl)
      · exact .inl hblank
    obtain ⟨_, _, hread, _⟩ := exists_reads hls
    obtain ⟨hcode, x, rest, htext, hx⟩ := hread.starts_edge hl
    exact ⟨hcode, x, rest ++ letters ls, by rw [letters_cons, htext, List.cons_append], hx⟩

/-- A text with one comma put in is read as the lexemes with the comma. -/
theorem lexFrom_comma {pre post : List Lexeme} (hclose : ClosesList post)
    (hlex : lexFrom .html (letters (pre ++ post)) = pre ++ post) :
    lexFrom .html (letters (pre ++ comma :: post)) = pre ++ comma :: post := by
  obtain ⟨next, _, hread, hpost⟩ := exists_readsAll hlex
  obtain ⟨rfl, x, rest, hletters, hx⟩ := exists_edge_of_closesList hclose hpost
  have hwordless : ∀ c ∈ ['\n', '\r'] ++ ' ' :: '\t' :: marks, c ∉ ['n', 'N'] := by decide
  rw [hletters] at hread
  have hfront : ReadsAll .html pre (',' :: letters post) .code :=
    hread.bound (u := []) (.join hx (by decide)) (fun _ => rfl) fun hn => absurd hn (hwordless x hx)
  have hcomma : Reads .code comma (letters post) .code :=
    ⟨',', [], rfl, codeStep_of_mark (by decide) (letters post)⟩
  have hall : ReadsAll .html (pre ++ [comma]) (letters post) .code :=
    .append hfront (.singleton hcomma)
  rw [List.append_cons, letters_append, hall.lexFrom_append, hpost]

/-- A text with commas put in where lists end is read as the lexemes with the commas. -/
theorem lexFrom_withCommas (pre : List Lexeme) (hmarks : MarksEnds marked n ls)
    (hlex : lexFrom .html (letters (pre ++ ls)) = pre ++ ls) :
    lexFrom .html (letters (pre ++ withCommas marked n ls)) = pre ++ withCommas marked n ls := by
  induction ls generalizing pre n with
  | nil => exact hlex
  | cons l ls ih =>
    rw [withCommas]
    split
    · rename_i hl
      rw [List.append_cons, List.append_cons]
      apply ih _ hmarks.tail
      rw [← List.append_cons]
      apply lexFrom_comma (hmarks.head hl).2
      rwa [← List.append_cons]
    · rw [List.append_cons]
      apply ih _ hmarks.tail
      rwa [← List.append_cons]

/-! ## Settling -/

namespace Words

/-- A closing parenthesis is no word. -/
theorem isWord_of_closeParen (hraw : Raw l) (hl : l.kind = .closeParen) : isWord l = false := by
  by_contra hword
  have hmark := (hraw.of_isWord (by simpa using hword)).2.2
  rw [hl] at hmark
  cases hmark

/-- Settling leaves a closing parenthesis as it is. -/
theorem settle_of_closeParen (hraw : Raw l) (hl : l.kind = .closeParen)
    (before after : List Lexeme) : settle before after l = l := by
  rw [settle, isWord_of_closeParen hraw hl]
  rfl

/-- To a word in front of it, the end of a list is a closing parenthesis. -/
theorem firstKind_of_closesList (hclose : ClosesList ls) :
    firstKind ls = some .closeParen ∧ kindPastReference ls = some .closeParen ∧
      separates ls = false ∧
      ∃ paren ∈ ls, paren.kind = .closeParen ∧ (code ls).head? = some paren := by
  obtain ⟨blanks, paren, behind, rfl, hblank, hparen⟩ := hclose
  have hgap : ∀ l ∈ blanks, l.kind.isTrivia = true := by
    intro l hl
    rw [hblank l hl]
    rfl
  have hcode : code (blanks ++ paren :: behind) = paren :: behind :=
    code_append hgap (by rw [hparen]; rfl) behind
  refine ⟨?_, ?_, ?_, paren, by simp, hparen, ?_⟩
  · rw [firstKind, hcode, List.head?_cons, Option.map_some, hparen]
  · rw [kindPastReference, hcode]
    simp [hparen]
  · cases blanks with
    | nil => simp [separates, hparen]
    | cons w blanks => simp [separates, hblank w List.mem_cons_self]
  · rw [hcode]
    rfl

/-- To a word, a comma looks like the end of its list. -/
theorem alikeAhead_comma (hraw : ∀ l ∈ ls, Raw l) (hclose : ClosesList ls) (ks : List Lexeme) :
    AlikeAhead (comma :: ks) ls := by
  obtain ⟨hfirst, hpast, hseparates, paren, hmem, hparen, hhead⟩ := firstKind_of_closesList hclose
  have hfirst' : firstKind (comma :: ks) = some .comma := firstKind_cons comma ks
  have hpast' : kindPastReference (comma :: ks) = some .comma := kindPastReference_cons comma ks
  constructor
  · rw [hfirst, hfirst']
    decide
  · rw [hfirst, hfirst']
    decide
  · rw [hpast, hpast']
    decide
  · rw [hhead, Option.any_some, isWord_of_closeParen (hraw paren hmem) hparen]
    rfl
  · rw [hseparates]
    rfl

/-- Lexemes look alike with the commas put in, as a comma stands for the parenthesis behind it. -/
theorem alikeAhead_withCommas (hraw : ∀ l ∈ ls, Raw l) (hmarks : MarksEnds marked n ls) :
    AlikeAhead (withCommas marked n ls) ls := by
  induction ls generalizing n with
  | nil => exact .refl _
  | cons l ls ih =>
    have hls := (List.forall_mem_cons.mp hraw).2
    rw [withCommas]
    split
    · rename_i hl
      exact (alikeAhead_comma hls (hmarks.head hl).2 _).cons l
    · exact (ih hls hmarks.tail).cons l

/-- A lexeme is settled as before, between lexemes that look alike and where a list ends. What is
settled behind it then finds lexemes that look alike in front, or stands where a list ends
itself. -/
theorem settle_withCommas {before before' after' : List Lexeme} (hl : Raw l)
    (hbefore : AlikeBehind before before' ∨ ClosesList (l :: ls)) (hafter : AlikeAhead ls after') :
    settle before' after' l = settle before ls l ∧
      (AlikeBehind (settle before ls l :: before) (settle before ls l :: before') ∨
        ClosesList ls) := by
  rcases hbefore with hbefore | hclose
  · rw [settle_alike hbefore hafter]
    exact ⟨rfl, .inl (hbefore.cons _)⟩
  rcases hclose.cons_cases with hparen | ⟨hblank, hclose⟩
  · rw [settle_of_closeParen hl hparen, settle_of_closeParen hl hparen]
    exact ⟨rfl, .inl (.of_code (by rw [hparen]; rfl) (by simp [hparen]) before before')⟩
  · rw [settle_of_whitespace hblank, settle_of_whitespace hblank]
    exact ⟨rfl, .inr hclose⟩

/-- Settling lexemes with commas put in settles those without, as a comma in front of the end of a
list is seen by no word. -/
theorem settleFrom_withCommas {before before' : List Lexeme} (hraw : ∀ l ∈ ls, Raw l)
    (hmarks : MarksEnds marked n ls) (hbefore : AlikeBehind before before' ∨ ClosesList ls) :
    settleFrom before' (withCommas marked n ls) = withCommas marked n (settleFrom before ls) := by
  induction ls generalizing n before before' with
  | nil => rfl
  | cons l ls ih =>
    obtain ⟨hl, hls⟩ := List.forall_mem_cons.mp hraw
    rw [settleFrom_cons, withCommas, withCommas]
    by_cases hmark : marked n = true
    · have hclose := (hmarks.head hmark).2
      have hafter := (alikeAhead_comma hls hclose (withCommas marked (n + 1) ls)).symm
      obtain ⟨hsame, _⟩ := settle_withCommas hl hbefore hafter
      have hcomma (before after : List Lexeme) : settle before after comma = comma := rfl
      rw [if_pos hmark, if_pos hmark, settleFrom_cons, settleFrom_cons, hsame, hcomma,
        ih hls hmarks.tail (.inr hclose)]
    · obtain ⟨hsame, hnext⟩ := settle_withCommas hl hbefore
          (alikeAhead_withCommas hls hmarks.tail).symm
      rw [if_neg hmark, if_neg hmark, settleFrom_cons, hsame, ih hls hmarks.tail hnext]

/-- Lexemes that settle to the end of a list end it. -/
theorem closesList_of_settleFrom {before : List Lexeme} (h : ClosesList (settleFrom before ls)) :
    ClosesList ls := by
  induction ls generalizing before with
  | nil => exact h
  | cons l ls ih =>
    rw [settleFrom_cons] at h
    rcases h.cons_cases with hparen | ⟨hblank, h⟩
    · exact ⟨[], l, ls, rfl, List.forall_mem_nil _, kind_of_settle hparen (by decide)⟩
    · exact .cons (kind_of_settle hblank (by decide)) (ih h)

/-- Marks at ends of settled lists stand at ends of lists. -/
theorem marksEnds_of_settleFrom {before : List Lexeme}
    (h : MarksEnds marked n (settleFrom before ls)) : MarksEnds marked n ls := by
  induction ls generalizing n before with
  | nil => exact h
  | cons l ls ih =>
    rw [settleFrom_cons] at h
    refine marksEnds_cons_iff.mpr ⟨fun hmark => ?_, ih h.tail⟩
    obtain ⟨hvisible, hclose⟩ := h.head hmark
    refine ⟨fun hblank => hvisible ?_, closesList_of_settleFrom hclose⟩
    rw [settle_of_whitespace hblank, hblank]

end Words

/-! ## Texts -/

/-- A text whose lexemes are those of another with commas put in where lists end is read as these
lexemes. -/
theorem settleWords_lex_withCommas {source text : String}
    (hmarks : MarksEnds marked 0 (settleWords (lex source)))
    (htext : text.toList = letters (withCommas marked 0 (settleWords (lex source)))) :
    settleWords (lex text) = withCommas marked 0 (settleWords (lex source)) := by
  have hraw : ∀ l ∈ lex source, Raw l := raw_lex source
  have hends : MarksEnds marked 0 (lex source) := Words.marksEnds_of_settleFrom hmarks
  have hsettle : settleWords (withCommas marked 0 (lex source)) = withCommas marked 0
      (settleWords (lex source)) :=
    Words.settleFrom_withCommas hraw hends (.inl (.refl []))
  have hsource : letters ([] ++ lex source) = source.toList := (lex_cut source).spells
  have hlex : lex text = withCommas marked 0 (lex source) := by
    have hletters := letters_congr (map_text_settleWords (withCommas marked 0 (lex source)))
    rw [lex_eq_lexFrom, htext, ← hsettle, hletters]
    apply lexFrom_withCommas [] hends
    rw [hsource, List.nil_append, lex_eq_lexFrom]
  rw [hlex, hsettle]

/-- A token of which a comma is put behind it is rewritten with the comma, and any other is as
before. -/
theorem rewriteToken_of_commas {c : Changeset} (hcomma : ∀ e ∈ c, e.change = .append ",")
    (t : Token) (n : Nat) :
    rewriteToken c (t, n) = if c.targets.contains n = true then t.text ++ "," else t.text := by
  rw [rewriteToken]
  cases hfind : c.find? (·.target == n) with
  | none =>
    rw [if_neg]
    intro hmem
    obtain ⟨e, he, htarget⟩ := List.mem_map.mp (List.contains_iff_mem.mp hmem)
    exact List.find?_eq_none.mp hfind e he (beq_iff_eq.mpr htarget)
  | some e =>
    have he := List.mem_of_find?_eq_some hfind
    have htarget : e.target = n := by simpa using List.find?_some hfind
    have hmem : c.targets.contains n = true :=
      List.contains_iff_mem.mpr (List.mem_map.mpr ⟨e, he, htarget⟩)
    rw [if_pos hmem]
    dsimp only
    rw [hcomma e he]
    rfl

/-- Edits that put commas behind tokens make the text of the lexemes with these commas. -/
theorem toList_rewrite_commas {c : Changeset} (hcomma : ∀ e ∈ c, e.change = .append ",")
    (s : Store) : (s.rewrite c).toList = letters (withCommas c.targets.contains 0 s.lexemes) := by
  have htokens (tokens : List Token) (n : Nat) :
      ((tokens.zipIdx n).flatMap fun t => (rewriteToken c t).toList) =
        letters (withCommas c.targets.contains n (tokens.map fun t => ⟨t.kind, t.text⟩)) := by
    induction tokens generalizing n with
    | nil => rfl
    | cons t tokens ih =>
      rw [List.zipIdx_cons, List.flatMap_cons, ih, rewriteToken_of_commas hcomma,
        List.map_cons, withCommas]
      split
      · rw [letters_cons, letters_cons, String.toList_append, List.append_assoc]
        rfl
      · rw [letters_cons]
  rw [Store.rewrite, String.toList_join, List.flatMap_map]
  exact htokens s.tokens.toList 0

/-! ## What commas stand behind -/

variable {k : Kind}

/-- A kind leads if the first lexeme has it, or is trivia in front of lexemes that it leads. -/
theorem leads_cons_iff : Leads (l :: ls) k ↔ l.kind = k ∨ l.kind.isTrivia = true ∧ Leads ls k := by
  constructor
  · rintro ⟨gap, l', rest, hsplit, hk, hgap⟩
    cases gap with
    | nil =>
      obtain ⟨rfl, _⟩ := List.cons_eq_cons.mp hsplit
      exact .inl hk
    | cons g gap =>
      obtain ⟨rfl, rfl⟩ := List.cons_eq_cons.mp hsplit
      obtain ⟨hl, hgap⟩ := List.forall_mem_cons.mp hgap
      exact .inr ⟨hl, gap, l', rest, rfl, hk, hgap⟩
  · rintro (hk | ⟨hl, gap, l', rest, rfl, hk, hgap⟩)
    · exact ⟨[], l, ls, rfl, hk, List.forall_mem_nil _⟩
    · exact ⟨l :: gap, l', rest, rfl, hk, List.forall_mem_cons.mpr ⟨hl, hgap⟩⟩

/-- A list is split at its first element or behind it. -/
theorem exists_split_cons_iff {P : List Lexeme → Lexeme → List Lexeme → Prop} :
    (∃ front l' behind, l :: ls = front ++ l' :: behind ∧ P front l' behind) ↔
      P [] l ls ∨ ∃ front l' behind, ls = front ++ l' :: behind ∧ P (l :: front) l' behind := by
  constructor
  · rintro ⟨front, l', behind, hsplit, hP⟩
    cases front with
    | nil =>
      obtain ⟨rfl, rfl⟩ := List.cons_eq_cons.mp hsplit
      exact .inl hP
    | cons _ front =>
      obtain ⟨rfl, rfl⟩ := List.cons_eq_cons.mp hsplit
      exact .inr ⟨front, l', behind, rfl, hP⟩
  · rintro (hP | ⟨front, l', behind, rfl, hP⟩)
    · exact ⟨[], l, ls, rfl, hP⟩
    · exact ⟨l :: front, l', behind, rfl, hP⟩

/-- A comma stands behind a kind at the first lexeme or further on. -/
theorem commaBehind_cons_iff :
    CommaBehind k (l :: ls) ↔ l.kind = k ∧ Leads ls .comma ∨ CommaBehind k ls :=
  exists_split_cons_iff

/-- A mark stands in a gap at the first lexeme or, past trivia, further on. -/
theorem marksGap_cons_iff :
    MarksGap marked n (l :: ls) ↔ marked n = true ∨ l.kind.isTrivia = true ∧
      MarksGap marked (n + 1) ls := by
  constructor
  · rintro ⟨gap, behind, hsplit, hgap, hmark⟩
    cases gap with
    | nil => exact .inl hmark
    | cons g gap =>
      obtain ⟨rfl, rfl⟩ := List.cons_eq_cons.mp hsplit
      obtain ⟨hl, hgap⟩ := List.forall_mem_cons.mp hgap
      refine .inr ⟨hl, gap, behind, rfl, hgap, ?_⟩
      rwa [Nat.add_right_comm]
  · rintro (hmark | ⟨hl, gap, behind, rfl, hgap, hmark⟩)
    · exact ⟨[], l :: ls, rfl, List.forall_mem_nil _, hmark⟩
    · refine ⟨l :: gap, behind, rfl, List.forall_mem_cons.mpr ⟨hl, hgap⟩, ?_⟩
      rwa [List.length_cons, ← Nat.add_assoc, Nat.add_right_comm]

/-- A mark stands behind a kind at the first lexeme or further on. -/
theorem marksBehind_cons_iff :
    MarksBehind marked n k (l :: ls) ↔
      l.kind = k ∧ MarksGap marked n ls ∨ MarksBehind marked (n + 1) k ls := by
  have hshift (front : List Lexeme) : n + (l :: front).length = n + 1 + front.length := by
    rw [List.length_cons]
    omega
  rw [MarksBehind, exists_split_cons_iff]
  simp only [hshift]
  rfl

/-- No comma follows where a list ends. -/
theorem not_leads_withCommas (hclose : ClosesList ls) (hmarks : MarksEnds marked n ls) :
    ¬ Leads (withCommas marked n ls) .comma := by
  induction ls generalizing n with
  | nil => exact absurd rfl hclose.ne_nil
  | cons l ls ih =>
    rcases hclose.cons_cases with hparen | ⟨hblank, hclose⟩
    · have hother (ks : List Lexeme) : ¬ Leads (l :: ks) .comma := by
        rw [leads_cons_iff, hparen]
        rintro (hcomma | ⟨htrivia, _⟩)
        · cases hcomma
        · cases htrivia
      rw [withCommas]
      split
      · exact hother _
      · exact hother _
    · have hmark : ¬ marked n = true := fun hmark => (hmarks.head hmark).1 hblank
      rw [withCommas, if_neg hmark, leads_cons_iff]
      rintro (hcomma | ⟨_, hcomma⟩)
      · cases hblank.symm.trans hcomma
      · exact ih hclose hmarks.tail hcomma

/-- A comma follows if one did, or if one is put in among the trivia. -/
theorem leads_withCommas_iff (hmark : ¬ marked n = true) :
    Leads (withCommas marked (n + 1) ls) .comma ↔ Leads ls .comma ∨ MarksGap marked n ls := by
  induction ls generalizing n with
  | nil => simp [withCommas, MarksGap, Leads, hmark]
  | cons l ls ih =>
    rw [marksGap_cons_iff, withCommas, @leads_cons_iff l ls]
    by_cases hl : marked (n + 1) = true
    · have hgap : MarksGap marked (n + 1) ls := ⟨[], ls, rfl, List.forall_mem_nil _, hl⟩
      have hcomma (ks : List Lexeme) : Leads (comma :: ks) .comma := leads_cons_iff.mpr (.inl rfl)
      rw [if_pos hl, leads_cons_iff]
      tauto
    · rw [if_neg hl, leads_cons_iff, ih hl]
      tauto

/-- A comma stands behind a lexeme of some kind if one did, or if one is put in behind such a lexeme
and trivia. -/
theorem commaBehind_withCommas_iff (hmarks : MarksEnds marked n ls) :
    CommaBehind k (withCommas marked n ls) ↔ CommaBehind k ls ∨ MarksBehind marked n k ls := by
  induction ls generalizing n with
  | nil => simp [withCommas, CommaBehind, MarksBehind]
  | cons l ls ih =>
    rw [commaBehind_cons_iff, marksBehind_cons_iff, withCommas]
    by_cases hl : marked n = true
    · have hgap : MarksGap marked n ls := ⟨[], ls, rfl, List.forall_mem_nil _, hl⟩
      have hcomma (ks : List Lexeme) : Leads (comma :: ks) .comma := leads_cons_iff.mpr (.inl rfl)
      have hnone := not_leads_withCommas (hmarks.head hl).2 hmarks.tail
      rw [if_pos hl, commaBehind_cons_iff, commaBehind_cons_iff, ih hmarks.tail]
      tauto
    · rw [if_neg hl, commaBehind_cons_iff, leads_withCommas_iff hl, ih hmarks.tail]
      tauto

end PhpStyle.Php
