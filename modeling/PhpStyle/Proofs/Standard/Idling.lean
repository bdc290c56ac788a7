import PhpStyle.Proofs.Standard.Condition
import PhpStyle.Proofs.Standard.DocComment

/-!
# Fixes that leave the text as it is

A few fixes look for the blanks in front of a parenthesis or a brace and find none to change,
although the token is not where it should be: in front of the blanks stands a comment, or a token
that goes on over the end of its line, so the line breaks or the columns that the rule misses are
within that token. All other fixes of the standard change the text.
-/

namespace PhpStyle

open Php (Exact)
open Finding

/-- Nothing but whitespace parts a token from a comment before it, or from a token that breaks the
line. -/
def Store.FollowsLong (s : Store) (i : Nat) : Prop :=
  ∃ k < i, ((s.kind k).isComment = true ∨ 0 < s.breaks k) ∧ s.kind k ≠ .whitespace ∧
    ∀ p, k < p → p < i → s.kind p = .whitespace

/-- Codes of findings whose fix may leave the text as it is. -/
def idleCodes : List String :=
  ["CloseParenthesisLine", "CloseParenthesisIndent", "BraceSpacing", "BraceIndent",
   "NewlineBeforeOpenBrace"]

/-- A finding of the few whose fix may leave the text as it is, behind a comment or a long token. -/
def Finding.Idles (s : Store) (f : Finding) : Prop :=
  f.code ∈ idleCodes ∧ s.FollowsLong f.index

/-- Indentation has no line breaks. -/
theorem IndentStyle.count_pad (style : IndentStyle) (columns : Nat) :
    (style.pad columns).toList.count '\n' = 0 := by
  rw [pad, String.toList_ofList, List.count_replicate]
  cases style <;> rfl

section

variable {settings : Settings} {s : Store} {newline : String} {i : Nat}

/-- A token whose blank has the length wanted, but which does not stand in that column, is not the
first on its line: in front of the blank stands something else. -/
theorem before_blank (hs : Exact s) {b required : Nat} (hb : b < s.size) (hpos : 1 < b)
    (hblank : s.kind (b - 1) = .whitespace) (hbreak : s.breaks (b - 1) = 0)
    (hlength : (s.text (b - 1)).length = required) (hindent : s.indentOf b ≠ required) :
    s.kind (b - 2) ≠ .whitespace := by
  intro hspace
  have hprev : b - 2 + 1 = b - 1 := by omega
  have hnext : b - 1 + 1 = b := by omega
  have hcolumn := hs.column (b - 1) (by omega) (List.count_eq_zero.mp hbreak)
  have hends := hs.blank (b - 2) (by omega) hspace (by rw [hprev]; exact hblank)
  have hfirst := (hs.sound.follows (b - 2) (by omega)).column hends
  rw [hnext, hlength] at hcolumn
  rw [hprev] at hfirst
  rw [Store.indentOf, hcolumn, hfirst] at hindent
  omega

/-- Indenting a token by what stands in front of it changes the text, unless that is a comment or a
long token, or the indentation behind one. Some token in front of it, `a`, is not whitespace. -/
theorem changes_or_followsLong (hs : Exact s) {a b required : Nat} (hab : a < b) (hb : b < s.size)
    (ha : s.kind a ≠ .whitespace) (hindent : s.indentOf b ≠ required) {style : IndentStyle}
    {f : Finding} (hfix : f.fix = some [.replace (b - 1) (style.pad required)])
    (hlong : ∀ k, a ≤ k → k < b → s.kind k ≠ .whitespace →
      (∀ p, k < p → p < b → s.kind p = .whitespace ∧ s.breaks p = 0) →
      (s.kind k).isComment = true ∨ 0 < s.breaks k) :
    f.Changes s ∨ s.FollowsLong b := by
  by_cases hspace : s.kind (b - 1) = .whitespace
  · have hother : a ≠ b - 1 := fun heq => ha (heq ▸ hspace)
    by_cases hsame : style.pad required = s.text (b - 1)
    · right
      have hlength : (s.text (b - 1)).length = required := by rw [← hsame, style.length_pad]
      have hbreak : s.breaks (b - 1) = 0 := by
        rw [Store.breaks, ← hsame]
        exact style.count_pad required
      have hvisible := before_blank hs hb (by omega) hspace hbreak hlength hindent
      have hblank : ∀ p, b - 2 < p → p < b → s.kind p = .whitespace ∧ s.breaks p = 0 := by
        intro p hlow hhigh
        obtain rfl : p = b - 1 := by omega
        exact ⟨hspace, hbreak⟩
      exact ⟨b - 2, by omega, hlong (b - 2) (by omega) (by omega) hvisible hblank, hvisible,
        fun p hlow hhigh => (hblank p hlow hhigh).1⟩
    · exact .inl (changes_of_replace hs.sound hfix (by omega) hsame)
  · right
    exact ⟨b - 1, by omega,
      hlong (b - 1) (by omega) (by omega) hspace (fun p _ _ => by omega), hspace,
      fun p _ _ => by omega⟩

/-- If only tokens within their lines part a token from one on an earlier line, then that one breaks
the line. -/
theorem breaks_pos_of_line_ne (hs : Php.Sound s) {k b : Nat} (hkb : k < b) (hb : b < s.size)
    (hline : s.line b ≠ s.line k) (hflat : ∀ p, k < p → p < b → s.breaks p = 0) :
    0 < s.breaks k := by
  have hlines := hs.line_eq_add_between hkb hb
  have hsum : ((s.between k b).map s.breaks).sum = 0 := by
    refine List.sum_eq_zero_iff_forall_eq_nat.mpr fun n hn => ?_
    obtain ⟨p, hp, rfl⟩ := List.mem_map.mp hn
    obtain ⟨hlow, hhigh⟩ := Store.mem_between.mp hp
    exact hflat p hlow hhigh
  omega

namespace Condition

variable {g : Group} {style : IndentStyle}

/-- A blank behind an opening parenthesis that goes was there. -/
theorem openBlank_changes (hs : Exact s) : ∀ f ∈ openBlank s g, f.Changes s := by
  intro f hf
  obtain ⟨hblank, hf⟩ := List.mem_ite_nil_right.mp hf
  obtain rfl := List.mem_singleton.mp hf
  have hsize : g.opener + 1 < s.size := Store.lt_size_of_kind hblank.1 (by decide)
  exact changes_of_replace hs.sound rfl hsize (hs.text_ne _ hsize).symm

/-- A blank in front of a closing parenthesis that goes was there. -/
theorem closeBlank_changes (hs : Exact s) : ∀ f ∈ closeBlank s newline g, f.Changes s := by
  intro f hf
  obtain ⟨hblank, hf⟩ := List.mem_ite_nil_right.mp hf
  obtain rfl := List.mem_singleton.mp hf
  have hsize : g.closer - 1 < s.size := Store.lt_size_of_kind hblank.2.1 (by decide)
  exact changes_of_replace hs.sound rfl hsize (hs.text_ne _ hsize).symm

/-- Behind the tokens of a stretch that start on other lines than its end, no token breaks the
line. -/
theorem sum_breaks_takeWhile (hs : Php.Sound s) {a b : Nat} (hb : b < s.size) :
    (((s.between a b).takeWhile fun p => !s.sameLine p b).map s.breaks).sum =
      ((s.between a b).map s.breaks).sum := by
  have hrest : (((s.between a b).dropWhile fun p => !s.sameLine p b).map s.breaks).sum = 0 := by
    refine List.sum_eq_zero_iff_forall_eq_nat.mpr fun n hn => ?_
    obtain ⟨p, hp, rfl⟩ := List.mem_map.mp hn
    have hsorted : ((s.between a b).dropWhile fun p => !s.sameLine p b).Pairwise (· < ·) :=
      List.Pairwise.sublist (List.dropWhile_sublist _) List.pairwise_lt_range'
    have hhigh := (Store.mem_between.mp ((List.dropWhile_sublist _).mem hp)).2
    cases hdrop : (s.between a b).dropWhile fun p => !s.sameLine p b with
    | nil =>
      rw [hdrop] at hp
      cases hp
    | cons first rest =>
      have hfirst : s.line first = s.line b := by
        have hstop := List.head?_dropWhile_not (fun p => !s.sameLine p b) (s.between a b)
        rw [hdrop] at hstop
        simpa [Store.sameLine] using hstop
      rw [hdrop] at hp hsorted
      refine hs.breaks_eq_zero ?_ hhigh hb (Nat.le_of_eq hfirst.symm)
      rcases List.mem_cons.mp hp with rfl | hp
      · exact Nat.le_refl _
      · exact Nat.le_of_lt (List.rel_of_pairwise_cons hsorted hp)
  have hsplit := congrArg (fun l => (l.map s.breaks).sum)
    (List.takeWhile_append_dropWhile (p := fun p => !s.sameLine p b) (l := s.between a b))
  simp only [List.map_append, List.sum_append, hrest] at hsplit
  exact hsplit

/-- One line break is put in place of several, or where none was. -/
theorem firstLine_changes (hs : Exact s) {settings : Settings} {next : Nat} {stop : Option Nat}
    (hopen : s.kind g.opener = .openParen) (hnext : s.nextVisible? g.opener stop = some next) :
    ∀ f ∈ firstLine s ((File.ofStore s).newline settings) g next, f.Changes s := by
  intro f hf
  have honce := firstLine_editsOnce f hf
  obtain ⟨hlt, hsize, _, _⟩ := Store.nextVisible?_eq_some hnext
  obtain ⟨hline, hf⟩ := List.mem_ite_nil_left.mp hf
  obtain rfl := List.mem_singleton.mp hf
  by_cases hbelow : s.line g.opener + 1 < s.line next
  · have hbreaks := hs.breaks_of_openParen hopen
    have hlines := hs.sound.line_eq_add_between hlt hsize
    have hone := File.count_newline settings s
    rw [if_pos hbelow] at honce ⊢
    refine changes_of_breaks hs honce rfl ?_ ?_
    · intro e he
      rcases List.mem_append.mp he with he | he
      · obtain ⟨p, hp, rfl⟩ := List.mem_map.mp he
        have := (Store.mem_between.mp ((List.takeWhile_sublist _).mem hp)).2
        exact Nat.lt_trans this hsize
      · obtain rfl := List.mem_singleton.mp he
        exact Nat.lt_trans hlt hsize
    · have hsum := sum_breaks_takeWhile hs.sound (a := g.opener) hsize
      have hopener : (s.text g.opener).toList.count '\n' = 0 := hbreaks
      simp only [List.map_append, List.map_map, List.map_cons, List.map_nil, List.sum_append,
        List.sum_cons, List.sum_nil, Function.comp_def, Edit.result_delete, Edit.result_append,
        Edit.target_delete, Edit.target_append, String.toList_append, List.count_append,
        hopener, hone, hsum, hbreaks, String.toList_empty, List.count_nil, List.map_const',
        List.sum_replicate_nat, Nat.mul_zero]
      omega
  · refine changes_of_append hs.sound (i := g.opener) (t := (File.ofStore s).newline settings) ?_
      (Nat.lt_trans hlt hsize) (File.newline_ne settings s)
    simp only [if_neg hbelow]
    rfl

/-- The indentation of a line of a condition is only put right where it is not right yet. -/
theorem lineIndents_changes (hs : Exact s) (hsize : g.closer < s.size) {required : Nat} :
    ∀ f ∈ lineIndents s style g required, f.Changes s := by
  intro f hf
  obtain ⟨p, hp, hfound⟩ := List.mem_filterMap.mp hf
  obtain ⟨found, hmissing, rfl⟩ := Option.map_eq_some_iff.mp hfound
  have hp := List.mem_range'_1.mp hp
  have hpsize : p < s.size := by omega
  unfold missingIndent? at hmissing
  dsimp only at hmissing
  split at hmissing
  · cases hmissing
  obtain ⟨hless, heq⟩ := Option.ite_none_right_eq_some.mp hmissing
  obtain rfl := Option.some.inj heq
  have hlength := style.length_pad required
  by_cases hnone : (if (s.token p).kind = .whitespace then (s.token p).length else 0) = 0
  · refine changes_of_insert (t := style.pad required) hs.sound (by rw [if_pos hnone]) hpsize ?_
    intro hempty
    rw [hempty, String.length_empty] at hlength
    omega
  · refine changes_of_replace (t := style.pad required) hs.sound (by rw [if_neg hnone]) hpsize ?_
    intro hsame
    rw [hsame, ← hs.length] at hlength
    by_cases hspace : (s.token p).kind = .whitespace
    · rw [if_pos hspace] at hless
      omega
    · exact hnone (if_neg hspace)

/-- A token before the closing parenthesis that is no whitespace, with nothing else behind it, is
the last expression. -/
theorem lastExpression_eq {k : Nat} (hlow : g.opener ≤ k) (hhigh : k < g.closer)
    (hkind : s.kind k ≠ .whitespace) (hblank : ∀ p, k < p → p < g.closer → s.kind p = .whitespace) :
    lastExpression s g = k := by
  unfold lastExpression
  cases hprev : s.prevVisible? g.closer (some g.opener) with
  | none => exact absurd (Store.prevVisible?_eq_none hprev k hlow hhigh) hkind
  | some prev =>
    obtain ⟨_, hbefore, hvisible, hbehind⟩ := Store.prevVisible?_eq_some hprev
    rw [Option.getD_some]
    rcases Nat.lt_trichotomy prev k with hless | heq | hmore
    · exact absurd (hbehind k hless hhigh) hkind
    · exact heq
    · exact absurd (hblank prev hmore hbefore) hvisible

/-- The opening parenthesis is not whitespace, nor is the last expression. -/
theorem lastExpression_visible (hopen : s.kind g.opener = .openParen) :
    s.kind (lastExpression s g) ≠ .whitespace := by
  unfold lastExpression
  cases hprev : s.prevVisible? g.closer (some g.opener) with
  | none => simp [hopen]
  | some prev => exact (Store.prevVisible?_eq_some hprev).2.2.1

/-- If whitespace alone parts a token from one that lies more than a line further down, one of the
whitespace tokens lies on the line between, unless the first token breaks the line itself. -/
theorem exists_onLinesBetween (hs : Php.Sound s) {k b : Nat} (hkb : k < b) (hb : b < s.size)
    (hblank : ∀ p, k < p → p < b → s.kind p = .whitespace) (hfar : s.line k + 1 < s.line b)
    (hflat : s.breaks k = 0) :
    ∃ p, p ∈ s.onLinesBetween (s.line k) (s.line b) (s.between k b) := by
  -- the first token behind `k` that starts on another line
  have hex : ∃ p, k < p ∧ s.line p ≠ s.line k := ⟨b, hkb, by omega⟩
  obtain ⟨p, ⟨hkp, hline⟩, hfirst⟩ : ∃ p, (k < p ∧ s.line p ≠ s.line k) ∧
      ∀ q < p, k < q → s.line q = s.line k := by
    refine ⟨Nat.find hex, Nat.find_spec hex, fun q hq hkq => ?_⟩
    by_contra hother
    exact Nat.find_min hex hq ⟨hkq, hother⟩
  have hpb : p ≤ b := by
    by_contra hbehind
    have := hfirst b (by omega) hkb
    omega
  have hprev : p - 1 + 1 = p := by omega
  have hnext := hs.line_succ (i := p - 1) (by omega)
  rw [hprev] at hnext
  have hstep : s.line p ≤ s.line k + 1 := by
    by_cases heq : p - 1 = k
    · rw [heq] at hnext
      omega
    · have hone := hs.breaks_le_one (i := p - 1) (by rw [hblank (p - 1) (by omega) (by omega)]; rfl)
      have := hfirst (p - 1) (by omega) (by omega)
      omega
  have hne : p ≠ b := by
    rintro rfl
    omega
  have hsplit : s.between k b = s.between k p ++ p :: s.between p b := by
    have happend := List.range'_append_1 (s := k + 1) (m := p - (k + 1)) (n := b - p)
    have hlow : k + 1 + (p - (k + 1)) = p := by omega
    have hcount : p - (k + 1) + (b - p) = b - (k + 1) := by omega
    have hhigh : b - p = (b - (p + 1)) + 1 := by omega
    rw [hlow, hcount] at happend
    rw [Store.between, ← happend, hhigh, List.range'_succ]
    rfl
  refine ⟨p, List.mem_filter.mpr ⟨?_, by simpa using hline⟩⟩
  rw [hsplit, List.takeWhile_append_of_pos, List.takeWhile_cons_of_pos]
  · exact List.mem_append_right _ List.mem_cons_self
  · have : s.line p ≠ s.line b := by omega
    simp [this]
  · intro q hq
    obtain ⟨hlow, hhigh⟩ := Store.mem_between.mp hq
    simp [hfirst q hhigh hlow]

/-- Clearing the lines between the last expression and the closing parenthesis changes the text,
unless no token starts on them: then the last expression is a long token. -/
theorem closeLine_changes_or_idles (hs : Exact s) {settings : Settings} (hg : s.paren? i = some g) :
    ∀ f ∈ closeLine s ((File.ofStore s).newline settings) g (lastExpression s g),
      f.Changes s ∨ f.Idles s := by
  obtain ⟨hlt, hopen, hclose⟩ := hs.sound.paren i g hg
  have hsize : g.closer < s.size := Store.lt_size_of_kind hclose (by decide)
  obtain ⟨hlow, hhigh, hblank⟩ := lastExpression_spec (s := s) hlt
  have hvisible := lastExpression_visible (s := s) hopen
  intro f hf
  have honce := closeLine_editsOnce f hf
  generalize lastExpression s g = prev at hf hlow hhigh hblank hvisible
  obtain ⟨hline, hf⟩ := List.mem_ite_nil_left.mp hf
  obtain rfl := List.mem_singleton.mp hf
  by_cases hsame : s.sameLine g.closer prev = true
  · refine .inl (changes_of_insert (t := (File.ofStore s).newline settings) hs.sound ?_ hsize
      (File.newline_ne settings s))
    simp only [if_pos hsame]
  · by_cases hnone : s.onLinesBetween (s.line prev) (s.line g.closer) (s.between prev g.closer) = []
    · right
      refine ⟨by simp [idleCodes], prev, hhigh, .inr ?_, hvisible, hblank⟩
      by_contra hflat
      have hle := hs.sound.line_le (Nat.le_of_lt hhigh) hsize
      have hother : s.line g.closer ≠ s.line prev := by simpa [Store.sameLine] using hsame
      obtain ⟨p, hp⟩ := exists_onLinesBetween hs.sound hhigh hsize hblank (by omega) (by omega)
      rw [hnone] at hp
      cases hp
    · left
      refine changes_of_clear hs honce (fun _ => ⟨rfl, rfl⟩) (congrArg some (if_neg hsame)) hnone
        fun p hp => ?_
      exact Nat.lt_trans (Store.mem_between.mp ((Store.onLinesBetween_sublist _).mem hp)).2 hsize

/-- Indenting a closing parenthesis changes the text, or it stands behind a token that runs over
lines. -/
theorem closeIndent_changes_or_idles (hs : Exact s) (hg : s.paren? i = some g) {first : Nat} :
    ∀ f ∈ closeIndent s style g first (lastExpression s g), f.Changes s ∨ f.Idles s := by
  obtain ⟨hlt, hopen, hclose⟩ := hs.sound.paren i g hg
  have hsize : g.closer < s.size := Store.lt_size_of_kind hclose (by decide)
  intro f hf
  obtain ⟨hnot, hf⟩ := List.mem_ite_nil_left.mp hf
  obtain rfl := List.mem_singleton.mp hf
  obtain ⟨hline, hindent⟩ := not_or.mp hnot
  by_cases hfound : s.indentOf g.closer = 0
  · refine .inl (changes_of_insert (t := style.pad (s.indentOf first)) hs.sound ?_ hsize
      fun hempty => ?_)
    · simp only [hfound, ne_eq, not_true_eq_false, false_and, if_false]
    · have hlength := style.length_pad (s.indentOf first)
      rw [hempty, String.length_empty] at hlength
      exact hindent (hfound.trans hlength)
  · have hfix : some [if s.indentOf g.closer ≠ 0 ∧ 0 < g.closer then
          Edit.replace (g.closer - 1) (style.pad (s.indentOf first))
        else Edit.insert g.closer (style.pad (s.indentOf first))] =
        some [Edit.replace (g.closer - 1) (style.pad (s.indentOf first))] := by
      rw [if_pos ⟨hfound, by omega⟩]
    refine (changes_or_followsLong hs hlt hsize (by simp [hopen]) hindent hfix ?_).imp_right
      fun hlong => ⟨by simp [idleCodes], hlong⟩
    intro k hlow hhigh hkind hflat
    right
    have hlast := lastExpression_eq hlow hhigh hkind fun p hkp hp => (hflat p hkp hp).1
    refine breaks_pos_of_line_ne hs.sound hhigh hsize ?_ fun p hkp hp => (hflat p hkp hp).2
    rw [← hlast]
    simpa [Store.sameLine] using hline

/-- The gap in front of a closing parenthesis that goes was there. -/
theorem joinClose_changes (hs : Exact s) {prev : Nat} : ∀ f ∈ joinClose s g prev, f.Changes s := by
  intro f hf
  obtain ⟨_, hf⟩ := List.mem_ite_nil_right.mp hf
  obtain rfl := List.mem_singleton.mp hf
  intro c hc
  obtain ⟨p, hp, rfl⟩ := Option.map_eq_some_iff.mp hc
  have hkind : s.kind p = .whitespace := beq_iff_eq.mp (Store.scanDown_eq_some hp).2.2.1
  have hsize : p < s.size := Store.lt_size_of_kind hkind (by decide)
  exact changes_of_replace hs.sound hc hsize (hs.text_ne _ hsize).symm _ hc

/-- Every fix of the strict rule for conditions changes the text or idles. -/
theorem strictFindings_changes_or_idles (hs : Exact s) {settings : Settings} :
    ∀ f ∈ strictFindings settings (.ofStore s) i, f.Changes s ∨ f.Idles s := by
  unfold strictFindings
  dsimp only [File.ofStore_store]
  intro f hf
  split at hf
  · cases hf
  rename_i g hg
  obtain ⟨_, hopen, hclose⟩ := hs.sound.paren i g hg
  have hsize : g.closer < s.size := Store.lt_size_of_kind hclose (by decide)
  split at hf
  · rcases List.mem_append.mp hf with hf | hf
    · exact .inl (openBlank_changes hs f hf)
    · exact .inl (closeBlank_changes hs f hf)
  split at hf
  · cases hf
  rename_i next hnext
  simp only [List.mem_append] at hf
  rcases hf with ((hf | hf) | hf) | hf
  · exact .inl (firstLine_changes hs hopen hnext f hf)
  · exact .inl (lineIndents_changes hs hsize f hf)
  · exact closeLine_changes_or_idles hs hg f hf
  · exact closeIndent_changes_or_idles hs hg f hf

/-- Every fix of the lenient rule for conditions changes the text or idles. -/
theorem lenientFindings_changes_or_idles (hs : Exact s) {settings : Settings} :
    ∀ f ∈ lenientFindings settings (.ofStore s) i, f.Changes s ∨ f.Idles s := by
  unfold lenientFindings
  dsimp only [File.ofStore_store]
  intro f hf
  split at hf
  · cases hf
  rename_i g hg
  obtain ⟨_, hopen, hclose⟩ := hs.sound.paren i g hg
  have hsize : g.closer < s.size := Store.lt_size_of_kind hclose (by decide)
  split at hf
  · exact strictFindings_changes_or_idles hs f hf
  split at hf
  · cases hf
  split at hf
  · exact strictFindings_changes_or_idles hs f hf
  simp only [singleExpression, List.mem_append] at hf
  rcases hf with (hf | hf) | hf
  · exact .inl (lineIndents_changes hs hsize f hf)
  · exact .inl (joinClose_changes hs f hf)
  · exact closeIndent_changes_or_idles hs hg f hf

end Condition

end

end PhpStyle
