import PhpStyle.Proofs.Standard.FunctionHead
import PhpStyle.Proofs.Standard.Idling

/-!
# Fixes of braces that change the text

Fixes of the brace of a function change the number of line breaks, the length of the text, or the
order of its characters. Those that leave the text as it is find a comment in front of the brace, or
a token that goes on over the end of its line.
-/

namespace PhpStyle

open Php (Exact)
open Finding

section

variable {settings : Settings} {s : Store} {newline : String} {i : Nat}

namespace BraceBelow

variable {brace prev closer : Nat}

/-- The end of a declaration in front of its brace: code, with nothing but trivia behind it. -/
theorem prev_spec (hcloser : s.kind closer = .closeParen) (hlt : closer < brace) :
    closer ≤ (s.prevCodeDownTo? brace closer).getD closer ∧
      (s.prevCodeDownTo? brace closer).getD closer < brace ∧
      (s.kind ((s.prevCodeDownTo? brace closer).getD closer)).isTrivia = false ∧
      ∀ k, (s.prevCodeDownTo? brace closer).getD closer < k → k < brace →
      (s.kind k).isTrivia = true := by
  cases hfound : s.prevCodeDownTo? brace closer with
  | some prev => exact Store.prevCodeDownTo?_eq_some hfound
  | none =>
    have htrivia := Store.prevCodeDownTo?_eq_none hfound closer (Nat.le_refl _) hlt
    rw [hcloser] at htrivia
    cases htrivia

/-- A brace on the line of the declaration gets a line break, and what goes in front of it has
none. -/
theorem onSameLine_changes (hs : Exact s) {settings : Settings} (hbrace : s.kind brace = .openCurly)
    (hlt : prev < brace) (hline : s.line brace = s.line prev) :
    ∀ f ∈ onSameLine s ((File.ofStore s).newline settings) brace, f.Changes s := by
  intro f hf
  have honce := onSameLine_editsOnce hbrace f hf
  have hsize : brace < s.size := Store.lt_size_of_kind hbrace (by decide)
  obtain rfl := List.mem_singleton.mp hf
  have hflat : s.breaks (brace - 1) = 0 :=
    hs.sound.breaks_eq_zero (Nat.le_sub_one_of_lt hlt) (by omega) hsize (Nat.le_of_eq hline)
  have hbraceFlat := hs.sound.breaks_of_openCurly hbrace
  have hone := File.count_newline settings s
  refine changes_of_breaks hs honce rfl ?_ ?_
  · intro e he
    rcases List.mem_cons.mp he with rfl | he
    · exact hsize
    · obtain ⟨_, he⟩ := List.mem_ite_nil_right.mp he
      obtain rfl := List.mem_singleton.mp he
      simp only [Edit.target_replace]
      omega
  · have hbefore :
        ((if s.kind (brace - 1) = .whitespace then [Edit.replace (brace - 1) ""] else []).map
        fun e => s.breaks e.target).sum = 0 := by
      split
      · exact hflat
      · rfl
    simp only [List.map_cons, List.sum_cons, Edit.result_insert, Edit.target_insert,
      String.toList_append, List.count_append, hone, hbefore, hbraceFlat]
    omega

/-- Of the tokens behind the end of a declaration up to its brace, one at most is the first on its
line and on the line of the brace. -/
theorem countP_first_le_one (hs : Exact s) (prev : Nat) (hsize : brace < s.size) :
    (s.between prev (brace + 1)).countP
    (fun p => s.sameLine p brace && (s.token p).column == 1) ≤ 1 := by
  rw [List.countP_eq_length_filter]
  have hsorted : ((s.between prev (brace + 1)).filter fun p =>
      s.sameLine p brace && (s.token p).column == 1).Pairwise (· < ·) :=
    List.Pairwise.sublist List.filter_sublist List.pairwise_lt_range'
  have hall : ∀ p ∈ (s.between prev (brace + 1)).filter (fun p =>
      s.sameLine p brace && (s.token p).column == 1), p ≤ brace ∧ s.line p = s.line brace ∧
        (s.token p).column = 1 := by
    intro p hp
    obtain ⟨hmem, htest⟩ := List.mem_filter.mp hp
    have hhigh := (Store.mem_between.mp hmem).2
    simp only [Bool.and_eq_true, beq_iff_eq, Store.sameLine] at htest
    exact ⟨by omega, htest⟩
  rcases hfirst : (s.between prev (brace + 1)).filter fun p =>
      s.sameLine p brace && (s.token p).column == 1 with _ | ⟨p, _ | ⟨q, rest⟩⟩
  · simp
  · simp
  · rw [hfirst] at hsorted hall
    obtain ⟨_, hpline, hpcolumn⟩ := hall p (by simp)
    obtain ⟨hqle, hqline, hqcolumn⟩ := hall q (by simp)
    have hpq := List.rel_of_pairwise_cons hsorted (List.mem_cons_self (a := q))
    have := hs.column_lt hpq (by omega) (by omega)
    omega

/-- Line breaks of the edits made at some tokens, in all. -/
theorem sum_map_filterMap {edit : Nat → Option Edit} (count : Edit → Nat) (tokens : List Nat) :
    ((tokens.filterMap edit).map count).sum =
      (tokens.map fun p => ((edit p).map count).getD 0).sum := by
  induction tokens with
  | nil => rfl
  | cons p rest ih =>
    rw [List.filterMap_cons, List.map_cons, List.sum_cons, ← ih]
    cases edit p with
    | none => simp
    | some e => simp

/-- If each token counts as one or none, the sum counts those that count. -/
theorem sum_map_eq_countP {count : Nat → Nat} {test : Nat → Bool} {tokens : List Nat}
    (h : ∀ p ∈ tokens, count p = if test p then 1 else 0) :
    (tokens.map count).sum = tokens.countP test := by
  induction tokens with
  | nil => rfl
  | cons p rest ih =>
    obtain ⟨hp, hrest⟩ := List.forall_mem_cons.mp h
    rw [List.map_cons, List.sum_cons, ih hrest, hp, List.countP_cons, Nat.add_comm]

/-- On the line of a brace no token up to it breaks the line. -/
theorem breaks_eq_zero_of_sameLine (hs : Exact s) (hbrace : s.kind brace = .openCurly) {p : Nat}
    (hp : p ∈ s.between prev (brace + 1)) (hline : s.sameLine p brace = true) : s.breaks p = 0 := by
  have hsize : brace < s.size := Store.lt_size_of_kind hbrace (by decide)
  rcases Nat.lt_or_eq_of_le (Nat.le_of_lt_succ (Store.mem_between.mp hp).2) with hlt | rfl
  · exact hs.sound.breaks_eq_zero (Nat.le_refl _) hlt hsize
      (Nat.le_of_eq (beq_iff_eq.mp hline).symm)
  · exact hs.sound.breaks_of_openCurly hbrace

/-- The tokens up to a brace, with the brace, make all the edits. -/
theorem target_le_of_mem_closeGap : ∀ e ∈ closeGap s newline prev brace, e.target ≤ brace := by
  intro e he
  obtain ⟨p, hp, hedit⟩ := List.mem_filterMap.mp he
  have hhigh := (Store.mem_between.mp hp).2
  have htarget : e.target = p := by
    split at hedit
    · cases hedit
      rfl
    · obtain ⟨_, heq⟩ := Option.ite_none_right_eq_some.mp hedit
      cases heq
      rfl
  omega

/-- What is put in place of the tokens between breaks the line in front of the first on the line of
the brace. -/
theorem sum_count_result_closeGap (hs : Exact s) (hbrace : s.kind brace = .openCurly)
    (hone : newline.toList.count '\n' = 1) :
    ((closeGap s newline prev brace).map fun e => (e.result s).toList.count '\n').sum =
      (s.between prev (brace + 1)).countP fun p => s.sameLine p brace &&
      (s.token p).column == 1 := by
  rw [closeGap, sum_map_filterMap]
  refine sum_map_eq_countP fun p hp => ?_
  by_cases hline : s.sameLine p brace = true
  · have hbreaks : (s.text p).toList.count '\n' = 0 := breaks_eq_zero_of_sameLine hs hbrace hp hline
    by_cases hcolumn : (s.token p).column = 1
    · simp [hline, hcolumn, hone, hbreaks]
    · simp [hline, hcolumn]
  · simp [hline]

/-- All line breaks up to the brace are in tokens that are edited. -/
theorem sum_breaks_closeGap (hs : Exact s) (hbrace : s.kind brace = .openCurly) :
    ((closeGap s newline prev brace).map fun e => s.breaks e.target).sum =
      ((s.between prev (brace + 1)).map s.breaks).sum := by
  rw [closeGap, sum_map_filterMap]
  refine congrArg List.sum (List.map_congr_left fun p hp => ?_)
  by_cases hline : s.sameLine p brace = true
  · by_cases hcolumn : (s.token p).column = 1
    · simp [hline, hcolumn]
    · simp [hline, hcolumn, breaks_eq_zero_of_sameLine hs hbrace hp hline]
  · simp [hline]

/-- Of the lines between a declaration and its brace one line break is left, so with a second one
something goes, unless it is part of the end of the declaration. -/
theorem closeGap_changes (hs : Exact s) {settings : Settings} (hbrace : s.kind brace = .openCurly)
    (hlt : prev < brace) (hflat : s.breaks prev = 0) (hfar : s.line prev + 1 < s.line brace)
    {f : Finding} (honce : f.EditsOnce)
    (hfix : f.fix = some (closeGap s ((File.ofStore s).newline settings) prev brace)) :
    f.Changes s := by
  have hsize : brace < s.size := Store.lt_size_of_kind hbrace (by decide)
  refine changes_of_breaks hs honce hfix
    (fun e he => Nat.lt_of_le_of_lt (target_le_of_mem_closeGap e he) hsize) ?_
  have hlast : s.between prev (brace + 1) = s.between prev brace ++ [brace] := by
    have hcount : brace + 1 - (prev + 1) = (brace - (prev + 1)) + 1 := by omega
    have hend : prev + 1 + (brace - (prev + 1)) = brace := by omega
    rw [Store.between, hcount, List.range'_1_concat, hend]
    rfl
  have hlines := hs.sound.line_eq_add_between hlt hsize
  have hfirst := countP_first_le_one hs prev hsize
  rw [sum_count_result_closeGap hs hbrace (File.count_newline settings s),
    sum_breaks_closeGap hs hbrace, hlast, List.map_append, List.sum_append]
  rw [hlast] at hfirst
  omega

/-- Moving up a brace that stands too far below takes line breaks away, unless it stands behind a
token that runs over lines. -/
theorem tooFarBelow_changes_or_idles (hs : Exact s) {settings : Settings}
    (hbrace : s.kind brace = .openCurly) (hlt : prev < brace)
    (hfar : s.line prev + 1 < s.line brace) :
    ∀ f ∈ tooFarBelow s ((File.ofStore s).newline settings) closer prev brace,
      f.Changes s ∨ f.Idles s := by
  intro f hf
  have honce := tooFarBelow_editsOnce f hf
  obtain rfl := List.mem_singleton.mp hf
  by_cases honly : s.prevVisible? brace (some closer) = some prev
  · obtain ⟨_, _, hvisible, hblank⟩ := Store.prevVisible?_eq_some honly
    by_cases hflat : s.breaks prev = 0
    · exact .inl (closeGap_changes hs hbrace hlt hflat hfar honce (if_pos honly))
    · exact .inr ⟨by simp [idleCodes], prev, hlt, .inr (Nat.pos_of_ne_zero hflat), hvisible, hblank⟩
  · exact .inl (changes_of_none (by simp only [if_neg honly]))

/-- What stands behind an opening brace on its line gets a line break in front of it. -/
theorem contentBehind_changes (hs : Exact s) {settings : Settings} {scope : Group}
    (hbrace : s.kind scope.opener = .openCurly) :
    ∀ f ∈ contentBehind s ((File.ofStore s).newline settings) scope, f.Changes s := by
  unfold contentBehind
  dsimp only
  intro f hf
  split at hf
  · cases hf
  obtain ⟨_, hf⟩ := List.mem_ite_nil_right.mp hf
  obtain rfl := List.mem_singleton.mp hf
  exact changes_of_append hs.sound rfl (Store.lt_size_of_kind hbrace (by decide))
    (File.newline_ne settings s)

/-- Indenting a brace changes the text, or it stands behind a token that runs over lines. -/
theorem indentFindings_changes_or_idles (hs : Exact s) (hbrace : s.kind brace = .openCurly)
    (hcloser : s.kind closer = .closeParen) (hlt : closer < brace)
    (hdistance : s.line brace ≠ s.line ((s.prevCodeDownTo? brace closer).getD closer)) :
    ∀ f ∈ indentFindings settings s i brace, f.Changes s ∨ f.Idles s := by
  have hsize : brace < s.size := Store.lt_size_of_kind hbrace (by decide)
  obtain ⟨hlow, hbefore, hcode, htrivia⟩ := prev_spec hcloser hlt
  intro f hf
  obtain ⟨hindent, hf⟩ := List.mem_ite_nil_left.mp hf
  obtain rfl := List.mem_singleton.mp hf
  by_cases hfound : s.indentOf brace = 0
  · refine .inl (changes_of_insert (t := settings.indent.pad (s.indentOf (s.firstVisible i)))
      hs.sound (by simp only [if_pos hfound]) hsize fun hempty => ?_)
    have hlength := settings.indent.length_pad (s.indentOf (s.firstVisible i))
    rw [hempty, String.length_empty] at hlength
    exact hindent (hfound.trans hlength)
  · refine (changes_or_followsLong hs hlt hsize (by simp [hcloser]) hindent
      (by simp only [if_neg hfound]; rfl) ?_).imp_right fun hlong => ⟨by simp [idleCodes], hlong⟩
    intro k hck hkb hkind hflat
    by_cases hcomment : (s.kind k).isComment = true
    · exact .inl hcomment
    right
    have hprev : (s.prevCodeDownTo? brace closer).getD closer = k := by
      rcases Nat.lt_trichotomy ((s.prevCodeDownTo? brace closer).getD closer) k
        with hless | heq | hmore
      · have := htrivia k hless hkb
        simp [Kind.isTrivia, hkind, hcomment] at this
      · exact heq
      · have hspace := (hflat _ hmore hbefore).1
        simp [hspace, Kind.isTrivia] at hcode
    refine breaks_pos_of_line_ne hs.sound hkb hsize ?_ fun p hkp hp => (hflat p hkp hp).2
    rw [← hprev]
    exact hdistance

/-- Every fix of the rule for the braces of functions changes the text or idles. -/
theorem findings_changes_or_idles (hs : Exact s) :
    ∀ f ∈ findings settings (.ofStore s) i, f.Changes s ∨ f.Idles s := by
  unfold findings
  dsimp only [File.ofStore_store]
  intro f hf
  split at hf
  · rename_i scope parens hscope hparens
    obtain ⟨_, hbrace, _⟩ := hs.sound.scope i scope hscope
    obtain ⟨_, _, hcloser⟩ := hs.sound.paren i parens hparens
    have hsize : scope.opener < s.size := Store.lt_size_of_kind hbrace (by decide)
    obtain ⟨hkind, hf⟩ := List.mem_ite_nil_left.mp hf
    have hhead := hs.head i parens scope (Decidable.of_not_not hkind) hparens hscope
    obtain ⟨_, hbefore, _⟩ := prev_spec hcloser hhead
    have hle := hs.sound.line_le (Nat.le_of_lt hbefore) hsize
    rcases List.mem_append.mp hf with hf | hf
    · rcases List.mem_append.mp hf with hf | hf
      · split at hf
        · exact .inl (onSameLine_changes hs hbrace hbefore (by omega) f hf)
        · obtain ⟨hfar, hf⟩ := List.mem_ite_nil_right.mp hf
          exact tooFarBelow_changes_or_idles hs hbrace hbefore (by omega) f hf
      · exact .inl (contentBehind_changes hs hbrace f hf)
    · obtain ⟨hdistance, hf⟩ := List.mem_ite_nil_right.mp hf
      exact indentFindings_changes_or_idles hs hbrace hcloser hhead (by omega) f hf
  · cases hf

end BraceBelow

namespace Declaration

variable {closer brace prev : Nat}

/-- The closing parenthesis of a head gets a line break in front of it. -/
theorem closeLine_changes (hs : Exact s) (hnewline : newline ≠ "") {g : Group}
    (hclose : s.kind g.closer = .closeParen) : ∀ f ∈ closeLine s newline g, f.Changes s := by
  unfold closeLine
  intro f hf
  split at hf
  · cases hf
  obtain ⟨_, hf⟩ := List.mem_ite_nil_left.mp hf
  obtain rfl := List.mem_singleton.mp hf
  exact changes_of_insert hs.sound rfl (Store.lt_size_of_kind hclose (by decide)) hnewline

/-- The blank in front of a brace is only put right where it is not right yet. -/
theorem braceBlank_changes (hs : Exact s) {before : Nat} (hsize : before < s.size) :
    ∀ f ∈ braceBlank s before, f.Changes s := by
  unfold braceBlank
  dsimp only
  generalize hlength : (if s.kind before = .whitespace then (s.text before).utf8ByteSize else 0) =
    length
  intro f hf
  obtain ⟨hone, hf⟩ := List.mem_ite_nil_left.mp hf
  obtain rfl := List.mem_singleton.mp hf
  by_cases hnone : length = 0
  · refine changes_of_append (t := " ") hs.sound ?_ hsize (by decide)
    simp only [if_pos hnone]
  · refine changes_of_replace (t := " ") hs.sound (by simp only [if_neg hnone]) hsize
      fun hsame => ?_
    split at hlength
    · rw [← hsame] at hlength
      exact hone hlength.symm
    · exact hnone hlength.symm

/-- A brace that is alone on its line takes the end of the line with it. -/
theorem raiseAlone_changes (hs : Exact s) {lastVisible next : Nat} (hlow : lastVisible < brace)
    (hnext : brace < next) (hsize : next < s.size) (hpsize : prev < s.size)
    (hbelow : s.line brace < s.line next) {f : Finding} (honce : f.EditsOnce)
    (hfix : f.fix = some (.append prev " \x7b" ::
      ((s.between lastVisible next).filter (s.sameLine · brace)).map (Edit.replace · ""))) :
    f.Changes s := by
  obtain ⟨k, hbk, hkn, hline, hbreak⟩ := hs.sound.exists_break (Nat.le_of_lt hnext) hsize hbelow
  have hmem : k ∈ (s.between lastVisible next).filter (s.sameLine · brace) :=
    List.mem_filter.mpr ⟨Store.mem_between.mpr (by omega), by simpa [Store.sameLine] using hline⟩
  have hsum : 0 < (((s.between lastVisible next).filter (s.sameLine · brace)).map fun p =>
      s.breaks p).sum :=
    List.sum_pos_iff_exists_pos_nat.mpr ⟨_, List.mem_map_of_mem hmem, hbreak⟩
  refine changes_of_breaks hs honce hfix ?_ ?_
  · intro e he
    rcases List.mem_cons.mp he with rfl | he
    · exact hpsize
    · obtain ⟨p, hp, rfl⟩ := List.mem_map.mp he
      exact Nat.lt_trans (Store.mem_between.mp (List.mem_of_mem_filter hp)).2 hsize
  · have hcount : (s.text prev ++ " \x7b").toList.count '\n' = s.breaks prev := by
      rw [String.toList_append, List.count_append]
      rfl
    simp only [List.map_cons, List.map_map, List.sum_cons, Function.comp_def, Edit.result_append,
      Edit.result_replace, Edit.target_append, Edit.target_replace, String.toList_empty,
      List.count_nil, List.map_const', List.sum_replicate_nat, Nat.mul_zero, hcount]
    omega

/-- What raising a brace over a stretch, and taking the blank behind it, would have to leave as it
is. -/
theorem stretch_of_raise (hs : Exact s) (hlt : prev < brace) (hsize : brace + 1 < s.size)
    (hnodup : (Changeset.targets
      [.append prev " \x7b", .replace brace "", .replace (brace + 1) ""]).Nodup)
    (h : s.rewrite [.append prev " \x7b", .replace brace "", .replace (brace + 1) ""] = s.source) :
    [' ', '\x7b'] ++ ((s.between prev brace).flatMap fun p => (s.text p).toList) =
      ((s.between prev brace).flatMap fun p => (s.text p).toList) ++
        ((s.text brace).toList ++ (s.text (brace + 1)).toList) := by
  have hsegment := Store.segment_eq hs.sound h (by omega : prev ≤ brace + 2) (by omega) (by
    simp only [List.forall_mem_cons, Edit.target_append, Edit.target_replace]
    exact ⟨by omega, by omega, by omega, by simp⟩)
  have hprev : s.rewritten [.append prev " \x7b", .replace brace "", .replace (brace + 1) ""] prev =
      s.text prev ++ " \x7b" := Store.rewritten_of_mem hnodup List.mem_cons_self
  have hbrace : s.rewritten [.append prev " \x7b", .replace brace "",
      .replace (brace + 1) ""] brace =
      "" := Store.rewritten_of_mem hnodup (by simp : Edit.replace brace "" ∈ _)
  have hblank : s.rewritten [.append prev " \x7b", .replace brace "", .replace (brace + 1) ""]
      (brace + 1) = "" := Store.rewritten_of_mem hnodup (by simp : Edit.replace (brace + 1) "" ∈ _)
  have hkept : ((s.between prev brace).flatMap fun p => (s.rewritten
      [.append prev " \x7b", .replace brace "", .replace (brace + 1) ""] p).toList) =
        (s.between prev brace).flatMap fun p => (s.text p).toList := by
    refine List.flatMap_congr fun p hp => congrArg String.toList (Store.rewritten_of_forall_ne ?_)
    obtain ⟨hlow, hhigh⟩ := Store.mem_between.mp hp
    simp only [List.forall_mem_cons, Edit.target_append, Edit.target_replace]
    exact ⟨by omega, by omega, by omega, by simp⟩
  have hstretch : List.range' prev (brace + 2 - prev) = prev ::
      (s.between prev brace ++ [brace, brace + 1]) := by
    have hcount : brace + 2 - prev = (brace - (prev + 1)) + 1 + 1 + 1 := by omega
    have hend : prev + 1 + (brace - (prev + 1)) = brace := by omega
    have hlast : prev + 1 + (brace - (prev + 1) + 1) = brace + 1 := by omega
    rw [hcount, List.range'_succ, List.range'_1_concat, List.range'_1_concat, hend, hlast,
      List.append_assoc]
    rfl
  rw [hstretch] at hsegment
  simp only [List.flatMap_cons, List.flatMap_append, List.flatMap_nil, hprev, hbrace, hblank, hkept,
    String.toList_append, String.toList_empty, List.append_nil, List.append_assoc] at hsegment
  exact List.append_cancel_left hsegment

/-- If only whitespace parts a brace from the end of a declaration on an earlier line, and raising
the brace leaves the text as it is, then the declaration ends in a long token. -/
theorem breaks_pos_of_raise (hs : Exact s) (hbrace : s.kind brace = .openCurly) (hlt : prev < brace)
    (hsize : brace + 1 < s.size) (hblank : ∀ p, prev < p → p < brace → s.kind p = .whitespace)
    (hline : s.line brace ≠ s.line prev)
    (hsame : [' ', '\x7b'] ++ ((s.between prev brace).flatMap fun p => (s.text p).toList) =
      ((s.between prev brace).flatMap fun p => (s.text p).toList) ++
        ((s.text brace).toList ++ (s.text (brace + 1)).toList)) : 0 < s.breaks prev := by
  have hno : '\x7b' ∉ (s.between prev brace).flatMap fun p => (s.text p).toList := by
    intro hmem
    obtain ⟨p, hp, hchar⟩ := List.mem_flatMap.mp hmem
    obtain ⟨hlow, hhigh⟩ := Store.mem_between.mp hp
    have hspace := List.all_eq_true.mp (hs.sound.isBlank_of_whitespace (hblank p hlow hhigh)) _
        hchar
    exact absurd hspace (by decide)
  have hcount : ((s.between prev brace).flatMap fun p => (s.text p).toList).count '\n' =
      ((s.between prev brace).map s.breaks).sum := List.count_flatMap
  have hlines := hs.sound.line_eq_add_between hlt (by omega)
  rw [(hs.sound.shapes brace).openCurly hbrace] at hsame
  generalize ((s.between prev brace).flatMap fun p => (s.text p).toList) = mid at hno hcount hsame
  -- the two braces are the same, so a single blank stands before it
  obtain rfl : mid = [' '] := by
    cases mid with
    | nil => cases hsame
    | cons c mid =>
      simp only [List.cons_append, List.nil_append, List.cons.injEq] at hsame
      obtain ⟨rfl, hsame⟩ := hsame
      cases mid with
      | nil => rfl
      | cons d mid =>
        simp only [List.cons_append, List.cons.injEq] at hsame
        obtain ⟨rfl, _⟩ := hsame
        simp at hno
  have hzero : [' '].count '\n' = 0 := by decide
  omega

/-- A brace that moves on, behind a later parenthesis, leaves the parenthesis behind another
character. -/
theorem raiseOn_changes (hs : Exact s) (hcloser : s.kind closer = .closeParen)
    (hlt : brace + 1 < closer) {f : Finding} (honce : f.EditsOnce)
    (hfix : f.fix = some [.append closer " \x7b", .replace brace "", .replace (brace + 1) ""]) :
    f.Changes s := by
  intro c hc h
  have hnodup := honce c hc
  rw [hfix] at hc
  cases hc
  have hsize : closer < s.size := Store.lt_size_of_kind hcloser (by decide)
  have hsegment := Store.segment_eq hs.sound h (by omega : brace ≤ closer + 1) (by omega) (by
    simp only [List.forall_mem_cons, Edit.target_append, Edit.target_replace]
    exact ⟨by omega, by omega, by omega, by simp⟩)
  have hafter : s.rewritten [.append closer " \x7b", .replace brace "",
      .replace (brace + 1) ""] closer =
      s.text closer ++ " \x7b" := Store.rewritten_of_mem hnodup List.mem_cons_self
  have hcount : closer + 1 - brace = (closer - brace) + 1 := by omega
  have hend : brace + (closer - brace) = closer := by omega
  rw [hcount, List.range'_1_concat, hend] at hsegment
  simp only [List.flatMap_append, List.flatMap_cons, List.flatMap_nil, List.append_nil, hafter,
    String.toList_append, (hs.sound.shapes closer).closeParen hcloser] at hsegment
  have hlast := congrArg List.getLast? hsegment
  simp at hlast

/-- Raising a brace over a stretch, and taking the blank behind it, changes the text, unless a
comment or a long token stands in front of the brace. -/
theorem raiseBack_changes (hs : Exact s) (hcloser : s.kind closer = .closeParen)
    (hbrace : s.kind brace = .openCurly) (hlt : closer < brace) (hsize : brace + 1 < s.size)
    (hline : s.line ((s.prevCodeDownTo? brace closer).getD closer) ≠ s.line brace) {f : Finding}
    (honce : f.EditsOnce)
    (hfix : f.fix = some [.append ((s.prevCodeDownTo? brace closer).getD closer) " \x7b",
      .replace brace "", .replace (brace + 1) ""]) : f.Changes s ∨ s.FollowsLong brace := by
  obtain ⟨hlow, hbefore, hcode, htrivia⟩ := BraceBelow.prev_spec hcloser hlt
  generalize (s.prevCodeDownTo? brace closer).getD closer = prev at *
  have hprevKind : s.kind prev ≠ .whitespace := by
    intro hspace
    simp [hspace, Kind.isTrivia] at hcode
  by_cases hblank : ∀ p, prev < p → p < brace → s.kind p = .whitespace
  · by_cases h :
        s.rewrite [.append prev " \x7b", .replace brace "", .replace (brace + 1) ""] = s.source
    · have hsame := stretch_of_raise hs hbefore hsize (honce _ hfix) h
      exact .inr ⟨prev, hbefore,
        .inr (breaks_pos_of_raise hs hbrace hbefore hsize hblank (Ne.symm hline) hsame),
        hprevKind, hblank⟩
    · left
      intro c hc
      rw [hfix] at hc
      cases hc
      exact h
  · right
    obtain ⟨p, hpp, hpb, hvisible⟩ : ∃ p, prev < p ∧ p < brace ∧ s.kind p ≠ .whitespace := by
      simpa using hblank
    cases hfound : s.prevVisible? brace (some closer) with
    | none => exact absurd (Store.prevVisible?_eq_none hfound p (by omega) hpb) hvisible
    | some k =>
      obtain ⟨_, hkb, hkind, hbehind⟩ := Store.prevVisible?_eq_some hfound
      have hkp : p ≤ k := by
        by_contra hless
        exact hvisible (hbehind p (by omega) hpb)
      have hcomment := htrivia k (by omega) hkb
      simp only [Kind.isTrivia, Bool.or_eq_true, beq_iff_eq, hkind, false_or] at hcomment
      exact ⟨k, hkb, .inl hcomment, hkind, hbehind⟩

/-- Raising a brace changes the text, unless a comment or a long token stands in front of it. -/
theorem raiseBrace_changes (hs : Exact s) (hcloser : s.kind closer = .closeParen)
    (hbrace : s.kind brace = .openCurly)
    (hline : s.line ((s.prevCodeDownTo? brace closer).getD closer) ≠ s.line brace) {f : Finding}
    (hfix : f.fix = some (raiseBrace s ((s.prevCodeDownTo? brace closer).getD closer)
      ((s.prevVisible? brace (some closer)).getD closer) brace)) :
    f.Changes s ∨ s.FollowsLong brace := by
  have honce := editsOnce_of_some hfix (raiseBrace_nodup hs.sound hcloser hbrace)
  have hsize : brace < s.size := Store.lt_size_of_kind hbrace (by decide)
  have hcsize : closer < s.size := Store.lt_size_of_kind hcloser (by decide)
  have hpsize : (s.prevCodeDownTo? brace closer).getD closer < s.size := by
    cases hfound : s.prevCodeDownTo? brace closer with
    | some prev => exact Nat.lt_trans (Store.prevCodeDownTo?_eq_some hfound).2.1 hsize
    | none => exact hcsize
  unfold raiseBrace at hfix
  dsimp only at hfix
  split at hfix
  · rename_i halone
    obtain ⟨hbelow, hnext⟩ := halone
    obtain ⟨next, hnext, hafter⟩ := (Option.any_eq_true _ _).mp hnext
    obtain ⟨hlow, _⟩ := blank_before_brace hs.sound hcloser hbelow
    obtain ⟨hbn, hnsize, _, _⟩ := Store.nextVisible?_eq_some hnext
    rw [hnext, Option.getD_some] at hfix
    exact .inl (raiseAlone_changes hs hlow hbn hnsize hpsize (by simpa using hafter) honce hfix)
  split at hfix
  · rename_i hgap
    obtain ⟨next, hnext, hgap⟩ := (Option.any_eq_true _ _).mp hgap
    obtain ⟨hbn, hnsize, _, hblank⟩ := Store.nextVisible?_eq_some hnext
    have hne : next ≠ brace + 1 := by simpa using (Bool.and_eq_true_iff.mp hgap).2
    by_cases hlt : closer < brace
    · exact raiseBack_changes hs hcloser hbrace hlt (by omega) hline honce hfix
    · left
      have hnone : s.prevCodeDownTo? brace closer = none := by
        refine Option.eq_none_iff_forall_ne_some.mpr fun prev hfound => ?_
        obtain ⟨hle, hbefore, _⟩ := Store.prevCodeDownTo?_eq_some hfound
        omega
      have hother : ∀ p, p = brace ∨ p = brace + 1 → p ≠ closer := by
        rintro p (rfl | rfl) rfl
        · rw [hbrace] at hcloser
          cases hcloser
        · rw [hblank _ (by omega) (by omega)] at hcloser
          cases hcloser
      have hfirst := hother brace (.inl rfl)
      have hsecond := hother (brace + 1) (.inr rfl)
      rw [hnone, Option.getD_none] at hfix
      exact raiseOn_changes hs hcloser (by omega) honce hfix
  · refine .inl (changes_of_length hs honce hfix (by simp [hpsize, hsize]) ?_)
    simp [(hs.sound.shapes brace).openCurly hbrace]

/-- Raising a brace to the line of its parenthesis changes the text, or it stands behind a token
that runs over lines. -/
theorem braceLine_changes_or_idles (hs : Exact s) (hcloser : s.kind closer = .closeParen)
    (hbrace : s.kind brace = .openCurly) :
    ∀ f ∈ braceLine s closer brace, f.Changes s ∨ f.Idles s := by
  intro f hf
  obtain rfl := List.mem_singleton.mp hf
  by_cases hline : s.sameLine ((s.prevCodeDownTo? brace closer).getD closer) brace = true
  · exact .inl (changes_of_none (if_pos hline))
  · refine (raiseBrace_changes hs hcloser hbrace ?_ (if_neg hline)).imp_right fun hlong =>
      ⟨by simp [idleCodes], hlong⟩
    simpa [Store.sameLine] using hline

/-- Every fix for the head of a function of several lines changes the text or idles. -/
theorem multiLine_changes_or_idles (hs : Exact s) (hnewline : newline ≠ "") {parens : Group}
    (hparens : s.paren? i = some parens) :
    ∀ f ∈ multiLine s newline i parens, f.Changes s ∨ f.Idles s := by
  have hlists : ∀ f ∈ closeLine s newline parens ++
      (useParens? s i parens.closer).toList.flatMap (closeLine s newline), f.Changes s := by
    have hcloser := closer_spec hs.sound hparens
    intro f hf
    rcases List.mem_append.mp hf with hf | hf
    · exact closeLine_changes hs hnewline (hs.sound.paren i parens hparens).2.2 f hf
    · obtain ⟨use, huse, hf⟩ := List.mem_flatMap.mp hf
      rw [Option.mem_toList.mp huse] at hcloser
      exact closeLine_changes hs hnewline hcloser f hf
  unfold multiLine
  dsimp only
  intro f hf
  split at hf
  · exact .inl (hlists f hf)
  rename_i scope hscope
  have hbrace := (hs.sound.scope i scope hscope).2.1
  have hsize : scope.opener < s.size := Store.lt_size_of_kind hbrace (by decide)
  rcases List.mem_append.mp hf with hf | hf
  · exact .inl (hlists f hf)
  · split at hf
    · exact .inl (braceBlank_changes hs (by omega) f hf)
    · exact braceLine_changes_or_idles hs (closer_spec hs.sound hparens) hbrace f hf

/-- Every fix of the rule for the heads of functions changes the text or idles. -/
theorem findings_changes_or_idles (hs : Exact s) :
    ∀ f ∈ findings settings (.ofStore s) i, f.Changes s ∨ f.Idles s := by
  unfold findings
  dsimp only [File.ofStore_store]
  intro f hf
  split at hf
  · cases hf
  rename_i parens hparens
  split at hf
  · exact multiLine_changes_or_idles hs (File.newline_ne settings s) hparens f hf
  unfold singleLine at hf
  dsimp only [File.ofStore_store] at hf
  split at hf
  · exact BraceBelow.findings_changes_or_idles hs f hf
  obtain ⟨_, hf⟩ := List.mem_ite_nil_left.mp hf
  split at hf
  · rename_i hblank
    obtain rfl := List.mem_singleton.mp hf
    have hsize := Store.lt_size_of_kind hblank.2 (by decide)
    exact .inl (changes_of_replace hs.sound rfl hsize (hs.text_ne _ hsize).symm)
  · exact BraceBelow.findings_changes_or_idles hs f hf

end Declaration

end

end PhpStyle
