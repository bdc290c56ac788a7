import PhpStyle.Proofs.Standard.ClosingBrace
import PhpStyle.Proofs.Standard.Condition
import PhpStyle.Proofs.Standard.Mending

/-!
# Fixes of conditions, closing braces and heads of functions mix no line breaks

They put line breaks and indentation beside brackets and keywords, or in place of what stands in
front of a bracket. There no documentation comment is open, save on the line of a closing brace: of
that line the first token may stand in a comment, but it shares no line break.
-/

namespace PhpStyle

open Finding
open Php (Breaking)

section

variable {s : Store} {style : LineEnding} {settings : Settings} {newline : String} {i : Nat}
    (hs : Breaking s) (huniform : style.Uniform s.source.toList)

include hs huniform

namespace Condition

variable {g : Group} {indent : IndentStyle}

/-- A blank that goes behind an opening parenthesis leaves no line break cut. -/
theorem openBlank_mend : ∀ f ∈ openBlank s g, f.Mends style s := by
  intro f hf
  obtain ⟨hblank, rfl⟩ := mem_when_iff.mp hf
  exact mends_singleton hs huniform rfl (.clear (Store.stays_out hblank.1 rfl))

/-- A blank that goes in front of a closing parenthesis leaves no line break cut. -/
theorem closeBlank_mend : ∀ f ∈ closeBlank s newline g, f.Mends style s := by
  intro f hf
  obtain ⟨hblank, rfl⟩ := mem_when_iff.mp hf
  exact mends_singleton hs huniform rfl (.clear (Store.stays_out hblank.2.1 rfl))

/-- The line break behind an opening parenthesis is that of the file. -/
theorem firstLine_mend (hnewline : style.Uniform newline.toList)
    (hopen : s.kind g.opener = .openParen) {next : Nat} {stop : Option Nat}
    (hnext : s.nextVisible? g.opener stop = some next) :
    ∀ f ∈ firstLine s newline g next, f.Mends style s := by
  obtain ⟨_, _, _, hblank⟩ := Store.nextVisible?_eq_some hnext
  intro f hf
  obtain ⟨_, rfl⟩ := mem_unless_iff.mp hf
  refine mends_of_staysOut hs huniform rfl fun e he => ?_
  rcases List.mem_append.mp he with he | he
  · obtain ⟨p, hp, rfl⟩ := List.mem_map.mp he
    obtain ⟨_, hp⟩ := List.mem_ite_nil_right.mp hp
    obtain ⟨hlow, hhigh⟩ := Store.mem_between.mp ((List.takeWhile_sublist _).mem hp)
    exact .delete (Store.stays_out (hblank p hlow hhigh) rfl)
  · obtain rfl := List.mem_singleton.mp he
    exact .append (Store.stays_out hopen rfl) hnewline

/-- The indentation of the lines of a condition has no line breaks. -/
theorem lineIndents_mend {required : Nat} :
    ∀ f ∈ lineIndents s indent g required, f.Mends style s := by
  have hpad := indent.uniform_pad style required
  intro f hf
  obtain ⟨p, _, hfound⟩ := List.mem_filterMap.mp hf
  obtain ⟨found, hmissing, rfl⟩ := Option.map_eq_some_iff.mp hfound
  unfold missingIndent? at hmissing
  dsimp only at hmissing
  obtain ⟨hlone, _⟩ := Option.ite_none_left_eq_some.mp hmissing
  have hkind : (s.kind p).isDocContent = false := by
    refine Kind.isDocContent_of_isDocPart (Kind.isDocPart_of_isComment ?_)
    by_contra hcomment
    exact hlone (.inr (.inr (.inl (by simpa [Store.kind] using hcomment))))
  refine mends_singleton hs huniform rfl ?_
  split
  · exact .insert hkind hpad
  · exact .replace hkind hpad

/-- The line break in front of a closing parenthesis is that of the file. -/
theorem closeLine_mend (hnewline : style.Uniform newline.toList) (hlt : g.opener < g.closer)
    (hclose : s.kind g.closer = .closeParen) :
    ∀ f ∈ closeLine s newline g (lastExpression s g), f.Mends style s := by
  obtain ⟨_, _, hblank⟩ := lastExpression_spec (s := s) hlt
  intro f hf
  obtain ⟨_, rfl⟩ := mem_unless_iff.mp hf
  split
  · exact mends_singleton hs huniform rfl (.insert (Store.stays_out hclose rfl) hnewline)
  · refine mends_of_staysOut hs huniform rfl fun e he => ?_
    obtain ⟨p, hp, rfl⟩ := List.mem_map.mp he
    obtain ⟨hlow, hhigh⟩ := Store.mem_between.mp ((Store.onLinesBetween_sublist _).mem hp)
    exact .delete (Store.stays_out (hblank p hlow hhigh) rfl)

/-- The indentation of a closing parenthesis has no line breaks. -/
theorem closeIndent_mend (hclose : s.kind g.closer = .closeParen) {first prev : Nat} :
    ∀ f ∈ closeIndent s indent g first prev, f.Mends style s := by
  have hpad := indent.uniform_pad style (s.indentOf first)
  intro f hf
  obtain ⟨_, rfl⟩ := mem_unless_iff.mp hf
  refine mends_singleton hs huniform rfl ?_
  split
  · exact .replace (Store.isDocContent_before hs hclose rfl (by decide)) hpad
  · exact .insert (Store.stays_out hclose rfl) hpad

/-- A closing parenthesis is joined to what stands before it without a line break. -/
theorem joinClose_mend {prev : Nat} : ∀ f ∈ joinClose s g prev, f.Mends style s := by
  intro f hf
  obtain ⟨_, rfl⟩ := mem_when_iff.mp hf
  intro c hc
  obtain ⟨p, hp, rfl⟩ := Option.map_eq_some_iff.mp hc
  have hblank : s.kind p = .whitespace := beq_iff_eq.mp (Store.scanDown_eq_some hp).2.2.1
  exact mends_singleton hs huniform hc (.clear (Store.stays_out hblank rfl)) _ hc

/-- The fixes of the strict rule for conditions mix no line breaks. -/
theorem strictFindings_mend (hnewline : style.Uniform ((File.ofStore s).newline settings).toList) :
    ∀ f ∈ strictFindings settings (.ofStore s) i, f.Mends style s := by
  unfold strictFindings
  dsimp only [File.ofStore_store]
  intro f hf
  split at hf
  · cases hf
  rename_i g hg
  obtain ⟨hlt, hopen, hclose⟩ := hs.exact.sound.paren i g hg
  split at hf
  · rcases List.mem_append.mp hf with hf | hf
    · exact openBlank_mend hs huniform f hf
    · exact closeBlank_mend hs huniform f hf
  split at hf
  · cases hf
  rename_i next hnext
  simp only [List.mem_append] at hf
  rcases hf with ((hf | hf) | hf) | hf
  · exact firstLine_mend hs huniform hnewline hopen hnext f hf
  · exact lineIndents_mend hs huniform f hf
  · exact closeLine_mend hs huniform hnewline hlt hclose f hf
  · exact closeIndent_mend hs huniform hclose f hf

/-- The fixes of the lenient rule for conditions mix no line breaks. -/
theorem lenientFindings_mend (hnewline : style.Uniform ((File.ofStore s).newline settings).toList) :
    ∀ f ∈ lenientFindings settings (.ofStore s) i, f.Mends style s := by
  unfold lenientFindings
  dsimp only [File.ofStore_store]
  intro f hf
  split at hf
  · cases hf
  rename_i g hg
  obtain ⟨_, _, hclose⟩ := hs.exact.sound.paren i g hg
  split at hf
  · exact strictFindings_mend hs huniform hnewline f hf
  split at hf
  · cases hf
  split at hf
  · exact strictFindings_mend hs huniform hnewline f hf
  simp only [singleExpression, List.mem_append] at hf
  rcases hf with (hf | hf) | hf
  · exact lineIndents_mend hs huniform f hf
  · exact joinClose_mend hs huniform f hf
  · exact closeIndent_mend hs huniform hclose f hf

end Condition

namespace ClosingBrace

/-- The line break in front of a promoted property is that of the file. -/
theorem promotions_mend (hnewline : style.Uniform newline.toList) {occupied tokens : List Nat}
    (htokens : ∀ p ∈ tokens, isVisibility (s.kind p) = true) :
    ∀ f ∈ promotions s newline occupied tokens, f.Mends style s := by
  induction tokens generalizing occupied with
  | nil => simp [promotions]
  | cons p rest ih =>
    obtain ⟨hp, hrest⟩ := List.forall_mem_cons.mp htokens
    have hkind : (s.kind p).isDocContent = false := by
      revert hp
      cases s.kind p <;> simp [isVisibility, Kind.isDocContent]
    rw [promotions]
    split
    · exact List.forall_mem_cons.mpr ⟨mends_singleton hs huniform rfl (.insert hkind hnewline),
        ih hrest⟩
    · exact ih hrest

/-- The braces of a constructor are joined without a line break, and its properties parted by those
of the file. -/
theorem constructorFindings_mend (hnewline : style.Uniform newline.toList) {scope : Group} :
    ∀ f ∈ constructorFindings s newline i scope, f.Mends style s := by
  intro f hf
  rcases List.mem_append.mp hf with hf | hf
  · split at hf
    · cases hf
    · exact promotions_mend hs huniform hnewline (fun p hp => (List.mem_filter.mp hp).2) f hf
  · obtain ⟨hparted, rfl⟩ := mem_unless_iff.mp hf
    refine mends_of_staysOut hs huniform rfl fun e he => ?_
    obtain ⟨p, hp, rfl⟩ := List.mem_map.mp he
    have hblank : s.kind p = .whitespace := by
      by_contra hother
      refine hparted ?_
      rw [Bool.or_eq_true, List.any_eq_true]
      exact .inr ⟨p, hp, bne_iff_ne.mpr hother⟩
    exact .clear (Store.stays_out hblank rfl)

omit huniform in
/-- A token on whose line code follows shares no line break with another. -/
theorem not_cutsBreak_of_line {j : Nat} (hij : i < j) (hj : s.kind j = .closeCurly)
    (hline : s.line j ≤ s.line i) : ¬ s.CutsBreak i ∧ ∀ k, i = k + 1 → ¬ s.CutsBreak k := by
  have hsize : j < s.size := Store.lt_size_of_kind hj (by decide)
  have hone : ∀ k, i ≤ k → k < j → s.text k ≠ "\n" := by
    intro k hk hkj hfeed
    have hnone := hs.exact.sound.breaks_eq_zero hk hkj hsize hline
    simp [Store.breaks, hfeed] at hnone
  refine ⟨fun hcut => ?_, fun k hk hcut => ?_⟩
  · obtain ⟨_, hkind, hfeed⟩ := hs.cut i hcut
    refine hone (i + 1) (Nat.le_succ i) (Nat.lt_of_le_of_ne hij fun heq => ?_) hfeed
    rw [show i + 1 = j from heq, hj] at hkind
    cases hkind
  · exact hone i (Nat.le_refl i) hij (hk ▸ (hs.cut k hcut).2.2)

omit hs huniform in
/-- The first content on the line of a token is the token itself, or stands before it on no earlier
line. -/
theorem firstContent_cases (i : Nat) :
    s.firstContent i = i ∨ s.firstContent i < i ∧ s.line i ≤ s.line (s.firstContent i) := by
  unfold Store.firstContent
  cases hfound : s.findFirstOnLine (.except (.oneOf [.whitespace, .inlineHtml])) i with
  | none => exact .inl rfl
  | some first =>
    obtain ⟨hle, _, hline, _⟩ := Store.findFirstOnLine_eq_some hfound
    exact (Nat.eq_or_lt_of_le hle).imp_right fun hlt => ⟨hlt, hline⟩

/-- The indentation of a closing brace has no line breaks. -/
theorem indentFindings_mend {lineStart closer : Nat} (hclose : s.kind closer = .closeCurly) :
    ∀ f ∈ indentFindings settings s lineStart closer, f.Mends style s := by
  intro f hf
  obtain ⟨hne, rfl⟩ := mem_unless_iff.mp hf
  by_cases hless : s.indentOf (s.firstContent closer) < s.indentOf lineStart
  · simp only [if_pos hless]
    have hpad := settings.indent.uniform_pad style
      (s.indentOf lineStart - s.indentOf (s.firstContent closer))
    rcases firstContent_cases (s := s) closer with heq | ⟨hlt, hline⟩
    · exact mends_singleton hs huniform rfl
        (.insert (Store.stays_out ((congrArg s.kind heq).trans hclose) rfl) hpad)
    · obtain ⟨hfirst, hsecond⟩ := not_cutsBreak_of_line hs hlt hclose hline
      refine mends_of_some rfl fun e he => ?_
      obtain rfl := List.mem_singleton.mp he
      refine ⟨?_, fun hcut => absurd hcut hfirst, fun k hk hcut => absurd hcut (hsecond k hk),
        fun _ _ => .inl ⟨_, rfl⟩⟩
      have htext := (Store.uniform_or_cutsBreak hs huniform (s.firstContent closer)).resolve_right
        fun ⟨k, hk, hcut⟩ => hsecond k hk hcut
      rw [Edit.result_insert, String.toList_append]
      exact hpad.append htext
  · simp only [if_neg hless]
    intro c hc
    obtain ⟨p, hp, rfl⟩ := Option.map_eq_some_iff.mp hc
    have hnext := (Store.prev?_eq_some hp).symm
    have hcolumn : (s.token (p + 1)).column ≠ 1 := by
      intro hone
      rw [← hnext, Store.indentOf, hone] at hne hless
      omega
    have hkinds := kind_before_firstContent hs.exact.sound hclose hnext hcolumn
    have hkind : (s.kind p).isDocContent = false := by
      revert hkinds
      cases s.kind p <;> simp [Kind.isDocContent, Kind.isWrapping]
    refine mends_singleton hs huniform hc (.replace hkind ?_) _ hc
    have htext : style.Uniform (s.text p).toList :=
      Store.uniform_of_kind hs huniform fun hblank => by
      simp [hblank, Kind.isDocContent] at hkind
    rw [String.toList_ofList]
    rw [← List.take_append_drop _ (s.text p).toList] at htext
    exact htext.of_append_left

/-- The fixes of the rule for closing braces mix no line breaks. -/
theorem findings_mend (hnewline : style.Uniform ((File.ofStore s).newline settings).toList) :
    ∀ f ∈ findings settings (.ofStore s) i, f.Mends style s := by
  unfold findings
  dsimp only [File.ofStore_store]
  intro f hf
  split at hf
  · cases hf
  rename_i scope hscope
  obtain ⟨_, _, hclose⟩ := hs.exact.sound.scope i scope hscope
  split at hf
  · cases hf
  split at hf
  · obtain rfl := List.mem_singleton.mp hf
    exact mends_singleton hs huniform rfl (.insert (Store.stays_out hclose rfl) hnewline)
  rcases List.mem_append.mp hf with hf | hf
  · obtain ⟨_, hf⟩ := List.mem_ite_nil_right.mp hf
    exact constructorFindings_mend hs huniform hnewline f hf
  · obtain ⟨_, hf⟩ := List.mem_ite_nil_right.mp hf
    exact indentFindings_mend hs huniform hclose f hf

end ClosingBrace

/-- A comma is no line break. -/
theorem TrailingComma.findings_mend : ∀ f ∈ findings (.ofStore s) i, f.Mends style s := by
  unfold findings
  dsimp only [File.ofStore_store]
  intro f hf
  split at hf
  · cases hf
  rename_i g hg
  obtain ⟨_, _, hclose⟩ := hs.exact.sound.paren i g hg
  split at hf
  · cases hf
  rename_i last hlast
  obtain ⟨_, rfl⟩ := mem_unless_iff.mp hf
  obtain ⟨_, hlt, _, hblank⟩ := Store.prevVisible?_eq_some (Option.filter_eq_some_iff.mp hlast).1
  exact mends_singleton hs huniform rfl
    (.append (Store.isDocContent_before_blank hs hlt hclose hblank)
      (.of_plain (by decide) (by decide)))

namespace BraceBelow

variable {brace prev : Nat}

/-- The line break in front of a brace on the line of the head is that of the file. -/
theorem onSameLine_mend (hnewline : style.Uniform newline.toList)
    (hbrace : s.kind brace = .openCurly) : ∀ f ∈ onSameLine s newline brace, f.Mends style s := by
  intro f hf
  obtain rfl := List.mem_singleton.mp hf
  refine mends_of_staysOut hs huniform rfl fun e he => ?_
  rcases List.mem_cons.mp he with rfl | he
  · refine .insert (Store.stays_out hbrace rfl) ?_
    rw [String.toList_append]
    refine hnewline.append ?_
    split
    · rename_i hblank
      exact Store.uniform_of_kind hs huniform (by simp [hblank])
    · exact .nil
  · obtain ⟨hblank, he⟩ := List.mem_ite_nil_right.mp he
    obtain rfl := List.mem_singleton.mp he
    exact .clear (Store.stays_out hblank rfl)

/-- The blank lines in front of a brace go, and the line break left is that of the file. -/
theorem tooFarBelow_mend (hnewline : style.Uniform newline.toList)
    (hbrace : s.kind brace = .openCurly) {closer : Nat} :
    ∀ f ∈ tooFarBelow s newline closer prev brace, f.Mends style s := by
  intro f hf
  obtain rfl := List.mem_singleton.mp hf
  by_cases honly : s.prevVisible? brace (some closer) = some prev
  case neg => exact mends_of_none (if_neg honly)
  obtain ⟨_, _, _, hblank⟩ := Store.prevVisible?_eq_some honly
  refine mends_of_staysOut hs huniform (if_pos honly) fun e he => ?_
  obtain ⟨p, hp, hedit⟩ := List.mem_filterMap.mp he
  obtain ⟨hlow, hhigh⟩ := Store.mem_between.mp hp
  have hkind : (s.kind p).isDocContent = false := by
    rcases Nat.lt_or_eq_of_le (Nat.le_of_lt_succ hhigh) with hlt | rfl
    · exact Store.stays_out (hblank p hlow hlt) rfl
    · exact Store.stays_out hbrace rfl
  split at hedit
  · cases hedit
    exact .clear hkind
  · split at hedit
    · cases hedit
      exact .insert hkind hnewline
    · cases hedit

/-- The line break behind an opening brace is that of the file. -/
theorem contentBehind_mend (hnewline : style.Uniform newline.toList) {scope : Group}
    (hbrace : s.kind scope.opener = .openCurly) :
    ∀ f ∈ contentBehind s newline scope, f.Mends style s := by
  unfold contentBehind
  dsimp only
  intro f hf
  split at hf
  · cases hf
  obtain ⟨_, rfl⟩ := mem_when_iff.mp hf
  exact mends_singleton hs huniform rfl (.append (Store.stays_out hbrace rfl) hnewline)

/-- The indentation of an opening brace has no line breaks. -/
theorem indentFindings_mend (hbrace : s.kind brace = .openCurly) :
    ∀ f ∈ indentFindings settings s i brace, f.Mends style s := by
  have hpad := settings.indent.uniform_pad style (s.indentOf (s.firstVisible i))
  intro f hf
  obtain ⟨_, rfl⟩ := mem_unless_iff.mp hf
  refine mends_singleton hs huniform rfl ?_
  split
  · exact .insert (Store.stays_out hbrace rfl) hpad
  · exact .replace (Store.isDocContent_before hs hbrace rfl (by decide)) hpad

/-- The fixes of the rule for the braces of functions mix no line breaks. -/
theorem findings_mend (hnewline : style.Uniform ((File.ofStore s).newline settings).toList) :
    ∀ f ∈ findings settings (.ofStore s) i, f.Mends style s := by
  unfold findings
  dsimp only [File.ofStore_store]
  intro f hf
  split at hf
  · rename_i scope parens hscope hparens
    obtain ⟨_, hbrace, _⟩ := hs.exact.sound.scope i scope hscope
    obtain ⟨_, hf⟩ := List.mem_ite_nil_left.mp hf
    rcases List.mem_append.mp hf with hf | hf
    · rcases List.mem_append.mp hf with hf | hf
      · split at hf
        · exact onSameLine_mend hs huniform hnewline hbrace f hf
        · obtain ⟨_, hf⟩ := List.mem_ite_nil_right.mp hf
          exact tooFarBelow_mend hs huniform hnewline hbrace f hf
      · exact contentBehind_mend hs huniform hnewline hbrace f hf
    · obtain ⟨_, hf⟩ := List.mem_ite_nil_right.mp hf
      exact indentFindings_mend hs huniform hbrace f hf
  · cases hf

end BraceBelow

namespace Declaration

/-- The line break in front of the closing parenthesis of a head is that of the file. -/
theorem closeLine_mend (hnewline : style.Uniform newline.toList) {g : Group}
    (hclose : s.kind g.closer = .closeParen) : ∀ f ∈ closeLine s newline g, f.Mends style s := by
  unfold closeLine
  intro f hf
  split at hf
  · cases hf
  obtain ⟨_, rfl⟩ := mem_unless_iff.mp hf
  exact mends_singleton hs huniform rfl (.insert (Store.stays_out hclose rfl) hnewline)

/-- The blank in front of the brace of a head is no line break. -/
theorem braceBlank_mend {before : Nat} (hkind : (s.kind before).isDocContent = false) :
    ∀ f ∈ braceBlank s before, f.Mends style s := by
  intro f hf
  obtain ⟨_, rfl⟩ := mem_unless_iff.mp hf
  exact mends_singleton hs huniform rfl (iteInduction (motive := (Edit.StaysOut style s ·))
    (fun _ => .append hkind .space) fun _ => .replace hkind .space)

/-- A brace is raised to the line of a parenthesis over tokens that no comment reaches out of. -/
theorem raiseBrace_mends {closer brace : Nat} (hcloser : s.kind closer = .closeParen)
    (hbrace : s.kind brace = .openCurly) {f : Finding}
    (hfix : f.fix = some (raiseBrace s ((s.prevCodeDownTo? brace closer).getD closer)
      ((s.prevVisible? brace (some closer)).getD closer) brace)) : f.Mends style s := by
  have hraise : (Edit.append ((s.prevCodeDownTo? brace closer).getD closer) " \x7b").StaysOut
      style s := by
    refine .append ?_ (.of_plain (by decide) (by decide))
    cases hprev : s.prevCodeDownTo? brace closer with
    | none => exact Store.stays_out hcloser rfl
    | some prev =>
      obtain ⟨_, _, hcode, _⟩ := Store.prevCodeDownTo?_eq_some hprev
      rw [Option.getD_some]
      revert hcode
      cases s.kind prev <;> simp [Kind.isTrivia, Kind.isComment, Kind.isDocContent]
  refine mends_of_staysOut hs huniform hfix fun e he => ?_
  unfold raiseBrace at he
  dsimp only at he
  split at he
  · rename_i halone
    obtain ⟨hline, hbelow⟩ := halone
    obtain ⟨next, hnext, _⟩ := (Option.any_eq_true _ _).mp hbelow
    obtain ⟨_, hbefore⟩ := blank_before_brace hs.exact.sound hcloser hline
    obtain ⟨_, _, _, hbehind⟩ := Store.nextVisible?_eq_some hnext
    rcases List.mem_cons.mp he with rfl | he
    · exact hraise
    · obtain ⟨k, hk, rfl⟩ := List.mem_map.mp he
      rw [hnext, Option.getD_some] at hk
      obtain ⟨hlow, hhigh⟩ := Store.mem_between.mp (List.mem_of_mem_filter hk)
      rcases Nat.lt_trichotomy k brace with hlt | rfl | hgt
      · exact .clear (Store.stays_out (hbefore k hlow hlt) rfl)
      · exact .clear (Store.stays_out hbrace rfl)
      · exact .clear (Store.stays_out (hbehind k hgt hhigh) rfl)
  · rcases List.mem_cons.mp he with rfl | he
    · exact hraise
    rcases List.mem_cons.mp he with rfl | he
    · exact .clear (Store.stays_out hbrace rfl)
    obtain ⟨hgap, he⟩ := List.mem_ite_nil_right.mp he
    obtain rfl := List.mem_singleton.mp he
    obtain ⟨next, hnext, hgap⟩ := (Option.any_eq_true _ _).mp hgap
    obtain ⟨hlt, _, _, hbehind⟩ := Store.nextVisible?_eq_some hnext
    have hne : next ≠ brace + 1 := by simpa using (Bool.and_eq_true_iff.mp hgap).2
    exact .clear (Store.stays_out (hbehind (brace + 1) (Nat.lt_succ_self brace) (by omega)) rfl)

/-- The fixes for the head of a function of several lines mix no line breaks. -/
theorem multiLine_mend (hnewline : style.Uniform newline.toList) {parens : Group}
    (hparens : s.paren? i = some parens) : ∀ f ∈ multiLine s newline i parens, f.Mends style s := by
  have hcloser := closer_spec hs.exact.sound hparens
  have hlists : ∀ f ∈ closeLine s newline parens ++
      (useParens? s i parens.closer).toList.flatMap (closeLine s newline), f.Mends style s := by
    intro f hf
    rcases List.mem_append.mp hf with hf | hf
    · exact closeLine_mend hs huniform hnewline (hs.exact.sound.paren i parens hparens).2.2 f hf
    · obtain ⟨use, huse, hf⟩ := List.mem_flatMap.mp hf
      rw [Option.mem_toList.mp huse] at hcloser
      exact closeLine_mend hs huniform hnewline hcloser f hf
  unfold multiLine
  dsimp only
  intro f hf
  split at hf
  · exact hlists f hf
  rename_i scope hscope
  have hbrace := (hs.exact.sound.scope i scope hscope).2.1
  rcases List.mem_append.mp hf with hf | hf
  · exact hlists f hf
  split at hf
  · exact braceBlank_mend hs huniform (Store.isDocContent_before hs hbrace rfl (by decide)) f hf
  · obtain rfl := List.mem_singleton.mp hf
    by_cases hline : s.sameLine ((s.prevCodeDownTo? scope.opener
        ((useParens? s i parens.closer).getD parens).closer).getD
          ((useParens? s i parens.closer).getD parens).closer) scope.opener = true
    · exact mends_of_none (if_pos hline)
    · exact raiseBrace_mends hs huniform hcloser hbrace (if_neg hline)

/-- The fixes of the rule for the heads of functions mix no line breaks. -/
theorem findings_mend (hnewline : style.Uniform ((File.ofStore s).newline settings).toList) :
    ∀ f ∈ findings settings (.ofStore s) i, f.Mends style s := by
  unfold findings
  dsimp only [File.ofStore_store]
  intro f hf
  split at hf
  · cases hf
  rename_i parens hparens
  split at hf
  · exact multiLine_mend hs huniform hnewline hparens f hf
  unfold singleLine at hf
  dsimp only [File.ofStore_store] at hf
  split at hf
  · exact BraceBelow.findings_mend hs huniform hnewline f hf
  obtain ⟨_, hf⟩ := List.mem_ite_nil_left.mp hf
  split at hf
  · rename_i hblank
    obtain rfl := List.mem_singleton.mp hf
    exact mends_singleton hs huniform rfl (.clear (Store.stays_out hblank.2 rfl))
  · exact BraceBelow.findings_mend hs huniform hnewline f hf

end Declaration

end

end PhpStyle
