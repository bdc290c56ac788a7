import PhpStyle.Proofs.Standard.MendingHeads

/-!
# Fixes of documentation comments and line breaks

The lines of a documentation comment are cleared as a whole, and so is a line break that two tokens
share. Only the fix for blank lines at the end of a comment clears a row of tokens that may end
within a line break. So whatever a rule of the standard finds mixes no line breaks, or trims the end
of a documentation comment.
-/

namespace PhpStyle

open Finding
open Php (Breaking)

section

variable {s : Store} {style : LineEnding} {settings : Settings} {newline : String} {i : Nat}
    (hs : Breaking s) (huniform : style.Uniform s.source.toList)

include hs huniform

namespace DocLayout

omit hs huniform in
/-- The next part of a comment is the first that is no filler. -/
theorem nextPart?_spec {stop : Option Nat} {j : Nat} (h : nextPart? s i stop = some j) :
    i < j ∧ isFiller (s.token j) = false ∧ ∀ k, i < k → k < j → isFiller (s.token k) = true := by
  have hlt := lt_of_nextPart? h
  obtain ⟨first, hfirst, hfound⟩ := Option.bind_eq_some_iff.mp h
  have hfirst : first = i + 1 := by
    rw [Store.next?, Store.index?] at hfirst
    split at hfirst <;> cases hfirst
    rfl
  subst hfirst
  obtain ⟨_, _, hj, hbetween⟩ := Store.scanUp_eq_some hfound
  exact ⟨hlt, by simpa using hj, fun k hik hkj => by simpa using hbetween k hik hkj⟩

omit hs huniform in
/-- Blanks and stars fill the lines of a comment, and nothing else does. -/
theorem isFiller_iff :
    isFiller (s.token i) = true ↔ s.kind i = .docWhitespace ∨ s.kind i = .docStar := by
  simp [isFiller, Store.kind]

omit hs huniform in
/-- A description ends with one of its texts. -/
theorem kind_descriptionEnd {last : Nat} (hlast : s.kind last = .docText) (tokens : List Nat) :
    s.kind (descriptionEnd s last tokens) = .docText := by
  induction tokens generalizing last with
  | nil => exact hlast
  | cons p rest ih =>
    rw [descriptionEnd]
    split
    · rename_i hgoes
      exact ih hgoes.1
    split
    · exact hlast
    · exact ih hlast

omit huniform in
/-- A carriage return whose line feed stands in the next token does not end the line. -/
theorem line_of_cutsBreak (hcut : s.CutsBreak i) : s.line (i + 1) = s.line i := by
  have hkind := (hs.cut i hcut).1
  have hone := (hs.exact.sound.shapes i).oneLine (by simp [hkind, Kind.isWrapping])
  have hlast := hcut.1
  have hbreaks : s.breaks i = 0 := by
    refine List.count_eq_zero.mpr fun hmem => ?_
    rw [← List.dropLast_append_getLast? _ hlast, List.mem_append] at hmem
    exact hmem.elim hone (by simp)
  have hnext := hs.exact.sound.line_succ (Store.lt_size_of_cutsBreak hs hcut)
  omega

omit huniform in
/-- Whole lines of blanks and stars are cleared together, and so is whatever shares a break with
them. -/
theorem clearing_mends {low high j : Nat} (hi : s.kind i ≠ .docWhitespace)
    (hj : s.kind j ≠ .docWhitespace) (hfiller : ∀ k, i < k → k < j → isFiller (s.token k) = true)
    {f : Finding} (hfix : f.fix = clearing (s.onLinesBetween low high (s.between i j))) :
    f.Mends style s := by
  unfold clearing at hfix
  split at hfix
  · exact mends_of_none hfix
  refine mends_of_some hfix fun e he => ?_
  obtain ⟨p, hp, rfl⟩ := List.mem_map.mp he
  obtain ⟨hbetween, hlow, hhigh⟩ := Store.mem_onLinesBetween_iff.mp hp
  obtain ⟨hip, hpj⟩ := Store.mem_between.mp hbetween
  rw [Changeset.targets_map_replace]
  refine ⟨.nil, fun hcut => ?_, fun k hk hcut => ?_, fun hcontent => ?_⟩
  · have hline := line_of_cutsBreak hs hcut
    have hsecond := (hs.cut p hcut).2.1
    have hne : p + 1 ≠ j := fun heq => hj (heq ▸ hsecond)
    refine Store.mem_onLinesBetween_iff.mpr ⟨Store.mem_between.mpr ⟨?_, ?_⟩, ?_,
      fun k hik hkp => ?_⟩
    · exact Nat.lt_succ_of_lt hip
    · exact Nat.lt_of_le_of_ne hpj hne
    · exact fun heq => hlow (hline.symm.trans heq)
    · rcases Nat.lt_or_eq_of_le hkp with hlt | rfl
      · exact hhigh k hik (Nat.le_of_lt_succ hlt)
      · have := hhigh p hip (Nat.le_refl p)
        simp only [Edit.target_replace] at hline ⊢
        rwa [hline]
  · obtain rfl : p = k + 1 := hk
    have hline := line_of_cutsBreak hs hcut
    have hfirst := (hs.cut k hcut).1
    have hne : i ≠ k := fun heq => hi (heq ▸ hfirst)
    have hmem : k ∈ s.between i j := Store.mem_between.mpr ⟨by omega, by omega⟩
    refine Store.mem_onLinesBetween_iff.mpr ⟨hmem, fun heq => hlow (hline.trans heq),
      fun q hiq hqk => ?_⟩
    exact hhigh q hiq (Nat.le_succ_of_le hqk)
  · rcases isFiller_iff.mp (hfiller p hip hpj) with hkind | hkind <;> simp [hkind] at hcontent

omit hs huniform in
/-- What may be found in a documentation comment is cleared in whole lines or up to its end. -/
theorem mends_or_trims_of_spacingAtEnd {last close : Nat}
    (hlast : s.kind last = .docTag ∨ s.kind last = .docText)
    (hfiller : ∀ k, last < k → k < close → isFiller (s.token k) = true) :
    ∀ f ∈ spacingAtEnd s last close, f.Mends style s ∨ ∃ count, f.Trims s last count := by
  intro f hf
  obtain ⟨_, rfl⟩ := mem_when_iff.mp hf
  obtain ⟨count, hcount, _⟩ := s.exists_takeWhile_between last close fun p =>
      !s.sameLine (p + 1) close
  by_cases hnone : (List.range' (last + 1) count).isEmpty = true
  · refine .inl (mends_of_none ?_)
    simp only [clearing, hcount, hnone, if_true]
  · refine .inr ⟨count, rfl, ?_, hlast, fun k hlow hhigh => isFiller_iff.mp (hfiller k hlow ?_)⟩
    · simp only [clearing, hcount, hnone, if_false, Bool.false_eq_true]
    · have hmem : k ∈ (s.between last close).takeWhile fun p => !s.sameLine (p + 1) close := by
        rw [hcount, List.mem_range'_1]
        omega
      exact (Store.mem_between.mp ((List.takeWhile_sublist _).mem hmem)).2

omit huniform in
/-- The last part of a comment that says something, if there is one. -/
theorem last_spec {tag short close : Nat} (hopen : s.kind tag = .docOpen)
    (hmatch : s.commentMatch? tag = some close) (hlow : tag < short) (hhigh : short < close)
    (hshort : isFiller (s.token short) = false) {last : Nat}
    (hlast : ((s.prev? close).bind fun p =>
      s.findPrevious (fun t => !isFiller t) p (some tag)).getD tag = last) :
    (s.kind last = .docTag ∨ s.kind last = .docText) ∧
      ∀ k, last < k → k < close → isFiller (s.token k) = true := by
  obtain ⟨_, _, hparts⟩ := hs.comment tag close hopen hmatch
  have hprev : s.prev? close = some (close - 1) := if_neg (by omega)
  rw [hprev, Option.bind_some] at hlast
  cases hfound : s.findPrevious (fun t => !isFiller t) (close - 1) (some tag) with
  | none =>
    have hnone := Store.scanDown_eq_none hfound short (Nat.le_of_lt hlow) (by omega)
    simp [hshort] at hnone
  | some found =>
    obtain rfl : found = last := by rw [← hlast, hfound, Option.getD_some]
    obtain ⟨_, hlt, hvisible, hfiller⟩ := Store.scanDown_eq_some hfound
    have hle : short ≤ found := by
      by_contra hless
      have := hfiller short (by omega) (by omega)
      simp [hshort] at this
    have hpart := hparts found (by omega) (by omega)
    have hnext := hparts (found + 1) (by omega) (by omega)
    have hsize : found + 1 < s.size := Store.lt_size_of_kind_ne fun hunknown => by
      simp [hunknown, Kind.isDocPart] at hnext
    rw [hs.follows found hsize] at hnext
    refine ⟨?_, fun k hk hkc => by simpa using hfiller k hk (by omega)⟩
    have hvisible : ¬ (s.kind found = .docWhitespace ∨ s.kind found = .docStar) := by
      rw [← isFiller_iff]
      simpa using hvisible
    revert hpart hnext hvisible
    cases s.kind found <;> simp [Kind.isDocPart, Kind.leavesDocOpen]

/-- What follows the opening tag of a comment is put on a line of its own with the line break of the
file. -/
theorem contentBehindOpen_mend (hnewline : style.Uniform newline.toList) {tag short : Nat}
    (hopen : s.kind tag = .docOpen) (hshort : s.kind short ≠ .docWhitespace) :
    ∀ f ∈ contentBehindOpen s newline tag short, f.Mends style s := by
  intro f hf
  obtain ⟨_, rfl⟩ := mem_when_iff.mp hf
  refine mends_of_some rfl fun e he => ?_
  simp only [List.mem_cons, List.not_mem_nil, or_false] at he
  rcases he with rfl | rfl
  · exact Edit.mends_of_kind hs huniform (Store.stays_out hopen rfl) hnewline
  · have hstar : style.Uniform "* ".toList := .of_plain (by decide) (by decide)
    refine ⟨Edit.uniform_result hs huniform hshort hstar, fun hcut => ?_, fun k hk hcut => ?_,
      fun _ _ => .inl ⟨_, rfl⟩⟩
    · exact absurd (hs.cut short hcut).1 hshort
    · obtain rfl : short = k + 1 := hk
      exact absurd (hs.cut k hcut).2.1 hshort

omit huniform in
/-- Between the descriptions of a comment, lines are cleared from their first token to their
last. -/
theorem descriptions_mend {tag short close : Nat} (hopen : s.kind tag = .docOpen)
    (hfiller : ∀ k, tag < k → k < short → isFiller (s.token k) = true) :
    ∀ f ∈ descriptions s tag short close, f.Mends style s := by
  unfold descriptions
  dsimp only
  intro f hf
  split at hf
  · obtain rfl := List.mem_singleton.mp hf
    exact mends_of_none rfl
  rename_i hshort
  rw [ne_eq, Decidable.not_not] at hshort
  rcases List.mem_append.mp hf with hf | hf
  · rcases List.mem_append.mp hf with hf | hf
    · obtain ⟨_, rfl⟩ := mem_unless_iff.mp hf
      exact clearing_mends hs (by simp [hopen]) (by simp [hshort]) hfiller rfl
    · obtain ⟨_, rfl⟩ := mem_when_iff.mp hf
      exact mends_of_none rfl
  · obtain ⟨long, hlong, hf⟩ := List.mem_flatMap.mp hf
    obtain ⟨hfound, hkind⟩ := Option.filter_eq_some_iff.mp (Option.mem_toList.mp hlong)
    obtain ⟨_, _, hbetween⟩ := nextPart?_spec hfound
    rcases List.mem_append.mp hf with hf | hf
    · obtain ⟨_, rfl⟩ := mem_unless_iff.mp hf
      exact clearing_mends hs (by simp [kind_descriptionEnd hshort]) (by simp [beq_iff_eq.mp hkind])
        hbetween rfl
    · obtain ⟨_, rfl⟩ := mem_when_iff.mp hf
      exact mends_of_none rfl

/-- A fix for the layout of a comment mixes no line breaks, or it trims the end of the comment. -/
theorem findings_mend (hnewline : style.Uniform ((File.ofStore s).newline settings).toList)
    (hopen : s.kind i = .docOpen) :
    ∀ f ∈ findings settings (.ofStore s) i, f.Mends style s ∨
      ∃ last count, f.Trims s last count := by
  unfold findings
  dsimp only [File.ofStore_store]
  intro f hf
  split at hf
  · cases hf
  rename_i close hmatch
  have hclose := (hs.comment i close hopen hmatch).2.1
  split at hf
  · obtain rfl := List.mem_singleton.mp hf
    exact .inl (mends_of_none rfl)
  rename_i short hshort
  obtain ⟨hlow, hvisible, hfiller⟩ := nextPart?_spec hshort
  have hhigh : short < close := by
    obtain ⟨_, _, hfound⟩ := Option.bind_eq_some_iff.mp hshort
    obtain ⟨_, hstop, _⟩ := Store.scanUp_eq_some hfound
    have hmin := Nat.min_le_left close s.size
    simp only [Option.getD_some] at hstop
    omega
  have hkind : s.kind short ≠ .docWhitespace :=
    fun hblank => by simp [isFiller_iff.mpr (.inl hblank)] at hvisible
  simp only [List.mem_append] at hf
  rcases hf with ((hf | hf) | hf) | hf
  · exact .inl (contentBehindOpen_mend hs huniform hnewline hopen hkind f hf)
  · obtain ⟨_, rfl⟩ := mem_when_iff.mp hf
    exact .inl (mends_singleton hs huniform rfl (.insert (Store.stays_out hclose rfl) hnewline))
  · obtain ⟨hlast, hbehind⟩ := last_spec hs hopen hmatch hlow hhigh hvisible rfl
    exact (mends_or_trims_of_spacingAtEnd hlast hbehind f hf).imp_right fun htrims => ⟨_, htrims⟩
  · exact .inl (descriptions_mend hs hopen hfiller f hf)

end DocLayout

/-- A fix for a comment of one type mixes no line breaks, or it trims the end of the comment. -/
theorem DocComment.findings_mend
    (hnewline : style.Uniform ((File.ofStore s).newline settings).toList)
    (hopen : s.kind i = .docOpen) :
    ∀ f ∈ findings settings (.ofStore s) i, f.Mends style s ∨
      ∃ last count, f.Trims s last count := by
  unfold findings
  dsimp only [File.ofStore_store]
  intro f hf
  split at hf
  · cases hf
  rename_i close hmatch
  obtain ⟨_, hclose, _⟩ := hs.comment i close hopen hmatch
  obtain ⟨_, hf⟩ := List.mem_ite_nil_left.mp hf
  split at hf
  · obtain rfl := List.mem_singleton.mp hf
    refine .inl (mends_of_some rfl fun e he => ?_)
    rcases List.mem_cons.mp he with rfl | he
    · exact Edit.mends_of_kind hs huniform (Store.stays_out hopen rfl) .space
    obtain ⟨p, hp, rfl⟩ := List.mem_map.mp he
    have htargets (q : Nat) :
        (if s.kind q = .docTag ∨ s.kind q = .docText then Edit.append q " "
          else .replace q "").target = q := by
      split <;> rfl
    refine Edit.mends_of_mem_between hs (show s.kind i ≠ .docWhitespace by simp [hopen])
      (Store.lt_size_of_kind hclose (by decide)) (fun _ => hclose) (fun q hq => ?_)
      (by rwa [htargets]) ?_
    · rw [toOneLine, Changeset.targets_cons, Changeset.targets_map htargets]
      exact List.mem_cons_of_mem _ hq
    · split
      · rename_i hkind
        refine Edit.uniform_result hs huniform (fun hblank => ?_) .space
        simp only [Edit.target_append] at hblank
        rcases hkind with hkind | hkind <;> cases hkind.symm.trans hblank
      · exact .nil
  · exact DocLayout.findings_mend hs huniform hnewline hopen f hf

end

namespace Catalogue

/-- In a text with line breaks of one kind, whatever a rule of the catalogue finds at a token that
it looks at mixes no line breaks, or trims the end of a documentation comment. -/
theorem mends_or_trims {settings : Settings} {rule : Rule}
    (hrule : rule ∈ rules settings ++ generalRules settings) {s : Store} (hs : Breaking s)
    {style : LineEnding} (huniform : style.Uniform s.source.toList)
    (hnewline : style.Uniform ((File.ofStore s).newline settings).toList) {i : Nat}
    (hkind : s.kind i ∈ rule.kinds) :
    ∀ f ∈ rule.runAt (.ofStore s) i, f.Mends style s ∨ ∃ last count, f.Trims s last count := by
  have hnamed : ∀ name (f : Finding), (f.Mends style s ∨ ∃ last count, f.Trims s last count) →
      { f with rule := name }.Mends style s ∨
      ∃ last count, { f with rule := name }.Trims s last count := by
    rintro name f (hmends | ⟨last, count, htrims⟩)
    · exact .inl hmends
    · exact .inr ⟨last, count, htrims.code, htrims.fix, htrims.content, htrims.filler⟩
  have hone {k : Kind} (hkinds : rule.kinds = [k]) : s.kind i = k := by simpa [hkinds] using hkind
  simp only [rules, generalRules, List.cons_append, List.nil_append, List.mem_cons,
    List.not_mem_nil, or_false] at hrule
  rcases hrule
    with rfl | rfl | rfl | rfl | rfl | rfl | rfl | rfl | rfl | rfl | rfl | rfl | rfl | rfl
  · exact forall_runAt_anywhere hnamed fun f hf =>
      .inl (FileHeader.findings_mend hs huniform hnewline (hone rfl) f hf)
  · exact forall_runAt_anywhere hnamed fun f hf =>
      .inl (ArrayLiteral.findings_mend hs huniform (hone rfl) f hf)
  · exact forall_runAt_anywhere hnamed fun f hf =>
      .inl (BracePlacement.findings_mend hs huniform hnewline f hf)
  · have hkeyword : (s.kind i).isDocContent = false := by
      revert hkind
      cases s.kind i <;> simp [TryCatch.rule, Kind.isDocContent]
    exact forall_runAt_anywhere hnamed fun f hf =>
      .inl (TryCatch.findings_mend hs huniform hnewline hkeyword f hf)
  · exact forall_runAt_anywhere hnamed fun f hf =>
      .inl (Finding.mends_of_none (Continuation.fix_eq_none f hf))
  · exact forall_runAt_anywhere hnamed fun f hf =>
      .inl (Condition.lenientFindings_mend hs huniform hnewline f hf)
  · exact forall_runAt_anywhere hnamed fun f hf =>
      .inl (ClosingBrace.findings_mend hs huniform hnewline f hf)
  · exact forall_runAt_anywhere hnamed fun f hf =>
      .inl (TrailingComma.findings_mend hs huniform f hf)
  · exact forall_runAt_anywhere hnamed fun f hf =>
      .inl (Declaration.findings_mend hs huniform hnewline f hf)
  · exact forall_runAt_anywhere hnamed (DocComment.findings_mend hs huniform hnewline (hone rfl))
  · exact fun f hf => .inl (Finding.mends_of_none (MethodName.fix_eq_none f hf))
  · exact forall_runAt_anywhere hnamed (DocLayout.findings_mend hs huniform hnewline (hone rfl))
  · exact forall_runAt_anywhere hnamed fun f hf =>
      .inl (Condition.strictFindings_mend hs huniform hnewline f hf)
  · exact forall_runAt_anywhere hnamed fun f hf =>
      .inl (BraceBelow.findings_mend hs huniform hnewline f hf)

end Catalogue

end PhpStyle
