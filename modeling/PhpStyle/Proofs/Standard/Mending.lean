import PhpStyle.Proofs.Standard.Effects
import PhpStyle.Proofs.Standard.LineBreaks
import PhpStyle.Proofs.Standard.Targets

/-!
# Fixes that mix no line breaks

A fix that edits tokens outside of the lines of documentation comments, or a row of tokens that no
comment reaches out of, and that writes the line breaks of the file or none, mixes no line breaks.
Such are the fixes at the head of a file, of array literals, and of the lines and blanks around the
keywords of control structures.
-/

namespace PhpStyle

open Php (Breaking)

namespace Kind

variable {k : Kind}

/-- Behind the contents of a documentation comment the comment is open still. -/
theorem leavesDocOpen_of_isDocContent (h : k.isDocContent = true) : k.leavesDocOpen = true := by
  cases k <;> first | rfl | cases h

/-- The contents of a documentation comment are parts of it. -/
theorem isDocContent_of_isDocPart (h : k.isDocPart = false) : k.isDocContent = false := by
  cases k <;> first | rfl | cases h

end Kind

/-- Indentation has blanks or tabs only, and so mixes no line breaks. -/
theorem IndentStyle.uniform_pad (indent : IndentStyle) (style : LineEnding) (columns : Nat) :
    style.Uniform (indent.pad columns).toList := by
  have hmem : ∀ c ∈ (indent.pad columns).toList, c = indent.char := by
    simp [pad]
  refine .of_plain (fun h => ?_) fun h => ?_
  · cases indent <;> cases hmem _ h
  · cases indent <;> cases hmem _ h

/-- An edit outside of the lines of documentation comments that writes line breaks of one kind
only. -/
structure Edit.StaysOut (style : LineEnding) (s : Store) (e : Edit) : Prop where
  kind : (s.kind e.target).isDocContent = false
  written : style.Uniform e.change.written.toList

section

variable {s : Store} {style : LineEnding} {settings : Settings} {newline : String} {i : Nat}

namespace Edit

/-- A text put in front of a token stays out of documentation comments if the token does. -/
theorem StaysOut.insert {text : String} (hkind : (s.kind i).isDocContent = false)
    (htext : style.Uniform text.toList) : (Edit.insert i text).StaysOut style s := ⟨hkind, htext⟩

/-- A text put behind a token stays out of documentation comments if the token does. -/
theorem StaysOut.append {text : String} (hkind : (s.kind i).isDocContent = false)
    (htext : style.Uniform text.toList) : (Edit.append i text).StaysOut style s := ⟨hkind, htext⟩

/-- A replacement stays out of documentation comments if the token does. -/
theorem StaysOut.replace {text : String} (hkind : (s.kind i).isDocContent = false)
    (htext : style.Uniform text.toList) : (Edit.replace i text).StaysOut style s := ⟨hkind, htext⟩

/-- Clearing a token outside of documentation comments writes nothing. -/
theorem StaysOut.clear (hkind : (s.kind i).isDocContent = false) :
    (Edit.replace i "").StaysOut style s :=
  ⟨hkind, .nil⟩

/-- Deleting a token outside of documentation comments writes nothing. -/
theorem StaysOut.delete (hkind : (s.kind i).isDocContent = false) :
    (Edit.delete i).StaysOut style s :=
  ⟨hkind, .nil⟩

end Edit

namespace Finding

variable {f : Finding}

/-- A finding without a fix mixes no line breaks. -/
theorem mends_of_none (h : f.fix = none) : f.Mends style s := by
  intro c hc
  rw [h] at hc
  cases hc

/-- A fix mixes no line breaks if none of its edits does among the others. -/
theorem mends_of_some {c : Changeset} (h : f.fix = some c)
    (hc : ∀ e ∈ c, e.Mends style s c.targets) : f.Mends style s := by
  intro c' hc'
  rw [h] at hc'
  cases hc'
  exact hc

/-- A fix that stays out of documentation comments mixes no line breaks. -/
theorem mends_of_staysOut (hs : Breaking s) (huniform : style.Uniform s.source.toList)
    {c : Changeset} (h : f.fix = some c) (hc : ∀ e ∈ c, e.StaysOut style s) : f.Mends style s :=
  mends_of_some h fun e he => Edit.mends_of_kind hs huniform (hc e he).kind (hc e he).written

/-- A fix of one edit that stays out of documentation comments mixes no line breaks. -/
theorem mends_singleton (hs : Breaking s) (huniform : style.Uniform s.source.toList) {e : Edit}
    (h : f.fix = some [e]) (he : e.StaysOut style s) : f.Mends style s :=
  mends_of_staysOut hs huniform h (by simpa using he)

end Finding

open Finding

variable (hs : Breaking s) (huniform : style.Uniform s.source.toList)

include hs

namespace Store

omit hs in
/-- A token of a kind, of which it is known that it does not stand in a documentation comment. -/
theorem stays_out {k : Kind} (hkind : s.kind i = k) (hk : k.isDocContent = false) :
    (s.kind i).isDocContent = false := by
  rw [hkind, hk]

/-- In front of what is no part of a documentation comment there is none that is open. -/
theorem isDocContent_of_next (hsize : i + 1 < s.size) (hnext : (s.kind (i + 1)).isDocPart = false) :
    (s.kind i).isDocContent = false := by
  rw [hs.follows i hsize] at hnext
  by_contra hcontent
  rw [Bool.not_eq_false] at hcontent
  rw [Kind.leavesDocOpen_of_isDocContent hcontent] at hnext
  cases hnext

/-- In front of a token that is no part of a documentation comment stands none of the contents of
one. -/
theorem isDocContent_before {k : Kind} (hkind : s.kind i = k) (hk : k.isDocPart = false)
    (hknown : k ≠ .unknown) : (s.kind (i - 1)).isDocContent = false := by
  cases i with
  | zero => exact stays_out hkind (Kind.isDocContent_of_isDocPart hk)
  | succ i => exact isDocContent_of_next hs (lt_size_of_kind hkind hknown) (hkind ▸ hk)

/-- In front of a parenthesis, also over whitespace, stands no content of a documentation
comment. -/
theorem isDocContent_before_blank {j : Nat} (hij : i < j) (hj : s.kind j = .closeParen)
    (hblank : ∀ k, i < k → k < j → s.kind k = .whitespace) : (s.kind i).isDocContent = false := by
  have hsize : j < s.size := lt_size_of_kind hj (by decide)
  refine isDocContent_of_next hs (by omega) ?_
  rcases Nat.lt_or_eq_of_le hij with hlt | heq
  · rw [hblank (i + 1) (Nat.lt_succ_self i) hlt]
    rfl
  · rw [show i + 1 = j from heq, hj]
    rfl

variable (huniform : style.Uniform s.source.toList)

include huniform

/-- What stands between two tokens, outside of documentation comments, has the line breaks of the
text. -/
theorem uniform_textBetween {j : Nat} (hsize : j < s.size) (hkind : s.kind i ≠ .docWhitespace) :
    style.Uniform (s.textBetween i j).toList := by
  rw [toList_textBetween s hsize]
  rcases Nat.lt_or_ge j i with hlt | hle
  · rw [show j + 1 - i = 0 by omega]
    exact .nil
  have hsource := huniform
  rw [toList_source hs.exact.sound, flatMap_range_split _ (show i ≤ j + 1 by omega) hsize,
    ← List.append_assoc] at hsource
  have hstretch := hsource.of_append_left
  rw [show j + 1 - i = (j - i) + 1 by omega, List.range'_succ, List.flatMap_cons] at hstretch ⊢
  refine hstretch.of_infix (uniform_of_kind hs huniform hkind) fun hnil => ?_
  exact hs.exact.text_ne i (by omega) (String.toList_eq_nil_iff.mp hnil)

end Store

include huniform

namespace FileHeader

/-- A statement that goes up to the tag is taken away where it stood, with all that stands in it. -/
theorem moveDeclare_mends (htag : s.kind 0 = .openTag) {declare_ last : Nat}
    (hkind : s.kind declare_ = .kwDeclare) (hend : s.kind last = .semicolon) {f : Finding}
    (hfix : f.fix = some
      (.replace 0 ("<?php " ++ s.textBetween declare_ last) :: Changeset.deleteRange declare_ last))
      : f.Mends style s := by
  have hsize : last < s.size := Store.lt_size_of_kind hend (by decide)
  have hlow : s.kind declare_ ≠ .docWhitespace := by simp [hkind]
  refine mends_of_some hfix fun e he => ?_
  rcases List.mem_cons.mp he with rfl | he
  · refine Edit.mends_of_kind hs huniform (Store.stays_out htag rfl) ?_
    rw [Edit.replace, Change.written, String.toList_append]
    exact .append (.of_plain (by decide) (by decide))
      (Store.uniform_textBetween hs huniform hsize hlow)
  obtain ⟨k, hk, rfl⟩ := List.mem_map.mp he
  rw [List.mem_range'_1] at hk
  by_cases hfirst : k = declare_
  · exact Edit.mends_of_kind hs huniform (Store.stays_out (hfirst ▸ hkind) rfl) .nil
  by_cases hfinal : k = last
  · exact Edit.mends_of_kind hs huniform (Store.stays_out (hfinal ▸ hend) rfl) .nil
  have hbetween : k ∈ s.between declare_ last := Store.mem_between.mpr ⟨by omega, by omega⟩
  refine Edit.mends_of_mem_between hs hlow hsize (fun hpart => ?_) (fun p hp => ?_) hbetween .nil
  · simp [hend, Kind.isDocPart] at hpart
  · obtain ⟨hafter, hbefore⟩ := Store.mem_between.mp hp
    have hmem : .delete p ∈ Changeset.deleteRange declare_ last :=
      List.mem_map_of_mem (List.mem_range'_1.mpr (by omega))
    exact List.mem_map_of_mem (f := Edit.target) (List.mem_cons_of_mem _ hmem)

omit huniform in
/-- What stands between the tag and a statement may go, with all comments in it. -/
theorem deleteBetween_mends (htag : s.kind 0 = .openTag) {declare_ : Nat}
    (hkind : s.kind declare_ = .kwDeclare) {f : Finding}
    (hfix : f.fix = some ((s.between 0 declare_).map .delete)) : f.Mends style s := by
  refine mends_of_some hfix fun e he => ?_
  have hmem := List.mem_map_of_mem (f := Edit.target) he
  obtain ⟨k, _, rfl⟩ := List.mem_map.mp he
  refine Edit.mends_of_mem_between hs (show s.kind 0 ≠ .docWhitespace by simp [htag])
    (Store.lt_size_of_kind hkind (by decide)) (fun hpart => ?_) (fun p hp => ?_) ?_ .nil
  · simp [hkind, Kind.isDocPart] at hpart
  · rwa [Changeset.targets_map_delete]
  · rwa [← Changeset.targets, Changeset.targets_map_delete] at hmem

/-- Moving a `declare` to the open tag mixes no line breaks, nor does deleting what stands between
the two. -/
theorem declareFindings_mend (htag : s.kind 0 = .openTag) :
    ∀ f ∈ declareFindings s 0, f.Mends style s := by
  intro f hf
  unfold declareFindings at hf
  split at hf
  · cases hf
  rename_i declare_ hdeclare
  have hkind : s.kind declare_ = .kwDeclare := beq_iff_eq.mp (Store.scanUp_eq_some hdeclare).2.2.1
  split at hf
  · obtain rfl := List.mem_singleton.mp hf
    intro c hc
    obtain ⟨last, hlast, rfl⟩ := Option.map_eq_some_iff.mp hc
    have hend : s.kind last = .semicolon := beq_iff_eq.mp (Store.scanUp_eq_some hlast).2.2.1
    exact moveDeclare_mends hs huniform htag hkind hend hc _ hc
  · obtain ⟨_, rfl⟩ := mem_when_iff.mp hf
    exact deleteBetween_mends hs htag hkind rfl

/-- The blank line in front of a namespace is written with the line break of the file. -/
theorem emptyLineFindings_mend (hnewline : style.Uniform newline.toList)
    (hkind : s.kind i = .kwNamespace) : ∀ f ∈ emptyLineFindings s newline i, f.Mends style s := by
  intro f hf
  obtain ⟨_, rfl⟩ := mem_unless_iff.mp hf
  refine mends_of_staysOut hs huniform rfl fun e he => ?_
  split at he
  · obtain ⟨p, hp, rfl⟩ := List.mem_map.mp he
    have hblank := (List.mem_filter.mp (List.mem_of_mem_take hp)).2
    rw [Bool.and_eq_true, beq_iff_eq] at hblank
    exact .delete (Store.stays_out hblank.1 rfl)
  · obtain rfl := List.mem_singleton.mp he
    refine .insert (Store.stays_out hkind rfl) (.join fun t ht => ?_)
    rw [List.eq_of_mem_replicate ht]
    exact hnewline

/-- The name of a file is reported without a fix. -/
theorem nameFindings_mend : ∀ f ∈ nameFindings s i, f.Mends style s := by
  unfold nameFindings
  dsimp only
  intro f hf
  obtain ⟨_, rfl⟩ := mem_unless_iff.mp hf
  split
  · exact mends_of_none rfl
  refine mends_of_staysOut hs huniform rfl fun e he => ?_
  obtain ⟨p, hp, rfl⟩ := List.mem_map.mp he
  have hpart := List.mem_of_mem_filter (List.mem_of_mem_filter hp)
  have hkind : s.kind p = .identifier := beq_iff_eq.mp (List.mem_filter.mp hpart).2
  exact .replace (Store.stays_out hkind rfl)
    (Store.uniform_of_kind hs huniform (by simp [hkind])).capitalize

/-- The fixes at the head of a file mix no line breaks. -/
theorem findings_mend (hnewline : style.Uniform ((File.ofStore s).newline settings).toList)
    (htag : s.kind i = .openTag) : ∀ f ∈ findings settings (.ofStore s) i, f.Mends style s := by
  unfold findings
  dsimp only [File.ofStore_store]
  intro f hf
  obtain ⟨hzero, hf⟩ := List.mem_ite_nil_left.mp hf
  obtain rfl := Decidable.of_not_not hzero
  rcases List.mem_append.mp hf with hf | hf
  · exact declareFindings_mend hs huniform htag f hf
  · split at hf
    · cases hf
    rename_i namespace_ hnamespace
    have hkind : s.kind namespace_ = .kwNamespace :=
      beq_iff_eq.mp (Store.scanUp_eq_some hnamespace).2.2.1
    rcases List.mem_append.mp hf with hf | hf
    · exact emptyLineFindings_mend hs huniform hnewline hkind f hf
    · exact nameFindings_mend hs huniform f hf

end FileHeader

/-- The fix of an array literal writes no line break. -/
theorem ArrayLiteral.findings_mend (hkind : s.kind i = .kwArray) :
    ∀ f ∈ findings (.ofStore s) i, f.Mends style s := by
  simp only [findings, List.mem_singleton]
  rintro _ rfl c hc
  obtain ⟨g, hg, rfl⟩ := Option.map_eq_some_iff.mp hc
  obtain ⟨_, hopen, hclose⟩ := hs.exact.sound.paren i g hg
  refine mends_of_staysOut hs huniform hc (fun e he => ?_) _ hc
  simp only [List.mem_cons, List.not_mem_nil, or_false] at he
  rcases he with rfl | rfl | rfl
  · exact .clear (Store.stays_out hkind rfl)
  · exact .replace (Store.stays_out hopen rfl) (.of_plain (by decide) (by decide))
  · exact .replace (Store.stays_out hclose rfl) (.of_plain (by decide) (by decide))

/-- The line break behind a brace is that of the file. -/
theorem BracePlacement.findings_mend
    (hnewline : style.Uniform ((File.ofStore s).newline settings).toList) :
    ∀ f ∈ braceFindings settings (.ofStore s) i ++ commentFindings s i, f.Mends style s := by
  intro f hf
  rcases List.mem_append.mp hf with hf | hf
  · obtain ⟨close, hclose, rfl⟩ := List.mem_map.mp hf
    have hfound := (Option.filter_eq_some_iff.mp (Option.mem_toList.mp hclose)).1
    obtain ⟨_, _, hfound⟩ := Option.bind_eq_some_iff.mp hfound
    have hkind : s.kind close = .closeCurly := beq_iff_eq.mp (Store.scanDown_eq_some hfound).2.2.1
    unfold breakBehind
    dsimp only [File.ofStore_store]
    generalize hindent :
      (if s.lineStart close ≠ close ∧ s.kind (s.lineStart close) = .whitespace then
        s.text (s.lineStart close) else "") = indent
    have hbreak : style.Uniform ((File.ofStore s).newline settings ++ indent).toList := by
      rw [String.toList_append, ← hindent]
      refine hnewline.append ?_
      split
      · rename_i hblank
        exact Store.uniform_of_kind hs huniform (by simp [hblank.2])
      · exact .nil
    split
    · split
      · rename_i hblank
        exact mends_singleton hs huniform rfl (.replace (Store.stays_out hblank.1 rfl) hbreak)
      · exact mends_singleton hs huniform rfl (.append (Store.stays_out hkind rfl) hbreak)
    · exact mends_singleton hs huniform rfl (.append (Store.stays_out hkind rfl) hbreak)
  · unfold commentFindings at hf
    split at hf
    · obtain rfl := List.mem_singleton.mp hf
      exact mends_of_none rfl
    · cases hf

namespace TryCatch

/-- The blank behind a keyword is no line break. -/
theorem keywordBlank_mend (hkind : (s.kind i).isDocContent = false) :
    ∀ f ∈ keywordBlank s i, f.Mends style s := by
  unfold keywordBlank
  dsimp only
  intro f hf
  obtain ⟨_, rfl⟩ := mem_unless_iff.mp hf
  split
  · exact mends_singleton hs huniform rfl (.append hkind .space)
  · rename_i p hp
    have hblank : s.kind p = .whitespace := beq_iff_eq.mp (Option.filter_eq_some_iff.mp hp).2
    exact mends_singleton hs huniform rfl (.replace (Store.stays_out hblank rfl) .space)

/-- A brace is joined to a parenthesis over tokens that no comment reaches out of. -/
theorem joinBrace_mends {closer opener : Nat} (hclose : s.kind closer = .closeParen)
    (hopen : s.kind opener = .openCurly) (blank : Bool) {f : Finding}
    (hfix : f.fix = some (joinBrace s closer opener blank)) : f.Mends style s := by
  have hcloser : (Edit.append closer " ").StaysOut style s :=
    .append (Store.stays_out hclose rfl) .space
  have hmove : ∀ e ∈ [Edit.append closer (" " ++ s.text opener), .replace opener ""],
      e.StaysOut style s := by
    refine List.forall_mem_cons.mpr ⟨.append (Store.stays_out hclose rfl) ?_, by
      simpa using .clear (Store.stays_out hopen rfl)⟩
    rw [String.toList_append]
    exact LineEnding.Uniform.space.append (Store.uniform_of_kind hs huniform (by simp [hopen]))
  unfold joinBrace at hfix
  dsimp only at hfix
  split at hfix
  · exact mends_singleton hs huniform hfix hcloser
  split at hfix
  · refine mends_of_some hfix fun e he => ?_
    rcases List.mem_cons.mp he with rfl | he
    · exact Edit.mends_of_kind hs huniform hcloser.kind hcloser.written
    · obtain ⟨k, hk, rfl⟩ := List.mem_map.mp he
      refine Edit.mends_of_mem_between hs (by simp [hclose])
        (Store.lt_size_of_kind hopen (by decide)) (fun hpart => ?_) (fun p hp => ?_) hk .nil
      · simp [hopen, Kind.isDocPart] at hpart
      · exact List.mem_cons_of_mem _ (by simpa [clear] using hp)
  split at hfix
  · exact mends_of_staysOut hs huniform hfix hmove
  split at hfix
  · rename_i next hnext
    split at hfix
    · exact mends_of_staysOut hs huniform hfix hmove
    · obtain ⟨_, _, _, hblank⟩ := Store.nextVisible?_eq_some hnext
      refine mends_of_staysOut hs huniform hfix fun e he => ?_
      rcases List.mem_append.mp he with he | he
      · exact hmove e he
      · obtain ⟨p, hp, rfl⟩ := List.mem_map.mp he
        obtain ⟨hlow, hhigh⟩ := Store.mem_between.mp hp
        exact .clear (Store.stays_out (hblank p hlow hhigh) rfl)
  · exact mends_of_staysOut hs huniform hfix hmove

/-- The blank in front of a brace is written over a row of tokens between the parenthesis and the
brace. -/
theorem parenBlank_mend : ∀ f ∈ parenBlank settings (.ofStore s) i, f.Mends style s := by
  intro f hf
  unfold parenBlank at hf
  dsimp only [File.ofStore_store] at hf
  split at hf
  · rename_i parens scope hparens hscope
    have hclose := (hs.exact.sound.paren i parens hparens).2.2
    have hopen := (hs.exact.sound.scope i scope hscope).2.1
    obtain ⟨_, rfl⟩ := mem_unless_iff.mp hf
    exact joinBrace_mends hs huniform hclose hopen _ rfl
  · cases hf

omit huniform in
/-- Behind code, blank tokens are no part of a documentation comment, for its opening tag is not
blank. -/
theorem isDocPart_of_isBlank {opener j : Nat} (hopen : s.kind opener = .openCurly) (hj : j < s.size)
    (hblank : ∀ k, opener < k → k ≤ j → Text.isBlank (s.text k) = true) (hlt : opener < j) :
    (s.kind j).isDocPart = false := by
  induction j, hlt using Nat.le_induction with
  | base =>
    rw [hs.follows opener hj, hopen]
    rfl
  | succ j hle ih =>
    have hprev := ih (by omega) fun k hlow hhigh => hblank k hlow (by omega)
    rw [hs.follows j hj]
    by_contra hleaves
    rw [Bool.not_eq_false] at hleaves
    have hkind : s.kind j = .docOpen := by
      revert hleaves hprev
      cases s.kind j <;> simp [Kind.leavesDocOpen, Kind.isDocPart]
    have htext := (hs.exact.spells j).docOpen hkind
    have hnone := hblank j hle (Nat.le_succ j)
    rw [Text.isBlank, htext] at hnone
    revert hnone
    decide

/-- The line break behind an opening brace is that of the file. -/
theorem braceBreak_mend (hnewline : style.Uniform ((File.ofStore s).newline settings).toList) :
    ∀ f ∈ braceBreak settings (.ofStore s) i, f.Mends style s := by
  intro f hf
  unfold braceBreak at hf
  dsimp only [File.ofStore_store] at hf
  split at hf
  · cases hf
  rename_i scope hscope
  have hopen := (hs.exact.sound.scope i scope hscope).2.1
  split at hf
  · cases hf
  rename_i next hnext
  obtain ⟨_, hlt, _⟩ := Store.scanUp_eq_some hnext
  have hsize : next < s.size := by
    simp only [Option.getD_none] at hlt
    omega
  obtain ⟨_, rfl⟩ := mem_unless_iff.mp hf
  refine mends_of_staysOut hs huniform rfl fun e he => ?_
  rcases List.mem_append.mp he with he | he
  · obtain ⟨p, hp, rfl⟩ := List.mem_map.mp he
    obtain ⟨hlow, hhigh⟩ := Store.mem_between.mp ((List.takeWhile_sublist _).mem hp)
    refine .clear
      (Kind.isDocContent_of_isDocPart (isDocPart_of_isBlank hs hopen (by omega) ?_ hlow))
    exact (Store.mem_takeWhile_between_iff.mp hp).2
  · obtain rfl := List.mem_singleton.mp he
    exact .append (Store.stays_out hopen rfl) hnewline

/-- The blank behind a closing brace is no line break. -/
theorem closeBraceBlank_mend : ∀ f ∈ closeBraceBlank s i, f.Mends style s := by
  intro f hf
  unfold closeBraceBlank at hf
  dsimp only at hf
  split at hf
  · cases hf
  rename_i closer after hbrace
  have hkind := kind_of_closeBrace hbrace
  obtain ⟨_, rfl⟩ := mem_unless_iff.mp hf
  by_cases hcomment : (s.findNext (fun t => t.kind.isComment) after (some i)).isSome = true
  · exact mends_of_none (if_pos hcomment)
  refine mends_singleton hs huniform (if_neg hcomment)
    (iteInduction (motive := (Edit.StaysOut style s ·))
    (fun _ => .append (Store.stays_out hkind rfl) .space) fun hfound => ?_)
  have hblank : s.kind after = .whitespace := by
    by_contra hother
    exact hfound (if_pos hother)
  exact .replace (Store.stays_out hblank rfl) .space

/-- The fixes of the rule for the parts of a `try` mix no line breaks. -/
theorem findings_mend (hnewline : style.Uniform ((File.ofStore s).newline settings).toList)
    (hkind : (s.kind i).isDocContent = false) :
    ∀ f ∈ findings settings (.ofStore s) i, f.Mends style s := by
  unfold findings
  dsimp only [File.ofStore_store]
  intro f hf
  obtain ⟨_, hf⟩ := List.mem_ite_nil_left.mp hf
  simp only [List.mem_append] at hf
  rcases hf with ((hf | hf) | hf) | hf
  · exact keywordBlank_mend hs huniform hkind f hf
  · exact parenBlank_mend hs huniform f hf
  · exact braceBreak_mend hs huniform hnewline f hf
  · exact closeBraceBlank_mend hs huniform f hf

end TryCatch

omit hs huniform in
/-- The pattern of a control structure is left to the reader. -/
theorem Continuation.fix_eq_none :
    ∀ f ∈ keywordFindings s i ++ braceFindings s i, f.fix = none := by
  intro f hf
  rcases List.mem_append.mp hf with hf | hf
  · obtain ⟨_, _, rfl⟩ := List.mem_map.mp hf
    rfl
  · unfold braceFindings at hf
    split at hf
    · cases hf
    · obtain ⟨_, _, rfl⟩ := List.mem_map.mp hf
      rfl

end

end PhpStyle
