import PhpStyle.Proofs.Standard.Effects

/-!
# Fixes of documentation comments

Most fixes of documentation comments clear parts that say nothing, or add text. The one that brings
a comment with a single tag to one line leaves the text as it is only if the comment is on one line
already with the tag as its second word, and then nothing is found.
-/

namespace PhpStyle

open Php (Exact)
open Finding

section

variable {settings : Settings} {s : Store} {newline : String} {i : Nat}

namespace DocLayout

/-- Clearing tokens of a comment, if there are any to clear, changes the text. -/
theorem clearing_changes (hs : Exact s) {j : Nat} (hj : j ≤ s.size) {tokens : List Nat}
    (hsub : tokens.Sublist (s.between i j)) {f : Finding} (hfix : f.fix = clearing tokens) :
    f.Changes s := by
  unfold clearing at hfix
  split at hfix
  · exact changes_of_none hfix
  · rename_i hsome
    have hnodup := Store.nodup_of_sublist_between hsub
    refine changes_of_clear hs (editsOnce_of_some hfix (by simpa using hnodup))
      (fun _ => ⟨rfl, rfl⟩) hfix (by simpa using hsome) fun p hp => ?_
    exact Nat.lt_of_lt_of_le (Store.mem_between.mp (hsub.mem hp)).2 hj

/-- The next part of a comment is a token of the store. -/
theorem lt_size_of_nextPart? {stop : Option Nat} {j : Nat} (h : nextPart? s i stop = some j) :
    j < s.size := by
  obtain ⟨first, _, hfound⟩ := Option.bind_eq_some_iff.mp h
  obtain ⟨hle, hlt, _⟩ := Store.scanUp_eq_some hfound
  omega

/-- What follows an opening tag gets a line break and a star in front of it. -/
theorem contentBehindOpen_changes (hs : Exact s) {tag short : Nat} (htag : tag < s.size)
    (hlt : tag < short) (hshort : short < s.size) :
    ∀ f ∈ contentBehindOpen s newline tag short, f.Changes s := by
  intro f hf
  have honce := contentBehindOpen_editsOnce hlt f hf
  obtain ⟨_, hf⟩ := List.mem_ite_nil_right.mp hf
  obtain rfl := List.mem_singleton.mp hf
  refine changes_of_length hs honce rfl (by simp [htag, hshort]) ?_
  simp
  omega

/-- A gap around the descriptions is cleared only where it is there. -/
theorem descriptions_changes (hs : Exact s) {tag short close : Nat} (hshort : short < s.size) :
    ∀ f ∈ descriptions s tag short close, f.Changes s := by
  unfold descriptions
  dsimp only
  intro f hf
  split at hf
  · obtain rfl := List.mem_singleton.mp hf
    exact changes_of_none rfl
  rcases List.mem_append.mp hf with hf | hf
  · rcases List.mem_append.mp hf with hf | hf
    · obtain ⟨_, hf⟩ := List.mem_ite_nil_left.mp hf
      obtain rfl := List.mem_singleton.mp hf
      exact clearing_changes hs (Nat.le_of_lt hshort) (Store.onLinesBetween_sublist _) rfl
    · obtain ⟨_, hf⟩ := List.mem_ite_nil_right.mp hf
      obtain rfl := List.mem_singleton.mp hf
      exact changes_of_none rfl
  · obtain ⟨long, hlong, hf⟩ := List.mem_flatMap.mp hf
    have hlong := (Option.filter_eq_some_iff.mp (Option.mem_toList.mp hlong)).1
    rcases List.mem_append.mp hf with hf | hf
    · obtain ⟨_, hf⟩ := List.mem_ite_nil_left.mp hf
      obtain rfl := List.mem_singleton.mp hf
      exact clearing_changes hs (Nat.le_of_lt (lt_size_of_nextPart? hlong))
        (Store.onLinesBetween_sublist _) rfl
    · obtain ⟨_, hf⟩ := List.mem_ite_nil_right.mp hf
      obtain rfl := List.mem_singleton.mp hf
      exact changes_of_none rfl

/-- Every fix of the rule for the layout of comments changes the text. -/
theorem findings_changes (hs : Exact s) (hi : i < s.size) :
    ∀ f ∈ findings settings (.ofStore s) i, f.Changes s := by
  unfold findings
  dsimp only [File.ofStore_store]
  intro f hf
  split at hf
  · cases hf
  rename_i close hclose
  have hsize := hs.comment_lt i close hclose
  split at hf
  · obtain rfl := List.mem_singleton.mp hf
    exact changes_of_none rfl
  rename_i short hshort
  have hssize := lt_size_of_nextPart? hshort
  simp only [List.mem_append] at hf
  rcases hf with ((hf | hf) | hf) | hf
  · exact contentBehindOpen_changes hs hi (lt_of_nextPart? hshort) hssize f hf
  · obtain ⟨_, hf⟩ := List.mem_ite_nil_right.mp hf
    obtain rfl := List.mem_singleton.mp hf
    exact changes_of_insert hs.sound rfl hsize (File.newline_ne settings s)
  · obtain ⟨_, hf⟩ := List.mem_ite_nil_right.mp hf
    obtain rfl := List.mem_singleton.mp hf
    exact clearing_changes hs (Nat.le_of_lt hsize) (List.takeWhile_sublist _) rfl
  · exact descriptions_changes hs hssize f hf

end DocLayout

namespace DocComment

namespace Summary

/-- Text that has been seen stays seen. -/
theorem hasContent_foldl (tokens : List Nat) {m : Summary} (h : m.hasContent = true) :
    (tokens.foldl (fun m p => m.add (s.token p)) m).hasContent = true := by
  induction tokens generalizing m with
  | nil => exact h
  | cons p rest ih =>
    refine ih ?_
    change (m.add (s.token p)).hasContent = true
    unfold add
    split
    · split
      · exact h
      · rfl
    · exact h
    · exact h

/-- Tags that have been seen stay where they are. -/
theorem tags_foldl (tokens : List Nat) (m : Summary) :
    ∃ more, (tokens.foldl (fun m p => m.add (s.token p)) m).tags = more ++ m.tags := by
  induction tokens generalizing m with
  | nil => exact ⟨[], rfl⟩
  | cons p rest ih =>
    obtain ⟨more, hmore⟩ := ih (m.add (s.token p))
    obtain ⟨new, hnew⟩ : ∃ new, (m.add (s.token p)).tags = new ++ m.tags := by
      unfold add
      split
      · refine ⟨[], ?_⟩
        split
        · rfl
        · rfl
      · exact ⟨[_], rfl⟩
      · exact ⟨[], rfl⟩
    exact ⟨more ++ new, by rw [List.foldl_cons, hmore, hnew, List.append_assoc]⟩

/-- If all that a row of tokens says is one tag, then nothing before this tag says anything. -/
theorem exists_tag {name : String} (tokens : List Nat)
    (hcontent : (tokens.foldl (fun (m : Summary) p => m.add (s.token p)) {}).hasContent = false)
    (htags : (tokens.foldl (fun (m : Summary) p => m.add (s.token p)) {}).tags = [name]) :
    ∃ before p behind, tokens = before ++ p :: behind ∧ s.kind p = .docTag ∧ s.text p = name ∧
      ∀ q ∈ before, s.kind q ≠ .docTag ∧ s.kind q ≠ .docText := by
  induction tokens with
  | nil => cases htags
  | cons p rest ih =>
    rw [List.foldl_cons] at hcontent htags
    by_cases htag : s.kind p = .docTag
    · have hadd : (({} : Summary).add (s.token p)).tags = [s.text p] := by
        rw [add, show (s.token p).kind = .docTag from htag]
        rfl
      obtain ⟨more, hmore⟩ := tags_foldl (s := s) rest (({} : Summary).add (s.token p))
      rw [htags, hadd] at hmore
      have hsplit : [] ++ [name] = more ++ [s.text p] := hmore
      obtain ⟨_, hname⟩ := List.append_inj' hsplit rfl
      exact ⟨[], p, rest, rfl, htag, (List.head_eq_of_cons_eq hname).symm, by simp⟩
    by_cases htext : s.kind p = .docText
    · have hadd : (({} : Summary).add (s.token p)).hasContent = true := by
        rw [add, show (s.token p).kind = .docText from htext]
        rfl
      rw [hasContent_foldl rest hadd] at hcontent
      cases hcontent
    · have hadd : ({} : Summary).add (s.token p) = {} := by
        unfold add
        split
        · exact absurd ‹_› htext
        · exact absurd ‹_› htag
        · rfl
      rw [hadd] at hcontent htags
      obtain ⟨before, q, behind, rfl, hq, hname, hbefore⟩ := ih hcontent htags
      exact ⟨p :: before, q, behind, rfl, hq, hname,
        List.forall_mem_cons.mpr ⟨⟨htag, htext⟩, hbefore⟩⟩

/-- What is said of a type alone is its one tag. -/
theorem isLoneType_spec {m : Summary} (h : m.isLoneType = true) :
    m.hasContent = false ∧ ∃ name, (name = "@var" ∨ name = "@type") ∧ m.tags = [name] := by
  simp only [isLoneType, Bool.and_eq_true, Bool.not_eq_true', Bool.or_eq_true, beq_iff_eq] at h
  obtain ⟨hcontent, htags | htags⟩ := h
  · exact ⟨hcontent, _, .inl rfl, htags⟩
  · exact ⟨hcontent, _, .inr rfl, htags⟩

end Summary

/-- The second word of a text stands between its first two blanks. -/
theorem secondWord?_of_toList {text : String} {first word rest : List Char}
    (htext : text.toList = first ++ ' ' :: (word ++ ' ' :: rest)) (hfirst : ' ' ∉ first)
    (hword : ' ' ∉ word) : secondWord? text = some (String.ofList word) := by
  have hkept {cs : List Char} (h : ' ' ∉ cs) : ∀ c ∈ cs, (c != ' ') = true := fun c hc =>
    bne_iff_ne.mpr (ne_of_mem_of_not_mem hc h)
  rw [secondWord?, htext, List.dropWhile_append_of_pos (hkept hfirst)]
  simp [List.takeWhile_append_of_pos (hkept hword)]

/-- Putting a comment on one line edits none but its tokens, the closing tag apart. -/
theorem target_of_mem_toOneLine {tag close : Nat} (hlt : tag < close) :
    ∀ e ∈ toOneLine s tag close, tag ≤ e.target ∧ e.target < close := by
  intro e he
  rcases List.mem_cons.mp he with rfl | he
  · exact ⟨Nat.le_refl _, hlt⟩
  · obtain ⟨p, hp, rfl⟩ := List.mem_map.mp he
    have := Store.mem_between.mp hp
    split
    · simp only [Edit.target_append]
      omega
    · simp only [Edit.target_replace]
      omega

/-- What stands in a comment that one line would leave as it is. -/
theorem content_of_toOneLine (hs : Exact s) {tag close : Nat} (hlt : tag < close)
    (hsize : close < s.size) (hnodup : (toOneLine s tag close).targets.Nodup)
    (h : s.rewrite (toOneLine s tag close) = s.source) :
    ((s.between tag close).flatMap fun p => (s.text p).toList) =
      ' ' :: (s.between tag close).flatMap fun p =>
        if s.kind p = .docTag ∨ s.kind p = .docText then (s.text p).toList ++ [' '] else [] := by
  have hsegment :=
    Store.segment_eq hs.sound h (Nat.le_of_lt hlt) (Nat.le_of_lt hsize)
      (target_of_mem_toOneLine hlt)
  have hcount : close - tag = (close - (tag + 1)) + 1 := by omega
  have hopen : s.rewritten (toOneLine s tag close) tag = s.text tag ++ " " :=
    Store.rewritten_of_mem hnodup List.mem_cons_self
  have hparts :
      ((s.between tag close).flatMap fun p => (s.rewritten (toOneLine s tag close) p).toList) =
      (s.between tag close).flatMap fun p =>
        if s.kind p = .docTag ∨ s.kind p = .docText then (s.text p).toList ++ [' '] else [] := by
    refine List.flatMap_congr fun p hp => ?_
    have hresult := Store.rewritten_of_mem (s := s) hnodup
      (List.mem_cons_of_mem _ (List.mem_map_of_mem hp))
    split at hresult
    · rename_i hpart
      rw [if_pos hpart]
      exact (congrArg String.toList hresult).trans (String.toList_append ..)
    · rename_i hpart
      rw [if_neg hpart]
      exact congrArg String.toList hresult
  rw [hcount, List.range'_succ, List.flatMap_cons, List.flatMap_cons, hopen, String.toList_append,
    List.append_assoc] at hsegment
  rw [← hparts]
  exact (List.append_cancel_left hsegment).symm

/-- A comment that one line would leave as it is stands on one line: no part that says something
breaks it, and nothing else is left. -/
theorem line_eq_of_toOneLine (hs : Exact s) {tag close : Nat} (htag : s.kind tag = .docOpen)
    (hlt : tag < close) (hsize : close < s.size) (hnodup : (toOneLine s tag close).targets.Nodup)
    (h : s.rewrite (toOneLine s tag close) = s.source) : s.line close = s.line tag := by
  have hbreaks : ((s.between tag close).map s.breaks).sum =
      ((s.between tag close).flatMap fun q => (s.text q).toList).count '\n' :=
    List.count_flatMap.symm
  have hnone : ((s.between tag close).flatMap fun q => (s.text q).toList).count '\n' = 0 := by
    refine List.count_eq_zero.mpr fun hmem => ?_
    rw [content_of_toOneLine hs hlt hsize hnodup h] at hmem
    rcases List.mem_cons.mp hmem with hspace | hmem
    · cases hspace
    obtain ⟨q, _, hq⟩ := List.mem_flatMap.mp hmem
    split at hq
    · rename_i hpart
      rcases List.mem_append.mp hq with hq | hq
      · exact (hs.spells q).docLine hpart hq
      · cases List.mem_singleton.mp hq
    · cases hq
  have htagBreaks : s.breaks tag = 0 := by
    rw [Store.breaks, (hs.spells tag).docOpen htag]
    rfl
  have := hs.sound.line_eq_add_between hlt hsize
  omega

/-- A comment that one line would leave as it is stands on one line already, with its tag as the
second word. -/
theorem isAnnotation_of_toOneLine (hs : Exact s) {tag close : Nat} (htag : s.kind tag = .docOpen)
    (hsize : close < s.size) (hlone : (Summary.ofComment s tag close).isLoneType = true)
    (hnodup : (toOneLine s tag close).targets.Nodup)
    (h : s.rewrite (toOneLine s tag close) = s.source) : isAnnotation s tag close = true := by
  obtain ⟨hcontent, name, hname, htags⟩ := Summary.isLoneType_spec hlone
  obtain ⟨before, p, behind, hbetween, hp, htext, hbefore⟩ := Summary.exists_tag _ hcontent htags
  have hlt : tag < close := by
    have hmem : p ∈ s.between tag close := hbetween ▸ List.mem_append_right _ List.mem_cons_self
    have := Store.mem_between.mp hmem
    omega
  have hopen := (hs.spells tag).docOpen htag
  have hsilent : (before.flatMap fun q =>
      if s.kind q = .docTag ∨ s.kind q = .docText then (s.text q).toList ++ [' '] else []) = [] :=
    List.flatMap_eq_nil_iff.mpr fun q hq => if_neg (not_or.mpr (hbefore q hq))
  obtain ⟨rest, hword⟩ : ∃ rest, (s.textBetween tag close).toList =
      (s.text tag).toList ++ ' ' :: (name.toList ++ ' ' :: rest) := by
    rw [Store.toList_textBetween_ends s hlt hsize, content_of_toOneLine hs hlt hsize hnodup h,
      hbetween, List.flatMap_append, hsilent, List.flatMap_cons, if_pos (.inl hp), htext]
    exact ⟨_, by simp only [List.nil_append, List.cons_append, List.append_assoc]; rfl⟩
  have hsecond := secondWord?_of_toList hword (by rw [hopen]; decide)
    (by rcases hname with rfl | rfl <;> decide)
  rw [ isAnnotation, hsecond, Store.sameLine, line_eq_of_toOneLine hs htag hlt hsize hnodup h,
    String.ofList_toList]
  rcases hname with rfl | rfl
  · simp [oneLineTags]
  · simp [oneLineTags]

/-- Every fix of the rule for comments of one type changes the text. -/
theorem findings_changes (hs : Exact s) (htag : s.kind i = .docOpen) :
    ∀ f ∈ findings settings (.ofStore s) i, f.Changes s := by
  have hi : i < s.size := Store.lt_size_of_kind htag (by decide)
  intro f hf
  have honce := findings_editsOnce f hf
  unfold findings at hf
  dsimp only [File.ofStore_store] at hf
  split at hf
  · cases hf
  rename_i close hclose
  have hsize := hs.comment_lt i close hclose
  obtain ⟨hother, hf⟩ := List.mem_ite_nil_left.mp hf
  split at hf
  · rename_i hlone
    obtain rfl := List.mem_singleton.mp hf
    rintro c ⟨⟩ h
    have hsame := isAnnotation_of_toOneLine hs htag hsize hlone (honce _ rfl) h
    exact hother (by rw [hsame]; rfl)
  · exact DocLayout.findings_changes hs hi f hf

end DocComment

end

end PhpStyle
