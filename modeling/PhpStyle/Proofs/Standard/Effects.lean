import Mathlib.Data.List.Sort
import PhpStyle.Proofs.Edit.Effects
import PhpStyle.Proofs.Php.Breaks
import PhpStyle.Proofs.Standard.Targets

/-!
# Fixes that change the text

A fix that only clears tokens changes the text because no token is empty, and one that only adds
text does. Of the others some change the number of line breaks. The rest move tokens: if such a fix
left the text as it is, the tokens would stand already where it puts them, and the rule would have
found nothing.
-/

namespace PhpStyle

open Php (Exact)

namespace Text

/-- The upper case of a character is the character itself or starts with another one. -/
theorem upperChar_cases (c : Char) :
    upperChar c = [c] ∨ ∃ d rest, upperChar c = d :: rest ∧ d ≠ c := by
  unfold upperChar Case.convert
  split
  · rename_i ns hmany
    obtain ⟨before, behind, htable, _⟩ := List.lookup_eq_some_iff.mp hmany
    have hmem : (c.toNat, ns) ∈ Case.toUpperMany := by simp [htable]
    have hothers : (Case.toUpperMany.all fun r => r.2.head?.any fun n =>
        (Char.ofNat n).toNat != r.1) = true := by
      decide
    have hother := List.all_eq_true.mp hothers _ hmem
    cases ns with
    | nil => cases hother
    | cons n ns =>
      refine .inr ⟨Char.ofNat n, ns.map Char.ofNat, rfl, fun heq => ?_⟩
      simp [heq] at hother
  · split
    · rename_i distance _
      generalize Char.ofNat ((c.toNat : Int) + distance).toNat = d
      by_cases hd : d = c
      · exact .inl (by rw [hd])
      · exact .inr ⟨d, [], rfl, hd⟩
    · exact .inl rfl

/-- A text is capitalized already or capitalizing it changes its first character. -/
theorem capitalize_cases (text : String) : capitalize text = text ∨
    (capitalize text).toList.head? ≠ text.toList.head? ∧ (capitalize text).toList ≠ [] := by
  unfold capitalize
  split
  · rename_i hnil
    exact .inl (String.toList_eq_nil_iff.mp hnil).symm
  · rename_i c rest htext
    rcases upperChar_cases c with hsame | ⟨d, more, hupper, hne⟩
    · refine .inl (String.toList_inj.mp ?_)
      rw [hsame, htext, String.toList_ofList]
      rfl
    · right
      rw [hupper, htext, String.toList_ofList]
      exact ⟨fun heq => hne (Option.some.inj heq), List.cons_ne_nil _ _⟩

end Text

namespace Edit

variable {s : Store} {i : Nat} {text : String}

/-- What is put in front of a token stands before its text. -/
@[simp] theorem result_insert : (insert i text).result s = text ++ s.text i := rfl

/-- What is put behind a token stands after its text. -/
@[simp] theorem result_append : (append i text).result s = s.text i ++ text := rfl

/-- What replaces a token stands in its place. -/
@[simp] theorem result_replace : (replace i text).result s = text := rfl

/-- A deleted token leaves no text. -/
@[simp] theorem result_delete : (delete i).result s = "" := rfl

end Edit

namespace Finding

variable {s : Store} {f : Finding} {c : Changeset}

/-- A fix that leaves its tokens longer or shorter changes the text. -/
theorem changes_of_length (hs : Exact s) (honce : f.EditsOnce) (hfix : f.fix = some c)
    (hsize : ∀ e ∈ c, e.target < s.size)
    (hne : (c.map fun e => (e.result s).toList.length).sum ≠
      (c.map fun e => (s.text e.target).toList.length).sum) : f.Changes s := by
  refine changes_of_countP hs.sound honce hfix hsize (fun _ => true) ?_
  simpa only [List.countP_true] using hne

/-- A fix that leaves its tokens with more or fewer line breaks changes the text. -/
theorem changes_of_breaks (hs : Exact s) (honce : f.EditsOnce) (hfix : f.fix = some c)
    (hsize : ∀ e ∈ c, e.target < s.size)
    (hne : (c.map fun e => (e.result s).toList.count '\n').sum ≠
      (c.map fun e => s.breaks e.target).sum) : f.Changes s :=
  changes_of_countP hs.sound honce hfix hsize (· == '\n') hne

/-- A fix that clears tokens, one at least, changes the text. -/
theorem changes_of_clear (hs : Exact s) (honce : f.EditsOnce) {edit : Nat → Edit}
    (hedit : ∀ p, (edit p).target = p ∧ (edit p).result s = "") {tokens : List Nat}
    (hfix : f.fix = some (tokens.map edit)) (htokens : tokens ≠ [])
    (hsize : ∀ p ∈ tokens, p < s.size) : f.Changes s := by
  have htarget : ∀ e ∈ tokens.map edit, e.target < s.size := by
    intro e he
    obtain ⟨p, hp, rfl⟩ := List.mem_map.mp he
    rw [(hedit p).1]
    exact hsize p hp
  refine changes_of_length hs honce hfix htarget ?_
  have hafter : ((tokens.map edit).map fun e => (e.result s).toList.length).sum = 0 := by
    refine List.sum_eq_zero_iff_forall_eq_nat.mpr fun n hn => ?_
    obtain ⟨e, he, rfl⟩ := List.mem_map.mp hn
    obtain ⟨p, _, rfl⟩ := List.mem_map.mp he
    simp [(hedit p).2]
  have hbefore : 0 < ((tokens.map edit).map fun e => (s.text e.target).toList.length).sum := by
    obtain ⟨p, hp⟩ := List.exists_mem_of_ne_nil tokens htokens
    have hmem := List.mem_map_of_mem (f := edit) hp
    exact List.sum_pos_iff_exists_pos_nat.mpr
      ⟨_, List.mem_map_of_mem hmem, hs.length_pos (htarget _ hmem)⟩
  omega

/-- A fix that makes the first token that it edits start with another character changes the text. -/
theorem changes_of_head (hs : Exact s) (honce : f.EditsOnce) (hfix : f.fix = some c) {e : Edit}
    (he : e ∈ c) (hsize : ∀ e' ∈ c, e'.target < s.size) (hfirst : ∀ e' ∈ c, e.target ≤ e'.target)
    (hresult : e.result s ≠ "")
    (hne : (e.result s).toList.head? ≠ (s.text e.target).toList.head?) : f.Changes s := by
  intro c' hc' h
  rw [hfix] at hc'
  cases hc'
  have htarget := hsize e he
  have hsegment := Store.segment_eq hs.sound h (Nat.le_of_lt htarget) (Nat.le_refl s.size)
    fun e' he' => ⟨hfirst e' he', hsize e' he'⟩
  have hcount : s.size - e.target = (s.size - e.target - 1) + 1 := by omega
  have hafter : s.rewritten c e.target = e.result s := Store.rewritten_of_mem (honce c hfix) he
  rw [hcount, List.range'_succ, List.flatMap_cons, List.flatMap_cons, hafter] at hsegment
  have hheads := congrArg List.head? hsegment
  rw [List.head?_append_of_ne_nil _ (fun hnil => hresult (String.toList_eq_nil_iff.mp hnil)),
    List.head?_append_of_ne_nil _
      (fun hnil => hs.text_ne _ htarget (String.toList_eq_nil_iff.mp hnil))] at hheads
  exact hne hheads

end Finding

open Finding

/-! ### Line breaks that rules write -/

namespace File

/-- The line break that is written is one line break. -/
theorem count_newline (settings : Settings) (s : Store) :
    ((File.ofStore s).newline settings).toList.count '\n' = 1 := by
  rcases newline_cases settings s with h | h
  · rw [h]
    decide
  · rw [h]
    decide

/-- The line break of a file is not empty. -/
theorem newline_ne (settings : Settings) (s : Store) : (File.ofStore s).newline settings ≠ "" := by
  intro hempty
  have := count_newline settings s
  rw [hempty] at this
  cases this

end File

namespace Store

/-- The text of a row of tokens is made up of theirs. -/
theorem flatMap_text_extract (s : Store) {i count : Nat} (h : i + count ≤ s.size) :
    (s.textOf i count).toList = (List.range' i count).flatMap fun k => (s.text k).toList := by
  have hlist : (s.tokens.extract i (i + count)).toList = (List.range' i count).map s.token := by
    refine List.ext_getElem ?_ fun k hk hk' => ?_
    · simp only [size] at h
      rw [Array.length_toList, Array.size_extract, List.length_map, List.length_range']
      omega
    · have hin : i + k < s.tokens.size := by
        simp only [List.length_map, List.length_range', size] at hk' h
        omega
      simp [token, hin]
  rw [textOf, hlist, String.toList_join, List.flatMap_map, List.flatMap_map]
  rfl

/-- The text of a stretch of tokens is made of their texts. -/
theorem toList_textBetween (s : Store) {i j : Nat} (hj : j < s.size) :
    (s.textBetween i j).toList =
      (List.range' i (j + 1 - i)).flatMap fun k => (s.text k).toList := by
  unfold textBetween
  split
  · have hnone : j + 1 - i = 0 := by omega
    rw [hnone]
    rfl
  · have hcount : j - i + 1 = j + 1 - i := by omega
    rw [hcount, flatMap_text_extract s (by omega)]

/-- Of a stretch the two ends are set apart from what stands between them. -/
theorem toList_textBetween_ends (s : Store) {i j : Nat} (hlt : i < j) (hj : j < s.size) :
    (s.textBetween i j).toList =
      (s.text i).toList ++
      (((s.between i j).flatMap fun k => (s.text k).toList) ++ (s.text j).toList) := by
  have hcount : j + 1 - i = (j - (i + 1)) + 1 + 1 := by omega
  have hlast : i + 1 + (j - (i + 1)) = j := by omega
  rw [toList_textBetween s hj, hcount, List.range'_succ, List.range'_1_concat, hlast]
  simp [between]

end Store

section

variable {settings : Settings} {s : Store} {newline : String} {i : Nat}

namespace FileHeader

/-- A declaration that is moved behind the open tag did not stand there. -/
theorem moveDeclare_changes (hs : Exact s) {declare_ last : Nat}
    (hkind : s.kind declare_ = .kwDeclare) (hfirst : ∀ k < declare_, s.kind k ≠ .kwDeclare)
    (hlast : s.kind last = .semicolon) (hle : declare_ ≤ last) (hline : s.line declare_ ≠ s.line 0)
    {f : Finding} (honce : f.EditsOnce)
    (hfix : f.fix = some (.replace 0 ("<?php " ++ s.textBetween declare_ last) ::
      Changeset.deleteRange declare_ last)) : f.Changes s := by
  intro c hc h
  have hnodup := honce c hc
  rw [hfix] at hc
  cases hc
  have hsize : last < s.size := Store.lt_size_of_kind hlast (by decide)
  have hne : declare_ ≠ last := by
    rintro rfl
    rw [hkind] at hlast
    cases hlast
  have hstart : s.rewritten (.replace 0 ("<?php " ++ s.textBetween declare_ last) ::
      Changeset.deleteRange declare_ last) 0 = "<?php " ++ s.textBetween declare_ last :=
    Store.rewritten_of_mem hnodup List.mem_cons_self
  obtain ⟨n, hn⟩ : ∃ n, s.size = n + 1 := ⟨s.size - 1, by omega⟩
  have hcount : last + 1 - declare_ = (last - 1 - declare_) + 1 + 1 := by omega
  obtain ⟨rest, hsource⟩ : ∃ rest, s.source.toList =
      "<?php ".toList ++ (s.text declare_).toList ++ (s.text (declare_ + 1)).toList ++ rest := by
    rw [← h, Store.toList_rewrite, hn, List.range_succ_eq_map, List.flatMap_cons, hstart,
      String.toList_append, Store.toList_textBetween s hsize, hcount, List.range'_succ,
      List.range'_succ, List.flatMap_cons, List.flatMap_cons]
    exact ⟨_, by simp only [List.append_assoc]; rfl⟩
  obtain ⟨_, htext, hone⟩ := hs.declare_ declare_ rest hkind (by omega) hsource
  have hdeclare : declare_ = 1 := by
    have hpos : declare_ ≠ 0 := by
      rintro rfl
      exact hline rfl
    by_contra hlater
    exact hfirst 1 (by omega) hone
  subst hdeclare
  refine hline ?_
  rw [hs.sound.line_succ (by omega), Store.breaks, htext]
  rfl

/-- A `declare` that is moved leaves another text, as the open tag grows by it or blanks in front of
it go. -/
theorem declareFindings_changes (hs : Exact s) (htag : s.kind 0 = .openTag) :
    ∀ f ∈ declareFindings s 0, f.Changes s := by
  intro f hf
  have honce := declareFindings_editsOnce f hf
  unfold declareFindings at hf
  split at hf
  · cases hf
  rename_i declare_ hdeclare
  obtain ⟨_, _, hkind, hbefore⟩ := Store.scanUp_eq_some hdeclare
  have hkind : s.kind declare_ = .kwDeclare := beq_iff_eq.mp hkind
  have hsize : declare_ < s.size := Store.lt_size_of_kind hkind (by decide)
  have hfirst : ∀ k < declare_, s.kind k ≠ .kwDeclare := fun k hk => beq_eq_false_iff_ne.mp
    (hbefore k (Nat.zero_le k) hk)
  split at hf
  · rename_i hline
    obtain rfl := List.mem_singleton.mp hf
    intro c hc
    obtain ⟨last, hlast, hfix⟩ := Option.map_eq_some_iff.mp hc
    obtain ⟨hle, _, hsemicolon, _⟩ := Store.scanUp_eq_some hlast
    refine moveDeclare_changes hs hkind hfirst (beq_iff_eq.mp hsemicolon) hle ?_ honce
      (hfix ▸ hc) c hc
    simpa [Store.sameLine] using hline
  · obtain ⟨hone, hf⟩ := List.mem_ite_nil_right.mp hf
    obtain rfl := List.mem_singleton.mp hf
    have hzero : declare_ ≠ 0 := by
      rintro rfl
      rw [htag] at hkind
      cases hkind
    refine changes_of_clear hs honce (fun _ => ⟨rfl, rfl⟩) rfl ?_ fun p hp => ?_
    · exact List.ne_nil_of_mem (Store.mem_between.mpr (by omega : 0 < 1 ∧ 1 < declare_))
    · have := Store.mem_between.mp hp
      omega

/-- A namespace gets a line break more or less in front of it. -/
theorem emptyLineFindings_changes (hs : Exact s) (hnewline : newline ≠ "")
    (hkind : s.kind i = .kwNamespace) : ∀ f ∈ emptyLineFindings s newline i, f.Changes s := by
  intro f hf
  have honce := emptyLineFindings_editsOnce f hf
  have hsize : i < s.size := Store.lt_size_of_kind hkind (by decide)
  obtain ⟨hcount, hf⟩ := List.mem_ite_nil_left.mp hf
  obtain rfl := List.mem_singleton.mp hf
  by_cases hmany : 2 < (emptyLinesBefore s newline i).length
  · refine changes_of_clear hs honce (fun _ => ⟨rfl, rfl⟩) (congrArg some (if_pos hmany)) ?_
      fun p hp => ?_
    · rw [← List.length_pos_iff, List.length_take]
      omega
    · have := List.mem_range.mp (List.mem_of_mem_filter (List.mem_of_mem_take hp))
      omega
  · refine changes_of_insert hs.sound (congrArg some (if_neg hmany)) hsize fun hempty => hnewline ?_
    have hnil := congrArg String.toList hempty
    rw [String.toList_join, String.toList_empty, List.flatMap_eq_nil_iff] at hnil
    exact String.toList_eq_nil_iff.mp (hnil newline (List.mem_replicate.mpr ⟨by omega, rfl⟩))

/-- The name of a file is reported without a fix. -/
theorem nameFindings_changes (hs : Exact s) : ∀ f ∈ nameFindings s i, f.Changes s := by
  intro f hf
  have honce := nameFindings_editsOnce f hf
  unfold nameFindings at hf
  dsimp only at hf
  obtain ⟨_, hf⟩ := List.mem_ite_nil_left.mp hf
  obtain rfl := List.mem_singleton.mp hf
  generalize hparts : ((nameParts s i).filter fun p => !isCapitalized (s.text p)).filter
    (fun p => s.text p != Text.capitalize (s.text p)) = parts at honce ⊢
  have hsub : parts.Sublist (nameParts s i) :=
    hparts ▸ List.filter_sublist.trans List.filter_sublist
  have hsorted : parts.Pairwise (· < ·) :=
    List.Pairwise.sublist (hsub.trans List.filter_sublist) List.pairwise_lt_range'
  have hspec : ∀ p ∈ parts, p < s.size ∧ Text.capitalize (s.text p) ≠ s.text p := by
    intro p hp
    have hkind : s.kind p = .identifier := beq_iff_eq.mp (List.mem_filter.mp (hsub.mem hp)).2
    rw [← hparts] at hp
    have hne := bne_iff_ne.mp (List.mem_filter.mp hp).2
    exact ⟨Store.lt_size_of_kind hkind (by decide), Ne.symm hne⟩
  cases parts with
  | nil => exact changes_of_none rfl
  | cons low rest =>
    have hlow := (hspec low List.mem_cons_self).2
    obtain ⟨hhead, hnil⟩ := (Text.capitalize_cases (s.text low)).resolve_left hlow
    refine changes_of_head hs honce rfl (List.mem_map_of_mem List.mem_cons_self) ?_ ?_
      (fun hempty => hnil (String.toList_eq_nil_iff.mpr hempty)) hhead
    · intro e he
      obtain ⟨p, hp, rfl⟩ := List.mem_map.mp he
      exact (hspec p hp).1
    · intro e he
      obtain ⟨p, hp, rfl⟩ := List.mem_map.mp he
      rcases List.mem_cons.mp hp with rfl | hp
      · exact Nat.le_refl _
      · exact Nat.le_of_lt (List.rel_of_pairwise_cons hsorted hp)

/-- Every fix at the head of a file changes the text. -/
theorem findings_changes (hs : Exact s) (htag : s.kind i = .openTag) :
    ∀ f ∈ findings settings (.ofStore s) i, f.Changes s := by
  unfold findings
  dsimp only
  intro f hf
  obtain ⟨hzero, hf⟩ := List.mem_ite_nil_left.mp hf
  obtain rfl := Decidable.of_not_not hzero
  rcases List.mem_append.mp hf with hf | hf
  · exact declareFindings_changes hs htag f hf
  · split at hf
    · cases hf
    rename_i namespace_ hnamespace
    have hkind := beq_iff_eq.mp (Store.scanUp_eq_some hnamespace).2.2.1
    rcases List.mem_append.mp hf with hf | hf
    · exact emptyLineFindings_changes hs (File.newline_ne settings s) hkind f hf
    · exact nameFindings_changes hs f hf

end FileHeader

/-- Parentheses go, and none come. -/
theorem ArrayLiteral.findings_changes (hs : Exact s) (hkind : s.kind i = .kwArray) :
    ∀ f ∈ findings (.ofStore s) i, f.Changes s := by
  intro f hf
  have honce := findings_editsOnce hs.sound hkind f hf
  obtain rfl := List.mem_singleton.mp hf
  cases hg : s.paren? i with
  | none =>
    refine changes_of_none ?_
    simp only [File.ofStore_store, hg]
    rfl
  | some g =>
    obtain ⟨hlt, _, hclose⟩ := hs.sound.paren i g hg
    have hsize : g.closer < s.size := Store.lt_size_of_kind hclose (by decide)
    have hi : i < s.size := Store.lt_size_of_kind hkind (by decide)
    refine changes_of_countP hs.sound honce
      (by simp only [File.ofStore_store, hg]; rfl) ?_ (· == ')') ?_
    · simp only [List.forall_mem_cons, Edit.target_replace]
      exact ⟨hi, by omega, hsize, by simp⟩
    · simp [(hs.sound.shapes _).closeParen hclose]

namespace BracePlacement

/-- A line break behind a brace makes the text longer, or takes the place of a blank without one. -/
theorem breakBehind_changes (hs : Exact s) {close : Nat} (hclose : s.kind close = .closeCurly)
    {f : Finding}
    (hfix : f.fix = some (breakBehind (.ofStore s) ((File.ofStore s).newline settings) close)) :
    f.Changes s := by
  have hsize : close < s.size := Store.lt_size_of_kind hclose (by decide)
  have hbreak (indent : String) :
      '\n' ∈ ((File.ofStore s).newline settings ++ indent).toList := by
    have hone := File.count_newline settings s
    rw [String.toList_append]
    exact List.mem_append_left _ (List.count_pos_iff.mp (by omega))
  have hne (indent : String) : (File.ofStore s).newline settings ++ indent ≠ "" := by
    intro hempty
    have hmem := hbreak indent
    rw [hempty] at hmem
    cases hmem
  unfold breakBehind at hfix
  dsimp only [File.ofStore_store] at hfix
  split at hfix
  · rename_i next hnext
    split at hfix
    · rename_i hblank
      refine changes_of_replace hs.sound hfix (Store.lt_size_of_kind hblank.1 (by decide)) ?_
      intro heq
      refine hblank.2 (List.contains_iff_mem.mpr ?_)
      rw [← heq]
      exact hbreak _
    · exact changes_of_append hs.sound hfix hsize (hne _)
  · exact changes_of_append hs.sound hfix hsize (hne _)

/-- Every fix of the rule for the lines of control structures changes the text. -/
theorem findings_changes (hs : Exact s) :
    ∀ f ∈ braceFindings settings (.ofStore s) i ++ commentFindings s i, f.Changes s := by
  intro f hf
  rcases List.mem_append.mp hf with hf | hf
  · obtain ⟨close, hclose, rfl⟩ := List.mem_map.mp hf
    obtain ⟨hclose, _⟩ := Option.filter_eq_some_iff.mp (Option.mem_toList.mp hclose)
    obtain ⟨_, _, hfound⟩ := Option.bind_eq_some_iff.mp hclose
    have hkind := beq_iff_eq.mp (Store.scanDown_eq_some hfound).2.2.1
    exact breakBehind_changes hs hkind rfl
  · obtain ⟨_, hf⟩ := List.mem_ite_nil_right.mp hf
    obtain rfl := List.mem_singleton.mp hf
    exact changes_of_none rfl

end BracePlacement

/-- A later token lies as many lines further down as line breaks stand in the first one and in
between. -/
theorem Php.Sound.line_eq_add_between (hs : Php.Sound s) {j : Nat} (hij : i < j) (hj : j < s.size) :
    s.line j = s.line i + s.breaks i + ((s.between i j).map s.breaks).sum := by
  have hcount : j - i = (j - (i + 1)) + 1 := by omega
  rw [hs.line_eq_add_sum (Nat.le_of_lt hij) hj, hcount, List.range'_succ, List.map_cons,
    List.sum_cons, Nat.add_assoc]
  rfl

namespace TryCatch

/-- A blank behind a keyword is put there where there is none, or replaces another. -/
theorem keywordBlank_changes (hs : Exact s) (hi : i < s.size) :
    ∀ f ∈ keywordBlank s i, f.Changes s := by
  intro f hf
  obtain ⟨hfound, hf⟩ := List.mem_ite_nil_left.mp hf
  obtain rfl := List.mem_singleton.mp hf
  cases hblank : (s.next? i).filter fun p => s.kind p == .whitespace with
  | none => exact changes_of_append (t := " ") hs.sound rfl hi (by decide)
  | some p =>
    obtain ⟨_, hkind⟩ := Option.filter_eq_some_iff.mp hblank
    have hp : p < s.size := Store.lt_size_of_kind (beq_iff_eq.mp hkind) (by decide)
    refine changes_of_replace (t := " ") hs.sound rfl hp ?_
    intro heq
    simp only [hblank, ← heq] at hfound
    exact hfound rfl

/-- The blank that is put in place of the text behind a parenthesis was not there. -/
theorem joinBlank_changes (hs : Exact s) {closer opener : Nat} (hlt : closer + 1 < opener)
    (hsize : opener < s.size) (hfound : s.textBetween (closer + 1) (opener - 1) ≠ " ") {f : Finding}
    (honce : f.EditsOnce)
    (hfix : f.fix = some (.append closer " " :: clear (s.between closer opener))) :
    f.Changes s := by
  intro c hc h
  have hnodup := honce c hc
  rw [hfix] at hc
  cases hc
  have hin : ∀ e ∈ Edit.append closer " " :: clear (s.between closer opener),
      closer ≤ e.target ∧ e.target < opener := by
    intro e he
    rcases List.mem_cons.mp he with rfl | he
    · exact ⟨Nat.le_refl _, by simp only [Edit.target_append]; omega⟩
    · obtain ⟨p, hp, rfl⟩ := List.mem_map.mp he
      have := Store.mem_between.mp hp
      simp only [Edit.target_replace]
      omega
  have hsegment := Store.segment_eq hs.sound h (by omega) (Nat.le_of_lt hsize) hin
  have hcount : opener - closer = (opener - 1 + 1 - (closer + 1)) + 1 := by omega
  have hcloser : s.rewritten (.append closer " " :: clear (s.between closer opener)) closer =
      s.text closer ++ " " := Store.rewritten_of_mem hnodup List.mem_cons_self
  have hcleared : ((List.range' (closer + 1) (opener - 1 + 1 - (closer + 1))).flatMap fun k =>
      (s.rewritten (.append closer " " :: clear (s.between closer opener)) k).toList) = [] := by
    refine List.flatMap_eq_nil_iff.mpr fun k hk => ?_
    have hbetween : k ∈ s.between closer opener := by
      rw [List.mem_range'_1] at hk
      exact Store.mem_between.mpr (by omega)
    have hresult := Store.rewritten_of_mem (s := s) hnodup
      (List.mem_cons_of_mem _ (List.mem_map_of_mem (f := (Edit.replace · "")) hbetween))
    exact congrArg String.toList hresult
  rw [hcount, List.range'_succ, List.flatMap_cons, List.flatMap_cons, hcleared, hcloser,
    ← Store.toList_textBetween s (by omega : opener - 1 < s.size), List.append_nil,
    String.toList_append] at hsegment
  exact hfound (String.toList_inj.mp (List.append_cancel_left hsegment)).symm

/-- A brace is joined to a parenthesis by another text than the one between them. -/
theorem joinBrace_changes (hs : Exact s) {closer opener : Nat}
    (hclose : s.kind closer = .closeParen) (hopen : s.kind opener = .openCurly)
    (hblank : Text.isBlank (s.textBetween (closer + 1) (opener - 1)) = true →
      s.textBetween (closer + 1) (opener - 1) ≠ " ") {f : Finding}
    (hfix : f.fix = some (joinBrace s closer opener
      (Text.isBlank (s.textBetween (closer + 1) (opener - 1))))) : f.Changes s := by
  have honce : f.EditsOnce := editsOnce_of_some hfix (joinBrace_nodup hclose hopen _)
  have hsize : opener < s.size := Store.lt_size_of_kind hopen (by decide)
  have hcsize : closer < s.size := Store.lt_size_of_kind hclose (by decide)
  have hmove (hfix : f.fix = some [.append closer (" " ++ s.text opener), .replace opener ""]) :
      f.Changes s := by
    refine changes_of_length hs honce hfix (by simp [hsize, hcsize]) ?_
    simp [Nat.add_comm]
  unfold joinBrace at hfix
  dsimp only at hfix
  split at hfix
  · exact changes_of_append hs.sound hfix hcsize (by decide)
  split at hfix
  · rename_i hbeside hallblank
    by_cases hlt : closer + 1 < opener
    · exact joinBlank_changes hs hlt hsize (hblank hallblank) honce hfix
    · have hnone : s.between closer opener = [] := by
        rw [Store.between, show opener - (closer + 1) = 0 by omega]
        rfl
      rw [hnone] at hfix
      exact changes_of_append hs.sound hfix hcsize (by decide)
  split at hfix
  · exact hmove hfix
  split at hfix
  · rename_i hline next hnext
    split at hfix
    · exact hmove hfix
    · rename_i hbelow
      obtain ⟨hlt, hnsize, _, _⟩ := Store.nextVisible?_eq_some hnext
      have hlines := hs.sound.line_eq_add_between hlt hnsize
      have hopener := hs.sound.breaks_of_openCurly hopen
      have hcloser := hs.sound.breaks_of_closeParen hclose
      have hother : s.line next ≠ s.line opener := by simpa [Store.sameLine] using hbelow
      refine changes_of_breaks hs honce hfix ?_ ?_
      · intro e he
        simp only [List.mem_append, List.mem_cons, List.not_mem_nil, or_false] at he
        rcases he with (rfl | rfl) | he
        · exact hcsize
        · exact hsize
        · obtain ⟨p, hp, rfl⟩ := List.mem_map.mp he
          exact Nat.lt_trans (Store.mem_between.mp hp).2 hnsize
      · have hsum : ((s.between opener next).map s.breaks).sum ≠ 0 := by omega
        simpa [clear, Function.comp_def, hopener, hcloser, (hs.sound.shapes _).closeParen hclose,
          (hs.sound.shapes _).openCurly hopen] using Ne.symm hsum
  · exact hmove hfix

/-- The blank in front of a brace is only put right where it is not right yet. -/
theorem parenBlank_changes (hs : Exact s) :
    ∀ f ∈ parenBlank settings (.ofStore s) i, f.Changes s := by
  intro f hf
  unfold parenBlank at hf
  dsimp only [File.ofStore_store] at hf
  split at hf
  · rename_i parens scope hparens hscope
    have hclose := (hs.sound.paren i parens hparens).2.2
    have hopen := (hs.sound.scope i scope hscope).2.1
    obtain ⟨hfound, hf⟩ := List.mem_ite_nil_left.mp hf
    obtain rfl := List.mem_singleton.mp hf
    refine joinBrace_changes hs hclose hopen (fun hblank hone => ?_) rfl
    rw [if_pos hblank, hone] at hfound
    exact hfound rfl
  · cases hf

/-- The line break behind the brace is one more, since the tokens that go stand on its line. -/
theorem braceBreak_changes (hs : Exact s) :
    ∀ f ∈ braceBreak settings (.ofStore s) i, f.Changes s := by
  intro f hf
  have honce := braceBreak_editsOnce f hf
  unfold braceBreak at hf
  dsimp only [File.ofStore_store] at hf
  split at hf
  · cases hf
  rename_i scope hscope
  have hopen := (hs.sound.scope i scope hscope).2.1
  split at hf
  · cases hf
  rename_i next hnext
  obtain ⟨hle, hlt, _⟩ := Store.scanUp_eq_some hnext
  obtain ⟨hline, hf⟩ := List.mem_ite_nil_left.mp hf
  obtain rfl := List.mem_singleton.mp hf
  have hnsize : next < s.size := by simp only [Option.getD_none] at hlt; omega
  rw [not_or, Decidable.not_not] at hline
  have hblanks : ∀ p ∈ (s.between scope.opener next).takeWhile fun p => Text.isBlank (s.text p),
      scope.opener < p ∧ p < next :=
    fun p hp => Store.mem_between.mp ((List.takeWhile_sublist _).mem hp)
  refine changes_of_breaks hs honce rfl ?_ ?_
  · intro e he
    rcases List.mem_append.mp he with he | he
    · obtain ⟨p, hp, rfl⟩ := List.mem_map.mp he
      exact Nat.lt_trans (hblanks p hp).2 hnsize
    · obtain rfl := List.mem_singleton.mp he
      exact Nat.lt_trans hle hnsize
  · generalize (s.between scope.opener next).takeWhile (fun p => Text.isBlank (s.text p)) = blanks
      at hblanks ⊢
    have hbefore : (blanks.map s.breaks).sum = 0 := by
      refine List.sum_eq_zero_iff_forall_eq_nat.mpr fun n hn => ?_
      obtain ⟨p, hp, rfl⟩ := List.mem_map.mp hn
      obtain ⟨hlow, hhigh⟩ := hblanks p hp
      exact hs.sound.breaks_eq_zero (Nat.le_of_lt hlow) hhigh hnsize (Nat.le_of_eq hline.1)
    have hone := File.count_newline settings s
    simp [clear, Function.comp_def, hbefore, hone, (hs.sound.shapes _).openCurly hopen,
      hs.sound.breaks_of_openCurly hopen]

/-- The token in front of a keyword that closes a block is a brace. -/
theorem kind_of_closeBrace {follows : Prop} [Decidable follows] {found : Option Nat}
    {closer after : Nat}
    (h : (if follows then found.filter fun p => s.kind p == .closeCurly else none).bind
      (fun brace => (s.next? brace).map fun after => (brace, after)) = some (closer, after)) :
    s.kind closer = .closeCurly := by
  obtain ⟨brace, hkept, hafter⟩ := Option.bind_eq_some_iff.mp h
  obtain ⟨_, _, heq⟩ := Option.map_eq_some_iff.mp hafter
  cases heq
  split at hkept
  · exact beq_iff_eq.mp (Option.filter_eq_some_iff.mp hkept).2
  · cases hkept

/-- The blank behind a closing brace is only put right where it is not right yet. -/
theorem closeBraceBlank_changes (hs : Exact s) : ∀ f ∈ closeBraceBlank s i, f.Changes s := by
  intro f hf
  unfold closeBraceBlank at hf
  dsimp only at hf
  split at hf
  · cases hf
  rename_i closer after hbrace
  obtain ⟨hfound, hf⟩ := List.mem_ite_nil_left.mp hf
  obtain rfl := List.mem_singleton.mp hf
  have hkind := kind_of_closeBrace hbrace
  have hsize : closer < s.size := Store.lt_size_of_kind hkind (by decide)
  by_cases hcomment : (s.findNext (fun t => t.kind.isComment) after (some i)).isSome = true
  · exact changes_of_none (if_pos hcomment)
  by_cases hblank : s.kind after = .whitespace
  · have hsame : ¬ (s.line closer ≠ s.line i ∨ s.text after = " ") := fun hone => hfound (by
      rw [if_neg (not_not_intro hblank), if_pos hone])
    have hasize : after < s.size := Store.lt_size_of_kind hblank (by decide)
    have hlength : (s.token after).length ≠ 0 := by
      rw [hs.length, ← String.length_toList]
      exact Nat.ne_of_gt (hs.length_pos hasize)
    refine changes_of_replace (t := " ") hs.sound ?_ hasize fun heq => hsame (.inr heq.symm)
    simp only [hcomment, hblank, hsame, hlength, ne_eq, not_true_eq_false, if_false,
      Bool.false_eq_true]
  · refine changes_of_append (t := " ") hs.sound ?_ hsize (by decide)
    simp only [hcomment, hblank, ne_eq, not_false_iff, if_true, if_false, Bool.false_eq_true]

/-- Every fix of the rule for the parts of a `try` changes the text. -/
theorem findings_changes (hs : Exact s) (hi : i < s.size) :
    ∀ f ∈ findings settings (.ofStore s) i, f.Changes s := by
  unfold findings
  dsimp only [File.ofStore_store]
  intro f hf
  obtain ⟨_, hf⟩ := List.mem_ite_nil_left.mp hf
  simp only [List.mem_append] at hf
  rcases hf with ((hf | hf) | hf) | hf
  · exact keywordBlank_changes hs hi f hf
  · exact parenBlank_changes hs f hf
  · exact braceBreak_changes hs f hf
  · exact closeBraceBlank_changes hs f hf

end TryCatch

/-- Indentation has as many characters as columns. -/
theorem IndentStyle.length_pad (style : IndentStyle) (columns : Nat) :
    (style.pad columns).length = columns := by
  rw [pad, ← String.length_toList, String.toList_ofList, List.length_replicate]

/-- Keywords behind braces are reported without a fix. -/
theorem Continuation.findings_changes :
    ∀ f ∈ keywordFindings s i ++ braceFindings s i, f.Changes s := by
  intro f hf
  rcases List.mem_append.mp hf with hf | hf
  · obtain ⟨_, _, rfl⟩ := List.mem_map.mp hf
    exact changes_of_none rfl
  · unfold braceFindings at hf
    split at hf
    · cases hf
    · obtain ⟨_, _, rfl⟩ := List.mem_map.mp hf
      exact changes_of_none rfl

namespace ClosingBrace

/-- A promoted property gets a line break in front of it. -/
theorem promotions_changes (hs : Exact s) (hnewline : newline ≠ "") {occupied tokens : List Nat}
    (hsize : ∀ p ∈ tokens, p < s.size) :
    ∀ f ∈ promotions s newline occupied tokens, f.Changes s := by
  induction tokens generalizing occupied with
  | nil => simp [promotions]
  | cons p rest ih =>
    obtain ⟨hp, hrest⟩ := List.forall_mem_cons.mp hsize
    rw [promotions]
    split
    · exact List.forall_mem_cons.mpr ⟨changes_of_insert hs.sound rfl hp hnewline, ih hrest⟩
    · exact ih hrest

/-- Between braces that do not touch stands a token. -/
theorem between_braces_ne_nil (hs : Exact s) {scope : Group} (hscope : s.scope? i = some scope)
    (htouch : bracesTouch s scope = false) : s.between scope.opener scope.closer ≠ [] := by
  obtain ⟨hlt, hopen, hclose⟩ := hs.sound.scope i scope hscope
  have hsize : scope.closer < s.size := Store.lt_size_of_kind hclose (by decide)
  have hnext : scope.closer ≠ scope.opener + 1 := by
    intro hnext
    have hbreaks := hs.sound.breaks_of_openCurly hopen
    have hline := hs.sound.line_succ (i := scope.opener) (by omega)
    have hcolumn := hs.column scope.opener (by omega) (List.count_eq_zero.mp hbreaks)
    have hlength : (s.text scope.opener).length = 1 := by
      rw [← String.length_toList, (hs.sound.shapes _).openCurly hopen]
      rfl
    rw [← hnext] at hline hcolumn
    simp [bracesTouch, Store.sameLine, hline, hcolumn, hbreaks, hlength] at htouch
  exact List.ne_nil_of_mem (Store.mem_between.mpr
    (by omega : scope.opener < scope.opener + 1 ∧ scope.opener + 1 < scope.closer))

/-- Between the braces of a constructor there is something to go, and its properties get line
breaks. -/
theorem constructorFindings_changes (hs : Exact s) (hnewline : newline ≠ "") {scope : Group}
    (hscope : s.scope? i = some scope) :
    ∀ f ∈ constructorFindings s newline i scope, f.Changes s := by
  intro f hf
  have honce := constructorFindings_editsOnce f hf
  obtain ⟨_, _, hclose⟩ := hs.sound.scope i scope hscope
  have hsize : scope.closer < s.size := Store.lt_size_of_kind hclose (by decide)
  rcases List.mem_append.mp hf with hf | hf
  · split at hf
    · cases hf
    rename_i g hg
    obtain ⟨_, _, hgclose⟩ := hs.sound.paren i g hg
    have hgsize : g.closer < s.size := Store.lt_size_of_kind hgclose (by decide)
    refine promotions_changes hs hnewline (fun p hp => ?_) f hf
    exact Nat.lt_trans (Store.mem_between.mp (List.mem_of_mem_filter hp)).2 hgsize
  · obtain ⟨hparted, hf⟩ := List.mem_ite_nil_left.mp hf
    obtain rfl := List.mem_singleton.mp hf
    have htouch : bracesTouch s scope = false :=
      Bool.eq_false_iff.mpr fun htouch => hparted (by rw [htouch]; rfl)
    refine changes_of_clear hs honce (fun _ => ⟨rfl, rfl⟩) rfl
      (between_braces_ne_nil hs hscope htouch) fun p hp => ?_
    exact Nat.lt_trans (Store.mem_between.mp hp).2 hsize

/-- The indentation of a closing brace is only put right where it is not right yet. -/
theorem indentFindings_changes (hs : Exact s) {lineStart closer : Nat} (hsize : closer < s.size) :
    ∀ f ∈ indentFindings settings s lineStart closer, f.Changes s := by
  have hfirst : s.firstContent closer ≤ closer := by
    unfold Store.firstContent
    cases hfound : s.findFirstOnLine (.except (.oneOf [.whitespace, .inlineHtml])) closer with
    | none => exact Nat.le_refl _
    | some first => exact (Store.findFirstOnLine_eq_some hfound).1
  intro f hf
  obtain ⟨hne, hf⟩ := List.mem_ite_nil_left.mp hf
  obtain rfl := List.mem_singleton.mp hf
  by_cases hless : s.indentOf (s.firstContent closer) < s.indentOf lineStart
  · refine changes_of_insert hs.sound (if_pos hless) (by omega) fun hempty => ?_
    have hlength := congrArg String.length hempty
    rw [IndentStyle.length_pad, String.length_empty] at hlength
    omega
  · intro c hc
    rw [if_neg hless] at hc
    obtain ⟨p, hp, rfl⟩ := Option.map_eq_some_iff.mp hc
    have := Store.prev?_eq_some hp
    have hpsize : p < s.size := by omega
    have hpos := hs.length_pos hpsize
    refine changes_of_replace hs.sound hc hpsize (fun heq => ?_) _ hc
    have hlength := congrArg List.length (congrArg String.toList heq)
    rw [String.toList_ofList, List.length_take] at hlength
    omega

/-- Every fix of the rule for closing braces changes the text. -/
theorem findings_changes (hs : Exact s) : ∀ f ∈ findings settings (.ofStore s) i, f.Changes s := by
  have hnewline := File.newline_ne settings s
  unfold findings
  dsimp only [File.ofStore_store]
  intro f hf
  split at hf
  · cases hf
  rename_i scope hscope
  obtain ⟨_, _, hclose⟩ := hs.sound.scope i scope hscope
  have hsize : scope.closer < s.size := Store.lt_size_of_kind hclose (by decide)
  split at hf
  · cases hf
  split at hf
  · obtain rfl := List.mem_singleton.mp hf
    exact changes_of_insert hs.sound rfl hsize hnewline
  rcases List.mem_append.mp hf with hf | hf
  · obtain ⟨_, hf⟩ := List.mem_ite_nil_right.mp hf
    exact constructorFindings_changes hs hnewline hscope f hf
  · obtain ⟨_, hf⟩ := List.mem_ite_nil_right.mp hf
    exact indentFindings_changes hs hsize f hf

end ClosingBrace

/-- A comma makes the text longer. -/
theorem TrailingComma.findings_changes (hs : Exact s) :
    ∀ f ∈ findings (.ofStore s) i, f.Changes s := by
  unfold findings
  dsimp only [File.ofStore_store]
  intro f hf
  split at hf
  · cases hf
  rename_i g hg
  obtain ⟨_, _, hclose⟩ := hs.sound.paren i g hg
  have hsize : g.closer < s.size := Store.lt_size_of_kind hclose (by decide)
  split at hf
  · cases hf
  rename_i last hlast
  obtain ⟨_, hf⟩ := List.mem_ite_nil_left.mp hf
  obtain rfl := List.mem_singleton.mp hf
  have hlt := (Store.prevVisible?_eq_some (Option.filter_eq_some_iff.mp hlast).1).2.1
  exact changes_of_append hs.sound rfl (Nat.lt_trans hlt hsize) (by decide)

end

end PhpStyle
