import PhpStyle.Proofs.Php.Retokenizing
import PhpStyle.Proofs.Run.Preview
import PhpStyle.Proofs.Standard.Layout
import PhpStyle.Proofs.Standard.Targets

/-!
# What the fixes of layout at the head of a file keep

Two fixes at the head of a file are meant to change its layout: one takes out what stands between
the open tag and `declare`, the other puts line breaks in front of the namespace or takes them out.
The first keeps the tokens of the file only if nothing but whitespace stood there. The second only
edits whitespace, and yet tokens are lost where the break that parts two words goes, or where one
gets into an open tag.
-/

namespace PhpStyle

/-- A fix that edits no token twice is applied if it is the only one offered. -/
theorem Session.commit_alone {lexemes : List Lexeme} {outline : Outline} {store : Store}
    (hbuild : Store.build? lexemes outline = .ok store) {f : Finding} {c : Changeset}
    (hfix : f.fix = some c) (honce : f.EditsOnce) :
    ∃ commit, ((blank store).proposeAll [f]).2.commit = .ok commit ∧
      commit.source = store.rewrite c := by
  obtain ⟨commit, hcommit, hsource⟩ := commit_proposeAll hbuild [f]
  have happlied : ((blank store).propose f).1 = .applied := by
    have hnone := c.editedTwice?_eq_none_iff.mpr (honce c hfix)
    simp [propose, hfix, hnone, blank, claims]
  refine ⟨commit, hcommit, hsource.trans ?_⟩
  simp [proposeAll, happlied, appliedEdits, hfix]

namespace FileHeader

open Php (KeepsTokens LengthensTag StandApart JoinWords Meet)

variable {settings : Settings} {s : Store} {newline : String} {i : Nat}

/-- What the rule finds, by the check that finds it. -/
theorem findings_cases {f : Finding} (hf : f ∈ findings settings (.ofStore s) i) :
    i = 0 ∧ (f ∈ declareFindings s 0 ∨ ∃ n, s.kind n = .kwNamespace ∧
      (f ∈ emptyLineFindings s ((File.ofStore s).newline settings) n ∨ f ∈ nameFindings s n)) := by
  unfold findings at hf
  dsimp only [File.ofStore_store] at hf
  obtain ⟨hzero, hf⟩ := List.mem_ite_nil_left.mp hf
  obtain rfl := Decidable.of_not_not hzero
  refine ⟨rfl, ?_⟩
  rcases List.mem_append.mp hf with hf | hf
  · exact .inl hf
  · split at hf
    · cases hf
    rename_i n hn
    exact .inr ⟨n, beq_iff_eq.mp (Store.scanUp_eq_some hn).2.2.1, List.mem_append.mp hf⟩

/-- The fix for `declare` takes out all that stands in front of it. -/
theorem spec_of_declare {f : Finding} (hf : f ∈ declareFindings s 0) :
    f.code = "DeclareNotFirstInFile" ∨ f.code = "MultipleSpacesBeforeDeclare" ∧
      ∃ d, s.kind d = .kwDeclare ∧ f.fix = some ((s.between 0 d).map .delete) := by
  unfold declareFindings at hf
  split at hf
  · cases hf
  rename_i d hd
  have hkind : s.kind d = .kwDeclare := beq_iff_eq.mp (Store.scanUp_eq_some hd).2.2.1
  split at hf
  · exact .inl (congrArg Finding.code (List.mem_singleton.mp hf))
  · obtain ⟨_, hf⟩ := List.mem_ite_nil_right.mp hf
    obtain rfl := List.mem_singleton.mp hf
    exact .inr ⟨rfl, d, hkind, rfl⟩

/-- The fix for the namespace puts one or two line breaks in front of it, or takes some out that
come before. -/
theorem spec_of_emptyLine {n : Nat} {f : Finding} (hf : f ∈ emptyLineFindings s newline n) :
    f.code = "MultipleNewLinesBeforeNamespace" ∧
      ((∃ k, f.fix = some [.insert n (String.join (List.replicate (k + 1) newline))]) ∨
        ∃ gone : List Nat, f.fix = some (gone.map .delete) ∧
        gone.Sublist (emptyLinesBefore s newline n)) := by
  obtain ⟨hcount, hf⟩ := List.mem_ite_nil_left.mp hf
  obtain rfl := List.mem_singleton.mp hf
  refine ⟨rfl, ?_⟩
  by_cases hmany : 2 < (emptyLinesBefore s newline n).length
  · exact .inr ⟨_, congrArg some (if_pos hmany), List.take_sublist _ _⟩
  · refine .inl ⟨1 - (emptyLinesBefore s newline n).length, (congrArg some (if_neg hmany)).trans ?_⟩
    have hleft : 2 - (emptyLinesBefore s newline n).length =
        1 - (emptyLinesBefore s newline n).length + 1 := by omega
    rw [hleft]

/-- The name of a file is reported under its own code. -/
theorem code_of_nameFindings {n : Nat} {f : Finding} (hf : f ∈ nameFindings s n) :
    f.code = "NonePascalCaseNamespace" := by
  unfold nameFindings at hf
  dsimp only at hf
  obtain ⟨_, hf⟩ := List.mem_ite_nil_left.mp hf
  exact congrArg Finding.code (List.mem_singleton.mp hf)

/-- Deleting some tokens deletes these and no others. -/
theorem deletes_map_delete {gone : List Nat} {k : Nat} :
    Changeset.deletes (gone.map .delete) k = true ↔ k ∈ gone := by
  rw [Changeset.deletes, List.contains_iff_mem, List.mem_map]
  constructor
  · rintro ⟨j, hj, heq⟩
    obtain rfl : j = k := congrArg Edit.target heq
    exact hj
  · exact fun hk => ⟨k, hk, rfl⟩

/-- Deleting tokens is layout if they are whitespace. -/
theorem onlyLayout_map_delete_iff {gone : List Nat} {f : Finding}
    (hfix : f.fix = some (gone.map .delete)) :
    f.OnlyLayout s ↔ ∀ k ∈ gone, s.kind k = .whitespace := by
  constructor
  · exact fun h k hk => h _ hfix (.delete k) (List.mem_map_of_mem hk)
  · intro h c hc e he
    obtain rfl := Option.some.inj (hfix.symm.trans hc)
    obtain ⟨k, hk, rfl⟩ := List.mem_map.mp he
    exact h k hk

/-- How a fix that puts line breaks in front of a namespace, or takes some out, does with the tokens
of the file. -/
inductive Respaces (s : Store) (c : Changeset) (text : String) : Prop
  /-- Breaks are put in: the tokens stay unless an open tag takes the breaks with it. -/
  | inserted {n : Nat} {breaks : String} (hc : c = [.insert n breaks])
      (hkeeps : KeepsTokens s text ↔ ¬ LengthensTag s n breaks)
  /-- Breaks are taken out: the tokens stay if those that come to stand side by side stay apart, and
  they do not if two of these join. -/
  | deleted (hc : ∀ e ∈ c, e.change = .delete)
      (hkeeps : (∀ p n, Meet c.deletes p n → StandApart s p n) → KeepsTokens s text)
      (hloses : ∀ p n, Meet c.deletes p n → JoinWords s p n → ¬ KeepsTokens s text)

section

open Php

variable {source : String}
  (hbuild : Store.build? (settleWords (lex source)) (outline (settleWords (lex source))) = .ok s)
  (htag : s.kind 0 = .openTag)

include hbuild htag

/-- Deleting what stands between the open tag and a `declare` keeps all other tokens exactly if it
is layout. -/
theorem keepsTokens_of_declare {f : Finding} {d : Nat} (hkind : s.kind d = .kwDeclare)
    (hfix : f.fix = some ((s.between 0 d).map .delete)) :
    KeepsTokens s (s.rewrite ((s.between 0 d).map .delete)) ↔ f.OnlyLayout s := by
  rw [onlyLayout_map_delete_iff hfix, keepsTokens_behind_tag_iff hbuild _ htag hkind]
  · simp only [Store.mem_between, and_imp]
  · simp only [deletes_map_delete, Store.mem_between, implies_true]
  · intro e he
    obtain ⟨k, _, rfl⟩ := List.mem_map.mp he
    rfl

/-- The fix of the line in front of a namespace is layout, and puts line breaks in or takes them out
there. -/
theorem respaces_of_emptyLine {f : Finding} {n : Nat} (hkind : s.kind n = .kwNamespace)
    (hnewline : newline = "\n" ∨ newline = "\r\n") (hf : f ∈ emptyLineFindings s newline n) :
    ∃ c, f.fix = some c ∧ f.OnlyLayout s ∧ Respaces s c (s.rewrite c) := by
  have hn : n < s.size := Store.lt_size_of_kind hkind (by decide)
  obtain ⟨_, ⟨k, hfix⟩ | ⟨gone, hfix, hsub⟩⟩ := spec_of_emptyLine hf
  · refine ⟨_, hfix, Finding.onlyLayout_of_singleton hfix ?_,
      .inserted rfl ⟨fun hkeeps htags => ?_, ?_⟩⟩
    · have hblank : newline.toList.all Text.isSpace = true := by
        rcases hnewline with rfl | rfl
        · decide
        · decide
      change Text.isBlank (String.join _) = true
      rw [Text.isBlank, String.toList_join, List.all_flatMap, List.all_replicate]
      simp [hblank]
    · refine not_keepsTokens_of_lengthensTag hbuild hn (fun rest => ?_) htags hkeeps
      have hpos := IsBreak.lineBreakLength_pos (l := ⟨.whitespace, newline⟩) ⟨rfl, hnewline⟩
      rw [String.toList_join, List.replicate_succ, List.flatMap_cons, List.append_assoc]
      exact hpos _
    · exact keepsTokens_of_insert hbuild hnewline htag hkind
  · have hbreak {j : Nat} (hj : j ∈ gone) : j < n ∧ s.kind j = .whitespace ∧
        s.text j = newline := by
      obtain ⟨hlt, hboth⟩ := List.mem_filter.mp (hsub.mem hj)
      simpa [List.mem_range.mp hlt] using hboth
    have hdelete : ∀ e ∈ gone.map Edit.delete, e.change = .delete := by
      intro e he
      obtain ⟨k, _, rfl⟩ := List.mem_map.mp he
      rfl
    have hblank {k : Nat} (hk : Changeset.deletes (gone.map .delete) k = true) :=
      hbreak (deletes_map_delete.mp hk)
    refine ⟨_, hfix, (onlyLayout_map_delete_iff hfix).mpr fun j hj => (hbreak hj).2.1,
      .deleted hdelete (fun hapart => ?_) fun p m hmeet hjoin => ?_⟩
    · refine keepsTokens_of_deletes hbuild hdelete hnewline htag (fun k hk => ?_) hapart
      obtain ⟨hlt, hkind, htext⟩ := hblank hk
      exact ⟨hkind, htext, by omega⟩
    · exact not_keepsTokens_of_joinWords hbuild hdelete (fun k hk => (hblank hk).2.1) hmeet hjoin

end

/-- In the store of every text, under all settings, a fix of layout that the rule for the head of a
file offers can be applied alone. The one for `declare` only takes tokens out, and the file keeps
its tokens exactly if it takes no others than whitespace. The one for the namespace edits whitespace
only, and what comes to stand side by side decides whether the file keeps its tokens. -/
theorem layout_fixes_keep_tokens (settings : Settings) (source : String) :
    ∃ store, Php.tokenize source = .ok store ∧
      ∀ f ∈ (Engine.ofRules Php.tokenize [rule settings]).findings store,
        f.code ∈ ["MultipleSpacesBeforeDeclare", "MultipleNewLinesBeforeNamespace"] →
        ∃ c commit, f.fix = some c ∧
          ((Session.blank store).proposeAll [f]).2.commit = .ok commit ∧
          (f.code = "MultipleSpacesBeforeDeclare" → (∀ e ∈ c, e.change = .delete) ∧
            (KeepsTokens store commit.source ↔ f.OnlyLayout store)) ∧
          (f.code = "MultipleNewLinesBeforeNamespace" → f.OnlyLayout store ∧
            Respaces store c commit.source) := by
  obtain ⟨store, hstore, hbuild⟩ := Php.exists_tokenize source
  refine ⟨store, hstore, fun f hf hcode => ?_⟩
  obtain ⟨i, _, r, hr, hkind, hf⟩ := Engine.mem_findings_iff.mp hf
  obtain rfl := List.mem_singleton.mp hr
  obtain ⟨found, hfound, rfl⟩ := List.mem_map.mp hf
  have htag : store.kind i = .openTag := by simpa [rule] using hkind
  have honce : found.EditsOnce := findings_editsOnce found hfound
  have hfix {c : Changeset} (hc : found.fix = some c) :
      ∃ commit,
        ((Session.blank store).proposeAll [{ found with rule := (rule settings).name }]).2.commit =
          .ok commit ∧ commit.source = store.rewrite c :=
    Session.commit_alone hbuild hc honce
  obtain ⟨rfl, hdeclare | ⟨n, hn, hempty | hname⟩⟩ := findings_cases hfound
  · rcases spec_of_declare hdeclare with hother | ⟨hspaces, d, hd, hc⟩
    · simp [hother] at hcode
    · obtain ⟨commit, hcommit, hsource⟩ := hfix hc
      refine ⟨_, commit, hc, hcommit, fun _ => ⟨fun e he => ?_, ?_⟩, fun hlines => ?_⟩
      · obtain ⟨k, _, rfl⟩ := List.mem_map.mp he
        rfl
      · rw [hsource]
        exact keepsTokens_of_declare hbuild htag hd hc
      · exact absurd (hspaces.symm.trans hlines) (by decide)
  · obtain ⟨c, hc, hlayout, hrespaces⟩ :=
      respaces_of_emptyLine hbuild htag hn (File.newline_cases settings store) hempty
    obtain ⟨commit, hcommit, hsource⟩ := hfix hc
    refine ⟨c, commit, hc, hcommit, fun hspaces => ?_, fun _ => ⟨hlayout, hsource ▸ hrespaces⟩⟩
    exact absurd ((spec_of_emptyLine hempty).1.symm.trans hspaces) (by decide)
  · simp [code_of_nameFindings hname] at hcode

/-- A comment between the open tag and `declare` is lost. -/
theorem fix_deletes_comment :
    let source := "<?php /* c */ declare(strict_types=1);\n"
    ∃ store f commit, Php.tokenize source = .ok store ∧
      f ∈ (Engine.ofRules Php.tokenize [rule .stefna]).findings store ∧
      f.code = "MultipleSpacesBeforeDeclare" ∧
      ((Session.blank store).proposeAll [f]).2.commit = .ok commit ∧
      commit.source = "<?php declare(strict_types=1);\n" ∧ ¬ f.OnlyLayout store ∧
      ¬ KeepsTokens store commit.source := by
  intro source
  let c : Changeset := [.delete 1, .delete 2]
  obtain ⟨store, hstore, hcomputed⟩ : ∃ store, Php.tokenize source = .ok store ∧
      (((Engine.ofRules Php.tokenize [rule .stefna]).findings store).any (fun f =>
        f.code == "MultipleSpacesBeforeDeclare" && f.fix == some c) &&
        (store.rewrite c == "<?php declare(strict_types=1);\n" && store.kind 0 == .openTag &&
          store.kind 1 == .comment && store.kind 3 == .kwDeclare)) = true :=
    Php.exists_of_draft (by decide +kernel)
  obtain ⟨built, hbuilt, hbuild⟩ := Php.exists_tokenize source
  obtain rfl : built = store := Except.ok.inj (hbuilt.symm.trans hstore)
  simp only [Bool.and_eq_true, List.any_eq_true, beq_iff_eq] at hcomputed
  obtain ⟨⟨f, hf, hcode, hfix⟩, ⟨⟨hrewrite, htag⟩, hcomment⟩, hkind⟩ := hcomputed
  have hlayout : ¬ f.OnlyLayout built := by
    intro h
    cases hcomment.symm.trans (h c hfix (.delete 1) List.mem_cons_self)
  have honce : f.EditsOnce := by
    intro c' hc'
    obtain rfl := Option.some.inj (hfix.symm.trans hc')
    decide
  obtain ⟨commit, hcommit, hsource⟩ := Session.commit_alone hbuild hfix honce
  refine ⟨built, f, commit, hstore, hf, hcode, hcommit, hsource.trans hrewrite, hlayout,
    fun hkeeps => hlayout ?_⟩
  rw [hsource] at hkeeps
  exact (keepsTokens_of_declare hbuild htag hkind hfix).mp hkeeps

end FileHeader

end PhpStyle
