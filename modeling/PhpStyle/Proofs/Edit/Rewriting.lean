import Mathlib.Data.List.Nodup
import PhpStyle.Proofs.Edit.Offers
import PhpStyle.Proofs.Store.Building

/-!
# What a commit does to each token

A commit turns the accepted edits into spans of bytes, sorts them twice and splices them into the
source. This file proves that it amounts to rewriting token by token: the new text is made of the
texts of all tokens in their order, each as the one accepted edit of it says. No span cuts a
character or overlaps another, however many tokens are empty, and the order in which edits were
accepted leaves no trace.
-/

namespace PhpStyle

open Splice

/-- The edit of text by which a change acts on a token. -/
def Change.toTextEdit (t : Token) : Change → TextEdit
  | .insert text => ⟨t.offset, t.offset, text⟩
  | .append text => ⟨t.endOffset, t.endOffset, text⟩
  | .replace text => ⟨t.offset, t.endOffset, text⟩
  | .delete => ⟨t.offset, t.endOffset, ""⟩

/-- The text of a token, given with its index, when the edit of it is made. -/
def rewriteToken (edits : List Edit) (t : Token × Nat) : String :=
  match edits.find? (·.target == t.2) with
  | some e => e.change.applyTo t.1.text
  | none => t.1.text

/-- The texts of all tokens of a store, each rewritten by the edit of it. -/
def Store.rewrite (store : Store) (edits : List Edit) : String :=
  String.join (store.tokens.toList.zipIdx.map (rewriteToken edits))

/-- The edit of text that rewrites a token, given with its index. -/
def textEditAt (edits : List Edit) (t : Token × Nat) : Option TextEdit :=
  (edits.find? (·.target == t.2)).map fun e => e.change.toTextEdit t.1

/-- An edit of a token is the edit of its span. -/
theorem Edit.toTextEdit?_eq (store : Store) (e : Edit) :
    e.toTextEdit? store = store.tokens[e.target]?.map fun t => e.change.toTextEdit t := by
  obtain ⟨i, c⟩ := e
  cases c <;> rfl

/-- A change of the first token of a text is a cut into a gap and a covered stretch, both of which
may be empty. -/
theorem Change.spliced (c : Change) {t : Token} {rest out : List Char} {edits : List TextEdit}
    (h : Spliced t.endOffset rest edits out) :
    Spliced t.offset (t.text.toList ++ rest) (c.toTextEdit t :: edits)
      ((c.applyTo t.text).toList ++ out) := by
  have hend : t.endOffset = t.offset + byteLength t.text.toList := by
    rw [byteLength_toList, Token.endOffset]
  have hbehind : Spliced t.offset (t.text.toList ++ rest) edits (t.text.toList ++ out) :=
    Spliced.append_left t.text.toList (hend ▸ h)
  cases c with
  | insert text =>
    rw [applyTo, String.toList_append, List.append_assoc]
    exact .edit [] [] rfl rfl hbehind
  | append text =>
    rw [applyTo, String.toList_append, List.append_assoc]
    exact .edit t.text.toList [] hend rfl h
  | replace text => exact .edit [] t.text.toList rfl hend h
  | delete => exact .edit [] t.text.toList rfl hend h

/-- The edits of text that belong to tokens put side by side cut their texts. -/
theorem spliced_layoutFrom (edits : List Edit) (p : Place) (lexemes : List Lexeme) (n : Nat) :
    Spliced p.offset (((Token.layoutFrom p lexemes).zipIdx n).flatMap fun t => t.1.text.toList)
      (((Token.layoutFrom p lexemes).zipIdx n).filterMap (textEditAt edits))
      (((Token.layoutFrom p lexemes).zipIdx n).flatMap fun t => (rewriteToken edits t).toList) := by
  induction lexemes generalizing p n with
  | nil => exact .done p.offset []
  | cons l lexemes ih =>
    have hrest := ih (p.after l.text) (n + 1)
    have hend : (Token.put p l).endOffset = (p.after l.text).offset := by
      rw [Place.after_offset]
      rfl
    rw [← hend] at hrest
    simp only [Token.layoutFrom, List.zipIdx_cons, List.flatMap_cons, List.filterMap_cons]
    cases hfind : edits.find? (·.target == n) with
    | none =>
      simp only [textEditAt, rewriteToken, hfind, Option.map_none]
      refine Spliced.append_left (Token.put p l).text.toList ?_
      rwa [byteLength_toList]
    | some e =>
      simp only [textEditAt, rewriteToken, hfind, Option.map_some]
      exact e.change.spliced hrest

/-- Among edits of distinct tokens, the one found for a token is the one there is. -/
theorem find?_target_eq_some_iff {edits : List Edit} (hnodup : (edits.map (·.target)).Nodup)
    {i : Nat} {e : Edit} : edits.find? (·.target == i) = some e ↔ e ∈ edits ∧ e.target = i := by
  constructor
  · intro h
    exact ⟨List.mem_of_find?_eq_some h, by simpa using List.find?_some h⟩
  · rintro ⟨hmem, htarget⟩
    obtain ⟨e', hfind⟩ : ∃ e', edits.find? (·.target == i) = some e' := by
      rw [← Option.isSome_iff_exists, List.find?_isSome]
      exact ⟨e, hmem, by simpa using htarget⟩
    have hmem' := List.mem_of_find?_eq_some hfind
    have htarget' : e'.target = i := by simpa using List.find?_some hfind
    rw [hfind, List.inj_on_of_nodup_map hnodup hmem' hmem (htarget'.trans htarget.symm)]

/-- What is found for a token depends only on which edits there are. -/
theorem find?_target_congr {a b : List Edit} (hmem : ∀ e, e ∈ a ↔ e ∈ b)
    (ha : (a.map (·.target)).Nodup) (hb : (b.map (·.target)).Nodup) (i : Nat) :
    a.find? (·.target == i) = b.find? (·.target == i) := by
  ext e
  rw [find?_target_eq_some_iff ha, find?_target_eq_some_iff hb, hmem]

/-- The rewritten text depends only on which edits there are. -/
theorem Store.rewrite_congr (store : Store) {a b : List Edit} (hmem : ∀ e, e ∈ a ↔ e ∈ b)
    (ha : (a.map (·.target)).Nodup) (hb : (b.map (·.target)).Nodup) :
    store.rewrite a = store.rewrite b := by
  have htoken : rewriteToken a = rewriteToken b := by
    funext t
    rw [rewriteToken, rewriteToken, find?_target_congr hmem ha hb]
  rw [rewrite, rewrite, htoken]

/-- Edits of distinct tokens are sorted by their targets. -/
theorem pairwise_target_mergeSort {edits : List Edit} (hnodup : (edits.map (·.target)).Nodup) :
    (edits.mergeSort Edit.inOrder).Pairwise (fun a b => a.target < b.target) := by
  have hiff (a b : Edit) : Edit.inOrder a b = true ↔
      a.target < b.target ∨ a.target = b.target ∧ a.change.rank ≤ b.change.rank := by
    simp [Edit.inOrder]
  have hsorted := @List.pairwise_mergeSort _ Edit.inOrder
    (fun a b c hab hbc => by rw [hiff] at *; omega)
    (fun a b => by rw [Bool.or_eq_true, hiff, hiff]; omega) edits
  have hperm := (List.mergeSort_perm edits Edit.inOrder).map Edit.target
  have hne : (edits.mergeSort Edit.inOrder).Pairwise (fun a b => a.target ≠ b.target) :=
    List.pairwise_map.mp (hperm.nodup_iff.mpr hnodup)
  refine (hsorted.and hne).imp fun {a b} h => ?_
  have := (hiff a b).mp h.1
  have := h.2
  omega

/-- A token has no edit among those of later ones. -/
theorem textEditAt_of_lt {edits : List Edit} {t : Token × Nat} (h : ∀ e ∈ edits, t.2 < e.target) :
    textEditAt edits t = none := by
  have hfind : edits.find? (·.target == t.2) = none := by
    rw [List.find?_eq_none]
    intro e he
    have := h e he
    simp only [beq_iff_eq]
    omega
  rw [textEditAt, hfind, Option.map_none]

/-- Edits of other tokens do not matter for a token. -/
theorem textEditAt_cons_of_ne {e : Edit} {t : Token × Nat} (edits : List Edit)
    (h : e.target ≠ t.2) : textEditAt (e :: edits) t = textEditAt edits t := by
  simp [textEditAt, h]

/-- Edits behind the first token find their tokens in the rest. -/
theorem filterMap_toTextEdit_cons {edits : List Edit} (t : Token) (tokens : List Token) {n : Nat}
    (h : ∀ e ∈ edits, n < e.target) :
    edits.filterMap (fun e => (t :: tokens)[e.target - n]?.map fun t => e.change.toTextEdit t) =
      edits.filterMap (fun e => tokens[e.target - (n + 1)]?.map fun t =>
        e.change.toTextEdit t) := by
  refine List.filterMap_congr fun e he => ?_
  have hindex : e.target - n = e.target - (n + 1) + 1 := by
    have := h e he
    omega
  rw [hindex, List.getElem?_cons_succ]

/-- Edits sorted by their targets become, in their order, the edits of text of the tokens in
theirs. -/
theorem filterMap_toTextEdit {edits : List Edit} (hsorted : edits.Pairwise (·.target < ·.target))
    (tokens : List Token) {n : Nat} (hn : ∀ e ∈ edits, n ≤ e.target) :
    edits.filterMap (fun e => tokens[e.target - n]?.map fun t => e.change.toTextEdit t) =
      (tokens.zipIdx n).filterMap (textEditAt edits) := by
  induction tokens generalizing n edits with
  | nil => simp
  | cons t tokens ih =>
    rw [List.zipIdx_cons, List.filterMap_cons]
    match edits with
    | [] => simp [textEditAt]
    | e :: es =>
      obtain ⟨hfirst, hrest⟩ := List.pairwise_cons.mp hsorted
      have hle := hn e List.mem_cons_self
      by_cases heq : e.target = n
      · have hes : ∀ e' ∈ es, n < e'.target := fun e' he' => heq ▸ hfirst e' he'
        have hhead : textEditAt (e :: es) (t, n) = some (e.change.toTextEdit t) := by
          simp [textEditAt, heq]
        have htail : (tokens.zipIdx (n + 1)).filterMap (textEditAt (e :: es)) =
            (tokens.zipIdx (n + 1)).filterMap (textEditAt es) := by
          refine List.filterMap_congr fun t' ht' => textEditAt_cons_of_ne es ?_
          have := List.le_snd_of_mem_zipIdx ht'
          omega
        rw [hhead, List.filterMap_cons, heq, Nat.sub_self, List.getElem?_cons_zero,
          filterMap_toTextEdit_cons t tokens hes, ih hrest hes, htail]
        rfl
      · have hes : ∀ e' ∈ e :: es, n < e'.target := by
          intro e' he'
          rcases List.mem_cons.mp he' with rfl | he'
          · omega
          · have := hfirst e' he'
            omega
        rw [textEditAt_of_lt hes, filterMap_toTextEdit_cons t tokens hes, ih hsorted hes]

namespace Session

/-- A session of a built store whose accepted edits have distinct targets commits without an error,
and the new text is that of the rewritten tokens. -/
theorem commit_eq_rewrite {lexemes : List Lexeme} {outline : Outline} {s : Session}
    (hbuild : Store.build? lexemes outline = .ok s.store)
    (hnodup : (s.accepted.map (·.target)).Nodup) :
    s.commit = .ok ⟨s.store.rewrite s.accepted, s.store.rewrite s.accepted != s.store.source,
      s.fixCount, s.conflicts⟩ := by
  obtain ⟨htokens, hsource⟩ := Store.build?_spec hbuild
  let sorted := s.accepted.mergeSort Edit.inOrder
  have hperm : sorted.Perm s.accepted := List.mergeSort_perm s.accepted Edit.inOrder
  have hsortedNodup : (sorted.map (·.target)).Nodup := (hperm.map Edit.target).nodup_iff.mpr hnodup
  have hedits : sorted.filterMap (Edit.toTextEdit? s.store) =
      ((Token.layout lexemes).zipIdx).filterMap (textEditAt sorted) := by
    rw [← filterMap_toTextEdit (pairwise_target_mergeSort hnodup) _
      (fun e _ => Nat.zero_le e.target)]
    refine List.filterMap_congr fun e _ => ?_
    rw [Edit.toTextEdit?_eq, htokens, List.getElem?_toArray, Nat.sub_zero]
  have htext : s.store.source.toList =
      ((Token.layout lexemes).zipIdx).flatMap fun t => t.1.text.toList := by
    rw [hsource, String.toList_join, ← Token.map_text_layoutFrom .start lexemes, ← Token.layout,
      List.flatMap_map]
    conv_lhs => rw [← List.zipIdx_map_fst 0 (Token.layout lexemes), List.flatMap_map]
  have hnew : ((Token.layout lexemes).zipIdx).flatMap (fun t => (rewriteToken sorted t).toList) =
      (s.store.rewrite s.accepted).toList := by
    rw [s.store.rewrite_congr (fun e => hperm.mem_iff.symm) hnodup hsortedNodup, Store.rewrite,
      String.toList_join, List.flatMap_map, htokens]
  have hspliced := spliced_layoutFrom sorted .start lexemes 0
  rw [← Token.layout, ← htext, hnew] at hspliced
  have hsplice := splice_of_spliced hspliced
  rw [String.ofList_toList] at hsplice
  simp only [commit, hedits, hsplice, sorted]

/-- A session of a built store can commit whatever was offered to it, and the text is that of the
tokens, each rewritten by the accepted edit of it. -/
theorem commit_proposeAll {lexemes : List Lexeme} {outline : Outline} {store : Store}
    (hbuild : Store.build? lexemes outline = .ok store) (findings : List Finding) :
    ∃ commit, ((blank store).proposeAll findings).2.commit = .ok commit ∧
      commit.source = store.rewrite
      (appliedEdits (findings.zip ((blank store).proposeAll findings).1)) := by
  have hstore : ((blank store).proposeAll findings).2.store = store := proposeAll_store _ findings
  have hok := commit_eq_rewrite (s := ((blank store).proposeAll findings).2)
    (hstore.symm ▸ hbuild) (blank_proposeAll_nodup store findings)
  rw [hstore, blank_proposeAll_accepted] at hok
  exact ⟨_, hok, rfl⟩

/-- Whatever is offered to a session of a built store, no two accepted edits have the same target,
the commit succeeds, and its text is that of the tokens, each rewritten by the accepted edit of it.
So two sequences of offers of which the same edits are accepted, in whatever order, give the same
text. -/
theorem commit_rewrites_each_token {lexemes : List Lexeme} {outline : Outline} {store : Store}
    (hbuild : Store.build? lexemes outline = .ok store) (findings : List Finding) :
    let offered := (blank store).proposeAll findings
    let accepted := appliedEdits (findings.zip offered.1)
    (accepted.map (·.target)).Nodup ∧
    (∃ commit, offered.2.commit = .ok commit ∧ commit.source = store.rewrite accepted) ∧
    ∀ others : List Finding,
      (∀ e, e ∈ appliedEdits (others.zip ((blank store).proposeAll others).1) ↔ e ∈ accepted) →
      ∃ commit, ((blank store).proposeAll others).2.commit = .ok commit ∧
        commit.source = store.rewrite accepted := by
  have hnodup (fs : List Finding) :
      ((appliedEdits (fs.zip ((blank store).proposeAll fs).1)).map (·.target)).Nodup := by
    rw [← blank_proposeAll_accepted]
    exact blank_proposeAll_nodup store fs
  refine ⟨hnodup findings, commit_proposeAll hbuild findings, fun others hsame => ?_⟩
  obtain ⟨commit, hok, hsource⟩ := commit_proposeAll hbuild others
  exact ⟨commit, hok, hsource.trans (store.rewrite_congr hsame (hnodup others) (hnodup findings))⟩

/-- Three fixes that meet at one offset, on both sides of an empty token and on it, with a fourth
that is turned down: whichever comes first, they stand in the order of their tokens. -/
theorem commit_around_empty_token :
    let lexemes : List Lexeme := [⟨.variable, "$é"⟩, ⟨.whitespace, ""⟩, ⟨.semicolon, ";"⟩]
    let fix (changeset : Changeset) : Finding :=
      { code := "Code", index := 0, message := "message", fix := some changeset }
    let findings := [fix [.insert 2 "c"], fix [.append 0 "a"], fix [.replace 1 "b"],
      fix [.delete 1, .delete 2]]
    let others := [fix [.replace 1 "b", .append 0 "a"], fix [.insert 2 "c"]]
    ∃ store commit commit', Store.build? lexemes {} = .ok store ∧
      ((blank store).proposeAll findings).2.commit = .ok commit ∧ commit.source = "$éabc;" ∧
      ((blank store).proposeAll others).2.commit = .ok commit' ∧ commit'.source = "$éabc;" := by
  intro lexemes fix findings others
  obtain ⟨store, hbuild⟩ := (Store.exists_build?_iff lexemes {}).mpr (Outline.wellFormed_empty _)
  have hfree (c : Changeset) (h : c.targets.Nodup) : c.editedTwice? = none :=
    (Changeset.editedTwice?_eq_none_iff c).mpr h
  have ha : appliedEdits (findings.zip ((blank store).proposeAll findings).1) =
      [.insert 2 "c", .append 0 "a", .replace 1 "b"] := by
    simp [findings, fix, appliedEdits, proposeAll, propose, blank, claims, hfree, Changeset.targets,
      Edit.insert, Edit.append, Edit.replace, Edit.delete]
  have hb : appliedEdits (others.zip ((blank store).proposeAll others).1) =
      [.replace 1 "b", .append 0 "a", .insert 2 "c"] := by
    simp [others, fix, appliedEdits, proposeAll, propose, blank, claims, hfree, Changeset.targets,
      Edit.insert, Edit.append, Edit.replace]
  have hrewrite : store.rewrite [.insert 2 "c", .append 0 "a", .replace 1 "b"] = "$éabc;" := by
    rw [Store.rewrite, (Store.build?_spec hbuild).1]
    decide +kernel
  obtain ⟨_, ⟨commit, hcommit, hsource⟩, hothers⟩ := commit_rewrites_each_token hbuild findings
  obtain ⟨commit', hcommit', hsource'⟩ := hothers others (by
    intro e
    rw [ha, hb]
    simp only [List.mem_cons, List.not_mem_nil, or_false]
    tauto)
  rw [ha, hrewrite] at hsource hsource'
  exact ⟨store, commit, commit', hbuild, hcommit, hsource, hcommit', hsource'⟩

end Session

end PhpStyle
