import PhpStyle.Proofs.Edit.Rewriting
import PhpStyle.Proofs.Php.Rereading

/-!
# Tokens of a rewritten text

Fixes of layout should keep all tokens but whitespace. The text that a changeset makes of a store is
made of the lexemes that it leaves and of what it puts in, so it is read again as the lexer reads
such a text: tokens stay if line breaks are taken out where they are not needed, and they do not if
words are joined or a line break gets into an open tag.
-/

namespace PhpStyle

/-- The tokens of a store, without their places. -/
def Store.lexemes (s : Store) : List Lexeme := s.tokens.toList.map fun t => ⟨t.kind, t.text⟩

/-- A store has as many lexemes as tokens. -/
theorem Store.length_lexemes (s : Store) : s.lexemes.length = s.size := by
  rw [lexemes, List.length_map, Array.length_toList, size]

/-- From a token on, there is its lexeme and then those of the tokens behind it. -/
theorem Store.drop_lexemes (s : Store) {i : Nat} (hi : i < s.size) :
    s.lexemes.drop i = ⟨s.kind i, s.text i⟩ :: s.lexemes.drop (i + 1) := by
  have hlt : i < s.lexemes.length := by rwa [length_lexemes]
  have hget : s.lexemes[i] = ⟨s.kind i, s.text i⟩ := by
    have htoken : s.token i = s.tokens[i] := by
      rw [token, Array.getElem?_eq_getElem hi]
      rfl
    simp only [lexemes, List.getElem_map, Array.getElem_toList, kind, text, htoken]
    rfl
  rw [List.drop_eq_getElem_cons hlt, hget]

/-- The kind and the text of a token are those of its lexeme. -/
theorem Store.token_of_lexemes {s : Store} {k : Nat} {l : Lexeme} (h : s.lexemes[k]? = some l) :
    k < s.size ∧ s.kind k = l.kind ∧ s.text k = l.text := by
  have hk : k < s.size := s.length_lexemes ▸ (List.getElem?_eq_some_iff.mp h).1
  rw [← List.head?_drop, s.drop_lexemes hk, List.head?_cons, Option.some.injEq] at h
  exact ⟨hk, congrArg Lexeme.kind h, congrArg Lexeme.text h⟩

/-- The tokens behind some lexemes are those of the rest. -/
theorem Store.token_of_split {s : Store} {front rest : List Lexeme}
    (hsplit : s.lexemes = front ++ rest) {k : Nat} {l : Lexeme} (h : rest[k]? = some l) :
    front.length + k < s.size ∧ s.kind (front.length + k) = l.kind ∧
      s.text (front.length + k) = l.text := by
  apply token_of_lexemes
  rw [hsplit, List.getElem?_append_right (Nat.le_add_right _ _), Nat.add_sub_cancel_left, h]

/-- Between two tokens stand the lexemes of the tokens between them. -/
theorem Store.exists_lexemes_between {s : Store} {c i : Nat} (hc : c < i) (hi : i < s.size) :
    ∃ mid behind,
      s.lexemes =
        s.lexemes.take c ++ ⟨s.kind c, s.text c⟩ :: (mid ++ ⟨s.kind i, s.text i⟩ :: behind) ∧
      mid.length = i - (c + 1) ∧ ∀ l ∈ mid, ∃ k, c < k ∧ k < i ∧ l = ⟨s.kind k, s.text k⟩ := by
  refine ⟨(s.lexemes.drop (c + 1)).take (i - (c + 1)), s.lexemes.drop (i + 1), ?_, ?_,
    fun l hl => ?_⟩
  · have hdrop : s.lexemes.drop i = (s.lexemes.drop (c + 1)).drop (i - (c + 1)) := by
      rw [List.drop_drop, Nat.add_sub_cancel' hc]
    rw [← s.drop_lexemes hi, hdrop, List.take_append_drop, ← s.drop_lexemes (by omega),
      List.take_append_drop]
  · rw [List.length_take, List.length_drop, s.length_lexemes]
    omega
  · obtain ⟨k, hk, rfl⟩ := List.mem_iff_getElem.mp hl
    rw [List.length_take] at hk
    have hlt : c + 1 + k < s.lexemes.length := by
      rw [List.length_drop] at hk
      omega
    obtain ⟨_, hkind, htext⟩ := s.token_of_lexemes (List.getElem?_eq_getElem hlt)
    refine ⟨c + 1 + k, by omega, by omega, ?_⟩
    rw [hkind, htext, List.getElem_take, List.getElem_drop]

/-- Whether a changeset takes a token out. -/
def Changeset.deletes (c : Changeset) (k : Nat) : Bool := c.contains (.delete k)

/-- Under deletions a token is left out if it is among them, and is as before otherwise. -/
theorem rewriteToken_of_deletes {c : Changeset} (hdelete : ∀ e ∈ c, e.change = .delete)
    (t : Token) (n : Nat) : rewriteToken c (t, n) = if c.deletes n = true then "" else t.text := by
  rw [rewriteToken]
  cases hfind : c.find? (·.target == n) with
  | none =>
    rw [if_neg]
    intro hmem
    have hnone := List.find?_eq_none.mp hfind (.delete n) (List.contains_iff_mem.mp hmem)
    exact hnone (beq_self_eq_true n)
  | some e =>
    have hmem := List.mem_of_find?_eq_some hfind
    have htarget : e.target = n := by simpa using List.find?_some hfind
    have he : e = .delete n := by
      rw [← htarget, Edit.delete, ← hdelete e hmem]
    have hdeletes : c.deletes n = true := List.contains_iff_mem.mpr (he ▸ hmem)
    rw [if_pos hdeletes, he]
    rfl

namespace Php

open Lexer

/-- Under deletions the text is that of the lexemes kept. -/
theorem flatMap_rewriteToken_deletes {c : Changeset} (hdelete : ∀ e ∈ c, e.change = .delete)
    (tokens : List Token) (n : Nat) :
    ((tokens.zipIdx n).flatMap fun t => (rewriteToken c t).toList) =
      letters (keep c.deletes n (tokens.map fun t => ⟨t.kind, t.text⟩)) := by
  induction tokens generalizing n with
  | nil => rfl
  | cons t tokens ih =>
    rw [List.zipIdx_cons, List.flatMap_cons, ih, rewriteToken_of_deletes hdelete,
      List.map_cons, keep]
    split
    · rfl
    · rfl

/-- The text that deletions make is that of the lexemes that are left. -/
theorem toList_rewrite_deletes {c : Changeset} (hdelete : ∀ e ∈ c, e.change = .delete) (s : Store) :
    (s.rewrite c).toList = letters (keep c.deletes 0 s.lexemes) := by
  rw [Store.rewrite, String.toList_join, List.flatMap_map]
  exact flatMap_rewriteToken_deletes hdelete s.tokens.toList 0

/-- Edits of other tokens leave the text of these as it is. -/
theorem flatMap_rewriteToken_of_ne {c : Changeset} (tokens : List Token) {n : Nat}
    (h : ∀ e ∈ c, e.target < n ∨ n + tokens.length ≤ e.target) :
    ((tokens.zipIdx n).flatMap fun t => (rewriteToken c t).toList) =
      letters (tokens.map fun t => ⟨t.kind, t.text⟩) := by
  induction tokens generalizing n with
  | nil => rfl
  | cons t tokens ih =>
    have hnone : c.find? (·.target == n) = none := by
      rw [List.find?_eq_none]
      intro e he
      have := h e he
      simp only [List.length_cons, beq_iff_eq] at this ⊢
      omega
    have hrest : ∀ e ∈ c, e.target < n + 1 ∨ n + 1 + tokens.length ≤ e.target := by
      intro e he
      have := h e he
      rw [List.length_cons] at this
      omega
    rw [List.zipIdx_cons, List.flatMap_cons, ih hrest, rewriteToken, hnone]
    rfl

/-- What is put in front of a token stands between those before it and it. -/
theorem toList_rewrite_insert (s : Store) {i : Nat} (hi : i < s.size) (text : String) :
    (s.rewrite [.insert i text]).toList =
      letters (s.lexemes.take i) ++ text.toList ++ letters (s.lexemes.drop i) := by
  have hlt : i < s.tokens.toList.length := by rwa [Array.length_toList]
  have hsplit : s.tokens.toList =
      s.tokens.toList.take i ++ s.tokens.toList[i] :: s.tokens.toList.drop (i + 1) := by
    rw [← List.drop_eq_getElem_cons hlt, List.take_append_drop]
  have hlength : (s.tokens.toList.take i).length = i := List.length_take_of_le (Nat.le_of_lt hlt)
  have hhead : rewriteToken [.insert i text] (s.tokens.toList[i], i) = text ++ s.text i := by
    have htext : s.text i = s.tokens.toList[i].text := by
      rw [Store.text, Store.token, ← Array.getElem?_toList, List.getElem?_eq_getElem hlt]
      rfl
    simp [rewriteToken, Edit.insert, Change.applyTo, htext]
  rw [Store.rewrite, String.toList_join, List.flatMap_map, hsplit, List.zipIdx_append,
    List.zipIdx_cons, List.flatMap_append, List.flatMap_cons, Nat.zero_add, hlength, hhead,
    flatMap_rewriteToken_of_ne, flatMap_rewriteToken_of_ne, s.drop_lexemes hi, letters_cons,
    String.toList_append]
  · simp only [List.append_assoc, Store.lexemes, List.map_take, List.map_drop]
  · intro e he
    obtain rfl := List.mem_singleton.mp he
    exact .inl (Nat.lt_succ_self i)
  · intro e he
    obtain rfl := List.mem_singleton.mp he
    exact .inr (by rw [hlength, Nat.zero_add]; exact Nat.le_refl i)

/-! ### Which tokens stay -/

/-- That a text has the tokens of a store, apart from whitespace: the same kinds with the same
texts, in the same order. -/
def KeepsTokens (s : Store) (text : String) : Prop :=
  ∃ s', tokenize text = .ok s' ∧ solid s'.lexemes = solid s.lexemes

/-- Settled lexemes spell the source that they were read from. -/
theorem letters_settleWords (source : String) :
    letters (settleWords (lex source)) = source.toList :=
  (letters_congr (map_text_settleWords (lex source))).trans (lex_cut source).spells

/-- A store has the lexemes that it was built of. -/
theorem lexemes_of_build? {lexemes : List Lexeme} {outline : Outline} {store : Store}
    (hbuild : Store.build? lexemes outline = .ok store) : store.lexemes = lexemes := by
  rw [Store.lexemes, (Store.build?_spec hbuild).1]
  exact Token.map_lexeme_layoutFrom .start lexemes

/-- Whitespace of a settled source has characters of whitespace only. -/
theorem isLayout_of_mem_settleWords {source : String} {l : Lexeme}
    (hl : l ∈ settleWords (lex source)) (hkind : l.kind = .whitespace) :
    ∀ c ∈ l.text.toList, isLayout c = true := by
  obtain ⟨i, hi⟩ := List.mem_iff_getElem?.mp hl
  obtain ⟨raw, prior, hraw, hsettle, htext⟩ := exists_raw_of_settleWords hi
  rw [htext]
  exact isLayout_of_mem (lex_eq_lexFrom source ▸ List.mem_of_getElem? hraw)
    (kind_of_settle (hsettle ▸ hkind) (by decide))

/-- Text of which some lexemes are left keeps none but these. -/
theorem map_text_keep {gone : Nat → Bool} {ls ks : List Lexeme}
    (h : ls.map (·.text) = ks.map (·.text)) (n : Nat) :
    (keep gone n ls).map (·.text) = (keep gone n ks).map (·.text) := by
  induction ls generalizing ks n with
  | nil =>
    rw [List.map_nil, eq_comm, List.map_eq_nil_iff] at h
    rw [h]
  | cons l ls ih =>
    obtain ⟨k, ks, rfl, hk, hks⟩ := List.map_eq_cons_iff.mp h.symm
    rw [keep, keep]
    split
    · exact ih hks.symm (n + 1)
    · rw [List.map_cons, List.map_cons, hk, ih hks.symm]

/-- Of lexemes put together those are kept that are kept of each. -/
theorem keep_append (gone : Nat → Bool) (ls ks : List Lexeme) (n : Nat) :
    keep gone n (ls ++ ks) = keep gone n ls ++ keep gone (n + ls.length) ks := by
  induction ls generalizing n with
  | nil => rfl
  | cons l ls ih =>
    rw [List.cons_append, keep, keep, ih, List.length_cons, Nat.add_right_comm, Nat.add_assoc]
    split
    · rfl
    · rfl

/-- What is kept stands in its order. -/
theorem keep_sublist (gone : Nat → Bool) (n : Nat) (ls : List Lexeme) :
    (keep gone n ls).Sublist ls := by
  induction ls generalizing n with
  | nil => exact .slnil
  | cons l ls ih =>
    rw [keep]
    split
    · exact (ih _).cons _
    · exact (ih _).cons_cons _

/-- Where nothing goes everything is kept. -/
theorem keep_eq_self {gone : Nat → Bool} {n : Nat} {ls : List Lexeme}
    (h : ∀ k, n ≤ k → k < n + ls.length → gone k = false) : keep gone n ls = ls := by
  induction ls generalizing n with
  | nil => rfl
  | cons l ls ih =>
    rw [List.length_cons] at h
    rw [keep, h n (Nat.le_refl n) (by omega), if_neg (by simp),
      ih fun k _ _ => h k (by omega) (by omega)]

/-- Where everything goes nothing is kept. -/
theorem keep_eq_nil {gone : Nat → Bool} {n : Nat} {ls : List Lexeme}
    (h : ∀ k, n ≤ k → k < n + ls.length → gone k = true) : keep gone n ls = [] := by
  induction ls generalizing n with
  | nil => rfl
  | cons l ls ih =>
    rw [List.length_cons] at h
    rw [keep, h n (Nat.le_refl n) (by omega), if_pos rfl, ih fun k _ _ => h k (by omega) (by omega)]

/-- What is taken out between the first of a list and another leaves these two, and all behind
them. -/
theorem keep_between {gone : Nat → Bool} {first other : Lexeme} {mid rest : List Lexeme}
    (hgone : ∀ k, gone k = true ↔ 0 < k ∧ k < mid.length + 1) :
    keep gone 0 (first :: (mid ++ other :: rest)) = first :: other :: rest := by
  have hnone {k : Nat} (hk : ¬ (0 < k ∧ k < mid.length + 1)) : gone k = false := by
    rwa [← hgone, Bool.not_eq_true] at hk
  have hmid : keep gone (0 + 1) mid = [] := keep_eq_nil fun k _ _ => (hgone k).mpr (by omega)
  rw [keep, hnone (by omega), if_neg Bool.false_ne_true, keep_append, hmid, List.nil_append, keep,
    hnone (by omega), if_neg Bool.false_ne_true, keep_eq_self fun k _ _ => hnone (by omega)]

/-- Taking whitespace out leaves what is no whitespace. -/
theorem solid_keep {gone : Nat → Bool} {n : Nat} {ls : List Lexeme}
    (h : ∀ k l, gone (n + k) = true → ls[k]? = some l → l.kind = .whitespace) :
    solid (keep gone n ls) = solid ls := by
  induction ls generalizing n with
  | nil => rfl
  | cons l ls ih =>
    have hrest : solid (keep gone (n + 1) ls) = solid ls := by
      refine ih fun k m hgone hm => h (k + 1) m ?_ hm
      rwa [← Nat.add_assoc, Nat.add_right_comm]
    rw [keep, solid_cons]
    split
    · rename_i hgone
      rw [if_pos (h 0 l hgone rfl), hrest]
    · rw [solid_cons, hrest]

/-- Taking tokens of whitespace out leaves the others. -/
theorem solid_keep_lexemes {gone : Nat → Bool} {s : Store}
    (h : ∀ k, gone k = true → s.kind k = .whitespace) :
    solid (keep gone 0 s.lexemes) = solid s.lexemes := by
  refine solid_keep fun k l hgone hl => ?_
  rw [Nat.zero_add] at hgone
  exact (Store.token_of_lexemes hl).2.1.symm.trans (h k hgone)

/-- Two tokens that meet stand side by side among what is left. -/
theorem exists_keep_of_meet {gone : Nat → Bool} {s : Store} {p n : Nat} (hmeet : Meet gone p n)
    (hn : n < s.size) : ∃ behind, keep gone 0 s.lexemes =
      keep gone 0 (s.lexemes.take p) ++ ⟨s.kind p, s.text p⟩ :: ⟨s.kind n, s.text n⟩ :: behind := by
  have hlt := hmeet.lt
  obtain ⟨mid, rest, hsplit, hlength, _⟩ := Store.exists_lexemes_between (Nat.lt_of_succ_lt hlt) hn
  have htake : (s.lexemes.take p).length = p :=
    List.length_take_of_le (by rw [s.length_lexemes]; omega)
  have hlast : p + 1 + mid.length = n := by omega
  have hgone : keep gone (p + 1) mid = [] := keep_eq_nil fun k hk hkn =>
      hmeet.between k hk (by omega)
  refine ⟨keep gone (n + 1) rest, ?_⟩
  conv_lhs => rw [hsplit]
  rw [keep_append, htake, Nat.zero_add, keep, hmeet.first, if_neg Bool.false_ne_true, keep_append,
    hgone, hlast, List.nil_append, keep, hmeet.last, if_neg Bool.false_ne_true]

/-- That two tokens need no whitespace between them, or have another break there: the first opens
the file or ends by itself, or the other is a mark, or a break like the one behind the first. -/
def StandApart (s : Store) (p n : Nat) : Prop :=
  p = 0 ∨ isClosed ⟨s.kind p, s.text p⟩ = true ∨ (s.kind n).isMark = true ∨
    s.kind n = .whitespace ∧ s.text n = s.text (p + 1)

/-- That two tokens become one word when they stand side by side. -/
def JoinWords (s : Store) (p n : Nat) : Prop :=
  isWord ⟨s.kind p, s.text p⟩ = true ∧ (s.text n).toList.head?.any continuesWord = true

/-- That a text of line breaks put in front of a token becomes part of an open tag: of one right in
front, or of one in front of a carriage return that makes a line break with it. -/
def LengthensTag (s : Store) (i : Nat) (text : String) : Prop :=
  ∃ p, s.kind p = .openTag ∧ (s.text p).length = 5 ∧
    (p + 1 = i ∨ p + 2 = i ∧ s.text (p + 1) = "\r" ∧ text.toList.head? = some '\n')

/-- No word is whitespace. -/
theorem kind_ne_of_isWord {l : Lexeme} (h : isWord l = true) : l.kind ≠ .whitespace := by
  intro hkind
  simp [isWord, hkind, Kind.isTrivia] at h

/-- A word starts with a visible character. -/
theorem exists_visible_of_isWord {l : Lexeme} (h : isWord l = true) :
    ∃ d cs, l.text.toList = d :: cs ∧ isLayout d = false := by
  simp only [isWord, Bool.and_eq_true] at h
  cases htext : l.text.toList with
  | nil => simp [htext] at h
  | cons d cs =>
    refine ⟨d, cs, rfl, ?_⟩
    rw [htext] at h
    obtain ⟨hnot, _⟩ := not_special_of_startsWord (c := d) h.2
    simp only [List.mem_cons, List.not_mem_nil, or_false, not_or] at hnot
    simp [isLayout, Lexer.isBlank, hnot]

/-- The keyword of a namespace starts with an `n`. -/
theorem Raw.head_of_kwNamespace {l : Lexeme} (h : Raw l) (hkind : l.kind = .kwNamespace) :
    ∃ x ∈ ['n', 'N'], ∃ cs, l.text.toList = x :: cs := by
  have hspelled : wordKind l.text.toList = .kwNamespace :=
    (h.word (h.keyword (by rw [hkind]; decide))).symm.trans hkind
  have hlower : String.ofList (l.text.toList.map Char.toLower) = "namespace" := by
    unfold wordKind at hspelled
    cases hfound : keywords.lookup (String.ofList (l.text.toList.map Char.toLower)) with
    | none =>
      rw [hfound] at hspelled
      cases hspelled
    | some kind =>
      obtain ⟨before, behind, hsplit, _⟩ := List.lookup_eq_some_iff.mp hfound
      obtain rfl : kind = .kwNamespace := by simpa [hfound] using hspelled
      have honly : ∀ e ∈ keywords, e.2 = .kwNamespace → e.1 = "namespace" := by decide
      refine honly (_, .kwNamespace) ?_ rfl
      rw [hsplit]
      exact List.mem_append_right _ List.mem_cons_self
  have hletters : l.text.toList.map Char.toLower = "namespace".toList := by
    rw [← hlower, String.toList_ofList]
  obtain ⟨x, cs, htext, hx, _⟩ := List.map_eq_cons_iff.mp
    (hletters.trans (show "namespace".toList = 'n' :: "amespace".toList from rfl))
  refine ⟨x, ?_, cs, htext⟩
  unfold Char.toLower at hx
  split at hx
  · rename_i hupper
    have hval := congrArg (fun d : Char => d.val.toNat) hx
    simp only [ge_iff_le, UInt32.le_iff_toNat_le] at hupper
    simp [UInt32.toNat_add] at hval hupper
    have hN : x = 'N' := Char.ext (UInt32.toNat_inj.mp (by simp; omega))
    simp [hN]
  · simp [hx]

/-- Settling makes whitespace of nothing else, and nothing else of whitespace. -/
theorem length_solid_settleWords (ls : List Lexeme) :
    (solid (settleWords ls)).length = (solid ls).length := by
  have hsettle (before after : List Lexeme) (l : Lexeme) :
      (Words.settle before after l).kind = .whitespace ↔ l.kind = .whitespace := by
    rcases kind_settle before after l with hsame | ⟨hword, hother⟩
    · rw [hsame]
    · refine ⟨fun h => ?_, fun h => absurd h (kind_ne_of_isWord hword)⟩
      rw [h] at hother
      exact absurd hother (by decide)
  suffices h : ∀ before, (solid (Words.settleFrom before ls)).length = (solid ls).length from h []
  induction ls with
  | nil => exact fun _ => rfl
  | cons l ls ih =>
    intro before
    rw [Words.settleFrom_cons, solid_cons, solid_cons]
    simp only [hsettle]
    split
    · exact ih _
    · exact congrArg Nat.succ (ih _)

section

variable {source : String} {store : Store}
  (hbuild : Store.build? (settleWords (lex source)) (outline (settleWords (lex source))) =
    .ok store)

include hbuild

/-- A text keeps the tokens of a store if it is read as the same lexemes but for whitespace. -/
theorem keepsTokens_iff {text : String} : KeepsTokens store text ↔
    solid (settleWords (lex text)) = solid (settleWords (lex source)) := by
  obtain ⟨s, hs, hbuild'⟩ := exists_tokenize text
  rw [KeepsTokens, ← lexemes_of_build? hbuild, ← lexemes_of_build? hbuild']
  constructor
  · rintro ⟨s', hs', hsame⟩
    obtain rfl : s = s' := Except.ok.inj (hs.symm.trans hs')
    exact hsame
  · exact fun hsame => ⟨s, hs, hsame⟩

/-- A store has as many tokens as its source has lexemes. -/
theorem size_of_build : store.size = (lex source).length := by
  rw [Store.size_of_build? hbuild, ← List.length_map, map_text_settleWords, List.length_map]

/-- A token is a lexeme of the text, settled. -/
theorem settled_of_build {i : Nat} {raw : Lexeme} (hraw : (lex source)[i]? = some raw) :
    Raw raw ∧ store.text i = raw.text ∧
      ∃ prior after, store.kind i = (Words.settle prior after raw).kind := by
  have hi : i < store.size := by
    rw [size_of_build hbuild]
    exact (List.getElem?_eq_some_iff.mp hraw).1
  obtain ⟨raw', prior, hraw', hmem, htext, hkind⟩ := exists_raw_of_build hbuild hi
  obtain rfl : raw = raw' := Option.some.inj (hraw.symm.trans hraw')
  exact ⟨raw_lex source raw hmem, htext, prior, _, hkind⟩

/-- What no word is settled to was of that kind before. -/
theorem raw_kind_of_build {i : Nat} {raw : Lexeme} (hraw : (lex source)[i]? = some raw)
    (hk : store.kind i ∉ [Kind.identifier, .closure, .anonClass]) : raw.kind = store.kind i := by
  obtain ⟨_, _, prior, after, hkind⟩ := settled_of_build hbuild hraw
  exact kind_of_settle hkind.symm hk

/-- What is no word keeps its kind. -/
theorem kind_of_raw {i : Nat} {raw : Lexeme} (hraw : (lex source)[i]? = some raw)
    (hword : isWord raw = false) : store.kind i = raw.kind := by
  obtain ⟨_, _, prior, after, hkind⟩ := settled_of_build hbuild hraw
  rw [hkind, Words.settle, if_neg (by simp [hword])]

/-- A closed token of a store was read as one. -/
theorem isClosed_of_build {i : Nat} {raw : Lexeme} (hraw : (lex source)[i]? = some raw)
    (hclosed : isClosed ⟨store.kind i, store.text i⟩ = true) : isClosed raw = true := by
  have hk : store.kind i ∉ [Kind.identifier, .closure, .anonClass] := by
    intro hmem
    simp only [List.mem_cons, List.not_mem_nil, or_false] at hmem
    rcases hmem with h | h | h <;> simp [isClosed, h, Kind.isMark] at hclosed
  have hkind := raw_kind_of_build hbuild hraw hk
  obtain ⟨_, htext, _⟩ := settled_of_build hbuild hraw
  rw [← hkind, htext] at hclosed
  exact hclosed

/-- Line breaks may be taken out where what comes to stand side by side stands apart: all tokens
stay. -/
theorem keepsTokens_of_deletes {c : Changeset} {newline : String}
    (hdelete : ∀ e ∈ c, e.change = .delete) (hnewline : newline = "\n" ∨ newline = "\r\n")
    (htag : store.kind 0 = .openTag) (hbreak : ∀ k, c.deletes k = true →
      store.kind k = .whitespace ∧ store.text k = newline ∧ k + 1 < store.size)
    (hapart : ∀ p n, Meet c.deletes p n → StandApart store p n) :
    KeepsTokens store (store.rewrite c) := by
  have hmark {k : Kind} (hk : k.isMark = true) : k ∉ [Kind.identifier, .closure, .anonClass] := by
    intro hmem
    simp only [List.mem_cons, List.not_mem_nil, or_false] at hmem
    rcases hmem with rfl | rfl | rfl <;> cases hk
  have hblank {k : Nat} {raw : Lexeme} (hraw : (lex source)[k]? = some raw)
      (hkind : store.kind k = .whitespace)
      (htext : store.text k = newline) : raw = ⟨.whitespace, newline⟩ := by
    have hkind' := raw_kind_of_build hbuild hraw (by rw [hkind]; decide)
    have htext' := (settled_of_build hbuild hraw).2.1
    obtain ⟨rawKind, rawText⟩ := raw
    rw [Lexeme.mk.injEq]
    exact ⟨hkind'.trans hkind, htext'.symm.trans htext⟩
  have hzero : c.deletes 0 = false := by
    by_contra hgone
    have hkind := (hbreak 0 (by simpa using hgone)).1
    rw [htag] at hkind
    cases hkind
  have hlex : lexFrom .html (letters (lex source)) = lex source :=
    (congrArg (lexFrom .html) (lex_cut source).spells).trans (lex_eq_lexFrom source).symm
  obtain ⟨hread, hsettled⟩ := reread_keep (w := ⟨.whitespace, newline⟩) ⟨rfl, hnewline⟩ hlex hzero
    (fun k hk => by
      obtain ⟨hkind, htext, hlt⟩ := hbreak k hk
      rw [size_of_build hbuild] at hlt
      have hraw := List.getElem?_eq_getElem (Nat.lt_of_succ_lt hlt)
      exact ⟨hraw.trans (congrArg some (hblank hraw hkind htext)), hlt⟩)
    (fun p n q m hmeet hq hm => by
      rcases hapart p n hmeet with rfl | hclosed | hkind | ⟨hkind, htext⟩
      · exact .inl ⟨rfl, (raw_kind_of_build hbuild hq (by rw [htag]; decide)).trans htag⟩
      · exact .inr (.inl (isClosed_of_build hbuild hq hclosed))
      · exact .inr (.inr (.inl ((raw_kind_of_build hbuild hm (hmark hkind)).symm ▸ hkind)))
      · have hbehind := hbreak (p + 1) (hmeet.between _ (Nat.lt_succ_self p) hmeet.lt)
        exact .inr (.inr (.inr (hblank hm hkind (htext.trans hbehind.2.1)))))
  have hlexNew : lex (store.rewrite c) = keep c.deletes 0 (lex source) := by
    rw [lex_eq_lexFrom, toList_rewrite_deletes hdelete, lexemes_of_build? hbuild,
      letters_congr (map_text_keep (map_text_settleWords (lex source)) 0), hread]
  rw [keepsTokens_iff hbuild, hlexNew, hsettled]

/-- If a text has the tokens of a store and the lexemes of the store without their whitespace make
it up, then each lexeme is read where it stands among these. -/
theorem exists_reads_of_keepsTokens {text : String} {front behind : List Lexeme} {q : Lexeme}
    (hkeeps : KeepsTokens store text) (hsolid : solid (front ++ q :: behind) = solid store.lexemes)
    (hletters : text.toList = letters (front ++ q :: behind))
    (hfront : ∀ l ∈ front, l.kind = .whitespace → l ∈ store.lexemes) (hq : q.kind ≠ .whitespace)
    (hvisible : ∃ d cs, q.text.toList = d :: cs ∧ isLayout d = false) :
    ∃ mode raw prior after next, Reads mode raw (letters behind) next ∧
      q = Words.settle prior after raw ∧ q.text = raw.text := by
  have hsame := (keepsTokens_iff hbuild).mp hkeeps
  rw [← lexemes_of_build? hbuild, ← hsolid] at hsame
  obtain ⟨front', behind', hsplit, hbehind⟩ := exists_split_of_solid hsame
    ((letters_settleWords text).trans hletters) (fun l hl => isLayout_of_mem_settleWords hl)
    (fun l hl hkind =>
      isLayout_of_mem_settleWords (lexemes_of_build? hbuild ▸ hfront l hl hkind) hkind) hq hvisible
  rw [← hbehind]
  exact exists_reads_of_settleWords hsplit

/-- A word and what goes it on are one token when all whitespace between them is taken out. -/
theorem not_keepsTokens_of_joinWords {c : Changeset} (hdelete : ∀ e ∈ c, e.change = .delete)
    (hblank : ∀ k, c.deletes k = true → store.kind k = .whitespace) {p n : Nat}
    (hmeet : Meet c.deletes p n) (hjoin : JoinWords store p n) :
    ¬ KeepsTokens store (store.rewrite c) := by
  intro hkeeps
  obtain ⟨hword, hnext⟩ := hjoin
  obtain ⟨d, cs, htext⟩ : ∃ d cs, (store.text n).toList = d :: cs := by
    refine List.exists_cons_of_ne_nil fun hnil => ?_
    rw [hnil] at hnext
    cases hnext
  have hn : n < store.size := by
    by_contra hge
    rw [Store.text, Store.token_of_size_le (Nat.le_of_not_lt hge)] at htext
    cases htext
  obtain ⟨behind, hkept⟩ := exists_keep_of_meet hmeet hn
  have hsolid := solid_keep_lexemes (s := store) hblank
  have hletters := toList_rewrite_deletes hdelete store
  rw [hkept] at hsolid hletters
  obtain ⟨_, raw, _, _, _, hread, hsettle, _⟩ :=
    exists_reads_of_keepsTokens hbuild hkeeps hsolid hletters
    (fun l hl _ => List.mem_of_mem_take ((keep_sublist _ _ _).mem hl)) (kind_ne_of_isWord hword)
    (exists_visible_of_isWord hword)
  have hraw : isWord raw = true := by
    by_contra hnot
    rw [Words.settle, if_neg hnot] at hsettle
    exact hnot (hsettle ▸ hword)
  rw [letters_cons, htext] at hread
  have hends := hread.continuesWord hraw
  rw [htext] at hnext
  simp [hends] at hnext

/-- An open tag starts with a visible character. -/
theorem exists_visible_of_openTag {p : Nat} (hkind : store.kind p = .openTag) :
    ∃ d cs, (store.text p).toList = d :: cs ∧ isLayout d = false := by
  have hp : p < store.size := Store.lt_size_of_kind hkind (by decide)
  have hsplit : settleWords (lex source) =
      store.lexemes.take p ++ ⟨store.kind p, store.text p⟩ :: store.lexemes.drop (p + 1) := by
    rw [← store.drop_lexemes hp, List.take_append_drop, lexemes_of_build? hbuild]
  obtain ⟨_, raw, _, _, _, hread, hsettle, htext⟩ := exists_reads_of_settleWords hsplit
  have hraw : raw.kind = .openTag :=
    kind_of_settle ((congrArg Lexeme.kind hsettle).symm.trans hkind) (by decide)
  obtain ⟨cs, hcs⟩ := List.head?_eq_some_iff.mp (hread.head?_openTag hraw)
  exact ⟨'<', cs, (congrArg String.toList htext).trans hcs, rfl⟩

omit hbuild in
/-- What gets into an open tag makes a line break with what stands between them. -/
theorem LengthensTag.exists_split {i : Nat} {text : String} (htag : LengthensTag store i text)
    (hi : i < store.size) (hbreak : ∀ rest, 0 < lineBreakLength (text.toList ++ rest)) :
    ∃ p mid, store.kind p = .openTag ∧ (store.text p).length = 5 ∧
      store.lexemes.take i = store.lexemes.take p ++ ⟨store.kind p, store.text p⟩ :: mid ∧
        ∀ rest, 0 < lineBreakLength (letters mid ++ (text.toList ++ rest)) := by
  obtain ⟨p, hkind, hlength, hplace⟩ := htag
  have hp : p < store.size := Store.lt_size_of_kind hkind (by decide)
  rcases hplace with rfl | ⟨rfl, hreturn, hhead⟩
  · exact ⟨p, [], hkind, hlength, by rw [List.take_add, store.drop_lexemes hp]; rfl, hbreak⟩
  · have hone : p + 1 < store.size := by omega
    refine ⟨p, [⟨store.kind (p + 1), store.text (p + 1)⟩], hkind, hlength, ?_, fun rest => ?_⟩
    · rw [List.take_add, store.drop_lexemes hp, store.drop_lexemes hone]
      rfl
    · obtain ⟨more, hmore⟩ := List.head?_eq_some_iff.mp hhead
      have htwo : lineBreakLength ('\r' :: '\n' :: (more ++ rest)) = 2 := rfl
      simp [hreturn, hmore, htwo]

/-- An open tag takes a line break that is put behind it with it. -/
theorem not_keepsTokens_of_lengthensTag {i : Nat} {text : String} (hi : i < store.size)
    (hbreak : ∀ rest, 0 < lineBreakLength (text.toList ++ rest))
    (htag : LengthensTag store i text) : ¬ KeepsTokens store (store.rewrite [.insert i text]) := by
  intro hkeeps
  obtain ⟨p, mid, hkind, hlength, hmid, hnext⟩ := htag.exists_split hi hbreak
  have hsplit : store.lexemes = store.lexemes.take p ++
      ⟨store.kind p, store.text p⟩ :: (mid ++ store.lexemes.drop i) := by
    conv_lhs => rw [← List.take_append_drop i store.lexemes, hmid]
    rw [List.append_assoc, List.cons_append]
  have hsolid : solid (store.lexemes.take p ++
      ⟨store.kind p, store.text p⟩ :: (mid ++ ⟨.whitespace, text⟩ :: store.lexemes.drop i)) =
        solid store.lexemes := by
    conv_rhs => rw [hsplit]
    simp only [solid_append, solid_cons, if_true]
  have hletters : (store.rewrite [.insert i text]).toList = letters (store.lexemes.take p ++
      ⟨store.kind p, store.text p⟩ :: (mid ++ ⟨.whitespace, text⟩ :: store.lexemes.drop i)) := by
    rw [toList_rewrite_insert store hi, hmid]
    simp only [letters_append, letters_cons, List.append_assoc]
  obtain ⟨_, raw, _, _, _, hread, hsettle, htext⟩ :=
    exists_reads_of_keepsTokens hbuild hkeeps hsolid hletters
    (fun l hl _ => List.mem_of_mem_take hl) (by simp [hkind])
    (exists_visible_of_openTag hbuild hkind)
  have hraw : raw.kind = .openTag :=
    kind_of_settle ((congrArg Lexeme.kind hsettle).symm.trans hkind) (by decide)
  have hzero := hread.lineBreakLength_eq_zero hraw (htext ▸ hlength)
  rw [letters_append, letters_cons] at hzero
  have hpos := hnext (letters (store.lexemes.drop i))
  rw [hzero] at hpos
  exact Nat.lt_irrefl 0 hpos

/-- A token of a kind that no word is settled to was read as one, with lexemes in front of it and
behind it. -/
theorem exists_split_of_build {i : Nat} {k : Kind} (hkind : store.kind i = k)
    (hk : k ∉ [Kind.identifier, .closure, .anonClass, .unknown]) :
    ∃ n, (lex source)[i]? = some n ∧ n.kind = k ∧
      lex source = (lex source).take i ++ n :: (lex source).drop (i + 1) := by
  simp only [List.mem_cons, List.not_mem_nil, or_false, not_or] at hk
  have hlt : i < (lex source).length := size_of_build hbuild ▸ Store.lt_size_of_kind hkind hk.2.2.2
  have hget := List.getElem?_eq_getElem hlt
  refine ⟨(lex source)[i], hget, ?_, ?_⟩
  · exact (raw_kind_of_build hbuild hget (by simp [hkind, hk])).trans hkind
  · rw [← List.drop_eq_getElem_cons hlt, List.take_append_drop]

/-- The tokens in front of one spell what its lexemes in front spell. -/
theorem letters_take_lexemes (i : Nat) :
    letters (store.lexemes.take i) = letters ((lex source).take i) := by
  refine letters_congr ?_
  rw [lexemes_of_build? hbuild, List.map_take, List.map_take, map_text_settleWords]

/-- The tokens from one on spell what its lexemes from there on spell. -/
theorem letters_drop_lexemes (i : Nat) :
    letters (store.lexemes.drop i) = letters ((lex source).drop i) := by
  refine letters_congr ?_
  rw [lexemes_of_build? hbuild, List.map_drop, List.map_drop, map_text_settleWords]

/-- An open tag of a store was read as one. -/
theorem openTag_of_raw {p : Nat} {q : Lexeme} (hq : (lex source)[p]? = some q)
    (hopen : q.kind = .openTag) : store.kind p = .openTag ∧ store.text p = q.text := by
  obtain ⟨hraw, htext, _⟩ := settled_of_build hbuild hq
  have hnot : isWord q = false := Bool.eq_false_iff.mpr fun h => (hraw.of_isWord h).2.1 hopen
  exact ⟨(kind_of_raw hbuild hq hnot).trans hopen, htext⟩

omit hbuild in
/-- Where the lexemes in front of a place split, the second part goes on where the first ends. -/
theorem getElem?_of_take_eq {ls front behind : List Lexeme} {i : Nat}
    (h : ls.take i = front ++ behind) {j : Nat} {l : Lexeme} (hj : behind[j]? = some l) :
    ls[front.length + j]? = some l := by
  have htake : (ls.take i)[front.length + j]? = some l := by
    rw [h, List.getElem?_append_right (Nat.le_add_right _ _), Nat.add_sub_cancel_left, hj]
  rw [List.getElem?_take] at htake
  exact (Option.ite_none_right_eq_some.mp htake).2

/-- Breaks that get into no open tag are put neither right behind one nor, as line feeds, behind one
and a carriage return. -/
theorem length_ne_of_not_lengthensTag {i : Nat} {text : String} (hi : i ≤ store.size)
    (hfree : ¬ LengthensTag store i text) :
    (∀ q ∈ ((lex source).take i).getLast?, q.kind = .openTag → q.text.length ≠ 5) ∧
    (text.toList.head? = some '\n' → ∀ front q blank, (lex source).take i = front ++ [q, blank] →
      blank.text = "\r" → q.kind = .openTag → q.text.length ≠ 5) := by
  have hlength : ((lex source).take i).length = i :=
    List.length_take_of_le (size_of_build hbuild ▸ hi)
  refine ⟨fun q hq hkind hfive => ?_, fun hfeed front q blank hfront hblank hkind hfive => ?_⟩
  · obtain ⟨front, hfront⟩ := List.getLast?_eq_some_iff.mp hq
    obtain ⟨hopen, htext⟩ := openTag_of_raw hbuild (getElem?_of_take_eq hfront (j := 0) rfl) hkind
    refine hfree ⟨front.length, hopen, htext ▸ hfive, .inl ?_⟩
    rwa [hfront, List.length_append] at hlength
  · obtain ⟨hopen, htext⟩ := openTag_of_raw hbuild (getElem?_of_take_eq hfront (j := 0) rfl) hkind
    obtain ⟨_, hsame, _⟩ := settled_of_build hbuild (getElem?_of_take_eq hfront (j := 1) rfl)
    refine hfree ⟨front.length, hopen, htext ▸ hfive, .inr ⟨?_, hsame.trans hblank, hfeed⟩⟩
    rwa [hfront, List.length_append] at hlength

/-- Whitespace in front of a place goes back to the tag that opens the file at most. -/
theorem exists_concat_of_take {i : Nat} (htag : store.kind 0 = .openTag) (hi : 0 < i)
    {front blanks : List Lexeme} (h : (lex source).take i = front ++ blanks)
    (hblank : ∀ b ∈ blanks, b.kind = .whitespace) : ∃ before q, front = before ++ [q] := by
  rcases List.eq_nil_or_concat front with rfl | ⟨before, q, rfl⟩
  · obtain ⟨tag, hfirst, hopen, _⟩ := exists_split_of_build hbuild htag (by decide)
    rw [← List.getElem?_take_of_lt hi, h] at hfirst
    cases hopen.symm.trans (hblank tag (List.mem_of_getElem? hfirst))
  · exact ⟨before, q, List.concat_eq_append⟩

/-- Line breaks may be put in front of the keyword of a namespace, unless they get into an open
tag. -/
theorem keepsTokens_of_insert {i k : Nat} {newline : String}
    (hnewline : newline = "\n" ∨ newline = "\r\n") (htag : store.kind 0 = .openTag)
    (hkind : store.kind i = .kwNamespace)
    (hfree : ¬ LengthensTag store i (String.join (List.replicate (k + 1) newline))) :
    KeepsTokens store
      (store.rewrite [.insert i (String.join (List.replicate (k + 1) newline))]) := by
  have hi : i < store.size := Store.lt_size_of_kind hkind (by decide)
  have hpos : 0 < i := Nat.pos_of_ne_zero fun hzero => by cases htag.symm.trans (hzero ▸ hkind)
  obtain ⟨n, hn, hnkind, hsplit⟩ := exists_split_of_build hbuild hkind (by decide)
  have hraw := (settled_of_build hbuild hn).1
  have hword : isWord n = true := hraw.keyword (by rw [hnkind]; decide)
  have hbreaks : (String.join (List.replicate (k + 1) newline)).toList =
      letters (List.replicate (k + 1) ⟨.whitespace, newline⟩) := by
    rw [String.toList_join, letters, List.flatMap_replicate, List.flatMap_replicate]
  obtain ⟨hopen, hbehind⟩ := length_ne_of_not_lengthensTag hbuild (Nat.le_of_lt hi) hfree
  have hreturn : ∀ front q blank, (lex source).take i = front ++ [q, blank] → blank.text = "\r" →
      newline = "\n" → q.kind = .openTag → q.text.length ≠ 5 := by
    rintro front q blank hfront hblank rfl
    refine hbehind ?_ front q blank hfront hblank
    rw [hbreaks, List.replicate_succ, letters_cons]
    rfl
  obtain ⟨front, old, new, hpre, hblank, hnew⟩ := lexFrom_insert
    ((lex_eq_lexFrom source).symm.trans hsplit) hword (hraw.head_of_kwNamespace hnkind)
    (show IsBreak ⟨.whitespace, newline⟩ from ⟨rfl, hnewline⟩) hopen hreturn k
  obtain ⟨before, q, rfl⟩ := exists_concat_of_take hbuild htag hpos hpre fun b hb =>
    hblank b (List.mem_append_left _ hb)
  have hkeep (blanks : List Lexeme) (hblanks : ∀ b ∈ blanks, b.kind = .whitespace) :
      solid (settleWords (before ++ q :: (blanks ++ n :: (lex source).drop (i + 1)))) =
        solid (settleWords (before ++ q :: n :: (lex source).drop (i + 1))) := by
    refine solid_settleWords_blanks hblanks (fun _ => ?_) fun m hm _ hne => ?_
    · simp [separates, hnkind]
    · obtain rfl : n = m := Option.some.inj hm
      exact absurd hnkind hne
  have hdrop : (lex source).drop i = n :: (lex source).drop (i + 1) := by
    obtain ⟨hlt, rfl⟩ := List.getElem?_eq_some_iff.mp hn
    exact List.drop_eq_getElem_cons hlt
  have hlexNew : lex (store.rewrite [.insert i (String.join (List.replicate (k + 1) newline))]) =
      before ++ q :: (new ++ n :: (lex source).drop (i + 1)) := by
    rw [lex_eq_lexFrom, toList_rewrite_insert store hi, letters_take_lexemes hbuild,
      letters_drop_lexemes hbuild, hbreaks, hdrop, hnew]
    simp
  have hlexOld : lex source = before ++ q :: (old ++ n :: (lex source).drop (i + 1)) := by
    conv_lhs => rw [hsplit, hpre]
    simp
  rw [keepsTokens_iff hbuild, hlexNew, hkeep new fun b hb => hblank b (List.mem_append_right _ hb)]
  conv_rhs => rw [hlexOld]
  exact (hkeep old fun b hb => hblank b (List.mem_append_left _ hb)).symm

omit hbuild in
/-- Between an open tag and a `declare`, nothing but whitespace can go without loss. -/
theorem solid_settleWords_behind_tag_iff {tag n : Lexeme} {mid rest : List Lexeme}
    (hopen : tag.kind = .openTag) (hn : n.kind = .kwDeclare) :
    solid (settleWords (tag :: n :: rest)) = solid (settleWords (tag :: (mid ++ n :: rest))) ↔
      ∀ l ∈ mid, l.kind = .whitespace := by
  constructor
  · intro hsame l hl
    by_contra hsolid
    have hcount := congrArg List.length hsame
    have hpos : 0 < (solid mid).length :=
      List.length_pos_of_mem (List.mem_filter.mpr ⟨hl, by simpa using hsolid⟩)
    simp only [length_solid_settleWords, solid_cons, hopen, hn, solid_append,
      reduceCtorEq, if_false, List.length_cons, List.length_append] at hcount
    omega
  · intro hblank
    refine Eq.symm
      (@solid_settleWords_blanks [] mid (n :: rest) tag hblank (fun _ => ?_) fun m _ _ _ => ?_)
    · simp [separates, hn]
    · simp [hopen]

/-- Between the open tag of a file and a token behind it stand the lexemes that were read there. -/
theorem exists_mid_of_tag {d : Nat} (htag : store.kind 0 = .openTag) (hpos : 0 < d)
    (hd : d ≤ store.size) :
    ∃ tag mid, tag.kind = .openTag ∧ (lex source).take d = tag :: mid ∧ mid.length + 1 = d := by
  obtain ⟨tag, _, hopen, hfirst⟩ := exists_split_of_build hbuild htag (by decide)
  obtain ⟨e, rfl⟩ : ∃ e, d = e + 1 := ⟨d - 1, by omega⟩
  have hcount : ((lex source).take (e + 1)).length = e + 1 :=
    List.length_take_of_le (size_of_build hbuild ▸ hd)
  rw [List.take_zero, List.nil_append, Nat.zero_add] at hfirst
  refine ⟨tag, ((lex source).drop 1).take e, hopen, ?_, ?_⟩
  · conv_lhs => rw [hfirst, List.take_succ_cons]
  · rw [hfirst, List.take_succ_cons, List.length_cons] at hcount
    exact hcount

/-- Whatever stands between the open tag and a `declare`, the rest is read as before without it, so
no token is lost exactly if it was whitespace. -/
theorem keepsTokens_behind_tag_iff {c : Changeset} {d : Nat} (hdelete : ∀ e ∈ c, e.change = .delete)
    (htag : store.kind 0 = .openTag) (hkind : store.kind d = .kwDeclare)
    (hgone : ∀ k, c.deletes k = true ↔ 0 < k ∧ k < d) :
    KeepsTokens store (store.rewrite c) ↔ ∀ k, 0 < k → k < d → store.kind k = .whitespace := by
  have hd : d < store.size := Store.lt_size_of_kind hkind (by decide)
  have hpos : 0 < d := Nat.pos_of_ne_zero fun hzero => by cases htag.symm.trans (hzero ▸ hkind)
  obtain ⟨n, hn, hnkind, hsplit⟩ := exists_split_of_build hbuild hkind (by decide)
  have hword : isWord n = true := (settled_of_build hbuild hn).1.keyword (by rw [hnkind]; decide)
  obtain ⟨tag, mid, hopen, hmid, hlength⟩ := exists_mid_of_tag hbuild htag hpos (Nat.le_of_lt hd)
  generalize (lex source).drop (d + 1) = rest at hsplit
  rw [hmid, List.cons_append] at hsplit
  have hkept : keep c.deletes 0 (lex source) = tag :: n :: rest := by
    rw [hsplit]
    exact keep_between (hlength ▸ hgone)
  have hlexNew : lex (store.rewrite c) = tag :: n :: rest := by
    rw [lex_eq_lexFrom, toList_rewrite_deletes hdelete, lexemes_of_build? hbuild,
      letters_congr (map_text_keep (map_text_settleWords (lex source)) 0), hkept]
    exact reread_behind_tag ((lex_eq_lexFrom source).symm.trans hsplit) hopen hword
  have hget {j : Nat} (hj : j < mid.length) : (lex source)[j + 1]? = some mid[j] := by
    rw [hsplit, List.getElem?_cons_succ, List.getElem?_append_left hj, List.getElem?_eq_getElem hj]
  rw [keepsTokens_iff hbuild, hlexNew, hsplit, solid_settleWords_behind_tag_iff hopen hnkind]
  constructor
  · intro hblank k hk hkd
    obtain ⟨j, rfl⟩ : ∃ j, k = j + 1 := ⟨k - 1, by omega⟩
    have hj : j < mid.length := by omega
    have hkind := hblank mid[j] (List.getElem_mem hj)
    exact (kind_of_raw hbuild (hget hj) (by simp [isWord, hkind, Kind.isTrivia])).trans hkind
  · intro hblank l hl
    obtain ⟨j, hj, rfl⟩ := List.mem_iff_getElem.mp hl
    have hkind := hblank (j + 1) (by omega) (by omega)
    exact (raw_kind_of_build hbuild (hget hj) (by rw [hkind]; decide)).trans hkind

end

end Php

end PhpStyle
