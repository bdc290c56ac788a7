import PhpStyle.Proofs.Edit.Visible

/-!
# Edits that move braces

A brace moves if one edit takes it away and another puts it behind some token. If it moves back over
nothing but whitespace and comments, the code spells the same characters: read from left to right, a
brace is due from where it is put up to where it stood, and what is read in between is no code. If
it moves on behind a parenthesis, the last character that differs tells.
-/

namespace PhpStyle

open Text (isBlank visible)

namespace Store

/-- The text of a token, named by its index, when edits are made. -/
def rewritten (s : Store) (edits : List Edit) (i : Nat) : String :=
  rewriteToken edits (s.token i, i)

/-- The tokens that are no comments. -/
def codeTokens (s : Store) : List Nat :=
  (List.range s.size).filter fun i => !(s.kind i).isComment

/-- What a token adds to the visible characters of the code when edits are made. -/
def codeAt (s : Store) (edits : List Edit) (i : Nat) : List Char :=
  if (s.kind i).isComment then [] else visible (s.rewritten edits i)

/-- The tokens of a store with their positions. -/
theorem zipIdx_tokens (s : Store) :
    s.tokens.toList.zipIdx = (List.range s.size).map fun i => (s.token i, i) := by
  refine List.ext_getElem (by simp [size]) fun i hi _ => ?_
  have hsize : i < s.tokens.size := by simpa using hi
  simp [token, hsize]

/-- A rewritten text is made of the tokens as they are rewritten. -/
theorem rewrite_eq_join (s : Store) (edits : List Edit) :
    s.rewrite edits = String.join ((List.range s.size).map (s.rewritten edits)) := by
  rw [rewrite, zipIdx_tokens, List.map_map]
  rfl

/-- A token that is edited once is rewritten as its edit has it. -/
theorem rewritten_of_mem {s : Store} {edits : List Edit} (hnodup : (edits.map (·.target)).Nodup)
    {e : Edit} (he : e ∈ edits) : s.rewritten edits e.target = e.result s := by
  rw [rewritten, rewriteToken, (find?_target_eq_some_iff hnodup).mpr ⟨he, rfl⟩]
  rfl

/-- A token that is not edited is as it was. -/
theorem rewritten_of_forall_ne {s : Store} {edits : List Edit} {i : Nat}
    (h : ∀ e ∈ edits, e.target ≠ i) : s.rewritten edits i = s.text i := by
  have hfind : edits.find? (·.target == i) = none := by
    rw [List.find?_eq_none]
    intro e he
    simpa using h e he
  rw [rewritten, rewriteToken, hfind]
  rfl

/-- The visible characters of the code are those that the tokens add. -/
theorem visible_join_codeTokens (s : Store) (edits : List Edit) :
    visible (String.join (s.codeTokens.map (s.rewritten edits))) =
      (List.range s.size).flatMap (s.codeAt edits) := by
  rw [Text.visible_join, List.flatMap_map, codeTokens]
  generalize List.range s.size = tokens
  induction tokens with
  | nil => rfl
  | cons i tokens ih =>
    rw [List.filter_cons, List.flatMap_cons, ← ih, codeAt]
    cases (s.kind i).isComment <;> simp

/-- Whitespace and comments add nothing to the code. -/
theorem codeAt_of_isTrivia {s : Store} (hs : Php.Sound s) {i : Nat}
    (hi : (s.kind i).isTrivia = true) : s.codeAt [] i = [] := by
  rw [codeAt]
  split
  · rfl
  · rename_i hcomment
    have hkind : s.kind i = .whitespace := by simpa [Kind.isTrivia, hcomment] using hi
    exact Text.visible_eq_nil_iff.mpr (hs.isBlank_of_whitespace hkind)

/-- A visible character outside comments adds itself. -/
theorem codeAt_of_toList {s : Store} {i : Nat} {c : Char} (hcode : (s.kind i).isComment = false)
    (htext : (s.text i).toList = [c]) (hc : Text.isSpace c = false) : s.codeAt [] i = [c] := by
  have htext : (s.rewritten [] i).toList = [c] := htext
  simp [codeAt, hcode, visible, htext, hc]

end Store

/-- Edits that lose neither code nor comment: every comment stands where it stood with blanks beside
it at most, and all other tokens spell the same visible characters in the same order. -/
structure KeepsCode (s : Store) (edits : List Edit) : Prop where
  comments : ∀ i, (s.kind i).isComment = true → ∃ before behind,
    isBlank before = true ∧ isBlank behind = true ∧
    s.rewritten edits i = before ++ s.text i ++ behind
  code : visible (String.join (s.codeTokens.map (s.rewritten edits))) =
    visible (String.join (s.codeTokens.map s.text))

/-- Edits that keep the code leave the visible characters of all tokens of code together as they
were. -/
theorem KeepsCode.codeAt_eq {s : Store} {edits : List Edit} (h : KeepsCode s edits) :
    (List.range s.size).flatMap (s.codeAt edits) = (List.range s.size).flatMap (s.codeAt []) := by
  rw [← s.visible_join_codeTokens, ← s.visible_join_codeTokens]
  exact h.code

/-- What comments and code add, of all tokens, are the visible characters of the text. -/
theorem Store.visible_rewrite_perm (s : Store) (edits : List Edit) :
    (visible (s.rewrite edits)).Perm
      ((List.range s.size).flatMap
        (fun i => if (s.kind i).isComment then visible (s.rewritten edits i)
        else []) ++ (List.range s.size).flatMap (s.codeAt edits)) := by
  refine .trans (.of_eq ?_) (List.flatMap_append_perm _ _ _).symm
  rw [s.rewrite_eq_join, Text.visible_join, List.flatMap_map]
  refine List.flatMap_congr fun i _ => ?_
  rw [codeAt]
  split <;> simp

/-- Edits that keep the code leave every visible character somewhere. -/
theorem KeepsCode.visible_perm {s : Store} (hs : Php.Sound s) {edits : List Edit}
    (h : KeepsCode s edits) : (visible (s.rewrite edits)).Perm (visible s.source) := by
  have hcomments : (fun i => if (s.kind i).isComment then visible (s.rewritten edits i) else []) =
      fun i => if (s.kind i).isComment then visible (s.rewritten [] i) else [] := by
    funext i
    split
    · rename_i hcomment
      obtain ⟨before, behind, hbefore, hbehind, htext⟩ := h.comments i hcomment
      rw [htext, Text.visible_append, Text.visible_append, Text.visible_eq_nil_iff.mpr hbefore,
        Text.visible_eq_nil_iff.mpr hbehind, List.nil_append, List.append_nil]
      rfl
    · rfl
  refine (s.visible_rewrite_perm edits).trans ?_
  rw [← Store.rewrite_nil hs, hcomments, h.codeAt_eq]
  exact (s.visible_rewrite_perm []).symm

/-- Edits that are of layout, that move braces, or that clear tokens with blanks. A move is named by
the token behind which a brace is put and by the brace. -/
structure Rearranges (s : Store) (edits : List Edit) (Moves : Nat → Nat → Prop)
    (Clears : Nat → Prop) : Prop where
  /-- No token has two edits. -/
  nodup : (edits.map (·.target)).Nodup
  /-- There are no edits but these. -/
  cases : ∀ e ∈ edits, e.IsLayout s ∨ (∃ q b, Moves q b ∧ e = .append q " \x7b") ∨
    (∃ q b, Moves q b ∧ e = .replace b "") ∨
    ∃ k blank, Clears k ∧ isBlank blank = true ∧ e = .replace k blank
  put : ∀ q b, Moves q b → Edit.append q " \x7b" ∈ edits
  take : ∀ q b, Moves q b → Edit.replace b "" ∈ edits
  clear : ∀ k, Clears k → ∃ blank, isBlank blank = true ∧ Edit.replace k blank ∈ edits
  /-- What is cleared is a comment that shows, or a token that starts with a quote. -/
  shown : ∀ k, Clears k →
    (s.kind k).isComment = true ∧ visible (s.text k) ≠ [] ∨ (s.kind k).isWrapping = true
  brace : ∀ q b, Moves q b → s.kind b = .openCurly
  code : ∀ q b, Moves q b → (s.kind q).isTrivia = false
  /-- Back, a brace passes nothing but whitespace and comments. -/
  back : ∀ q b, Moves q b → ∀ k, q < k → k < b → (s.kind k).isTrivia = true
  /-- On, it goes to a closing parenthesis. -/
  onward : ∀ q b, Moves q b → b < q → s.kind q = .closeParen
  one_brace : ∀ q b b', Moves q b → Moves q b' → b = b'

open Classical in
/-- What is due in front of a token: a brace, if one has been put behind an earlier token and stood
at this one or further on. -/
noncomputable def due (Moves : Nat → Nat → Prop) (i : Nat) : List Char :=
  if ∃ q b, Moves q b ∧ q < i ∧ i ≤ b then ['\x7b'] else []

/-- A brace is due between the place it is moved to and the one it is taken from. -/
theorem due_of_move {Moves : Nat → Nat → Prop} {i q b : Nat} (h : Moves q b) (hq : q < i)
    (hb : i ≤ b) : due Moves i = ['\x7b'] :=
  if_pos ⟨q, b, h, hq, hb⟩

/-- No brace is due where none is moved over. -/
theorem due_eq_nil {Moves : Nat → Nat → Prop} {i : Nat} (h : ∀ q b, Moves q b → q < i → b < i) :
    due Moves i = [] := by
  refine if_neg ?_
  rintro ⟨q, b, hmove, hq, hb⟩
  exact absurd (h q b hmove hq) (by omega)

/-- The numbers below another are those in front of one, that one and those behind it. -/
theorem range_eq_append_cons {q n : Nat} (hq : q < n) :
    List.range n = List.range q ++ q :: List.range' (q + 1) (n - (q + 1)) := by
  have happend := List.range'_append_1 (s := 0) (m := q) (n := n - (q + 1) + 1)
  rw [Nat.zero_add, show q + (n - (q + 1) + 1) = n by omega] at happend
  rw [List.range_eq_range', List.range_eq_range', ← List.range'_succ, happend]

namespace Rearranges

variable {s : Store} {edits : List Edit} {Moves : Nat → Nat → Prop} {Clears : Nat → Prop}

section

variable (h : Rearranges s edits Moves Clears)

include h

/-- No brace is taken from behind where another is put. -/
theorem put_ne_take {q b q' b' : Nat} (hput : Moves q b) (htake : Moves q' b') : q ≠ b' := by
  rintro rfl
  have heq := List.inj_on_of_nodup_map h.nodup (h.put q b hput) (h.take q' q htake) rfl
  cases heq

/-- At the token that a brace is put behind, the brace is added. -/
theorem codeAt_put {q b : Nat} (hmove : Moves q b) :
    s.codeAt edits q = s.codeAt [] q ++ ['\x7b'] := by
  have hcomment : (s.kind q).isComment = false := (Bool.or_eq_false_iff.mp (h.code q b hmove)).2
  have hresult := Store.rewritten_of_mem (s := s) h.nodup (h.put q b hmove)
  simp only [Store.codeAt, hcomment, Bool.false_eq_true, if_false]
  rw [show s.rewritten edits q = s.text q ++ " \x7b" from hresult, Text.visible_append]
  rfl

/-- At a brace that is taken away nothing is left. -/
theorem codeAt_take {q b : Nat} (hmove : Moves q b) : s.codeAt edits b = [] := by
  have hresult := Store.rewritten_of_mem (s := s) h.nodup (h.take q b hmove)
  rw [Store.codeAt, show s.rewritten edits b = "" from hresult, Text.visible_empty, ite_self]

/-- At whitespace that is cleared nothing is left. -/
theorem codeAt_clear {k : Nat} (hclear : Clears k) : s.codeAt edits k = [] := by
  obtain ⟨blank, hblank, hmem⟩ := h.clear k hclear
  have hresult := Store.rewritten_of_mem (s := s) h.nodup hmem
  rw [Store.codeAt, show s.rewritten edits k = blank from hresult,
    Text.visible_eq_nil_iff.mpr hblank, ite_self]

/-- A comment that is not cleared stands where it stood. -/
theorem comment_kept {i : Nat} (hcomment : (s.kind i).isComment = true) (hclear : ¬ Clears i) :
    ∃ before behind, isBlank before = true ∧ isBlank behind = true ∧
      s.rewritten edits i = before ++ s.text i ++ behind := by
  by_cases hedit : ∃ e ∈ edits, e.target = i
  · obtain ⟨e, he, rfl⟩ := hedit
    rw [Store.rewritten_of_mem h.nodup he]
    have hblank : s.kind e.target ≠ .whitespace :=
      fun hkind => by rw [hkind] at hcomment; cases hcomment
    rcases h.cases e he with
      hlayout | ⟨q, b, hmove, rfl⟩ | ⟨q, b, hmove, rfl⟩ | ⟨k, _, hcleared, _, rfl⟩
    · obtain ⟨i, change⟩ := e
      cases change with
      | insert text => exact ⟨text, "", hlayout, rfl, by simp [Edit.result, Change.applyTo]⟩
      | append text => exact ⟨"", text, rfl, hlayout, by simp [Edit.result, Change.applyTo]⟩
      | replace text => exact absurd hlayout.1 hblank
      | delete => exact absurd hlayout hblank
    · have hcode := (Bool.or_eq_false_iff.mp (h.code q b hmove)).2
      exact absurd (hcomment.symm.trans hcode) (by decide)
    · change (s.kind b).isComment = true at hcomment
      rw [h.brace q b hmove] at hcomment
      cases hcomment
    · exact absurd hcleared hclear
  · rw [Store.rewritten_of_forall_ne fun e he htarget => hedit ⟨e, he, htarget⟩]
    exact ⟨"", "", rfl, rfl, by simp⟩

/-- A comment that shows is not in its place when it is cleared. -/
theorem not_clears_comment (hkeeps : KeepsCode s edits) {k : Nat}
    (hcomment : (s.kind k).isComment = true) (hshown : visible (s.text k) ≠ []) : ¬ Clears k := by
  intro hclear
  obtain ⟨before, behind, _, _, htext⟩ := hkeeps.comments k hcomment
  obtain ⟨blank, hblank, hmem⟩ := h.clear k hclear
  rw [show s.rewritten edits k = blank from Store.rewritten_of_mem (s := s) h.nodup hmem] at htext
  have hvisible := congrArg visible htext
  rw [Text.visible_eq_nil_iff.mpr hblank, Text.visible_append, Text.visible_append] at hvisible
  have hnil := (List.append_eq_nil_iff.mp hvisible.symm).1
  exact hshown (List.append_eq_nil_iff.mp hnil).2

/-- At the end of the file no brace is due. -/
theorem due_size : due Moves s.size = [] :=
  due_eq_nil fun q b hmove _ => Store.lt_size_of_kind (h.brace q b hmove) (by decide)

/-- Behind a token behind which a brace is put, the brace is due. -/
theorem due_append_codeAt_put {q b : Nat} (hmove : Moves q b) (hback : q < b) :
    due Moves q ++ s.codeAt edits q = s.codeAt [] q ++ due Moves (q + 1) := by
  have hnone : due Moves q = [] := by
    refine due_eq_nil fun q' b' hmove' hq' => ?_
    by_contra hb'
    have hne := h.put_ne_take hmove hmove'
    have htrivia := h.back q' b' hmove' q hq' (by omega)
    simp [h.code q b hmove] at htrivia
  rw [hnone, h.codeAt_put hmove, due_of_move hmove (Nat.lt_succ_self q) hback, List.nil_append]

end

section

variable (hs : Php.Sound s) (h : Rearranges s edits Moves Clears)

include hs h

/-- A token that no move and no clearing touches adds to the code what it added. -/
theorem codeAt_other {i : Nat} (hput : ∀ b, ¬ Moves i b) (htake : ∀ q, ¬ Moves q i)
    (hclear : ¬ Clears i) : s.codeAt edits i = s.codeAt [] i := by
  have hvisible : visible (s.rewritten edits i) = visible (s.text i) := by
    by_cases hedit : ∃ e ∈ edits, e.target = i
    · obtain ⟨e, he, rfl⟩ := hedit
      rw [Store.rewritten_of_mem h.nodup he]
      rcases h.cases e he with
        hlayout | ⟨q, b, hmove, rfl⟩ | ⟨q, b, hmove, rfl⟩ | ⟨k, _, hcleared, _, rfl⟩
      · exact hlayout.keeps hs
      · exact absurd hmove (hput b)
      · exact absurd hmove (htake q)
      · exact absurd hcleared hclear
    · rw [Store.rewritten_of_forall_ne fun e he htarget => hedit ⟨e, he, htarget⟩]
  rw [Store.codeAt, Store.codeAt, hvisible]
  rfl

/-- Leaving braces aside, no token adds a character to the code that it did not add. -/
theorem filter_codeAt_sublist (i : Nat) :
    ((s.codeAt edits i).filter (· != '\x7b')).Sublist ((s.codeAt [] i).filter (· != '\x7b')) := by
  by_cases hput : ∃ b, Moves i b
  · obtain ⟨b, hmove⟩ := hput
    rw [h.codeAt_put hmove, List.filter_append, show ['\x7b'].filter (· != '\x7b') = [] from rfl,
      List.append_nil]
  by_cases htake : ∃ q, Moves q i
  · obtain ⟨q, hmove⟩ := htake
    rw [h.codeAt_take hmove]
    exact List.nil_sublist _
  by_cases hclear : Clears i
  · rw [h.codeAt_clear hclear]
    exact List.nil_sublist _
  · rw [h.codeAt_other hs (fun b hmove => hput ⟨b, hmove⟩) (fun q hmove => htake ⟨q, hmove⟩) hclear]

/-- A token that starts with a quote has a character that no move of a brace brings back. -/
theorem not_clears_quoted (hkeeps : KeepsCode s edits) {k : Nat}
    (hwraps : (s.kind k).isWrapping = true) : ¬ Clears k := by
  intro hclear
  have hall := congrArg (List.filter (· != '\x7b')) hkeeps.codeAt_eq
  rw [List.filter_flatMap, List.filter_flatMap,
    flatMap_eq_iff_of_sublist fun i _ => h.filter_codeAt_sublist hs i] at hall
  have hnil := hall k (List.mem_range.mpr (Store.lt_size_of_isWrapping hwraps))
  have hcomment : (s.kind k).isComment = false := by
    revert hwraps
    cases s.kind k <;> simp [Kind.isWrapping, Kind.isComment]
  rw [h.codeAt_clear hclear, Store.codeAt, hcomment] at hnil
  obtain ⟨c, rest, htext, hquote⟩ := (hs.shapes k).quoted hwraps
  obtain ⟨hspace, _, hbrace⟩ := Php.quote_spec hquote
  have hmem : c ∈ (visible (s.text k)).filter (· != '\x7b') := by
    rw [visible, htext]
    simp [hspace, hbrace]
  rw [show (visible (s.text k)).filter (· != '\x7b') = [] from hnil.symm] at hmem
  cases hmem

/-- Edits that keep the code clear nothing. -/
theorem not_clears_of_keepsCode (hkeeps : KeepsCode s edits) (k : Nat) : ¬ Clears k := by
  intro hclear
  rcases h.shown k hclear with ⟨hcomment, hshown⟩ | hwraps
  · exact h.not_clears_comment hkeeps hcomment hshown hclear
  · exact h.not_clears_quoted hs hkeeps hwraps hclear

/-- Behind a brace that is taken, no brace is due. -/
theorem due_append_codeAt_take {q b : Nat} (hmove : Moves q b) (hback : q < b) :
    due Moves b ++ s.codeAt edits b = s.codeAt [] b ++ due Moves (b + 1) := by
  have hbrace := h.brace q b hmove
  have hnone : due Moves (b + 1) = [] := by
    refine due_eq_nil fun q' b' hmove' hq' => ?_
    by_contra hb'
    have hne := h.put_ne_take hmove' hmove
    have htrivia := h.back q' b' hmove' b (by omega) (by omega)
    simp [hbrace, Kind.isTrivia, Kind.isComment] at htrivia
  have hself : s.codeAt [] b = ['\x7b'] :=
    Store.codeAt_of_toList (by rw [hbrace]; rfl) ((hs.shapes b).openCurly hbrace) rfl
  rw [hnone, h.codeAt_take hmove, hself, due_of_move hmove hback (Nat.le_refl b)]

/-- Over a token that no move touches, what is due stays due, and the token is no code if a brace
is. -/
theorem due_append_codeAt_other {i : Nat} (hput : ∀ b, ¬ Moves i b) (htake : ∀ q, ¬ Moves q i)
    (hclear : ¬ Clears i) :
    due Moves i ++ s.codeAt edits i = s.codeAt [] i ++ due Moves (i + 1) := by
  rw [h.codeAt_other hs hput htake hclear]
  by_cases hover : ∃ q b, Moves q b ∧ q < i ∧ i < b
  · obtain ⟨q, b, hmove, hq, hb⟩ := hover
    rw [Store.codeAt_of_isTrivia hs (h.back q b hmove i hq hb),
      due_of_move hmove hq (Nat.le_of_lt hb), due_of_move hmove (Nat.lt_succ_of_lt hq) hb,
      List.append_nil, List.nil_append]
  · have hbefore : due Moves i = [] := by
      refine due_eq_nil fun q b hmove hq => ?_
      by_contra hb
      have hne : b ≠ i := fun heq => htake q (heq ▸ hmove)
      exact hover ⟨q, b, hmove, hq, by omega⟩
    have hbehind : due Moves (i + 1) = [] := by
      refine due_eq_nil fun q b hmove hq => ?_
      by_contra hb
      have hne : q ≠ i := fun heq => hput b (heq ▸ hmove)
      exact hover ⟨q, b, hmove, by omega, by omega⟩
    rw [hbefore, hbehind, List.nil_append, List.append_nil]

/-- Reading one token on: with what is due before it, it adds to the code what it added, with what
is due behind it. -/
theorem due_append_codeAt {i : Nat} (hclear : ¬ Clears i) (hput : ∀ b, Moves i b → i < b)
    (htake : ∀ q, Moves q i → q < i) :
    due Moves i ++ s.codeAt edits i = s.codeAt [] i ++ due Moves (i + 1) := by
  by_cases hputs : ∃ b, Moves i b
  · obtain ⟨b, hmove⟩ := hputs
    exact h.due_append_codeAt_put hmove (hput b hmove)
  by_cases htakes : ∃ q, Moves q i
  · obtain ⟨q, hmove⟩ := htakes
    exact h.due_append_codeAt_take hs hmove (htake q hmove)
  · exact h.due_append_codeAt_other hs (fun b hmove => hputs ⟨b, hmove⟩)
      (fun q hmove => htakes ⟨q, hmove⟩) hclear

/-- Reading a stretch in which nothing is cleared and braces go back only. -/
theorem due_append_flatMap_codeAt {i n : Nat} (hin : i ≤ n) (hclear : ∀ k, ¬ Clears k)
    (hmoves : ∀ q b, Moves q b → i ≤ q ∨ i ≤ b → q < b) :
    due Moves i ++ (List.range' i (n - i)).flatMap (s.codeAt edits) =
      (List.range' i (n - i)).flatMap (s.codeAt []) ++ due Moves n := by
  induction n, hin using Nat.le_induction with
  | base => simp
  | succ n hn ih =>
    have hstep := h.due_append_codeAt hs (hclear n)
      (fun b hmove => hmoves n b hmove (.inl hn))
      (fun q hmove => hmoves q n hmove (.inr hn))
    have hrange : List.range' i (n + 1 - i) = List.range' i (n - i) ++ [n] := by
      rw [Nat.succ_sub hn, List.range'_concat]
      congr 2
      omega
    rw [hrange, List.flatMap_append, List.flatMap_append, ← List.append_assoc, ih]
    simp only [List.flatMap_singleton, List.append_assoc, hstep]

/-- If every brace that is put or stood further on goes back, then so does this one: what follows
the parenthesis behind which it would be put is the same, but it ends in a brace instead of the
parenthesis. -/
theorem back_of_later_back (hkeeps : KeepsCode s edits) (hclear : ∀ k, ¬ Clears k) {q b : Nat}
    (hmove : Moves q b) (hlater : ∀ q' b', Moves q' b' → q < q' ∨ q < b' → q' < b') : q < b := by
  by_contra hge
  have hne := h.put_ne_take hmove hmove
  have hparen := h.onward q b hmove (by omega)
  have hq : q < s.size := Store.lt_size_of_kind hparen (by decide)
  have hnone : due Moves (q + 1) = [] := by
    refine due_eq_nil fun q' b' hmove' hq' => ?_
    by_contra hb'
    rcases Nat.eq_or_lt_of_le (Nat.le_of_lt_succ hq') with rfl | hlt
    · have hsame := h.one_brace q' b b' hmove hmove'
      omega
    · exact absurd (h.back q' b' hmove' q hlt (by omega)) (by simp [h.code q b hmove])
  have hrest := h.due_append_flatMap_codeAt hs hq hclear hlater
  rw [hnone, h.due_size, List.nil_append, List.append_nil] at hrest
  have hcode := hkeeps.codeAt_eq
  rw [range_eq_append_cons hq] at hcode
  simp only [List.flatMap_append, List.flatMap_cons, hrest, ← List.append_assoc] at hcode
  have hlast := congrArg List.getLast? (List.append_cancel_right hcode)
  have hself : s.codeAt [] q = [')'] :=
    Store.codeAt_of_toList (by rw [hparen]; rfl) ((hs.shapes q).closeParen hparen) rfl
  rw [h.codeAt_put hmove, hself, ← List.append_assoc, List.getLast?_concat, List.getLast?_concat]
    at hlast
  cases hlast

/-- Edits that keep the code move no brace on. -/
theorem back_of_keepsCode (hkeeps : KeepsCode s edits) {q b : Nat} (hmove : Moves q b) : q < b := by
  have hclear := h.not_clears_of_keepsCode hs hkeeps
  -- From the end of the file: of the braces that move on, look at the one that is put last.
  induction hd : s.size - q using Nat.strong_induction_on generalizing q b with
  | _ d ih =>
    refine h.back_of_later_back hs hkeeps hclear hmove fun q' b' hmove' hafter => ?_
    by_contra hge
    have hne := h.put_ne_take hmove' hmove'
    have hparen := h.onward q' b' hmove' (by omega)
    have hq' : q' < s.size := Store.lt_size_of_kind hparen (by decide)
    exact hge (ih (s.size - q') (by omega) hmove' rfl)

/-- Such edits keep the code exactly if every brace moves back and nothing is cleared. -/
theorem keepsCode_iff :
    KeepsCode s edits ↔ (∀ q b, Moves q b → q < b) ∧ ∀ k, ¬ Clears k := by
  constructor
  · exact fun hkeeps =>
      ⟨fun _ _ => h.back_of_keepsCode hs hkeeps, h.not_clears_of_keepsCode hs hkeeps⟩
  · rintro ⟨hback, hclear⟩
    refine ⟨fun i hcomment => h.comment_kept hcomment (hclear i), ?_⟩
    have hall := h.due_append_flatMap_codeAt hs (Nat.zero_le s.size) hclear
      fun q b hmove _ => hback q b hmove
    have hstart : due Moves 0 = [] := due_eq_nil fun q b _ hq => absurd hq (Nat.not_lt_zero q)
    rw [hstart, h.due_size, List.nil_append, List.append_nil, Nat.sub_zero,
      ← List.range_eq_range'] at hall
    rw [s.visible_join_codeTokens, hall, ← s.visible_join_codeTokens]
    rfl

end

end Rearranges

end PhpStyle
