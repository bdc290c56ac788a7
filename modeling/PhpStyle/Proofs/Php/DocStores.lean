import PhpStyle.Proofs.Php.DocBodies
import PhpStyle.Proofs.Php.Retokenizing
import PhpStyle.Proofs.Php.Returns

/-!
# Documentation comments in a store

The tokens between the tags of a closed comment are a body that can be read, and they are lexemes of
the text. The other way round, what a text holds between two such tags is a closed comment of its
store.
-/

namespace PhpStyle.Php

/-- The opening and the closing tag of a comment are paired. -/
theorem mem_pairComments_of_body {front body behind : List (Kind × Nat)} {i j : Nat}
    (hbody : ∀ x ∈ body, x.1 ≠ .docOpen ∧ x.1 ≠ .docClose) (start : Option Nat) :
    (i, j) ∈ pairComments start (front ++ (.docOpen, i) :: (body ++ (.docClose, j) :: behind)) := by
  have hinside (start : Option Nat) : pairComments start (body ++ (.docClose, j) :: behind) =
      pairComments start ((.docClose, j) :: behind) := by
    induction body with
    | nil => rfl
    | cons x body ih =>
      obtain ⟨⟨hopen, hclose⟩, hbody⟩ := List.forall_mem_cons.mp hbody
      rw [List.cons_append, pairComments, ih hbody]
      · exact fun i heq => hopen (congrArg Prod.fst heq)
      · exact fun i heq => hclose (congrArg Prod.fst heq)
  generalize hall : front ++ (.docOpen, i) :: (body ++ (.docClose, j) :: behind) = all
  fun_induction pairComments start all generalizing front with
  | case1 => simp at hall
  | case2 start k rest ih =>
    cases front with
    | nil =>
      obtain ⟨heq, rfl⟩ := List.cons_eq_cons.mp hall
      obtain rfl := (Prod.mk.inj heq).2
      rw [hinside, pairComments]
      exact List.mem_cons_self
    | cons x front => exact ih (List.cons_eq_cons.mp hall).2
  | case3 k rest opener ih =>
    cases front with
    | nil => cases congrArg Prod.fst (List.cons_eq_cons.mp hall).1
    | cons x front => exact List.mem_cons_of_mem _ (ih (List.cons_eq_cons.mp hall).2)
  | case4 k rest ih =>
    cases front with
    | nil => cases congrArg Prod.fst (List.cons_eq_cons.mp hall).1
    | cons x front => exact ih (List.cons_eq_cons.mp hall).2
  | case5 start x rest hopen _ ih =>
    cases front with
    | nil => exact absurd (List.cons_eq_cons.mp hall).1.symm (hopen i)
    | cons y front => exact ih (List.cons_eq_cons.mp hall).2

/-- Tags of a documentation comment are paired if no other tag stands between them. -/
theorem mem_pairComments_of_getElem? {kinds : List Kind} {i j : Nat}
    (hi : kinds[i]? = some .docOpen) (hij : i < j) (hj : kinds[j]? = some .docClose)
    (hbetween : ∀ k, i < k → k < j → ∀ kind ∈ kinds[k]?, kind ≠ .docOpen ∧ kind ≠ .docClose) :
    (i, j) ∈ pairComments none kinds.zipIdx := by
  have hget {k : Nat} {kind : Kind} (h : kinds[k]? = some kind) :
      kinds.zipIdx.drop k = (kind, k) :: kinds.zipIdx.drop (k + 1) := by
    obtain ⟨hk, rfl⟩ := List.getElem?_eq_some_iff.mp h
    rw [List.drop_eq_getElem_cons (by simpa using hk), List.getElem_zipIdx, Nat.zero_add]
  rw [← List.take_append_drop i kinds.zipIdx, hget hi,
    ← List.take_append_drop (j - (i + 1)) (kinds.zipIdx.drop (i + 1)), List.drop_drop,
    Nat.add_sub_cancel' hij, hget hj]
  refine mem_pairComments_of_body (fun x hx => ?_) none
  obtain ⟨m, hm, rfl⟩ := List.mem_iff_getElem.mp hx
  rw [List.length_take] at hm
  rw [List.getElem_take, List.getElem_drop, List.getElem_zipIdx]
  have hk : i + 1 + m < kinds.length := by
    rw [List.length_drop, List.length_zipIdx] at hm
    omega
  exact hbetween (i + 1 + m) (by omega) (by omega) _ (List.getElem?_eq_getElem hk)

end PhpStyle.Php

namespace PhpStyle

namespace Store

/-- The tokens from one up to another, as lexemes. -/
def slice (s : Store) (i j : Nat) : List Lexeme := (List.range' i (j - i)).map fun k =>
    ⟨s.kind k, s.text k⟩

variable {s : Store} {i j k : Nat}

/-- A slice of no tokens is empty. -/
theorem slice_self (s : Store) (i : Nat) : s.slice i i = [] := by simp [slice]

/-- A slice starts with its first token. -/
theorem slice_cons (hij : i < j) : s.slice i j = ⟨s.kind i, s.text i⟩ :: s.slice (i + 1) j := by
  rw [slice, slice, show j - i = (j - (i + 1)) + 1 by omega, List.range'_succ, List.map_cons]

/-- A slice is made of two that meet. -/
theorem slice_append (hij : i ≤ j) (hjk : j ≤ k) : s.slice i j ++ s.slice j k = s.slice i k := by
  rw [slice, slice, slice, ← List.map_append]
  have hrange := List.range'_append_1 (s := i) (m := j - i) (n := k - j)
  rw [Nat.add_sub_cancel' hij] at hrange
  rw [hrange, show j - i + (k - j) = k - i by omega]

/-- A stretch is parted at each of its tokens. -/
theorem slice_split (s : Store) (hij : i ≤ j) (hjk : j < k) :
    s.slice i k = s.slice i j ++ ⟨s.kind j, s.text j⟩ :: s.slice (j + 1) k := by
  rw [← slice_cons hjk, slice_append hij (Nat.le_of_lt hjk)]

/-- A slice of one token has that token. -/
theorem slice_singleton (s : Store) (i : Nat) : s.slice i (i + 1) = [⟨s.kind i, s.text i⟩] := by
  rw [slice_cons (Nat.lt_succ_self i), slice_self]

/-- A slice has as many lexemes as tokens. -/
theorem length_slice (s : Store) (i j : Nat) : (s.slice i j).length = j - i := by simp [slice]

/-- The lexemes of a slice are those of its tokens. -/
theorem mem_slice {l : Lexeme} :
    l ∈ s.slice i j ↔ ∃ k, i ≤ k ∧ k < j ∧ l = ⟨s.kind k, s.text k⟩ := by
  simp only [slice, List.mem_map, List.mem_range'_1]
  constructor
  · rintro ⟨k, hk, rfl⟩
    exact ⟨k, by omega, by omega, rfl⟩
  · rintro ⟨k, hik, hkj, rfl⟩
    exact ⟨k, by omega, rfl⟩

end Store

namespace Php

section

variable {source : String} {store : Store}
  (hbuild : Store.build? (settleWords (lex source)) (outline (settleWords (lex source))) =
    .ok store)

include hbuild

/-- Tokens that are no words stand in the text as they are. -/
theorem drop_lex_of_build {i j : Nat} (hij : i ≤ j) (hj : j ≤ store.size)
    (hkinds : ∀ k, i ≤ k → k < j → store.kind k ∉ [Kind.identifier, .closure, .anonClass]) :
    (lex source).drop i = store.slice i j ++ (lex source).drop j := by
  induction j, hij using Nat.le_induction with
  | base => rw [Store.slice_self, List.nil_append]
  | succ j hij ih =>
    have hlt : j < (lex source).length := size_of_build hbuild ▸ hj
    have hget : (lex source)[j]? = some (lex source)[j] := List.getElem?_eq_getElem hlt
    have hsame : (lex source)[j] = ⟨store.kind j, store.text j⟩ := by
      rw [← raw_kind_of_build hbuild hget (hkinds j hij (Nat.lt_succ_self j)),
        (settled_of_build hbuild hget).2.1]
    rw [ih (Nat.le_of_succ_le hj) fun k hik hkj => hkinds k hik (Nat.lt_succ_of_lt hkj),
      ← Store.slice_append hij (Nat.le_succ j), Store.slice_singleton, ← hsame, List.append_assoc,
      List.singleton_append, ← List.drop_eq_getElem_cons]

/-- The parts of a closed comment. -/
theorem isBody_of_build {tag close : Nat} (hopen : store.kind tag = .docOpen)
    (hmatch : store.commentMatch? tag = some close) : IsBody (store.slice (tag + 1) close) := by
  have hs := breaking_of_build hbuild
  obtain ⟨_, _, hparts⟩ := hs.comment tag close hopen hmatch
  have hclose := hs.exact.comment_lt tag close hmatch
  intro l hl
  obtain ⟨k, hlow, hhigh, rfl⟩ := Store.mem_slice.mp hl
  have hpart := hparts k hlow (Nat.le_of_lt hhigh)
  have hnext := hparts (k + 1) (by omega) hhigh
  rw [hs.follows k (by omega)] at hnext
  revert hpart hnext
  simp only [Fills, Says]
  cases store.kind k <;> simp [Kind.isDocPart, Kind.leavesDocOpen]

/-- A closed comment in a store. -/
theorem exists_comment_of_build {tag close : Nat} (hopen : store.kind tag = .docOpen)
    (hmatch : store.commentMatch? tag = some close) : tag < close ∧ close < store.size ∧
      (lex source).drop tag = enclosed (store.slice (tag + 1) close) ++ (lex source).drop
      (close + 1) ∧ store.slice tag (close + 1) = enclosed (store.slice (tag + 1) close) ∧
      Legible (store.slice (tag + 1) close) := by
  have hbody := isBody_of_build hbuild hopen hmatch
  obtain ⟨hlt, hclose, hparts⟩ := (breaking_of_build hbuild).comment tag close hopen hmatch
  have hsize := (exact_of_build hbuild).comment_lt tag close hmatch
  have hslice : store.slice tag (close + 1) =
      ⟨store.kind tag, store.text tag⟩ ::
      (store.slice (tag + 1) close ++ [⟨store.kind close, store.text close⟩]) := by
    rw [Store.slice_cons (Nat.lt_succ_of_lt hlt), ← Store.slice_append hlt (Nat.le_succ close),
      Store.slice_singleton]
  have hdrop : (lex source).drop tag = store.slice tag (close + 1) ++ (lex source).drop
      (close + 1) := by
    refine drop_lex_of_build hbuild (by omega) hsize fun k hlow hhigh hmem => ?_
    rcases Nat.eq_or_lt_of_le hlow with rfl | hlow
    · simp [hopen] at hmem
    · have hpart := hparts k hlow (Nat.le_of_lt_succ hhigh)
      simp only [List.mem_cons, List.not_mem_nil, or_false] at hmem
      rcases hmem with h | h | h <;> simp [h, Kind.isDocPart] at hpart
  have hsplit : lexFrom .html source.toList = (lex source).take tag ++ (lex source).drop tag :=
    (lex_eq_lexFrom source).symm.trans (List.take_append_drop tag (lex source)).symm
  obtain ⟨mode, _, _, hbehind⟩ := exists_readsAll hsplit
  rw [hdrop] at hbehind
  obtain ⟨next, _, hreads, _⟩ := exists_readsAll hbehind
  have hall : store.slice tag (close + 1) = enclosed (store.slice (tag + 1) close) :=
    hslice.trans (enclosed_of_readsAll (hslice ▸ hreads) hopen hclose hbody)
  rw [hall] at hreads hdrop
  exact ⟨hlt, hsize, hdrop, hall, (legible_of_readsAll hreads hbody).2.2⟩

/-- A token pairs with the first behind it that closes a comment, if none opens one before. -/
theorem commentMatch?_of_kinds {tag close : Nat} (hlt : tag < close)
    (hopen : store.kind tag = .docOpen) (hclose : store.kind close = .docClose)
    (hinner : ∀ k, tag < k → k < close → store.kind k ≠ .docOpen ∧ store.kind k ≠ .docClose) :
    store.commentMatch? tag = some close := by
  have hsize : close < store.size := Store.lt_size_of_kind hclose (by decide)
  have hkinds {k : Nat} (hk : k < store.size) :
      ((settleWords (lex source)).map (·.kind))[k]? = some (store.kind k) := by
    have hl : (settleWords (lex source))[k]? = some _ :=
      List.getElem?_eq_getElem (Store.size_of_build? hbuild ▸ hk)
    rw [List.getElem?_map, hl, Option.map_some, ← (Store.token_of_build? hbuild hl).1]
  refine (Store.commentMatch?_eq_some_iff hbuild).mpr (.inl ?_)
  refine mem_pairComments_of_getElem? (hopen ▸ hkinds (Nat.lt_trans hlt hsize)) hlt
    (hclose ▸ hkinds hsize) fun k hlow hhigh kind hkind => ?_
  rw [hkinds (Nat.lt_trans hhigh hsize), Option.mem_def, Option.some.injEq] at hkind
  exact hkind ▸ hinner k hlow hhigh

/-- A closed comment in a text. -/
theorem comment_of_lex {front body behind : List Lexeme}
    (hlex : lex source = front ++ (enclosed body ++ behind)) (hbody : IsBody body) :
    store.kind front.length = .docOpen ∧
      store.commentMatch? front.length = some (front.length + 1 + body.length) ∧
      store.slice (front.length + 1) (front.length + 1 + body.length) = body := by
  have hget (k : Nat) : (lex source)[front.length + k]? = (enclosed body ++ behind)[k]? := by
    rw [hlex, List.getElem?_append_right (Nat.le_add_right _ _), Nat.add_sub_cancel_left]
  have hparts {k : Nat} (hk : k < body.length) : (lex source)[front.length + 1 + k]? =
      some body[k] := by
    rw [Nat.add_assoc, Nat.add_comm 1, hget, enclosed, List.cons_append, List.getElem?_cons_succ,
      List.append_assoc, List.getElem?_append_left hk, List.getElem?_eq_getElem hk]
  have hlast : (lex source)[front.length + 1 + body.length]? = some docCloser := by
    rw [Nat.add_assoc, Nat.add_comm 1, hget, enclosed, List.cons_append, List.getElem?_cons_succ,
      List.append_assoc, List.getElem?_append_right (Nat.le_refl _), Nat.sub_self]
    rfl
  have hinner {k : Nat} (hk : k < body.length) : store.kind (front.length + 1 + k) = body[k].kind ∧
      store.text (front.length + 1 + k) = body[k].text := by
    refine ⟨kind_of_raw hbuild (hparts hk) ?_, (settled_of_build hbuild (hparts hk)).2.1⟩
    rcases hbody _ (List.getElem_mem hk) with (h | h) | (h | h) <;> rw [isWord, h] <;> rfl
  have hopen : store.kind front.length = .docOpen := kind_of_raw hbuild (hget 0) rfl
  have hclose : store.kind (front.length + 1 + body.length) = .docClose :=
    kind_of_raw hbuild hlast rfl
  refine ⟨hopen, commentMatch?_of_kinds hbuild (by omega) hopen hclose fun k hlow hhigh => ?_, ?_⟩
  · obtain ⟨m, rfl⟩ := Nat.exists_eq_add_of_le (show front.length + 1 ≤ k from hlow)
    have hm : m < body.length := by omega
    rw [(hinner hm).1]
    rcases hbody _ (List.getElem_mem hm) with (h | h) | (h | h) <;> simp [h]
  · refine List.ext_getElem (by rw [Store.length_slice]; omega) fun k hk hk' => ?_
    obtain ⟨hkind, htext⟩ := hinner hk'
    simp only [Store.slice, List.getElem_map, List.getElem_range', Nat.one_mul]
    rw [hkind, htext]

end

end Php

end PhpStyle
