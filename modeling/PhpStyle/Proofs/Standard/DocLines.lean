import PhpStyle.Proofs.Php.DocStores
import PhpStyle.Proofs.Standard.DocFrames
import PhpStyle.Proofs.Standard.MendingComments

/-!
# The lines of a documentation comment

Within a documentation comment in a store, two tokens lie as many lines apart as line breaks stand
in the body between them. What the rules search for there is found in the body as well: the first
and the last part that says something, and the end of the description that starts with the first.
-/

namespace PhpStyle

open Php (Fills IsDocBreak Legible Says docCloser docOpener enclosed letters)
open DocLayout (breaks)

namespace Store

variable {s : Store} {i j k n : Nat}

/-- The characters of a slice are those of its tokens. -/
theorem letters_slice (s : Store) (i j : Nat) :
    letters (s.slice i j) = (List.range' i (j - i)).flatMap fun k => (s.text k).toList := by
  rw [slice, letters, List.flatMap_map]

/-- The line breaks of a slice are those of its tokens. -/
theorem breaks_slice (s : Store) (i j : Nat) :
    DocLayout.breaks (s.slice i j) = ((List.range' i (j - i)).map s.breaks).sum := by
  rw [DocLayout.breaks, letters_slice, List.count_flatMap]
  rfl

/-- Two tokens lie as many lines apart as line breaks stand between them. -/
theorem line_eq_add_breaks (hs : Php.Sound s) (hij : i ≤ j) (hj : j < s.size) :
    s.line j = s.line i + DocLayout.breaks (s.slice i j) := by
  rw [breaks_slice, hs.line_eq_add_sum hij hj]

/-- Among tokens that break at most one line each, every line down to that of the last one is
started behind one of them. -/
theorem exists_lineStart (hs : Php.Sound s) (hij : i ≤ j) (hj : j < s.size)
    (hone : ∀ k, i ≤ k → k < j → s.breaks k ≤ 1) (hlow : s.line i < n) (hhigh : n ≤ s.line j) :
    ∃ m, i ≤ m ∧ m < j ∧ s.line m + 1 = n ∧ s.line (m + 1) = n := by
  induction j, hij using Nat.le_induction with
  | base => omega
  | succ j hij ih =>
    have hnext := hs.line_succ hj
    have hstep := hone j hij (Nat.lt_succ_self j)
    by_cases hbefore : n ≤ s.line j
    · obtain ⟨m, him, hmj, hm⟩ := ih (by omega) (fun k hik hkj => hone k hik (by omega)) hbefore
      exact ⟨m, him, by omega, hm⟩
    · exact ⟨j, hij, Nat.lt_succ_self j, by omega, by omega⟩

end Store

/-- A documentation comment of a store that is closed. -/
structure IsComment (s : Store) (tag close : Nat) : Prop where
  breaking : Php.Breaking s
  opener : s.kind tag = .docOpen
  paired : s.commentMatch? tag = some close
  lt : tag < close
  lt_size : close < s.size
  slice : s.slice tag (close + 1) = enclosed (s.slice (tag + 1) close)
  legible : Legible (s.slice (tag + 1) close)

/-- Partners in a store are the tags of a closed comment. -/
theorem Php.isComment_of_build {source : String} {store : Store}
    (hbuild : Store.build? (settleWords (lex source)) (outline (settleWords (lex source))) =
      .ok store)
    {tag close : Nat} (hopen : store.kind tag = .docOpen)
    (hmatch : store.commentMatch? tag = some close) : IsComment store tag close := by
  obtain ⟨hlt, hsize, _, hslice, hlegible⟩ := exists_comment_of_build hbuild hopen hmatch
  exact ⟨breaking_of_build hbuild, hopen, hmatch, hlt, hsize, hslice, hlegible⟩

namespace IsComment

variable {s : Store} {tag close i j k : Nat} (h : IsComment s tag close)

include h

/-- A documentation comment opens with a slash and two stars. -/
theorem text_tag : s.text tag = "/**" := by
  have hslice := h.slice
  rw [Store.slice_cons (Nat.lt_succ_of_lt h.lt), enclosed] at hslice
  exact congrArg Lexeme.text (List.cons_eq_cons.mp hslice).1

/-- The lexeme at the end of a comment is the closing tag. -/
theorem close_eq : (⟨s.kind close, s.text close⟩ : Lexeme) = docCloser := by
  have hslice := h.slice
  rw [Store.slice_cons (Nat.lt_succ_of_lt h.lt), enclosed,
    ← Store.slice_append h.lt (Nat.le_succ close), Store.slice_singleton] at hslice
  exact (List.cons_eq_cons.mp (List.append_cancel_left (List.cons_eq_cons.mp hslice).2)).1

/-- A documentation comment closes with a star and a slash. -/
theorem text_close : s.text close = "*/" := congrArg Lexeme.text h.close_eq

omit h in
/-- A token between the tags stands in the body. -/
theorem mem_body (hlow : tag < k) (hhigh : k < close) :
    (⟨s.kind k, s.text k⟩ : Lexeme) ∈ s.slice (tag + 1) close :=
  Store.mem_slice.mpr ⟨k, hlow, hhigh, rfl⟩

/-- Every token between the tags says something or fills its line. -/
theorem fills_or_says (hlow : tag < k) (hhigh : k < close) :
    Fills ⟨s.kind k, s.text k⟩ ∨ Says ⟨s.kind k, s.text k⟩ :=
  h.legible.isBody _ (mem_body hlow hhigh)

/-- Every token of a comment breaks one line at most. -/
theorem breaks_le_one (hlow : tag ≤ k) (hhigh : k < close) : s.breaks k ≤ 1 := by
  refine h.breaking.exact.sound.breaks_le_one ?_
  rcases Nat.eq_or_lt_of_le hlow with rfl | hlow
  · rw [h.opener]
    rfl
  · rcases h.fills_or_says hlow hhigh with (hkind | hkind) | (hkind | hkind) <;>
      rw [show s.kind k = _ from hkind] <;> rfl

/-- The opening tag breaks no line. -/
theorem line_succ_tag : s.line (tag + 1) = s.line tag := by
  have hnext := h.breaking.exact.sound.line_succ (i := tag) (Nat.lt_of_le_of_lt h.lt h.lt_size)
  have hbreaks : s.breaks tag = 0 := by
    rw [Store.breaks, h.text_tag]
    rfl
  omega

/-- Behind a part that says something, its line goes on. -/
theorem line_succ_of_saying (hlow : tag < k) (hhigh : k < close)
    (hsaid : Says ⟨s.kind k, s.text k⟩) : s.line (k + 1) = s.line k := by
  have hnext := h.breaking.exact.sound.line_succ (i := k) (Nat.lt_of_le_of_lt hhigh h.lt_size)
  have hbreaks : s.breaks k = 0 :=
    List.count_eq_zero.mpr (h.legible.flat (mem_body hlow hhigh) hsaid)
  omega

/-- What breaks the line between two parts is a line break. -/
theorem isDocBreak (hlow : tag < k) (hhigh : k < close) (hline : s.line k < s.line (k + 1)) :
    IsDocBreak ⟨s.kind k, s.text k⟩ := by
  have hnext := h.breaking.exact.sound.line_succ (i := k) (Nat.lt_of_le_of_lt hhigh h.lt_size)
  rcases h.fills_or_says hlow hhigh with hfills | hsaid
  · refine h.legible.isDocBreak (mem_body hlow hhigh) hfills ?_
    exact List.count_pos_iff.mp (show 0 < s.breaks k by omega)
  · have := h.line_succ_of_saying hlow hhigh hsaid
    omega

/-- Two tokens of a comment lie as many lines apart as line breaks stand between them. -/
theorem line_eq_add_breaks (hij : i ≤ j) (hj : j ≤ close) :
    s.line j = s.line i + breaks (s.slice i j) :=
  Store.line_eq_add_breaks h.breaking.exact.sound hij (Nat.lt_of_le_of_lt hj h.lt_size)

/-- Later tokens of a comment stand on no earlier lines. -/
theorem line_le (hij : i ≤ j) (hj : j ≤ close) : s.line i ≤ s.line j :=
  h.breaking.exact.sound.line_le hij (Nat.lt_of_le_of_lt hj h.lt_size)

/-- Every line of a comment below the first is started behind a line break. -/
theorem exists_lineStart {n : Nat} (hlow : tag ≤ i) (hij : i ≤ j) (hj : j ≤ close)
    (hless : s.line i < n) (hline : n ≤ s.line j) :
    ∃ m, i ≤ m ∧ m < j ∧ s.line m + 1 = n ∧ s.line (m + 1) = n :=
  Store.exists_lineStart h.breaking.exact.sound hij (Nat.lt_of_le_of_lt hj h.lt_size)
    (fun k hik hkj => h.breaks_le_one (by omega) (by omega)) hless hline

end IsComment

namespace DocLayout

/-- The first and the last part of a comment that say something. -/
structure Ends (s : Store) (tag short last close : Nat) : Prop where
  lt_short : tag < short
  short_le : short ≤ last
  last_lt : last < close
  short_says : Says ⟨s.kind short, s.text short⟩
  last_says : Says ⟨s.kind last, s.text last⟩
  lead : ∀ l ∈ s.slice (tag + 1) short, Fills l
  trail : ∀ l ∈ s.slice (last + 1) close, Fills l

variable {s : Store} {tag short last close : Nat} (h : IsComment s tag close)

/-- Tokens that are fillers to the rules fill their lines. -/
theorem fills_slice {i j : Nat} (hfiller : ∀ k, i < k → k < j → isFiller (s.token k) = true) :
    ∀ l ∈ s.slice (i + 1) j, Fills l := by
  intro l hl
  obtain ⟨k, hik, hkj, rfl⟩ := Store.mem_slice.mp hl
  exact isFiller_iff.mp (hfiller k hik hkj)

/-- The next part is looked for in front of the given end only. -/
theorem nextPart?_lt {i j stop : Nat} (hj : nextPart? s i (some stop) = some j) : j < stop := by
  obtain ⟨first, _, hfound⟩ := Option.bind_eq_some_iff.mp hj
  obtain ⟨hle, hlt, _⟩ := Store.scanUp_eq_some hfound
  have hmin := Nat.min_le_left stop s.size
  simp only [Option.getD_some] at hlt
  omega

/-- Where no next part is found, only fillers stand up to the given end. -/
theorem nextPart?_none {i stop : Nat} (hstop : stop ≤ s.size)
    (hnone : nextPart? s i (some stop) = none) :
    ∀ k, i < k → k < stop → isFiller (s.token k) = true := by
  intro k hik hk
  have hnext : s.next? i = some (i + 1) := if_pos (by omega)
  rw [nextPart?, hnext, Option.bind_some] at hnone
  have hfiller := Store.scanUp_eq_none hnone k hik (by simp only [Option.getD_some]; omega)
  simpa using hfiller

/-- What says something is no filler. -/
theorem not_isFiller_of_saying {k : Nat} (hsaid : Says ⟨s.kind k, s.text k⟩) :
    isFiller (s.token k) = false := by
  rw [← Bool.not_eq_true, isFiller_iff]
  exact hsaid.not_fills

include h

/-- What is no filler says something. -/
theorem says_of_not_isFiller {k : Nat} (hlow : tag < k) (hhigh : k < close)
    (hk : isFiller (s.token k) = false) : Says ⟨s.kind k, s.text k⟩ := by
  refine (h.fills_or_says hlow hhigh).resolve_left fun hfills => ?_
  rw [isFiller_iff.mpr hfills] at hk
  cases hk

/-- What is found first and last in a comment. -/
theorem ends_of_nextPart? (hshort : nextPart? s tag (some close) = some short) :
    ∃ last, ((s.prev? close).bind fun p => s.findPrevious (fun t => !isFiller t) p (some tag)).getD
      tag = last ∧ Ends s tag short last close := by
  obtain ⟨hlow, hvisible, hlead⟩ := nextPart?_spec hshort
  have hhigh := nextPart?_lt hshort
  obtain ⟨hkind, htrail⟩ := last_spec h.breaking h.opener h.paired hlow hhigh hvisible rfl
  generalize hlast : ((s.prev? close).bind fun p =>
    s.findPrevious (fun t => !isFiller t) p (some tag)).getD tag = last at hkind htrail
  have hle : short ≤ last := by
    by_contra hless
    rw [htrail short (by omega) hhigh] at hvisible
    cases hvisible
  have hlt : last < close := by
    rw [show s.prev? close = some (close - 1) from if_neg (by omega), Option.bind_some] at hlast
    cases hfound : s.findPrevious (fun t => !isFiller t) (close - 1) (some tag) with
    | none =>
      rw [hfound, Option.getD_none] at hlast
      omega
    | some found =>
      rw [hfound, Option.getD_some] at hlast
      have := (Store.scanDown_eq_some hfound).2.1
      omega
  exact ⟨last, rfl, hlow, hle, hlt, says_of_not_isFiller h hlow hhigh hvisible, hkind,
    fills_slice hlead, fills_slice htrail⟩

omit h in
/-- Text on the line below a description goes on with it. -/
theorem longGap?_text {l : Lexeme} (hl : l.kind = .docText) (rest : List Lexeme) :
    longGap? 1 (l :: rest) = longGap? 0 rest := by
  rw [longGap?, if_pos hl, if_pos rfl]

omit h in
/-- A description that starts at a token and ends with another: it is text on successive lines, and
no text follows on the next line. -/
structure Describes (s : Store) (close start stop : Nat) : Prop where
  le : start ≤ stop
  lt : stop < close
  text : s.kind stop = .docText
  walks : ∀ rest, longGap? 1 (s.slice start (stop + 1) ++ rest) = longGap? 0 rest
  ends : ∀ q, stop < q → q < close → (∀ k, stop < k → k < q → isFiller (s.token k) = true) →
    ¬ (s.kind q = .docText ∧ s.line q = s.line stop + 1)

omit h in
/-- A token of text, and no more than it, goes on with the description on the line above. -/
theorem longGap?_slice_singleton {e : Nat} (he : s.kind e = .docText) (rest : List Lexeme) :
    longGap? 1 (s.slice e (e + 1) ++ rest) = longGap? 0 rest := by
  rw [Store.slice_singleton, List.singleton_append, longGap?_text he]

/-- Text on the next line goes on with a description. -/
theorem Describes.cons {e p stop : Nat} (hrest : Describes s close p stop) (hlow : tag < e)
    (hep : e < p) (he : s.kind e = .docText) (hline : s.line p = s.line e + 1)
    (hfiller : ∀ k, e < k → k < p → isFiller (s.token k) = true) : Describes s close e stop where
  le := Nat.le_trans (Nat.le_of_lt hep) hrest.le
  lt := hrest.lt
  text := hrest.text
  ends := hrest.ends
  walks rest := by
    have hle := hrest.le
    have hlt := hrest.lt
    have hnext : s.line (e + 1) = s.line e := h.line_succ_of_saying hlow (by omega) (.inr he)
    have hgap : breaks (s.slice (e + 1) p) = 1 := by
      have := h.line_eq_add_breaks (show e + 1 ≤ p from hep) (by omega)
      omega
    have hslice : s.slice e (stop + 1) =
        ⟨s.kind e, s.text e⟩ :: (s.slice (e + 1) p ++ s.slice p (stop + 1)) := by
      rw [Store.slice_append hep (by omega), ← Store.slice_cons (by omega)]
    rw [hslice, List.cons_append, longGap?_text he, List.append_assoc,
      longGap?_append_of_fills (fills_slice hfiller), hgap, hrest.walks]

/-- The end of a description ends it. -/
theorem describes_descriptionEnd {e p : Nat} (hlow : tag < e) (he : s.kind e = .docText)
    (hep : e < p) (hp : p ≤ close) (hfiller : ∀ k, e < k → k < p → isFiller (s.token k) = true) :
    Describes s close e (descriptionEnd s e (List.range' p (close - p))) := by
  have hbehind : ∀ q, e < q → s.kind q = .docText → p ≤ q := by
    intro q heq htext
    by_contra hless
    rcases isFiller_iff.mp (hfiller q heq (by omega)) with hkind | hkind <;>
      cases hkind.symm.trans htext
  generalize hleft : close - p = left
  induction left generalizing e p with
  | zero =>
    refine ⟨Nat.le_refl e, Nat.lt_of_lt_of_le hep hp, he, longGap?_slice_singleton he,
      fun q heq hq _ htext => ?_⟩
    have := hbehind q heq htext.1
    omega
  | succ left ih =>
    have hpclose : p < close := by omega
    rw [List.range'_succ, descriptionEnd]
    split
    · rename_i hgoes
      -- the text in the next line is the last so far
      have hrest := ih (Nat.lt_trans hlow hep) hgoes.1 (Nat.lt_succ_self p) hpclose
          (fun k _ _ => by omega) (fun q hpq _ => hpq) (by omega)
      exact hrest.cons h hlow hep he hgoes.2 hfiller
    split
    · rename_i hnot hvisible
      refine ⟨Nat.le_refl e, Nat.lt_trans hep hpclose, he, longGap?_slice_singleton he,
        fun q heq hq hbetween htext => ?_⟩
      rcases Nat.eq_or_lt_of_le (hbehind q heq htext.1) with rfl | hpq
      · exact hnot htext
      · rcases isFiller_iff.mp (hbetween p hep hpq) with hkind | hkind <;> simp [hkind] at hvisible
    · rename_i hvisible
      rw [not_or] at hvisible
      have hp : isFiller (s.token p) = true := by
        refine isFiller_iff.mpr ((h.fills_or_says (Nat.lt_trans hlow hep) hpclose).resolve_right ?_)
        rintro (hkind | hkind)
        · exact hvisible.2 hkind
        · exact hvisible.1 hkind
      refine ih hlow he (Nat.lt_succ_of_lt hep) hpclose (fun k hek hk => ?_)
        (fun q heq htext => ?_) (by omega)
      · rcases Nat.eq_or_lt_of_le (Nat.le_of_lt_succ hk) with rfl | hk
        · exact hp
        · exact hfiller k hek hk
      · rcases Nat.eq_or_lt_of_le (hbehind q heq htext) with rfl | hpq
        · exact absurd htext hvisible.1
        · exact hpq

end DocLayout

end PhpStyle
