import PhpStyle.Proofs.Edit.Effects
import PhpStyle.Proofs.Standard.DocLines

/-!
# What the fixes make of a documentation comment

The fixes of the general rule edit different tokens of a comment: its two tags and its first part,
and rows of blank lines that are cleared. So all of them are made in one pass, and the comment is
left with a body that is framed. If it had a frame before, its descriptions are spaced as well.
-/

namespace PhpStyle

open Php (Fills IsDocBreak IsNewline Legible Says docCloser docOpener enclosed letters)
open DocLayout (breaks parts)

namespace Store

variable {s : Store} {edits : List Edit} {i j k a b : Nat}

/-- What edits make of the tokens from one up to another. -/
def remade (s : Store) (edits : List Edit) (i j : Nat) : List Char :=
  (List.range' i (j - i)).flatMap fun k => (s.rewritten edits k).toList

/-- A stretch of tokens is remade piece by piece. -/
theorem remade_append (s : Store) (edits : List Edit) (hij : i ≤ j) (hjk : j ≤ k) :
    s.remade edits i k = s.remade edits i j ++ s.remade edits j k := by
  have hrange := List.range'_append_1 (s := i) (m := j - i) (n := k - j)
  rw [Nat.add_sub_cancel' hij, show j - i + (k - j) = k - i by omega] at hrange
  rw [remade, ← hrange, List.flatMap_append, remade, remade]

/-- Nothing is made of no tokens. -/
theorem remade_self (s : Store) (edits : List Edit) (i : Nat) : s.remade edits i i = [] := by
  rw [remade, Nat.sub_self]
  rfl

/-- The first token of a stretch is rewritten in front of the others. -/
theorem remade_cons (s : Store) (edits : List Edit) (hij : i < j) :
    s.remade edits i j = (s.rewritten edits i).toList ++ s.remade edits (i + 1) j := by
  rw [remade, show j - i = j - (i + 1) + 1 by omega, List.range'_succ, List.flatMap_cons, remade]

/-- A stretch of one token is remade as that token. -/
theorem remade_singleton (s : Store) (edits : List Edit) (i : Nat) :
    s.remade edits i (i + 1) = (s.rewritten edits i).toList := by
  rw [remade_cons s edits (Nat.lt_succ_self i), remade_self, List.append_nil]

/-- The last token of a stretch is rewritten behind the others. -/
theorem remade_succ (s : Store) (edits : List Edit) (hij : i ≤ j) :
    s.remade edits i (j + 1) = s.remade edits i j ++ (s.rewritten edits j).toList := by
  rw [remade_append s edits hij (Nat.le_succ j), remade_singleton]

/-- Tokens that are left alone stay. -/
theorem remade_of_kept (hkeep : ∀ k, i ≤ k → k < j → s.rewritten edits k = s.text k) :
    s.remade edits i j = letters (s.slice i j) := by
  rw [remade, letters_slice]
  refine List.flatMap_congr fun k hk => ?_
  obtain ⟨hik, hkj⟩ := List.mem_range'_1.mp hk
  rw [hkeep k hik (by omega)]

/-- Tokens that are cleared in a row are gone. -/
theorem remade_of_cleared (hia : i ≤ a) (hab : a ≤ b) (hbj : b ≤ j)
    (hclear : ∀ k, a ≤ k → k < b → s.rewritten edits k = "")
    (hkeep : ∀ k, i ≤ k → k < j → k < a ∨ b ≤ k → s.rewritten edits k = s.text k) :
    s.remade edits i j = letters (s.slice i a ++ s.slice b j) := by
  have hgone : s.remade edits a b = [] := by
    refine List.flatMap_eq_nil_iff.mpr fun k hk => ?_
    obtain ⟨hak, hkb⟩ := List.mem_range'_1.mp hk
    rw [hclear k hak (by omega)]
    rfl
  have hfront : s.remade edits i a = letters (s.slice i a) :=
    remade_of_kept fun k hik hka => hkeep k hik (by omega) (.inl hka)
  have hback : s.remade edits b j = letters (s.slice b j) :=
    remade_of_kept fun k hbk hkj => hkeep k (by omega) hkj (.inr hbk)
  rw [remade_append s edits hia (Nat.le_trans hab hbj), remade_append s edits hab hbj, hgone,
    List.nil_append, Php.letters_append, hfront, hback]

end Store

namespace Finding

/-- An edit of a fix of one of some findings. -/
def Makes (fs : List Finding) (e : Edit) : Prop := ∃ f ∈ fs, ∃ c, f.fix = some c ∧ e ∈ c

variable {fs gs : List Finding} {f : Finding} {e : Edit} {c : Changeset} {p : Prop} [Decidable p]

/-- Findings put together make the edits that each of them makes. -/
theorem makes_append : Makes (fs ++ gs) e ↔ Makes fs e ∨ Makes gs e := by
  simp only [Makes, List.mem_append, or_and_right, exists_or]

/-- A finding alone makes the edits of its fix. -/
theorem makes_singleton : Makes [f] e ↔ ∃ c, f.fix = some c ∧ e ∈ c := by
  simp only [Makes, List.mem_singleton, exists_eq_left]

/-- No findings make no edits. -/
theorem not_makes_nil : ¬ Makes [] e := by
  simp [Makes]

/-- A finding made on a condition makes the edits of its fix if that holds. -/
theorem makes_when : Makes (if p then [f] else []) e ↔ p ∧ ∃ c, f.fix = some c ∧ e ∈ c := by
  split
  · simp_all [makes_singleton]
  · simp_all [not_makes_nil]

/-- A finding made unless a condition holds makes the edits of its fix if that fails. -/
theorem makes_unless : Makes (if p then [] else [f]) e ↔ ¬ p ∧ ∃ c, f.fix = some c ∧ e ∈ c := by
  split
  · simp_all [not_makes_nil]
  · simp_all [makes_singleton]

end Finding

namespace DocLayout

open Finding (Makes makes_append makes_singleton makes_unless makes_when)

/-- Clearing tokens makes one edit for each of them. -/
theorem makes_clearing {tokens : List Nat} {e : Edit} :
    (∃ c, clearing tokens = some c ∧ e ∈ c) ↔ ∃ p ∈ tokens, e = .replace p "" := by
  rw [clearing]
  split
  · rename_i hnone
    rw [List.isEmpty_iff] at hnone
    simp [hnone]
  · simp only [Option.some.injEq, exists_eq_left', List.mem_map]
    exact exists_congr fun p => and_congr_right fun _ => eq_comm

/-- The last token of the description that starts a comment. -/
def shortEnd (s : Store) (short close : Nat) : Nat := descriptionEnd s short (s.between short close)

/-- Where the long description of a comment starts. -/
def long? (s : Store) (short close : Nat) : Option Nat :=
  (nextPart? s (shortEnd s short close) (s.prev? close)).filter fun p => s.kind p == .docText

/-- The tokens of a comment that are cleared: blank lines before a short description, between
descriptions and at the end. -/
inductive Cleared (s : Store) (tag short last close : Nat) : Nat → Prop
  | lead {p : Nat} (hlow : tag < p) (hhigh : p < short) (htext : s.kind short = .docText)
      (hless : s.line tag < s.line p) (hline : s.line p < s.line short) :
      Cleared s tag short last close p
  | middle {p long : Nat} (hlow : shortEnd s short close < p) (hhigh : p < long)
      (htext : s.kind short = .docText)
      (hlong : long? s short close = some long) (hless : s.line (shortEnd s short close) < s.line p)
      (hline : s.line p + 1 < s.line long) : Cleared s tag short last close p
  | trail {p : Nat} (hlow : last < p) (hhigh : p < close) (hmany : s.line last + 1 < s.line close)
      (hline : s.line (p + 1) < s.line close) : Cleared s tag short last close p

/-- What is wrong with a comment that says something. -/
def layoutFindings (s : Store) (newline : String) (tag short last close : Nat) : List Finding :=
  contentBehindOpen s newline tag short ++ contentBeforeClose s newline last close ++
    spacingAtEnd s last close ++ descriptions s tag short close

variable {s : Store} {settings : Settings} {newline : String} {tag short last close p : Nat}
    {e : Edit}

/-- Of a comment that says something, the rule looks at the first and the last part. -/
theorem findings_of_ends (h : IsComment s tag close)
    (hshort : nextPart? s tag (some close) = some short) : ∃ last, Ends s tag short last close ∧
      findings settings (.ofStore s) tag =
        layoutFindings s ((File.ofStore s).newline settings) tag short last close := by
  obtain ⟨last, hlast, hends⟩ := ends_of_nextPart? h hshort
  refine ⟨last, hends, ?_⟩
  simp only [findings, File.ofStore_store, h.paired, hshort, hlast]
  rfl

/-- A comment that says nothing is filled by blanks and stars, and what is found of it has no
fix. -/
theorem findings_of_none (h : IsComment s tag close) (hnone : nextPart? s tag (some close) = none) :
    (∀ l ∈ s.slice (tag + 1) close, Fills l) ∧
      ∀ f ∈ findings settings (.ofStore s) tag, f.fix = none := by
  refine ⟨fills_slice (nextPart?_none (Nat.le_of_lt h.lt_size) hnone), ?_⟩
  simp [findings, h.paired, hnone]

/-- The first part of a comment stands in front of its closing tag. -/
theorem Ends.short_lt (hends : Ends s tag short last close) : short < close :=
  Nat.lt_of_le_of_lt hends.short_le hends.last_lt

section

variable (h : IsComment s tag close) (hends : Ends s tag short last close)

include h hends

/-- A description that starts with the first part ends where the rule takes its end to be. -/
theorem Ends.describes (htext : s.kind short = .docText) :
    Describes s close short (shortEnd s short close) :=
  describes_descriptionEnd h hends.lt_short htext (Nat.lt_succ_self short) hends.short_lt
    fun k _ _ => by omega

/-- The long description starts behind the end of the short one and before the token in front of the
closing tag, and not in the next line. -/
theorem Ends.long_spec (htext : s.kind short = .docText) {long : Nat}
    (hlong : long? s short close = some long) :
    shortEnd s short close < long ∧ long + 1 < close ∧ s.kind long = .docText ∧
      (∀ k, shortEnd s short close < k → k < long → isFiller (s.token k) = true) ∧
      s.line long ≠ s.line (shortEnd s short close) + 1 := by
  obtain ⟨hfound, hkind⟩ := Option.filter_eq_some_iff.mp hlong
  have hkind : s.kind long = .docText := beq_iff_eq.mp hkind
  obtain ⟨hlow, _, hfiller⟩ := nextPart?_spec hfound
  have hprev : s.prev? close = some (close - 1) := if_neg (by have := h.lt; omega)
  rw [hprev] at hfound
  have hhigh := nextPart?_lt hfound
  exact ⟨hlow, by omega, hkind, hfiller, fun hline =>
    (hends.describes h htext).ends long hlow (by omega) hfiller ⟨hkind, hline⟩⟩

omit h in
/-- Text stands before the end of what a comment says. -/
theorem Ends.le_of_text {k : Nat} (hhigh : k < close) (htext : s.kind k = .docText) : k ≤ last := by
  by_contra hless
  have hfills := hends.trail _ (Store.mem_slice.mpr ⟨k, by omega, hhigh, rfl⟩)
  exact Says.not_fills (.inr htext) hfills

omit hends in
/-- The blank lines in front of the closing tag are cleared. -/
theorem makes_spacingAtEnd_iff : Makes (spacingAtEnd s last close) e ↔
    ∃ p, (last < p ∧ p < close ∧ s.line last + 1 < s.line close ∧ s.line (p + 1) < s.line close) ∧
      e = .replace p "" := by
  rw [spacingAtEnd, makes_when, makes_clearing]
  simp only [Store.mem_takeWhile_between_iff, Store.mem_between, Store.sameLine, Bool.not_eq_true',
    beq_eq_false_iff_ne]
  constructor
  · rintro ⟨hmany, p, ⟨⟨hlow, hhigh⟩, hall⟩, rfl⟩
    have hle := h.line_le (show p + 1 ≤ close from hhigh) (Nat.le_refl close)
    have hne := hall p hlow (Nat.le_refl p)
    exact ⟨p, ⟨hlow, hhigh, hmany, by omega⟩, rfl⟩
  · rintro ⟨p, ⟨hlow, hhigh, hmany, hline⟩, rfl⟩
    refine ⟨hmany, p, ⟨⟨hlow, hhigh⟩, fun k _ hkp => ?_⟩, rfl⟩
    have hle := h.line_le (show k + 1 ≤ p + 1 by omega) hhigh
    omega

/-- The blank lines in front of the first description are cleared. -/
theorem makes_spacingBeforeShort_iff : Makes (spacingBeforeShort s tag short) e ↔
    ∃ p, (tag < p ∧ p < short ∧ s.line tag < s.line p ∧ s.line p < s.line short) ∧
      e = .replace p "" := by
  have hshort := hends.short_lt
  rw [spacingBeforeShort, makes_unless, makes_clearing]
  simp only [Store.mem_onLinesBetween_iff, Store.mem_between]
  constructor
  · rintro ⟨_, p, ⟨⟨hlow, hhigh⟩, hne, hall⟩, rfl⟩
    have hge := h.line_le (Nat.le_of_lt hlow) (by omega)
    have hle := h.line_le (Nat.le_of_lt hhigh) (Nat.le_of_lt hshort)
    have hlast := hall p hlow (Nat.le_refl p)
    exact ⟨p, ⟨hlow, hhigh, by omega, by omega⟩, rfl⟩
  · rintro ⟨p, ⟨hlow, hhigh, hless, hline⟩, rfl⟩
    refine ⟨by omega, p, ⟨⟨hlow, hhigh⟩, by omega, fun k _ hkp => ?_⟩, rfl⟩
    have hle := h.line_le hkp (by omega)
    omega

/-- The blank lines between the two descriptions are cleared, but for one. -/
theorem makes_longFindings_iff (htext : s.kind short = .docText) {long : Nat}
    (hlong : long? s short close = some long) :
    Makes (longFindings s (shortEnd s short close) long) e ↔
      ∃ p, (shortEnd s short close < p ∧ p < long ∧ s.line (shortEnd s short close) < s.line p ∧
        s.line p + 1 < s.line long) ∧ e = .replace p "" := by
  obtain ⟨hlt, hsize, _, _, hgap⟩ := hends.long_spec h htext hlong
  have hstart := (hends.describes h htext).le
  have hcapital : ¬ Makes (if startsLower (s.text long) then
      [{ code := "LongNotCapital", index := long
         message := "Doc comment long description must start with a capital letter" }]
      else []) e := by
    rw [makes_when]
    simp
  rw [longFindings, makes_append, or_iff_left hcapital, makes_unless, makes_clearing]
  simp only [Store.mem_onLinesBetween_iff, Store.mem_between]
  constructor
  · rintro ⟨_, p, ⟨⟨hlow, hhigh⟩, hne, hall⟩, rfl⟩
    have hge := h.line_le (Nat.le_of_lt hlow) (by omega)
    have hle := h.line_le (Nat.le_of_lt hhigh) (by omega)
    refine ⟨p, ⟨hlow, hhigh, by omega, ?_⟩, rfl⟩
    by_contra hfar
    -- the line before the long description would be passed on the way
    have hpassed : ∃ k, shortEnd s short close < k ∧ k ≤ p ∧ s.line k = s.line long - 1 := by
      obtain ⟨m, hm, hmp, _, hstarts⟩ := h.exists_lineStart (n := s.line long - 1)
        (show tag ≤ shortEnd s short close by have := hends.lt_short; omega) (Nat.le_of_lt hlow)
        (by omega) (by omega) (by omega)
      exact ⟨m + 1, by omega, by omega, hstarts⟩
    obtain ⟨k, hk, hkp, hline⟩ := hpassed
    rcases hall k hk hkp with hsame | hother <;> omega
  · rintro ⟨p, ⟨hlow, hhigh, hless, hline⟩, rfl⟩
    refine ⟨by omega, p, ⟨⟨hlow, hhigh⟩, by omega, fun k _ hkp => ?_⟩, rfl⟩
    have hle := h.line_le hkp (by omega)
    omega

omit h hends in
/-- The descriptions make the edits of the gap in front of the first and of the gap between the
two. -/
theorem makes_descriptions_iff : Makes (descriptions s tag short close) e ↔
    s.kind short = .docText ∧ (Makes (spacingBeforeShort s tag short) e ∨
      ∃ long, long? s short close = some long ∧
      Makes (longFindings s (shortEnd s short close) long) e) := by
  unfold descriptions
  by_cases htext : s.kind short = .docText
  · have hcapital : ¬ Makes (shortCapital s short) e := by
      rw [shortCapital, makes_when]
      simp
    have hlong :
        Makes ((long? s short close).toList.flatMap (longFindings s (shortEnd s short close))) e ↔
        ∃ long, long? s short close = some long ∧
        Makes (longFindings s (shortEnd s short close) long) e := by
      cases long? s short close <;> simp [Makes]
    rw [if_neg (not_not_intro htext), ← hlong]
    change Makes (_ ++ _ ++ _) e ↔ _
    rw [makes_append, makes_append, or_iff_left hcapital, and_iff_right htext]
    rfl
  · rw [if_pos htext, makes_singleton]
    simp [htext]

/-- The edits that are made in a comment. -/
theorem makes_layoutFindings_iff : Makes (layoutFindings s newline tag short last close) e ↔
    s.line short = s.line tag ∧ (e = .append tag newline ∨ e = .insert short "* ") ∨
      s.line last = s.line close ∧ e = .insert close newline ∨
      ∃ p, Cleared s tag short last close p ∧ e = .replace p "" := by
  have hopen : Makes (contentBehindOpen s newline tag short) e ↔
      s.line short = s.line tag ∧ (e = .append tag newline ∨ e = .insert short "* ") := by
    rw [contentBehindOpen, makes_when]
    simp [Store.sameLine]
  have hclose : Makes (contentBeforeClose s newline last close) e ↔
      s.line last = s.line close ∧ e = .insert close newline := by
    rw [contentBeforeClose, makes_when]
    simp [Store.sameLine]
  have hcleared : Makes (spacingAtEnd s last close) e ∨ Makes (descriptions s tag short close) e ↔
      ∃ p, Cleared s tag short last close p ∧ e = .replace p "" := by
    rw [makes_spacingAtEnd_iff h, makes_descriptions_iff, makes_spacingBeforeShort_iff h hends]
    constructor
    · rintro (⟨p, ⟨hlow, hhigh, hmany, hline⟩, rfl⟩ |
        ⟨htext, ⟨p, ⟨hlow, hhigh, hless, hline⟩, rfl⟩ | ⟨long, hlong, hmakes⟩⟩)
      · exact ⟨p, .trail hlow hhigh hmany hline, rfl⟩
      · exact ⟨p, .lead hlow hhigh htext hless hline, rfl⟩
      · obtain ⟨p, ⟨hlow, hhigh, hless, hline⟩, rfl⟩ :=
          (makes_longFindings_iff h hends htext hlong).mp hmakes
        exact ⟨p, .middle hlow hhigh htext hlong hless hline, rfl⟩
    · rintro ⟨p, hcleared, rfl⟩
      cases hcleared with
      | lead hlow hhigh htext hless hline =>
        exact .inr ⟨htext, .inl ⟨p, ⟨hlow, hhigh, hless, hline⟩, rfl⟩⟩
      | middle hlow hhigh htext hlong hless hline =>
        exact .inr ⟨htext, .inr ⟨_, hlong, (makes_longFindings_iff h hends htext hlong).mpr
          ⟨p, ⟨hlow, hhigh, hless, hline⟩, rfl⟩⟩⟩
      | trail hlow hhigh hmany hline => exact .inl ⟨p, ⟨hlow, hhigh, hmany, hline⟩, rfl⟩
  rw [layoutFindings, makes_append, makes_append, makes_append, hopen, hclose, or_assoc,
    or_assoc, hcleared]

/-- No part that says something is cleared, and neither are the tags. -/
theorem Cleared.between (hcleared : Cleared s tag short last close p) :
    (p < short ∨ short < p) ∧ (p < last ∨ last < p ∧ last < close) ∧ tag < p ∧ p < close := by
  have := hends.lt_short
  have := hends.short_le
  have := hends.last_lt
  cases hcleared with
  | lead hlow hhigh => omega
  | middle hlow hhigh htext hlong =>
    have hstart := (hends.describes h htext).le
    obtain ⟨_, hsize, hkind, _⟩ := hends.long_spec h htext hlong
    have hstop := hends.le_of_text (by omega) hkind
    omega
  | trail hlow hhigh => omega

/-- Up to the first part, only blank lines before a short description are cleared. -/
theorem Cleared.lead_of_le (hcleared : Cleared s tag short last close p) (hp : p ≤ short) :
    s.kind short = .docText ∧ s.line tag < s.line p ∧ s.line p < s.line short := by
  have := hends.short_le
  cases hcleared with
  | lead _ _ htext hless hline => exact ⟨htext, hless, hline⟩
  | middle hlow _ htext =>
    have := (hends.describes h htext).le
    omega
  | trail hlow => omega

omit h hends in
/-- Between the first part and the last, only blank lines between descriptions are cleared. -/
theorem Cleared.middle_of_lt (hcleared : Cleared s tag short last close p) (hlow : short < p)
    (hhigh : p ≤ last) :
    s.kind short = .docText ∧ ∃ long, long? s short close = some long ∧ shortEnd s short close < p ∧
      p < long ∧ s.line (shortEnd s short close) < s.line p ∧ s.line p + 1 < s.line long := by
  cases hcleared with
  | lead => omega
  | middle hlow hhigh htext hlong hless hline => exact ⟨htext, _, hlong, hlow, hhigh, hless, hline⟩
  | trail => omega

/-- Behind the last part, only blank lines at the end are cleared. -/
theorem Cleared.trail_of_lt (hcleared : Cleared s tag short last close p) (hp : last < p) :
    p < close ∧ s.line last + 1 < s.line close ∧ s.line (p + 1) < s.line close := by
  have := hends.short_le
  cases hcleared with
  | lead => omega
  | middle _ hhigh htext hlong =>
    obtain ⟨_, hsize, hkind, _⟩ := hends.long_spec h htext hlong
    have := hends.le_of_text (by omega) hkind
    omega
  | trail _ hhigh hmany hline => exact ⟨hhigh, hmany, hline⟩

end

end DocLayout

end PhpStyle
