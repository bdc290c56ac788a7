import PhpStyle.Proofs.Php.DocBodies
import PhpStyle.Proofs.Standard.DocComment

/-!
# The frame of a documentation comment

What the rules for documentation comments find depends on the parts of a comment that say something
and on the line breaks between them. A comment is framed if its first and its last part stand where
these rules want them, and spaced if its descriptions are not too far apart. Both, and what a
comment says in all, can be read from its body.
-/

namespace PhpStyle

open Php (Fills IsBody Legible Says letters split_unique)

namespace DocLayout

variable {l first last : Lexeme}
    {ls ks body lead lead' behind front trail trail' mid mid' : List Lexeme} {gap : Nat}

/-- The line breaks in lexemes. -/
def breaks (ls : List Lexeme) : Nat := (letters ls).count '\n'

/-- No lexemes have no line breaks. -/
@[simp] theorem breaks_nil : breaks [] = 0 := rfl

/-- Lexemes put together have the line breaks of each. -/
@[simp] theorem breaks_append (ls ks : List Lexeme) :
    breaks (ls ++ ks) = breaks ls + breaks ks := by
  rw [breaks, Php.letters_append, List.count_append, breaks, breaks]

/-- The line breaks of the first lexeme come on top of those of the others. -/
theorem breaks_cons (l : Lexeme) (ls : List Lexeme) : breaks (l :: ls) = breaks [l] + breaks ls :=
  breaks_append [l] ls

/-- Lexemes have no line breaks if their characters have no line feed. -/
theorem breaks_eq_zero_iff : breaks ls = 0 ↔ '\n' ∉ letters ls := List.count_eq_zero

/-- The parts of a comment that say something. -/
def parts (ls : List Lexeme) : List Lexeme := ls.filter fun l => l.kind == .docTag ||
    l.kind == .docText

/-- The parts of lexemes put together are those of each. -/
@[simp] theorem parts_append (ls ks : List Lexeme) : parts (ls ++ ks) = parts ls ++ parts ks :=
  List.filter_append ..

/-- The parts are the lexemes that say something. -/
theorem mem_parts_iff : l ∈ parts ls ↔ l ∈ ls ∧ Says l := by
  simp [parts, Says]

/-- A lexeme that says something is a part. -/
theorem parts_cons_of_saying (hl : Says l) (ls : List Lexeme) : parts (l :: ls) = l :: parts ls :=
  List.filter_cons_of_pos (by simpa [Says] using hl)

/-- A lexeme that fills its line is no part. -/
theorem parts_cons_of_fills (hl : Fills l) (ls : List Lexeme) : parts (l :: ls) = parts ls := by
  refine List.filter_cons_of_neg ?_
  rcases hl with hkind | hkind <;> simp [hkind]

/-- Lexemes that fill their lines have no parts. -/
theorem parts_of_fills (h : ∀ l ∈ ls, Fills l) : parts ls = [] := by
  refine List.eq_nil_iff_forall_not_mem.mpr fun l hl => ?_
  obtain ⟨hmem, hsaid⟩ := mem_parts_iff.mp hl
  exact hsaid.not_fills (h l hmem)

/-! ### Frames -/

/-- A comment whose first part stands on a line of its own, text on the first line, and whose last
part stands on the line before its closing tag. -/
structure Framed (body : List Lexeme) : Prop where
  opens : ∀ lead first behind, body = lead ++ first :: behind → (∀ l ∈ lead, Fills l) → Says first →
    0 < breaks lead ∧ (first.kind = .docText → breaks lead = 1)
  closes : ∀ front last trail, body = front ++ last :: trail → (∀ l ∈ trail, Fills l) → Says last →
    breaks trail = 1

/-- A body is split in one way at its first part that says something. -/
theorem first_unique {lead₁ lead₂ behind₁ behind₂ : List Lexeme} {first₁ first₂ : Lexeme}
    (h : lead₁ ++ first₁ :: behind₁ = lead₂ ++ first₂ :: behind₂) (hlead₁ : ∀ l ∈ lead₁, Fills l)
    (hlead₂ : ∀ l ∈ lead₂, Fills l) (hfirst₁ : Says first₁) (hfirst₂ : Says first₂) :
    lead₁ = lead₂ ∧ first₁ = first₂ ∧ behind₁ = behind₂ :=
  split_unique hlead₁ hlead₂ hfirst₁.not_fills hfirst₂.not_fills h

/-- And in one way at its last part that says something. -/
theorem last_unique {front₁ front₂ trail₁ trail₂ : List Lexeme} {last₁ last₂ : Lexeme}
    (h : front₁ ++ last₁ :: trail₁ = front₂ ++ last₂ :: trail₂) (htrail₁ : ∀ l ∈ trail₁, Fills l)
    (htrail₂ : ∀ l ∈ trail₂, Fills l) (hlast₁ : Says last₁) (hlast₂ : Says last₂) :
    trail₁ = trail₂ := by
  have hreverse := congrArg List.reverse h
  simp only [List.reverse_append, List.reverse_cons, List.append_assoc, List.singleton_append]
    at hreverse
  have hsame := first_unique hreverse (by simpa using htrail₁)
      (by simpa using htrail₂) hlast₁ hlast₂
  exact List.reverse_injective hsame.1

/-- What is no part of a comment stands in front of the first one. -/
theorem exists_first (hbody : IsBody body) : (∀ l ∈ body, Fills l) ∨ ∃ lead first behind,
    body = lead ++ first :: behind ∧ (∀ l ∈ lead, Fills l) ∧ Says first := by
  induction body with
  | nil => exact .inl (by simp)
  | cons l body ih =>
    obtain ⟨hl, hbody⟩ := List.forall_mem_cons.mp hbody
    rcases hl with hfills | hsaid
    · rcases ih hbody with hnone | ⟨lead, first, behind, rfl, hlead, hfirst⟩
      · exact .inl (List.forall_mem_cons.mpr ⟨hfills, hnone⟩)
      · exact .inr ⟨l :: lead, first, behind, rfl, List.forall_mem_cons.mpr ⟨hfills, hlead⟩, hfirst⟩
    · exact .inr ⟨[], l, body, rfl, by simp, hsaid⟩

/-- A comment is framed if it is so at one first and one last part, as there are no others. -/
theorem framed_of_split (hopens : body = lead ++ first :: behind) (hlead : ∀ l ∈ lead, Fills l)
    (hfirst : Says first) (hpos : 0 < breaks lead) (hone : first.kind = .docText → breaks lead = 1)
    (hcloses : body = front ++ last :: trail) (htrail : ∀ l ∈ trail, Fills l) (hlast : Says last)
    (hline : breaks trail = 1) : Framed body where
  opens lead' first' behind' hsplit hlead' hfirst' := by
    obtain ⟨rfl, rfl, _⟩ := first_unique (hsplit.symm.trans hopens) hlead' hlead hfirst' hfirst
    exact ⟨hpos, hone⟩
  closes front' last' trail' hsplit htrail' hlast' := by
    rwa [last_unique (hsplit.symm.trans hcloses) htrail' htrail hlast' hlast]

/-! ### Spaces between descriptions -/

/-- How many line breaks stand between the end of a description and the text that is not part of it,
if text comes next: behind a part of the description and some line breaks. -/
def longGap? (gap : Nat) : List Lexeme → Option Nat
  | [] => none
  | l :: ls =>
    if l.kind = .docText then if gap = 1 then longGap? 0 ls else some gap
    else if l.kind = .docTag then none
    else longGap? (gap + breaks [l]) ls

/-- A comment that starts with text, and goes on with other text at most two lines below the end of
this. -/
def Spaced (body : List Lexeme) : Prop := ∀ lead first behind, body = lead ++ first :: behind →
    (∀ l ∈ lead, Fills l) → first.kind = .docText → ∀ gap, longGap? 0 behind = some gap → gap ≤ 2

/-- A lexeme that fills its line adds its line breaks to the gap. -/
theorem longGap?_cons_of_fills (hl : Fills l) (gap : Nat) (ls : List Lexeme) :
    longGap? gap (l :: ls) = longGap? (gap + breaks [l]) ls := by
  rcases hl with hkind | hkind
  · rw [longGap?, if_neg (by simp [hkind]), if_neg (by simp [hkind])]
  · rw [longGap?, if_neg (by simp [hkind]), if_neg (by simp [hkind])]

/-- What says nothing only adds its line breaks. -/
theorem longGap?_append_of_fills (hmid : ∀ l ∈ mid, Fills l) (gap : Nat) (ls : List Lexeme) :
    longGap? gap (mid ++ ls) = longGap? (gap + breaks mid) ls := by
  induction mid generalizing gap with
  | nil => rfl
  | cons l mid ih =>
    obtain ⟨hl, hmid⟩ := List.forall_mem_cons.mp hmid
    rw [List.cons_append, longGap?_cons_of_fills hl, ih hmid, breaks_cons l mid, Nat.add_assoc]

/-- Where nothing more is said, no text comes next. -/
theorem longGap?_of_fills (hmid : ∀ l ∈ mid, Fills l) (gap : Nat) : longGap? gap mid = none := by
  have h := longGap?_append_of_fills hmid gap []
  rwa [List.append_nil] at h

/-- And nothing behind the last part. -/
theorem longGap?_append_trail (htrail : ∀ l ∈ trail, Fills l) (gap : Nat) (ls : List Lexeme) :
    longGap? gap (ls ++ trail) = longGap? gap ls := by
  induction ls generalizing gap with
  | nil => exact longGap?_of_fills htrail gap
  | cons l ls ih =>
    rw [List.cons_append, longGap?, longGap?, ih, ih]

/-- A comment is spaced if it is so at one first part, as there is no other. -/
theorem spaced_of_split (hopens : body = lead ++ first :: behind) (hlead : ∀ l ∈ lead, Fills l)
    (hfirst : Says first) (hgap : first.kind = .docText → ∀ gap, longGap? 0 behind = some gap →
      gap ≤ 2) : Spaced body := by
  intro lead' first' behind' hsplit hlead' hkind
  obtain ⟨_, rfl, rfl⟩ := first_unique (hsplit.symm.trans hopens) hlead' hlead (.inr hkind) hfirst
  exact hgap hkind

/-- A comment that says nothing is framed and spaced. -/
theorem framed_of_fills (h : ∀ l ∈ body, Fills l) : Framed body ∧ Spaced body := by
  refine ⟨⟨?_, ?_⟩, ?_⟩
  · rintro lead first behind rfl _ hfirst
    exact absurd (h first (by simp)) hfirst.not_fills
  · rintro front last trail rfl _ hlast
    exact absurd (h last (by simp)) hlast.not_fills
  · rintro lead first behind rfl _ hkind
    exact absurd (h first (by simp)) (Says.not_fills (.inr hkind))

end DocLayout

namespace DocComment

open DocLayout (breaks parts)

variable {l first : Lexeme} {ls ks body lead trail mid mid' : List Lexeme} {onTagLine : Bool}

/-- Whether lexemes say more than tags and what stands on the lines of these. -/
def saysMore (onTagLine : Bool) : List Lexeme → Bool
  | [] => false
  | l :: ls =>
    if l.kind = .docText then !onTagLine || saysMore onTagLine ls
    else if l.kind = .docTag then saysMore true ls
    else saysMore (onTagLine && breaks [l] == 0) ls

/-- What the body of a comment says. -/
def Summary.ofBody (body : List Lexeme) : Summary where
  tags := ((body.filter fun l => l.kind == .docTag).map (·.text)).reverse
  hasContent := saysMore false body

/-- A lexeme that fills its line only tells whether the line of the tag goes on. -/
theorem saysMore_cons_of_fills (hl : Fills l) (onTagLine : Bool) (ls : List Lexeme) :
    saysMore onTagLine (l :: ls) = saysMore (onTagLine && breaks [l] == 0) ls := by
  rcases hl with hkind | hkind
  · rw [saysMore, if_neg (by simp [hkind]), if_neg (by simp [hkind])]
  · rw [saysMore, if_neg (by simp [hkind]), if_neg (by simp [hkind])]

/-- Lexemes that fill their lines only tell whether the line of the tag goes on. -/
theorem saysMore_append_of_fills (hmid : ∀ l ∈ mid, Fills l) (onTagLine : Bool) (ls : List Lexeme) :
    saysMore onTagLine (mid ++ ls) = saysMore (onTagLine && breaks mid == 0) ls := by
  induction mid generalizing onTagLine with
  | nil => simp
  | cons l mid ih =>
    obtain ⟨hl, hmid⟩ := List.forall_mem_cons.mp hmid
    rw [List.cons_append, saysMore_cons_of_fills hl, ih hmid, DocLayout.breaks_cons l mid,
      Bool.and_assoc]
    congr 1
    rw [Bool.eq_iff_iff]
    simp

/-- Lexemes that fill their lines say no more. -/
theorem saysMore_of_fills (hmid : ∀ l ∈ mid, Fills l) (onTagLine : Bool) :
    saysMore onTagLine mid = false := by
  have h := saysMore_append_of_fills hmid onTagLine []
  rwa [List.append_nil] at h

/-- Behind other lexemes, what says the same can be exchanged. -/
theorem saysMore_congr (h : ∀ onTagLine, saysMore onTagLine ls = saysMore onTagLine ks)
    (front : List Lexeme) (onTagLine : Bool) :
    saysMore onTagLine (front ++ ls) = saysMore onTagLine (front ++ ks) := by
  induction front generalizing onTagLine with
  | nil => exact h onTagLine
  | cons l front ih => rw [List.cons_append, List.cons_append, saysMore, saysMore, ih, ih, ih]

/-- What says nothing counts neither in front of all parts nor behind them. -/
theorem saysMore_of_split (hlead : ∀ l ∈ lead, Fills l) (htrail : ∀ l ∈ trail, Fills l)
    (ls : List Lexeme) : saysMore false (lead ++ (ls ++ trail)) = saysMore false ls := by
  have hnone : ∀ onTagLine, saysMore onTagLine trail = saysMore onTagLine [] := by
    intro onTagLine
    rw [saysMore_of_fills htrail, saysMore]
  rw [saysMore_append_of_fills hlead, Bool.false_and, saysMore_congr hnone, List.append_nil]

/-- The tags of a comment are among its parts. -/
theorem tags_eq_parts (body : List Lexeme) :
    (body.filter fun l => l.kind == .docTag) = (parts body).filter fun l => l.kind == .docTag := by
  rw [parts, List.filter_filter]
  refine List.filter_congr fun l _ => ?_
  cases l.kind == .docTag <;> simp

/-- Comments with the same parts have the same tags, and say the same if they say more than tags
alike. -/
theorem Summary.ofBody_congr {body' : List Lexeme} (hparts : parts body' = parts body)
    (hmore : saysMore false body' = saysMore false body) : ofBody body' = ofBody body := by
  rw [ofBody, ofBody, tags_eq_parts, tags_eq_parts body, hparts, hmore]

end DocComment

end PhpStyle
