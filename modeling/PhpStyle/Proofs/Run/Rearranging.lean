import PhpStyle.Proofs.Edit.Moves
import PhpStyle.Proofs.Run.Frames

/-!
# Passes that move braces

If the fixes of some rules are of layout, bring a brace behind another token, or put blanks in place
of a token, a pass with these rules keeps code and comments exactly if it applies none that covers
content with blanks and none that moves a brace on.
-/

namespace PhpStyle

open Text (isBlank visible)

/-- What is known of a brace that is brought behind another token: besides the two edits that move
it there are edits of layout only, and on its way back it passes no code. -/
structure RaisesBrace (s : Store) (q b : Nat) (rest : Changeset) : Prop where
  take : Edit.replace b "" ∈ rest
  others : ∀ e ∈ rest, e = .replace b "" ∨ e.IsLayout s
  brace : s.kind b = .openCurly
  code : (s.kind q).isTrivia = false
  back : ∀ k, q < k → k < b → (s.kind k).isTrivia = true
  onward : b < q → s.kind q = .closeParen

namespace Finding

/-- A fix that puts its text in place of a comment, or of a token that goes on over the end of its
line. -/
def CoversContent (s : Store) (f : Finding) : Prop :=
  ∃ k text, f.fix = some [.replace k text] ∧
    ((s.kind k).isComment = true ∨ (s.kind k).isWrapping = true)

/-- A fix that puts a brace behind a token further on. -/
def MovesBraceOn (f : Finding) : Prop :=
  ∃ q rest, f.fix = some (.append q " \x7b" :: rest) ∧ f.index < q

/-- A fix of layout, one that moves a brace, or one that puts blanks in place of content. -/
def Shifts (s : Store) (f : Finding) : Prop :=
  f.OnlyLayout s ∨
  (∃ q rest, f.fix = some (.append q " \x7b" :: rest) ∧ RaisesBrace s q f.index rest) ∨
  ∃ k blank, f.fix = some [.replace k blank] ∧ isBlank blank = true ∧
    ((s.kind k).isComment = true ∧ visible (s.text k) ≠ [] ∨ (s.kind k).isWrapping = true)

variable {s : Store} {f : Finding}

/-- A fix that starts by putting a brace behind a token raises the brace that was found. -/
theorem Shifts.raises (h : f.Shifts s) {q : Nat} {rest : Changeset}
    (hfix : f.fix = some (.append q " \x7b" :: rest)) : RaisesBrace s q f.index rest := by
  rcases h with hlayout | ⟨q', rest', hfix', hraises⟩ | ⟨k, blank, hfix', _⟩
  · have hblank : isBlank " \x7b" = true := hlayout _ hfix _ List.mem_cons_self
    exact absurd hblank (by decide)
  · cases hfix.symm.trans hfix'
    exact hraises
  · cases hfix.symm.trans hfix'

/-- A fix that replaces a comment, or a token that runs over lines, puts blanks in place of
something visible. -/
theorem Shifts.covers (h : f.Shifts s) {k : Nat} {text : String}
    (hfix : f.fix = some [.replace k text])
    (hk : (s.kind k).isComment = true ∨ (s.kind k).isWrapping = true) : isBlank text = true ∧
      ((s.kind k).isComment = true ∧ visible (s.text k) ≠ [] ∨ (s.kind k).isWrapping = true) := by
  rcases h with hlayout | ⟨q, rest, hfix', _⟩ | ⟨k', blank, hfix', hspec⟩
  · have hspace : s.kind k = .whitespace := (hlayout _ hfix _ List.mem_cons_self).1
    rw [hspace] at hk
    exact absurd hk (by decide)
  · cases hfix.symm.trans hfix'
  · cases hfix.symm.trans hfix'
    exact hspec

end Finding

section

variable {s : Store} {judged : List (Finding × FixStatus)}

/-- The braces that applied fixes move, each with the token behind which it is put. -/
def MovedBy (judged : List (Finding × FixStatus)) (q b : Nat) : Prop :=
  ∃ f rest, (f, .applied) ∈ judged ∧ f.index = b ∧ f.fix = some (.append q " \x7b" :: rest)

/-- The tokens of content in whose place applied fixes put a text. -/
def CoveredBy (s : Store) (judged : List (Finding × FixStatus)) (k : Nat) : Prop :=
  ∃ f text, (f, .applied) ∈ judged ∧ f.fix = some [.replace k text] ∧
    ((s.kind k).isComment = true ∨ (s.kind k).isWrapping = true)

variable (hnodup : ((appliedEdits judged).map (·.target)).Nodup)
  (hshifts : ∀ f, (f, .applied) ∈ judged → f.Shifts s)

include hshifts

/-- What is known of a brace that an applied fix moves, and where the edits of the fix are. -/
theorem raises_of_movedBy {q b : Nat} (h : MovedBy judged q b) : ∃ rest, RaisesBrace s q b rest ∧
    ∀ e ∈ Edit.append q " \x7b" :: rest, e ∈ appliedEdits judged := by
  obtain ⟨f, rest, hf, rfl, hfix⟩ := h
  exact ⟨rest, (hshifts f hf).raises hfix, fun e he => mem_appliedEdits.mpr ⟨f, _, hf, hfix, he⟩⟩

/-- The edits of accepted fixes are layout, move a brace or put blanks in place of content. -/
theorem appliedEdits_cases : ∀ e ∈ appliedEdits judged, e.IsLayout s ∨
    (∃ q b, MovedBy judged q b ∧ e = .append q " \x7b") ∨
    (∃ q b, MovedBy judged q b ∧ e = .replace b "") ∨
    ∃ k blank, CoveredBy s judged k ∧ isBlank blank = true ∧ e = .replace k blank := by
  intro e he
  obtain ⟨f, c, hf, hfix, hmem⟩ := mem_appliedEdits.mp he
  rcases hshifts f hf with hlayout | ⟨q, rest, hmove, hraises⟩ | ⟨k, blank, hcover, hblank, hk⟩
  · exact .inl (hlayout c hfix e hmem)
  · cases hfix.symm.trans hmove
    have hmoved : MovedBy judged q f.index := ⟨f, rest, hf, rfl, hmove⟩
    rcases List.mem_cons.mp hmem with rfl | hmem
    · exact .inr (.inl ⟨q, f.index, hmoved, rfl⟩)
    · rcases hraises.others e hmem with rfl | hlayout
      · exact .inr (.inr (.inl ⟨q, f.index, hmoved, rfl⟩))
      · exact .inl hlayout
  · cases hfix.symm.trans hcover
    obtain rfl := List.mem_singleton.mp hmem
    have hcovered : CoveredBy s judged k := ⟨f, blank, hf, hcover, hk.imp_left And.left⟩
    exact .inr (.inr (.inr ⟨k, blank, hcovered, hblank, rfl⟩))

include hnodup

/-- The edits of applied fixes that shift move braces and clear content. -/
theorem rearranges_of_shifts :
    Rearranges s (appliedEdits judged) (MovedBy judged) (CoveredBy s judged) where
  nodup := hnodup
  cases := appliedEdits_cases hshifts
  put q b h := by
    obtain ⟨rest, _, hedits⟩ := raises_of_movedBy hshifts h
    exact hedits _ List.mem_cons_self
  take q b h := by
    obtain ⟨rest, hraises, hedits⟩ := raises_of_movedBy hshifts h
    exact hedits _ (List.mem_cons_of_mem _ hraises.take)
  clear k h := by
    obtain ⟨f, text, hf, hfix, hk⟩ := h
    obtain ⟨hblank, _⟩ := (hshifts f hf).covers hfix hk
    exact ⟨text, hblank, mem_appliedEdits.mpr ⟨f, _, hf, hfix, List.mem_cons_self⟩⟩
  shown k h := by
    obtain ⟨f, text, hf, hfix, hk⟩ := h
    exact ((hshifts f hf).covers hfix hk).2
  brace q b h := (raises_of_movedBy hshifts h).choose_spec.1.brace
  code q b h := (raises_of_movedBy hshifts h).choose_spec.1.code
  back q b h := (raises_of_movedBy hshifts h).choose_spec.1.back
  onward q b h := (raises_of_movedBy hshifts h).choose_spec.1.onward
  one_brace q b b' h h' := by
    obtain ⟨f, rest, hf, rfl, hfix⟩ := h
    obtain ⟨f', rest', hf', rfl, hfix'⟩ := h'
    rw [applied_unique hnodup hf hf' hfix hfix' List.mem_cons_self List.mem_cons_self rfl]

/-- Such fixes keep the code exactly if none covers content and none moves a brace on. -/
theorem keepsCode_iff_of_shifts (hs : Php.Sound s) : KeepsCode s (appliedEdits judged) ↔
    ∀ f, (f, .applied) ∈ judged → ¬ f.CoversContent s ∧ ¬ f.MovesBraceOn := by
  have hrearranges := rearranges_of_shifts hnodup hshifts
  rw [hrearranges.keepsCode_iff hs]
  constructor
  · rintro ⟨hback, hclear⟩ f hf
    constructor
    · rintro ⟨k, text, hfix, hk⟩
      exact hclear k ⟨f, text, hf, hfix, hk⟩
    · rintro ⟨q, rest, hfix, hlt⟩
      exact Nat.lt_asymm hlt (hback q f.index ⟨f, rest, hf, rfl, hfix⟩)
  · intro hnone
    constructor
    · intro q b hmoved
      have hne := hrearranges.put_ne_take hmoved hmoved
      obtain ⟨f, rest, hf, rfl, hfix⟩ := hmoved
      by_contra hge
      exact (hnone f hf).2 ⟨q, rest, hfix, by omega⟩
    · rintro k ⟨f, text, hf, hfix, hk⟩
      exact (hnone f hf).1 ⟨k, text, hfix, hk⟩

end

namespace Php

/-- Rules whose fixes shift whatever they find. -/
def Shifting (rules : List Rule) : Prop :=
  ∀ s, Sound s → ∀ rule ∈ rules, ∀ i, ∀ f ∈ rule.runAt (.ofStore s) i, f.Shifts s

/-- A pass with such rules keeps the code exactly if no fix that it applies covers content or moves
a brace on. -/
theorem Shifting.keepsCode_iff {rules : List Rule} (hrules : Shifting rules) {pass : Nat}
    {text : String} {p : Engine.Pass}
    (h : (Engine.ofRules tokenize rules).runPass pass text = .ok p) :
    KeepsCode p.store (appliedEdits p.judged) ↔
      ∀ f, (f, .applied) ∈ p.judged → ¬ f.CoversContent p.store ∧ ¬ f.MovesBraceOn := by
  obtain ⟨hsound, _, hnodup, _, happlied⟩ := pass_spec h
  refine keepsCode_iff_of_shifts hnodup (fun f hf => ?_) hsound
  obtain ⟨i, _, rule, hrule, _, hmem⟩ := Engine.mem_findings_iff.mp (happlied f hf).1
  exact hrules p.store hsound rule hrule i f hmem

end Php

end PhpStyle
