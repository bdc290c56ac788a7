import PhpStyle.Proofs.Php.Relexing

/-!
# Texts that are patched in many places

A pass changes a text in many places at once, and what is read in front of one change depends on the
text behind it, with all the changes there. Two texts agree for the lexer if they are the same up to
a character that bounds what is read in front of it. So where every patch starts with such a
character, and is read in front of every text that agrees with the old one, the patched text is read
as it was put together.
-/

namespace PhpStyle.Php

open Lexer

/-- Texts that are the same, or the same up to and with a bound. -/
inductive Agree : List Char → List Char → Prop
  | refl (a : List Char) : Agree a a
  | bound {x : Char} (u a b : List Char) (hx : x ∈ '\n' :: '/' :: marks) :
      Agree (u ++ x :: a) (u ++ x :: b)

variable {mode next : Mode} {l : Lexeme} {ls ks old new : List Lexeme}
    {a b rest : List Char} {n : Nat}

/-- Texts agree with the same characters in front. -/
theorem Agree.append (h : Agree a b) (u : List Char) : Agree (u ++ a) (u ++ b) := by
  cases h with
  | refl => exact .refl _
  | bound v a b hx =>
    rw [← List.append_assoc, ← List.append_assoc]
    exact .bound (u ++ v) a b hx

/-- Texts that agree start with the same character. -/
theorem Agree.head? (h : Agree a b) : a.head? = b.head? := by
  cases h with
  | refl => rfl
  | bound u a b hx => cases u <;> rfl

/-- A lexeme is read in front of texts that agree. -/
theorem Reads.of_agree (hl : Reads mode l a next) (h : Agree a b) : Reads mode l b next := by
  cases h with
  | refl => exact hl
  | bound u a b hx =>
    have hname : ∀ c ∈ ['n', 'N'], c ∉ '\n' :: '/' :: marks := by decide
    exact hl.bound (.same hx) (absurd rfl) fun hn => absurd hx (hname _ hn)

/-- Lexemes are read the same in front of texts that agree. -/
theorem ReadsAll.of_agree (hls : ReadsAll mode ls a next) (h : Agree a b) :
    ReadsAll mode ls b next := by
  induction hls with
  | nil mode => exact .nil mode b
  | cons hl _ ih => exact .cons (hl.of_agree (h.append _)) (ih h)

/-- What may stand in the place of some lexemes: given are the position of the first, the lexemes,
those in their place, and those behind. -/
abbrev Patch := Nat → List Lexeme → List Lexeme → List Lexeme → Prop

/-- Lexemes made of others, patch by patch, the first of them at a position. -/
inductive Patched (P : Patch) : Nat → List Lexeme → List Lexeme → Prop
  | nil (n : Nat) : Patched P n [] []
  | cons {n : Nat} {old new ls ks : List Lexeme} (hpatch : P n old new ls)
      (hrest : Patched P (n + old.length) ls ks) : Patched P n (old ++ ls) (new ++ ks)

/-- Patches that start with a bound if they change anything, and are read in place of the lexemes
that were read. -/
structure Patch.Rereads (P : Patch) : Prop where
  agree : ∀ {n old new ls}, P n old new ls → ∀ {a b}, Agree a b →
    Agree (letters old ++ a) (letters new ++ b)
  reads : ∀ {n old new ls}, P n old new ls → ∀ {mode next rest},
    ReadsAll mode old (letters ls) next →
    lexFrom next (letters ls) = ls → Agree (letters ls) rest → ReadsAll mode new rest next

variable {P : Patch}

/-- Patched lexemes agree in their characters with those that were read. -/
theorem Patched.agree (hP : P.Rereads) (h : Patched P n ls ks) :
    Agree (letters ls) (letters ks) := by
  induction h with
  | nil => exact .refl _
  | cons hpatch _ ih =>
    rw [letters_append, letters_append]
    exact hP.agree hpatch ih

/-- A patched text is read as it was put together. -/
theorem Patched.lexFrom_eq (hP : P.Rereads) (h : Patched P n ls ks)
    (hlex : lexFrom mode (letters ls) = ls) : lexFrom mode (letters ks) = ks := by
  induction h generalizing mode with
  | nil => exact hlex
  | @cons n old new ls ks hpatch hrest ih =>
    obtain ⟨next, _, hold, hbehind⟩ := exists_readsAll hlex
    have hnew := hP.reads hpatch hold hbehind (hrest.agree hP)
    rw [letters_append, hnew.lexFrom_append, ih hbehind]

end PhpStyle.Php
