import PhpStyle.Token.Basic

/-!
# A cursor in a source

A `Cursor` stands between two characters of a source. It has the characters ahead, the number of
bytes behind, and the lexemes cut off so far. Readers move it on, and `emit` cuts off what lies
between an earlier position and this one. That the characters ahead are those of the source from the
position on is part of the cursor, so no reader can lose them; what a reader has to show is that it
moves on.
-/

namespace PhpStyle.Php

/-- A place in a source, with the lexemes cut off in front of it. -/
structure Cursor (source : String) where
  /-- The characters still to be read. -/
  ahead : List Char
  /-- The number of bytes read. -/
  position : Nat
  /-- The lexemes cut off so far. -/
  emitted : Array Lexeme
  /-- The characters ahead are those of the source from the position on. -/
  aligned : ∃ front, source = front ++ String.ofList ahead ∧ front.utf8ByteSize = position

namespace Cursor

variable {source : String}

/-- The cursor in front of a source. -/
def start (source : String) : Cursor source where
  ahead := source.toList
  position := 0
  emitted := #[]
  aligned := ⟨"", by simp⟩

/-- The next character. -/
def peek (c : Cursor source) : Option Char :=
  c.ahead.head?

/-- The character that stands `n` characters behind the next one. -/
def peekAt (c : Cursor source) (n : Nat) : Option Char :=
  c.ahead[n]?

/-- Read one character. -/
def advance (c : Cursor source) : Cursor source :=
  match h : c.ahead with
  | [] => c
  | ch :: rest =>
    { ahead := rest
      position := c.position + ch.utf8Size
      emitted := c.emitted
      aligned := by
        obtain ⟨front, hsource, hposition⟩ := c.aligned
        refine ⟨front.push ch, ?_, by rw [String.utf8ByteSize_push, hposition]⟩
        rw [hsource, h, ← String.toList_inj]
        simp }

/-- The piece of the source between two positions. -/
def slice (source : String) (start stop : Nat) : String :=
  String.Pos.Raw.extract source ⟨start⟩ ⟨stop⟩

/-- Cut off the piece of the source between two positions. -/
def push (c : Cursor source) (kind : Kind) (start stop : Nat) : Cursor source :=
  { c with emitted := c.emitted.push ⟨kind, slice source start stop⟩ }

/-- Cut off what was read since a position, if anything was. -/
def emit (c : Cursor source) (kind : Kind) (start : Nat) : Cursor source :=
  if start < c.position then c.push kind start c.position else c

/-! ### What the primitives read -/

/-- A step leaves all characters ahead but the first. -/
@[simp] theorem ahead_advance (c : Cursor source) : c.advance.ahead = c.ahead.tail := by
  unfold advance
  split
  · rename_i h
    rw [h, List.tail_nil]
  · rename_i h
    exact (congrArg List.tail h).symm

/-- Pushing a token does not move the cursor. -/
@[simp] theorem ahead_push (c : Cursor source) (kind : Kind) (start stop : Nat) :
    (c.push kind start stop).ahead = c.ahead := rfl

/-- Emitting a token does not move the cursor. -/
@[simp] theorem ahead_emit (c : Cursor source) (kind : Kind) (start : Nat) :
    (c.emit kind start).ahead = c.ahead := by
  unfold emit
  split <;> rfl

/-- There are as many bytes ahead as the source has behind the position. -/
theorem position_add_size (c : Cursor source) :
    c.position + (String.ofList c.ahead).utf8ByteSize = source.utf8ByteSize := by
  obtain ⟨front, hsource, hposition⟩ := c.aligned
  have hsize := congrArg String.utf8ByteSize hsource
  rw [String.utf8ByteSize_append, hposition] at hsize
  exact hsize.symm

/-- Nothing is ahead exactly at the end of the source. -/
theorem position_lt_iff {c : Cursor source} :
    c.position < source.utf8ByteSize ↔ c.ahead ≠ [] := by
  have hsize := c.position_add_size
  constructor
  · intro hlt hnil
    rw [hnil] at hsize
    simp at hsize
    omega
  · intro hne
    obtain ⟨ch, rest, hahead⟩ := List.exists_cons_of_ne_nil hne
    have hpos := ch.utf8Size_pos
    rw [hahead, String.ofList_cons, String.utf8ByteSize_append, String.utf8ByteSize_singleton]
      at hsize
    omega

/-- A cursor that sees a character has characters ahead. -/
theorem ahead_ne_nil_of_peek {c : Cursor source} {ch : Char} (h : c.peek = some ch) :
    c.ahead ≠ [] := by
  intro hnil
  rw [peek, hnil] at h
  cases h

/-- A step never goes back. -/
theorem length_advance_le (c : Cursor source) : c.advance.ahead.length ≤ c.ahead.length := by
  rw [ahead_advance, List.length_tail]
  omega

/-- Reading a character leaves fewer ahead. -/
theorem length_advance_lt {c : Cursor source} (h : c.ahead ≠ []) :
    c.advance.ahead.length < c.ahead.length := by
  have hpos := List.length_pos_iff.mpr h
  rw [ahead_advance, List.length_tail]
  omega

/-! ### Readers that every lexeme shares -/

/-- Read up to a position, or to the end. -/
def skipTo (target : Nat) (c : Cursor source) : Cursor source :=
  if _ : c.position < target ∧ c.ahead ≠ [] then c.advance.skipTo target else c
termination_by c.ahead.length
decreasing_by exact length_advance_lt (And.right ‹_›)

/-- Read a number of bytes. -/
def skip (n : Nat) (c : Cursor source) : Cursor source :=
  c.skipTo (c.position + n)

/-- Read all characters that pass a test. -/
def advanceWhile (test : Char → Bool) (c : Cursor source) : Cursor source :=
  match _ : c.peek with
  | none => c
  | some ch => if test ch then c.advance.advanceWhile test else c
termination_by c.ahead.length
decreasing_by exact length_advance_lt (ahead_ne_nil_of_peek ‹_›)

/-- Read to the end of the line, line break and all. -/
def advanceLine (c : Cursor source) : Cursor source :=
  match _ : c.peek with
  | none => c
  | some ch => if ch = '\n' then c.advance else c.advance.advanceLine
termination_by c.ahead.length
decreasing_by exact length_advance_lt (ahead_ne_nil_of_peek ‹_›)

/-- Skipping to a position never goes back. -/
theorem length_skipTo_le (target : Nat) (c : Cursor source) :
    (c.skipTo target).ahead.length ≤ c.ahead.length := by
  fun_induction skipTo target c with
  | case1 c h ih => exact Nat.le_trans ih (length_advance_le c)
  | case2 c h => exact Nat.le_refl _

/-- Skipping some bytes never goes back. -/
theorem length_skip_le (n : Nat) (c : Cursor source) :
    (c.skip n).ahead.length ≤ c.ahead.length :=
  length_skipTo_le _ c

/-- Reading some bytes leaves fewer characters ahead. -/
theorem length_skip_lt {n : Nat} {c : Cursor source} (hn : 0 < n) (h : c.ahead ≠ []) :
    (c.skip n).ahead.length < c.ahead.length := by
  rw [skip, skipTo, dif_pos ⟨by omega, h⟩]
  exact Nat.lt_of_le_of_lt (length_skipTo_le _ _) (length_advance_lt h)

/-- Advancing over characters never goes back. -/
theorem length_advanceWhile_le (test : Char → Bool) (c : Cursor source) :
    (c.advanceWhile test).ahead.length ≤ c.ahead.length := by
  fun_induction advanceWhile test c with
  | case1 c h => exact Nat.le_refl _
  | case2 c ch h htest ih => exact Nat.le_trans ih (length_advance_le c)
  | case3 c ch h htest => exact Nat.le_refl _

/-- Reading what passes a test leaves fewer characters ahead if the next one does. -/
theorem length_advanceWhile_lt {test : Char → Bool} {c : Cursor source} {ch : Char}
    (h : c.peek = some ch) (htest : test ch = true) :
    (c.advanceWhile test).ahead.length < c.ahead.length := by
  rw [advanceWhile]
  split
  · simp_all
  · rename_i found hfound
    obtain rfl : found = ch := Option.some.inj (hfound.symm.trans h)
    rw [if_pos htest]
    exact Nat.lt_of_le_of_lt (length_advanceWhile_le _ _)
      (length_advance_lt (ahead_ne_nil_of_peek h))

/-- Advancing over a line never goes back. -/
theorem length_advanceLine_le (c : Cursor source) :
    c.advanceLine.ahead.length ≤ c.ahead.length := by
  fun_induction advanceLine c with
  | case1 c h => exact Nat.le_refl _
  | case2 c h => exact length_advance_le c
  | case3 c ch h hbreak ih => exact Nat.le_trans ih (length_advance_le c)

/-- Reading a line leaves fewer characters ahead. -/
theorem length_advanceLine_lt {c : Cursor source} (h : c.ahead ≠ []) :
    c.advanceLine.ahead.length < c.ahead.length := by
  rw [advanceLine]
  split
  · rename_i hnone
    exact absurd (List.head?_eq_none_iff.mp hnone) h
  · split
    · exact length_advance_lt h
    · exact Nat.lt_of_le_of_lt (length_advanceLine_le _) (length_advance_lt h)

end Cursor

end PhpStyle.Php
