import Mathlib.Data.List.TakeWhile
import PhpStyle.Proofs.Edit.Visible
import PhpStyle.Proofs.Store.Walking

/-!
# Blanks that rules write

Line breaks and indentation are blank, whatever the settings and the file are, so edits that put
them beside a token or in place of whitespace are edits of layout.
-/

namespace PhpStyle

/-- Indentation is blank. -/
theorem IndentStyle.isBlank_pad (style : IndentStyle) (columns : Nat) :
    Text.isBlank (style.pad columns) = true := by
  rw [Text.isBlank, pad, String.toList_ofList, List.all_replicate]
  cases style <;> simp [char, Text.isSpace]

/-- The line break of a file is one of the two that there are. -/
theorem File.newline_cases (settings : Settings) (s : Store) :
    (File.ofStore s).newline settings = "\n" ∨ (File.ofStore s).newline settings = "\r\n" := by
  have hfound (cs : List Char) : ∀ text, firstLineBreak? cs = some text → text = "\n" ∨
      text = "\r\n" := by
    fun_induction firstLineBreak? cs with
    | case1 => nofun
    | case2 =>
      rintro _ ⟨⟩
      exact .inr rfl
    | case3 =>
      rintro _ ⟨⟩
      exact .inl rfl
    | case4 _ _ _ _ ih => exact ih
  rw [newline]
  cases hbreak : (File.ofStore s).lineBreak? with
  | some text => exact hfound _ text hbreak
  | none =>
    rw [Option.getD_none]
    cases settings.lineEnding <;> decide

/-- The line break of a file is blank. -/
theorem File.isBlank_newline (settings : Settings) (s : Store) :
    Text.isBlank ((File.ofStore s).newline settings) = true := by
  rcases newline_cases settings s with h | h
  · rw [h]
    decide
  · rw [h]
    decide

/-- A file is made of its store. -/
@[simp] theorem File.ofStore_store (s : Store) : (File.ofStore s).store = s := rfl

namespace Finding

variable {α : Type} {p : Prop} [Decidable p] {a b : α}

/-- A check that reports one finding unless something holds. -/
theorem mem_unless_iff : a ∈ (if p then [] else [b]) ↔ ¬ p ∧ a = b := by
  rw [List.mem_ite_nil_left, List.mem_singleton]

/-- A check that reports one finding when something holds. -/
theorem mem_when_iff : a ∈ (if p then [b] else []) ↔ p ∧ a = b := by
  rw [List.mem_ite_nil_right, List.mem_singleton]

end Finding

namespace Store

variable {s : Store} {i j : Nat}

/-- Between two tokens are those behind the first and in front of the second. -/
theorem mem_between {k : Nat} : k ∈ s.between i j ↔ i < k ∧ k < j := by
  rw [between, List.mem_range'_1]
  omega

/-- The tokens behind a token that pass a test are a row, and so are those from the first that does
not. -/
theorem exists_takeWhile_between (s : Store) (i j : Nat) (test : Nat → Bool) :
    ∃ count, (s.between i j).takeWhile test = List.range' (i + 1) count ∧
      (s.between i j).dropWhile test = List.range' (i + 1 + count) (j - (i + 1) - count) := by
  obtain ⟨count, _, hcount, hrest⟩ :=
    List.range'_eq_append_iff.mp
      (List.takeWhile_append_dropWhile (p := test) (l := s.between i j)).symm
  exact ⟨count, hcount, by rwa [Nat.mul_one] at hrest⟩

/-- Of the tokens between two others those are taken that pass a test together with all in front of
them. -/
theorem mem_takeWhile_between_iff {test : Nat → Bool} {p : Nat} :
    p ∈ (s.between i j).takeWhile test ↔ p ∈ s.between i j ∧ ∀ k, i < k → k ≤ p →
      test k = true := by
  obtain ⟨count, hcount, hrest⟩ := s.exists_takeWhile_between i j test
  constructor
  · intro hp
    refine ⟨(List.takeWhile_sublist _).mem hp,
      fun k hk hkp => List.mem_takeWhile_imp (l := s.between i j) ?_⟩
    rw [hcount, List.mem_range'_1] at hp ⊢
    omega
  · rintro ⟨hp, htest⟩
    by_contra hmem
    obtain ⟨hlow, hhigh⟩ := mem_between.mp hp
    rw [hcount, List.mem_range'_1] at hmem
    obtain ⟨n, hn⟩ : ∃ n, j - (i + 1) - count = n + 1 := ⟨j - (i + 1) - count - 1, by omega⟩
    rw [hn, List.range'_succ] at hrest
    have hstop := List.head?_dropWhile_not test (s.between i j)
    rw [hrest, List.head?_cons] at hstop
    have hpass := htest (i + 1 + count) (by omega) (by omega)
    simp [hpass] at hstop

/-- Between two tokens the lines are taken that lie behind one line, up to another. -/
theorem mem_onLinesBetween_iff {low high p : Nat} :
    p ∈ s.onLinesBetween low high (s.between i j) ↔ p ∈ s.between i j ∧ s.line p ≠ low ∧
      ∀ k, i < k → k ≤ p → s.line k = low ∨ s.line k ≠ high := by
  rw [onLinesBetween, List.mem_filter, mem_takeWhile_between_iff]
  simp only [Bool.or_eq_true, beq_iff_eq, bne_iff_ne]
  rw [and_assoc, and_comm (a := s.line p ≠ low)]

end Store

end PhpStyle
