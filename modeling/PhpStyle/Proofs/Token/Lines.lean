import Mathlib.Data.List.Chain
import PhpStyle.Proofs.Token.Layout

/-!
# Lines and columns

A token starts on the line of the token before it, or as many lines further down as that token has
line breaks, and behind a line break it starts in the first column. So lines never fall along a
file.
-/

namespace PhpStyle

namespace Place

/-- The line goes on by the line feeds of the characters passed. -/
theorem foldl_step_line (p : Place) (cs : List Char) :
    (cs.foldl step p).line = p.line + cs.count '\n' := by
  induction cs generalizing p with
  | nil => rfl
  | cons c cs ih =>
    rw [List.foldl_cons, ih, step]
    split
    · rename_i hc
      simp only [hc, List.count_cons_self]
      omega
    · rename_i hc
      simp [hc]

/-- The place behind a text lies as many lines further as the text has line breaks. -/
@[simp] theorem after_line (p : Place) (text : String) :
    (p.after text).line = p.line + text.toList.count '\n' :=
  foldl_step_line p text.toList

/-- Behind a line break a line starts. -/
theorem after_column {p : Place} {text : String} (h : text.toList.getLast? = some '\n') :
    (p.after text).column = 1 := by
  obtain ⟨before, hsplit⟩ := List.getLast?_eq_some_iff.mp h
  rw [after, hsplit, List.foldl_append]
  rfl

/-- Behind a text without line breaks a line goes on. -/
theorem after_column_add {p : Place} {text : String} (h : '\n' ∉ text.toList) :
    (p.after text).column = p.column + text.length := by
  have hfold (cs : List Char) (hcs : '\n' ∉ cs) (p : Place) :
      (cs.foldl step p).column = p.column + cs.length := by
    induction cs generalizing p with
    | nil => rfl
    | cons c cs ih =>
      rw [List.mem_cons, not_or] at hcs
      rw [List.foldl_cons, ih hcs.2, step, if_neg (Ne.symm hcs.1), List.length_cons]
      exact Nat.add_right_comm p.column 1 cs.length
  rw [after, hfold _ h, String.length_toList]

end Place

namespace Token

/-- Where a token starts that follows another. -/
structure Follows (a b : Token) : Prop where
  line : b.line = a.line + a.text.toList.count '\n'
  column : a.text.toList.getLast? = some '\n' → b.column = 1

/-- What holds of two lexemes put side by side holds along the tokens of a file. -/
theorem isChain_layoutFrom_of {R : Token → Token → Prop}
    (h : ∀ p l l', R (put p l) (put (p.after l.text) l')) (p : Place) (lexemes : List Lexeme) :
    (layoutFrom p lexemes).IsChain R := by
  induction lexemes generalizing p with
  | nil => exact .nil
  | cons l lexemes ih =>
    cases lexemes with
    | nil => exact .singleton _
    | cons l' lexemes => exact .cons_cons (h p l l') (ih (p.after l.text))

/-- A token laid out tells the length of its text. -/
theorem length_of_mem_layoutFrom {p : Place} {lexemes : List Lexeme} :
    ∀ t ∈ layoutFrom p lexemes, t.length = t.text.length := by
  induction lexemes generalizing p with
  | nil => simp [layoutFrom]
  | cons l lexemes ih => exact List.forall_mem_cons.mpr ⟨rfl, ih⟩

end Token

end PhpStyle
