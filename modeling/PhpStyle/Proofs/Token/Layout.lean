import PhpStyle.Proofs.Edit.Splicing
import PhpStyle.Token.Basic

/-!
# Tokens in place

Laying lexemes out makes one token of each and keeps its text. The offset of a token counts the
bytes of the texts in front of it, so tokens stand side by side: each starts where the one before it
ends.
-/

namespace PhpStyle

namespace Place

/-- The offset goes on by the bytes of the characters passed. -/
theorem foldl_step_offset (p : Place) (cs : List Char) :
    (cs.foldl step p).offset = p.offset + Splice.byteLength cs := by
  induction cs generalizing p with
  | nil => rfl
  | cons c cs ih =>
    have hstep : (p.step c).offset = p.offset + c.utf8Size := by
      unfold step
      split <;> rfl
    rw [List.foldl_cons, ih, hstep, Splice.byteLength]
    omega

/-- The place behind a text lies as many bytes further as the text has. -/
@[simp] theorem after_offset (p : Place) (text : String) :
    (p.after text).offset = p.offset + text.utf8ByteSize := by
  rw [after, foldl_step_offset, Splice.byteLength_toList]

end Place

namespace Token

/-- Lexemes are laid out as that many tokens. -/
@[simp] theorem length_layoutFrom (p : Place) (lexemes : List Lexeme) :
    (layoutFrom p lexemes).length = lexemes.length := by
  induction lexemes generalizing p with
  | nil => rfl
  | cons l lexemes ih => simp [layoutFrom, ih]

/-- Laying lexemes out keeps their texts. -/
@[simp] theorem map_text_layoutFrom (p : Place) (lexemes : List Lexeme) :
    (layoutFrom p lexemes).map (·.text) = lexemes.map (·.text) := by
  induction lexemes generalizing p with
  | nil => rfl
  | cons l lexemes ih => simp [layoutFrom, put, ih]

/-- Laying lexemes out keeps the lexemes. -/
@[simp] theorem map_lexeme_layoutFrom (p : Place) (lexemes : List Lexeme) :
    (layoutFrom p lexemes).map (fun t => (⟨t.kind, t.text⟩ : Lexeme)) = lexemes := by
  induction lexemes generalizing p with
  | nil => rfl
  | cons l lexemes ih => simp [layoutFrom, put, ih]

end Token

end PhpStyle
