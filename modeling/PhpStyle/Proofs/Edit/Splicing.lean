import PhpStyle.Edit.Splice

/-!
# What splicing makes of a text

`splice` counts bytes: it sorts edits by their spans, checks the ends of the spans, and replaces the
spans from the last to the first in a text that changes under it. This file says in terms of
characters what comes out. `Spliced` cuts a text into gaps, which stay, and covered stretches, which
give way to replacements. Edits that cut a text in this way are in order and pass every check, and
the loop leaves the gaps with the replacements between them.
-/

namespace PhpStyle.Splice

/-- Ordered edits cut the text that starts at byte `pos` into gaps and covered stretches; the last
text is what is left when each stretch gives way to its replacement. -/
inductive Spliced : Nat → List Char → List TextEdit → List Char → Prop
  | done (pos : Nat) (text : List Char) : Spliced pos text [] text
  | edit (gap covered : List Char) {pos : Nat} {rest out : List Char} {e : TextEdit}
      {edits : List TextEdit} (hstart : e.start = pos + byteLength gap)
      (hstop : e.stop = e.start + byteLength covered) (hrest : Spliced e.stop rest edits out) :
      Spliced pos (gap ++ (covered ++ rest)) (e :: edits) (gap ++ (e.replacement.toList ++ out))

/-- Texts put together have the bytes of each. -/
@[simp] theorem byteLength_append (a b : List Char) :
    byteLength (a ++ b) = byteLength a + byteLength b := by
  induction a with
  | nil => simp [byteLength]
  | cons c a ih =>
    simp only [List.cons_append, byteLength, ih]
    omega

/-- The two ways of counting the bytes of a text agree. -/
@[simp] theorem byteLength_toList (s : String) : byteLength s.toList = s.utf8ByteSize := by
  have hof (cs : List Char) : (String.ofList cs).utf8ByteSize = byteLength cs := by
    induction cs with
    | nil => rfl
    | cons c cs ih =>
      have hcons : String.ofList (c :: cs) = String.singleton c ++ String.ofList cs := by
        rw [← String.toList_inj]
        simp
      rw [hcons, String.utf8ByteSize_append, String.utf8ByteSize_singleton, ih, byteLength]
  rw [← hof, String.ofList_toList]

/-- There is a boundary behind every beginning of a text. -/
theorem isBoundary_append (a b : List Char) : isBoundary (a ++ b) (byteLength a) = true := by
  induction a with
  | nil => cases b <;> rfl
  | cons c a ih =>
    have hpos := c.utf8Size_pos
    obtain ⟨n, hn⟩ : ∃ n, byteLength (c :: a) = n + 1 := ⟨byteLength (c :: a) - 1, by
      simp only [byteLength]; omega⟩
    have hrest : n + 1 - c.utf8Size = byteLength a := by
      simp only [byteLength] at hn
      omega
    simp only [hn, List.cons_append, isBoundary, hrest, ih, Bool.and_true, decide_eq_true_eq]
    simp only [byteLength] at hn
    omega

/-- Taking bytes past the end of a first text takes that text and bytes of the second. -/
theorem takeBytes_append (a b : List Char) (n : Nat) :
    takeBytes (byteLength a + n) (a ++ b) = a ++ takeBytes n b := by
  induction a with
  | nil => simp [byteLength]
  | cons c a ih =>
    have hsub : c.utf8Size + byteLength a + n - c.utf8Size = byteLength a + n := by omega
    rw [List.cons_append, byteLength, takeBytes, if_pos (by omega), hsub, ih, List.cons_append]

/-- Taking no bytes takes nothing. -/
theorem takeBytes_zero (text : List Char) : takeBytes 0 text = [] := by
  cases text with
  | nil => rfl
  | cons c text =>
    have hpos := c.utf8Size_pos
    rw [takeBytes, if_neg (by omega)]

/-- Dropping bytes past the end of a first text drops that text and bytes of the second. -/
theorem dropBytes_append (a b : List Char) (n : Nat) :
    dropBytes (byteLength a + n) (a ++ b) = dropBytes n b := by
  induction a with
  | nil => simp [byteLength]
  | cons c a ih =>
    have hsub : c.utf8Size + byteLength a + n - c.utf8Size = byteLength a + n := by omega
    rw [List.cons_append, byteLength, dropBytes, if_pos (by omega), hsub, ih]

/-- Dropping no bytes leaves everything. -/
theorem dropBytes_zero (text : List Char) : dropBytes 0 text = text := by
  cases text with
  | nil => rfl
  | cons c text =>
    have hpos := c.utf8Size_pos
    rw [dropBytes, if_neg (by omega)]

/-- The edit in front of all others is the last to be applied. -/
theorem applyBackward_cons (text : List Char) (e : TextEdit) (rest : List TextEdit) :
    applyBackward text (e :: rest) = replaceRange (applyBackward text rest) e := by
  rw [applyBackward, List.reverse_cons, List.foldl_append]
  rfl

/-- Replacing a span that holds exactly some characters puts the replacement in their place. -/
theorem replaceRange_append {front covered behind : List Char} {e : TextEdit}
    (hstart : byteLength front = e.start) (hstop : e.stop = e.start + byteLength covered) :
    replaceRange (front ++ (covered ++ behind)) e = front ++ (e.replacement.toList ++ behind) := by
  have htake : takeBytes (byteLength front + 0) (front ++ (covered ++ behind)) = front := by
    rw [takeBytes_append, takeBytes_zero, List.append_nil]
  have hdrop : dropBytes (byteLength front + (byteLength covered + 0))
      (front ++ (covered ++ behind)) = behind := by
    rw [dropBytes_append, dropBytes_append, dropBytes_zero]
  rw [Nat.add_zero, hstart] at htake
  rw [Nat.add_zero, hstart, ← hstop] at hdrop
  rw [replaceRange, htake, hdrop, List.append_assoc]

namespace Spliced

/-- Text in front of all edits stays. -/
theorem append_left {pos : Nat} {text out : List Char} {edits : List TextEdit} (a : List Char)
    (h : Spliced (pos + byteLength a) text edits out) :
    Spliced pos (a ++ text) edits (a ++ out) := by
  cases h with
  | done => exact .done pos (a ++ text)
  | edit gap covered hstart hstop hrest =>
    rw [← List.append_assoc, ← List.append_assoc a gap]
    refine .edit (a ++ gap) covered ?_ hstop hrest
    rw [byteLength_append]
    omega

/-- No edit starts before the text or stops before its start. -/
theorem bounds {pos : Nat} {text out : List Char} {edits : List TextEdit}
    (h : Spliced pos text edits out) : ∀ e ∈ edits, pos ≤ e.start ∧ e.start ≤ e.stop := by
  induction h with
  | done => simp
  | edit gap covered hstart hstop _ ih =>
    intro e he
    rcases List.mem_cons.mp he with rfl | he
    · omega
    · have := ih e he
      omega

/-- Edits that cut a text one after the other are in the order of splicing. -/
theorem ordered {pos : Nat} {text out : List Char} {edits : List TextEdit}
    (h : Spliced pos text edits out) : edits.Pairwise (fun a b => inOrder a b = true) := by
  induction h with
  | done => exact .nil
  | edit gap covered hstart hstop hrest ih =>
    refine .cons (fun b hb => ?_) ih
    have := hrest.bounds b hb
    simp only [inOrder, Bool.or_eq_true, Bool.and_eq_true, decide_eq_true_eq, beq_iff_eq]
    omega

/-- Edits that cut the rest of a source pass every check. -/
theorem check_eq {pos : Nat} {text out : List Char} {edits : List TextEdit}
    (h : Spliced pos text edits out) (before : List Char) (hpos : byteLength before = pos)
    {last : Nat} (hlast : last ≤ pos) :
    check (before ++ text) (byteLength (before ++ text)) last edits = .ok () := by
  induction h generalizing before last with
  | done => rfl
  | @edit gap covered pos rest _ e _ hstart hstop _ ih =>
    have hfront : byteLength (before ++ gap) = e.start := by
      rw [byteLength_append]
      omega
    have hback : byteLength (before ++ gap ++ covered) = e.stop := by
      rw [byteLength_append]
      omega
    have hsplit : before ++ (gap ++ (covered ++ rest)) = before ++ gap ++ covered ++ rest := by
      simp only [List.append_assoc]
    have hboundStart : isBoundary (before ++ gap ++ covered ++ rest) e.start = true := by
      rw [List.append_assoc (before ++ gap), ← hfront]
      exact isBoundary_append _ _
    have hboundStop : isBoundary (before ++ gap ++ covered ++ rest) e.stop = true := by
      rw [← hback]
      exact isBoundary_append _ _
    have hsize : e.stop ≤ byteLength (before ++ gap ++ covered ++ rest) := by
      rw [byteLength_append _ rest]
      omega
    rw [hsplit, check, if_neg (by omega), if_neg (not_not_intro ⟨hboundStart, hboundStop⟩),
      if_neg (by omega)]
    exact ih (before ++ gap ++ covered) hback (Nat.le_refl _)

/-- What the loop makes of a text: where the edits cut what is behind `before` into gaps and covered
stretches, it leaves `before` and the gaps with the replacements between them. -/
theorem applyBackward_eq {pos : Nat} {text out : List Char} {edits : List TextEdit}
    (h : Spliced pos text edits out) (before : List Char) (hpos : byteLength before = pos) :
    applyBackward (before ++ text) edits = before ++ out := by
  induction h generalizing before with
  | done => rfl
  | @edit gap covered pos rest out e edits hstart hstop _ ih =>
    have hfront : byteLength (before ++ gap) = e.start := by
      rw [byteLength_append]
      omega
    have hback : byteLength (before ++ gap ++ covered) = e.stop := by
      rw [byteLength_append]
      omega
    -- the edits behind this one come first, and leave its span as it is in the source
    have hlater := ih (before ++ gap ++ covered) hback
    simp only [List.append_assoc] at hlater
    rw [applyBackward_cons, hlater, ← List.append_assoc before,
      replaceRange_append hfront (by omega)]
    simp only [List.append_assoc]

/-- The last edits of a list cut a part of the text that begins further on. -/
theorem exists_of_suffix {pos : Nat} {text out : List Char} {edits behind : List TextEdit}
    (h : Spliced pos text edits out) (before : List Char) (hpos : byteLength before = pos)
    (hsuffix : behind <:+ edits) :
    ∃ before' text' out', before ++ text = before' ++ text' ∧
      Spliced (byteLength before') text' behind out' := by
  induction h generalizing before with
  | done pos text =>
    rw [List.suffix_nil.mp hsuffix]
    exact ⟨before, text, text, rfl, .done _ _⟩
  | @edit gap covered pos rest out e edits hstart hstop hrest ih =>
    rcases List.suffix_cons_iff.mp hsuffix with rfl | hsuffix
    · refine ⟨before, _, gap ++ (e.replacement.toList ++ out), rfl, ?_⟩
      rw [hpos]
      exact .edit gap covered hstart hstop hrest
    · obtain ⟨before', text', out', hsplit, hspliced⟩ := ih (before ++ gap ++ covered) (by
        simp only [byteLength_append]
        omega) hsuffix
      refine ⟨before', text', out', ?_, hspliced⟩
      rw [← hsplit]
      simp only [List.append_assoc]

end Spliced

/-- Edits that cut a whole source are applied without an error. -/
theorem splice_of_spliced {source : String} {edits : List TextEdit} {out : List Char}
    (h : Spliced 0 source.toList edits out) : splice source edits = .ok (String.ofList out) := by
  have hcheck := h.check_eq [] rfl (Nat.le_refl 0)
  rw [List.nil_append, byteLength_toList] at hcheck
  have hloop : applyBackward source.toList edits = out := h.applyBackward_eq [] rfl
  simp only [splice, List.mergeSort_of_pairwise h.ordered, hcheck, hloop]

end PhpStyle.Splice
