import PhpStyle.Proofs.Php.Comments
import PhpStyle.Text.Blank

/-!
# The shapes of lexemes

The kind of a lexeme says something of its characters. Every reader of the lexer stops behind a line
break, save those of strings: so only strings, heredocs and commands in backticks go on over the end
of a line, and these start with their quotes. Whitespace is blank, and a brace is a brace.
-/

namespace PhpStyle

section

variable (p : Char → Prop) [DecidablePred p] (cs : List Char)

-- The library also has instances for all characters there are, and these would go through every one
-- of them.

/-- What holds of all characters of a text is decided on the text. -/
instance (priority := high) decidableForallMemChars : Decidable (∀ c ∈ cs, p c) :=
  List.decidableBAll p cs

/-- What holds of a character of a text is decided on the text. -/
instance (priority := high) decidableExistsMemChars : Decidable (∃ c ∈ cs, p c) :=
  List.decidableBEx p cs

end

/-- A text in which no line break stands before the last character. -/
def OneLine (cs : List Char) : Prop := '\n' ∉ cs.dropLast

namespace OneLine

/-- No characters make up no second line. -/
theorem nil : OneLine [] := by simp [OneLine]

/-- A character alone lies on one line. -/
theorem singleton (c : Char) : OneLine [c] := by simp [OneLine]

/-- Characters without a line break lie on one line. -/
theorem of_not_mem {cs : List Char} (h : '\n' ∉ cs) : OneLine cs :=
  fun hmem => h (List.dropLast_subset cs hmem)

/-- A character in front that is no line break adds no line. -/
theorem cons {c : Char} {cs : List Char} (hc : c ≠ '\n') (h : OneLine cs) : OneLine (c :: cs) := by
  cases cs with
  | nil => exact singleton c
  | cons d cs =>
    rw [OneLine, List.dropLast_cons_cons, List.mem_cons, not_or]
    exact ⟨hc.symm, h⟩

/-- Characters without a line break in front of those of one line make up one line. -/
theorem append {a b : List Char} (ha : '\n' ∉ a) (hb : OneLine b) : OneLine (a ++ b) := by
  induction a with
  | nil => exact hb
  | cons c a ih =>
    rw [List.mem_cons, not_or] at ha
    exact .cons (Ne.symm ha.1) (ih ha.2)

end OneLine

namespace Kind

/-- Kinds of lexemes that go on over the end of a line. -/
def isWrapping : Kind → Bool
  | .quotedString | .interpolatedString | .heredoc | .backtick => true
  | _ => false

/-- What a kind says of the characters of a lexeme. -/
structure Shapes (k : Kind) (cs : List Char) : Prop where
  blank : k = .whitespace → ∀ c ∈ cs, Text.isSpace c = true
  oneLine : k.isWrapping = false → OneLine cs
  quoted : k.isWrapping = true → ∃ c rest, cs = c :: rest ∧ c ∈ ['\'', '"', '`', '<']
  openCurly : k = .openCurly → cs = ['\x7b']
  closeParen : k = .closeParen → cs = [')']

/-- Kinds that say no more of a lexeme than that it stays on its line. -/
def isPlain (k : Kind) : Bool :=
  !k.isWrapping && k != .whitespace && k != .openCurly && k != .closeParen

/-- What lies on one line has the shape of every plain kind. -/
theorem Shapes.of_oneLine {k : Kind} {cs : List Char} (hk : k.isPlain = true) (h : OneLine cs) :
    k.Shapes cs := by
  simp only [isPlain, Bool.and_eq_true, Bool.not_eq_true', bne_iff_ne, ne_eq] at hk
  obtain ⟨⟨⟨hwraps, hblank⟩, hcurly⟩, hparen⟩ := hk
  exact {
    blank := fun heq => absurd heq hblank
    oneLine := fun _ => h
    quoted := fun hwrapping => by simp [hwraps] at hwrapping
    openCurly := fun heq => absurd heq hcurly
    closeParen := fun heq => absurd heq hparen }

/-- White space on one line has the shape of a token of whitespace. -/
theorem Shapes.of_blank {cs : List Char} (hspace : ∀ c ∈ cs, Text.isSpace c = true)
    (h : OneLine cs) : Kind.whitespace.Shapes cs where
  blank _ := hspace
  oneLine _ := h
  quoted heq := absurd heq (by decide)
  openCurly heq := absurd heq (by decide)
  closeParen heq := absurd heq (by decide)

/-- A literal that may run over lines has the shape of its kind if it starts with a quote. -/
theorem Shapes.of_quote {k : Kind} {c : Char} {rest : List Char} (hk : k.isWrapping = true)
    (hc : c ∈ ['\'', '"', '`', '<']) : k.Shapes (c :: rest) where
  blank heq := by simp [heq, isWrapping] at hk
  oneLine hfalse := by simp [hk] at hfalse
  quoted _ := ⟨c, rest, rfl, hc⟩
  openCurly heq := by simp [heq, isWrapping] at hk
  closeParen heq := by simp [heq, isWrapping] at hk

end Kind

namespace Php

/-- What starts a lexeme that may go on over the end of a line is visible, starts no word and is no
brace. -/
theorem quote_spec {c : Char} (hc : c ∈ ['\'', '"', '`', '<']) :
    Text.isSpace c = false ∧ startsWord c = false ∧ c ≠ '\x7b' := by
  simp only [List.mem_cons, List.not_mem_nil, or_false] at hc
  rcases hc with rfl | rfl | rfl | rfl <;> decide

/-- A step takes characters of the shape that its kind says. -/
def Step.Shapes (s : Step) (c : Char) (rest : List Char) : Prop :=
  s.kind.Shapes (c :: rest.take s.extra)

namespace Lexer

/-! ### What the readers take -/

/-- What is read while a test passes does not hold a character that fails it. -/
theorem not_mem_take_run {test : Char → Bool} {x : Char} (htest : test x = false)
    (text : List Char) : x ∉ text.take (run test text) := by
  induction text with
  | nil => simp
  | cons c rest ih =>
    rw [run]
    split
    · rename_i hc
      rw [List.take_succ_cons, List.mem_cons, not_or]
      refine ⟨?_, ih⟩
      rintro rfl
      simp [htest] at hc
    · simp

/-- A line break is taken as one line. -/
theorem oneLine_take_lineBreakLength (text : List Char) :
    OneLine (text.take (lineBreakLength text)) := by
  unfold lineBreakLength
  split
  · simp [OneLine]
  · simp [OneLine]
  · simp [OneLine]

/-- Template text is taken line by line. -/
theorem oneLine_take_htmlLength (text : List Char) : OneLine (text.take (htmlLength text)) := by
  induction text with
  | nil => exact .nil
  | cons c rest ih =>
    rw [htmlLength]
    split
    · exact .nil
    · split
      · exact .singleton c
      · rename_i hc
        exact .cons hc ih

/-- A line comment is taken up to the end of its line at most. -/
theorem oneLine_take_lineCommentLength (text : List Char) :
    OneLine (text.take (lineCommentLength text)) := by
  induction text with
  | nil => exact .nil
  | cons c rest ih =>
    rw [lineCommentLength]
    split
    · exact .nil
    · split
      · exact .singleton c
      · rename_i hc
        exact .cons hc ih

/-- Whitespace is taken up to the end of its line. -/
theorem oneLine_take_whitespaceLength (text : List Char) :
    OneLine (text.take (whitespaceLength text)) := by
  induction text with
  | nil => exact .nil
  | cons c rest ih =>
    rw [whitespaceLength]
    split
    · exact .singleton c
    · rename_i hc
      split
      · exact .cons hc ih
      · exact .nil

/-- Whatever whitespace is made of counts as space. -/
theorem isSpace_of_mem_take_whitespaceLength (text : List Char) :
    ∀ c ∈ text.take (whitespaceLength text), Text.isSpace c = true := by
  induction text with
  | nil => simp
  | cons c rest ih =>
    rw [whitespaceLength]
    split
    · rename_i hc
      subst hc
      simp [Text.isSpace]
    · split
      · rename_i hblank
        have hc : Text.isSpace c = true := by
          simp only [isBlank, Bool.or_eq_true, beq_iff_eq] at hblank
          rcases hblank with (rfl | rfl) | rfl <;> rfl
        rw [List.take_succ_cons]
        exact List.forall_mem_cons.mpr ⟨hc, ih⟩
      · simp

/-- A block comment is taken line by line. -/
theorem oneLine_take_blockLine (text : List Char) : OneLine (text.take (blockLine text).1) := by
  fun_induction blockLine text with
  | case1 => exact .nil
  | case2 => exact .singleton _
  | case3 => simp [OneLine]
  | case4 c rest hbreak _ n mode heq ih =>
    rw [heq] at ih
    exact .cons hbreak ih

/-- A line of a documentation comment begins the text. -/
theorem docLine_prefix (text : List Char) : docLine text <+: text := by
  fun_induction docLine text with
  | case1 => exact List.prefix_rfl
  | case2 => exact List.nil_prefix
  | case3 => exact List.nil_prefix
  | case4 => exact List.nil_prefix
  | case5 c rest _ _ _ ih => exact List.cons_prefix_cons.mpr ⟨rfl, ih⟩

/-- A line of a documentation comment has no line break. -/
theorem not_mem_docLine (text : List Char) : '\n' ∉ docLine text := by
  fun_induction docLine text with
  | case1 => simp
  | case2 => simp
  | case3 => simp
  | case4 => simp
  | case5 c rest hbreak _ _ ih =>
    rw [List.mem_cons, not_or]
    exact ⟨fun hc => hbreak hc.symm, ih⟩

/-- No part of a line of a documentation comment has a line break. -/
theorem not_mem_take_docLine {text : List Char} {n : Nat} (hn : n ≤ (docLine text).length) :
    '\n' ∉ text.take n := by
  obtain ⟨behind, hsplit⟩ := docLine_prefix text
  intro hmem
  rw [← hsplit, List.take_append_of_le_length hn] at hmem
  exact not_mem_docLine text (List.mem_of_mem_take hmem)

/-- A character in neither of two stretches, one behind the other, is not in both together. -/
theorem not_mem_take_add {text : List Char} {x : Char} {a b : Nat} (ha : x ∉ text.take a)
    (hb : x ∉ (text.drop a).take b) : x ∉ text.take (a + b) := by
  rw [List.take_add, List.mem_append, not_or]
  exact ⟨ha, hb⟩

section

variable {x : Char} (hx : x ∈ ['\n', '\r'])

include hx

/-- The two characters of line breaks are not among those of numbers. -/
theorem not_number_of_mem : isDigitOrGroup x = false ∧ isHexOrGroup x = false ∧ isBase x = false ∧
    x ∉ ['0', '.', 'e', 'E', '+', '-'] := by
  have hboth : ∀ x ∈ ['\n', '\r'], isDigitOrGroup x = false ∧ isHexOrGroup x = false ∧
      isBase x = false ∧ x ∉ ['0', '.', 'e', 'E', '+', '-'] := by decide
  exact hboth x hx

/-- A fraction has a point and digits only. -/
theorem not_mem_take_fractionLength (text : List Char) : x ∉ text.take (fractionLength text) := by
  obtain ⟨hdigit, _, _, hother⟩ := not_number_of_mem hx
  unfold fractionLength
  split
  · simp
  · rw [List.take_succ_cons, List.mem_cons, not_or]
    exact ⟨fun heq => hother (by simp [heq]), not_mem_take_run hdigit _⟩
  · simp

/-- An exponent has its letter, a sign and digits only. -/
theorem not_mem_take_exponentLength (text : List Char) : x ∉ text.take (exponentLength text) := by
  obtain ⟨hdigit, _, _, hother⟩ := not_number_of_mem hx
  cases text with
  | nil => simp
  | cons e rest =>
    have hread (sign : Nat) (hsign : x ∉ rest.take sign) (starts : Bool)
        (he : starts = true → e ≠ x) :
        x ∉ (e :: rest).take
        (if starts then 1 + sign + run isDigitOrGroup (rest.drop sign) else 0) := by
      split
      · rename_i hstarts
        rw [Nat.add_assoc, Nat.add_comm 1, List.take_succ_cons, List.mem_cons, not_or]
        exact ⟨(he hstarts).symm, not_mem_take_add hsign (not_mem_take_run hdigit _)⟩
      · simp
    refine hread _ ?_ _ ?_
    · split
      · exact fun hmem => hother (by simp_all)
      · exact fun hmem => hother (by simp_all)
      · simp
    · rintro hstarts rfl
      simp only [Bool.and_eq_true, Bool.or_eq_true, beq_iff_eq] at hstarts
      exact hother (by rcases hstarts.1 with rfl | rfl <;> simp)

/-- A number has the characters that can stand in numbers only. -/
theorem not_mem_take_number (text : List Char) : x ∉ text.take (number text).2 := by
  obtain ⟨hdigit, hhex, hbase, hother⟩ := not_number_of_mem hx
  have hplain : x ∉ text.take (number.plain text).2 := by
    refine not_mem_take_add (not_mem_take_add (not_mem_take_run hdigit _) ?_) ?_
    · exact not_mem_take_fractionLength hx _
    · exact not_mem_take_exponentLength hx _
  unfold number
  split
  · rename_i base rest
    split
    · rename_i hletter
      rw [Nat.add_comm, List.take_succ_cons, List.take_succ_cons]
      have hne : base ≠ x := by
        rintro rfl
        simp [hbase] at hletter
      simp only [List.mem_cons, not_or]
      exact ⟨fun heq => hother (by simp [heq]), hne.symm, not_mem_take_run hhex _⟩
    · exact hplain
  · exact hplain

end

/-- A number has a kind whose tokens stay on one line. -/
theorem isPlain_number (text : List Char) : (number text).1.isPlain = true := by
  have hplain : (number.plain text).1.isPlain = true := by
    simp only [number.plain]
    split <;> rfl
  unfold number
  split
  · split
    · rfl
    · exact hplain
  · exact hplain

/-! ### What the steps take -/

/-- A measure behind the first character, in terms of the whole text. -/
theorem cons_take_sub_one {n : Nat} (hn : 0 < n) (c : Char) (rest : List Char) :
    c :: rest.take (n - 1) = (c :: rest).take n := by
  obtain ⟨m, rfl⟩ : ∃ m, n = m + 1 := ⟨n - 1, by omega⟩
  rfl

/-- What a step drops behind the first character is what it drops of all characters. -/
theorem drop_sub_one {n : Nat} (hn : 0 < n) (c : Char) (rest : List Char) :
    rest.drop (n - 1) = (c :: rest).drop n := by
  obtain ⟨m, rfl⟩ : ∃ m, n = m + 1 := ⟨n - 1, by omega⟩
  rfl

/-- A first character and what a step takes behind it are what it takes of all characters. -/
theorem oneLine_cons_take_sub_one {n : Nat} {c : Char} {rest : List Char}
    (h : OneLine ((c :: rest).take n)) : OneLine (c :: rest.take (n - 1)) := by
  cases n with
  | zero => exact .singleton c
  | succ n => exact h

/-- The gap behind a tag has no break in front of its last character. -/
theorem oneLine_take_tagGap (text : List Char) : OneLine (text.take (tagGap text)) := by
  unfold tagGap
  split
  · exact .singleton _
  · exact .singleton _
  · exact oneLine_take_lineBreakLength _

/-- Template text and the tag behind it have the shapes of their kinds. -/
theorem htmlStep_shapes (c : Char) (rest : List Char) : (htmlStep c rest).Shapes c rest := by
  unfold htmlStep
  split
  · rename_i hecho
    refine .of_oneLine rfl ?_
    have htaken := take_of_at? hecho
    rw [show c :: rest.take 2 = (c :: rest).take "<?=".length from rfl, htaken]
    exact .of_not_mem (by decide)
  · split
    · rename_i hopen
      refine .of_oneLine rfl ?_
      have htag : '\n' ∉ c :: rest.take 4 := by
        intro hmem
        have hlower : '\n'.toLower ∈ ((c :: rest).take 5).map Char.toLower :=
          List.mem_map_of_mem hmem
        rw [beq_iff_eq.mp hopen] at hlower
        revert hlower
        decide
      dsimp only
      rw [List.take_add, ← List.cons_append]
      exact .append htag (oneLine_take_tagGap _)
    · refine .of_oneLine rfl ?_
      dsimp only
      split
      · exact .singleton c
      · rename_i hc
        exact .cons hc (oneLine_take_htmlLength rest)

/-- A word has a kind whose tokens stay on one line. -/
theorem isPlain_wordKind (word : List Char) : (wordKind word).isPlain = true :=
  wordKind_of_keywords (p := (·.isPlain = true)) rfl (by decide) word

/-- An operator has the shape of its kind. -/
theorem operatorStep_shapes (c : Char) (rest : List Char) :
    (operatorStep (c :: rest)).Shapes c rest := by
  have htable : ∀ o ∈ operators, 0 < o.1.length ∧ '\n' ∉ o.1.toList ∧
      (o.2.isPlain = true ∨ o.1 = "\x7b" ∧ o.2 = .openCurly ∨ o.1 = ")" ∧ o.2 = .closeParen) := by
    decide
  unfold operatorStep
  split
  · rename_i op kind hfound
    obtain ⟨hlength, hbreak, hkind⟩ := htable _ (List.mem_of_find?_eq_some hfound)
    have hop := List.find?_some hfound
    have htaken := take_of_at? hop
    rw [Step.Shapes, cons_take_sub_one hlength, htaken]
    rcases hkind with hplain | ⟨rfl, rfl⟩ | ⟨rfl, rfl⟩
    · exact .of_oneLine hplain (.of_not_mem hbreak)
    · exact ⟨nofun, fun _ => .of_not_mem hbreak, nofun, fun _ => rfl, nofun⟩
    · exact ⟨nofun, fun _ => .of_not_mem hbreak, nofun, nofun, fun _ => rfl⟩
  · exact .of_oneLine rfl (.singleton c)

/-- A word or a variable has the shape of its kind. -/
theorem wordStep_shapes (c : Char) (rest : List Char) : (wordStep c rest).Shapes c rest := by
  unfold wordStep
  split
  · rename_i hstarts
    refine .of_oneLine (isPlain_wordKind _)
      (.cons ?_ (.of_not_mem (not_mem_take_run (by decide) rest)))
    rintro rfl
    simp [startsWord] at hstarts
  · exact operatorStep_shapes c rest

/-- What starts with a slash has the shape of its kind. -/
theorem slashStep_shapes (rest : List Char) : (slashStep rest).Shapes '/' rest := by
  unfold slashStep
  split
  · exact .of_oneLine rfl (.cons (by decide) (oneLine_take_lineCommentLength _))
  · rename_i body
    split
    · rename_i hdoc
      refine .of_oneLine rfl (.of_not_mem ?_)
      rw [Bool.and_eq_true] at hdoc
      have htaken := take_of_at? hdoc.1
      rw [List.take_succ_cons, show (1 : Nat) = "*".length from rfl, htaken]
      decide
    · exact .of_oneLine rfl (.cons (by decide) (.cons (by decide) (oneLine_take_blockLine body)))
  · exact operatorStep_shapes '/' rest

/-- Each step through code reads a text of the shape of its kind. -/
theorem codeStep_shapes (c : Char) (rest : List Char) : (codeStep c rest).Shapes c rest := by
  apply codeStep_cases (p := fun s => s.Shapes c rest)
  case hclose =>
    intro hclose
    have htaken := take_of_at? hclose
    refine .of_oneLine rfl ?_
    dsimp only
    rw [List.take_add, ← List.cons_append,
      show c :: rest.take 1 = (c :: rest).take "?>".length from rfl, htaken]
    exact .append (by decide) (oneLine_take_lineBreakLength _)
  case hblank =>
    intro hblank
    have hlength := whitespaceLength_pos hblank rest
    rw [Step.Shapes, cons_take_sub_one hlength]
    exact .of_blank (isSpace_of_mem_take_whitespaceLength _) (oneLine_take_whitespaceLength _)
  case hattribute =>
    rintro rfl hattribute
    have htaken := take_of_at? hattribute
    refine .of_oneLine rfl (.cons (by decide) ?_)
    rw [show (1 : Nat) = "[".length from rfl, htaken]
    exact .of_not_mem (by decide)
  case hcomment =>
    rintro rfl
    exact .of_oneLine rfl (.cons (by decide) (oneLine_take_lineCommentLength rest))
  case hslash =>
    rintro rfl
    exact slashStep_shapes rest
  case hdollar =>
    rintro rfl
    exact .of_oneLine rfl (.cons (by decide) (.of_not_mem (not_mem_take_run (by decide) rest)))
  case hquoted =>
    have hwrapping : ∀ k ∈ [Kind.quotedString, .interpolatedString, .backtick],
        k.isWrapping = true := by
      decide
    exact fun hquote k hk => .of_quote (hwrapping k hk) (List.mem_append_left ['<'] hquote)
  case hshift =>
    intro hshift
    have htaken : (c :: rest).take 3 = ['<', '<', '<'] := take_of_at? hshift
    obtain ⟨rfl, hmore⟩ := List.cons_eq_cons.mp htaken
    refine .of_oneLine rfl (.cons (by decide) (.of_not_mem fun hmem => ?_))
    have hmem : '\n' ∈ rest.take 2 := List.take_subset_take_left rest (by decide) hmem
    simp [hmore] at hmem
  case hheredoc =>
    intro hheredoc _
    have htaken : (c :: rest).take 3 = ['<', '<', '<'] := take_of_at? hheredoc
    exact .of_quote rfl (by simp [(List.cons_eq_cons.mp htaken).1])
  case hnumber =>
    exact fun _ => .of_oneLine (isPlain_number _)
      (oneLine_cons_take_sub_one (.of_not_mem (not_mem_take_number (by decide) (c :: rest))))
  case hword => exact fun _ => wordStep_shapes c rest

/-- Each step through a line of a documentation comment reads a text of the shape of its kind. -/
theorem docStep_shapes (lineStart : Bool) (c : Char) (rest : List Char) :
    (docStep lineStart c rest).Shapes c rest := by
  unfold docStep
  split
  · rename_i hclose
    have htaken := take_of_at? hclose
    refine .of_oneLine rfl ?_
    rw [show c :: rest.take 1 = (c :: rest).take "*/".length from rfl, htaken]
    exact .of_not_mem (by decide)
  split
  · rename_i n hbreak
    have hline := oneLine_take_lineBreakLength (c :: rest)
    rw [hbreak] at hline
    exact .of_oneLine rfl hline
  rename_i hbreak
  have hc : c ≠ '\n' := by
    rintro rfl
    simp [lineBreakLength] at hbreak
  split
  · exact .of_oneLine rfl (.cons hc (.of_not_mem (not_mem_take_run (by decide) rest)))
  split
  · exact .of_oneLine rfl (.singleton c)
  split
  · exact .of_oneLine rfl (.cons hc (.of_not_mem (not_mem_take_run (by decide) rest)))
  · exact .of_oneLine rfl (.cons hc (.of_not_mem (not_mem_take_docLine (visibleLength_le _))))

/-- The blank and the tag that end a documentation comment have the shapes of their kinds. -/
theorem docTailStep_shapes (c : Char) (rest : List Char) : (docTailStep c rest).Shapes c rest := by
  unfold docTailStep
  split
  · rename_i first blanks hline
    split
    · refine .of_oneLine rfl (.of_not_mem ?_)
      have hlength : blanks.length + 1 ≤ (docLine (c :: rest)).length := by simp [hline]
      exact not_mem_take_docLine hlength
    · exact docStep_shapes false c rest
  · exact docStep_shapes false c rest

end Lexer

/-- In every mode a step takes characters of the shape that its kind says. -/
theorem Mode.step_shapes (mode : Mode) (c : Char) (rest : List Char) :
    (mode.step c rest).Shapes c rest := by
  cases mode with
  | html => exact Lexer.htmlStep_shapes c rest
  | code => exact Lexer.codeStep_shapes c rest
  | blockComment =>
    exact .of_oneLine rfl
      (Lexer.oneLine_cons_take_sub_one (Lexer.oneLine_take_blockLine (c :: rest)))
  | docComment lineStart => exact Lexer.docStep_shapes lineStart c rest
  | docTail => exact Lexer.docTailStep_shapes c rest

/-- Every lexeme has the shape of its kind. -/
theorem shapes_lexFrom (mode : Mode) (text : List Char) :
    ∀ l ∈ lexFrom mode text, l.kind.Shapes l.text.toList := by
  fun_induction lexFrom mode text with
  | case1 => simp
  | case2 mode c rest s ih =>
    intro l hl
    rcases List.mem_cons.mp hl with rfl | hl
    · rw [String.toList_ofList]
      exact mode.step_shapes c rest
    · exact ih l hl

/-- A word does not start with a quote, so it stays on its line. -/
theorem isWrapping_of_isWord {l : Lexeme} (hshapes : l.kind.Shapes l.text.toList)
    (hword : isWord l = true) : l.kind.isWrapping = false := by
  by_contra hwraps
  obtain ⟨c, rest, htext, hquote⟩ := hshapes.quoted (by simpa using hwraps)
  have hstarts : startsWord c = true := by
    simp only [isWord, htext, List.head?_cons, Option.any_some, Bool.and_eq_true] at hword
    exact hword.2
  rw [(quote_spec hquote).2.1] at hstarts
  cases hstarts

/-- Settling words keeps the shapes of lexemes. -/
theorem shapes_settleFrom {before after : List Lexeme}
    (h : ∀ l ∈ after, l.kind.Shapes l.text.toList) :
    ∀ l ∈ Words.settleFrom before after, l.kind.Shapes l.text.toList := by
  induction after generalizing before with
  | nil => simp [Words.settleFrom]
  | cons l after ih =>
    obtain ⟨hfirst, hrest⟩ := List.forall_mem_cons.mp h
    rw [Words.settleFrom]
    refine List.forall_mem_cons.mpr ⟨?_, ih hrest⟩
    split
    · rename_i hword
      rcases Words.settledKind_cases l.kind before after with hkind | hkind
      · rw [hkind]
        exact hfirst
      · have hplain : ∀ k ∈ [Kind.identifier, .closure, .anonClass], k.isPlain = true := by decide
        exact .of_oneLine (hplain _ hkind) (hfirst.oneLine (isWrapping_of_isWord hfirst hword))
    · exact hfirst

/-- Every lexeme of a file has the shape of its kind. -/
theorem shapes_settleWords (source : String) :
    ∀ l ∈ settleWords (lex source), l.kind.Shapes l.text.toList :=
  shapes_settleFrom (lex_eq_lexFrom source ▸ shapes_lexFrom .html source.toList)

end Php

end PhpStyle
