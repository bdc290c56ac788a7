import PhpStyle.Proofs.Php.CommentEnds
import PhpStyle.Proofs.Php.Spelling

/-!
# How far the lexer reads

Many ways to measure a lexeme look at what follows it, but none looks far. What ends in front of a
line break, of a bracket, comma or semicolon, or of the slash that closes a comment, has the same
length whatever comes behind that character. So it has if a bracket or the like takes the place of a
blank, a line break or another bracket behind it, or a line break that of a word that starts with an
`n`.
-/

namespace PhpStyle.Php

namespace Lexer

/-- The character behind a lexeme in two texts, the same or another, such that the lexer sees in
both that the lexeme ends there. -/
inductive Bounds : Char → Char → Prop
  | same {x : Char} (hx : x ∈ '\n' :: '/' :: marks) : Bounds x x
  | split {x y : Char} (hx : x ∈ ['n', 'N']) (hy : y ∈ ['\n', '\r']) : Bounds x y
  | join {x y : Char} (hx : x ∈ ['\n', '\r'] ++ ' ' :: '\t' :: marks) (hy : y ∈ marks) : Bounds x y

/-- The characters that may bound a lexeme. -/
def edges : List Char := '\n' :: '\r' :: ' ' :: '\t' :: 'n' :: 'N' :: '/' :: marks

variable {x y c : Char} {a b b' : List Char}

namespace Bounds

/-- What holds of all characters that may bound a lexeme holds of both. -/
theorem forall_both {p : Char → Prop} (h : Bounds x y)
    (hp : ∀ c ∈ edges, p c) : p x ∧ p y := by
  refine ⟨hp x ?_, hp y ?_⟩
  · cases h with
    | same hx => simp only [edges, List.mem_cons] at hx ⊢; tauto
    | split hx _ => simp only [edges, List.mem_cons, List.not_mem_nil] at hx ⊢; tauto
    | join hx _ =>
      simp only [edges, List.mem_append, List.mem_cons, List.not_mem_nil] at hx ⊢; tauto
  · cases h with
    | same hx => simp only [edges, List.mem_cons] at hx ⊢; tauto
    | split _ hy => simp only [edges, List.mem_cons, List.not_mem_nil] at hy ⊢; tauto
    | join _ hy => simp only [edges, List.mem_cons] at hy ⊢; tauto

/-- What holds of line breaks, of the slash and of marks holds of the second. -/
theorem forall_right {p : Char → Prop} (h : Bounds x y)
    (hp : ∀ c ∈ '\n' :: '\r' :: '/' :: marks, p c) : p y := by
  apply hp
  cases h with
  | same hx => simp only [List.mem_cons] at hx ⊢; tauto
  | split _ hy => simp only [List.mem_cons, List.not_mem_nil] at hy ⊢; tauto
  | join _ hy => simp only [List.mem_cons] at hy ⊢; tauto

/-- The second does not go a word on. -/
theorem continuesWord_right (h : Bounds x y) : continuesWord y = false :=
  h.forall_right (p := fun c => continuesWord c = false) (by decide)

/-- The second starts no word. -/
theorem startsWord_right (h : Bounds x y) : startsWord y = false := by
  have hword := h.continuesWord_right
  simp only [continuesWord, startsWord, Char.isAlphanum, Bool.or_eq_false_iff] at hword ⊢
  exact ⟨⟨hword.1.1.1, hword.1.2⟩, hword.2⟩

/-- The line break put for an `n` is another character than the `n`. -/
theorem ne_of_split (h : Bounds x y) (hx : x ∈ ['n', 'N']) : x ≠ y := by
  rintro rfl
  have hword : ∀ c ∈ ['n', 'N'], continuesWord c = true := by decide
  have hnot := h.continuesWord_right
  rw [hword x hx] at hnot
  cases hnot

end Bounds

/-- Whether a text starts with a word is seen without a character that does not stand in the word,
and with one that stands nowhere but at its end. -/
theorem isPrefixOf_bound {word : List Char}
    (hword : x = y ∧ x ∉ word.dropLast ∨ x ∉ word ∧ y ∉ word) (a : List Char) :
    word.isPrefixOf (a ++ y :: b') = word.isPrefixOf (a ++ x :: b) := by
  induction word generalizing a with
  | nil => rfl
  | cons d word ih =>
    cases a with
    | nil =>
      simp only [List.nil_append, List.isPrefixOf_cons_cons]
      rcases hword with ⟨rfl, hmem⟩ | ⟨hx, hy⟩
      · cases word with
        | nil => rfl
        | cons e word =>
          have hne : d ≠ x := by
            rintro rfl
            exact hmem (by simp)
          rw [beq_false_of_ne hne, Bool.false_and, Bool.false_and]
      · have hdx : d ≠ x := fun heq => hx (by simp [heq])
        have hdy : d ≠ y := fun heq => hy (by simp [heq])
        rw [beq_false_of_ne hdx, beq_false_of_ne hdy, Bool.false_and, Bool.false_and]
    | cons e a =>
      simp only [List.cons_append, List.isPrefixOf_cons_cons]
      rw [ih ?_ a]
      rcases hword with ⟨rfl, hmem⟩ | ⟨hx, hy⟩
      · refine .inl ⟨rfl, fun hin => hmem ?_⟩
        cases word with
        | nil => cases hin
        | cons f word => exact List.mem_cons_of_mem d hin
      · exact .inr ⟨fun h => hx (List.mem_cons_of_mem d h), fun h => hy (List.mem_cons_of_mem d h)⟩

/-- Whether a text starts with a word is seen in front of a bound, if no bound stands in the word
behind its first character. -/
theorem at?_cons_bound (h : Bounds x y) {word : String}
    (hword : ∀ c ∈ edges, c ∉ word.toList.tail) (c : Char)
    (a : List Char) : at? word (c :: (a ++ y :: b')) = at? word (c :: (a ++ x :: b)) := by
  have htail : word.toList.tail.isPrefixOf (a ++ y :: b') = word.toList.tail.isPrefixOf
      (a ++ x :: b) :=
    isPrefixOf_bound (.inr (h.forall_both hword)) a
  unfold at?
  cases hlist : word.toList with
  | nil => rfl
  | cons d rest =>
    rw [hlist, List.tail_cons] at htail
    simp only [List.isPrefixOf_cons_cons, htail]

/-- A run that ends in front of a character ends in front of any other that fails its test. -/
theorem run_bound {test : Char → Bool} (hy : test y = false) {a : List Char}
    (hle : run test (a ++ x :: b) ≤ a.length) :
    run test (a ++ y :: b') = run test (a ++ x :: b) := by
  induction a with
  | nil =>
    have hx : run test (x :: b) = 0 := by simpa using hle
    rw [List.nil_append, List.nil_append, hx, run, if_neg (by simp [hy])]
  | cons d a ih =>
    simp only [List.cons_append, run] at hle ⊢
    split
    · rename_i hd
      rw [if_pos hd] at hle
      rw [ih (by simpa using hle)]
    · rfl

/-- Whitespace that ends in front of a character is the same if no more of it starts at the other
one. -/
theorem whitespaceLength_bound {a : List Char} (hle : whitespaceLength (a ++ x :: b) ≤ a.length)
    (hend : whitespaceLength (a ++ x :: b) = a.length → whitespaceLength (x :: b) = 0 →
      whitespaceLength (y :: b') = 0) :
    whitespaceLength (a ++ y :: b') = whitespaceLength (a ++ x :: b) := by
  induction a with
  | nil =>
    have hx : whitespaceLength (x :: b) = 0 := by simpa using hle
    rw [List.nil_append, List.nil_append, hx, hend hx hx]
  | cons d a ih =>
    simp only [List.cons_append, whitespaceLength] at hle hend ⊢
    split
    · rfl
    · rename_i hbreak
      rw [if_neg hbreak] at hle hend
      split
      · rename_i hd
        rw [if_pos hd] at hle hend
        rw [ih (by simpa using hle) fun h => hend (by simp [h])]
      · rfl

/-- What starts with another character than a `?` begins with a line comment of at least that
character. -/
theorem lineCommentLength_pos (hc : c ≠ '?') (rest : List Char) :
    0 < lineCommentLength (c :: rest) := by
  have hclose : at? "?>" (c :: rest) = false := at?_cons_ne (d := '?') rfl hc
  rw [lineCommentLength, hclose, if_neg (by simp)]
  split <;> omega

/-- A line comment that ends in front of a bound is the same whatever follows. -/
theorem lineCommentLength_bound (h : Bounds x y) {a : List Char}
    (hle : lineCommentLength (a ++ x :: b) ≤ a.length) :
    lineCommentLength (a ++ y :: b') = lineCommentLength (a ++ x :: b) := by
  induction a with
  | nil =>
    have hpos := lineCommentLength_pos (h.forall_both (p := (· ≠ '?')) (by decide)).1 b
    simp only [List.nil_append, List.length_nil] at hle
    omega
  | cons d a ih =>
    have hclose : at? "?>" (d :: (a ++ y :: b')) = at? "?>" (d :: (a ++ x :: b)) :=
      at?_cons_bound h (by decide) d a
    simp only [List.cons_append, lineCommentLength, hclose] at hle ⊢
    split
    · rfl
    · rename_i hnone
      rw [if_neg hnone] at hle
      split
      · rfl
      · rename_i hbreak
        rw [if_neg hbreak] at hle
        rw [ih (by simpa using hle)]

/-- A line of a block comment that ends in front of a character is the same whatever stands
there. -/
theorem blockLine_bound {a : List Char} (hle : (blockLine (a ++ x :: b)).1 ≤ a.length) :
    blockLine (a ++ y :: b') = blockLine (a ++ x :: b) := by
  induction a with
  | nil =>
    have hpos := blockLine_pos x b
    simp only [List.nil_append, List.length_nil] at hle
    omega
  | cons d a ih =>
    by_cases hbreak : d = '\n'
    · subst hbreak
      rfl
    cases a with
    | nil =>
      have hpos := blockLine_pos x b
      by_cases hclose : d = '*' ∧ x = '/'
      · obtain ⟨rfl, rfl⟩ := hclose
        simp [blockLine] at hle
      · have hcons : blockLine (d :: x :: b) = _ := blockLine_cons hbreak (by simpa using hclose)
        simp only [List.cons_append, List.nil_append, hcons, List.length_cons, List.length_nil]
          at hle
        omega
    | cons e a =>
      by_cases hclose : d = '*' ∧ e = '/'
      · obtain ⟨rfl, rfl⟩ := hclose
        rfl
      · have hcons (rest : List Char) : blockLine (d :: e :: rest) = _ :=
          blockLine_cons hbreak (by simpa using hclose)
        simp only [List.cons_append, hcons] at hle ⊢
        rw [← List.cons_append, ← List.cons_append, ih (by simpa using hle)]

/-- A string that its quote closes is the same whatever follows. -/
theorem quotedLength_bound {quote : Char} : ∀ a : List Char,
    quotedLength quote (a ++ x :: b) ≤ a.length →
      quotedLength quote (a ++ y :: b') = quotedLength quote (a ++ x :: b)
  | [], hle => by
    have hpos : 0 < quotedLength quote (x :: b) := quotedLength_pos
    simp only [List.nil_append, List.length_nil] at hle
    omega
  | d :: a, hle => by
    by_cases hd : d = '\\'
    · subst hd
      cases a with
      | nil => simp [quotedLength] at hle
      | cons e a =>
        have ih := quotedLength_bound a (by simpa [quotedLength] using hle)
        simp [quotedLength, ih]
    · simp only [List.cons_append, quotedLength_cons hd] at hle ⊢
      split
      · rfl
      · rename_i hquote
        rw [if_neg hquote] at hle
        rw [quotedLength_bound a (by simpa using hle)]

/-- A string that ends is read up to its end only. -/
theorem interpolates_bound : ∀ a : List Char, quotedLength '"' (a ++ x :: b) ≤ a.length →
    interpolates (a ++ y :: b') = interpolates (a ++ x :: b)
  | [], hle => by
    have hpos : 0 < quotedLength '"' (x :: b) := quotedLength_pos
    simp only [List.nil_append, List.length_nil] at hle
    omega
  | d :: a, hle => by
    by_cases hslash : d = '\\'
    · subst hslash
      cases a with
      | nil => simp [quotedLength] at hle
      | cons e a =>
        have ih := interpolates_bound a (by simpa [quotedLength] using hle)
        simp [interpolates, ih]
    by_cases hquote : d = '"'
    · subst hquote
      simp [interpolates]
    rw [List.cons_append, quotedLength_cons hslash, if_neg hquote, List.length_cons] at hle
    have ih := interpolates_bound a (by omega)
    cases a with
    | nil =>
      have hpos : 0 < quotedLength '"' (x :: b) := quotedLength_pos
      simp only [List.nil_append, List.length_nil] at hle
      omega
    | cons e a =>
      by_cases hdollar : d = '$'
      · subst hdollar
        simp only [List.cons_append] at ih ⊢
        simp only [interpolates, ih]
      by_cases hcurly : d = '{'
      · subst hcurly
        by_cases he : e = '$'
        · subst he
          rfl
        · have hcons (rest : List Char) : interpolates ('{' :: e :: rest) = interpolates
              (e :: rest) := by
            rw [interpolates]
            · rfl
            all_goals simp_all
          simp only [List.cons_append] at ih ⊢
          rw [hcons, hcons, ih]
      · simp only [List.cons_append] at ih ⊢
        rw [interpolates_cons hslash hdollar hcurly, interpolates_cons hslash hdollar hcurly, ih]

/-- A name without the quote in front of it. -/
def unquote : List Char → List Char
  | '\'' :: name | '"' :: name => name
  | name => name

/-- The word at the start of a text. -/
def leadingWord (text : List Char) : List Char :=
  match text with
  | c :: _ => if startsWord c then text.takeWhile continuesWord else []
  | [] => []

/-- No bound put for another stands in the gap of a heredoc's header. -/
theorem Bounds.isGap_right (h : Bounds x y) : isGap y = false :=
  h.forall_right (p := fun c => isGap c = false) (by decide)

/-- The name of a heredoc is the first word behind blanks and a quote. -/
theorem heredocName_eq (header : List Char) :
    heredocName header = leadingWord (unquote (header.dropWhile isGap)) := by
  rfl

/-- What drops the start of a text up to a character does not see what follows that character. -/
theorem dropWhile_append_cons {test : Char → Bool} (hc : test c = false) (a rest : List Char) :
    (a ++ c :: rest).dropWhile test = a.dropWhile test ++ c :: rest := by
  rw [List.dropWhile_append]
  split
  · rename_i hempty
    rw [List.isEmpty_iff.mp hempty, List.dropWhile_cons_of_neg (by simp [hc]), List.nil_append]
  · rfl

/-- The quote in front of a name is taken off without a look at what follows the name. -/
theorem unquote_append_cons (hc : c ≠ '\'' ∧ c ≠ '"') (a rest : List Char) :
    unquote (a ++ c :: rest) = unquote a ++ c :: rest := by
  have hkeep {d : Char} (hd : d ≠ '\'' ∧ d ≠ '"') (text : List Char) :
      unquote (d :: text) = d :: text := by
    rw [unquote]
    · rintro _ heq
      exact hd.1 (List.cons_eq_cons.mp heq).1
    · rintro _ heq
      exact hd.2 (List.cons_eq_cons.mp heq).1
  cases a with
  | nil => exact hkeep hc rest
  | cons d a =>
    by_cases hsingle : d = '\''
    · subst hsingle
      rfl
    by_cases hdouble : d = '"'
    · subst hdouble
      rfl
    rw [List.cons_append, hkeep ⟨hsingle, hdouble⟩, hkeep ⟨hsingle, hdouble⟩, List.cons_append]

/-- The first word of a text is the same in front of a bound, unless it starts with the `n` that a
line break takes the place of. -/
theorem leadingWord_bound (h : Bounds x y) (a : List Char) :
    leadingWord (a ++ y :: b') = leadingWord (a ++ x :: b) ∨
      '\n' ∉ a ∧ leadingWord (a ++ x :: b) ≠ [] := by
  cases a with
  | nil =>
    by_cases hx : startsWord x = true
    · right
      simp [leadingWord, hx, continuesWord_of_startsWord hx]
    · left
      simp [leadingWord, hx, h.startsWord_right]
  | cons e a =>
    by_cases he : startsWord e = true
    · simp only [List.cons_append, leadingWord, if_pos he]
      simp only [← List.cons_append]
      by_cases hall : ∀ c ∈ e :: a, continuesWord c = true
      · by_cases hx : continuesWord x = true
        · refine .inr ⟨fun hmem => absurd (hall _ hmem) (by decide), ?_⟩
          simp [continuesWord_of_startsWord he]
        · left
          rw [List.takeWhile_append_of_pos hall, List.takeWhile_append_of_pos hall,
            List.takeWhile_cons_of_neg (by simp [h.continuesWord_right]),
            List.takeWhile_cons_of_neg hx]
      · left
        have hshort : ((e :: a).takeWhile continuesWord).length ≠ (e :: a).length := by
          intro hlength
          have hsame := (List.takeWhile_prefix continuesWord (l := e :: a)).eq_of_length hlength
          exact hall (List.takeWhile_eq_self_iff.mp hsame)
        rw [List.takeWhile_append, List.takeWhile_append, if_neg hshort, if_neg hshort]
    · left
      simp [leadingWord, he]

/-- Blanks are passed over up to a character, unless it is one of them. -/
theorem dropWhile_isGap_cases (x : Char) (a b : List Char) :
    (a ++ x :: b).dropWhile isGap = a.dropWhile isGap ++ x :: b ∨
      isGap x = true ∧ ∀ c ∈ a, isGap c = true := by
  by_cases hx : isGap x = true
  · by_cases ha : ∀ c ∈ a, isGap c = true
    · exact .inr ⟨hx, ha⟩
    · left
      rw [List.dropWhile_append, if_neg]
      rw [List.isEmpty_iff, List.dropWhile_eq_nil_iff]
      exact ha
  · exact .inl (dropWhile_append_cons (by simpa using hx) a b)

/-- A gap has no line break. -/
theorem not_mem_of_isGap (ha : ∀ c ∈ a, isGap c = true) : '\n' ∉ a :=
  fun hmem => absurd (ha _ hmem) (by decide)

/-- A name of a heredoc that goes on up to a bound stands on the first line. -/
theorem heredocName_bound (h : Bounds x y) (a : List Char) :
    heredocName (a ++ y :: b') = heredocName (a ++ x :: b) ∨
      '\n' ∉ a ∧ heredocName (a ++ x :: b) ≠ [] := by
  obtain ⟨hquotex, hquotey⟩ := h.forall_both (p := fun c => c ≠ '\'' ∧ c ≠ '"') (by decide)
  rw [heredocName_eq, heredocName_eq, dropWhile_append_cons h.isGap_right,
    unquote_append_cons hquotey]
  rcases dropWhile_isGap_cases x a b with hgapx | ⟨_, hgap⟩
  · rw [hgapx, unquote_append_cons hquotex]
    refine (leadingWord_bound h _).imp_right fun hword => ⟨fun hmem => hword.1 ?_, hword.2⟩
    rw [← List.takeWhile_append_dropWhile (p := isGap) (l := a), List.mem_append] at hmem
    have hbehind := hmem.resolve_left fun hin => absurd (List.mem_takeWhile_imp hin) (by decide)
    unfold unquote
    split
    · simpa [*] using hbehind
    · simpa [*] using hbehind
    · exact hbehind
  · -- nothing but blanks stands in front, so a name is one behind them
    have hnone : leadingWord (unquote (a.dropWhile isGap) ++ y :: b') = [] := by
      rw [List.dropWhile_eq_nil_iff.mpr hgap]
      simp [unquote, leadingWord, h.startsWord_right]
    rw [hnone, eq_comm, or_iff_not_imp_left]
    exact fun hname => ⟨not_mem_of_isGap hgap, hname⟩

/-- A heredoc does not end on its first line. -/
theorem lt_heredocLength {name : List Char} (ha : '\n' ∉ a) :
    a.length < heredocLength name false (a ++ x :: b) := by
  induction a with
  | nil =>
    rw [List.nil_append, heredocLength_cons, Bool.false_and, if_neg (by simp)]
    simp
  | cons d a ih =>
    rw [List.mem_cons, not_or] at ha
    obtain ⟨hd, ha⟩ := ha
    have hbreak : (d == '\n') = false := beq_false_of_ne (Ne.symm hd)
    rw [List.cons_append, heredocLength_cons, Bool.false_and, if_neg (by simp), hbreak]
    simpa using ih ha

section

variable {name : List Char}

/-- A line closes a heredoc if its name follows the indentation, and no longer word does. -/
theorem closesHeredoc_eq_true_iff {line : List Char} :
    closesHeredoc name line = true ↔
      ∃ rest, line.dropWhile isGap = name ++ rest ∧ rest.head?.any continuesWord = false := by
  rw [closesHeredoc, Bool.and_eq_true, List.isPrefixOf_iff_prefix]
  constructor
  · rintro ⟨⟨rest, hrest⟩, hhead⟩
    refine ⟨rest, hrest.symm, ?_⟩
    rw [← hrest, List.drop_left] at hhead
    simpa using hhead
  · rintro ⟨rest, hrest, hhead⟩
    rw [hrest, List.drop_left, hhead]
    exact ⟨List.prefix_append _ _, rfl⟩

/-- A line that closes a heredoc in front of a bound closes it whatever stands behind. -/
theorem closesHeredoc_of_bound (h : Bounds x y) (hcloses : closesHeredoc name (a ++ x :: b) = true)
    (hle : run isGap (a ++ x :: b) + name.length ≤ a.length) :
    closesHeredoc name (a ++ y :: b') = true := by
  have hlength := congrArg List.length (drop_run isGap (a ++ x :: b))
  obtain ⟨rest, hrest, hhead⟩ := closesHeredoc_eq_true_iff.mp hcloses
  rcases dropWhile_isGap_cases x a b with hgapx | ⟨hgapx, hgap⟩
  · rw [hgapx] at hrest hlength
    simp only [List.length_drop, List.length_append, List.length_cons] at hlength
    obtain ⟨tail, htail⟩ : name <+: a.dropWhile isGap :=
      List.prefix_of_prefix_length_le ⟨rest, hrest.symm⟩ (List.prefix_append _ _) (by omega)
    rw [← htail, List.append_assoc, List.append_cancel_left_eq] at hrest
    refine closesHeredoc_eq_true_iff.mpr ⟨tail ++ y :: b', ?_, ?_⟩
    · rw [dropWhile_append_cons h.isGap_right, ← htail, List.append_assoc]
    · cases tail with
      | nil => simp [h.continuesWord_right]
      | cons t tail => simpa [← hrest] using hhead
  · -- the blanks in front of the name go on past the bound
    rw [List.dropWhile_append_of_pos hgap, List.dropWhile_cons_of_pos hgapx] at hlength
    have hshort := (List.dropWhile_suffix isGap (l := b)).length_le
    simp only [List.length_drop, List.length_append, List.length_cons] at hlength
    omega

/-- A line that does not close a heredoc in front of a bound does not close it whatever stands
behind, unless it is the name up to the bound. -/
theorem not_closesHeredoc_of_bound (h : Bounds x y) (hname : ∀ c ∈ name, continuesWord c = true)
    (hcloses : closesHeredoc name (a ++ x :: b) = false) :
    closesHeredoc name (a ++ y :: b') = false ∨ '\n' ∉ a := by
  rcases dropWhile_isGap_cases x a b with hgapx | ⟨_, hgap⟩
  case inr => exact .inr (not_mem_of_isGap hgap)
  rw [or_iff_not_imp_right, not_not]
  intro hbreak
  by_contra hcloses'
  rw [Bool.not_eq_false, closesHeredoc_eq_true_iff, dropWhile_append_cons h.isGap_right] at hcloses'
  obtain ⟨rest, hrest, hhead⟩ := hcloses'
  have hnotName : a.dropWhile isGap ≠ name := by
    intro heq
    rw [← List.takeWhile_append_dropWhile (p := isGap) (l := a), List.mem_append] at hbreak
    rcases hbreak with hgap | hin
    · exact absurd (List.mem_takeWhile_imp hgap) (by decide)
    · exact absurd (hname _ (heq ▸ hin)) (by decide)
  rcases List.append_eq_append_iff.mp hrest with ⟨tail, hlong, htail⟩ | ⟨tail, hshort, htail⟩
  · cases tail with
    | nil => exact hnotName (by simpa using hlong.symm)
    | cons t tail =>
      obtain ⟨rfl, _⟩ := List.cons_eq_cons.mp htail
      have hy := hname y (by simp [hlong])
      rw [h.continuesWord_right] at hy
      cases hy
  · cases tail with
    | nil => exact hnotName (by simpa using hshort)
    | cons t tail =>
      have hx : closesHeredoc name (a ++ x :: b) = true := by
        refine closesHeredoc_eq_true_iff.mpr ⟨t :: tail ++ x :: b, ?_, ?_⟩
        · rw [hgapx, hshort, List.append_assoc]
        · simpa [htail] using hhead
      rw [hcloses] at hx
      cases hx

/-- A heredoc that ends in front of a bound is the same whatever follows. -/
theorem heredocLength_bound (h : Bounds x y) (hname : ∀ c ∈ name, continuesWord c = true)
    (hne : name ≠ []) {lineStart : Bool}
    (hle : heredocLength name lineStart (a ++ x :: b) ≤ a.length) :
    heredocLength name lineStart (a ++ y :: b') = heredocLength name lineStart (a ++ x :: b) := by
  have hpos := List.length_pos_iff.mpr hne
  induction a generalizing lineStart with
  | nil =>
    rw [List.nil_append, heredocLength_cons, List.length_nil] at hle
    split at hle <;> omega
  | cons d a ih =>
    simp only [List.cons_append, heredocLength_cons, List.length_cons] at hle ⊢
    cases hcloses : lineStart && closesHeredoc name (d :: (a ++ x :: b)) with
    | true =>
      obtain ⟨hstart, hx⟩ := Bool.and_eq_true_iff.mp hcloses
      rw [if_pos hcloses] at hle
      have hy : closesHeredoc name (d :: a ++ y :: b') = true := closesHeredoc_of_bound h hx hle
      have hrun : run isGap (d :: a ++ y :: b') = run isGap (d :: a ++ x :: b) :=
        run_bound h.isGap_right (Nat.le_trans (Nat.le_add_right _ _) hle)
      rw [List.cons_append] at hy hrun
      rw [hstart, hy, hrun]
      rfl
    | false =>
      rw [hcloses, if_neg (by simp)] at hle
      have hy : (lineStart && closesHeredoc name (d :: (a ++ y :: b'))) = false := by
        cases lineStart with
        | false => rfl
        | true =>
          refine (not_closesHeredoc_of_bound (a := d :: a) h hname hcloses).resolve_right
            fun hbreak => ?_
          rw [List.mem_cons, not_or] at hbreak
          rw [beq_false_of_ne (Ne.symm hbreak.1)] at hle
          have hlong : a.length < heredocLength name false (a ++ x :: b) :=
            lt_heredocLength hbreak.2
          omega
      rw [hy, if_neg (by simp), if_neg (by simp), ih (by omega)]

end

/-- The name of a heredoc is a word. -/
theorem heredocName_continues (header : List Char) :
    ∀ c ∈ heredocName header, continuesWord c = true := by
  rw [heredocName_eq]
  unfold leadingWord
  split
  · split
    · exact fun c hc => List.mem_takeWhile_imp hc
    · simp
  · simp

/-- A fraction that ends in front of a bound is the same whatever follows. -/
theorem fractionLength_bound (h : Bounds x y) (hle : fractionLength (a ++ x :: b) ≤ a.length) :
    fractionLength (a ++ y :: b') = fractionLength (a ++ x :: b) := by
  obtain ⟨hx, hy⟩ := h.forall_both (p := fun c => c ≠ '.' ∧ isDigitOrGroup c = false) (by decide)
  match a with
  | [] =>
    rw [List.nil_append, List.nil_append, fractionLength_of_ne hx.1, fractionLength_of_ne hy.1]
  | d :: a =>
    by_cases hd : d = '.'
    · subst hd
      match a with
      | [] => simp [fractionLength_point hx.1, fractionLength_point hy.1, run, hx.2, hy.2]
      | e :: a =>
        by_cases he : e = '.'
        · subst he
          rfl
        · simp only [List.cons_append, fractionLength_point he] at hle ⊢
          rw [← List.cons_append, ← List.cons_append, run_bound hy.2 (by simpa using hle)]
    · rw [List.cons_append, List.cons_append, fractionLength_of_ne hd, fractionLength_of_ne hd]

/-- An exponent that ends in front of a bound is the same whatever follows. -/
theorem exponentLength_bound (h : Bounds x y) (hle : exponentLength (a ++ x :: b) ≤ a.length) :
    exponentLength (a ++ y :: b') = exponentLength (a ++ x :: b) := by
  obtain ⟨hx, hy⟩ := h.forall_both (p := fun c => (c == 'e' || c == 'E') = false ∧
    c ≠ '+' ∧ c ≠ '-' ∧ c.isDigit = false ∧ isDigitOrGroup c = false) (by decide)
  cases a with
  | nil =>
    simp only [List.nil_append, exponentLength_cons, hx.1, hy.1, Bool.false_and, Bool.false_eq_true,
      if_false]
  | cons e a =>
    have hsign {c : Char} (hc : c ≠ '+' ∧ c ≠ '-') (rest : List Char) : 
        signLength (a ++ c :: rest) = signLength a := by
      cases a with
      | nil =>
        rw [List.nil_append, signLength]
        · rfl
        · rintro _ heq
          exact hc.1 (List.cons_eq_cons.mp heq).1
        · rintro _ heq
          exact hc.2 (List.cons_eq_cons.mp heq).1
      | cons d a =>
        rw [List.cons_append]
        unfold signLength
        split <;> split <;> simp_all
    have hshort : signLength a ≤ a.length := by
      unfold signLength
      split <;> simp
    simp only [List.cons_append, exponentLength_cons, hsign ⟨hx.2.1, hx.2.2.1⟩,
      hsign ⟨hy.2.1, hy.2.2.1⟩, List.drop_append_of_le_length hshort] at hle ⊢
    have hhead : ((a.drop (signLength a) ++ y :: b').head?.any Char.isDigit) =
        ((a.drop (signLength a) ++ x :: b).head?.any Char.isDigit) := by
      cases a.drop (signLength a) with
      | nil => simp [hx.2.2.2.1, hy.2.2.2.1]
      | cons d rest => rfl
    rw [hhead]
    split
    · rename_i hstarts
      rw [if_pos hstarts] at hle
      have hrun : run isDigitOrGroup (a.drop (signLength a) ++ y :: b') =
          run isDigitOrGroup (a.drop (signLength a) ++ x :: b) := by
        refine run_bound hy.2.2.2.2 ?_
        rw [List.length_drop]
        simp only [List.length_cons] at hle
        omega
      rw [hrun]
    · rfl

/-- A number in base ten that ends in front of a bound is the same whatever follows. -/
theorem plain_bound (h : Bounds x y) (hle : (number.plain (a ++ x :: b)).2 ≤ a.length) :
    number.plain (a ++ y :: b') = number.plain (a ++ x :: b) := by
  obtain ⟨-, hy⟩ := h.forall_both (p := fun c => isDigitOrGroup c = false) (by decide)
  simp only [number.plain] at hle ⊢
  have hwhole : run isDigitOrGroup (a ++ y :: b') = run isDigitOrGroup (a ++ x :: b) :=
    run_bound hy (by omega)
  rw [hwhole]
  generalize run isDigitOrGroup (a ++ x :: b) = whole at hle ⊢
  have hdrop (n : Nat) (hn : n ≤ a.length) (text : List Char) :
      (a ++ text).drop n = a.drop n ++ text := List.drop_append_of_le_length hn
  have hfraction : fractionLength (a.drop whole ++ y :: b') = fractionLength
      (a.drop whole ++ x :: b) := by
    refine fractionLength_bound h ?_
    rw [List.length_drop, ← hdrop whole (by omega)]
    omega
  rw [hdrop whole (by omega) (x :: b)] at hle ⊢
  rw [hdrop whole (by omega) (y :: b'), hfraction]
  generalize fractionLength (a.drop whole ++ x :: b) = fraction at hle ⊢
  rw [hdrop (whole + fraction) (by omega) (x :: b)] at hle ⊢
  have hexponent : exponentLength (a.drop (whole + fraction) ++ y :: b') =
      exponentLength (a.drop (whole + fraction) ++ x :: b) := by
    refine exponentLength_bound h ?_
    rw [List.length_drop]
    omega
  rw [hdrop (whole + fraction) (by omega) (y :: b'), hexponent]

/-- A number that ends in front of a bound is the same whatever follows. -/
theorem number_bound (h : Bounds x y) (hle : (number (c :: (a ++ x :: b))).2 ≤ a.length + 1) :
    number (c :: (a ++ y :: b')) = number (c :: (a ++ x :: b)) := by
  obtain ⟨hx, hy⟩ := h.forall_both (p := fun c => isBase c = false ∧ isHexOrGroup c = false)
      (by decide)
  cases a with
  | nil =>
    have hplain {d : Char} (hd : isBase d = false) (rest : List Char) :
        number (c :: d :: rest) = number.plain (c :: d :: rest) := by
      rw [number_cons_cons, if_neg (by simp [hd])]
    rw [List.nil_append, hplain hx.1] at hle
    rw [List.nil_append, List.nil_append, hplain hx.1, hplain hy.1]
    exact plain_bound (a := [c]) h hle
  | cons e a =>
    rw [List.cons_append, number_cons_cons] at hle
    rw [List.cons_append, List.cons_append, number_cons_cons, number_cons_cons]
    split
    · rename_i hbase
      rw [if_pos hbase] at hle
      have hrun : run isHexOrGroup (a ++ y :: b') = run isHexOrGroup (a ++ x :: b) := by
        refine run_bound hy.2 ?_
        simp only [List.length_cons] at hle
        omega
      rw [hrun]
    · rename_i hbase
      rw [if_neg hbase] at hle
      exact plain_bound (a := c :: e :: a) h hle

/-- What is found in a list depends on the test of its elements only. -/
theorem find?_congr_of_mem {α : Type} {p q : α → Bool} {l : List α} (h : ∀ a ∈ l, p a = q a) :
    l.find? p = l.find? q := by
  induction l with
  | nil => rfl
  | cons a l ih =>
    obtain ⟨hfirst, hrest⟩ := List.forall_mem_cons.mp h
    rw [List.find?_cons, List.find?_cons, hfirst, ih hrest]

/-- No bound is the second or a later character of an operator, so the longest operator is seen in
front of a bound. -/
theorem operatorStep_bound (h : Bounds x y) (c : Char) (a : List Char) :
    operatorStep (c :: (a ++ y :: b')) = operatorStep (c :: (a ++ x :: b)) := by
  have htails : ∀ o ∈ operators, ∀ c ∈ edges,
      c ∉ o.1.toList.tail := by decide
  have hfind : operators.find? (fun o => at? o.1 (c :: (a ++ y :: b'))) =
      operators.find? (fun o => at? o.1 (c :: (a ++ x :: b))) :=
    find?_congr_of_mem fun o ho => at?_cons_bound h (htails o ho) c a
  rw [operatorStep, operatorStep, hfind]

end Lexer

end PhpStyle.Php
