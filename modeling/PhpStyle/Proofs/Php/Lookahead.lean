import PhpStyle.Proofs.Php.Bounds

/-!
# How far a step looks ahead

A step that ends its lexeme in front of a bound is the same whatever stands behind the bound. This
is said of the steps of each mode; documentation comments are left before a bound can change, and a
line break in front of an `n` must not be one that an open tag would take with it.
-/

namespace PhpStyle.Php

namespace Lexer

variable {x y c : Char} {a b b' : List Char}

/-- That a step ends its lexeme in front of a bound that may change: in code if right in front of
it, and not such that a line break put there would be taken with it. -/
structure Ends (x y : Char) (a : List Char) (s : Step) : Prop where
  le : s.extra ≤ a.length
  next : x ≠ y → s.next.inDoc = false
  last : x ≠ y → s.extra = a.length → s.next = .code
  whitespace : x ∈ ['n', 'N'] → s.extra = a.length → s.kind ≠ .whitespace
  openTag : x ∈ ['n', 'N'] → s.extra = a.length → s.kind = .openTag → s.extra ≠ 4
  carriageReturn : x ∈ ['n', 'N'] → y = '\n' → s.extra + 1 = a.length → a.getLast? = some '\r' →
    s.next = .code ∧ (s.kind = .openTag → s.extra ≠ 4)

/-- A line break that ends in front of a bound, or is none, is the same whatever follows, unless the
break put in front of an `n` would begin or end it. -/
theorem lineBreakLength_bound (h : Bounds x y) (hle : lineBreakLength (a ++ x :: b) ≤ a.length)
    (hsplit : x ∈ ['n', 'N'] → a ≠ [] ∧ (y = '\n' → a ≠ ['\r'])) :
    lineBreakLength (a ++ y :: b') = lineBreakLength (a ++ x :: b) := by
  match a with
  | [] =>
    have hx : lineBreakLength (x :: b) = 0 := by simpa using hle
    have hy : y ≠ '\n' ∧ y ≠ '\r' := by
      cases h with
      | same hx' =>
        have hreturn : ∀ c ∈ '\n' :: '/' :: marks, c ≠ '\r' := by decide
        refine ⟨?_, hreturn _ hx'⟩
        rintro rfl
        cases hx
      | split hx' _ => exact absurd rfl (hsplit hx').1
      | join _ hy =>
        have hmarks : ∀ c ∈ marks, c ≠ '\n' ∧ c ≠ '\r' := by decide
        exact hmarks _ hy
    rw [List.nil_append, List.nil_append, hx, lineBreakLength_cons, if_neg hy.1,
      if_neg (by simp [hy.2])]
  | [d] =>
    simp only [List.cons_append, List.nil_append, lineBreakLength_cons, List.head?_cons,
      Option.some.injEq, List.length_cons, List.length_nil] at hle ⊢
    split
    · rfl
    rename_i hbreak
    rw [if_neg hbreak] at hle
    have hx : ¬ (d = '\r' ∧ x = '\n') := by
      intro hreturn
      rw [if_pos hreturn] at hle
      omega
    have hy : ¬ (d = '\r' ∧ y = '\n') := by
      rintro ⟨rfl, rfl⟩
      cases h with
      | same => exact hx ⟨rfl, rfl⟩
      | split hx' _ => exact (hsplit hx').2 rfl rfl
      | join _ hy => exact absurd hy (by decide)
    rw [if_neg hx, if_neg hy]
  | d :: e :: a =>
    simp only [List.cons_append, lineBreakLength_cons]
    rfl

/-- Whether the rest of a text that starts with a slash and a star makes it a documentation
comment. -/
def opensDoc (body : List Char) : Bool :=
  at? "*" body && (body.drop 1).head?.any fun c => isBlank c || c == '\n'

/-- Behind a slash, a star opens a documentation comment or a block comment. -/
theorem slashStep_star (body : List Char) :
    slashStep ('*' :: body) =
      if opensDoc body then ⟨.docOpen, 2, .docComment false⟩
      else ⟨.comment, (blockLine body).1 + 1, (blockLine body).2⟩ := by
  rfl

/-- A documentation comment is told from a block comment by two characters. -/
theorem opensDoc_cons (d : Char) (rest : List Char) :
    opensDoc (d :: rest) = (d == '*' && rest.head?.any fun c => isBlank c || c == '\n') := by
  rw [opensDoc, at?]
  change (List.isPrefixOf ['*'] (d :: rest) && _) = _
  rw [List.isPrefixOf_cons_cons, List.isPrefixOf_nil_left, Bool.and_true, Bool.beq_comm]
  rfl

/-- A slash without a slash or a star behind it is an operator. -/
theorem slashStep_of_ne {d : Char} (hd : d ≠ '/' ∧ d ≠ '*') (rest : List Char) :
    slashStep (d :: rest) = operatorStep ('/' :: d :: rest) := by
  rw [slashStep]
  · rintro _ heq
    exact hd.1 (List.cons_eq_cons.mp heq).1
  · rintro _ heq
    exact hd.2 (List.cons_eq_cons.mp heq).1

/-- What does not open a documentation comment in front of one character does not in front of the
other. -/
theorem opensDoc_bound (h : Bounds x y) (hdoc : opensDoc (a ++ x :: b) = false)
    (hblock : (blockLine (a ++ x :: b)).1 ≤ a.length) : opensDoc (a ++ y :: b') = false := by
  have hy : y ≠ '*' := (h.forall_both (p := (· ≠ '*')) (by decide)).2
  match a with
  | [] => simp [opensDoc_cons, hy]
  | [e] =>
    by_contra hopens
    have he : e = '*' := by
      rw [Bool.not_eq_false, List.cons_append, opensDoc_cons, Bool.and_eq_true] at hopens
      simpa using hopens.1
    subst he
    have hpos := blockLine_pos x b
    by_cases hclose : x = '/'
    · subst hclose
      simp [blockLine] at hblock
    · rw [List.cons_append, List.nil_append, blockLine_cons (by decide) (by simp [hclose])]
        at hblock
      simp only [List.length_cons, List.length_nil] at hblock
      omega
  | e :: f :: a => simpa [opensDoc_cons] using hdoc

/-- A comment that a slash and a star open is read the same if its first part ends in front of a
bound. -/
theorem starStep_bound (h : Bounds x y)
    (hends : Ends x y ('*' :: a) (slashStep ('*' :: (a ++ x :: b)))) :
    slashStep ('*' :: (a ++ y :: b')) = slashStep ('*' :: (a ++ x :: b)) := by
  have hle := hends.le
  rw [slashStep_star] at hends hle ⊢
  rw [slashStep_star]
  cases hdoc : opensDoc (a ++ x :: b) with
  | true =>
    rw [hdoc, if_pos rfl] at hends hle
    -- the step goes on in a documentation comment, so what follows is the same
    obtain rfl : x = y := by
      by_contra hne
      cases hends.next hne
    have hy : opensDoc (a ++ x :: b') = true := by
      match a with
      | [] => simp at hle
      | [e] => simpa [opensDoc_cons] using hdoc
      | e :: f :: a => simpa [opensDoc_cons] using hdoc
    rw [hy, if_pos rfl, if_pos rfl]
  | false =>
    rw [hdoc, if_neg (by simp)] at hle
    have hblock : (blockLine (a ++ x :: b)).1 ≤ a.length := by simpa using hle
    have hy : opensDoc (a ++ y :: b') = false := opensDoc_bound h hdoc hblock
    rw [hy, blockLine_bound hblock]

/-- What a slash starts is read the same if it ends in front of a bound: a comment or an
operator. -/
theorem slashStep_bound (h : Bounds x y) (hends : Ends x y a (slashStep (a ++ x :: b))) :
    slashStep (a ++ y :: b') = slashStep (a ++ x :: b) := by
  obtain ⟨hstarx, hstary⟩ := h.forall_both (p := (· ≠ '*')) (by decide)
  have hle := hends.le
  match a with
  | [] =>
    by_cases hslash : x = '/'
    · subst hslash
      have hpos := lineCommentLength_pos (c := '/') (by decide) b
      simp only [List.nil_append, slashStep, List.length_nil] at hle
      omega
    · have hy : y ≠ '/' := by
        have hmarks : ∀ c ∈ ['\n', '\r'] ++ marks, c ≠ '/' := by decide
        cases h with
        | same => exact hslash
        | split _ hy => exact hmarks y (List.mem_append_left _ hy)
        | join _ hy => exact hmarks y (List.mem_append_right _ hy)
      rw [List.nil_append, List.nil_append, slashStep_of_ne ⟨hslash, hstarx⟩,
        slashStep_of_ne ⟨hy, hstary⟩]
      exact operatorStep_bound h '/' []
  | d :: a =>
    rw [List.cons_append] at hends
    rw [List.cons_append, List.cons_append]
    by_cases hslash : d = '/'
    · subst hslash
      simp only [List.cons_append, slashStep] at hle ⊢
      rw [← List.cons_append, ← List.cons_append, lineCommentLength_bound h hle]
    by_cases hstar : d = '*'
    · subst hstar
      exact starStep_bound h hends
    · rw [slashStep_of_ne ⟨hslash, hstar⟩, slashStep_of_ne ⟨hslash, hstar⟩]
      exact operatorStep_bound h '/' (d :: a)

/-- A carriage return in front of an `n` is not part of a line break. -/
theorem lineBreakLength_return (hx : x ∈ ['n', 'N']) (rest : List Char) :
    lineBreakLength ('\r' :: x :: rest) = 0 := by
  have hbreak : x ≠ '\n' := by
    rintro rfl
    exact absurd hx (by decide)
  simp [lineBreakLength_cons, hbreak]

/-- A close tag takes the same line break along if it ends in front of a bound. -/
theorem closeTag_bound (h : Bounds x y) {d : Char}
    (hends : Ends x y (d :: a) ⟨.closeTag, 1 + lineBreakLength (a ++ x :: b), .html⟩) :
    lineBreakLength (a ++ y :: b') = lineBreakLength (a ++ x :: b) := by
  have hle := hends.le
  simp only [List.length_cons] at hle
  refine lineBreakLength_bound h (by omega) fun hsplit => ?_
  refine ⟨?_, ?_⟩
  · rintro rfl
    have hlast := hends.last (h.ne_of_split hsplit)
    simp only [List.length_cons, List.length_nil] at hlast hle
    cases hlast (by omega)
  · rintro hy rfl
    have hzero := lineBreakLength_return hsplit b
    cases (hends.carriageReturn hsplit hy (by simp [hzero]) rfl).1

/-- Whitespace of code that ends in front of a bound is the same whatever follows. -/
theorem whitespaceStep_bound (h : Bounds x y)
    (hends : Ends x y a ⟨.whitespace, whitespaceLength (c :: (a ++ x :: b)) - 1, .code⟩) :
    whitespaceLength (c :: (a ++ y :: b')) = whitespaceLength (c :: (a ++ x :: b)) := by
  have hle := hends.le
  have hshort : whitespaceLength (c :: a ++ x :: b) ≤ (c :: a).length := by
    simp only [List.cons_append, List.length_cons] at hle ⊢
    omega
  refine whitespaceLength_bound hshort fun hlength hzero => ?_
  cases h with
  | same =>
    have hbreak : x ≠ '\n' := by
      rintro rfl
      simp [whitespaceLength] at hzero
    have hblank : ¬ isBlank x = true := by
      intro hblank
      simp [whitespaceLength, hbreak, hblank] at hzero
    simp [whitespaceLength, hbreak, hblank]
  | split hx =>
    have hnot := hends.whitespace hx
    simp only [List.cons_append, List.length_cons] at hlength hnot
    exact absurd rfl (hnot (by omega))
  | join _ hy =>
    have hmarks : ∀ c ∈ marks, c ≠ '\n' ∧ isBlank c = false := by decide
    obtain ⟨hbreak, hblank⟩ := hmarks y hy
    simp [whitespaceLength, hbreak, hblank]

/-- The step at a hash, which opens an attribute or a comment. -/
def hashStep (rest : List Char) : Step :=
  if at? "[" rest then ⟨.attribute, 1, .code⟩ else ⟨.comment, lineCommentLength rest, .code⟩

/-- What a hash starts is read the same if it ends in front of a bound: an attribute or a line
comment. -/
theorem hashStep_bound (h : Bounds x y) (hle : (hashStep (a ++ x :: b)).extra ≤ a.length) :
    hashStep (a ++ y :: b') = hashStep (a ++ x :: b) := by
  unfold hashStep at hle ⊢
  cases a with
  | nil =>
    have hx : x ≠ '?' := (h.forall_both (p := (· ≠ '?')) (by decide)).1
    have hpos := lineCommentLength_pos hx b
    split at hle
    · simp at hle
    · simp only [List.nil_append, List.length_nil] at hle
      omega
  | cons d a =>
    have hat : at? "[" (d :: (a ++ y :: b')) = at? "[" (d :: (a ++ x :: b)) :=
      at?_cons_bound h (by decide) d a
    rw [List.cons_append, List.cons_append, hat]
    split
    · rfl
    · rename_i hattribute
      rw [List.cons_append, if_neg hattribute] at hle
      rw [← List.cons_append, ← List.cons_append, lineCommentLength_bound h hle]

/-- The step at the mark of a heredoc, given its name. -/
def heredocStep (name rest : List Char) : Step :=
  match name with
  | [] => ⟨.shiftLeft, 1, .code⟩
  | name => ⟨.heredoc, heredocLength name false rest, .code⟩

/-- A heredoc that ends in front of a bound has the same name and is read the same. -/
theorem heredocStep_bound (h : Bounds x y) (hat : at? "<<<" (c :: (a ++ x :: b)) = true)
    (hle : (heredocStep (heredocName ((a ++ x :: b).drop 2)) (a ++ x :: b)).extra ≤ a.length) :
    heredocStep (heredocName ((a ++ y :: b').drop 2)) (a ++ y :: b') =
      heredocStep (heredocName ((a ++ x :: b).drop 2)) (a ++ x :: b) := by
  have hx : x ≠ '<' := (h.forall_both (p := (· ≠ '<')) (by decide)).1
  have hmark : (c :: (a ++ x :: b)).take 3 = ['<', '<', '<'] := take_of_at? hat
  match a with
  | [] =>
    simp only [List.nil_append, List.take_succ_cons, List.cons.injEq] at hmark
    exact absurd hmark.2.1 hx
  | [e] =>
    simp only [List.cons_append, List.nil_append, List.take_succ_cons, List.cons.injEq] at hmark
    exact absurd hmark.2.2.1 hx
  | e :: f :: a =>
    simp only [List.cons_append, List.take_succ_cons, List.take_zero, List.cons.injEq,
      and_true] at hmark
    obtain ⟨-, rfl, rfl⟩ := hmark
    simp only [List.cons_append, List.drop_succ_cons, List.drop_zero] at hle ⊢
    have hcontinues := heredocName_continues (a ++ x :: b)
    have hname : heredocName (a ++ y :: b') = heredocName (a ++ x :: b) ∨ _ := heredocName_bound h a
    rcases hname with hname | ⟨hbreak, hname⟩
    · rw [hname]
      cases hfound : heredocName (a ++ x :: b) with
      | nil => rfl
      | cons d name =>
        rw [hfound] at hle hcontinues
        have hsame : heredocLength (d :: name) false ('<' :: '<' :: a ++ y :: b') =
            heredocLength (d :: name) false ('<' :: '<' :: a ++ x :: b) :=
          heredocLength_bound h hcontinues (by simp) hle
        simp only [heredocStep]
        rw [← List.cons_append, ← List.cons_append, ← List.cons_append, ← List.cons_append, hsame]
    · obtain ⟨d, name, hfound⟩ := List.exists_cons_of_ne_nil hname
      have hlong : ('<' :: '<' :: a).length < heredocLength (d :: name) false
          ('<' :: '<' :: a ++ x :: b) :=
        lt_heredocLength (by simp [hbreak])
      rw [hfound] at hle
      exact absurd hle (Nat.not_le.mpr hlong)

/-- The step at a dollar sign, which makes a variable only of a word. -/
theorem variable_bound (hle : run continuesWord (a ++ x :: b) ≤ a.length)
    (hstarts : (a ++ x :: b).head?.any startsWord = true) :
    (a ++ y :: b').head?.any startsWord = true := by
  cases a with
  | nil =>
    have hx : startsWord x = true := by simpa using hstarts
    rw [List.nil_append, run, if_pos (continuesWord_of_startsWord hx), List.length_nil] at hle
    omega
  | cons d a => simpa using hstarts

/-- A word that ends in front of a bound is read the same. -/
theorem wordStep_bound (h : Bounds x y) (hle : (wordStep c (a ++ x :: b)).extra ≤ a.length) :
    wordStep c (a ++ y :: b') = wordStep c (a ++ x :: b) := by
  unfold wordStep at hle ⊢
  split
  · rename_i hstarts
    rw [if_pos hstarts] at hle
    dsimp only at hle ⊢
    have hrun : run continuesWord (a ++ y :: b') = run continuesWord (a ++ x :: b) :=
      run_bound h.continuesWord_right hle
    rw [hrun, List.take_append_of_le_length hle, List.take_append_of_le_length hle]
  · exact operatorStep_bound h c a

/-- Each step through code that ends in front of a bound is the same whatever follows. -/
theorem codeStep_bound (h : Bounds x y) (hends : Ends x y a (codeStep c (a ++ x :: b))) :
    codeStep c (a ++ y :: b') = codeStep c (a ++ x :: b) := by
  have hat (word : String) (hword : ∀ c ∈ edges, c ∉ word.toList.tail) :
      at? word (c :: (a ++ y :: b')) = at? word (c :: (a ++ x :: b)) := at?_cons_bound h hword c a
  obtain ⟨hx, hy⟩ := h.forall_both (p := fun c => c.isDigit = false) (by decide)
  have hle := hends.le
  unfold codeStep at hends hle ⊢
  rw [hat "?>" (by decide), hat "<<<" (by decide)]
  by_cases hclose : at? "?>" (c :: (a ++ x :: b)) = true
  · simp only [if_pos hclose] at hends hle ⊢
    match a with
    | [] => simp at hle
    | d :: a =>
      simp only [List.cons_append, List.drop_succ_cons, List.drop_zero] at hends ⊢
      rw [closeTag_bound h hends]
  simp only [if_neg hclose] at hends hle ⊢
  by_cases hblank : (isBlank c || c == '\n') = true
  · simp only [if_pos hblank] at hends hle ⊢
    rw [whitespaceStep_bound h hends]
  simp only [if_neg hblank] at hends hle ⊢
  by_cases hhash : (c == '#') = true
  · simp only [if_pos hhash] at hends hle ⊢
    exact hashStep_bound h hle
  simp only [if_neg hhash] at hends hle ⊢
  by_cases hslash : (c == '/') = true
  · simp only [if_pos hslash] at hends ⊢
    exact slashStep_bound h hends
  simp only [if_neg hslash] at hends hle ⊢
  by_cases hdollar : (c == '$' && (a ++ x :: b).head?.any startsWord) = true
  · simp only [if_pos hdollar] at hle ⊢
    have hrun : run continuesWord (a ++ y :: b') = run continuesWord (a ++ x :: b) :=
      run_bound h.continuesWord_right hle
    rw [Bool.and_eq_true] at hdollar
    rw [if_pos (by rw [hdollar.1, variable_bound hle hdollar.2]; rfl), hrun]
  have hdollar' : ¬ (c == '$' && (a ++ y :: b').head?.any startsWord) = true := by
    cases a with
    | nil => simp [h.startsWord_right]
    | cons d a => simpa using hdollar
  simp only [if_neg hdollar, if_neg hdollar'] at hle ⊢
  by_cases hsingle : (c == '\'') = true
  · simp only [if_pos hsingle] at hle ⊢
    rw [quotedLength_bound a hle]
  simp only [if_neg hsingle] at hle ⊢
  by_cases hdouble : (c == '"') = true
  · simp only [if_pos hdouble] at hle ⊢
    rw [beq_iff_eq.mp hdouble] at hle ⊢
    rw [quotedLength_bound a hle, interpolates_bound a hle]
  simp only [if_neg hdouble] at hle ⊢
  by_cases hcommand : (c == '`') = true
  · simp only [if_pos hcommand] at hle ⊢
    rw [quotedLength_bound a hle]
  simp only [if_neg hcommand] at hle ⊢
  by_cases hheredoc : at? "<<<" (c :: (a ++ x :: b)) = true
  · simp only [if_pos hheredoc] at hle ⊢
    exact heredocStep_bound h hheredoc hle
  simp only [if_neg hheredoc] at hle ⊢
  have hdigit : (a ++ y :: b').head?.any Char.isDigit = (a ++ x :: b).head?.any Char.isDigit := by
    cases a with
    | nil => simp [hx, hy]
    | cons d a => rfl
  rw [hdigit]
  by_cases hnumber : (c.isDigit || (c == '.' && (a ++ x :: b).head?.any Char.isDigit)) = true
  · simp only [if_pos hnumber] at hle ⊢
    have hsame : number (c :: (a ++ y :: b')) = number (c :: (a ++ x :: b)) :=
      number_bound h (by omega)
    rw [hsame]
  simp only [if_neg hnumber] at hle ⊢
  exact wordStep_bound h hle

/-- An open tag is a `<` and three more characters, in letters of either case. -/
theorem atPhpTag_cons (d : Char) (rest : List Char) :
    atPhpTag (d :: rest) =
      (d.toLower == '<' && ['?', 'p', 'h', 'p'].isPrefixOf (rest.map Char.toLower)) := by
  rw [Bool.eq_iff_iff, Bool.and_eq_true, List.isPrefixOf_iff_prefix, List.prefix_iff_eq_take,
    ← List.map_take, atPhpTag, beq_iff_eq, beq_iff_eq]
  change d.toLower :: (rest.take 4).map Char.toLower = '<' :: ['?', 'p', 'h', 'p'] ↔ _
  rw [List.cons.injEq]
  exact and_congr_right fun _ => eq_comm

/-- No bound is part of an open tag, so whether a text starts with one is seen in front of the
bound. -/
theorem atPhpTag_bound (h : Bounds x y) (d : Char) (a : List Char) :
    atPhpTag (d :: (a ++ y :: b')) = atPhpTag (d :: (a ++ x :: b)) := by
  rw [atPhpTag_cons, atPhpTag_cons]
  simp only [List.map_append, List.map_cons]
  rw [isPrefixOf_bound
    (.inr (h.forall_both (p := fun c => c.toLower ∉ ['?', 'p', 'h', 'p']) (by decide)))]

/-- Whether template text ends is seen in front of a bound. -/
theorem atOpenTag_bound (h : Bounds x y) (d : Char) (a : List Char) :
    atOpenTag (d :: (a ++ y :: b')) = atOpenTag (d :: (a ++ x :: b)) := by
  rw [atOpenTag, atOpenTag, at?_cons_bound h (by decide), atPhpTag_bound h]

/-- Template text that ends in front of a bound is the same whatever follows. -/
theorem htmlLength_bound (h : Bounds x y) (hle : htmlLength (a ++ x :: b) ≤ a.length) :
    htmlLength (a ++ y :: b') = htmlLength (a ++ x :: b) := by
  induction a with
  | nil =>
    have hx := (h.forall_both (p := fun c => c ≠ '<' ∧ (c.toLower == '<') = false) (by decide)).1
    have htag : atOpenTag (x :: b) = false := by
      rw [atOpenTag, atPhpTag_cons, hx.2, at?_cons_ne (d := '<') rfl hx.1]
      rfl
    rw [List.nil_append, htmlLength, htag, if_neg (by simp), List.length_nil] at hle
    split at hle <;> omega
  | cons d a ih =>
    have htag : atOpenTag (d :: (a ++ y :: b')) = atOpenTag (d :: (a ++ x :: b)) :=
      atOpenTag_bound h d a
    simp only [List.cons_append, htmlLength, htag] at hle ⊢
    split
    · rfl
    · rename_i hnone
      rw [if_neg hnone] at hle
      split
      · rfl
      · rename_i hbreak
        rw [if_neg hbreak] at hle
        rw [ih (by simpa using hle)]

/-- The tag with a name is read together with its gap. -/
theorem htmlStep_of_atPhpTag {rest : List Char} (hecho : ¬ at? "<?=" (c :: rest) = true)
    (htag : atPhpTag (c :: rest) = true) :
    htmlStep c rest = ⟨.openTag, 4 + tagGap (rest.drop 4), .code⟩ := by
  rw [htmlStep, if_neg hecho, if_pos htag]

/-- The gap behind a tag that ends in front of a bound is the same, unless the break put in front of
an `n` would begin or end it. -/
theorem tagGap_bound (h : Bounds x y) (hle : tagGap (a ++ x :: b) ≤ a.length)
    (hsplit : x ∈ ['n', 'N'] → a ≠ [] ∧ (y = '\n' → a ≠ ['\r'])) :
    tagGap (a ++ y :: b') = tagGap (a ++ x :: b) := by
  have hy := h.forall_right (p := fun c => c ≠ ' ' ∧ c ≠ '\t') (by decide)
  cases a with
  | nil =>
    have hx : x ≠ ' ' ∧ x ≠ '\t' := by
      constructor
      · rintro rfl
        simp [tagGap] at hle
      · rintro rfl
        simp [tagGap] at hle
    rw [List.nil_append, tagGap_of_ne hx] at hle
    rw [List.nil_append, List.nil_append, tagGap_of_ne hx, tagGap_of_ne hy]
    exact lineBreakLength_bound (a := []) h hle hsplit
  | cons d a =>
    by_cases hspace : d = ' '
    · subst hspace
      rfl
    by_cases htab : d = '\t'
    · subst htab
      rfl
    rw [List.cons_append, tagGap_of_ne ⟨hspace, htab⟩] at hle
    rw [List.cons_append, List.cons_append, tagGap_of_ne ⟨hspace, htab⟩,
      tagGap_of_ne ⟨hspace, htab⟩]
    exact lineBreakLength_bound (a := d :: a) h hle hsplit

/-- Each step through template text that ends in front of a bound is the same whatever follows. -/
theorem htmlStep_bound (h : Bounds x y) (hends : Ends x y a (htmlStep c (a ++ x :: b))) :
    htmlStep c (a ++ y :: b') = htmlStep c (a ++ x :: b) := by
  have hecho : at? "<?=" (c :: (a ++ y :: b')) = at? "<?=" (c :: (a ++ x :: b)) :=
    at?_cons_bound h (by decide) c a
  have htag : atPhpTag (c :: (a ++ y :: b')) = atPhpTag (c :: (a ++ x :: b)) := atPhpTag_bound h c a
  by_cases hopens : at? "<?=" (c :: (a ++ x :: b)) = true
  · rw [htmlStep, htmlStep, hecho, if_pos hopens, if_pos hopens]
  by_cases hphp : atPhpTag (c :: (a ++ x :: b)) = true
  · have hle := hends.le
    rw [htmlStep_of_atPhpTag hopens hphp] at hends hle
    rw [htmlStep_of_atPhpTag hopens hphp, htmlStep_of_atPhpTag (hecho ▸ hopens) (htag ▸ hphp)]
    dsimp only at hle
    have hdrop (text : List Char) : (a ++ text).drop 4 = a.drop 4 ++ text :=
      List.drop_append_of_le_length (by omega)
    rw [hdrop] at hends hle
    have hgap : tagGap (a.drop 4 ++ y :: b') = tagGap (a.drop 4 ++ x :: b) := by
      refine tagGap_bound h (by rw [List.length_drop]; omega) fun hsplit => ?_
      have hlength : 4 < a.length := by
        by_contra hnot
        exact hends.openTag hsplit (by dsimp only; omega) rfl (by dsimp only; omega)
      refine ⟨?_, fun hy hreturn => ?_⟩
      · rw [← List.length_pos_iff, List.length_drop]
        omega
      · have hone := congrArg List.length hreturn
        have hlast : a.getLast? = some '\r' := by
          rw [← List.take_append_drop 4 a, hreturn, List.getLast?_concat]
        have hzero : tagGap (a.drop 4 ++ x :: b) = 0 := by
          rw [hreturn, List.cons_append, List.nil_append, tagGap_of_ne (by decide),
            lineBreakLength_return hsplit]
        rw [List.length_drop, List.length_singleton] at hone
        exact (hends.carriageReturn hsplit hy (by dsimp only; omega) hlast).2 rfl
          (by dsimp only; omega)
    rw [hdrop, hdrop, hgap]
  · rw [htmlStep, if_neg hopens, if_neg hphp] at hends
    rw [htmlStep, htmlStep, hecho, htag, if_neg hopens, if_neg hopens, if_neg hphp, if_neg hphp]
    split
    · rfl
    · rename_i hbreak
      have hle := hends.le
      simp only [if_neg hbreak] at hle
      rw [htmlLength_bound h hle]

/-- A line of a documentation comment ends in front of a bound, or shows it. -/
theorem docLine_bound (hx : x ∈ '\n' :: '/' :: marks) (a : List Char) :
    docLine (a ++ x :: b') = docLine (a ++ x :: b) ∨
      a.length < visibleLength (docLine (a ++ x :: b)) := by
  induction a with
  | nil =>
    have hseals : ∀ c ∈ '\n' :: '/' :: marks, c ≠ '\r' ∧ c ≠ '*' ∧ isBlank c = false := by decide
    obtain ⟨hreturn, hstar, hblank⟩ := hseals x hx
    rw [List.nil_append, List.nil_append, docLine_cons, docLine_cons]
    by_cases hbreak : x = '\n'
    · simp [hbreak]
    · simp [hbreak, hreturn, hstar, visibleLength, hblank]
  | cons d a ih =>
    have hhead : (a ++ x :: b').head? = (a ++ x :: b).head? := by
      cases a <;> rfl
    rw [List.cons_append, List.cons_append, docLine_cons, docLine_cons, hhead]
    split
    · exact .inl rfl
    · refine ih.imp (fun heq => by rw [heq]) fun hlong => ?_
      have hpos : ¬ (visibleLength (docLine (a ++ x :: b)) = 0) := by omega
      simp only [visibleLength, hpos, decide_false, Bool.false_and, Bool.false_eq_true, if_false,
        List.length_cons]
      omega

/-- A step through a documentation comment leaves it only at its closing tag. -/
theorem inDoc_docStep {lineStart : Bool} {rest : List Char} (h : at? "*/" (c :: rest) = false) :
    (docStep lineStart c rest).next.inDoc = true := by
  rw [docStep, if_neg (by simp [h])]
  split
  · rfl
  split
  · rfl
  split
  · rfl
  split
  · rfl
  · rfl

/-- A bound that does not change is a line break, a slash or a mark. -/
theorem Bounds.mem_of_eq (h : Bounds x x) : x ∈ '\n' :: '/' :: marks := by
  cases h with
  | same hx => exact hx
  | split hx hy => exact absurd rfl (Bounds.ne_of_split (.split hx hy) hx)
  | join _ hy => exact List.mem_cons_of_mem _ (List.mem_cons_of_mem _ hy)

/-- Each step through a line of a documentation comment is the same whatever follows a line break, a
slash or a mark. -/
theorem docStep_same {lineStart : Bool} (hx : x ∈ '\n' :: '/' :: marks)
    (hle : (docStep lineStart c (a ++ x :: b)).extra ≤ a.length) :
    docStep lineStart c (a ++ x :: b') = docStep lineStart c (a ++ x :: b) := by
  have hseals : ∀ c ∈ '\n' :: '/' :: marks, isBlank c = false ∧ continuesTag c = false := by decide
  have hhead : (a ++ x :: b').head? = (a ++ x :: b).head? := by
    cases a <;> rfl
  have hclose : at? "*/" (c :: (a ++ x :: b')) = at? "*/" (c :: (a ++ x :: b)) := by
    rw [at?, at?]
    change List.isPrefixOf ['*', '/'] _ = List.isPrefixOf ['*', '/'] _
    rw [List.isPrefixOf_cons_cons, List.isPrefixOf_cons_cons,
      isPrefixOf_bound (.inl ⟨rfl, by simp⟩)]
  have hbreak : lineBreakLength (c :: (a ++ x :: b')) = lineBreakLength (c :: (a ++ x :: b)) := by
    rw [lineBreakLength_cons, lineBreakLength_cons, hhead]
  unfold docStep at hle ⊢
  rw [hclose, hbreak, hhead]
  by_cases hends : at? "*/" (c :: (a ++ x :: b)) = true
  · rw [if_pos hends, if_pos hends]
  rw [if_neg hends] at hle
  rw [if_neg hends, if_neg hends]
  cases hlength : lineBreakLength (c :: (a ++ x :: b)) with
  | succ n => rfl
  | zero =>
    rw [hlength] at hle
    dsimp only at hle ⊢
    by_cases hblank : isBlank c = true
    · rw [if_pos hblank] at hle
      rw [if_pos hblank, if_pos hblank, run_bound (hseals x hx).1 hle]
    rw [if_neg hblank] at hle
    rw [if_neg hblank, if_neg hblank]
    by_cases hstar : (c == '*' && lineStart) = true
    · rw [if_pos hstar, if_pos hstar]
    rw [if_neg hstar] at hle
    rw [if_neg hstar, if_neg hstar]
    by_cases htag : (c == '@' && (a ++ x :: b).head?.any startsTag) = true
    · rw [if_pos htag] at hle
      rw [if_pos htag, if_pos htag, run_bound (hseals x hx).2 hle]
    · rw [if_neg htag] at hle
      rw [if_neg htag, if_neg htag]
      have hline : docLine (a ++ x :: b') = docLine (a ++ x :: b) ∨ _ := docLine_bound hx a
      rcases hline with hline | hlong
      · rw [hline]
      · exact absurd hle (Nat.not_le.mpr hlong)

/-- What ends a documentation comment is its closing tag. -/
theorem docStep_of_not_inDoc {lineStart : Bool} {rest : List Char}
    (h : (docStep lineStart c rest).next.inDoc = false) :
    at? "*/" (c :: rest) = true ∧ docStep lineStart c rest = ⟨.docClose, 1, .code⟩ := by
  have hclose : at? "*/" (c :: rest) = true := by
    by_contra hnone
    rw [inDoc_docStep (Bool.eq_false_iff.mpr hnone)] at h
    cases h
  exact ⟨hclose, by rw [docStep, if_pos hclose]⟩

/-- Each step through a documentation comment that ends in front of a bound is the same whatever
follows. -/
theorem docStep_bound {lineStart : Bool} (h : Bounds x y)
    (hends : Ends x y a (docStep lineStart c (a ++ x :: b))) :
    docStep lineStart c (a ++ y :: b') = docStep lineStart c (a ++ x :: b) := by
  by_cases heq : x = y
  · subst heq
    exact docStep_same h.mem_of_eq hends.le
  obtain ⟨hclose, hstep⟩ := docStep_of_not_inDoc (hends.next heq)
  have hle := hends.le
  rw [hstep] at hle
  have hmark : (c :: (a ++ x :: b)).take 2 = ['*', '/'] := take_of_at? hclose
  cases a with
  | nil => simp at hle
  | cons d a =>
    simp only [List.cons_append, List.take_succ_cons, List.take_zero, List.cons.injEq,
      and_true] at hmark
    obtain ⟨rfl, rfl⟩ := hmark
    rw [hstep]
    rfl

/-- Without a blank in front, the end of a documentation comment is read as any of its lines. -/
theorem docTailStep_of_not_isBlank {rest : List Char} (hc : isBlank c = false) :
    docTailStep c rest = docStep false c rest := by
  unfold docTailStep
  split
  · rw [if_neg (by simp [hc])]
  · rfl

/-- A blank in front of the closing tag does not end the comment yet. -/
theorem docTailStep_of_isBlank {rest : List Char} (hc : isBlank c = true) :
    (docTailStep c rest).next.inDoc = true := by
  unfold docTailStep
  split
  · rw [if_pos hc]
    rfl
  · refine inDoc_docStep (at?_cons_ne (d := '*') rfl ?_)
    rintro rfl
    cases hc

/-- Each step at the end of a documentation comment that ends in front of a bound is the same
whatever follows. -/
theorem docTailStep_bound (h : Bounds x y) (hends : Ends x y a (docTailStep c (a ++ x :: b))) :
    docTailStep c (a ++ y :: b') = docTailStep c (a ++ x :: b) := by
  cases hblank : isBlank c with
  | false =>
    rw [docTailStep_of_not_isBlank hblank] at hends
    rw [docTailStep_of_not_isBlank hblank, docTailStep_of_not_isBlank hblank]
    exact docStep_bound h hends
  | true =>
    obtain rfl : x = y := by
      by_contra hne
      have hnext := hends.next hne
      rw [docTailStep_of_isBlank hblank] at hnext
      cases hnext
    have hle := hends.le
    have hline : docLine (c :: a ++ x :: b') = docLine (c :: a ++ x :: b) ∨ _ :=
      docLine_bound h.mem_of_eq (c :: a)
    rcases hline with hline | hlong
    · rw [List.cons_append, List.cons_append] at hline
      unfold docTailStep at hle ⊢
      rw [hline]
      split
      · rw [if_pos hblank, if_pos hblank]
      · rename_i hnone
        rw [hnone] at hle
        exact docStep_same h.mem_of_eq hle
    · have hvisible := visibleLength_le (docLine (c :: a ++ x :: b))
      rw [docTailStep] at hle
      rw [List.cons_append] at hlong hvisible
      split at hle
      · rename_i hcut
        rw [if_pos hblank] at hle
        rw [hcut] at hlong hvisible
        simp only [List.length_cons] at hlong hvisible hle
        omega
      · rename_i hnone
        rw [hnone] at hlong hvisible
        simp only [List.length_cons, List.length_nil] at hlong hvisible
        omega

end Lexer

open Lexer

/-- A step that ends its lexeme in front of a bound is the same whatever stands behind. -/
theorem Mode.step_bound {mode : Mode} {x y c : Char} {a b b' : List Char} (h : Bounds x y)
    (hends : Ends x y a (mode.step c (a ++ x :: b))) :
    mode.step c (a ++ y :: b') = mode.step c (a ++ x :: b) := by
  cases mode with
  | html => exact htmlStep_bound h hends
  | code => exact codeStep_bound h hends
  | blockComment =>
    have hle := hends.le
    simp only [Mode.step] at hle ⊢
    have hline : blockLine (c :: a ++ y :: b') = blockLine (c :: a ++ x :: b) := by
      refine blockLine_bound ?_
      simp only [List.cons_append, List.length_cons]
      omega
    rw [List.cons_append, List.cons_append] at hline
    rw [hline]
  | docComment lineStart => exact docStep_bound h hends
  | docTail => exact docTailStep_bound h hends

end PhpStyle.Php
