import PhpStyle.Proofs.Php.Lookahead

/-!
# Reading a changed text again

Lexemes are read one after the other, each by the step of the mode that the one before it leaves
behind. If a text changes behind some of them at a bound, then all of them are read as before. So a
break between two lines can be taken out where a lexeme ends by itself or another starts that is a
token wherever it stands, and a line can be broken in front of an `n`: the rest of the text is read
as it was.
-/

namespace PhpStyle.Php

open Lexer

/-- The characters of lexemes put one after the other. -/
def letters (ls : List Lexeme) : List Char := ls.flatMap (·.text.toList)

/-- No lexemes have no characters. -/
@[simp] theorem letters_nil : letters [] = [] := rfl

/-- The characters of the first lexeme come first. -/
@[simp] theorem letters_cons (l : Lexeme) (ls : List Lexeme) :
    letters (l :: ls) = l.text.toList ++ letters ls := List.flatMap_cons

/-- The characters of lexemes put together are those of each, in order. -/
@[simp] theorem letters_append (ls ks : List Lexeme) :
    letters (ls ++ ks) = letters ls ++ letters ks :=
  List.flatMap_append

/-- That a lexeme is the next one in a mode, in front of a text, and which mode goes on behind
it. -/
def Reads (mode : Mode) (l : Lexeme) (rest : List Char) (next : Mode) : Prop :=
  ∃ c taken, l.text.toList = c :: taken ∧
    mode.step c (taken ++ rest) = ⟨l.kind, taken.length, next⟩

/-- That lexemes are the next ones in a mode, one after the other, in front of a text. -/
inductive ReadsAll : Mode → List Lexeme → List Char → Mode → Prop
  | nil (mode : Mode) (rest : List Char) : ReadsAll mode [] rest mode
  | cons {mode between next : Mode} {l : Lexeme} {ls : List Lexeme} {rest : List Char}
      (hl : Reads mode l (letters ls ++ rest) between) (hls : ReadsAll between ls rest next) :
      ReadsAll mode (l :: ls) rest next

variable {mode between next : Mode} {l : Lexeme} {ls : List Lexeme} {rest : List Char}

/-- A lexeme that is read in front of a text is the first one of both together. -/
theorem Reads.lexFrom_append (h : Reads mode l rest next) :
    lexFrom mode (l.text.toList ++ rest) = l :: lexFrom next rest := by
  obtain ⟨c, taken, htext, hstep⟩ := h
  have hl : l = ⟨l.kind, String.ofList (c :: taken)⟩ := by
    rw [← htext, String.ofList_toList]
  rw [htext, List.cons_append, lexFrom, hl]
  simp only [hstep, List.take_left, List.drop_left]

/-- Lexemes that are read in front of a text are the first ones of all together. -/
theorem ReadsAll.lexFrom_append (h : ReadsAll mode ls rest next) :
    lexFrom mode (letters ls ++ rest) = ls ++ lexFrom next rest := by
  induction h with
  | nil => rfl
  | cons hl _ ih => rw [letters_cons, List.append_assoc, hl.lexFrom_append, ih, List.cons_append]

/-- Lexemes are read one after the other if each are in the mode that those before leave. -/
theorem ReadsAll.append {ks : List Lexeme} (hls : ReadsAll mode ls (letters ks ++ rest) between)
    (hks : ReadsAll between ks rest next) : ReadsAll mode (ls ++ ks) rest next := by
  generalize hbehind : letters ks ++ rest = behind at hls
  induction hls with
  | nil => exact hks
  | cons hl _ ih =>
    subst hbehind
    rw [List.cons_append]
    refine .cons ?_ (ih hks rfl)
    rwa [letters_append, List.append_assoc]

/-- Lexemes that are read together are read one after the other. -/
theorem ReadsAll.of_append {ks : List Lexeme} (h : ReadsAll mode (ls ++ ks) rest next) :
    ∃ between, ReadsAll mode ls (letters ks ++ rest) between ∧ ReadsAll between ks rest next := by
  induction ls generalizing mode with
  | nil => exact ⟨mode, .nil mode _, h⟩
  | cons l ls ih =>
    rw [List.cons_append] at h
    cases h with
    | cons hl hls =>
      obtain ⟨between, hls, hks⟩ := ih hls
      refine ⟨between, .cons ?_ hls, hks⟩
      rwa [letters_append, List.append_assoc] at hl

/-- A lexeme that is read is read alone. -/
theorem ReadsAll.singleton (h : Reads mode l rest next) : ReadsAll mode [l] rest next :=
  .cons h (.nil next rest)

/-- The first lexeme of a text is read in front of the others. -/
theorem exists_reads {text : List Char} (h : lexFrom mode text = l :: ls) :
    ∃ next, text = l.text.toList ++ letters ls ∧ Reads mode l (letters ls) next ∧
      lexFrom next (letters ls) = ls := by
  have hcut := lexFrom_cut mode text
  have hspells : letters (lexFrom mode text) = text := hcut.spells
  rw [h] at hcut hspells
  generalize hwhole : l :: ls = whole at hcut
  cases hcut with
  | done => cases hwhole
  | @step _ c taken rest lexemes hextra hrest =>
    obtain ⟨rfl, rfl⟩ := List.cons_eq_cons.mp hwhole
    obtain rfl : letters ls = rest := hrest.spells
    refine ⟨_, hspells.symm, ⟨c, taken, String.toList_ofList, by rw [← hextra]⟩, ?_⟩
    rw [lexFrom] at h
    simp only [hextra, List.drop_left] at h
    exact (List.cons_eq_cons.mp h).2

/-- The lexemes of a text up to one of them are read in front of the rest. -/
theorem exists_readsAll {text : List Char} {ks : List Lexeme} (h : lexFrom mode text = ls ++ ks) :
    ∃ next, text = letters ls ++ letters ks ∧ ReadsAll mode ls (letters ks) next ∧
      lexFrom next (letters ks) = ks := by
  induction ls generalizing mode text with
  | nil =>
    have htext : letters (lexFrom mode text) = text := (lexFrom_cut mode text).spells
    rw [h, List.nil_append] at htext
    exact ⟨mode, htext.symm, .nil mode _, htext ▸ h⟩
  | cons l ls ih =>
    rw [List.cons_append] at h
    obtain ⟨between, htext, hl, hrest⟩ := exists_reads h
    obtain ⟨next, _, hls, hks⟩ := ih hrest
    rw [letters_append] at htext hl
    exact ⟨next, by rw [htext, letters_cons, List.append_assoc], .cons hl hls, hks⟩

/-- A documentation comment that is left ends in a slash. -/
theorem Reads.exists_slash (h : Reads mode l rest next) (hmode : mode.inDoc = true)
    (hnext : next.inDoc = false) : l.text.toList = ['*', '/'] := by
  obtain ⟨c, taken, htext, hstep⟩ := h
  have hdoc {lineStart : Bool}
      (hsame : mode.step c (taken ++ rest) = docStep lineStart c (taken ++ rest)) :
      l.text.toList = ['*', '/'] := by
    rw [hsame] at hstep
    obtain ⟨hclose, hstep'⟩ := docStep_of_not_inDoc (by rw [hstep]; exact hnext)
    have hlength : 1 = taken.length := congrArg Step.extra (hstep'.symm.trans hstep)
    have hmark : (c :: (taken ++ rest)).take 2 = ['*', '/'] := take_of_at? hclose
    rw [htext, ← hmark, List.take_succ_cons, List.take_left' hlength.symm]
  cases mode with
  | html => cases hmode
  | code => cases hmode
  | blockComment => cases hmode
  | docComment lineStart => exact hdoc rfl
  | docTail =>
    cases hblank : isBlank c with
    | false => exact hdoc (docTailStep_of_not_isBlank hblank)
    | true =>
      have hinside : (docTailStep c (taken ++ rest)).next.inDoc = true :=
        docTailStep_of_isBlank hblank
      rw [Mode.step] at hstep
      rw [hstep, hnext] at hinside
      cases hinside

/-- A documentation comment is left behind a slash only. -/
theorem ReadsAll.exists_slash (h : ReadsAll mode ls rest next) (hmode : mode.inDoc = true)
    (hnext : next.inDoc = false) : ∃ a b, letters ls = a ++ '/' :: b := by
  induction h with
  | nil =>
    rw [hmode] at hnext
    cases hnext
  | @cons mode between next l ls rest hl hls ih =>
    cases hbetween : between.inDoc with
    | true =>
      obtain ⟨a, b, hsplit⟩ := ih hbetween hnext
      exact ⟨l.text.toList ++ a, b, by rw [letters_cons, hsplit, List.append_assoc]⟩
    | false => exact ⟨['*'], letters ls, by rw [letters_cons, hl.exists_slash hmode hbetween]; rfl⟩

/-- A carriage return by itself is whitespace. -/
theorem Reads.of_return (h : Reads mode l rest .code) (htext : l.text.toList = ['\r']) :
    l.kind = .whitespace := by
  obtain ⟨c, taken, hcons, hstep⟩ := h
  obtain ⟨rfl, rfl⟩ := List.cons_eq_cons.mp (htext.symm.trans hcons)
  rw [List.nil_append] at hstep
  cases mode with
  | code =>
    rw [Mode.step, codeStep_of_isBlank (.inl rfl)] at hstep
    exact (congrArg Step.kind hstep).symm
  | html => cases congrArg Step.next hstep
  | blockComment =>
    have hnext := congrArg Step.next hstep
    have hextra := congrArg Step.extra hstep
    simp only [Mode.step, List.length_nil] at hnext hextra
    cases rest with
    | nil => cases hnext
    | cons d rest =>
      have hpos := blockLine_pos d rest
      rw [blockLine_cons (by decide) (by simp)] at hextra
      dsimp only at hextra
      omega
  | docComment lineStart =>
    have hinside : (docStep lineStart '\r' rest).next.inDoc = true := inDoc_docStep rfl
    rw [Mode.step] at hstep
    rw [hstep] at hinside
    cases hinside
  | docTail =>
    have hinside : (docTailStep '\r' rest).next.inDoc = true := docTailStep_of_isBlank rfl
    rw [Mode.step] at hstep
    rw [hstep] at hinside
    cases hinside

/-- That a line break, given by its first character, does not become part of a lexeme when it is put
behind it and some blanks: it would of whitespace, and of an open tag that has no blank yet. -/
structure Withstands (y : Char) (blanks : List Char) (l : Lexeme) : Prop where
  whitespace : blanks = [] → l.kind ≠ .whitespace
  openTag : blanks = [] ∨ blanks = ['\r'] ∧ y = '\n' → l.kind = .openTag → l.text.length ≠ 5

variable {x y : Char} {u b b' : List Char}

/-- A lexeme that is read up to a bound is read the same up to another, if it leaves no
documentation comment open and a line break put there does not become part of it. -/
theorem Reads.bound (h : Bounds x y) (hl : Reads mode l (u ++ x :: b) next)
    (hnext : x ≠ y → next.inDoc = false ∧ (u = [] ∨ u = ['\r'] → next = .code))
    (hsplit : x ∈ ['n', 'N'] → Withstands y u l) : Reads mode l (u ++ y :: b') next := by
  obtain ⟨c, taken, htext, hstep⟩ := hl
  rw [← List.append_assoc] at hstep
  have hlength : l.text.length = taken.length + 1 := by
    rw [← String.length_toList, htext, List.length_cons]
  have hnone (heq : taken.length = (taken ++ u).length) : u = [] := by
    rw [List.length_append] at heq
    exact List.length_eq_zero_iff.mp (by omega)
  have hends : Ends x y (taken ++ u) (mode.step c (taken ++ u ++ x :: b)) := by
    rw [hstep]
    exact {
      le := by simp
      next := fun hne => (hnext hne).1
      last := fun hne heq => (hnext hne).2 (.inl (hnone heq))
      whitespace := fun hx heq => (hsplit hx).whitespace (hnone heq)
      openTag := fun hx heq hkind hextra =>
        (hsplit hx).openTag (.inl (hnone heq)) hkind (by dsimp only at hextra; omega)
      carriageReturn := fun hx hy heq hlast => by
        have hone : u.length = 1 := by
          rw [List.length_append] at heq
          dsimp only at heq
          omega
        obtain ⟨d, rfl⟩ := List.length_eq_one_iff.mp hone
        obtain rfl : d = '\r' := by simpa using hlast
        refine ⟨(hnext (h.ne_of_split hx)).2 (.inr rfl), fun hkind hextra => ?_⟩
        exact (hsplit hx).openTag (.inr ⟨rfl, hy⟩) hkind (by dsimp only at hextra; omega) }
  refine ⟨c, taken, htext, ?_⟩
  rw [← List.append_assoc, Mode.step_bound h hends, hstep]

/-- The first lexeme that is read is not empty. -/
theorem ReadsAll.ne_nil {k : Lexeme} (h : ReadsAll mode (k :: ls) rest next) :
    k.text.toList ≠ [] := by
  cases h with
  | cons hk _ =>
    obtain ⟨c, taken, htext, _⟩ := hk
    rw [htext]
    exact List.cons_ne_nil c taken

/-- Lexemes of which there is nothing but a carriage return are one lexeme of whitespace. -/
theorem ReadsAll.of_return (h : ReadsAll mode ls rest .code) (hls : ls ≠ [])
    (hreturn : letters ls ++ u = ['\r']) :
    mode = .code ∧ u = [] ∧ ∃ k, ls.getLast? = some k ∧ k.kind = .whitespace := by
  cases h with
  | nil => exact absurd rfl hls
  | @cons _ between _ k ks _ hk hks =>
    have hk' := hk
    obtain ⟨c, taken, htext, hstep⟩ := hk
    rw [letters_cons, htext, List.cons_append, List.cons_append] at hreturn
    obtain ⟨rfl, hnil⟩ := List.cons_eq_cons.mp hreturn
    simp only [List.append_eq_nil_iff] at hnil
    obtain ⟨⟨rfl, hempty⟩, rfl⟩ := hnil
    cases hks with
    | cons hnext hrest =>
      rw [letters_cons, List.append_eq_nil_iff] at hempty
      exact absurd hempty.1 (ReadsAll.cons hnext hrest).ne_nil
    | nil =>
      have hkind : k.kind = .whitespace := hk'.of_return htext
      exact ⟨code_of_whitespace ((congrArg Step.kind hstep).trans hkind), rfl, k, rfl, hkind⟩

/-- If a text changes at a bound, then lexemes in front of it are read as before. -/
theorem ReadsAll.bound (h : Bounds x y) (hls : ReadsAll mode ls (u ++ x :: b) next)
    (hnext : x ≠ y → next = .code) (hsplit : x ∈ ['n', 'N'] → ∀ l ∈ ls.getLast?, Withstands y u l) :
    ReadsAll mode ls (u ++ y :: b') next := by
  generalize hbehind : u ++ x :: b = behind at hls
  induction hls with
  | nil mode => exact .nil mode _
  | @cons mode between next l ls _ hl hls ih =>
    subst hbehind
    refine .cons ?_ (ih hnext (fun hx k hk => ?last) rfl)
    case last =>
      refine hsplit hx k ?_
      rw [List.getLast?_cons, Option.mem_def.mp hk]
      rfl
    by_cases hdoc : x ≠ y ∧ between.inDoc = true
    · -- the lexeme is left within a comment, so the slash that closes the comment is a bound before
      -- the change
      obtain ⟨a, w, hslash⟩ := hls.exists_slash hdoc.2 (by rw [hnext hdoc.1]; rfl)
      rw [hslash, List.append_assoc, List.cons_append] at hl ⊢
      exact hl.bound (.same (by simp)) (absurd rfl) (fun hx => absurd hx (by decide))
    rw [← List.append_assoc] at hl ⊢
    cases hls with
    | nil =>
      refine hl.bound h (fun hne => ⟨?_, fun _ => hnext hne⟩) fun hx => hsplit hx l rfl
      rw [hnext hne]
      rfl
    | @cons _ _ _ k ks _ hk hks =>
      have hall := ReadsAll.cons hk hks
      have hnone : letters (k :: ks) ++ u ≠ [] := by
        rw [letters_cons, List.append_assoc]
        exact fun hnil => hall.ne_nil (List.append_eq_nil_iff.mp hnil).1
      refine hl.bound h
        (fun hne => ⟨by_contra fun hinside => hdoc ⟨hne, by simpa using hinside⟩, ?_⟩)
        fun hx => ⟨fun hnil => absurd hnil hnone, ?_⟩
      · rintro (hnil | hreturn)
        · exact absurd hnil hnone
        · rw [hnext hne] at hall
          exact (hall.of_return (List.cons_ne_nil _ _) hreturn).1
      · rintro (hnil | ⟨hreturn, _⟩)
        · exact absurd hnil hnone
        · rw [hnext (h.ne_of_split hx)] at hall
          obtain ⟨_, hu, last, hlast, hkind⟩ := hall.of_return (List.cons_ne_nil _ _) hreturn
          refine absurd hkind ((hsplit hx last ?_).whitespace hu)
          rw [List.getLast?_cons, hlast]
          rfl

end PhpStyle.Php
