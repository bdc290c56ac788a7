import PhpStyle.Proofs.Php.Settling

/-!
# Settling words with other whitespace between them

What a word is settled to depends on the lexemes around it that are no whitespace, and on whether a
backslash stands right beside it. So whitespace may be put in or taken out beside a lexeme, and all
words are settled as before, unless it parts a word from a backslash or brings the two together.
-/

namespace PhpStyle.Php

/-- The lexemes that are no whitespace. -/
def solid (ls : List Lexeme) : List Lexeme := ls.filter fun l => l.kind != .whitespace

/-- Of lexemes put together, those that are no whitespace are those of each. -/
@[simp] theorem solid_append (ls ks : List Lexeme) : solid (ls ++ ks) = solid ls ++ solid ks :=
  List.filter_append ls ks

/-- A first lexeme is left out if it is whitespace. -/
theorem solid_cons (l : Lexeme) (ls : List Lexeme) :
    solid (l :: ls) = if l.kind = .whitespace then solid ls else l :: solid ls := by
  rw [solid, List.filter_cons]
  by_cases hblank : l.kind = .whitespace
  · simp [hblank, solid]
  · simp [hblank, solid]

/-- Of whitespace nothing is left. -/
theorem solid_eq_nil {ls : List Lexeme} (h : ∀ l ∈ ls, l.kind = .whitespace) : solid ls = [] := by
  rw [solid, List.filter_eq_nil_iff]
  intro l hl
  simp [h l hl]

/-- Whether the first of these lexemes is a backslash. -/
def separates (ls : List Lexeme) : Bool := ls.head?.any (·.kind == .nsSeparator)

/-- Whitespace in front of lexemes puts no backslash there. -/
theorem separates_append {blanks ls : List Lexeme} (hblank : ∀ l ∈ blanks, l.kind = .whitespace)
    (h : separates ls = false) : separates (blanks ++ ls) = false := by
  cases blanks with
  | nil => exact h
  | cons l blanks => simp [separates, hblank l List.mem_cons_self]

namespace Words

variable {ls ks : List Lexeme}

/-- A first lexeme is passed over if it is trivia. -/
theorem code_cons (l : Lexeme) (ls : List Lexeme) :
    code (l :: ls) = if l.kind.isTrivia = true then code ls else l :: ls :=
  List.dropWhile_cons

/-- Whitespace is passed over anyway. -/
theorem code_solid (ls : List Lexeme) : code (solid ls) = solid (code ls) := by
  induction ls with
  | nil => rfl
  | cons l ls ih =>
    rw [solid_cons, code_cons]
    by_cases hblank : l.kind = .whitespace
    · have htrivia : l.kind.isTrivia = true := by
        rw [hblank]
        rfl
      rw [if_pos hblank, if_pos htrivia, ih]
    by_cases htrivia : l.kind.isTrivia = true
    · rw [if_neg hblank, if_pos htrivia, code_cons, if_pos htrivia, ih]
    · rw [if_neg hblank, if_neg htrivia, code_cons, if_neg htrivia, solid_cons, if_neg hblank]

/-- The first lexeme of code is the same without whitespace. -/
theorem head?_code_solid (ls : List Lexeme) : (code (solid ls)).head? = (code ls).head? := by
  rw [code_solid]
  cases hcode : code ls with
  | nil => rfl
  | cons l rest =>
    have htrivia : ¬ l.kind.isTrivia = true := by
      have hhead := List.head?_dropWhile_not (fun l : Lexeme => l.kind.isTrivia) ls
      rw [show ls.dropWhile (fun l : Lexeme => l.kind.isTrivia) = l :: rest from hcode] at hhead
      simpa using hhead
    have hblank : l.kind ≠ .whitespace := by
      intro hblank
      rw [hblank] at htrivia
      exact htrivia rfl
    rw [solid_cons, if_neg hblank]
    rfl

/-- The first kind of code is the same whatever whitespace there is. -/
theorem firstKind_congr (h : solid ls = solid ks) : firstKind ls = firstKind ks := by
  rw [firstKind, firstKind, ← head?_code_solid, ← head?_code_solid ks, h]

/-- What follows past an `&` is the same whatever whitespace there is. -/
theorem kindPastReference_congr (h : solid ls = solid ks) :
    kindPastReference ls = kindPastReference ks := by
  have hhead : (code ls).head? = (code ks).head? := by
    rw [← head?_code_solid, ← head?_code_solid ks, h]
  have htail : solid (code ls) = solid (code ks) := by
    rw [← code_solid, ← code_solid, h]
  unfold kindPastReference
  cases hls : code ls with
  | nil =>
    rw [hls, List.head?_nil, eq_comm, List.head?_eq_none_iff] at hhead
    rw [hhead]
  | cons l rest =>
    rw [hls, List.head?_cons, eq_comm] at hhead
    obtain ⟨rest', hks⟩ := List.head?_eq_some_iff.mp hhead
    rw [hls, hks, solid_cons, solid_cons] at htail
    rw [hks]
    dsimp only
    split
    · rename_i href
      rw [href, if_neg (by decide), if_neg (by decide)] at htail
      exact firstKind_congr (List.cons_eq_cons.mp htail).2
    · rfl

variable {before before' after after' : List Lexeme}

/-- A word is settled by what is no whitespace around it, and by a backslash beside it. -/
theorem settledKind_congr {kind : Kind} (hbefore : solid before = solid before')
    (hafter : solid after = solid after')
    (hseparates : kind ≠ .kwNamespace → separates before = separates before' ∧
      separates after = separates after') :
    settledKind kind before after = settledKind kind before' after' := by
  have hqualified : isQualified kind before after = isQualified kind before' after' := by
    by_cases hkind : kind = .kwNamespace
    · simp [isQualified, hkind]
    · obtain ⟨hb, ha⟩ := hseparates hkind
      unfold separates at hb ha
      rw [isQualified, isQualified, hb, ha]
  have hkeyword : keywordKind kind before after = keywordKind kind before' after' := by
    have hnext : (code after).head? = (code after').head? := by
      rw [← head?_code_solid, ← head?_code_solid after', hafter]
    unfold keywordKind
    rw [firstKind_congr hafter, firstKind_congr hbefore,
      kindPastReference_congr hafter, hnext]
  rw [settledKind, settledKind, hqualified, hkeyword, isMemberName, isMemberName, isDeclaredName,
    isDeclaredName, firstKind_congr hbefore, kindPastReference_congr hbefore]

/-- A word is settled to the same whatever whitespace there is, if backslashes stand beside it as
before. -/
theorem settle_congr {l : Lexeme} (hbefore : solid before = solid before')
    (hafter : solid after = solid after')
    (hseparates : isWord l = true → l.kind ≠ .kwNamespace →
      separates before = separates before' ∧ separates after = separates after') :
    settle before after l = settle before' after' l := by
  unfold settle
  split
  · rename_i hword
    rw [settledKind_congr hbefore hafter (hseparates hword)]
  · rfl

/-- The first lexeme is settled before the others, which see it settled. -/
theorem settleFrom_cons (before : List Lexeme) (l : Lexeme) (after : List Lexeme) :
    settleFrom before (l :: after) =
      settle before after l :: settleFrom (settle before after l :: before) after := by
  rfl

/-- Words are settled alike behind lexemes that differ in whitespace only. -/
theorem settleFrom_congr (hbefore : solid before = solid before')
    (hfirst : ∀ n ∈ after.head?, isWord n = true → n.kind ≠ .kwNamespace →
      separates before = separates before') :
      settleFrom before after = settleFrom before' after := by
  induction after generalizing before before' with
  | nil => rfl
  | cons l after ih =>
    have hl : settle before after l = settle before' after l :=
      settle_congr hbefore rfl fun hword hkind => ⟨hfirst l rfl hword hkind, rfl⟩
    rw [settleFrom_cons, settleFrom_cons, hl]
    refine congrArg _ (ih ?_ fun _ _ _ _ => rfl)
    rw [solid_cons, solid_cons, hbefore]

/-- Settling leaves whitespace as it is. -/
theorem settle_of_whitespace {l : Lexeme} (hl : l.kind = .whitespace) :
    settle before after l = l := by
  rw [settle, if_neg]
  simp [isWord, hl, Kind.isTrivia]

/-- Whitespace in front of lexemes is passed over when they are settled. -/
theorem settleFrom_blanks {blanks : List Lexeme} (hblank : ∀ l ∈ blanks, l.kind = .whitespace) :
    settleFrom before (blanks ++ after) = blanks ++
      settleFrom (blanks.reverse ++ before) after := by
  induction blanks generalizing before with
  | nil => rfl
  | cons l blanks ih =>
    obtain ⟨hl, hblank⟩ := List.forall_mem_cons.mp hblank
    rw [List.cons_append, settleFrom_cons, settle_of_whitespace hl, ih hblank, List.reverse_cons,
      List.append_assoc]
    rfl

/-- Settling makes no backslash. -/
theorem kind_settle_ne {l : Lexeme} (hl : l.kind ≠ .nsSeparator) :
    (settle before after l).kind ≠ .nsSeparator := by
  unfold settle
  split
  · rcases settledKind_cases l.kind before after with h | h
    · exact fun heq => hl (h.symm.trans heq)
    · intro heq
      dsimp only at heq
      rw [heq] at h
      exact absurd h (by decide)
  · exact hl

/-- Whitespace behind a lexeme may come or go, unless this parts a word from a backslash. -/
theorem solid_settleFrom_blanks {pre blanks post : List Lexeme} {q : Lexeme}
    (hblank : ∀ l ∈ blanks, l.kind = .whitespace) (hlast : isWord q = true → separates post = false)
    (hfirst : ∀ n ∈ post.head?, isWord n = true → n.kind ≠ .kwNamespace → q.kind ≠ .nsSeparator) :
    solid (settleFrom before (pre ++ q :: (blanks ++ post))) =
      solid (settleFrom before (pre ++ q :: post)) := by
  have hsolid : solid (blanks ++ post) = solid post := by
    rw [solid_append, solid_eq_nil hblank, List.nil_append]
  induction pre generalizing before with
  | nil =>
    have hq : settle before (blanks ++ post) q = settle before post q := by
      refine settle_congr rfl hsolid fun hword _ => ⟨rfl, ?_⟩
      rw [hlast hword, separates_append hblank (hlast hword)]
    have hpost : settleFrom (blanks.reverse ++ settle before post q :: before) post =
        settleFrom (settle before post q :: before) post := by
      have hreverse : ∀ l ∈ blanks.reverse, l.kind = .whitespace := by simpa using hblank
      refine settleFrom_congr ?_ fun n hn hword hkind => ?_
      · rw [solid_append, solid_eq_nil hreverse, List.nil_append]
      · have hsettled : separates (settle before post q :: before) = false := by
          simpa [separates] using kind_settle_ne (hfirst n hn hword hkind)
        rw [hsettled, separates_append hreverse hsettled]
    rw [List.nil_append, List.nil_append, settleFrom_cons, settleFrom_cons, hq,
      settleFrom_blanks hblank, hpost, solid_cons, solid_cons, solid_append, solid_eq_nil hblank,
      List.nil_append]
  | cons l pre ih =>
    have hl : settle before (pre ++ q :: (blanks ++ post)) l = settle before
        (pre ++ q :: post) l := by
      refine settle_congr rfl ?_ fun _ _ => ⟨rfl, ?_⟩
      · rw [solid_append, solid_append, solid_cons, solid_cons, hsolid]
      · cases pre <;> rfl
    rw [List.cons_append, List.cons_append, settleFrom_cons, settleFrom_cons, hl, solid_cons,
      solid_cons, ih]

end Words

/-- Whitespace behind a lexeme may go, and all words are settled as before, unless that brings a
word and a backslash together. -/
theorem solid_settleWords_blanks {pre blanks post : List Lexeme} {q : Lexeme}
    (hblank : ∀ l ∈ blanks, l.kind = .whitespace) (hlast : isWord q = true → separates post = false)
    (hfirst : ∀ n ∈ post.head?, isWord n = true → n.kind ≠ .kwNamespace → q.kind ≠ .nsSeparator) :
    solid (settleWords (pre ++ q :: (blanks ++ post))) = solid (settleWords (pre ++ q :: post)) :=
  Words.solid_settleFrom_blanks hblank hlast hfirst

end PhpStyle.Php
