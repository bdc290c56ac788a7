import PhpStyle.Proofs.Php.Exact
import PhpStyle.Proofs.Php.Endings
import PhpStyle.Proofs.Php.Patching
import PhpStyle.Proofs.Php.Resettling

/-!
# Lines broken behind closing braces

A line can be broken behind any closing brace: a line break and an indentation take the place of the
whitespace there. All other lexemes are read as before and words are settled as before, so a row of
lexemes on one line stood on one line already, and begins with no brace behind which the line has
been broken.
-/

namespace PhpStyle.Php

open Lexer

/-- A closing brace, as it is read. -/
structure IsClosingBrace (l : Lexeme) : Prop where
  kind : l.kind = .closeCurly
  mark : ∃ z ∈ marks, l.text.toList = [z]

/-- Whitespace with which a line begins: a line break, and an indentation if there is one. -/
inductive OpensLine : List Lexeme → Prop
  | bare {w : Lexeme} (hw : IsBreak w) : OpensLine [w]
  | indented {w indent : Lexeme} (hw : IsBreak w) (hkind : indent.kind = .whitespace)
      (hne : indent.text.toList ≠ []) (hblank : ∀ c ∈ indent.text.toList,
        isBlank c = true ∧ c ≠ '\n') : OpensLine [w, indent]

/-- The line is broken behind the braces at some positions, and everything else is left alone. -/
inductive BreaksBehind (Broken : Nat → Prop) : Patch
  | keep {n : Nat} (l : Lexeme) (ls : List Lexeme) (hn : ¬ Broken n) :
      BreaksBehind Broken n [l] [l] ls
  | break {n : Nat} {brace : Lexeme} {gone blanks ls : List Lexeme} (hn : Broken n)
      (hbrace : IsClosingBrace brace)
      (hgone : ∀ l ∈ gone, l.kind = .whitespace) (hblanks : OpensLine blanks)
      (hls : ∀ l ∈ ls.head?, l.kind ≠ .whitespace) :
      BreaksBehind Broken n (brace :: gone) (brace :: blanks) ls

/-- A lexeme in front of broken lines stays where it is. -/
theorem BreaksBehind.cons {Broken : Nat → Prop} {n : Nat} {ls ks : List Lexeme} (l : Lexeme)
    (hn : ¬ Broken n) (h : Patched (BreaksBehind Broken) (n + 1) ls ks) :
    Patched (BreaksBehind Broken) n (l :: ls) (l :: ks) :=
  Patched.cons (BreaksBehind.keep l ls hn) h

/-- In front of broken lines, another line is broken behind a brace; some whitespace there may
go. -/
theorem BreaksBehind.break_cons {Broken : Nat → Prop} {n : Nat} {brace : Lexeme}
    (gone : List Lexeme) {blanks ls ks : List Lexeme} (hn : Broken n)
    (hbrace : IsClosingBrace brace) (hgone : ∀ l ∈ gone, l.kind = .whitespace)
    (hblanks : OpensLine blanks) (hls : ∀ l ∈ ls.head?, l.kind ≠ .whitespace)
    (h : Patched (BreaksBehind Broken) (n + (gone.length + 1)) ls ks) :
    Patched (BreaksBehind Broken) n (brace :: (gone ++ ls)) (brace :: (blanks ++ ks)) :=
  Patched.cons (BreaksBehind.break hn hbrace hgone hblanks hls) h

variable {Broken : Nat → Prop} {mode next : Mode} {l : Lexeme} {ls ks gone blanks : List Lexeme}
  {rest : List Char} {n : Nat}

/-- Settling leaves a closing brace as it is. -/
theorem IsClosingBrace.settle_eq (h : IsClosingBrace l) (before after : List Lexeme) :
    Words.settle before after l = l := by
  obtain ⟨z, hz, htext⟩ := h.mark
  have hstarts : ∀ c ∈ marks, (c.isAlpha || c == '_' || 128 ≤ c.toNat) = false := by decide
  rw [Words.settle, if_neg]
  simp [isWord, htext, hstarts z hz]

/-- What opens a line is whitespace. -/
theorem OpensLine.whitespace (h : OpensLine blanks) : ∀ l ∈ blanks, l.kind = .whitespace := by
  cases h with
  | bare hw => simpa using hw.1
  | indented hw hkind => simpa using ⟨hw.1, hkind⟩

/-- What opens a line has a line break. -/
theorem OpensLine.exists_break (h : OpensLine blanks) : ∃ l ∈ blanks, '\n' ∈ l.text.toList := by
  have hbreak {w : Lexeme} (hw : IsBreak w) : '\n' ∈ w.text.toList := by
    rcases hw.2 with htext | htext <;> simp [htext]
  cases h with
  | bare hw => exact ⟨_, List.mem_cons_self, hbreak hw⟩
  | indented hw => exact ⟨_, List.mem_cons_self, hbreak hw⟩

/-! ### Reading -/

/-- In front of what is no whitespace stand no blanks. -/
theorem whitespaceLength_of_lexFrom {text : List Char} (hlex : lexFrom .code text = ls)
    (hls : ∀ l ∈ ls.head?, l.kind ≠ .whitespace) : whitespaceLength text = 0 := by
  cases text with
  | nil => rfl
  | cons c rest =>
    have hnot : ¬ (isBlank c = true ∨ c = '\n') := by
      intro hblank
      rw [lexFrom, Mode.step, codeStep_of_isBlank hblank] at hlex
      exact hls _ (by rw [← hlex]; rfl) rfl
    rw [not_or] at hnot
    rw [whitespaceLength, if_neg hnot.2, if_neg hnot.1]

/-- Whether whitespace starts is seen from the first character. -/
theorem whitespaceLength_congr {a b : List Char} (h : a.head? = b.head?)
    (ha : whitespaceLength a = 0) : whitespaceLength b = 0 := by
  cases b with
  | nil => rfl
  | cons c b =>
    obtain ⟨a, rfl⟩ := List.head?_eq_some_iff.mp h
    rw [whitespaceLength] at ha ⊢
    split at ha
    · omega
    split at ha
    · omega
    · rename_i hbreak hblank
      rw [if_neg hbreak, if_neg hblank]

/-- Whitespace stands in code. -/
theorem ReadsAll.of_whitespace (h : ReadsAll mode gone rest next)
    (hgone : ∀ l ∈ gone, l.kind = .whitespace) (hmode : mode = .code) : next = .code := by
  induction h with
  | nil => exact hmode
  | cons hl _ ih =>
    obtain ⟨hl', hgone⟩ := List.forall_mem_cons.mp hgone
    exact ih hgone (hl.whitespace hl').2.1

/-- What opens a line is read as whitespace in front of what is none. -/
theorem OpensLine.readsAll (h : OpensLine blanks) (hrest : whitespaceLength rest = 0) :
    ReadsAll .code blanks rest .code := by
  cases h with
  | bare hw => exact .singleton (hw.reads rest)
  | indented hw hkind hne hblank =>
    refine .cons (hw.reads _) (.singleton (reads_of_whitespaceLength hkind hne ?_))
    rw [whitespaceLength_append hblank, hrest, Nat.add_zero]

/-- Lines broken behind braces are read as they were put together. -/
theorem BreaksBehind.rereads : (BreaksBehind Broken).Rereads where
  agree hpatch _ _ h := by
    cases hpatch with
    | keep l => exact h.append _
    | «break» _ hbrace =>
      obtain ⟨z, hz, htext⟩ := hbrace.mark
      rw [letters_cons, letters_cons, htext]
      exact .bound [] _ _ (List.mem_cons_of_mem _ (List.mem_cons_of_mem _ hz))
  reads {_ _ _ ls} hpatch _ next rest hold hbehind hrest := by
    cases hpatch with
    | keep => exact hold.of_agree hrest
    | @«break» _ brace gone blanks _ hn hbrace hgone hblanks hls =>
      cases hold with
      | @cons _ between _ _ _ _ hread hgoneReads =>
        have hmark (rest : List Char) := (hread.of_mark (by rw [hbrace.kind]; rfl)).2 rest
        obtain rfl : between = .code := by
          obtain ⟨c, taken, htext, hstep⟩ := hread
          obtain ⟨c', taken', htext', hstep'⟩ := hmark (letters gone ++ letters ls)
          obtain ⟨rfl, rfl⟩ := List.cons_eq_cons.mp (htext.symm.trans htext')
          exact congrArg Step.next (hstep.symm.trans hstep')
        obtain rfl := hgoneReads.of_whitespace hgone rfl
        have hzero := whitespaceLength_congr hrest.head? (whitespaceLength_of_lexFrom hbehind hls)
        exact .cons (hmark _) (hblanks.readsAll hzero)

/-! ### Settling -/

/-- Breaking lines changes whitespace only. -/
theorem solid_of_breaksBehind (h : Patched (BreaksBehind Broken) n ls ks) :
    solid ls = solid ks := by
  induction h with
  | nil => rfl
  | cons hpatch _ ih =>
    rw [solid_append, solid_append, ih]
    cases hpatch with
    | keep => rfl
    | «break» _ _ hgone hblanks =>
      rw [solid_cons, solid_cons, solid_eq_nil hgone, solid_eq_nil hblanks.whitespace]

/-- Breaking lines behind braces leaves the first lexeme. -/
theorem head?_of_breaksBehind (h : Patched (BreaksBehind Broken) n ls ks) :
    ls.head? = ks.head? := by
  cases h with
  | nil => rfl
  | cons hpatch =>
    cases hpatch with
    | keep => rfl
    | «break» => rfl

/-- Settling neither makes nor removes whitespace. -/
theorem kind_settle_eq_whitespace_iff (before after : List Lexeme) (l : Lexeme) :
    (Words.settle before after l).kind = .whitespace ↔ l.kind = .whitespace := by
  refine ⟨fun h => kind_of_settle h (by decide), fun h => ?_⟩
  rw [Words.settle_of_whitespace h, h]

/-- Words are settled as before where lines are broken behind braces. -/
theorem settleFrom_of_breaksBehind (h : Patched (BreaksBehind Broken) n ls ks)
    {before before' : List Lexeme} (hsolid : solid before = solid before')
    (hseparates : separates before = separates before') :
    Patched (BreaksBehind Broken) n (Words.settleFrom before ls) (Words.settleFrom before' ks) := by
  induction h generalizing before before' with
  | nil n => exact .nil n
  | @cons n old new ls ks hpatch hrest ih =>
    have hbehind : separates ls = separates ks := by
      rw [separates, separates, head?_of_breaksBehind hrest]
    cases hpatch with
    | keep l _ hn =>
      have hl : Words.settle before ls l = Words.settle before' ks l :=
        Words.settle_congr hsolid (solid_of_breaksBehind hrest) fun _ _ => ⟨hseparates, hbehind⟩
      rw [List.singleton_append, List.singleton_append, Words.settleFrom_cons,
        Words.settleFrom_cons, hl]
      refine BreaksBehind.cons _ hn (ih ?_ rfl)
      rw [solid_cons, solid_cons, hsolid]
    | @«break» _ brace gone blanks _ hn hbrace hgone hblanks hls =>
      rw [List.cons_append, List.cons_append, Words.settleFrom_cons, Words.settleFrom_cons,
        hbrace.settle_eq, hbrace.settle_eq, Words.settleFrom_blanks hgone,
        Words.settleFrom_blanks hblanks.whitespace, ← List.cons_append, ← List.cons_append]
      have hback {blanks before : List Lexeme} (hblank : ∀ l ∈ blanks, l.kind = .whitespace) :
          solid (blanks.reverse ++ brace :: before) = brace :: solid before ∧
            separates (blanks.reverse ++ brace :: before) = false := by
        have hreverse : ∀ l ∈ blanks.reverse, l.kind = .whitespace := by simpa using hblank
        refine ⟨?_, separates_append hreverse (by simp [separates, hbrace.kind])⟩
        rw [solid_append, solid_eq_nil hreverse, List.nil_append, solid_cons,
          if_neg (by simp [hbrace.kind])]
      refine BreaksBehind.break_cons gone hn hbrace hgone hblanks ?_ (ih ?_ ?_)
      · cases ls with
        | nil => simp [Words.settleFrom]
        | cons l ls =>
          rintro _ ⟨⟩
          exact mt (kind_settle_eq_whitespace_iff _ _ l).mp (hls l rfl)
      · rw [(hback hgone).1, (hback hblanks.whitespace).1, hsolid]
      · rw [(hback hgone).2, (hback hblanks.whitespace).2]

/-! ### Lines that are left -/

/-- Lexemes without a closing brace are left alone. -/
theorem exists_of_breaksBehind {mid behind : List Lexeme}
    (h : Patched (BreaksBehind Broken) n ls (mid ++ l :: behind))
    (hmid : ∀ k ∈ mid, k.kind ≠ .closeCurly) (hl : l.kind ≠ .closeCurly) :
    ∃ behind', ls = mid ++ l :: behind' := by
  induction mid generalizing n ls with
  | nil =>
    generalize hks : [] ++ l :: behind = ks at h
    cases h with
    | nil => cases hks
    | cons hpatch hrest =>
      cases hpatch with
      | keep k =>
        obtain ⟨rfl, rfl⟩ := List.cons_eq_cons.mp hks
        exact ⟨_, rfl⟩
      | «break» _ hbrace =>
        obtain ⟨rfl, _⟩ := List.cons_eq_cons.mp hks
        exact absurd hbrace.kind hl
  | cons k mid ih =>
    obtain ⟨hk, hmid⟩ := List.forall_mem_cons.mp hmid
    generalize hks : k :: mid ++ l :: behind = ks at h
    cases h with
    | nil => cases hks
    | cons hpatch hrest =>
      cases hpatch with
      | keep =>
        obtain ⟨rfl, rfl⟩ := List.cons_eq_cons.mp hks
        obtain ⟨behind', rfl⟩ := ih hrest hmid
        exact ⟨behind', rfl⟩
      | «break» _ hbrace =>
        obtain ⟨rfl, _⟩ := List.cons_eq_cons.mp hks
        exact absurd hbrace.kind hk

/-- What is no whitespace stands behind blanks in front of it. -/
theorem exists_append_of_blanks {front behind : List Lexeme}
    (h : blanks ++ ks = front ++ l :: behind) (hblank : ∀ b ∈ blanks, b.kind = .whitespace)
    (hl : l.kind ≠ .whitespace) :
    ∃ front', front = blanks ++ front' ∧ ks = front' ++ l :: behind := by
  rcases List.append_eq_append_iff.mp h with hlonger | ⟨more, hblanks, hmore⟩
  · exact hlonger
  · cases more with
    | nil => exact ⟨[], by rw [hblanks]; simp, hmore.symm⟩
    | cons k more =>
      obtain ⟨rfl, _⟩ := List.cons_eq_cons.mp hmore
      exact absurd (hblank l (by simp [hblanks])) hl

/-- What stands behind a closing brace on its line stood there before, and the line has not been
broken behind this brace. -/
theorem exists_split_of_breaksBehind {brace : Lexeme} {front mid behind : List Lexeme}
    (h : Patched (BreaksBehind Broken) n ls (front ++ brace :: (mid ++ l :: behind)))
    (hbrace : brace.kind = .closeCurly)
    (hmid : ∀ k ∈ mid, k.kind ≠ .closeCurly ∧ '\n' ∉ k.text.toList)
    (hl : l.kind ≠ .closeCurly ∧ l.kind ≠ .whitespace) :
    ∃ front' behind', ls = front' ++ brace :: (mid ++ l :: behind') ∧
      ¬ Broken (n + front'.length) := by
  generalize hks : front ++ brace :: (mid ++ l :: behind) = ks at h
  induction h generalizing front with
  | nil => simp at hks
  | @cons n old new ls ks hpatch hrest ih =>
    cases hpatch with
    | keep k _ hn =>
      rw [List.singleton_append] at hks ⊢
      rcases front with _ | ⟨first, front⟩
      · obtain ⟨rfl, rfl⟩ := List.cons_eq_cons.mp hks
        obtain ⟨behind', rfl⟩ := exists_of_breaksBehind hrest (fun k hk => (hmid k hk).1) hl.1
        exact ⟨[], behind', rfl, hn⟩
      · obtain ⟨rfl, hbehind⟩ := List.cons_eq_cons.mp hks
        obtain ⟨front', behind', rfl, hleft⟩ := ih hbehind
        refine ⟨first :: front', behind', rfl, ?_⟩
        rwa [List.length_cons, Nat.add_comm front'.length, ← Nat.add_assoc]
    | @«break» _ _ gone blanks _ hn hbroken hgone hblanks hls =>
      rw [List.cons_append] at hks ⊢
      rcases front with _ | ⟨first, front⟩
      · -- the line break behind the brace would stand among what is on its line
        obtain ⟨_, hbehind⟩ := List.cons_eq_cons.mp hks
        obtain ⟨mid', rfl, _⟩ := exists_append_of_blanks hbehind.symm hblanks.whitespace hl.2
        obtain ⟨w, hw, hbreak⟩ := hblanks.exists_break
        exact absurd hbreak (hmid w (List.mem_append_left _ hw)).2
      · obtain ⟨rfl, hbehind⟩ := List.cons_eq_cons.mp hks
        obtain ⟨front', rfl, hrest⟩ := exists_append_of_blanks hbehind.symm hblanks.whitespace
            (by simp [hbrace])
        obtain ⟨front', behind', rfl, hleft⟩ := ih hrest.symm
        refine ⟨first :: (gone ++ front'), behind', by simp, ?_⟩
        rwa [List.length_cons, Nat.add_assoc, Nat.add_right_comm, ← List.length_append] at hleft

end PhpStyle.Php
