import PhpStyle.Proofs.Edit.Effects
import PhpStyle.Proofs.Php.BrokenLines
import PhpStyle.Proofs.Php.Retokenizing
import PhpStyle.Proofs.Run.Checking
import PhpStyle.Proofs.Run.Frames
import PhpStyle.Proofs.Run.Preview
import PhpStyle.Proofs.Standard.Effects

/-!
# Closing braces on lines by themselves

Keywords may share a line with several braces, and several keywords may ask for the line to be
broken behind one brace. All of these ask for the same edit, so whichever fix is accepted, the first
pass breaks the line behind every brace that stands before a keyword on its line. In the text that
it leaves no such brace is left, and the second pass changes nothing.
-/

namespace PhpStyle

open Php (BreaksBehind Exact IsBreak IsClosingBrace OpensLine Patched letters lex outline
  settleWords tokenize)
open Text (isBlank visible)

namespace Store

/-- The first token on a line is on this line, and not behind the others. -/
theorem lineStart_spec (s : Store) (i : Nat) :
    s.lineStart i ≤ i ∧ s.line (s.lineStart i) = s.line i := by
  have hbelow (line i : Nat) (hi : s.line i = line) :
      s.lineStartBelow line i ≤ i ∧ s.line (s.lineStartBelow line i) = line := by
    induction i with
    | zero => exact ⟨Nat.le_refl 0, hi⟩
    | succ i ih =>
      rw [lineStartBelow]
      split
      · exact ⟨Nat.le_refl _, hi⟩
      · rename_i hsame
        obtain ⟨hle, hline⟩ := ih (Decidable.not_not.mp hsame)
        exact ⟨Nat.le_succ_of_le hle, hline⟩
  exact hbelow (s.line i) i rfl

end Store

namespace BracePlacement

/-- The nearest closing brace before a token, on the line of the token. -/
structure Precedes (s : Store) (c i : Nat) : Prop where
  lt : c < i
  lt_size : i < s.size
  brace : s.kind c = .closeCurly
  line : s.line c = s.line i
  nearest : ∀ k, c < k → k < i → s.kind k ≠ .closeCurly

/-- The keywords that begin or go on a control structure, and start a line of their own. -/
def controlKeywords : List Kind :=
  [.kwDo, .kwWhile, .kwFor, .kwIf, .kwForeach, .kwElse, .kwElseIf, .kwSwitch, .kwCatch, .kwFinally]

/-- A closing brace before such a keyword on its line. -/
def Crowded (s : Store) (c : Nat) : Prop :=
  ∃ i, s.kind i ∈ controlKeywords ∧ Precedes s c i

/-- The whitespace that is put behind a brace: a line break and the indentation of its line. -/
def lineOpening (settings : Settings) (s : Store) (c : Nat) : String :=
  (File.ofStore s).newline settings ++
    if s.lineStart c ≠ c ∧ s.kind (s.lineStart c) = .whitespace then s.text (s.lineStart c) else ""

/-- The edits that a pass with the rule alone makes. -/
def edits (settings : Settings) (s : Store) : List Edit :=
  Session.grant [] ((Engine.ofRules tokenize [rule settings]).findings s)

variable {s : Store} {settings : Settings} {c i n : Nat} {f : Finding}

/-- The brace that is reported is the nearest one before the keyword, on its line. -/
theorem mem_braceFindings_iff (hi : i < s.size) : f ∈ braceFindings settings (.ofStore s) i ↔
    ∃ c, Precedes s c i ∧ f = {
      code := "BracketBeforeControlStatement", index := c
      message := "Closing brace must be on a line by itself"
      fix := some (breakBehind (.ofStore s) ((File.ofStore s).newline settings) c) } := by
  simp only [braceFindings, File.ofStore_store, List.mem_map, Option.mem_toList,
    Option.filter_eq_some_iff, Option.bind_eq_some_iff]
  refine exists_congr fun c => and_congr ?_ eq_comm
  constructor
  · rintro ⟨⟨p, hp, hfound⟩, hline⟩
    obtain rfl := Store.prev?_eq_some hp
    obtain ⟨_, hlt, hbrace, hnearest⟩ := Store.scanDown_eq_some hfound
    refine ⟨hlt, hi, beq_iff_eq.mp hbrace, beq_iff_eq.mp hline, fun k hk hki => ?_⟩
    exact beq_eq_false_iff_ne.mp (hnearest k hk hki)
  · intro h
    obtain ⟨p, rfl⟩ : ∃ p, i = p + 1 := ⟨i - 1, by have := h.lt; omega⟩
    refine ⟨⟨p, rfl, ?_⟩, beq_iff_eq.mpr h.line⟩
    have hbrace : (TokenTest.isKind .closeCurly) (s.token c) = true := beq_iff_eq.mpr h.brace
    cases hfound : s.findPrevious (.isKind .closeCurly) p none with
    | none =>
      rw [Store.scanDown_eq_none hfound c (Nat.zero_le c) h.lt] at hbrace
      cases hbrace
    | some c' =>
      obtain ⟨_, hlt, hbrace', hnearest⟩ := Store.scanDown_eq_some hfound
      rcases Nat.lt_trichotomy c c' with hless | rfl | hless
      · exact absurd (beq_iff_eq.mp hbrace') (h.nearest c' hless hlt)
      · rfl
      · rw [hnearest c hless h.lt] at hbrace
        cases hbrace

/-- The rule finds crowded braces with a fix, and comments without one. -/
theorem mem_findings_cases (h : f ∈ (Engine.ofRules tokenize [rule settings]).findings s) :
    (∃ c, Crowded s c ∧ f.code = "BracketBeforeControlStatement" ∧
        f.fix = some (breakBehind (.ofStore s) ((File.ofStore s).newline settings) c)) ∨
      f.code ≠ "BracketBeforeControlStatement" ∧ f.fix = none := by
  obtain ⟨i, hi, r, hr, hkind, hmem⟩ := Engine.mem_findings_iff.mp h
  obtain rfl := List.mem_singleton.mp hr
  obtain ⟨found, hfound, rfl⟩ := List.mem_map.mp hmem
  rcases List.mem_append.mp hfound with hfound | hfound
  · obtain ⟨c, hc, rfl⟩ := (mem_braceFindings_iff hi).mp hfound
    exact .inl ⟨c, ⟨i, hkind, hc⟩, rfl, rfl⟩
  · unfold commentFindings at hfound
    obtain ⟨_, rfl⟩ := Finding.mem_when_iff.mp hfound
    exact .inr ⟨by simp, rfl⟩

/-- Every crowded brace is found, with a fix that breaks the line behind it. -/
theorem exists_finding (h : Crowded s c) :
    ∃ f ∈ (Engine.ofRules tokenize [rule settings]).findings s,
    f.fix = some (breakBehind (.ofStore s) ((File.ofStore s).newline settings) c) := by
  obtain ⟨i, hkind, hc⟩ := h
  obtain ⟨f, hf, hfix⟩ : ∃ f ∈ braceFindings settings (.ofStore s) i,
      f.fix = some (breakBehind (.ofStore s) ((File.ofStore s).newline settings) c) :=
    ⟨_, (mem_braceFindings_iff hc.lt_size).mpr ⟨c, hc, rfl⟩, rfl⟩
  exact ⟨{ f with rule := (rule settings).name }, Engine.mem_findings_iff.mpr
    ⟨i, hc.lt_size, _, List.mem_singleton_self _, hkind,
      List.mem_map_of_mem (List.mem_append_left _ hf)⟩, hfix⟩

section

variable (hs : Exact s)

include hs

/-- Between a brace and the keyword that it precedes no line ends. -/
theorem Precedes.flat (h : Precedes s c i) {k : Nat} (hck : c ≤ k) (hki : k < i) : s.breaks k = 0 :=
  hs.sound.breaks_eq_zero hck hki h.lt_size (Nat.le_of_eq h.line.symm)

/-- A brace with other lexemes on its line behind it precedes the last of them. -/
theorem precedes_of_lexemes {front mid behind : List Lexeme} {brace l : Lexeme}
    (hsplit : s.lexemes = front ++ brace :: (mid ++ l :: behind))
    (hbrace : brace.kind = .closeCurly)
    (hmid : ∀ k ∈ mid, k.kind ≠ .closeCurly ∧ '\n' ∉ k.text.toList) :
    Precedes s front.length (front.length + (mid.length + 1)) ∧
      s.kind (front.length + (mid.length + 1)) = l.kind := by
  have hget {k : Nat} {l' : Lexeme} (hl : (brace :: (mid ++ l :: behind))[k]? = some l') :=
    Store.token_of_split hsplit hl
  obtain ⟨_, hfirst, _⟩ := hget (k := 0) rfl
  obtain ⟨hsize, hlast, _⟩ := hget (k := mid.length + 1) (by
    rw [List.getElem?_cons_succ, List.getElem?_append_right (Nat.le_refl _), Nat.sub_self]
    rfl)
  have hinside {k : Nat} (hlow : front.length < k) (hhigh : k < front.length + (mid.length + 1)) :
      s.kind k ≠ .closeCurly ∧ s.breaks k = 0 := by
    obtain ⟨m, rfl⟩ : ∃ m, k = front.length + (m + 1) := ⟨k - front.length - 1, by omega⟩
    have hm : m < mid.length := by omega
    obtain ⟨_, hkind, htext⟩ := hget (k := m + 1) (by
      rw [List.getElem?_cons_succ, List.getElem?_append_left hm, List.getElem?_eq_getElem hm])
    obtain ⟨hother, hflat⟩ := hmid _ (List.getElem_mem hm)
    exact ⟨hkind ▸ hother, by rw [Store.breaks, htext]; exact List.count_eq_zero.mpr hflat⟩
  rw [Nat.add_zero] at hfirst
  refine ⟨⟨by omega, hsize, hfirst.trans hbrace, ?_, fun k hlow hhigh => (hinside hlow hhigh).1⟩,
    hlast⟩
  refine (hs.sound.line_eq_of_flat (Nat.le_add_right _ _) hsize fun k hlow hhigh => ?_).symm
  rcases Nat.eq_or_lt_of_le hlow with rfl | hlow
  · obtain ⟨z, hz, htext⟩ := (hs.spells front.length).mark (by rw [hfirst, hbrace]; rfl)
    have hmark : ∀ z ∈ Php.Lexer.marks, [z].count '\n' = 0 := by decide
    rw [Store.breaks, htext]
    exact hmark z hz
  · exact (hinside hlow hhigh).2

/-- Whitespace behind a crowded brace has no line break. -/
theorem Crowded.blank (h : Crowded s c) (hblank : s.kind (c + 1) = .whitespace) :
    '\n' ∉ (s.text (c + 1)).toList := by
  obtain ⟨i, hkind, hc⟩ := h
  have hne : c + 1 ≠ i := by
    rintro rfl
    rw [hblank] at hkind
    simp [controlKeywords] at hkind
  exact List.count_eq_zero.mp (hc.flat hs (Nat.le_succ c) (by have := hc.lt; omega))

/-- The edit that breaks the line behind a crowded brace. -/
theorem Crowded.breakBehind_eq (h : Crowded s c) :
    breakBehind (.ofStore s) ((File.ofStore s).newline settings) c =
      if s.kind (c + 1) = .whitespace then [.replace (c + 1) (lineOpening settings s c)]
      else [.append c (lineOpening settings s c)] := by
  have hnext : s.next? c = some (c + 1) := by
    obtain ⟨i, _, hc⟩ := h
    exact if_pos (Nat.lt_of_le_of_lt hc.lt hc.lt_size)
  have hflat (hblank : s.kind (c + 1) = .whitespace) :
      Text.hasLineBreak (s.text (c + 1)) = false := by
    simpa [Text.hasLineBreak] using h.blank hs hblank
  unfold breakBehind
  dsimp only [File.ofStore_store]
  rw [hnext]
  dsimp only
  split
  · rename_i hblank
    rw [if_pos hblank.1]
    rfl
  · rename_i hnot
    rw [if_neg fun hblank => hnot ⟨hblank, by simp [hflat hblank]⟩]
    rfl

/-- The edits of a pass: those behind crowded braces. -/
theorem mem_edits_iff {e : Edit} : e ∈ edits settings s ↔ ∃ c, Crowded s c ∧
    e = if s.kind (c + 1) = .whitespace then .replace (c + 1) (lineOpening settings s c)
      else .append c (lineOpening settings s c) := by
  have hfix {f : Finding} (hf : f ∈ (Engine.ofRules tokenize [rule settings]).findings s)
      {d : Changeset} (hd : f.fix = some d) : ∃ c, Crowded s c ∧
        d = [if s.kind (c + 1) = .whitespace then .replace (c + 1) (lineOpening settings s c)
          else .append c (lineOpening settings s c)] := by
    rcases mem_findings_cases hf with ⟨c, hc, _, hbreak⟩ | ⟨_, hnone⟩
    · rw [hc.breakBehind_eq hs, hd] at hbreak
      exact ⟨c, hc, by rw [Option.some.inj hbreak]; split <;> rfl⟩
    · cases hd.symm.trans hnone
  rw [edits, Session.mem_grant_singletons_iff]
  · constructor
    · rintro ⟨f, hf, hd⟩
      obtain ⟨c, hc, he⟩ := hfix hf hd
      exact ⟨c, hc, (List.cons_eq_cons.mp he).1⟩
    · rintro ⟨c, hc, rfl⟩
      obtain ⟨f, hf, hd⟩ := exists_finding hc
      rw [hc.breakBehind_eq hs] at hd
      exact ⟨f, hf, by rw [hd]; split <;> rfl⟩
  · intro f hf d hd
    obtain ⟨c, _, rfl⟩ := hfix hf hd
    exact ⟨_, rfl⟩
  · -- the token of the edit tells the brace: it is the brace, or whitespace behind it
    intro f hf f' hf' e e' hd hd' htarget
    obtain ⟨c, ⟨_, _, hc⟩, he⟩ := hfix hf hd
    obtain ⟨c', ⟨_, _, hc'⟩, he'⟩ := hfix hf' hd'
    obtain ⟨rfl, _⟩ := List.cons_eq_cons.mp he
    obtain ⟨rfl, _⟩ := List.cons_eq_cons.mp he'
    suffices hsame : c = c' by rw [hsame]
    split at htarget
    · rename_i hblank
      split at htarget
      · simpa using htarget
      · obtain rfl : c + 1 = c' := htarget
        cases hblank.symm.trans hc'.brace
    · split at htarget
      · rename_i hblank
        obtain rfl : c = c' + 1 := htarget
        cases hblank.symm.trans hc.brace
      · exact htarget

/-- Where no brace is crowded, nothing is edited. -/
theorem edits_eq_nil (h : ∀ c, ¬ Crowded s c) : edits settings s = [] := by
  refine List.eq_nil_iff_forall_not_mem.mpr fun e he => ?_
  obtain ⟨c, hc, _⟩ := (mem_edits_iff hs).mp he
  exact h c hc

/-- Whitespace behind a crowded brace is replaced. -/
theorem Crowded.rewritten_blank (h : Crowded s c) (hspace : s.kind (c + 1) = .whitespace) :
    s.rewritten (edits settings s) c = s.text c ∧
      s.rewritten (edits settings s) (c + 1) = lineOpening settings s c := by
  constructor
  · refine Store.rewritten_of_forall_ne fun e he htarget => ?_
    obtain ⟨c', _, rfl⟩ := (mem_edits_iff hs).mp he
    split at htarget
    · rename_i hblank
      obtain rfl : c' + 1 = c := htarget
      obtain ⟨_, _, hc⟩ := h
      cases hblank.symm.trans hc.brace
    · rename_i hother
      obtain rfl : c' = c := htarget
      exact hother hspace
  · have hmade : Edit.replace (c + 1) (lineOpening settings s c) ∈ edits settings s :=
      (mem_edits_iff hs).mpr ⟨c, h, by rw [if_pos hspace]⟩
    exact Store.rewritten_of_mem (Session.nodup_grant s _) hmade

/-- Behind a crowded brace without whitespace, the opening of a line is put in. -/
theorem Crowded.rewritten_bare (h : Crowded s c) (hspace : s.kind (c + 1) ≠ .whitespace) :
    s.rewritten (edits settings s) c = s.text c ++ lineOpening settings s c := by
  have hmade : Edit.append c (lineOpening settings s c) ∈ edits settings s :=
    (mem_edits_iff hs).mpr ⟨c, h, by rw [if_neg hspace]⟩
  exact Store.rewritten_of_mem (Session.nodup_grant s _) hmade

/-- All other tokens are left alone. -/
theorem rewritten_other (hn : ¬ Crowded s n)
    (hfree : ∀ c, n = c + 1 → Crowded s c → s.kind n ≠ .whitespace) :
    s.rewritten (edits settings s) n = s.text n := by
  refine Store.rewritten_of_forall_ne fun e he htarget => ?_
  obtain ⟨c, hc, rfl⟩ := (mem_edits_iff hs).mp he
  split at htarget
  · rename_i hblank
    exact hfree c htarget.symm hc (htarget ▸ hblank)
  · exact hn (htarget ▸ hc)

end

section

variable {source : String} {store : Store}
  (hbuild : Store.build? (settleWords (lex source)) (outline (settleWords (lex source))) =
    .ok store)

include hbuild

/-- Whitespace within a line is made of blanks. -/
theorem isBlank_of_whitespace {k : Nat} (hkind : store.kind k = .whitespace)
    (hflat : store.breaks k = 0) :
    ∀ x ∈ (store.text k).toList, Php.Lexer.isBlank x = true ∧ x ≠ '\n' := by
  intro x hx
  obtain ⟨l, hl, hlkind, htext⟩ :=
    Store.exists_lexeme_of_build? hbuild (Store.lt_size_of_kind hkind (by decide))
  have hlayout := Php.isLayout_of_mem_settleWords (List.mem_of_getElem? hl)
      (hlkind.symm.trans hkind) x (htext ▸ hx)
  have hne : x ≠ '\n' := by
    rintro rfl
    exact absurd hflat (Nat.ne_of_gt (List.count_pos_iff.mpr hx))
  exact ⟨by simpa [Php.isLayout, hne] using hlayout, hne⟩

/-- What is put behind a crowded brace opens a line. -/
theorem exists_opensLine (hc : Crowded store c) :
    ∃ blanks, OpensLine blanks ∧ letters blanks = (lineOpening settings store c).toList := by
  have hs := Php.exact_of_build hbuild
  have hbreak : IsBreak ⟨.whitespace, (File.ofStore store).newline settings⟩ :=
    ⟨rfl, File.newline_cases settings store⟩
  unfold lineOpening
  split
  · rename_i hindent
    obtain ⟨hother, hkind⟩ := hindent
    obtain ⟨hle, hline⟩ := store.lineStart_spec c
    have hsize : c < store.size := by
      obtain ⟨i, _, hi⟩ := hc
      exact Nat.lt_trans hi.lt hi.lt_size
    have hflat : store.breaks (store.lineStart c) = 0 :=
      hs.sound.breaks_eq_zero (Nat.le_refl _) (by omega) hsize (Nat.le_of_eq hline.symm)
    have hindent : (⟨.whitespace, store.text (store.lineStart c)⟩ : Lexeme).text.toList ≠ [] :=
      List.length_pos_iff.mp (hs.length_pos (by omega))
    exact ⟨_, .indented hbreak rfl hindent (isBlank_of_whitespace hbuild hkind hflat), by simp⟩
  · exact ⟨_, .bare hbreak, by simp⟩

/-- A closing brace in a store was read as one. -/
theorem isClosingBrace_of_build {raw : Lexeme} (hraw : (lex source)[n]? = some raw)
    (hkind : store.kind n = .closeCurly) : IsClosingBrace raw where
  kind := (Php.raw_kind_of_build hbuild hraw (by rw [hkind]; decide)).trans hkind
  mark := by
    have hspells := Php.spells_lex source raw (List.mem_of_getElem? hraw)
    refine hspells.mark ?_
    rw [Php.raw_kind_of_build hbuild hraw (by rw [hkind]; decide), hkind]
    rfl

/-- What is no whitespace in a store was none as it was read. -/
theorem kind_ne_of_head? (h : store.kind n ≠ .whitespace) :
    ∀ l ∈ ((lex source).drop n).head?, l.kind ≠ .whitespace := by
  intro l hl hkind
  rw [List.head?_drop] at hl
  refine h ((Php.kind_of_raw hbuild hl ?_).trans hkind)
  simp [Php.isWord, hkind, Kind.isTrivia]

/-- The text of a pass is read as lines that are broken behind crowded braces. -/
theorem exists_patched (settings : Settings) (hn : n ≤ store.size)
    (hfree : ∀ c, n = c + 1 → Crowded store c → store.kind n ≠ .whitespace) :
    ∃ ks, Patched (BreaksBehind (Crowded store)) n ((lex source).drop n) ks ∧
      letters ks = (List.range' n (store.size - n)).flatMap fun k =>
        (store.rewritten (edits settings store) k).toList := by
  have hs := Php.exact_of_build hbuild
  have hsize := Php.size_of_build hbuild
  generalize hleft : store.size - n = left
  induction left using Nat.strong_induction_on generalizing n with
  | _ left ih =>
    rcases Nat.eq_or_lt_of_le hn with rfl | hn
    · obtain rfl : left = 0 := by omega
      rw [List.drop_of_length_le (by omega)]
      exact ⟨[], .nil _, rfl⟩
    obtain ⟨left, rfl⟩ : ∃ m, left = m + 1 := ⟨left - 1, by omega⟩
    have hget : (lex source)[n]? = some (lex source)[n] := List.getElem?_eq_getElem (hsize ▸ hn)
    obtain ⟨_, htext, _⟩ := Php.settled_of_build hbuild hget
    rw [List.drop_eq_getElem_cons (hsize ▸ hn), List.range'_succ, List.flatMap_cons]
    by_cases hc : Crowded store n
    · have hbrace : IsClosingBrace (lex source)[n] := by
        obtain ⟨_, _, hcloses⟩ := hc
        exact isClosingBrace_of_build hbuild hget hcloses.brace
      obtain ⟨blanks, hopens, hblanks⟩ := exists_opensLine hbuild hc
      by_cases hspace : store.kind (n + 1) = .whitespace
      · have hnext : n + 1 < store.size := Store.lt_size_of_kind hspace (by decide)
        obtain ⟨left, rfl⟩ : ∃ m, left = m + 1 := ⟨left - 1, by omega⟩
        have hraw : (lex source)[n + 1].kind = .whitespace := by
          rw [Php.raw_kind_of_build hbuild (List.getElem?_eq_getElem (hsize ▸ hnext))
            (by rw [hspace]; decide), hspace]
        have hbehind : store.kind (n + 2) ≠ .whitespace := by
          intro hblank
          have hlast := hs.blank (n + 1) (Store.lt_size_of_kind hblank (by decide)) hspace hblank
          exact hc.blank hs hspace (List.mem_of_getLast? hlast)
        obtain ⟨ks, hks, hletters⟩ := ih left (by omega) (n := n + 2) hnext
            (fun _ _ _ => hbehind) (by omega)
        rw [List.drop_eq_getElem_cons (hsize ▸ hnext), List.range'_succ, List.flatMap_cons]
        refine ⟨_, BreaksBehind.break_cons [_] hc hbrace (by simpa using hraw) hopens
          (kind_ne_of_head? hbuild hbehind) hks, ?_⟩
        obtain ⟨hkept, hopened⟩ := hc.rewritten_blank hs hspace
        rw [hkept, hopened, htext, Php.letters_cons, Php.letters_append, hblanks, hletters]
      · obtain ⟨ks, hks, hletters⟩ := ih left (Nat.lt_succ_self left) (n := n + 1) hn
          (fun c heq _ => (Nat.add_right_cancel heq) ▸ hspace) (by omega)
        refine ⟨_, BreaksBehind.break_cons [] hc hbrace nofun hopens
          (kind_ne_of_head? hbuild hspace) hks, ?_⟩
        rw [hc.rewritten_bare hs hspace, String.toList_append, htext, Php.letters_cons,
          Php.letters_append, hblanks, hletters, List.append_assoc]
    · obtain ⟨ks, hks, hletters⟩ := ih left (Nat.lt_succ_self left) (n := n + 1) hn
        (fun c heq hcrowded => absurd ((Nat.add_right_cancel heq) ▸ hcrowded) hc) (by omega)
      refine ⟨_, BreaksBehind.cons _ hc hks, ?_⟩
      rw [Php.letters_cons, hletters, rewritten_other hs hc hfree, htext]

/-- In the text of a pass, no brace is crowded. -/
theorem not_crowded_of_rewrite {store' : Store}
    (hbuild' : Store.build? (settleWords (lex (store.rewrite (edits settings store))))
      (outline (settleWords (lex (store.rewrite (edits settings store))))) = .ok store') :
    ¬ Crowded store' c := by
  rintro ⟨i, hkind, h⟩
  have hs := Php.exact_of_build hbuild
  have hs' := Php.exact_of_build hbuild'
  -- the text is read as it was put together
  obtain ⟨ks, hks, hletters⟩ := exists_patched hbuild settings (Nat.zero_le store.size) nofun
  rw [List.drop_zero] at hks
  have hlex : lex (store.rewrite (edits settings store)) = ks := by
    rw [Php.lex_eq_lexFrom, Store.toList_rewrite, List.range_eq_range', ← Nat.sub_zero store.size,
      ← hletters]
    refine hks.lexFrom_eq BreaksBehind.rereads ?_
    rw [show letters (lex source) = source.toList from (Php.lex_cut source).spells,
      Php.lex_eq_lexFrom]
  rw [hlex] at hbuild'
  -- so what stands on the line of a keyword stood there before
  obtain ⟨mid, behind, hsplit, _, hmid⟩ := store'.exists_lexemes_between h.lt h.lt_size
  have hpatched : Patched (BreaksBehind (Crowded store)) 0 store.lexemes store'.lexemes := by
    rw [Php.lexemes_of_build? hbuild, Php.lexemes_of_build? hbuild']
    exact Php.settleFrom_of_breaksBehind hks rfl rfl
  rw [hsplit] at hpatched
  have hkeyword : store'.kind i ≠ .closeCurly ∧ store'.kind i ≠ .whitespace := by
    constructor
    · intro heq
      rw [heq] at hkind
      simp [controlKeywords] at hkind
    · intro heq
      rw [heq] at hkind
      simp [controlKeywords] at hkind
  have hmid' : ∀ l ∈ mid, l.kind ≠ .closeCurly ∧ '\n' ∉ l.text.toList := by
    intro l hl
    obtain ⟨k, hck, hki, rfl⟩ := hmid l hl
    exact ⟨h.nearest k hck hki, List.count_eq_zero.mp (h.flat hs' (Nat.le_of_lt hck) hki)⟩
  obtain ⟨front, behind', hold, hfree⟩ :=
    Php.exists_split_of_breaksBehind hpatched h.brace hmid' hkeyword
  obtain ⟨hprecedes, hkind'⟩ := precedes_of_lexemes hs hold h.brace hmid'
  rw [Nat.zero_add] at hfree
  exact hfree ⟨_, by rwa [hkind'], hprecedes⟩

end

/-- The fixes of the rule are edits of layout. -/
theorem findings_onlyLayout (hs : Php.Sound s) :
    ∀ f ∈ braceFindings settings (.ofStore s) i ++ commentFindings s i, f.OnlyLayout s := by
  intro f hf
  rcases List.mem_append.mp hf with hf | hf
  · obtain ⟨c, _, rfl⟩ := List.mem_map.mp hf
    have hopening : isBlank (lineOpening settings s c) = true := by
      rw [lineOpening, Text.isBlank_append, File.isBlank_newline, Bool.true_and]
      split
      · rename_i hindent
        exact hs.isBlank_of_whitespace hindent.2
      · rfl
    unfold breakBehind
    dsimp only [File.ofStore_store]
    split
    · split
      · rename_i hblank
        exact Finding.onlyLayout_of_singleton rfl ⟨hblank.1, hopening⟩
      · exact Finding.onlyLayout_of_singleton rfl hopening
    · exact Finding.onlyLayout_of_singleton rfl hopening
  · unfold commentFindings at hf
    obtain ⟨_, rfl⟩ := Finding.mem_when_iff.mp hf
    rintro _ ⟨⟩

/-- The rule takes no visible character away. -/
theorem erasing (settings : Settings) : Php.Erasing [rule settings] fun _ _ => False := by
  intro s hs r hr i f hf d hd
  obtain rfl := List.mem_singleton.mp hr
  obtain ⟨found, hfound, rfl⟩ := List.mem_map.mp hf
  have hkeeps := (findings_onlyLayout hs found hfound).keeps hs hd
  exact ⟨fun e he => (hkeeps e he).erases, fun _ => id, fun _ e he _ => hkeeps e he⟩

/-- The second pass changes nothing: it makes no edits. -/
theorem isFixedPt_afterPass (settings : Settings) (source : String) :
    Function.IsFixedPt (Engine.ofRules tokenize [rule settings]).afterPass
      ((Engine.ofRules tokenize [rule settings]).afterPass source) := by
  have hafter (source : String) : ∃ store, tokenize source = .ok store ∧
      Store.build? (settleWords (lex source)) (outline (settleWords (lex source))) = .ok store ∧
      (Engine.ofRules tokenize [rule settings]).afterPass source = store.rewrite
      (edits settings store) := by
    obtain ⟨store, p, hstore, hbuild, hrun, _, hsource⟩ := Php.exists_pass [rule settings] 1 source
    exact ⟨store, hstore, hbuild, (Engine.afterPass_of_runPass hrun).trans hsource⟩
  obtain ⟨store, _, hbuild, hfirst⟩ := hafter source
  obtain ⟨store', _, hbuild', hsecond⟩ :=
    hafter ((Engine.ofRules tokenize [rule settings]).afterPass source)
  have hs' := Php.exact_of_build hbuild'
  refine hsecond.trans ?_
  rw [edits_eq_nil hs' fun c => ?_, Store.rewrite_nil hs'.sound,
    (Php.source_of_build hbuild').1]
  rw [hfirst] at hbuild'
  exact not_crowded_of_rewrite hbuild hbuild'

end BracePlacement

namespace Continuation

/-- A keyword that goes on a control structure, and the closing brace in front of it on its line. -/
structure Crowds (s : Store) (b i : Nat) : Prop where
  keyword : continues (s.kind i) = true
  behind : s.prevCode? i = some b
  brace : s.kind b = .closeCurly
  line : s.line b = s.line i

variable {s : Store} {b i : Nat}

/-- The keywords that go on a structure are `else`, `elseif` and `catch`. -/
theorem continues_eq_true_iff {kind : Kind} :
    continues kind = true ↔ kind = .kwElse ∨ kind = .kwElseIf ∨ kind = .kwCatch := by
  cases kind <;> decide

namespace Crowds

/-- A keyword that crowds a brace stands in the store. -/
theorem lt_size (h : Crowds s b i) : i < s.size := by
  rcases continues_eq_true_iff.mp h.keyword with hkind | hkind | hkind <;>
    exact Store.lt_size_of_kind hkind (by decide)

/-- No closing brace is trivia, so the last one is the last token of code. -/
theorem precedes (h : Crowds s b i) : BracePlacement.Precedes s b i := by
  have hprev : s.prevCodeDownTo? i 0 = some b := h.behind
  obtain ⟨_, hlt, _, hbetween⟩ := Store.prevCodeDownTo?_eq_some hprev
  refine ⟨hlt, h.lt_size, h.brace, h.line, fun k hbk hki hclose => ?_⟩
  have htrivia := hbetween k hbk hki
  rw [hclose] at htrivia
  cases htrivia

/-- What crowds a brace in front of a keyword that goes on a structure stands before a control
keyword. -/
theorem crowded (h : Crowds s b i) : BracePlacement.Crowded s b := by
  refine ⟨i, ?_, h.precedes⟩
  rcases continues_eq_true_iff.mp h.keyword with hkind | hkind | hkind <;>
    simp [hkind, BracePlacement.controlKeywords]

end Crowds

end Continuation

namespace BracePlacement

/-- Under all settings, a run over any text with the rule alone and a budget of at least two passes
converges within two. It changes nothing but white space. In the text that it leaves no closing
brace stands before a control keyword on the line of the keyword, and so none is crowded by a
keyword that goes on a structure, and a check reports none. -/
theorem fix_settles_in_two_passes (settings : Settings) (source : String) {budget : Nat}
    (hbudget : 2 ≤ budget) :
    let engine := Engine.ofRules tokenize [rule settings]
    ∃ report, engine.fix budget source = .ok report ∧
      (∃ passes ≤ 2, report.outcome = .converged passes) ∧
      visible report.source = visible source ∧
      ∃ store, tokenize report.source = .ok store ∧ (∀ b, ¬ Crowded store b) ∧
        (∀ b i, ¬ Continuation.Crowds store b i) ∧
        ∃ checked, engine.check report.source = .ok checked ∧
          ∀ d ∈ checked.diagnostics, d.code ≠ "BracketBeforeControlStatement" := by
  intro engine
  obtain ⟨report, hfix⟩ := Php.exists_fix [rule settings] budget source
  have hfixed := isFixedPt_afterPass settings source
  refine ⟨report, hfix, ?_, ?_, ?_⟩
  · rcases Engine.outcome_of_fix hfix with ⟨n, _, _, hmoves, houtcome, _⟩ | ⟨hmoves, _⟩
    · refine ⟨n + 1, ?_, houtcome⟩
      by_contra hlate
      exact hmoves 1 (by omega) hfixed
    · exact absurd hfixed (hmoves 1 (by omega))
  · exact ((erasing settings).visible_of_fix hfix).2.mpr fun _ _ _ _ _ _ => id
  · obtain ⟨store, p, _, hbuild, hrun, _, hsource⟩ := Php.exists_pass [rule settings] 1 source
    obtain ⟨store', hstore', hbuild'⟩ := Php.exists_tokenize report.source
    have hafter : report.source = store.rewrite (edits settings store) :=
      (Engine.source_of_fix_of_isFixedPt hfix hfixed).trans
        ((Engine.afterPass_of_runPass hrun).trans hsource)
    have hread : engine.tokenize 1 report.source = .ok store' :=
      Engine.tokenize_eq_ok_iff.mpr ⟨hstore', (Php.source_of_build hbuild').1⟩
    have hfree (b : Nat) : ¬ Crowded store' b := by
      rw [hafter] at hbuild'
      exact not_crowded_of_rewrite hbuild hbuild'
    refine ⟨store', hstore', hfree, fun b i h => hfree b h.crowded, _,
      Engine.check_of_tokenize hread, fun d hd => ?_⟩
    obtain ⟨f, hf, rfl⟩ := List.mem_map.mp hd
    rcases mem_findings_cases hf with ⟨c, hcrowded, _⟩ | ⟨hcode, _⟩
    · exact absurd hcrowded (hfree c)
    · exact hcode

/-- Two keywords that share a line with one brace ask for the same line break. -/
theorem fix_settles_shared_brace :
    let source := "<?php if ($a) \x7b \x7d else if ($b) \x7b \x7d"
    2 ≤ Engine.defaultBudget ∧ ∃ report,
      (Engine.ofRules tokenize [rule .stefna]).fix Engine.defaultBudget source = .ok report ∧
        (∃ passes ≤ 2, report.outcome = .converged passes) ∧
        report.source = "<?php if ($a) \x7b \x7d\nelse if ($b) \x7b \x7d" ∧
        ∃ store, tokenize report.source = .ok store ∧ ∀ b, ¬ Crowded store b := by
  have hbudget : 2 ≤ Engine.defaultBudget := by decide
  obtain ⟨report, hfix, hconverged, _, store, hstore, hfree, _⟩ :=
    fix_settles_in_two_passes .stefna "<?php if ($a) \x7b \x7d else if ($b) \x7b \x7d" hbudget
  exact ⟨hbudget, report, hfix, hconverged,
    Php.source_of_previews hfix (by decide +kernel) (by decide +kernel), store, hstore, hfree⟩

end BracePlacement

end PhpStyle
