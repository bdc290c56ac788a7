import Mathlib.Data.List.Chain
import PhpStyle.Proofs.Php.Brackets
import PhpStyle.Proofs.Php.Lexing

/-!
# Runs of documentation comments

In the lexemes of a file, a part of a documentation comment stands exactly behind a lexeme that
leaves one open, in every mode of the lexer and also when the words are settled. So everything from
the start of a comment to the end that is paired with it belongs to that comment, brackets being no
part of any.
-/

namespace PhpStyle

namespace Kind

/-- What stands in a documentation comment behind its start. -/
def isDocPart : Kind → Bool
  | .docClose | .docWhitespace | .docStar | .docTag | .docText => true
  | _ => false

/-- What leaves a documentation comment open behind it. -/
def leavesDocOpen : Kind → Bool
  | .docOpen | .docWhitespace | .docStar | .docTag | .docText => true
  | _ => false

/-- What is no comment is no part of one. -/
theorem isDocPart_of_isComment {k : Kind} (h : k.isComment = false) : k.isDocPart = false := by
  cases k <;> first | rfl | cases h

/-- Parts of documentation comments are comments. -/
theorem isComment_of_isDocPart {k : Kind} (h : k.isDocPart = true) : k.isComment = true := by
  cases k <;> first | rfl | cases h

/-- What is no comment leaves no documentation comment open. -/
theorem leavesDocOpen_of_isComment {k : Kind} (h : k.isComment = false) :
    k.leavesDocOpen = false := by
  cases k <;> first | rfl | cases h

/-- Only a closing tag is a part of a documentation comment that does not leave it open. -/
theorem leavesDocOpen_of_isDocPart {k : Kind} (h : k.isDocPart = true) (hopen : k ≠ .docClose) :
    k.leavesDocOpen = true := by
  cases k <;> first | exact absurd rfl hopen | rfl | cases h

/-- Parts of documentation comments are no brackets. -/
theorem isBracket_of_isDocPart {k : Kind} (h : k.isDocPart = true) : k.isBracket = false := by
  cases k <;> first | rfl | cases h

end Kind

namespace Php

/-- Modes inside a documentation comment. -/
def Mode.inDoc : Mode → Bool
  | .docComment _ | .docTail => true
  | _ => false

/-- A step that starts inside a documentation comment or outside takes a part of one or none, and
goes on in one exactly if its lexeme leaves one open. -/
def Step.Tracks (inDoc : Bool) (s : Step) : Prop :=
  s.kind.isDocPart = inDoc ∧ s.kind.leavesDocOpen = s.next.inDoc

/-- What holds of identifiers and of every keyword holds of the kind of every word. -/
theorem wordKind_of_keywords {p : Kind → Prop} (hidentifier : p .identifier)
    (hkeywords : ∀ e ∈ keywords, p e.2) (word : List Char) : p (wordKind word) := by
  unfold wordKind
  cases hfound : keywords.lookup (String.ofList (word.map Char.toLower)) with
  | none => exact hidentifier
  | some kind =>
    obtain ⟨before, after, hsplit, _⟩ := List.lookup_eq_some_iff.mp hfound
    have hmem : (String.ofList (word.map Char.toLower), kind) ∈ keywords := by simp [hsplit]
    exact hkeywords _ hmem

namespace Lexer

/-- Words are no comments. -/
theorem isComment_wordKind (word : List Char) : (wordKind word).isComment = false :=
  wordKind_of_keywords (p := (·.isComment = false)) rfl (by decide) word

/-- A step through template text opens no documentation comment. -/
theorem htmlStep_tracks (c : Char) (rest : List Char) : (htmlStep c rest).Tracks false := by
  unfold htmlStep
  split
  · exact ⟨rfl, rfl⟩
  · split
    · exact ⟨rfl, rfl⟩
    · exact ⟨rfl, rfl⟩

/-- A line of a block comment opens no documentation comment. -/
theorem inDoc_blockLine (text : List Char) : (blockLine text).2.inDoc = false := by
  fun_induction blockLine text with
  | case1 => rfl
  | case2 => rfl
  | case3 => rfl
  | case4 _ _ _ _ n mode heq ih => simpa [heq] using ih

/-- A step through code opens a documentation comment exactly with its opening tag. -/
theorem codeStep_tracks (c : Char) (rest : List Char) : (codeStep c rest).Tracks false := by
  have hplain : ∀ k ∈ plainKinds, k.isComment = false := by decide
  have hoperator : ∀ o ∈ operators, o.2.isComment = false := by decide
  have hcode {k : Kind} (hk : k.isComment = false) (n : Nat) : Step.Tracks false ⟨k, n, .code⟩ :=
    ⟨Kind.isDocPart_of_isComment hk, Kind.leavesDocOpen_of_isComment hk⟩
  apply codeStep_induct
  case hclose => exact fun _ _ => ⟨rfl, rfl⟩
  case hblank => exact fun _ => hcode rfl
  case hline => exact fun _ _ => ⟨rfl, rfl⟩
  case hdoc => exact fun _ => ⟨rfl, rfl⟩
  case hblock => exact fun _ body => ⟨rfl, (inDoc_blockLine body).symm⟩
  case hplain => exact fun k hk => hcode (hplain k hk)
  case hoperator => exact fun o ho => hcode (hoperator o ho)
  case hword => exact fun _ word => hcode (isComment_wordKind word)

/-- A step through a line of a documentation comment leaves it exactly with its closing tag. -/
theorem docStep_tracks (lineStart : Bool) (c : Char) (rest : List Char) :
    (docStep lineStart c rest).Tracks true := by
  unfold docStep
  split
  · exact ⟨rfl, rfl⟩
  split
  · exact ⟨rfl, rfl⟩
  split
  · exact ⟨rfl, rfl⟩
  split
  · exact ⟨rfl, rfl⟩
  split
  · exact ⟨rfl, rfl⟩
  · exact ⟨rfl, rfl⟩

/-- A step at the end of a documentation comment leaves it exactly with its closing tag. -/
theorem docTailStep_tracks (c : Char) (rest : List Char) : (docTailStep c rest).Tracks true := by
  unfold docTailStep
  split
  · split
    · exact ⟨rfl, rfl⟩
    · exact docStep_tracks false c rest
  · exact docStep_tracks false c rest

end Lexer

/-- Every step leads into a documentation comment exactly if its kind leaves one open. -/
theorem Mode.step_tracks (mode : Mode) (c : Char) (rest : List Char) :
    (mode.step c rest).Tracks mode.inDoc := by
  cases mode with
  | html => exact Lexer.htmlStep_tracks c rest
  | code => exact Lexer.codeStep_tracks c rest
  | blockComment => exact ⟨rfl, (Lexer.inDoc_blockLine (c :: rest)).symm⟩
  | docComment lineStart => exact Lexer.docStep_tracks lineStart c rest
  | docTail => exact Lexer.docTailStep_tracks c rest

/-- A part of a documentation comment stands exactly behind a kind that leaves one open. -/
def DocFollows (a b : Kind) : Prop := b.isDocPart = a.leavesDocOpen

/-- The parts of documentation comments come in runs, in whatever mode the lexer starts. -/
theorem isChain_lexFrom (mode : Mode) (text : List Char) :
    ∀ k : Kind, k.leavesDocOpen = mode.inDoc →
      (k :: (lexFrom mode text).map (·.kind)).IsChain DocFollows := by
  fun_induction lexFrom mode text with
  | case1 mode => exact fun k _ => .singleton k
  | case2 mode c rest s ih =>
    intro k hk
    obtain ⟨hpart, hopen⟩ := mode.step_tracks c rest
    exact .cons_cons (hpart.trans hk.symm) (ih s.kind hopen)

namespace Words

/-- A word keeps its kind or becomes one of a few others. -/
theorem settledKind_cases (kind : Kind) (before after : List Lexeme) :
    settledKind kind before after = kind ∨
      settledKind kind before after ∈ [Kind.identifier, .closure, .anonClass] := by
  unfold settledKind
  split
  · exact .inl rfl
  split
  · exact .inr (by simp)
  · unfold keywordKind
    dsimp only
    split
    all_goals first | exact .inl rfl | split
    all_goals first | exact .inl rfl | exact .inr (by decide)

/-- What does not tell the kinds apart that a word can have is the same before and after
settling. -/
theorem map_kind_settleFrom {β : Type} (f : Kind → β)
    (hf : ∀ l before after, isWord l = true → f (settledKind l.kind before after) = f l.kind)
    (before after : List Lexeme) :
    (settleFrom before after).map (fun l => f l.kind) = after.map fun l => f l.kind := by
  induction after generalizing before with
  | nil => rfl
  | cons l after ih =>
    rw [settleFrom, List.map_cons, List.map_cons, ih]
    congr 1
    split
    · rename_i hword
      exact hf l before after hword
    · rfl

end Words

/-- A word is no comment, and neither is what it is settled to be. -/
theorem isComment_settledKind {l : Lexeme} (hword : isWord l = true) (before after : List Lexeme) :
    l.kind.isComment = false ∧ (Words.settledKind l.kind before after).isComment = false := by
  have hkind : l.kind.isComment = false := by
    simp only [isWord, Kind.isTrivia, Bool.and_eq_true, Bool.not_eq_true', Bool.or_eq_false_iff]
      at hword
    exact hword.1.1.2
  refine ⟨hkind, ?_⟩
  rcases Words.settledKind_cases l.kind before after with h | h
  · rw [h, hkind]
  · generalize Words.settledKind l.kind before after = kind at h
    revert kind
    decide

/-- The parts of documentation comments come in runs in every file. -/
theorem isChain_settleWords (source : String) :
    ((settleWords (lex source)).map (·.kind)).IsChain DocFollows := by
  have hlex := (isChain_lexFrom .html source.toList .inlineHtml rfl).tail
  rw [← lex_eq_lexFrom] at hlex
  have hsame := Words.map_kind_settleFrom (fun k => (k.isDocPart, k.leavesDocOpen))
    (fun l before after hword => by
      obtain ⟨hkind, hsettled⟩ := isComment_settledKind hword before after
      simp only [Kind.isDocPart_of_isComment, Kind.leavesDocOpen_of_isComment, hkind, hsettled])
    [] (lex source)
  have hiff (ls : List Lexeme) : (ls.map (·.kind)).IsChain DocFollows ↔
      (ls.map fun l => (l.kind.isDocPart, l.kind.leavesDocOpen)).IsChain fun a b => b.1 = a.2 := by
    rw [List.isChain_map, List.isChain_map]
    rfl
  rw [hiff, settleWords, hsame, ← hiff]
  exact hlex

/-- A comment starts at one place and ends at another, with no end between. -/
def Spans (rest : List (Kind × Nat)) (p : Nat × Nat) : Prop :=
  (.docOpen, p.1) ∈ rest ∧ p.1 < p.2 ∧ ∀ x ∈ rest, p.1 < x.2 → x.2 < p.2 → x.1 ≠ .docClose

/-- One more lexeme in front leaves what a comment spans. -/
theorem Spans.skip {x : Kind × Nat} {rest : List (Kind × Nat)} {p : Nat × Nat}
    (hfirst : ∀ y ∈ rest, x.2 < y.2) (h : Spans rest p) : Spans (x :: rest) p := by
  obtain ⟨hopener, hlt, hnone⟩ := h
  have := hfirst _ hopener
  refine ⟨List.mem_cons_of_mem x hopener, hlt, fun y hy hafter hbefore => ?_⟩
  rcases List.mem_cons.mp hy with rfl | hy
  · omega
  · exact hnone y hy hafter hbefore

/-- An end is paired with the start given, or with a start before it, and no end stands between. -/
theorem mem_pairComments {start : Option Nat} {rest : List (Kind × Nat)}
    (hrising : rest.Pairwise fun a b => a.2 < b.2) :
    ∀ p ∈ pairComments start rest, (.docClose, p.2) ∈ rest ∧
      (start = some p.1 ∧ (∀ x ∈ rest, x.2 < p.2 → x.1 ≠ .docClose) ∨ Spans rest p) := by
  fun_induction pairComments start rest with
  | case1 => simp
  | case2 start i rest ih =>
    obtain ⟨hfirst, hrising⟩ := List.pairwise_cons.mp hrising
    intro p hp
    obtain ⟨hcloser, ⟨heq, hnone⟩ | hspans⟩ := ih hrising p hp
    · cases heq
      refine ⟨List.mem_cons_of_mem _ hcloser, .inr ⟨List.mem_cons_self, hfirst _ hcloser, ?_⟩⟩
      intro x hx hafter hbefore
      rcases List.mem_cons.mp hx with rfl | hx
      · omega
      · exact hnone x hx hbefore
    · exact ⟨List.mem_cons_of_mem _ hcloser, .inr (hspans.skip hfirst)⟩
  | case3 i rest opener ih =>
    obtain ⟨hfirst, hrising⟩ := List.pairwise_cons.mp hrising
    intro p hp
    rcases List.mem_cons.mp hp with rfl | hp
    · refine ⟨List.mem_cons_self, .inl ⟨rfl, fun x hx hlt => ?_⟩⟩
      rcases List.mem_cons.mp hx with rfl | hx
      · omega
      · have := hfirst x hx
        omega
    · obtain ⟨hcloser, ⟨heq, _⟩ | hspans⟩ := ih hrising p hp
      · cases heq
      · exact ⟨List.mem_cons_of_mem _ hcloser, .inr (hspans.skip hfirst)⟩
  | case4 i rest ih =>
    obtain ⟨hfirst, hrising⟩ := List.pairwise_cons.mp hrising
    intro p hp
    obtain ⟨hcloser, ⟨heq, _⟩ | hspans⟩ := ih hrising p hp
    · cases heq
    · exact ⟨List.mem_cons_of_mem _ hcloser, .inr (hspans.skip hfirst)⟩
  | case5 start x rest _ hclose ih =>
    obtain ⟨hfirst, hrising⟩ := List.pairwise_cons.mp hrising
    intro p hp
    obtain ⟨hcloser, ⟨heq, hnone⟩ | hspans⟩ := ih hrising p hp
    · refine ⟨List.mem_cons_of_mem _ hcloser, .inl ⟨heq, fun y hy hbefore => ?_⟩⟩
      rcases List.mem_cons.mp hy with rfl | hy
      · exact fun hkind => hclose _ (Prod.ext hkind rfl)
      · exact hnone y hy hbefore
    · exact ⟨List.mem_cons_of_mem _ hcloser, .inr (hspans.skip hfirst)⟩

/-- Comments follow one another. -/
theorem pairComments_pairwise {start : Option Nat} {rest : List (Kind × Nat)}
    (hrising : rest.Pairwise fun a b => a.2 < b.2) :
    (pairComments start rest).Pairwise fun p q => p.2 < q.1 := by
  fun_induction pairComments start rest with
  | case1 => exact .nil
  | case2 start i rest ih => exact ih hrising.of_cons
  | case3 i rest opener ih =>
    obtain ⟨hfirst, hrising⟩ := List.pairwise_cons.mp hrising
    refine .cons (fun q hq => ?_) (ih hrising)
    obtain ⟨_, ⟨heq, _⟩ | hspans⟩ := mem_pairComments hrising q hq
    · cases heq
    · exact hfirst _ hspans.1
  | case4 i rest ih => exact ih hrising.of_cons
  | case5 start x rest _ _ ih => exact ih hrising.of_cons

/-- In runs, everything behind the start of a comment up to its end is a part of it. -/
theorem isDocPart_of_mem_pairComments {kinds : List Kind} (hchain : kinds.IsChain DocFollows)
    {p : Nat × Nat} (hp : p ∈ pairComments none kinds.zipIdx) :
    p.1 < p.2 ∧ p.2 < kinds.length ∧ kinds[p.1]? = some .docOpen ∧
      ∀ i, p.1 < i → i ≤ p.2 → ∃ kind, kinds[i]? = some kind ∧ kind.isDocPart := by
  obtain ⟨hcloser, ⟨heq, _⟩ | ⟨hopener, hlt, hnone⟩⟩ :=
    mem_pairComments (Brackets.pending_zipIdx kinds).rising p hp
  · cases heq
  rw [List.mem_zipIdx_iff_getElem?] at hcloser hopener
  have hlength := (List.getElem?_eq_some_iff.mp hcloser).1
  have hnext (i : Nat) (kind : Kind) (hkind : kinds[i]? = some kind)
      (hopen : kind.leavesDocOpen = true) (hi : i < p.2) :
      ∃ next, kinds[i + 1]? = some next ∧ next.isDocPart := by
    obtain ⟨_, hget⟩ := List.getElem?_eq_some_iff.mp hkind
    have hin : i + 1 < kinds.length := by omega
    have hfollows := List.isChain_iff_getElem.mp hchain i hin
    rw [hget] at hfollows
    exact ⟨kinds[i + 1], List.getElem?_eq_getElem hin, hfollows.trans hopen⟩
  refine ⟨hlt, hlength, hopener, fun i hafter => ?_⟩
  induction i, hafter using Nat.le_induction with
  | base => exact fun _ => hnext p.1 .docOpen hopener rfl hlt
  | succ i hafter ih =>
    intro hle
    obtain ⟨kind, hkind, hpart⟩ := ih (by omega)
    have hopen : kind ≠ .docClose :=
      hnone (kind, i) (List.mem_zipIdx_iff_getElem?.mpr hkind) hafter hle
    exact hnext i kind hkind (Kind.leavesDocOpen_of_isDocPart hpart hopen) hle

end Php

end PhpStyle
