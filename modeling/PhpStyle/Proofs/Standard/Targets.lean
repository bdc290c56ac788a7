import PhpStyle.Proofs.Run.Defects
import PhpStyle.Proofs.Run.Sweeping
import PhpStyle.Proofs.Standard.FunctionHead
import PhpStyle.Standard.Catalogue

/-!
# The tokens that fixes edit

Most fixes of the standard edit one token, or a row of tokens between two others. The others put
together tokens that were found in different ways: in front of a brace and at it, behind a
parenthesis and behind the brace. That these never coincide follows from their kinds and from what
stands between them. So no fix of the standard edits a token twice.
-/

namespace PhpStyle

namespace Changeset

/-- No edits have no targets. -/
@[simp] theorem targets_nil : targets [] = [] := rfl

/-- The first edit's target comes first. -/
@[simp] theorem targets_cons (e : Edit) (c : Changeset) :
    targets (e :: c) = e.target :: c.targets := rfl

/-- The targets of edits put together are those of each, in order. -/
@[simp] theorem targets_append (a b : Changeset) : targets (a ++ b) = a.targets ++ b.targets :=
  List.map_append

/-- Edits made for tokens in turn edit these tokens. -/
theorem targets_map {edit : Nat → Edit} (hedit : ∀ p, (edit p).target = p) (tokens : List Nat) :
    targets (tokens.map edit) = tokens := by
  simp [targets, Function.comp_def, hedit]

/-- Deleting tokens edits these tokens. -/
@[simp] theorem targets_map_delete (tokens : List Nat) :
    targets (tokens.map Edit.delete) = tokens :=
  targets_map (fun _ => rfl) tokens

/-- Replacing tokens edits these tokens, whatever they are replaced by. -/
@[simp] theorem targets_map_replace (tokens : List Nat) (text : Nat → String) :
    targets (tokens.map fun p => Edit.replace p (text p)) = tokens :=
  targets_map (fun _ => rfl) tokens

/-- Edits made for some of the tokens in turn edit these. -/
theorem targets_filterMap_sublist {edit : Nat → Option Edit}
    (hedit : ∀ p e, edit p = some e → e.target = p) (tokens : List Nat) :
    (targets (tokens.filterMap edit)).Sublist tokens := by
  induction tokens with
  | nil => exact .slnil
  | cons p tokens ih =>
    rw [List.filterMap_cons]
    split
    · exact ih.cons p
    · rename_i e he
      rw [targets_cons, hedit p e he]
      exact ih.cons_cons p

end Changeset

namespace Edit

/-- A text put in front of a token has that token for its target. -/
@[simp] theorem target_insert (i : Nat) (text : String) : (insert i text).target = i := rfl

/-- A text put behind a token has that token for its target. -/
@[simp] theorem target_append (i : Nat) (text : String) : (append i text).target = i := rfl

/-- A replacement has the replaced token for its target. -/
@[simp] theorem target_replace (i : Nat) (text : String) : (replace i text).target = i := rfl

/-- A deletion has the deleted token for its target. -/
@[simp] theorem target_delete (i : Nat) : (delete i).target = i := rfl

end Edit

namespace Store

variable {s : Store} {low high i j : Nat}

/-- Between two tokens every token stands once. -/
theorem nodup_between : (s.between i j).Nodup := List.nodup_range'

/-- Tokens picked in order from those between two others are picked once. -/
theorem nodup_of_sublist_between {tokens : List Nat} (h : tokens.Sublist (s.between i j)) :
    tokens.Nodup :=
  h.nodup nodup_between

/-- The tokens on lines between two others are picked from the given ones in order. -/
theorem onLinesBetween_sublist (tokens : List Nat) :
    (s.onLinesBetween low high tokens).Sublist tokens :=
  List.filter_sublist.trans (List.takeWhile_sublist _)

/-- Neither end of a stretch lies between its ends. -/
theorem not_mem_of_sublist_between {tokens : List Nat} (h : tokens.Sublist (s.between i j)) :
    i ∉ tokens ∧ j ∉ tokens := by
  constructor
  · intro hmem
    have := Store.mem_between.mp (h.mem hmem)
    omega
  · intro hmem
    have := Store.mem_between.mp (h.mem hmem)
    omega

end Store

namespace Finding

variable {f : Finding}

/-- A finding without a fix edits nothing twice. -/
theorem editsOnce_of_none (h : f.fix = none) : f.EditsOnce := by
  intro c hc
  rw [h] at hc
  cases hc

/-- A finding edits each token once if the targets of its fix are distinct. -/
theorem editsOnce_of_some {c : Changeset} (h : f.fix = some c) (hc : c.targets.Nodup) :
    f.EditsOnce := by
  intro c' hc'
  rw [h] at hc'
  cases hc'
  exact hc

/-- A fix of one edit cannot edit a token twice. -/
theorem editsOnce_singleton {e : Edit} (h : f.fix = some [e]) : f.EditsOnce :=
  editsOnce_of_some h (List.nodup_singleton _)

/-- A fix that is one edit or none cannot edit a token twice. -/
theorem editsOnce_unless {p : Prop} [Decidable p] {e : Edit}
    (h : f.fix = if p then none else some [e]) : f.EditsOnce := by
  split at h
  · exact editsOnce_of_none h
  · exact editsOnce_singleton h

end Finding

open Finding

section

variable {settings : Settings} {s : Store} {newline : String} {i : Nat}

namespace FileHeader

/-- A `declare` is moved by replacing the open tag and deleting tokens behind it, or the tokens
between the two are deleted. -/
theorem declareFindings_editsOnce : ∀ f ∈ declareFindings s i, f.EditsOnce := by
  unfold declareFindings
  split
  · simp
  rename_i declare_ hdeclare
  have hle : i ≤ declare_ := (Store.scanUp_eq_some hdeclare).1
  split
  · rename_i hline
    have hne : i ≠ declare_ := by
      rintro rfl
      simp [Store.sameLine] at hline
    simp only [List.mem_singleton]
    rintro _ rfl c hc
    obtain ⟨last, _, rfl⟩ := Option.map_eq_some_iff.mp hc
    simp only [Changeset.targets_cons, Changeset.deleteRange, Changeset.targets_map_delete]
    refine List.nodup_cons.mpr ⟨?_, List.nodup_range'⟩
    simp only [Edit.target_replace, List.mem_range'_1]
    omega
  split
  · simp only [List.mem_singleton]
    rintro _ rfl
    exact editsOnce_of_some rfl (by simpa using Store.nodup_between)
  · simp

/-- Blank lines in front of a namespace are fixed by deleting distinct tokens, or by one edit. -/
theorem emptyLineFindings_editsOnce : ∀ f ∈ emptyLineFindings s newline i, f.EditsOnce := by
  unfold emptyLineFindings
  dsimp only
  split
  · simp
  simp only [List.mem_singleton]
  rintro _ rfl
  split
  · refine editsOnce_of_some rfl ?_
    rw [Changeset.targets_map_delete]
    exact ((List.take_sublist ..).trans List.filter_sublist).nodup List.nodup_range
  · exact editsOnce_singleton rfl

/-- What is found of the name of a file has no fix. -/
theorem nameFindings_editsOnce : ∀ f ∈ nameFindings s i, f.EditsOnce := by
  unfold nameFindings
  dsimp only
  split
  · simp
  simp only [List.mem_singleton]
  rintro _ rfl
  split
  · exact editsOnce_of_none rfl
  · refine editsOnce_of_some rfl ?_
    rw [Changeset.targets_map_replace]
    have hparts : (nameParts s i).Sublist (s.between (i + 1)
        ((s.findNext (.oneOf [.semicolon, .openCurly, .closeTag]) i none).getD s.size)) :=
      List.filter_sublist
    exact Store.nodup_of_sublist_between
      (List.filter_sublist.trans (List.filter_sublist.trans hparts))

/-- No fix for the head of a file edits a token twice. -/
theorem findings_editsOnce : ∀ f ∈ findings settings (.ofStore s) i, f.EditsOnce := by
  unfold findings
  dsimp only
  split
  · simp
  intro f hf
  rcases List.mem_append.mp hf with hf | hf
  · exact declareFindings_editsOnce f hf
  · split at hf
    · cases hf
    · rcases List.mem_append.mp hf with hf | hf
      · exact emptyLineFindings_editsOnce f hf
      · exact nameFindings_editsOnce f hf

end FileHeader

/-- The keyword of an array and its two parentheses are three tokens. -/
theorem ArrayLiteral.findings_editsOnce (hs : Php.Sound s) (hkind : s.kind i = .kwArray) :
    ∀ f ∈ findings (.ofStore s) i, f.EditsOnce := by
  simp only [findings, List.mem_singleton]
  rintro _ rfl c hc
  obtain ⟨g, hg, rfl⟩ := Option.map_eq_some_iff.mp hc
  obtain ⟨hlt, hopen, hclose⟩ := hs.paren i g hg
  have hopener : i ≠ g.opener := by
    rintro rfl
    rw [hopen] at hkind
    cases hkind
  have hcloser : i ≠ g.closer := by
    rintro rfl
    rw [hclose] at hkind
    cases hkind
  simp only [Changeset.targets_cons, Changeset.targets_nil, Edit.target_replace, List.nodup_cons,
    List.mem_cons, List.not_mem_nil, or_false, not_or, not_false_iff, List.nodup_nil, and_true]
  omega

/-- A brace is parted from a keyword by one edit, and a comment behind a keyword is left alone. -/
theorem BracePlacement.findings_editsOnce :
    ∀ f ∈ braceFindings settings (.ofStore s) i ++ commentFindings s i, f.EditsOnce := by
  intro f hf
  rcases List.mem_append.mp hf with hf | hf
  · obtain ⟨c, _, rfl⟩ := List.mem_map.mp hf
    unfold breakBehind
    dsimp only
    split
    · split <;> exact editsOnce_singleton rfl
    · exact editsOnce_singleton rfl
  · unfold commentFindings at hf
    split at hf
    · obtain rfl := List.mem_singleton.mp hf
      exact editsOnce_of_none rfl
    · cases hf

namespace TryCatch

/-- The blank behind a keyword is put right by one edit. -/
theorem keywordBlank_editsOnce : ∀ f ∈ keywordBlank s i, f.EditsOnce := by
  unfold keywordBlank
  dsimp only
  split
  · split
    · simp
    · simp only [List.mem_singleton]
      rintro _ rfl
      exact editsOnce_singleton rfl
  · split
    · simp
    · simp only [List.mem_singleton]
      rintro _ rfl
      exact editsOnce_singleton rfl

/-- The tokens cleared behind a brace that moves to its parenthesis are neither. -/
theorem joinBrace_nodup {closer opener : Nat} (hclose : s.kind closer = .closeParen)
    (hopen : s.kind opener = .openCurly) (blank : Bool) :
    (joinBrace s closer opener blank).targets.Nodup := by
  have hne : closer ≠ opener := by
    rintro rfl
    rw [hclose] at hopen
    cases hopen
  have hmove : (Changeset.targets
      [.append closer (" " ++ s.text opener), .replace opener ""]).Nodup := by
    simpa using hne
  unfold joinBrace clear
  dsimp only
  split
  · exact List.nodup_singleton _
  split
  · rw [Changeset.targets_cons, Changeset.targets_map_replace]
    exact List.nodup_cons.mpr ⟨(Store.not_mem_of_sublist_between (List.Sublist.refl _)).1,
      Store.nodup_between⟩
  split
  · exact hmove
  split
  · rename_i next hnext
    split
    · exact hmove
    · obtain ⟨_, _, _, hblank⟩ := Store.nextVisible?_eq_some hnext
      rw [Changeset.targets_append, Changeset.targets_map_replace]
      refine List.nodup_append.mpr ⟨hmove, Store.nodup_between, ?_⟩
      rintro a ha b hb rfl
      obtain ⟨hlow, hhigh⟩ := Store.mem_between.mp hb
      have hkind := hblank a hlow hhigh
      simp only [Changeset.targets_cons, Changeset.targets_nil, Edit.target_append,
        Edit.target_replace, List.mem_cons, List.not_mem_nil, or_false] at ha
      rcases ha with rfl | rfl
      · rw [hclose] at hkind
        cases hkind
      · omega
  · exact hmove

/-- The blank between a closing parenthesis and a brace is put right by edits of distinct tokens. -/
theorem parenBlank_editsOnce (hs : Php.Sound s) :
    ∀ f ∈ parenBlank settings (.ofStore s) i, f.EditsOnce := by
  intro f hf
  unfold parenBlank at hf
  dsimp only [File.ofStore_store] at hf
  split at hf
  · rename_i parens scope hparens hscope
    have hclose := (hs.paren i parens hparens).2.2
    have hopen := (hs.scope i scope hscope).2.1
    obtain ⟨_, hf⟩ := List.mem_ite_nil_left.mp hf
    obtain rfl := List.mem_singleton.mp hf
    exact editsOnce_of_some rfl (joinBrace_nodup hclose hopen _)
  · cases hf

/-- The line is broken at the opening brace, and the blanks behind it are cleared, which are other
tokens. -/
theorem braceBreak_editsOnce : ∀ f ∈ braceBreak settings (.ofStore s) i, f.EditsOnce := by
  unfold braceBreak clear
  dsimp only [File.ofStore_store]
  split
  · simp
  rename_i scope hscope
  split
  · simp
  rename_i next hnext
  split
  · simp
  simp only [List.mem_singleton]
  rintro _ rfl
  refine editsOnce_of_some rfl ?_
  rw [Changeset.targets_append, Changeset.targets_map_replace]
  have hsub := List.takeWhile_sublist (l := s.between scope.opener next) fun p =>
      Text.isBlank (s.text p)
  refine List.nodup_append.mpr ⟨Store.nodup_of_sublist_between hsub, List.nodup_singleton _, ?_⟩
  rintro a ha b hb rfl
  obtain rfl := List.mem_singleton.mp hb
  exact (Store.not_mem_of_sublist_between hsub).1 ha

/-- The blank behind a closing brace is put right by one edit or none. -/
theorem closeBraceBlank_editsOnce : ∀ f ∈ closeBraceBlank s i, f.EditsOnce := by
  intro f hf
  unfold closeBraceBlank at hf
  dsimp only at hf
  split at hf
  · cases hf
  obtain ⟨_, hf⟩ := List.mem_ite_nil_left.mp hf
  obtain rfl := List.mem_singleton.mp hf
  exact editsOnce_unless rfl

/-- No fix for the parts of a `try` edits a token twice. -/
theorem findings_editsOnce (hs : Php.Sound s) :
    ∀ f ∈ findings settings (.ofStore s) i, f.EditsOnce := by
  unfold findings
  dsimp only [File.ofStore_store]
  split
  · simp
  intro f hf
  simp only [List.mem_append] at hf
  rcases hf with ((hf | hf) | hf) | hf
  · exact keywordBlank_editsOnce f hf
  · exact parenBlank_editsOnce hs f hf
  · exact braceBreak_editsOnce f hf
  · exact closeBraceBlank_editsOnce f hf

end TryCatch

/-- Keywords behind braces are only reported. -/
theorem Continuation.findings_editsOnce :
    ∀ f ∈ keywordFindings s i ++ braceFindings s i, f.EditsOnce := by
  intro f hf
  rcases List.mem_append.mp hf with hf | hf
  · obtain ⟨_, _, rfl⟩ := List.mem_map.mp hf
    exact editsOnce_of_none rfl
  · unfold braceFindings at hf
    split at hf
    · cases hf
    · obtain ⟨_, _, rfl⟩ := List.mem_map.mp hf
      exact editsOnce_of_none rfl

namespace Condition

variable {g : Group} {style : IndentStyle}

/-- The blank behind an opening parenthesis goes with one edit. -/
theorem openBlank_editsOnce : ∀ f ∈ openBlank s g, f.EditsOnce := by
  intro f hf
  obtain ⟨_, hf⟩ := List.mem_ite_nil_right.mp hf
  obtain rfl := List.mem_singleton.mp hf
  exact editsOnce_singleton rfl

/-- The blank in front of a closing parenthesis is put right by one edit. -/
theorem closeBlank_editsOnce : ∀ f ∈ closeBlank s newline g, f.EditsOnce := by
  intro f hf
  obtain ⟨_, hf⟩ := List.mem_ite_nil_right.mp hf
  obtain rfl := List.mem_singleton.mp hf
  exact editsOnce_singleton rfl

/-- The line is broken at the opening parenthesis, and the tokens of the blank lines behind it
go. -/
theorem firstLine_editsOnce {next : Nat} : ∀ f ∈ firstLine s newline g next, f.EditsOnce := by
  intro f hf
  obtain ⟨_, hf⟩ := List.mem_ite_nil_left.mp hf
  obtain rfl := List.mem_singleton.mp hf
  refine editsOnce_of_some rfl ?_
  rw [Changeset.targets_append, Changeset.targets_map_delete]
  have hsub : (if s.line g.opener + 1 < s.line next then
      (s.between g.opener next).takeWhile fun p => !s.sameLine p next else []).Sublist
        (s.between g.opener next) := by
    split
    · exact List.takeWhile_sublist _
    · exact List.nil_sublist _
  refine List.nodup_append.mpr ⟨Store.nodup_of_sublist_between hsub, List.nodup_singleton _, ?_⟩
  rintro a ha b hb rfl
  obtain rfl := List.mem_singleton.mp hb
  exact (Store.not_mem_of_sublist_between hsub).1 ha

/-- Each line of a condition is indented by one edit. -/
theorem lineIndents_editsOnce {required : Nat} :
    ∀ f ∈ lineIndents s style g required, f.EditsOnce := by
  intro f hf
  obtain ⟨_, _, hfinding⟩ := List.mem_filterMap.mp hf
  obtain ⟨_, _, rfl⟩ := Option.map_eq_some_iff.mp hfinding
  exact editsOnce_singleton rfl

/-- A closing parenthesis gets a line of its own by one edit. -/
theorem closeLine_editsOnce {prev : Nat} : ∀ f ∈ closeLine s newline g prev, f.EditsOnce := by
  intro f hf
  obtain ⟨_, hf⟩ := List.mem_ite_nil_left.mp hf
  obtain rfl := List.mem_singleton.mp hf
  split
  · exact editsOnce_singleton rfl
  · refine editsOnce_of_some rfl ?_
    rw [Changeset.targets_map_delete]
    exact Store.nodup_of_sublist_between (Store.onLinesBetween_sublist _)

/-- The line of a closing parenthesis is indented by one edit. -/
theorem closeIndent_editsOnce {first prev : Nat} :
    ∀ f ∈ closeIndent s style g first prev, f.EditsOnce := by
  intro f hf
  obtain ⟨_, hf⟩ := List.mem_ite_nil_left.mp hf
  obtain rfl := List.mem_singleton.mp hf
  exact editsOnce_singleton rfl

/-- A closing parenthesis is joined to what stands before it by one edit or none. -/
theorem joinClose_editsOnce {prev : Nat} : ∀ f ∈ joinClose s g prev, f.EditsOnce := by
  intro f hf
  obtain ⟨_, hf⟩ := List.mem_ite_nil_right.mp hf
  obtain rfl := List.mem_singleton.mp hf
  intro c hc
  obtain ⟨_, _, rfl⟩ := Option.map_eq_some_iff.mp hc
  exact List.nodup_singleton _

/-- No fix of the strict rule for conditions edits a token twice. -/
theorem strictFindings_editsOnce : ∀ f ∈ strictFindings settings (.ofStore s) i, f.EditsOnce := by
  unfold strictFindings
  dsimp only
  intro f hf
  split at hf
  · cases hf
  split at hf
  · rcases List.mem_append.mp hf with hf | hf
    · exact openBlank_editsOnce f hf
    · exact closeBlank_editsOnce f hf
  split at hf
  · cases hf
  simp only [List.mem_append] at hf
  rcases hf with ((hf | hf) | hf) | hf
  · exact firstLine_editsOnce f hf
  · exact lineIndents_editsOnce f hf
  · exact closeLine_editsOnce f hf
  · exact closeIndent_editsOnce f hf

/-- No fix of the lenient rule for conditions edits a token twice. -/
theorem lenientFindings_editsOnce : ∀ f ∈ lenientFindings settings (.ofStore s) i, f.EditsOnce := by
  unfold lenientFindings
  dsimp only
  intro f hf
  split at hf
  · cases hf
  split at hf
  · exact strictFindings_editsOnce f hf
  split at hf
  · cases hf
  split at hf
  · exact strictFindings_editsOnce f hf
  simp only [singleExpression, List.mem_append] at hf
  rcases hf with (hf | hf) | hf
  · exact lineIndents_editsOnce f hf
  · exact joinClose_editsOnce f hf
  · exact closeIndent_editsOnce f hf

end Condition

namespace ClosingBrace

/-- Every promoted property is put on a line of its own by one edit. -/
theorem promotions_editsOnce {occupied tokens : List Nat} :
    ∀ f ∈ promotions s newline occupied tokens, f.EditsOnce := by
  induction tokens generalizing occupied with
  | nil => simp [promotions]
  | cons p rest ih =>
    rw [promotions]
    split
    · exact List.forall_mem_cons.mpr ⟨editsOnce_singleton rfl, ih⟩
    · exact ih

/-- The properties of a constructor are parted by one edit each, and its braces are joined by
deleting what stands between them. -/
theorem constructorFindings_editsOnce {scope : Group} :
    ∀ f ∈ constructorFindings s newline i scope, f.EditsOnce := by
  intro f hf
  rcases List.mem_append.mp hf with hf | hf
  · split at hf
    · cases hf
    · exact promotions_editsOnce f hf
  · obtain ⟨_, hf⟩ := List.mem_ite_nil_left.mp hf
    obtain rfl := List.mem_singleton.mp hf
    exact editsOnce_of_some rfl (by simpa using Store.nodup_between)

/-- The line of a closing brace is indented by one edit. -/
theorem indentFindings_editsOnce {lineStart closer : Nat} :
    ∀ f ∈ indentFindings settings s lineStart closer, f.EditsOnce := by
  intro f hf
  obtain ⟨_, hf⟩ := List.mem_ite_nil_left.mp hf
  obtain rfl := List.mem_singleton.mp hf
  split
  · exact editsOnce_singleton rfl
  · intro c hc
    obtain ⟨_, _, rfl⟩ := Option.map_eq_some_iff.mp hc
    exact List.nodup_singleton _

/-- No fix of the rule for closing braces edits a token twice. -/
theorem findings_editsOnce : ∀ f ∈ findings settings (.ofStore s) i, f.EditsOnce := by
  unfold findings
  dsimp only
  intro f hf
  split at hf
  · cases hf
  split at hf
  · cases hf
  split at hf
  · obtain rfl := List.mem_singleton.mp hf
    exact editsOnce_singleton rfl
  rcases List.mem_append.mp hf with hf | hf
  · split at hf
    · exact constructorFindings_editsOnce f hf
    · cases hf
  · split at hf
    · exact indentFindings_editsOnce f hf
    · cases hf

end ClosingBrace

/-- A comma is put behind an argument by one edit. -/
theorem TrailingComma.findings_editsOnce : ∀ f ∈ findings (.ofStore s) i, f.EditsOnce := by
  unfold findings
  dsimp only
  intro f hf
  split at hf
  · cases hf
  split at hf
  · cases hf
  obtain ⟨_, hf⟩ := List.mem_ite_nil_left.mp hf
  obtain rfl := List.mem_singleton.mp hf
  exact editsOnce_singleton rfl

namespace BraceBelow

variable {brace prev : Nat}

/-- An opening brace on the line of the head is put on the next by one edit at the brace, and one at
the blank in front of it. -/
theorem onSameLine_editsOnce (hbrace : s.kind brace = .openCurly) :
    ∀ f ∈ onSameLine s newline brace, f.EditsOnce := by
  intro f hf
  obtain rfl := List.mem_singleton.mp hf
  refine editsOnce_of_some rfl ?_
  by_cases hspace : s.kind (brace - 1) = .whitespace
  · have hne : brace ≠ brace - 1 := by
      intro heq
      rw [← heq, hbrace] at hspace
      cases hspace
    simpa [hspace] using hne
  · simp [hspace]

/-- The blank lines in front of a brace that stands too far below go by edits of distinct tokens. -/
theorem tooFarBelow_editsOnce {closer : Nat} :
    ∀ f ∈ tooFarBelow s newline closer prev brace, f.EditsOnce := by
  intro f hf
  obtain rfl := List.mem_singleton.mp hf
  intro c hc
  dsimp only at hc
  split at hc
  · cases hc
    refine Store.nodup_of_sublist_between (Changeset.targets_filterMap_sublist (fun p e he => ?_) _)
    split at he
    · cases he
      rfl
    · split at he
      · cases he
        rfl
      · cases he
  · cases hc

/-- What follows an opening brace on its line is put on the next by one edit. -/
theorem contentBehind_editsOnce {scope : Group} :
    ∀ f ∈ contentBehind s newline scope, f.EditsOnce := by
  unfold contentBehind
  dsimp only
  intro f hf
  split at hf
  · cases hf
  obtain ⟨_, hf⟩ := List.mem_ite_nil_right.mp hf
  obtain rfl := List.mem_singleton.mp hf
  exact editsOnce_singleton rfl

/-- The line of an opening brace is indented by one edit. -/
theorem indentFindings_editsOnce : ∀ f ∈ indentFindings settings s i brace, f.EditsOnce := by
  intro f hf
  obtain ⟨_, hf⟩ := List.mem_ite_nil_left.mp hf
  obtain rfl := List.mem_singleton.mp hf
  exact editsOnce_singleton rfl

/-- No fix of the rule for the braces of functions edits a token twice. -/
theorem findings_editsOnce (hs : Php.Sound s) :
    ∀ f ∈ findings settings (.ofStore s) i, f.EditsOnce := by
  unfold findings
  dsimp only [File.ofStore_store]
  intro f hf
  split at hf
  · rename_i scope parens hscope hparens
    obtain ⟨_, hbrace, _⟩ := hs.scope i scope hscope
    obtain ⟨_, hf⟩ := List.mem_ite_nil_left.mp hf
    rcases List.mem_append.mp hf with hf | hf
    · rcases List.mem_append.mp hf with hf | hf
      · split at hf
        · exact onSameLine_editsOnce hbrace f hf
        · obtain ⟨_, hf⟩ := List.mem_ite_nil_right.mp hf
          exact tooFarBelow_editsOnce f hf
      · exact contentBehind_editsOnce f hf
    · obtain ⟨_, hf⟩ := List.mem_ite_nil_right.mp hf
      exact indentFindings_editsOnce f hf
  · cases hf

end BraceBelow

namespace Declaration

/-- The closing parenthesis of a head gets a line of its own by one edit. -/
theorem closeLine_editsOnce {g : Group} : ∀ f ∈ closeLine s newline g, f.EditsOnce := by
  unfold closeLine
  intro f hf
  split at hf
  · cases hf
  obtain ⟨_, hf⟩ := List.mem_ite_nil_left.mp hf
  obtain rfl := List.mem_singleton.mp hf
  exact editsOnce_singleton rfl

/-- The blank in front of the brace of a head is put right by one edit. -/
theorem braceBlank_editsOnce {before : Nat} : ∀ f ∈ braceBlank s before, f.EditsOnce := by
  intro f hf
  obtain ⟨_, hf⟩ := List.mem_ite_nil_left.mp hf
  obtain rfl := List.mem_singleton.mp hf
  exact editsOnce_singleton rfl

/-- The end of a declaration is code and not its brace, so it is none of the tokens taken away
around the brace. -/
theorem raiseBrace_nodup (hs : Php.Sound s) {closer brace : Nat}
    (hcloser : s.kind closer = .closeParen) (hbrace : s.kind brace = .openCurly) :
    (raiseBrace s ((s.prevCodeDownTo? brace closer).getD closer)
      ((s.prevVisible? brace (some closer)).getD closer) brace).targets.Nodup := by
  have hprev : s.kind ((s.prevCodeDownTo? brace closer).getD closer) ≠ .whitespace ∧
      (s.prevCodeDownTo? brace closer).getD closer ≠ brace := by
    cases hfound : s.prevCodeDownTo? brace closer with
    | some prev =>
      obtain ⟨_, hlt, hcode, _⟩ := Store.prevCodeDownTo?_eq_some hfound
      refine ⟨fun hspace => ?_, Nat.ne_of_lt hlt⟩
      rw [Option.getD_some] at hspace
      simp [hspace, Kind.isTrivia] at hcode
    | none =>
      refine ⟨by simp [hcloser], fun heq => ?_⟩
      rw [Option.getD_none] at heq
      rw [heq, hbrace] at hcloser
      cases hcloser
  generalize (s.prevCodeDownTo? brace closer).getD closer = prev at hprev
  obtain ⟨hcode, hne⟩ := hprev
  unfold raiseBrace
  dsimp only
  split
  · rename_i halone
    obtain ⟨hline, hbelow⟩ := halone
    obtain ⟨next, hnext, _⟩ := (Option.any_eq_true _ _).mp hbelow
    obtain ⟨_, hbefore⟩ := blank_before_brace hs hcloser hline
    obtain ⟨_, _, _, hbehind⟩ := Store.nextVisible?_eq_some hnext
    rw [hnext, Option.getD_some, Changeset.targets_cons, Changeset.targets_map_replace]
    refine List.nodup_cons.mpr ⟨fun hmem => ?_, Store.nodup_between.filter _⟩
    obtain ⟨hlow, hhigh⟩ := Store.mem_between.mp (List.mem_of_mem_filter hmem)
    simp only [Edit.target_append] at hlow hhigh
    rcases Nat.lt_trichotomy prev brace with hlt | heq | hgt
    · exact hcode (hbefore prev hlow hlt)
    · exact hne heq
    · exact hcode (hbehind prev hgt hhigh)
  · split
    · rename_i hgap
      obtain ⟨next, hnext, hgap⟩ := (Option.any_eq_true _ _).mp hgap
      obtain ⟨hlt, _, _, hbehind⟩ := Store.nextVisible?_eq_some hnext
      have hbelow : next ≠ brace + 1 := by simpa using (Bool.and_eq_true_iff.mp hgap).2
      have hspace := hbehind (brace + 1) (by omega) (by omega)
      have hother : prev ≠ brace + 1 := fun heq => hcode (heq ▸ hspace)
      simp [hne, hother]
    · simp [hne]

/-- A brace is raised to the line of the parenthesis by edits of the tokens between the two and
behind the brace. -/
theorem braceLine_editsOnce (hs : Php.Sound s) {closer brace : Nat}
    (hcloser : s.kind closer = .closeParen) (hbrace : s.kind brace = .openCurly) :
    ∀ f ∈ braceLine s closer brace, f.EditsOnce := by
  intro f hf
  obtain rfl := List.mem_singleton.mp hf
  intro c hc
  dsimp only at hc
  split at hc
  · cases hc
  · cases hc
    exact raiseBrace_nodup hs hcloser hbrace

/-- No fix for the head of a function of several lines edits a token twice. -/
theorem multiLine_editsOnce (hs : Php.Sound s) {parens : Group}
    (hparens : s.paren? i = some parens) : ∀ f ∈ multiLine s newline i parens, f.EditsOnce := by
  have hlists : ∀ f ∈ closeLine s newline parens ++
      (useParens? s i parens.closer).toList.flatMap (closeLine s newline), f.EditsOnce := by
    intro f hf
    rcases List.mem_append.mp hf with hf | hf
    · exact closeLine_editsOnce f hf
    · obtain ⟨_, _, hf⟩ := List.mem_flatMap.mp hf
      exact closeLine_editsOnce f hf
  unfold multiLine
  dsimp only
  intro f hf
  split at hf
  · exact hlists f hf
  rename_i scope hscope
  rcases List.mem_append.mp hf with hf | hf
  · exact hlists f hf
  · split at hf
    · exact braceBlank_editsOnce f hf
    · exact braceLine_editsOnce hs (closer_spec hs hparens) (hs.scope i scope hscope).2.1 f hf

/-- No fix of the rule for the heads of functions edits a token twice. -/
theorem findings_editsOnce (hs : Php.Sound s) :
    ∀ f ∈ findings settings (.ofStore s) i, f.EditsOnce := by
  unfold findings
  dsimp only [File.ofStore_store]
  intro f hf
  split at hf
  · cases hf
  rename_i parens hparens
  split at hf
  · exact multiLine_editsOnce hs hparens f hf
  unfold singleLine at hf
  dsimp only at hf
  split at hf
  · exact BraceBelow.findings_editsOnce hs f hf
  obtain ⟨_, hf⟩ := List.mem_ite_nil_left.mp hf
  split at hf
  · obtain rfl := List.mem_singleton.mp hf
    exact editsOnce_singleton rfl
  · exact BraceBelow.findings_editsOnce hs f hf

end Declaration

namespace DocLayout

/-- Whatever is cleared between two tokens is cleared once. -/
theorem clearing_nodup {j : Nat} {tokens : List Nat} (h : tokens.Sublist (s.between i j)) :
    ∀ c, clearing tokens = some c → c.targets.Nodup := by
  intro c hc
  unfold clearing at hc
  split at hc
  · cases hc
  · cases hc
    rw [Changeset.targets_map_replace]
    exact Store.nodup_of_sublist_between h

/-- What follows the opening tag of a comment on its line is put on the next by an edit of each of
the two. -/
theorem contentBehindOpen_editsOnce {tag short : Nat} (hlt : tag < short) :
    ∀ f ∈ contentBehindOpen s newline tag short, f.EditsOnce := by
  intro f hf
  obtain ⟨_, hf⟩ := List.mem_ite_nil_right.mp hf
  obtain rfl := List.mem_singleton.mp hf
  exact editsOnce_of_some rfl (by simpa using Nat.ne_of_lt hlt)

/-- The gaps around the descriptions of a comment are cleared, token by token. -/
theorem descriptions_editsOnce {tag short close : Nat} :
    ∀ f ∈ descriptions s tag short close, f.EditsOnce := by
  unfold descriptions
  dsimp only
  intro f hf
  split at hf
  · obtain rfl := List.mem_singleton.mp hf
    exact editsOnce_of_none rfl
  rcases List.mem_append.mp hf with hf | hf
  · rcases List.mem_append.mp hf with hf | hf
    · obtain ⟨_, hf⟩ := List.mem_ite_nil_left.mp hf
      obtain rfl := List.mem_singleton.mp hf
      exact clearing_nodup (Store.onLinesBetween_sublist _)
    · obtain ⟨_, hf⟩ := List.mem_ite_nil_right.mp hf
      obtain rfl := List.mem_singleton.mp hf
      exact editsOnce_of_none rfl
  · obtain ⟨long, _, hf⟩ := List.mem_flatMap.mp hf
    rcases List.mem_append.mp hf with hf | hf
    · obtain ⟨_, hf⟩ := List.mem_ite_nil_left.mp hf
      obtain rfl := List.mem_singleton.mp hf
      exact clearing_nodup (Store.onLinesBetween_sublist _)
    · obtain ⟨_, hf⟩ := List.mem_ite_nil_right.mp hf
      obtain rfl := List.mem_singleton.mp hf
      exact editsOnce_of_none rfl

/-- The next part of a comment lies behind. -/
theorem lt_of_nextPart? {stop : Option Nat} {short : Nat} (h : nextPart? s i stop = some short) :
    i < short := by
  obtain ⟨first, hfirst, hfound⟩ := Option.bind_eq_some_iff.mp h
  have hle := (Store.scanUp_eq_some hfound).1
  rw [Store.next?, Store.index?] at hfirst
  split at hfirst
  · cases hfirst
    omega
  · cases hfirst

/-- No fix of the rule for the layout of comments edits a token twice. -/
theorem findings_editsOnce : ∀ f ∈ findings settings (.ofStore s) i, f.EditsOnce := by
  unfold findings
  dsimp only [File.ofStore_store]
  intro f hf
  split at hf
  · cases hf
  split at hf
  · obtain rfl := List.mem_singleton.mp hf
    exact editsOnce_of_none rfl
  rename_i short hshort
  simp only [List.mem_append] at hf
  rcases hf with ((hf | hf) | hf) | hf
  · exact contentBehindOpen_editsOnce (lt_of_nextPart? hshort) f hf
  · obtain ⟨_, hf⟩ := List.mem_ite_nil_right.mp hf
    obtain rfl := List.mem_singleton.mp hf
    exact editsOnce_singleton rfl
  · obtain ⟨_, hf⟩ := List.mem_ite_nil_right.mp hf
    obtain rfl := List.mem_singleton.mp hf
    exact clearing_nodup (List.takeWhile_sublist _)
  · exact descriptions_editsOnce f hf

end DocLayout

/-- No fix of the rule for comments of one type edits a token twice. -/
theorem DocComment.findings_editsOnce : ∀ f ∈ findings settings (.ofStore s) i, f.EditsOnce := by
  unfold findings
  dsimp only [File.ofStore_store]
  intro f hf
  split at hf
  · cases hf
  rename_i close hclose
  obtain ⟨_, hf⟩ := List.mem_ite_nil_left.mp hf
  split at hf
  · obtain rfl := List.mem_singleton.mp hf
    refine editsOnce_of_some rfl ?_
    have htargets (p : Nat) :
        (if s.kind p = .docTag ∨ s.kind p = .docText then Edit.append p " "
          else .replace p "").target = p := by
      split <;> rfl
    rw [toOneLine, Changeset.targets_cons, Changeset.targets_map htargets]
    exact List.nodup_cons.mpr
      ⟨(Store.not_mem_of_sublist_between (List.Sublist.refl _)).1, Store.nodup_between⟩
  · exact DocLayout.findings_editsOnce f hf

/-- Names are left to the reader. -/
theorem MethodName.fix_eq_none : ∀ f ∈ rule.runAt (.ofStore s) i, f.fix = none := by
  intro f hf
  obtain ⟨found, hfound, rfl⟩ := List.mem_map.mp hf
  simp only [rule, Rule.runCheck] at hfound
  split at hfound
  · cases hfound
  obtain ⟨_, _, hfound⟩ := List.mem_flatMap.mp hfound
  unfold memberFindings at hfound
  dsimp only at hfound
  obtain ⟨_, hfound⟩ := List.mem_ite_nil_left.mp hfound
  split at hfound
  · cases hfound
  obtain ⟨_, hfound⟩ := List.mem_ite_nil_left.mp hfound
  obtain rfl := List.mem_singleton.mp hfound
  rfl

end

namespace Catalogue

/-- A rule of the standard or one of the general rules, under some settings. -/
def Provides (rule : Rule) : Prop :=
  ∃ settings, rule ∈ rules settings ++ generalRules settings

/-- What holds of all that a rule without scopes finds, under whatever name, holds of all that it
reports. -/
theorem forall_runAt_anywhere {P : Finding → Prop}
    (hnamed : ∀ name f, P f → P { f with rule := name }) {name description : String}
    {kinds : List Kind} {run : File → Nat → List Finding} {file : File} {i : Nat}
    (h : ∀ f ∈ run file i, P f) :
    ∀ f ∈ Rule.runAt ⟨name, description, kinds, .anywhere run⟩ file i, P f := by
  intro f hf
  obtain ⟨found, hfound, rfl⟩ := List.mem_map.mp hf
  exact hnamed name found (h found hfound)

/-- Whatever a rule of the catalogue finds at a token that it looks at edits no token twice. -/
theorem Provides.editsOnce {rule : Rule} (hrule : Provides rule) {s : Store}
    (hs : Php.Sound s) {i : Nat} (hkind : s.kind i ∈ rule.kinds) :
    ∀ f ∈ rule.runAt (.ofStore s) i, f.EditsOnce := by
  have hnamed : ∀ name (f : Finding), f.EditsOnce → { f with rule := name }.EditsOnce :=
    fun _ _ h => h
  obtain ⟨settings, hmem⟩ := hrule
  simp only [rules, generalRules, List.cons_append, List.nil_append, List.mem_cons,
    List.not_mem_nil, or_false] at hmem
  rcases hmem with rfl | rfl | rfl | rfl | rfl | rfl | rfl | rfl | rfl | rfl | rfl | rfl | rfl | rfl
  · exact forall_runAt_anywhere hnamed FileHeader.findings_editsOnce
  · exact forall_runAt_anywhere hnamed
      (ArrayLiteral.findings_editsOnce hs (by simpa [ArrayLiteral.rule] using hkind))
  · exact forall_runAt_anywhere hnamed BracePlacement.findings_editsOnce
  · exact forall_runAt_anywhere hnamed (TryCatch.findings_editsOnce hs)
  · exact forall_runAt_anywhere hnamed Continuation.findings_editsOnce
  · exact forall_runAt_anywhere hnamed Condition.lenientFindings_editsOnce
  · exact forall_runAt_anywhere hnamed ClosingBrace.findings_editsOnce
  · exact forall_runAt_anywhere hnamed TrailingComma.findings_editsOnce
  · exact forall_runAt_anywhere hnamed (Declaration.findings_editsOnce hs)
  · exact forall_runAt_anywhere hnamed DocComment.findings_editsOnce
  · exact fun f hf => editsOnce_of_none (MethodName.fix_eq_none f hf)
  · exact forall_runAt_anywhere hnamed DocLayout.findings_editsOnce
  · exact forall_runAt_anywhere hnamed Condition.strictFindings_editsOnce
  · exact forall_runAt_anywhere hnamed (BraceBelow.findings_editsOnce hs)

/-- Engines with rules of the catalogue make no fix that edits a token twice. -/
theorem editsOnce_ofRules {chosen : List Rule} (hchosen : ∀ rule ∈ chosen, Provides rule) :
    (Engine.ofRules Php.tokenize chosen).EditsOnce := by
  intro text store hstore f hf
  obtain ⟨found, hfound, hbuild⟩ := Php.exists_tokenize text
  obtain rfl : found = store := Except.ok.inj (hfound.symm.trans hstore)
  obtain ⟨i, _, rule, hrule, hkind, hf⟩ := Engine.mem_findings_iff.mp hf
  exact (hchosen rule hrule).editsOnce (Php.sound_of_build hbuild) hkind f hf

/-- In the store of every text, no fix of a rule of the catalogue edits a token twice, whatever the
settings. So every check and every run with rules of the catalogue, in any order and with any
budget, gives a report without a defect and without a malformed fix. -/
theorem runs_spotless (source : String) :
    ∃ store, Php.tokenize source = .ok store ∧
      (∀ rule, Provides rule → ∀ i, store.kind i ∈ rule.kinds →
        ∀ f ∈ rule.runAt (.ofStore store) i, ∀ c, f.fix = some c → c.targets.Nodup) ∧
      ∀ chosen : List Rule, (∀ rule ∈ chosen, Provides rule) →
        (∃ report, (Engine.ofRules Php.tokenize chosen).check source = .ok report ∧
          report.Spotless) ∧
          ∀ budget, ∃ report, (Engine.ofRules Php.tokenize chosen).fix budget source = .ok report ∧
            report.Spotless := by
  obtain ⟨store, hstore, hbuild⟩ := Php.exists_tokenize source
  refine ⟨store, hstore, fun rule hrule i hkind => ?_, fun chosen hchosen => ⟨?_, fun budget => ?_⟩⟩
  · exact hrule.editsOnce (Php.sound_of_build hbuild) hkind
  · have htotal : (Engine.ofRules Php.tokenize chosen).tokenizer.BuildsEvery :=
      Php.buildsEvery_tokenize
    obtain ⟨report, hcheck⟩ := Engine.exists_check htotal source
    exact ⟨report, hcheck, Engine.spotless_of_check hcheck⟩
  · obtain ⟨report, hfix⟩ := Php.exists_fix chosen budget source
    exact ⟨report, hfix, (editsOnce_ofRules hchosen).spotless_of_fix hfix⟩

end Catalogue

end PhpStyle
