import PhpStyle.Proofs.Edit.Effects
import PhpStyle.Proofs.Php.Balance
import PhpStyle.Proofs.Php.Commas
import PhpStyle.Proofs.Run.Preview
import PhpStyle.Proofs.Run.Sweeping
import PhpStyle.Proofs.Standard.Layout
import PhpStyle.Proofs.Store.Walking
import PhpStyle.Standard.FunctionHead

/-!
# Commas behind parameter lists

A parameter list over several lines gets a comma behind its last token that is not whitespace, if
that is not a comma itself. All commas of a pass are put in, and the new text is read as the old
lexemes with these commas. Where the last token is code, the comma is the one that was missing.
Where it is a comment, the code in front of it has not been looked at: a list of comments gets a
comma all the same, and a comma in front of the comment gets a second one behind it. There is no
other way to either.
-/

namespace PhpStyle.TrailingComma

open Php (CommaBehind MarksBehind MarksEnds Sound lex outline settleWords tokenize withCommas)

/-- The last token of a list in parentheses that is not passed over. -/
structure Ends (skip : Kind → Bool) (s : Store) (g : Group) (c : Nat) : Prop where
  opener_lt : g.opener < c
  lt_closer : c < g.closer
  stays : skip (s.kind c) = false
  passed : ∀ k, c < k → k < g.closer → skip (s.kind k) = true

/-- The parameter list of a function, a closure or an arrow function, over several lines. -/
structure Spread (s : Store) (i : Nat) (g : Group) : Prop where
  kind : s.kind i ∈ rule.kinds
  parens : s.paren? i = some g
  lines : s.line g.opener ≠ s.line g.closer

/-- A list with code in it, the last of which is no comma. -/
def LacksComma (s : Store) (g : Group) : Prop := ∃ c, Ends Kind.isTrivia s g c ∧ s.kind c ≠ .comma

/-- A list with a comment behind all its code. -/
def EndsInComment (s : Store) (g : Group) : Prop :=
  ∃ v, Ends (· == .whitespace) s g v ∧ (s.kind v).isTrivia = true

/-- A token that is reported: it ends a list over several lines and is no comma. -/
def Reported (s : Store) (v : Nat) : Prop :=
  ∃ i g, Spread s i g ∧ Ends (· == .whitespace) s g v ∧ s.kind v ≠ .comma

/-- What is reported at a token. -/
def missing (v : Nat) : Finding :=
  { code := "MissingTrailingComma", index := v
    message := "Multi-line function declarations must always end with a comma \",\""
    fix := some [.append v ","] }

/-- The edits that a pass with the rule alone makes. -/
def edits (s : Store) : Changeset := Session.grant [] ((Engine.ofRules tokenize [rule]).findings s)

variable {s : Store} {g : Group} {skip : Kind → Bool} {c i k v : Nat} {f : Finding}

/-! ## How lists end -/

/-- A list with a token that is not passed over has a last one. -/
theorem exists_ends (hopener : g.opener < k) (hcloser : k < g.closer)
    (hk : skip (s.kind k) = false) : ∃ c, Ends skip s g c := by
  cases hfound : s.scanDown (fun t => !skip t.kind) (g.opener + 1) g.closer with
  | none =>
    have hpassed := Store.scanDown_eq_none hfound k hopener hcloser
    rw [Bool.not_eq_false'] at hpassed
    cases hpassed.symm.trans hk
  | some c =>
    obtain ⟨hlow, hhigh, hstays, hpassed⟩ := Store.scanDown_eq_some hfound
    have hstays : (!skip (s.kind c)) = true := hstays
    refine ⟨c, hlow, hhigh, by simpa using hstays, fun k hck hkg => ?_⟩
    have hpassed : (!skip (s.kind k)) = false := hpassed k hck hkg
    simpa using hpassed

/-- Whitespace is trivia. -/
theorem isTrivia_of_whitespace {kind : Kind} (h : (kind == .whitespace) = true) :
    kind.isTrivia = true := by
  rw [eq_of_beq h]
  rfl

/-- Trivia is no comma. -/
theorem ne_comma_of_isTrivia {kind : Kind} (h : kind.isTrivia = true) : kind ≠ .comma := by
  rintro rfl
  cases h

/-- Trivia up to the last token that is no whitespace are trivia up to the end of the list. -/
theorem Ends.forall_isTrivia (hv : Ends (· == .whitespace) s g v)
    (htrivia : ∀ k, c < k → k ≤ v → (s.kind k).isTrivia = true) :
    ∀ k, c < k → k < g.closer → (s.kind k).isTrivia = true := by
  intro k hck hk
  rcases Nat.lt_or_ge v k with hvk | hkv
  · exact isTrivia_of_whitespace (hv.passed k hvk hk)
  · exact htrivia k hck hkv

/-- Code is not behind the last token that is no whitespace. -/
theorem Ends.le (hc : Ends Kind.isTrivia s g c) (hv : Ends (· == .whitespace) s g v) : c ≤ v := by
  by_contra hlt
  have hblank := hv.passed c (Nat.lt_of_not_le hlt) hc.lt_closer
  cases (isTrivia_of_whitespace hblank).symm.trans hc.stays

/-- The last token that is no whitespace is the last of the code or a comment. -/
theorem Ends.code_or_comment (hv : Ends (· == .whitespace) s g v) :
    Ends Kind.isTrivia s g v ∨ (s.kind v).isTrivia = true := by
  cases htrivia : (s.kind v).isTrivia with
  | false =>
    refine .inl ⟨hv.opener_lt, hv.lt_closer, htrivia, fun k hvk hk => ?_⟩
    exact isTrivia_of_whitespace (hv.passed k hvk hk)
  | true => exact .inr rfl

/-- A list has at most one last token that is not passed over. -/
theorem Ends.unique (hc : Ends skip s g c) (hv : Ends skip s g v) : c = v := by
  rcases Nat.lt_trichotomy c v with hlt | heq | hlt
  · cases (hc.passed v hlt hv.lt_closer).symm.trans hv.stays
  · exact heq
  · cases (hv.passed c hlt hc.lt_closer).symm.trans hc.stays

/-- A token ends a list and is no comma exactly if the list lacks a comma or has a comment at its
end. -/
theorem exists_ends_ne_comma_iff : (∃ v, Ends (· == .whitespace) s g v ∧ s.kind v ≠ .comma) ↔
    LacksComma s g ∨ EndsInComment s g := by
  constructor
  · rintro ⟨v, hv, hcomma⟩
    rcases hv.code_or_comment with hcode | hcomment
    · exact .inl ⟨v, hcode, hcomma⟩
    · exact .inr ⟨v, hv, hcomment⟩
  · rintro (⟨c, hc, hcomma⟩ | ⟨v, hv, hcomment⟩)
    · have hvisible : (s.kind c == .whitespace) = false := by
        by_contra hblank
        cases (isTrivia_of_whitespace (Bool.eq_true_of_not_eq_false hblank)).symm.trans hc.stays
      obtain ⟨v, hv⟩ : ∃ v, Ends (· == .whitespace) s g v :=
        exists_ends hc.opener_lt hc.lt_closer hvisible
      refine ⟨v, hv, ?_⟩
      rcases hv.code_or_comment with hcode | hcomment
      · rwa [← hc.unique hcode]
      · exact ne_comma_of_isTrivia hcomment
    · exact ⟨v, hv, ne_comma_of_isTrivia hcomment⟩

/-! ## What is reported -/

/-- Searching back from the end of a list finds its last visible token, if there is one. -/
theorem prevVisible?_eq_some_iff (hlt : g.opener < g.closer)
    (hopener : s.kind g.opener ≠ .whitespace) :
    (s.prevVisible? g.closer (some g.opener)).filter (· != g.opener) = some v ↔ Ends
    (· == .whitespace) s g v := by
  rw [Option.filter_eq_some_iff]
  constructor
  · rintro ⟨hprev, hne⟩
    obtain ⟨hle, hvlt, hvisible, hblank⟩ := Store.prevVisible?_eq_some hprev
    have hne : v ≠ g.opener := by simpa using hne
    exact ⟨by omega, hvlt, beq_eq_false_iff_ne.mpr hvisible,
      fun k hk hkg => beq_iff_eq.mpr (hblank k hk hkg)⟩
  · intro hv
    refine ⟨?_, by simpa using (Nat.ne_of_gt hv.opener_lt)⟩
    cases hprev : s.prevVisible? g.closer (some g.opener) with
    | none => exact absurd (Store.prevVisible?_eq_none hprev _ (Nat.le_refl _) hlt) hopener
    | some last =>
      obtain ⟨hle, hlast, hvisible, hblank⟩ := Store.prevVisible?_eq_some hprev
      have hvkind : s.kind v ≠ .whitespace := beq_eq_false_iff_ne.mp hv.stays
      rcases Nat.lt_trichotomy last v with hless | rfl | hless
      · exact absurd (hblank v hless hv.lt_closer) hvkind
      · rfl
      · exact absurd (beq_iff_eq.mp (hv.passed last hless hlast)) hvisible

/-- The last visible token of a list over several lines is reported unless it is a comma. -/
theorem mem_findings_iff (hs : Sound s) : f ∈ findings (.ofStore s) i ↔ ∃ g v, s.paren? i = some g ∧
    s.line g.opener ≠ s.line g.closer ∧ Ends (· == .whitespace) s g v ∧ s.kind v ≠ .comma ∧
      f = missing v := by
  unfold findings
  dsimp only [File.ofStore_store]
  cases hg : s.paren? i with
  | none => simp
  | some g =>
    obtain ⟨hlt, hopen, _⟩ := hs.paren i g hg
    have hends (v : Nat) := prevVisible?_eq_some_iff (v := v) hlt (by rw [hopen]; decide)
    dsimp only
    cases hlast : (s.prevVisible? g.closer (some g.opener)).filter (· != g.opener) with
    | none =>
      simp only [List.not_mem_nil, Option.some.injEq, false_iff]
      rintro ⟨_, v, rfl, _, hv, _⟩
      rw [(hends v).mpr hv] at hlast
      cases hlast
    | some last =>
      have hlast := (hends last).mp hlast
      rw [Finding.mem_unless_iff, not_or, Store.sameLine, beq_iff_eq]
      constructor
      · rintro ⟨⟨hlines, hcomma⟩, rfl⟩
        exact ⟨g, last, rfl, hlines, hlast, hcomma, rfl⟩
      · rintro ⟨_, v, ⟨rfl⟩, hlines, hv, hcomma, rfl⟩
        obtain rfl := hlast.unique hv
        exact ⟨⟨hlines, hcomma⟩, rfl⟩

/-- Something is reported of a list if its last code is no comma, or a comment stands behind it. -/
theorem findings_ne_nil_iff (hs : Sound s) (hg : Spread s i g) :
    findings (.ofStore s) i ≠ [] ↔ LacksComma s g ∨ EndsInComment s g := by
  rw [← exists_ends_ne_comma_iff]
  constructor
  · intro hne
    obtain ⟨f, hf⟩ := List.exists_mem_of_ne_nil _ hne
    obtain ⟨g', v, hg', _, hv, hcomma, _⟩ := (mem_findings_iff hs).mp hf
    obtain rfl : g' = g := Option.some.inj (hg'.symm.trans hg.parens)
    exact ⟨v, hv, hcomma⟩
  · rintro ⟨v, hv, hcomma⟩
    exact List.ne_nil_of_mem
      ((mem_findings_iff hs).mpr ⟨g, v, hg.parens, hg.lines, hv, hcomma, rfl⟩)

/-- A pass reports each of these tokens, under the name of the rule. -/
theorem mem_pass_findings_iff (hs : Sound s) : f ∈ (Engine.ofRules tokenize [rule]).findings s ↔
    ∃ v, Reported s v ∧ f = { missing v with rule := rule.name } := by
  rw [Engine.mem_findings_iff]
  constructor
  · rintro ⟨i, _, r, hr, hkind, hmem⟩
    obtain rfl := List.mem_singleton.mp hr
    obtain ⟨found, hfound, rfl⟩ := List.mem_map.mp hmem
    obtain ⟨g, v, hg, hlines, hv, hcomma, rfl⟩ := (mem_findings_iff hs).mp hfound
    exact ⟨v, ⟨i, g, ⟨hkind, hg, hlines⟩, hv, hcomma⟩, rfl⟩
  · rintro ⟨v, ⟨i, g, hg, hv, hcomma⟩, rfl⟩
    have hsize : i < s.size := by
      apply Store.lt_size_of_kind_ne
      intro hunknown
      have hkind := hg.kind
      rw [hunknown] at hkind
      exact absurd hkind (by decide)
    have hfound := (mem_findings_iff hs).mpr ⟨g, v, hg.parens, hg.lines, hv, hcomma, rfl⟩
    exact ⟨i, hsize, rule, List.mem_singleton_self _, hg.kind, List.mem_map_of_mem hfound⟩

/-- A pass puts a comma behind each reported token and edits nothing else. -/
theorem mem_edits_iff (hs : Sound s) {e : Edit} :
    e ∈ edits s ↔ ∃ v, Reported s v ∧ e = .append v "," := by
  rw [edits, Session.mem_grant_singletons_iff]
  · constructor
    · rintro ⟨f, hf, hfix⟩
      obtain ⟨v, hv, rfl⟩ := (mem_pass_findings_iff hs).mp hf
      cases hfix
      exact ⟨v, hv, rfl⟩
    · rintro ⟨v, hv, rfl⟩
      exact ⟨_, (mem_pass_findings_iff hs).mpr ⟨v, hv, rfl⟩, rfl⟩
  · intro f hf c hc
    obtain ⟨v, _, rfl⟩ := (mem_pass_findings_iff hs).mp hf
    cases hc
    exact ⟨_, rfl⟩
  · intro f hf f' hf' e e' hfix hfix' htarget
    obtain ⟨v, _, rfl⟩ := (mem_pass_findings_iff hs).mp hf
    obtain ⟨v', _, rfl⟩ := (mem_pass_findings_iff hs).mp hf'
    cases hfix
    cases hfix'
    exact congrArg (Edit.append · ",") htarget

/-- The edits have the reported tokens for targets. -/
theorem contains_targets_edits_iff (hs : Sound s) :
    (edits s).targets.contains v = true ↔ Reported s v := by
  rw [List.contains_iff_mem, Changeset.targets, List.mem_map]
  constructor
  · rintro ⟨e, he, rfl⟩
    obtain ⟨v, hv, rfl⟩ := (mem_edits_iff hs).mp he
    exact hv
  · exact fun hv => ⟨_, (mem_edits_iff hs).mpr ⟨v, hv, rfl⟩, rfl⟩

/-- The tokens behind which the pass puts commas are those of its findings. -/
theorem contains_targets_edits (hs : Sound s) : (edits s).targets.contains =
    (((Engine.ofRules tokenize [rule]).findings s).map (·.index)).contains := by
  funext v
  rw [Bool.eq_iff_iff, contains_targets_edits_iff hs, List.contains_iff_mem, List.mem_map]
  constructor
  · exact fun hv => ⟨_, (mem_pass_findings_iff hs).mpr ⟨v, hv, rfl⟩, rfl⟩
  · rintro ⟨f, hf, rfl⟩
    obtain ⟨v, hv, rfl⟩ := (mem_pass_findings_iff hs).mp hf
    exact hv

/-- Behind a reported token its list ends. -/
theorem marksEnds_edits (hs : Sound s) : MarksEnds (edits s).targets.contains 0 s.lexemes := by
  intro front l behind hsplit hmark
  obtain ⟨i, g, hg, hv, _⟩ := (contains_targets_edits_iff hs).mp hmark
  rw [Nat.zero_add] at hv
  obtain ⟨_, _, hcloser⟩ := hs.paren i g hg.parens
  have hsize : g.closer < s.size := Store.lt_size_of_kind hcloser (by decide)
  obtain ⟨mid, rest, hlexemes, _, hmid⟩ := Store.exists_lexemes_between hv.lt_closer hsize
  have hlength : front.length = (s.lexemes.take front.length).length := by
    rw [List.length_take, s.length_lexemes]
    have := hv.lt_closer
    omega
  obtain ⟨_, hbehind⟩ := List.append_inj (hsplit.symm.trans hlexemes) hlength
  obtain ⟨rfl, rfl⟩ := List.cons_eq_cons.mp hbehind
  refine ⟨beq_eq_false_iff_ne.mp hv.stays, mid, _, rest, rfl, fun l hl => ?_, hcloser⟩
  obtain ⟨k, hlow, hhigh, rfl⟩ := hmid l hl
  exact beq_iff_eq.mp (hv.passed k hlow hhigh)

/-! ## What the new commas stand behind -/

/-- A mark stands behind a kind if it is at a token of the kind or at trivia behind one. -/
theorem marksBehind_iff {marked : Nat → Bool} {kind : Kind} : MarksBehind marked 0 kind s.lexemes ↔
    ∃ c v, c ≤ v ∧ v < s.size ∧ s.kind c = kind ∧
      (∀ k, c < k → k ≤ v → (s.kind k).isTrivia = true) ∧ marked v = true := by
  constructor
  · rintro ⟨front, l, _, hsplit, rfl, gap, behind, rfl, hgap, hmark⟩
    have hget {n : Nat} {l' : Lexeme} (hl : (l :: (gap ++ behind))[n]? = some l') :=
      Store.token_of_split hsplit hl
    have hsize : s.size = front.length + (gap.length + behind.length + 1) := by
      rw [← s.length_lexemes, hsplit, List.length_append, List.length_cons, List.length_append]
    obtain ⟨_, hkind, _⟩ := hget (n := 0) rfl
    rw [Nat.zero_add] at hmark
    refine ⟨front.length, front.length + gap.length, Nat.le_add_right _ _,
      by omega, hkind, fun k hlow hhigh => ?_, hmark⟩
    obtain ⟨n, rfl⟩ : ∃ n, k = front.length + (n + 1) := ⟨k - front.length - 1, by omega⟩
    have hn : n < gap.length := by omega
    obtain ⟨_, hkind, _⟩ := hget (n := n + 1) (by
      rw [List.getElem?_cons_succ, List.getElem?_append_left hn, List.getElem?_eq_getElem hn])
    rw [hkind]
    exact hgap _ (List.getElem_mem hn)
  · rintro ⟨c, v, hle, hsize, rfl, htrivia, hmark⟩
    have hc : c < s.size := Nat.lt_of_le_of_lt hle hsize
    refine ⟨s.lexemes.take c, ⟨s.kind c, s.text c⟩, s.lexemes.drop (c + 1), ?_, rfl,
      (s.lexemes.drop (c + 1)).take (v - c), (s.lexemes.drop (c + 1)).drop (v - c), ?_,
      fun l hl => ?_, ?_⟩
    · rw [← s.drop_lexemes hc, List.take_append_drop]
    · rw [List.take_append_drop]
    · obtain ⟨n, hn, rfl⟩ := List.mem_iff_getElem.mp hl
      rw [List.length_take, List.length_drop] at hn
      have hlt : c + 1 + n < s.lexemes.length := by omega
      obtain ⟨_, hkind, _⟩ := s.token_of_lexemes (List.getElem?_eq_getElem hlt)
      rw [List.getElem_take, List.getElem_drop, ← hkind]
      exact htrivia (c + 1 + n) (by omega) (by omega)
    · rw [List.length_take, List.length_take, List.length_drop, s.length_lexemes]
      rwa [show 0 + min c s.size + min (v - c) (s.size - (c + 1)) = v by omega]

/-- A comma is put in behind a comma where a list ends with a comma and a comment. -/
theorem marksBehind_comma_iff (hs : Sound s) :
    MarksBehind (edits s).targets.contains 0 .comma s.lexemes ↔
    ∃ i g c, Spread s i g ∧ Ends Kind.isTrivia s g c ∧ s.kind c = .comma ∧ EndsInComment s g := by
  simp only [marksBehind_iff, contains_targets_edits_iff hs]
  constructor
  · rintro ⟨c, v, hle, _, hcomma, htrivia, i, g, hg, hv, hother⟩
    obtain ⟨_, hopen, _⟩ := hs.paren i g hg.parens
    have hlt : c < v := Nat.lt_of_le_of_ne hle fun heq => hother (heq ▸ hcomma)
    have hopener : g.opener < c := by
      by_contra hge
      rcases Nat.eq_or_lt_of_le (Nat.le_of_not_lt hge) with rfl | hbefore
      · cases hcomma.symm.trans hopen
      · have hinside := htrivia g.opener hbefore (Nat.le_of_lt hv.opener_lt)
        rw [hopen] at hinside
        cases hinside
    have hstays : (s.kind c).isTrivia = false := by
      rw [hcomma]
      rfl
    have hends : Ends Kind.isTrivia s g c :=
      ⟨hopener, Nat.lt_trans hlt hv.lt_closer, hstays, hv.forall_isTrivia htrivia⟩
    exact ⟨i, g, c, hg, hends, hcomma, v, hv, htrivia v hlt (Nat.le_refl v)⟩
  · rintro ⟨i, g, c, hg, hc, hcomma, v, hv, hcomment⟩
    obtain ⟨_, _, hcloser⟩ := hs.paren i g hg.parens
    have hsize : g.closer < s.size := Store.lt_size_of_kind hcloser (by decide)
    have htrivia : ∀ k, c < k → k ≤ v → (s.kind k).isTrivia = true := fun k hck hkv =>
      hc.passed k hck (Nat.lt_of_le_of_lt hkv hv.lt_closer)
    have hother : s.kind v ≠ .comma := ne_comma_of_isTrivia hcomment
    exact ⟨c, v, hc.le hv, Nat.lt_trans hv.lt_closer hsize, hcomma, htrivia, i, g, hg, hv, hother⟩

section

variable {source : String}
  (hbuild : Store.build? (settleWords (lex source)) (outline (settleWords (lex source))) = .ok s)

include hbuild

/-- A parenthesis with nothing but trivia between it and the one that closes a list opens the
list. -/
theorem eq_opener_of_trivia (hg : s.paren? i = some g) (hopen : s.kind c = .openParen)
    (hc : c < g.closer) (htrivia : ∀ k, c < k → k < g.closer → (s.kind k).isTrivia = true) :
    c = g.opener := by
  obtain ⟨hmem, _⟩ := (Store.paren?_eq_some_iff hbuild).mp hg
  have hpair := (Php.family_parens _).ends g hmem
  obtain ⟨_, _, hcloser⟩ := Php.paren_of_build hbuild hg
  have hsize : g.closer < s.size := Store.lt_size_of_kind hcloser (by decide)
  obtain ⟨mid, behind, hsplit, hlength, hmid⟩ := Store.exists_lexemes_between hc hsize
  have hplain : ∀ kind ∈ mid.map (·.kind), kind.isBracket = false := by
    intro kind hkind
    obtain ⟨l, hl, rfl⟩ := List.mem_map.mp hkind
    obtain ⟨k, hlow, hhigh, rfl⟩ := hmid l hl
    exact Kind.isBracket_of_isTrivia (htrivia k hlow hhigh)
  have hencloses : Php.Brackets.Encloses ((settleWords (lex source)).map (·.kind)) c g.closer := by
    refine ⟨(s.lexemes.take c).map (·.kind), .openParen, mid.map (·.kind), .closeParen,
      behind.map (·.kind), ?_, rfl, .of_forall hplain, ?_, ?_⟩
    · have hkinds := congrArg (List.map (·.kind)) hsplit
      rw [List.map_append, List.map_cons, List.map_append, List.map_cons, hopen, hcloser] at hkinds
      rw [← Php.lexemes_of_build? hbuild, hkinds]
    · rw [List.length_map, List.length_take, s.length_lexemes]
      omega
    · rw [List.length_map, hlength]
      omega
  by_contra hne
  exact (Php.Brackets.ends_ne hpair (Php.Brackets.mem_pair_of_encloses hencloses) (Ne.symm hne)).2.2
    rfl

/-- A comma is put right behind an opening parenthesis, past trivia, if the list holds comments
alone. -/
theorem marksBehind_openParen_iff : MarksBehind (edits s).targets.contains 0 .openParen s.lexemes ↔
    ∃ i g, Spread s i g ∧ (∀ c, ¬ Ends Kind.isTrivia s g c) ∧ EndsInComment s g := by
  have hs : Sound s := (Php.exact_of_build hbuild).sound
  simp only [marksBehind_iff, contains_targets_edits_iff hs]
  constructor
  · rintro ⟨c, v, hle, _, hopen, htrivia, i, g, hg, hv, _⟩
    have hbehind := hv.forall_isTrivia htrivia
    obtain rfl := eq_opener_of_trivia hbuild hg.parens hopen
        (Nat.lt_of_le_of_lt hle hv.lt_closer) hbehind
    refine ⟨i, g, hg, fun c hc => ?_, v, hv, htrivia v hv.opener_lt (Nat.le_refl v)⟩
    cases (hbehind c hc.opener_lt hc.lt_closer).symm.trans hc.stays
  · rintro ⟨i, g, hg, hnone, v, hv, hcomment⟩
    obtain ⟨_, hopen, hcloser⟩ := hs.paren i g hg.parens
    have hsize : g.closer < s.size := Store.lt_size_of_kind hcloser (by decide)
    refine ⟨g.opener, v, Nat.le_of_lt hv.opener_lt, Nat.lt_trans hv.lt_closer hsize, hopen,
      fun k hlow hkv => ?_, i, g, hg, hv, ne_comma_of_isTrivia hcomment⟩
    by_contra hcode
    obtain ⟨c, hc⟩ := exists_ends hlow (Nat.lt_of_le_of_lt hkv hv.lt_closer)
        (Bool.eq_false_of_not_eq_true hcode)
    exact hnone c hc

end

/-- Of the parameter lists over several lines, the rule reports those that lack a comma behind their
code, and besides those that end with a comment. Each comma of a pass is put in behind the last
token of its list that is not whitespace, and nothing else changes. So new commas in a row come of
lists that end with a comma and a comment, new commas in a list without code come of lists of
comments only, and neither comes of any other list. -/
theorem pass_puts_commas (source : String) : ∃ store store', tokenize source = .ok store ∧
    tokenize ((Engine.ofRules tokenize [rule]).afterPass source) = .ok store' ∧
    (∀ i g, Spread store i g →
      (findings (.ofStore store) i ≠ [] ↔ LacksComma store g ∨ EndsInComment store g) ∧
      ∀ f ∈ findings (.ofStore store) i, Ends (· == .whitespace) store g f.index) ∧
    store'.lexemes =
      withCommas (((Engine.ofRules tokenize [rule]).findings store).map (·.index)).contains 0
      store.lexemes ∧ (CommaBehind .comma store'.lexemes ↔ CommaBehind .comma store.lexemes ∨
      ∃ i g c, Spread store i g ∧ Ends Kind.isTrivia store g c ∧ store.kind c = .comma ∧
      EndsInComment store g) ∧
    (CommaBehind .openParen store'.lexemes ↔ CommaBehind .openParen store.lexemes ∨
      ∃ i g, Spread store i g ∧ (∀ c, ¬ Ends Kind.isTrivia store g c) ∧ EndsInComment store g) := by
  obtain ⟨store, p, hstore, hbuild, hrun, _, hsource⟩ := Php.exists_pass [rule] 1 source
  obtain ⟨store', hstore', hbuild'⟩ :=
    Php.exists_tokenize ((Engine.ofRules tokenize [rule]).afterPass source)
  have hs : Sound store := (Php.exact_of_build hbuild).sound
  have hends := marksEnds_edits hs
  have hcommas : store'.lexemes = withCommas (edits store).targets.contains 0 store.lexemes := by
    rw [Php.lexemes_of_build? hbuild', Php.lexemes_of_build? hbuild]
    rw [Php.lexemes_of_build? hbuild] at hends
    apply Php.settleWords_lex_withCommas hends
    have hcomma : ∀ e ∈ edits store, e.change = .append "," := by
      intro e he
      obtain ⟨v, _, rfl⟩ := (mem_edits_iff hs).mp he
      rfl
    rw [← Php.lexemes_of_build? hbuild, ← Php.toList_rewrite_commas hcomma,
      Engine.afterPass_of_runPass hrun, hsource]
    rfl
  refine ⟨store, store', hstore, hstore', fun i g hg => ⟨findings_ne_nil_iff hs hg, fun f hf => ?_⟩,
    ?_, ?_, ?_⟩
  · obtain ⟨g', v, hg', _, hv, _, rfl⟩ := (mem_findings_iff hs).mp hf
    obtain rfl : g' = g := Option.some.inj (hg'.symm.trans hg.parens)
    exact hv
  · rw [hcommas, contains_targets_edits hs]
  · rw [hcommas, Php.commaBehind_withCommas_iff hends, marksBehind_comma_iff hs]
  · rw [hcommas, Php.commaBehind_withCommas_iff hends, marksBehind_openParen_iff hbuild]

/-- A list with nothing but a comment is reported and gets a comma; one that ends with a comma and a
comment gets a second comma. -/
theorem comment_gets_comma :
    let engine := Engine.ofRules tokenize [rule]
    let source := "<?php\nfunction foo(\n\t// c\n) \x7b\n\x7d\n"
    (∃ store i g, tokenize source = .ok store ∧ Spread store i g ∧ ¬ LacksComma store g ∧
      findings (.ofStore store) i ≠ []) ∧
    engine.afterPass source = "<?php\nfunction foo(\n\t// c\n,) \x7b\n\x7d\n" ∧
    engine.afterPass "<?php\nfunction foo(\n\t$a, // c\n) \x7b\n\x7d\n" =
      "<?php\nfunction foo(\n\t$a, // c\n,) \x7b\n\x7d\n" := by
  intro engine source
  have hdraft : (Php.draft? source).any (fun s =>
      s.paren? 1 = some ⟨1, 4, 8⟩ ∧ s.kind 1 = .kwFunction ∧ s.line 4 ≠ s.line 8 ∧
        (∀ k < 8, 4 < k → (s.kind k).isTrivia = true) ∧ findings (.ofStore s) 1 ≠ []) = true := by
    decide +kernel
  obtain ⟨store, hstore, hcomputed⟩ := Php.exists_of_draft hdraft
  obtain ⟨hparens, hkind, hlines, htrivia, hfound⟩ := of_decide_eq_true hcomputed
  refine ⟨⟨store, 1, _, hstore, ⟨?_, hparens, hlines⟩, ?_, hfound⟩, ?_, ?_⟩
  · rw [hkind]
    decide
  · rintro ⟨c, hc, _⟩
    cases (htrivia c hc.lt_closer hc.opener_lt).symm.trans hc.stays
  · exact Php.afterPass_of_preview (by decide +kernel)
  · exact Php.afterPass_of_preview (by decide +kernel)

end PhpStyle.TrailingComma
