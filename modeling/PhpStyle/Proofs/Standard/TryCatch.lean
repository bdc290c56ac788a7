import PhpStyle.Proofs.Php.Gaps
import PhpStyle.Proofs.Run.Preview
import PhpStyle.Proofs.Run.Rearranging
import PhpStyle.Proofs.Standard.Effects

/-!
# What fixes around `try`, `catch` and `finally` leave

The fixes put blanks in and take whitespace away, and one brings the brace of a `catch` back to its
parentheses, over whitespace and comments and nothing else. So whichever of them a pass accepts, no
comment is touched and the code spells the same characters.
-/

namespace PhpStyle

open Php (Gapped)
open Text (isBlank visible)

/-- An edit of layout that leaves comments alone. -/
structure Edit.Spares (s : Store) (e : Edit) : Prop where
  layout : e.IsLayout s
  code : (s.kind e.target).isComment = false

namespace TryCatch

/-- The brace of a `catch` and the parenthesis that it belongs behind, with no code between them. -/
structure Strays (s : Store) (closer brace : Nat) : Prop where
  owner : ∃ i parens scope, s.kind i = .kwCatch ∧ s.paren? i = some parens ∧
    s.scope? i = some scope ∧ parens.closer = closer ∧ scope.opener = brace
  behind : closer < brace
  trivia : ∀ k, closer < k → k < brace → (s.kind k).isTrivia = true

/-- A brace that strays from its parenthesis is an opening brace, and the parenthesis a closing
one. -/
theorem Strays.kinds {s : Store} (hs : Php.Sound s) {closer brace : Nat}
    (h : Strays s closer brace) : s.kind closer = .closeParen ∧ s.kind brace = .openCurly := by
  obtain ⟨i, parens, scope, _, hparens, hscope, rfl, rfl⟩ := h.owner
  exact ⟨(hs.paren i parens hparens).2.2, (hs.scope i scope hscope).2.1⟩

/-- A fix whose edits spare comments, besides two that bring the brace of a `catch` back. -/
def Rejoins (s : Store) (f : Finding) : Prop :=
  ∀ c, f.fix = some c → (∀ e ∈ c, e.Spares s) ∨
    ∃ closer brace rest, c = .append closer " \x7b" :: .replace brace "" :: rest ∧
      Strays s closer brace ∧ ∀ e ∈ rest, e.Spares s

variable {s : Store} {settings : Settings} {i : Nat} {f : Finding}

/-- Replacing whitespace by blanks spares comments. -/
theorem spares_of_whitespace {k : Nat} {text : String} (hkind : s.kind k = .whitespace)
    (htext : isBlank text = true) : (Edit.replace k text).Spares s where
  layout := ⟨hkind, htext⟩
  code := by
    rw [Edit.target_replace, hkind]
    rfl

/-- Putting blanks behind what is no comment spares comments. -/
theorem spares_of_append {k : Nat} {text : String} (hkind : (s.kind k).isComment = false)
    (htext : isBlank text = true) : (Edit.append k text).Spares s := ⟨htext, hkind⟩

/-- A fix all of whose edits spare comments brings back no brace. -/
theorem rejoins_of_spares {c : Changeset} (hfix : f.fix = some c) (hspares : ∀ e ∈ c, e.Spares s) :
    Rejoins s f := by
  intro c' hc'
  cases hfix.symm.trans hc'
  exact .inl hspares

/-- A fix of one edit that spares comments brings back no brace. -/
theorem rejoins_of_singleton {e : Edit} (hfix : f.fix = some [e]) (he : e.Spares s) : Rejoins s f :=
  rejoins_of_spares hfix (List.forall_mem_singleton.mpr he)

/-- The blank behind a keyword spares comments. -/
theorem keywordBlank_rejoins (hkind : (s.kind i).isComment = false) :
    ∀ f ∈ keywordBlank s i, Rejoins s f := by
  intro f hf
  obtain ⟨_, rfl⟩ := Finding.mem_unless_iff.mp hf
  cases hblank : (s.next? i).filter fun p => s.kind p == .whitespace with
  | none => exact rejoins_of_singleton rfl (spares_of_append hkind (by decide))
  | some p =>
    have hspace := beq_iff_eq.mp (Option.filter_eq_some_iff.mp hblank).2
    exact rejoins_of_singleton rfl (spares_of_whitespace hspace (by decide))

/-- Of a blank stretch of a text, every token is blank. -/
theorem isBlank_of_textBetween {i j : Nat} (hj : j < s.size)
    (hblank : isBlank (s.textBetween i j) = true) :
    ∀ k, i ≤ k → k ≤ j → isBlank (s.text k) = true := by
  intro k hik hkj
  rw [isBlank, s.toList_textBetween hj, List.all_flatMap, List.all_eq_true] at hblank
  exact hblank k (List.mem_range'_1.mpr (by omega))

/-- A blank token that is trivia, in a blank row behind code, is whitespace. -/
theorem kind_of_isBlank (hs : Gapped s) {j k : Nat} (hstays : (s.kind j).leavesCode = false)
    (hjk : j ≤ k) (hk : k < s.size) (hblank : ∀ m, j < m → m ≤ k → isBlank (s.text m) = true)
    (htrivia : (s.kind k).isTrivia = true) : s.kind k = .whitespace := by
  have hcode := Kind.isComment_of_leavesCode (hs.leavesCode_of_isBlank hstays hjk hk hblank)
  simpa [Kind.isTrivia, hcode] using htrivia

/-- Joining a stray brace to its parenthesis brings it back, and spares the comments between the
two. -/
theorem joinBrace_rejoins (hs : Gapped s) {closer opener : Nat}
    (hclose : s.kind closer = .closeParen) (hopen : s.kind opener = .openCurly)
    (hstrays : Strays s closer opener)
    (hfix :
      f.fix = some (joinBrace s closer opener (isBlank (s.textBetween (closer + 1) (opener - 1)))))
      : Rejoins s f := by
  have hsize : opener < s.size := Store.lt_size_of_kind hopen (by decide)
  have hblank : (Edit.append closer " ").Spares s :=
    spares_of_append (by rw [hclose]; rfl) (by decide)
  have hmove (rest : Changeset) (hspares : ∀ e ∈ rest, e.Spares s)
      (hfix : f.fix = some ([.append closer (" " ++ s.text opener), .replace opener ""] ++ rest)) :
      Rejoins s f := by
    intro c hc
    have hbrace : s.text opener = "\x7b" :=
      String.toList_inj.mp ((hs.sound.shapes opener).openCurly hopen)
    rw [hbrace] at hfix
    cases hfix.symm.trans hc
    exact .inr ⟨closer, opener, rest, rfl, hstrays, hspares⟩
  unfold joinBrace at hfix
  dsimp only at hfix
  split at hfix
  · exact rejoins_of_singleton hfix hblank
  split at hfix
  · rename_i hall
    refine rejoins_of_spares hfix (List.forall_mem_cons.mpr ⟨hblank, fun e he => ?_⟩)
    obtain ⟨k, hk, rfl⟩ := List.mem_map.mp he
    obtain ⟨hlow, hhigh⟩ := Store.mem_between.mp hk
    have htexts := isBlank_of_textBetween (Nat.lt_of_le_of_lt (Nat.sub_le _ _) hsize) hall
    refine spares_of_whitespace
      (kind_of_isBlank hs (j := closer) (by rw [hclose]; rfl) (by omega) (by omega)
      (fun m hm hmk => htexts m hm (by omega)) (hstrays.trivia k hlow hhigh)) rfl
  split at hfix
  · exact hmove [] nofun hfix
  split at hfix
  · rename_i next hnext
    split at hfix
    · exact hmove [] nofun hfix
    · obtain ⟨_, _, _, hbehind⟩ := Store.nextVisible?_eq_some hnext
      refine hmove _ (fun e he => ?_) hfix
      obtain ⟨k, hk, rfl⟩ := List.mem_map.mp he
      obtain ⟨hlow, hhigh⟩ := Store.mem_between.mp hk
      exact spares_of_whitespace (hbehind k hlow hhigh) rfl
  · exact hmove [] nofun hfix

/-- The blank in front of a brace spares comments, or brings the brace back. -/
theorem parenBlank_rejoins (hs : Gapped s) (hkind : s.kind i ∈ (rule settings).kinds) :
    ∀ f ∈ parenBlank settings (.ofStore s) i, Rejoins s f := by
  intro f hf
  unfold parenBlank at hf
  dsimp only [File.ofStore_store] at hf
  split at hf
  · rename_i parens scope hparens hscope
    have hkinds : s.kind i = .kwTry ∨ s.kind i = .kwCatch ∨ s.kind i = .kwFinally := by
      simpa [rule] using hkind
    obtain ⟨hcondition, hlt, htrivia⟩ := hs.gap i parens scope
      (by rcases hkinds with h | h | h <;> rw [h] <;> rfl) hparens hscope
    have hcatch : s.kind i = .kwCatch := by
      rcases hkinds with h | h | h
      · rw [h] at hcondition
        cases hcondition
      · exact h
      · rw [h] at hcondition
        cases hcondition
    obtain ⟨_, rfl⟩ := Finding.mem_unless_iff.mp hf
    exact joinBrace_rejoins hs (hs.sound.paren i parens hparens).2.2
      (hs.sound.scope i scope hscope).2.1
      ⟨⟨i, parens, scope, hcatch, hparens, hscope, rfl, rfl⟩, hlt, htrivia⟩ rfl
  · cases hf

/-- The line break behind an opening brace spares comments. -/
theorem braceBreak_rejoins (hs : Gapped s) :
    ∀ f ∈ braceBreak settings (.ofStore s) i, Rejoins s f := by
  intro f hf
  unfold braceBreak at hf
  dsimp only [File.ofStore_store] at hf
  split at hf
  · cases hf
  rename_i scope hscope
  have hopen := (hs.sound.scope i scope hscope).2.1
  split at hf
  · cases hf
  rename_i next hnext
  obtain ⟨_, hlt, _, hprecedes⟩ := Store.scanUp_eq_some hnext
  obtain ⟨_, rfl⟩ := Finding.mem_unless_iff.mp hf
  have hsize : next < s.size := by
    simp only [Option.getD_none] at hlt
    omega
  refine rejoins_of_spares rfl fun e he => ?_
  rcases List.mem_append.mp he with he | he
  · obtain ⟨k, hk, rfl⟩ := List.mem_map.mp he
    obtain ⟨hbetween, hblank⟩ := Store.mem_takeWhile_between_iff.mp hk
    obtain ⟨hlow, hhigh⟩ := Store.mem_between.mp hbetween
    have hstays := hs.leavesCode_of_isBlank (by rw [hopen]; rfl) (Nat.le_of_lt hlow)
        (by omega) hblank
    have htest := hprecedes k hlow hhigh
    have hcomment : (s.token k).kind.isComment = false := Kind.isComment_of_leavesCode hstays
    simp only [Kind.leavesCode, Bool.or_eq_false_iff, beq_eq_false_iff_ne, ne_eq] at hstays
    obtain ⟨⟨_, htag⟩, hhtml⟩ := hstays
    refine spares_of_whitespace ?_ rfl
    by_contra hother
    -- what may stand in front of the block besides whitespace leaves code
    simp [precedesBlock, Token.isTrivia, Kind.isTrivia, hcomment,
      show (s.token k).kind ≠ .whitespace from hother, show (s.token k).kind ≠ .closeTag from htag,
      show (s.token k).kind ≠ .inlineHtml from hhtml] at htest
  · obtain rfl := List.mem_singleton.mp he
    exact spares_of_append (by rw [hopen]; rfl) (File.isBlank_newline settings s)

/-- The blank behind a closing brace spares comments. -/
theorem closeBraceBlank_rejoins : ∀ f ∈ closeBraceBlank s i, Rejoins s f := by
  intro f hf
  unfold closeBraceBlank at hf
  dsimp only at hf
  split at hf
  · cases hf
  rename_i closer after hbrace
  have hkind := kind_of_closeBrace hbrace
  obtain ⟨_, rfl⟩ := Finding.mem_unless_iff.mp hf
  by_cases hcomment : (s.findNext (fun t => t.kind.isComment) after (some i)).isSome = true
  · intro c hc
    rw [if_pos hcomment] at hc
    cases hc
  refine rejoins_of_singleton (if_neg hcomment) (iteInduction (motive := (Edit.Spares s ·))
    (fun _ => spares_of_append (by rw [hkind]; rfl) (by decide)) fun hfound => ?_)
  have hblank : s.kind after = .whitespace := by
    by_contra hother
    exact hfound (if_pos hother)
  exact spares_of_whitespace hblank (by decide)

/-- Every fix of the rule spares comments, apart from the two edits that bring a brace back. -/
theorem findings_rejoin (hs : Gapped s) (hkind : s.kind i ∈ (rule settings).kinds) :
    ∀ f ∈ findings settings (.ofStore s) i, Rejoins s f := by
  have hcode : (s.kind i).isComment = false := by
    have hkinds : s.kind i = .kwTry ∨ s.kind i = .kwCatch ∨ s.kind i = .kwFinally := by
      simpa [rule] using hkind
    rcases hkinds with h | h | h <;> rw [h] <;> rfl
  unfold findings
  dsimp only [File.ofStore_store]
  intro f hf
  obtain ⟨_, hf⟩ := List.mem_ite_nil_left.mp hf
  simp only [List.mem_append] at hf
  rcases hf with ((hf | hf) | hf) | hf
  · exact keywordBlank_rejoins hcode f hf
  · exact parenBlank_rejoins hs hkind f hf
  · exact braceBreak_rejoins hs f hf
  · exact closeBraceBlank_rejoins f hf

section

variable {judged : List (Finding × FixStatus)}

/-- The braces that applied fixes bring back, each with the parenthesis behind which it is put. -/
def RejoinedBy (judged : List (Finding × FixStatus)) (closer brace : Nat) : Prop :=
  ∃ f rest, (f, .applied) ∈ judged ∧
    f.fix = some (.append closer " \x7b" :: .replace brace "" :: rest)

variable (hs : Gapped s) (hrejoin : ∀ f, (f, .applied) ∈ judged → Rejoins s f)

include hrejoin

/-- A brace that is brought back strayed from its parenthesis. -/
theorem strays_of_rejoinedBy {closer brace : Nat} (h : RejoinedBy judged closer brace) :
    Strays s closer brace := by
  obtain ⟨f, rest, hf, hfix⟩ := h
  rcases hrejoin f hf _ hfix with hspares | ⟨_, _, _, heq, hstrays, _⟩
  · have hblank : isBlank " \x7b" = true := (hspares _ List.mem_cons_self).layout
    exact absurd hblank (by decide)
  · cases heq
    exact hstrays

/-- The edits of the accepted fixes spare comments, or they bring a brace back. -/
theorem appliedEdits_cases : ∀ e ∈ appliedEdits judged, e.Spares s ∨
    ∃ closer brace, RejoinedBy judged closer brace ∧
      (e = .append closer " \x7b" ∨ e = .replace brace "") := by
  intro e he
  obtain ⟨f, c, hf, hfix, hmem⟩ := mem_appliedEdits.mp he
  rcases hrejoin f hf c hfix with hspares | ⟨closer, brace, rest, rfl, _, hspares⟩
  · exact .inl (hspares e hmem)
  · have hmoved : RejoinedBy judged closer brace := ⟨f, rest, hf, hfix⟩
    simp only [List.mem_cons] at hmem
    rcases hmem with rfl | rfl | hmem
    · exact .inr ⟨closer, brace, hmoved, .inl rfl⟩
    · exact .inr ⟨closer, brace, hmoved, .inr rfl⟩
    · exact .inl (hspares e hmem)

include hs

/-- The edits of applied fixes bring braces back and clear no content. -/
theorem rearranges (hnodup : ((appliedEdits judged).map (·.target)).Nodup) :
    Rearranges s (appliedEdits judged) (RejoinedBy judged) fun _ => False where
  nodup := hnodup
  cases e he := by
    rcases appliedEdits_cases hrejoin e he with hspares | ⟨closer, brace, hmoved, rfl | rfl⟩
    · exact .inl hspares.layout
    · exact .inr (.inl ⟨closer, brace, hmoved, rfl⟩)
    · exact .inr (.inr (.inl ⟨closer, brace, hmoved, rfl⟩))
  put closer brace := by
    rintro ⟨f, rest, hf, hfix⟩
    exact mem_appliedEdits.mpr ⟨f, _, hf, hfix, List.mem_cons_self⟩
  take closer brace := by
    rintro ⟨f, rest, hf, hfix⟩
    exact mem_appliedEdits.mpr ⟨f, _, hf, hfix, List.mem_cons_of_mem _ List.mem_cons_self⟩
  clear _ := False.elim
  shown _ := False.elim
  brace closer brace h := ((strays_of_rejoinedBy hrejoin h).kinds hs.sound).2
  code closer brace h := by
    rw [((strays_of_rejoinedBy hrejoin h).kinds hs.sound).1]
    rfl
  back closer brace h := (strays_of_rejoinedBy hrejoin h).trivia
  onward closer brace h _ := ((strays_of_rejoinedBy hrejoin h).kinds hs.sound).1
  one_brace closer brace brace' h h' := by
    obtain ⟨f, rest, hf, hfix⟩ := h
    obtain ⟨f', rest', hf', hfix'⟩ := h'
    obtain rfl := applied_unique hnodup hf hf' hfix hfix' List.mem_cons_self List.mem_cons_self rfl
    cases hfix.symm.trans hfix'
    rfl

/-- No accepted edit is made of a comment. -/
theorem isComment_target : ∀ e ∈ appliedEdits judged, (s.kind e.target).isComment = false := by
  intro e he
  rcases appliedEdits_cases hrejoin e he with hspares | ⟨closer, brace, hmoved, rfl | rfl⟩
  · exact hspares.code
  · rw [Edit.target_append, ((strays_of_rejoinedBy hrejoin hmoved).kinds hs.sound).1]
    rfl
  · rw [Edit.target_replace, ((strays_of_rejoinedBy hrejoin hmoved).kinds hs.sound).2]
    rfl

end

/-- A pass with the rule alone touches no comment and keeps the code, and what it takes away or puts
in besides blanks are braces that it brings back. -/
structure Restores (s : Store) (edits : List Edit) : Prop where
  comments : ∀ e ∈ edits, (s.kind e.target).isComment = false
  code : visible (String.join (s.codeTokens.map (s.rewritten edits))) =
    visible (String.join (s.codeTokens.map s.text))
  edits : ∀ e ∈ edits, e.IsLayout s ∨ ∃ closer brace, Strays s closer brace ∧
    Edit.append closer " \x7b" ∈ edits ∧ Edit.replace brace "" ∈ edits ∧
    (e = .append closer " \x7b" ∨ e = .replace brace "")

/-- In every pass, the accepted fixes keep the code and all comments. -/
theorem exists_pass_restores (settings : Settings) (source : String) (n : Nat) :
    ∃ p, (Engine.ofRules Php.tokenize [rule settings]).IsPass source n p ∧ Php.Sound p.store ∧
      KeepsCode p.store (appliedEdits p.judged) ∧ Restores p.store (appliedEdits p.judged) := by
  obtain ⟨store, p, _, hbuild, hp, rfl, _⟩ := Php.exists_pass [rule settings] (n + 1)
    ((Engine.ofRules Php.tokenize [rule settings]).afterPass^[n] source)
  obtain ⟨hsound, _, hnodup, _, happlied⟩ := Php.pass_spec hp
  have hs := Php.gapped_of_build hbuild
  have hrejoin : ∀ f, (f, .applied) ∈ p.judged → Rejoins p.store f := by
    intro f hf
    obtain ⟨i, _, r, hr, hkind, hmem⟩ := Engine.mem_findings_iff.mp (happlied f hf).1
    obtain rfl := List.mem_singleton.mp hr
    obtain ⟨found, hfound, rfl⟩ := List.mem_map.mp hmem
    exact findings_rejoin hs hkind found hfound
  have hrearranges := rearranges hs hrejoin hnodup
  have hkeeps : KeepsCode p.store (appliedEdits p.judged) := (hrearranges.keepsCode_iff hsound).mpr
    ⟨fun closer brace h => (strays_of_rejoinedBy hrejoin h).behind, fun _ => id⟩
  refine ⟨p, hp, hsound, hkeeps, isComment_target hs hrejoin, hkeeps.code, fun e he => ?_⟩
  refine (appliedEdits_cases hrejoin e he).imp (·.layout) ?_
  rintro ⟨closer, brace, hmoved, hedit⟩
  exact ⟨closer, brace, strays_of_rejoinedBy hrejoin hmoved, hrearranges.put _ _ hmoved,
    hrearranges.take _ _ hmoved, hedit⟩

/-- A run with the rule for `try`, `catch` and `finally` alone gives a report, under all settings
and every budget, and loses neither code nor comment. In each of its passes the accepted edits leave
every comment untouched, the other tokens spell the same visible characters in the same order, and
only the brace of a `catch` moves, back over whitespace and comments. So every visible character of
the text is in the final one. -/
theorem passes_restore (settings : Settings) (budget : Nat) (source : String) :
    let engine := Engine.ofRules Php.tokenize [rule settings]
    ∃ report, engine.fix budget source = .ok report ∧
      (visible report.source).Perm (visible source) ∧
      ∀ n < report.outcome.passes, ∃ p, engine.IsPass source n p ∧
        p.store.source = engine.afterPass^[n] source ∧
        p.store.rewrite (appliedEdits p.judged) = engine.afterPass^[n + 1] source ∧
        Restores p.store (appliedEdits p.judged) := by
  intro engine
  obtain ⟨report, hfix⟩ := Php.exists_fix [rule settings] budget source
  have hpasses (n : Nat) : ∃ p, engine.IsPass source n p ∧
      p.store.source = engine.afterPass^[n] source ∧
      p.store.rewrite (appliedEdits p.judged) = engine.afterPass^[n + 1] source ∧
      Php.Sound p.store ∧ KeepsCode p.store (appliedEdits p.judged) ∧
      Restores p.store (appliedEdits p.judged) := by
    obtain ⟨p, hp, hrest⟩ := exists_pass_restores settings source n
    obtain ⟨_, hsource, _, hafter, _⟩ := Php.pass_spec hp
    refine ⟨p, hp, hsource, ?_, hrest⟩
    rw [Function.iterate_succ_apply', ← hafter]
  have hperm (n : Nat) : (visible (engine.afterPass^[n] source)).Perm (visible source) := by
    induction n with
    | zero => exact .refl _
    | succ n ih =>
      obtain ⟨p, _, hsource, hrewrite, hsound, hkeeps, _⟩ := hpasses n
      rw [← hrewrite]
      exact (hkeeps.visible_perm hsound).trans (hsource ▸ ih)
  refine ⟨report, hfix, ?_, fun n _ => ?_⟩
  · rw [Engine.source_of_fix hfix]
    exact hperm _
  · obtain ⟨p, hp, hsource, hrewrite, _, _, hrestores⟩ := hpasses n
    exact ⟨p, hp, hsource, hrewrite, hrestores⟩

end TryCatch

end PhpStyle
