import PhpStyle.Proofs.Run.Checking
import PhpStyle.Proofs.Run.Preview
import PhpStyle.Proofs.Standard.DocRules

/-!
# Documentation comments settle

A pass with one of the rules for documentation comments exchanges the bodies of comments, and the
text that it leaves is read with the new bodies. So every comment of a text goes from stage to stage
with the passes, and after two of them none is changed any more. White space and stars apart, no
pass changes the text.
-/

namespace PhpStyle

open Php (Fills InComments IsBody Legible Patched Says StartsComment docCloser docOpener enclosed
  letters lex outline
  settleWords tokenize)
open DocLayout (parts)
open Finding (Makes)
open Text (visible)

/-- The characters of a text that are neither white space nor stars. -/
def essence (cs : List Char) : List Char := cs.filter fun c => !Text.isSpace c && c != '*'

/-- The essence of characters put together is that of each. -/
theorem essence_append (a b : List Char) : essence (a ++ b) = essence a ++ essence b :=
  List.filter_append ..

/-- The visible characters without the stars are the essence. -/
theorem filter_visible (text : String) :
    (visible text).filter (· != '*') = essence text.toList := by
  rw [visible, List.filter_filter, essence]
  exact List.filter_congr fun c _ => Bool.and_comm ..

/-- What says nothing in a comment is white space and stars. -/
theorem essence_letters_eq {body : List Lexeme} (h : Legible body) :
    essence (letters body) = essence (letters (parts body)) := by
  have hlayout : ∀ l ∈ body, Fills l → essence l.text.toList = [] := by
    intro l hl hfills
    refine List.filter_eq_nil_iff.mpr fun c hc => ?_
    rcases h.layout hl hfills c hc with hblank | rfl | rfl
    · simp only [Php.Lexer.isBlank, Bool.or_eq_true, beq_iff_eq] at hblank
      rcases hblank with (rfl | rfl) | rfl <;> decide
    · decide
    · decide
  have hbody := h.isBody
  clear h
  induction body with
  | nil => rfl
  | cons l body ih =>
    obtain ⟨hl, hbody⟩ := List.forall_mem_cons.mp hbody
    obtain ⟨hfirst, hlayout⟩ := List.forall_mem_cons.mp hlayout
    rw [Php.letters_cons, essence_append, ih hlayout hbody]
    rcases hl with hfills | hsaid
    · rw [DocLayout.parts_cons_of_fills hfills, hfirst hfills, List.nil_append]
    · rw [DocLayout.parts_cons_of_saying hsaid, Php.letters_cons, essence_append]

namespace IsComment

variable {s : Store} {tag close tag' close' i : Nat}

/-- No comment opens within another. -/
theorem kind_ne_docOpen (h : IsComment s tag close) (hlow : tag < i) (hhigh : i ≤ close) :
    s.kind i ≠ .docOpen := by
  intro hkind
  have hpart := (h.breaking.comment tag close h.opener h.paired).2.2 i hlow hhigh
  rw [hkind] at hpart
  cases hpart

/-- Comments do not overlap. -/
theorem unique (h : IsComment s tag close) (h' : IsComment s tag' close') (hlow : tag ≤ i)
    (hhigh : i ≤ close) (hlow' : tag' ≤ i) (hhigh' : i ≤ close') : tag = tag' ∧ close = close' := by
  have htag : tag = tag' := by
    rcases Nat.lt_trichotomy tag tag' with hlt | heq | hlt
    · exact absurd h'.opener (h.kind_ne_docOpen hlt (Nat.le_trans hlow' hhigh))
    · exact heq
    · exact absurd h.opener (h'.kind_ne_docOpen hlt (Nat.le_trans hlow hhigh'))
  subst htag
  exact ⟨rfl, Option.some.inj (h.paired.symm.trans h'.paired)⟩

end IsComment

/-- The edits that a pass with a rule alone makes. -/
def passEdits (rule : Rule) (s : Store) : List Edit :=
  Session.grant [] ((Engine.ofRules tokenize [rule]).findings s)

/-- That all closed comments of a text have reached a stage. -/
def Staged (Spared Lone : List Lexeme → Prop) (source : String) (n : Nat) : Prop :=
  ∀ front body behind, lex source = front ++ (enclosed body ++ behind) → IsBody body →
    Stage Spared Lone body n

/-- At the start every comment is at the first stage. -/
theorem staged_zero (Spared Lone : List Lexeme → Prop) (source : String) :
    Staged Spared Lone source 0 :=
  fun _ _ _ _ _ => trivial

/-- A change of a body that has reached a stage. -/
def Moves (Spared Lone : List Lexeme → Prop) (n : Nat) (body body' : List Lexeme) : Prop :=
  Stage Spared Lone body n ∧ Tidied Spared Lone body body' ∧
    essence (letters body') = essence (letters body)

namespace Tidies

variable {find : File → Nat → List Finding} {Spared Lone : List Lexeme → Prop} {rule : Rule}
    {source : String} {store : Store} {e : Edit} {tag close k n : Nat}
  (hfind : Tidies find Spared Lone) (hkinds : rule.kinds = [.docOpen])
  (hcheck : rule.check = .anywhere find)

include hkinds hcheck

/-- The rule finds something at opening tags only, under its own name. -/
theorem mem_findings_iff {s : Store} {f : Finding} :
    f ∈ (Engine.ofRules tokenize [rule]).findings s ↔
    ∃ tag, s.kind tag = .docOpen ∧
      ∃ found ∈ find (.ofStore s) tag, { found with rule := rule.name } = f := by
  rw [Engine.mem_findings_iff]
  constructor
  · rintro ⟨i, _, r, hr, hkind, hmem⟩
    obtain rfl := List.mem_singleton.mp hr
    rw [Rule.runAt, hcheck] at hmem
    rw [hkinds, List.mem_singleton] at hkind
    exact ⟨i, hkind, List.mem_map.mp hmem⟩
  · rintro ⟨i, hkind, hmem⟩
    refine ⟨i, Store.lt_size_of_kind hkind (by decide), rule, List.mem_singleton_self _, ?_, ?_⟩
    · rw [hkinds, hkind]
      exact List.mem_singleton_self _
    · rw [Rule.runAt, hcheck]
      exact List.mem_map.mpr hmem

include hfind

variable (hbuild : Store.build? (settleWords (lex source)) (outline (settleWords (lex source))) =
      .ok store)

include hbuild

omit hkinds hcheck in
/-- Something is found of closed comments only. -/
theorem exists_comment {f : Finding} (hkind : store.kind tag = .docOpen)
    (hf : f ∈ find (.ofStore store) tag) : ∃ close, IsComment store tag close := by
  cases hmatch : store.commentMatch? tag with
  | none =>
    rw [hfind.unclosed hmatch] at hf
    cases hf
  | some close => exact ⟨close, Php.isComment_of_build hbuild hkind hmatch⟩

/-- The fixes of all comments are made. -/
theorem mem_passEdits_iff : e ∈ passEdits rule store ↔
    ∃ tag, store.kind tag = .docOpen ∧ Makes (find (.ofStore store) tag) e := by
  have hfound := @mem_findings_iff find rule hkinds hcheck store
  rw [passEdits, Session.mem_grant_iff]
  · constructor
    · rintro ⟨f, hf, c, hfix, he⟩
      obtain ⟨tag, hkind, found, hmem, rfl⟩ := hfound.mp hf
      exact ⟨tag, hkind, found, hmem, c, hfix, he⟩
    · rintro ⟨tag, hkind, found, hmem, c, hfix, he⟩
      exact ⟨_, hfound.mpr ⟨tag, hkind, found, hmem, rfl⟩, c, hfix, he⟩
  · intro f hf c hfix
    obtain ⟨tag, _, found, hmem, rfl⟩ := hfound.mp hf
    exact hfind.editsOnce found hmem c hfix
  · intro f hf c hfix f' hf' c' hfix' e he e' he' htarget
    obtain ⟨tag, hkind, found, hmem, rfl⟩ := hfound.mp hf
    obtain ⟨tag', hkind', found', hmem', rfl⟩ := hfound.mp hf'
    obtain ⟨close, h⟩ := hfind.exists_comment hbuild hkind hmem
    obtain ⟨close', h'⟩ := hfind.exists_comment hbuild hkind' hmem'
    have hwithin := hfind.within h ⟨found, hmem, c, hfix, he⟩
    have hwithin' := hfind.within h' ⟨found', hmem', c', hfix', he'⟩
    rw [← htarget] at hwithin'
    obtain ⟨rfl, _⟩ := h.unique h' hwithin.1 hwithin.2 hwithin'.1 hwithin'.2
    exact hfind.same h found hmem c hfix found' hmem' c' hfix' e he e' he' htarget

/-- In a comment a pass makes the edits of what is found of the comment, and no others. -/
theorem madeIn (h : IsComment store tag close) :
    MadeIn store (passEdits rule store) tag close (find (.ofStore store) tag) where
  nodup := Session.nodup_grant store _
  mem_iff e hlow hhigh := by
    rw [hfind.mem_passEdits_iff hkinds hcheck hbuild]
    constructor
    · rintro ⟨tag', hkind, hmakes⟩
      have ⟨found, hmem, _⟩ := hmakes
      obtain ⟨close', h'⟩ := hfind.exists_comment hbuild hkind hmem
      have hwithin := hfind.within h' hmakes
      obtain ⟨rfl, _⟩ := h.unique h' hlow hhigh hwithin.1 hwithin.2
      exact hmakes
    · exact fun hmakes => ⟨tag, h.opener, hmakes⟩

/-- Outside of comments, nothing is edited. -/
theorem rewritten_outside
    (hout : ∀ tag close, IsComment store tag close → ¬ (tag ≤ k ∧ k ≤ close)) :
    store.rewritten (passEdits rule store) k = store.text k := by
  refine Store.rewritten_of_forall_ne fun e he htarget => ?_
  obtain ⟨tag, hkind, hmakes⟩ := (hfind.mem_passEdits_iff hkinds hcheck hbuild).mp he
  have ⟨found, hmem, _⟩ := hmakes
  obtain ⟨close, h⟩ := hfind.exists_comment hbuild hkind hmem
  exact hout tag close h (htarget ▸ hfind.within h hmakes)

omit hfind hkinds hcheck in
/-- What starts a comment in a text starts one in its store. -/
theorem exists_comment_of_startsComment (hn : n < store.size) {l : Lexeme}
    (hl : (lex source)[n]? = some l) (hstarts : StartsComment l ((lex source).drop (n + 1))) :
    ∃ close, IsComment store n close := by
  obtain ⟨hkind, body, behind, hbody, hbehind⟩ := hstarts
  have hsize := Php.size_of_build hbuild
  have htext : l.text = "/**" := by
    rw [← String.toList_inj, (Php.spells_lex source l (List.mem_of_getElem? hl)).docOpen hkind]
    rfl
  have hopener : l = docOpener := by rw [docOpener, ← hkind, ← htext]
  have hsplit : lex source = (lex source).take n ++ (enclosed body ++ behind) := by
    have hdrop : (lex source).drop n = l :: (lex source).drop (n + 1) := by
      obtain ⟨hlt, rfl⟩ := List.getElem?_eq_some_iff.mp hl
      exact List.drop_eq_getElem_cons hlt
    conv_lhs => rw [← List.take_append_drop n (lex source), hdrop, hbehind, hopener]
    simp [enclosed]
  have hlength : ((lex source).take n).length = n := List.length_take_of_le (by omega)
  obtain ⟨hopen, hmatch, _⟩ := Php.comment_of_lex hbuild hsplit hbody
  rw [hlength] at hopen hmatch
  exact ⟨_, Php.isComment_of_build hbuild hopen hmatch⟩

/-- The text of a pass is put together from the lexemes of the text, with new bodies in its
comments. -/
theorem exists_patched (hstaged : Staged Spared Lone source k) (hn : n ≤ store.size)
    (hfree : ∀ tag close, IsComment store tag close → ¬ (tag < n ∧ n ≤ close)) :
    ∃ ks, Patched (InComments (Moves Spared Lone k)) n ((lex source).drop n) ks ∧
      letters ks = store.remade (passEdits rule store) n store.size := by
  have hsize := Php.size_of_build hbuild
  generalize hleft : store.size - n = left
  induction left using Nat.strong_induction_on generalizing n with
  | _ left ih =>
    rcases Nat.eq_or_lt_of_le hn with rfl | hn
    · rw [List.drop_of_length_le (by omega), Store.remade_self]
      exact ⟨[], .nil _, rfl⟩
    by_cases hstarts : ∃ close, IsComment store n close
    · obtain ⟨close, h⟩ := hstarts
      obtain ⟨hlt, hclose, hdrop, _, hlegible⟩ :=
        Php.exists_comment_of_build hbuild h.opener h.paired
      obtain ⟨body, hnew, htidied, hremade⟩ := hfind.tidied h (hfind.madeIn hkinds hcheck hbuild h)
      obtain ⟨ks, hks, hletters⟩ := ih (store.size - (close + 1)) (by omega) (n := close + 1) hclose
        (fun tag' close' h' hinside => by
          have hsame := h.unique h' (Nat.le_of_lt hlt) (Nat.le_refl close) (by omega) (by omega)
          omega) rfl
      have hstage : Stage Spared Lone (store.slice (n + 1) close) k :=
        hstaged ((lex source).take n) _ _ (by rw [← hdrop, List.take_append_drop]) hlegible.isBody
      have hessence : essence (letters body) = essence (letters (store.slice (n + 1) close)) := by
        rw [essence_letters_eq hnew, essence_letters_eq hlegible, htidied.parts_eq]
      have hlength : n + (enclosed (store.slice (n + 1) close)).length = close + 1 := by
        rw [enclosed, List.length_cons, List.length_append, Store.length_slice,
          List.length_singleton]
        omega
      rw [hdrop]
      refine ⟨enclosed body ++ ks,
        InComments.comment_cons hlegible.isBody hnew ⟨hstage, htidied, hessence⟩ ?_, ?_⟩
      · rwa [hlength]
      · rw [Php.letters_append, hletters, ← hremade, ← Store.remade_append _ _ (by omega) hclose]
    · have hlt : n < (lex source).length := hsize ▸ hn
      have hget : (lex source)[n]? = some (lex source)[n] := List.getElem?_eq_getElem hlt
      obtain ⟨ks, hks, hletters⟩ := ih (store.size - (n + 1)) (by omega) (n := n + 1) hn
        (fun tag close h hinside => by
          rcases Nat.eq_or_lt_of_le (Nat.le_of_lt_succ hinside.1) with rfl | hbefore
          · exact hstarts ⟨close, h⟩
          · exact hfree tag close h ⟨hbefore, by omega⟩) rfl
      rw [List.drop_eq_getElem_cons hlt]
      refine ⟨_, InComments.cons _ (fun hcomment => ?_) hks, ?_⟩
      · exact hstarts (exists_comment_of_startsComment hbuild hn hget hcomment)
      · rw [Php.letters_cons, hletters, Store.remade_cons _ _ hn,
          hfind.rewritten_outside hkinds hcheck hbuild, (Php.settled_of_build hbuild hget).2.1]
        intro tag close h hinside
        rcases Nat.eq_or_lt_of_le hinside.1 with rfl | hbefore
        · exact hstarts ⟨close, h⟩
        · exact hfree tag close h ⟨hbefore, hinside.2⟩

omit hkinds hcheck in
/-- Nothing is left to fix in a text whose comments have reached the last stage. -/
theorem fix_eq_none_of_staged (hstaged : Staged Spared Lone source 2) {f : Finding}
    (hkind : store.kind tag = .docOpen) (hf : f ∈ find (.ofStore store) tag) : f.fix = none := by
  obtain ⟨close, h⟩ := hfind.exists_comment hbuild hkind hf
  obtain ⟨_, _, hdrop, _, hlegible⟩ := Php.exists_comment_of_build hbuild h.opener h.paired
  have hsplit : lex source = (lex source).take tag ++
      (enclosed (store.slice (tag + 1) close) ++ (lex source).drop (close + 1)) := by
    rw [← hdrop, List.take_append_drop]
  exact hfind.settled h (hstaged _ _ _ hsplit hlegible.isBody) f hf

end Tidies

/-- Comments with other bodies of the same essence leave that of the text. -/
theorem essence_of_patched {Body : List Lexeme → List Lexeme → Prop} {n : Nat} {ls ks : List Lexeme}
    (hsame : ∀ body body', Body body body' → essence (letters body') = essence (letters body))
    (h : Patched (InComments Body) n ls ks) : essence (letters ks) = essence (letters ls) := by
  induction h with
  | nil => rfl
  | cons hpatch _ ih =>
    rw [Php.letters_append, Php.letters_append, essence_append, essence_append, ih]
    congr 1
    cases hpatch with
    | keep => rfl
    | comment _ _ _ hbody =>
      simp only [enclosed, Php.letters_cons, Php.letters_append, essence_append, hsame _ _ hbody]

namespace Tidies

variable {find : File → Nat → List Finding} {Spared Lone : List Lexeme → Prop} {rule : Rule}
    {source : String} {n : Nat}
  (hfind : Tidies find Spared Lone) (hkinds : rule.kinds = [.docOpen])
  (hcheck : rule.check = .anywhere find)

include hfind hkinds hcheck

/-- The text of a pass is read as it was put together. -/
theorem patched_afterPass (hstaged : Staged Spared Lone source n) :
    Patched (InComments (Moves Spared Lone n)) 0 (lex source)
      (lex ((Engine.ofRules tokenize [rule]).afterPass source)) := by
  obtain ⟨store, p, _, hbuild, hrun, _, hsource⟩ := Php.exists_pass [rule] 1 source
  have hafter : (Engine.ofRules tokenize [rule]).afterPass source = store.rewrite
      (passEdits rule store) :=
    (Engine.afterPass_of_runPass hrun).trans hsource
  obtain ⟨ks, hks, hletters⟩ := hfind.exists_patched hkinds hcheck hbuild hstaged
      (Nat.zero_le store.size) fun _ _ _ hinside => absurd hinside.1 (Nat.not_lt_zero _)
  rw [List.drop_zero] at hks
  have hlex : lex (store.rewrite (passEdits rule store)) = ks := by
    have htext : (store.rewrite (passEdits rule store)).toList = letters ks := by
      rw [hletters, Store.toList_rewrite, Store.remade, List.range_eq_range', Nat.sub_zero]
    rw [Php.lex_eq_lexFrom, htext]
    refine hks.lexFrom_eq InComments.rereads ?_
    rw [show letters (lex source) = source.toList from (Php.lex_cut source).spells,
      Php.lex_eq_lexFrom]
  rwa [hafter, hlex]

/-- A pass takes all comments to the next stage. -/
theorem staged_afterPass (hstaged : Staged Spared Lone source n) (hn : n < 2) :
    Staged Spared Lone ((Engine.ofRules tokenize [rule]).afterPass source) (n + 1) := by
  intro front body' behind hlex hbody
  have hpatched := hfind.patched_afterPass hkinds hcheck hstaged
  rw [hlex] at hpatched
  obtain ⟨body, hstage, htidied, _⟩ := Php.exists_of_patched hpatched hbody
  exact htidied.stage hfind hn hstage

/-- A pass loses nothing but white space and stars. -/
theorem essence_afterPass (source : String) :
    essence ((Engine.ofRules tokenize [rule]).afterPass source).toList = essence source.toList := by
  have hspells (text : String) : letters (lex text) = text.toList := (Php.lex_cut text).spells
  have hpatched := hfind.patched_afterPass hkinds hcheck (staged_zero Spared Lone source)
  have hsame := essence_of_patched (fun _ _ hmoves => hmoves.2.2) hpatched
  rwa [hspells, hspells] at hsame

/-- No number of passes changes the essence of a text. -/
theorem essence_iterate (source : String) (n : Nat) :
    essence ((Engine.ofRules tokenize [rule]).afterPass^[n] source).toList =
      essence source.toList := by
  induction n with
  | zero => rfl
  | succ n ih => rw [Function.iterate_succ_apply', hfind.essence_afterPass hkinds hcheck, ih]

/-- After two passes every comment has reached the last stage. -/
theorem staged_iterate (source : String) :
    Staged Spared Lone ((Engine.ofRules tokenize [rule]).afterPass^[2] source) 2 := by
  have hfirst := hfind.staged_afterPass hkinds hcheck (staged_zero Spared Lone source) (by decide)
  exact hfind.staged_afterPass hkinds hcheck hfirst (by decide)

/-- What is found in a text whose comments have reached the last stage has no fix. -/
theorem fix_eq_none_of_mem_findings (hstaged : Staged Spared Lone source 2) {store : Store}
    (hbuild : Store.build? (settleWords (lex source)) (outline (settleWords (lex source))) =
      .ok store)
    {f : Finding} (hf : f ∈ (Engine.ofRules tokenize [rule]).findings store) : f.fix = none := by
  obtain ⟨tag, hkind, found, hmem, rfl⟩ := (mem_findings_iff hkinds hcheck).mp hf
  have hnone : found.fix = none := hfind.fix_eq_none_of_staged hbuild hstaged hkind hmem
  exact hnone

/-- The third pass changes nothing. -/
theorem isFixedPt_of_staged (hstaged : Staged Spared Lone source 2) :
    Function.IsFixedPt (Engine.ofRules tokenize [rule]).afterPass source := by
  obtain ⟨store, p, _, hbuild, hrun, _, hsource⟩ := Php.exists_pass [rule] 1 source
  have hnone : passEdits rule store = [] := by
    refine List.eq_nil_iff_forall_not_mem.mpr fun e he => ?_
    obtain ⟨tag, hkind, f, hf, c, hfix, _⟩ := (hfind.mem_passEdits_iff hkinds hcheck hbuild).mp he
    cases (hfind.fix_eq_none_of_staged hbuild hstaged hkind hf).symm.trans hfix
  refine (Engine.afterPass_of_runPass hrun).trans ?_
  rw [hsource, ← passEdits, hnone,
    Store.rewrite_nil (Php.exact_of_build hbuild).sound, (Php.source_of_build hbuild).1]

/-- A run with the rule alone ends with the text of two passes. -/
theorem fix_spec (source : String) {budget : Nat} (hbudget : 3 ≤ budget) :
    let engine := Engine.ofRules tokenize [rule]
    ∃ report, engine.fix budget source = .ok report ∧
      (∃ passes ≤ 3, report.outcome = .converged passes) ∧
      report.source = engine.afterPass^[2] source := by
  intro engine
  obtain ⟨report, hfix⟩ := Php.exists_fix [rule] budget source
  have hfixed := hfind.isFixedPt_of_staged hkinds hcheck (hfind.staged_iterate hkinds hcheck source)
  refine ⟨report, hfix, ?_⟩
  rcases Engine.outcome_of_fix hfix with ⟨n, _, hsettled, hmoves, houtcome, hsource⟩ | ⟨hmoves, _⟩
  · have hn : n ≤ 2 := by
      by_contra hlate
      exact hmoves 2 (by omega) hfixed
    refine ⟨⟨n + 1, Nat.succ_le_succ hn, houtcome⟩, ?_⟩
    obtain ⟨k, hk⟩ := Nat.exists_eq_add_of_le' hn
    rw [hsource, hk, Function.iterate_add_apply]
    exact (hsettled.iterate k).symm
  · exact absurd hfixed (hmoves 2 (by omega))

end Tidies

namespace DocComment

/-- Under all settings, a run over any text with one of the rules for documentation comments alone
and a budget of at least three passes converges within three. White space and stars apart, it
changes nothing, and a check of the text that it leaves finds nothing that can be fixed. -/
theorem fix_tidies_up (settings : Settings) (source : String) {rule : Rule}
    (hrule : rule ∈ [DocLayout.rule settings, DocComment.rule settings]) {budget : Nat}
    (hbudget : 3 ≤ budget) :
    let engine := Engine.ofRules tokenize [rule]
    ∃ report, engine.fix budget source = .ok report ∧
      (∃ passes ≤ 3, report.outcome = .converged passes) ∧
      (visible report.source).filter (· != '*') = (visible source).filter (· != '*') ∧
      ∃ checked, engine.check report.source = .ok checked ∧
        ∀ d ∈ checked.diagnostics, d.fixable = false := by
  intro engine
  obtain ⟨find, Spared, Lone, hfind, hkinds, hcheck⟩ : ∃ find Spared Lone, Tidies find Spared Lone ∧
      rule.kinds = [.docOpen] ∧ rule.check = .anywhere find := by
    simp only [List.mem_cons, List.not_mem_nil, or_false] at hrule
    rcases hrule with rfl | rfl
    · exact ⟨_, _, _, DocLayout.tidies settings, rfl, rfl⟩
    · exact ⟨_, _, _, DocComment.tidies settings, rfl, rfl⟩
  obtain ⟨report, hfix, hconverged, hsource⟩ := hfind.fix_spec hkinds hcheck source hbudget
  refine ⟨report, hfix, hconverged, ?_, ?_⟩
  · rw [filter_visible, filter_visible, hsource, hfind.essence_iterate hkinds hcheck]
  · obtain ⟨store, hstore, hbuild⟩ := Php.exists_tokenize report.source
    have hread : engine.tokenize 1 report.source = .ok store :=
      Engine.tokenize_eq_ok_iff.mpr ⟨hstore, (Php.source_of_build hbuild).1⟩
    refine ⟨_, Engine.check_of_tokenize hread, fun d hd => ?_⟩
    obtain ⟨f, hf, rfl⟩ := List.mem_map.mp hd
    have hstaged : Staged Spared Lone report.source 2 :=
      hsource ▸ hfind.staged_iterate hkinds hcheck source
    have hnone := hfind.fix_eq_none_of_mem_findings hkinds hcheck hstaged hbuild hf
    simp [Finding.detach, Finding.fixable, hnone]

/-- A comment with one description on the line of both of its tags, under the budget of a run that
names none. -/
theorem fix_tidies_up_description :
    let source := "<?php /** Adds up. */"
    DocComment.rule .stefna ∈ [DocLayout.rule .stefna, DocComment.rule .stefna] ∧
    3 ≤ Engine.defaultBudget ∧
      ∃ report, (Engine.ofRules tokenize [DocComment.rule .stefna]).fix Engine.defaultBudget
      source = .ok report ∧ ∃ passes ≤ 3, report.outcome = .converged passes := by
  have hrule : DocComment.rule .stefna ∈ [DocLayout.rule .stefna, DocComment.rule .stefna] := by
    simp
  have hbudget : 3 ≤ Engine.defaultBudget := by decide
  obtain ⟨report, hfix, hconverged, _⟩ :=
    fix_tidies_up .stefna "<?php /** Adds up. */" hrule hbudget
  exact ⟨hrule, hbudget, report, hfix, hconverged⟩

end DocComment

end PhpStyle
