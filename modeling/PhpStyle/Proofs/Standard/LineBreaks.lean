import PhpStyle.Proofs.Edit.Effects
import PhpStyle.Proofs.Php.Returns
import PhpStyle.Proofs.Standard.Layout
import PhpStyle.Proofs.Text.Uniform

/-!
# What edits make of line breaks

In a text with one kind of line break every token has that kind too, save for line feeds that share
their break with the token before them. So the text keeps its kind if what is written has it, and if
no edit takes one half of a shared break and leaves the other. A fix that clears the half with the
carriage return, and not the line feed behind it, leaves a break of the other kind.
-/

namespace PhpStyle

open Php (Breaking)

/-- Kinds of what stands in the lines of documentation comments. -/
def Kind.isDocContent : Kind → Bool
  | .docWhitespace | .docTag | .docText => true
  | _ => false

/-- The text that a change brings in. -/
def Change.written : Change → String
  | .insert text | .append text | .replace text => text
  | .delete => ""

/-- That an edit, among the tokens that are edited together, mixes no line breaks. -/
structure Edit.Mends (style : LineEnding) (s : Store) (targets : List Nat) (e : Edit) : Prop where
  uniform : style.Uniform (e.result s).toList
  /-- The carriage return of a shared break is not edited alone. -/
  first : s.CutsBreak e.target → e.target + 1 ∈ targets
  /-- The line feed of a shared break is not edited alone. -/
  second : ∀ i, e.target = i + 1 → s.CutsBreak i → i ∈ targets
  /-- What is visible in a comment stays, or goes with what follows it. -/
  visible : s.kind e.target = .docTag ∨ s.kind e.target = .docText →
    s.kind (e.target + 1) ≠ .docClose → (∃ text, e.change = .insert text) ∨ e.target + 1 ∈ targets

namespace Finding

/-- The edits of a fix mix no line breaks. -/
def Mends (style : LineEnding) (s : Store) (f : Finding) : Prop :=
  ∀ c, f.fix = some c → ∀ e ∈ c, e.Mends style s c.targets

/-- A fix that clears a row of tokens behind the last content of a documentation comment, none of
which says anything. -/
structure Trims (s : Store) (f : Finding) (last count : Nat) : Prop where
  code : f.code = "SpacingAfter"
  fix : f.fix = some ((List.range' (last + 1) count).map (Edit.replace · ""))
  content : s.kind last = .docTag ∨ s.kind last = .docText
  filler : ∀ k, last < k → k ≤ last + count → s.kind k = .docWhitespace ∨ s.kind k = .docStar

/-- A fix that tears a line break: it clears the token that has the carriage return, and leaves the
line feed behind it. -/
def TearsBreak (s : Store) (f : Finding) : Prop :=
  ∃ c i, f.fix = some c ∧ s.CutsBreak i ∧ .replace i "" ∈ c ∧ i + 1 ∉ c.targets

end Finding

section

variable {s : Store} {style : LineEnding} (hs : Breaking s)

include hs

namespace Store

omit hs in
/-- Where tokens are cleared, those at both sides come to stand side by side. -/
theorem exists_rewrite_split {edits : List Edit} {i j : Nat} (hij : i < j) (hj : j < s.size)
    (hnone : ∀ k, i < k → k < j → s.rewritten edits k = "") :
    ∃ before behind, (s.rewrite edits).toList =
      before ++ (s.rewritten edits i).toList ++ ((s.rewritten edits j).toList ++ behind) := by
  obtain ⟨n, hn⟩ : ∃ n, s.size - j = n + 1 := ⟨s.size - j - 1, by omega⟩
  have hcleared :
      ((List.range' (i + 1) (j - (i + 1))).flatMap fun k => (s.rewritten edits k).toList) = [] := by
    refine List.flatMap_eq_nil_iff.mpr fun k hk => ?_
    rw [List.mem_range'_1] at hk
    rw [hnone k (by omega) (by omega), String.toList_empty]
  have hbehind : List.range' j (n + 1) = j :: List.range' (j + 1) n := List.range'_succ
  rw [toList_rewrite, flatMap_range_split _ (show i + 1 ≤ j from hij) (Nat.le_of_lt hj), hcleared,
    hn, hbehind, ← List.range_eq_range', List.range_succ, List.flatMap_append,
    List.flatMap_singleton, List.flatMap_cons, List.nil_append]
  exact ⟨_, _, rfl⟩

/-- A token behind which a line break is cut is not the last one. -/
theorem lt_size_of_cutsBreak {i : Nat} (hcut : s.CutsBreak i) : i + 1 < s.size :=
  lt_size_of_kind (hs.cut i hcut).2.1 (by decide)

variable (huniform : style.Uniform s.source.toList)

include huniform

/-- A token has the line breaks of the text, or it is a line feed behind its carriage return. -/
theorem uniform_or_cutsBreak (i : Nat) :
    style.Uniform (s.text i).toList ∨ ∃ j, i = j + 1 ∧ s.CutsBreak j := by
  by_cases hi : i < s.size
  · have hsource := toList_source hs.exact.sound
    rw [flatMap_range_split _ (Nat.le_succ i) hi, ← List.append_assoc, ← List.range_eq_range',
      Nat.succ_sub (Nat.le_refl i), Nat.sub_self, List.range'_one, List.flatMap_singleton]
      at hsource
    rw [hsource] at huniform
    have hbefore := huniform.of_append_left
    by_cases hhead : (s.text i).toList.head? = some '\n'
    · cases style with
      | lf => exact .inl fun hmem => hbefore (List.mem_append_right _ hmem)
      | crlf =>
        obtain ⟨rest, hrest⟩ := List.head?_eq_some_iff.mp hhead
        rw [hrest] at hbefore
        have hlast := hbefore _ _ rfl
        cases i with
        | zero => cases hlast
        | succ j =>
          have hne : (s.text j).toList ≠ [] :=
            fun hnil => hs.exact.text_ne j (Nat.lt_of_succ_lt hi) (String.toList_eq_nil_iff.mp hnil)
          rw [List.range_succ, List.flatMap_append, List.flatMap_singleton,
            List.getLast?_append_of_ne_nil _ hne] at hlast
          exact .inr ⟨j, rfl, hlast, hhead⟩
    · exact .inl (hbefore.of_append_right hhead)
  · rw [text, token_of_size_le (Nat.le_of_not_lt hi)]
    exact .inl .nil

/-- Only blanks of documentation comments end within a line break, so every other token has those of
the text. -/
theorem uniform_of_kind {i : Nat} (hkind : s.kind i ≠ .docWhitespace) :
    style.Uniform (s.text i).toList := by
  refine (uniform_or_cutsBreak hs huniform i).resolve_right ?_
  rintro ⟨j, rfl, hcut⟩
  exact hkind (hs.cut j hcut).2.1

end Store

namespace Edit

variable (huniform : style.Uniform s.source.toList) {targets : List Nat} {e : Edit}

include huniform in
/-- An edit of such a token leaves the line breaks of the text if it writes no others. -/
theorem uniform_result (hkind : s.kind e.target ≠ .docWhitespace)
    (hwritten : style.Uniform e.change.written.toList) : style.Uniform (e.result s).toList := by
  have htext := Store.uniform_of_kind hs huniform hkind
  unfold result Change.applyTo
  cases hchange : e.change with
  | insert text =>
    rw [hchange] at hwritten
    simpa [Change.written] using hwritten.append htext
  | append text =>
    rw [hchange] at hwritten
    simpa [Change.written] using htext.append hwritten
  | replace text => simpa [hchange, Change.written] using hwritten
  | delete => exact .nil

include huniform in
/-- Outside of the lines of documentation comments an edit has to write line breaks of the right
kind only. -/
theorem mends_of_kind (hkind : (s.kind e.target).isDocContent = false)
    (hwritten : style.Uniform e.change.written.toList) : e.Mends style s targets where
  uniform := uniform_result hs huniform
    (fun heq => by simp [heq, Kind.isDocContent] at hkind) hwritten
  first hcut := by simp [(hs.cut _ hcut).1, Kind.isDocContent] at hkind
  second i heq hcut := by simp [heq, (hs.cut i hcut).2.1, Kind.isDocContent] at hkind
  visible hcontent := by rcases hcontent with heq | heq <;> simp [heq, Kind.isDocContent] at hkind

/-- Of a row of tokens that are edited all, each is edited together with its neighbours, if no
comment reaches over the ends of the row. -/
theorem mends_of_mem_between {low high : Nat} (hlow : s.kind low ≠ .docWhitespace)
    (hsize : high < s.size) (hhigh : (s.kind high).isDocPart = true → s.kind high = .docClose)
    (htargets : ∀ k ∈ s.between low high, k ∈ targets) (hmem : e.target ∈ s.between low high)
    (hresult : style.Uniform (e.result s).toList) : e.Mends style s targets := by
  obtain ⟨hafter, hbefore⟩ := Store.mem_between.mp hmem
  refine ⟨hresult, fun hcut => ?_, fun i heq hcut => ?_, fun hcontent hclose => .inr ?_⟩
  · refine htargets _ (Store.mem_between.mpr ⟨by omega, Nat.lt_of_le_of_ne hbefore fun heq => ?_⟩)
    have hsecond := (hs.cut _ hcut).2.1
    have heq : e.target + 1 = high := heq
    rw [heq] at hsecond
    rw [hsecond] at hhigh
    cases hhigh rfl
  · refine htargets _
      (Store.mem_between.mpr ⟨Nat.lt_of_le_of_ne (by omega) fun hsame => ?_, by omega⟩)
    exact hlow (hsame ▸ (hs.cut i hcut).1)
  · refine htargets _ (Store.mem_between.mpr ⟨by omega, Nat.lt_of_le_of_ne hbefore fun heq => ?_⟩)
    have heq : e.target + 1 = high := heq
    rw [heq] at hclose
    have hfollows := hs.follows e.target (heq ▸ hsize)
    rw [heq] at hfollows
    refine hclose (hhigh (hfollows.trans ?_))
    rcases hcontent with hkind | hkind <;> simp [hkind, Kind.leavesDocOpen]

end Edit

namespace Store

variable (huniform : style.Uniform s.source.toList) {edits : List Edit}
  (hnodup : (edits.map (·.target)).Nodup)

include huniform hnodup

/-- Edits that mix no line breaks leave the text with those that it has. -/
theorem uniform_rewrite (hmends : ∀ e ∈ edits, e.Mends style s (Changeset.targets edits)) :
    style.Uniform (s.rewrite edits).toList := by
  rw [toList_rewrite]
  have hprefix (n : Nat) :
      style.Uniform ((List.range n).flatMap fun k => (s.rewritten edits k).toList) := by
    induction n with
    | zero => exact .nil
    | succ n ih =>
      rw [List.range_succ, List.flatMap_append, List.flatMap_singleton]
      by_cases hedited : ∃ e ∈ edits, e.target = n
      · obtain ⟨e, he, rfl⟩ := hedited
        rw [rewritten_of_mem hnodup he]
        exact ih.append (hmends e he).uniform
      have hkept : s.rewritten edits n = s.text n :=
        rewritten_of_forall_ne fun e he heq => hedited ⟨e, he, heq⟩
      rcases uniform_or_cutsBreak hs huniform n with htext | ⟨j, rfl, hcut⟩
      · exact ih.append (hkept ▸ htext)
      -- the carriage return in front is kept, since its line feed is
      have hbefore : s.rewritten edits j = s.text j := by
        refine rewritten_of_forall_ne fun e he heq => hedited ?_
        obtain ⟨e', he', htarget⟩ := List.mem_map.mp ((hmends e he).first (heq ▸ hcut))
        exact ⟨e', he', heq ▸ htarget⟩
      rw [hkept, (hs.cut j hcut).2.2]
      refine ih.concat ?_
      have hne : (s.text j).toList ≠ [] := by
        intro hnil
        simp [CutsBreak, hnil] at hcut
      rw [List.range_succ, List.flatMap_append, List.flatMap_singleton, hbefore,
        List.getLast?_append_of_ne_nil _ hne]
      exact hcut.1
  exact hprefix s.size

end Store

namespace Finding

variable {f : Finding} {last count : Nat}

omit hs in
/-- A fix that trims edits the tokens behind the last one that is left. -/
theorem Trims.mem_targets (h : f.Trims s last count) {c : Changeset}
    (hfix : f.fix = some c) {k : Nat} : k ∈ c.targets ↔ last < k ∧ k ≤ last + count := by
  rw [h.fix] at hfix
  cases hfix
  rw [Changeset.targets, List.map_map]
  simp only [List.mem_map, List.mem_range'_1, Function.comp_apply]
  constructor
  · rintro ⟨_, hk, rfl⟩
    exact ⟨by simp only [Edit.replace]; omega, by simp only [Edit.replace]; omega⟩
  · exact fun hk => ⟨k, by omega, rfl⟩

omit hs in
/-- A fix that mixes no line breaks tears none. -/
theorem Mends.not_tearsBreak (h : f.Mends style s) : ¬ f.TearsBreak s := by
  rintro ⟨c, i, hfix, hcut, he, hleft⟩
  exact hleft ((h c hfix _ he).first hcut)

/-- Behind content, the line feed of a shared break is not the first of a row. -/
theorem Trims.second (h : f.Trims s last count) {c : Changeset} (hfix : f.fix = some c) {i : Nat}
    (hi : i + 1 ∈ c.targets) (hcut : s.CutsBreak i) : i ∈ c.targets := by
  obtain ⟨hlow, hhigh⟩ := (h.mem_targets hfix).mp hi
  refine (h.mem_targets hfix).mpr ⟨Nat.lt_of_le_of_ne (by omega) ?_, by omega⟩
  rintro rfl
  have hkind := (hs.cut last hcut).1
  rcases h.content with hcontent | hcontent <;> cases hkind.symm.trans hcontent

/-- A fix that trims mixes no line breaks unless it tears one. -/
theorem Trims.mends (h : f.Trims s last count) (htears : ¬ f.TearsBreak s) : f.Mends style s := by
  intro c hfix e he
  have hmem : e.target ∈ c.targets := List.mem_map_of_mem he
  have hclears : e = .replace e.target "" := by
    have hfix' := h.fix
    rw [hfix] at hfix'
    cases hfix'
    obtain ⟨k, _, rfl⟩ := List.mem_map.mp he
    rfl
  refine ⟨?_, fun hcut => ?_, fun i heq hcut => h.second hs hfix (heq ▸ hmem) hcut,
    fun hcontent => ?_⟩
  · rw [hclears]
    exact .nil
  · by_contra hleft
    exact htears ⟨c, e.target, hfix, hcut, hclears ▸ he, hleft⟩
  · obtain ⟨hlow, hhigh⟩ := (h.mem_targets hfix).mp hmem
    rcases h.filler _ hlow hhigh with hkind | hkind <;> simp [hkind] at hcontent

omit hs in
/-- The break that a row tears is the one at its end. -/
theorem Trims.end_of_tearsBreak (h : f.Trims s last count) (htears : f.TearsBreak s) :
    0 < count ∧ s.CutsBreak (last + count) := by
  obtain ⟨c, i, hfix, hcut, he, hleft⟩ := htears
  obtain ⟨hlow, hhigh⟩ := (h.mem_targets hfix).mp (List.mem_map_of_mem he)
  rw [h.mem_targets hfix] at hleft
  obtain rfl : i = last + count := by
    simp only [Edit.replace] at hlow hhigh
    omega
  exact ⟨by simp only [Edit.replace] at hlow; omega, hcut⟩

section

variable {judged : List (Finding × FixStatus)}
    (hnodup : ((appliedEdits judged).map (·.target)).Nodup)
  (hf : (f, .applied) ∈ judged) (htrims : f.Trims s last count)

include hnodup hf htrims

omit hs in
/-- What is applied to a token of a row belongs to the fix that clears the row, so it stays within
the row. -/
theorem Trims.target_of_mem {g : Finding} {c : Changeset} {e : Edit} (hg : (g, .applied) ∈ judged)
    (hfix : g.fix = some c) (he : e ∈ c) {k : Nat} (hk : k ∈ c.targets) (hlow : last < k)
    (hhigh : k ≤ last + count) : last < e.target ∧ e.target ≤ last + count := by
  obtain ⟨a, ha, hatarget⟩ := List.mem_map.mp hk
  obtain ⟨b, hb, hbtarget⟩ := List.mem_map.mp ((htrims.mem_targets htrims.fix).mpr ⟨hlow, hhigh⟩)
  obtain rfl := applied_unique hnodup hg hf hfix htrims.fix ha hb (hatarget.trans hbtarget.symm)
  exact (htrims.mem_targets hfix).mp (List.mem_map_of_mem he)

omit hs in
/-- Of the tokens that are trimmed nothing is left. -/
theorem Trims.rewritten_of_mem {k : Nat} (hlow : last < k) (hhigh : k ≤ last + count) :
    s.rewritten (appliedEdits judged) k = "" := by
  have hk : k ∈ List.range' (last + 1) count := List.mem_range'_1.mpr (by omega)
  have hmem : Edit.replace k "" ∈ appliedEdits judged :=
    mem_appliedEdits.mpr ⟨f, _, hf, htrims.fix, List.mem_map_of_mem hk⟩
  exact Store.rewritten_of_mem hnodup hmem

variable (hjudged : ∀ f, (f, .applied) ∈ judged → f.Mends style s ∨
      ∃ last count, f.Trims s last count)

include hjudged

/-- The line feed behind a row is kept if its carriage return ends the row. -/
theorem Trims.rewritten_end (hpos : 0 < count) (hcut : s.CutsBreak (last + count)) :
    s.rewritten (appliedEdits judged) (last + count + 1) = "\n" := by
  rw [Store.rewritten_of_forall_ne, (hs.cut _ hcut).2.2]
  intro e he heq
  obtain ⟨g, c, hg, hfix, he⟩ := mem_appliedEdits.mp he
  have hsecond : last + count ∈ c.targets := by
    rcases hjudged g hg with hmends | ⟨_, _, htrims'⟩
    · exact (hmends c hfix e he).second _ heq hcut
    · exact htrims'.second hs hfix (heq ▸ List.mem_map_of_mem he) hcut
  have := htrims.target_of_mem hnodup hf hg hfix he hsecond (by omega) (Nat.le_refl _)
  omega

omit hs in
/-- The content in front of a row ends as before. -/
theorem Trims.getLast?_rewritten (hpos : 0 < count) (hne : (s.text last).toList ≠ []) :
    (s.rewritten (appliedEdits judged) last).toList.getLast? = (s.text last).toList.getLast? := by
  by_cases hedited : ∃ e ∈ appliedEdits judged, e.target = last
  case neg => rw [Store.rewritten_of_forall_ne fun e he heq => hedited ⟨e, he, heq⟩]
  obtain ⟨e, he, rfl⟩ := hedited
  rw [Store.rewritten_of_mem hnodup he]
  obtain ⟨g, c, hg, hfix, he⟩ := mem_appliedEdits.mp he
  rcases hjudged g hg with hmends | ⟨last', count', htrims'⟩
  · have hnext : s.kind (e.target + 1) ≠ .docClose := by
      rcases htrims.filler _ (Nat.lt_succ_self _) (by omega) with hkind | hkind <;> simp [hkind]
    rcases (hmends c hfix e he).visible htrims.content hnext with ⟨text, hinsert⟩ | hbehind
    · rw [Edit.result, hinsert, Change.applyTo, String.toList_append,
        List.getLast?_append_of_ne_nil _ hne]
    · have := htrims.target_of_mem hnodup hf hg hfix he hbehind (Nat.lt_succ_self _) (by omega)
      omega
  · have hcontent := htrims.content
    obtain ⟨hlow, hhigh⟩ := (htrims'.mem_targets hfix).mp (List.mem_map_of_mem he)
    rcases htrims'.filler _ hlow hhigh with hkind | hkind <;> simp [hkind] at hcontent

end

end Finding

/-- Of applied fixes that mix no line breaks otherwise, one that tears a line break leaves the text
with breaks of two kinds. -/
theorem not_uniform_of_tearsBreak (huniform : style.Uniform s.source.toList)
    {judged : List (Finding × FixStatus)} (hnodup : ((appliedEdits judged).map (·.target)).Nodup)
    (hjudged : ∀ f, (f, .applied) ∈ judged → f.Mends style s ∨ ∃ last count, f.Trims s last count)
    {f : Finding} (hf : (f, .applied) ∈ judged) (htears : f.TearsBreak s) :
    ¬ style.Uniform (s.rewrite (appliedEdits judged)).toList := by
  obtain ⟨last, count, htrims⟩ := (hjudged f hf).resolve_left (·.not_tearsBreak htears)
  obtain ⟨hpos, hcut⟩ := htrims.end_of_tearsBreak htears
  have hsize := Store.lt_size_of_cutsBreak hs hcut
  have hne : (s.text last).toList ≠ [] :=
    fun hnil => hs.exact.text_ne last (by omega) (String.toList_eq_nil_iff.mp hnil)
  have hfeed := htrims.rewritten_end hs hnodup hf hjudged hpos hcut
  have hlast := htrims.getLast?_rewritten hnodup hf hjudged hpos hne
  intro hafter
  cases style with
  | lf =>
    refine huniform ?_
    rw [Store.toList_source hs.exact.sound]
    exact List.mem_flatMap.mpr
      ⟨last + count, List.mem_range.mpr (Nat.lt_of_succ_lt hsize), List.mem_of_getLast? hcut.1⟩
  | crlf =>
    -- the content and the line feed come to stand side by side
    obtain ⟨before, behind, hsplit⟩ :=
      Store.exists_rewrite_split (show last < last + count + 1 by omega) hsize
      fun k hlow hhigh => htrims.rewritten_of_mem hnodup hf hlow (Nat.le_of_lt_succ hhigh)
    rw [hsplit, hfeed] at hafter
    have hreturn := hafter _ behind rfl
    rw [List.getLast?_append_of_ne_nil, hlast] at hreturn
    · refine hs.visible last ?_ ?_ hreturn
      · rcases htrims.content with hkind | hkind <;> simp [hkind, Kind.isDocPart]
      · rcases htrims.content with hkind | hkind <;> simp [hkind]
    · intro hnil
      rw [hnil, List.getLast?_nil, eq_comm, List.getLast?_eq_none_iff] at hlast
      exact hne hlast

end

end PhpStyle
