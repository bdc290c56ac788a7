import PhpStyle.Proofs.Standard.DocOneLine

/-!
# How the rules for documentation comments tidy them up

Each of the two rules takes a comment through the same stages. A comment that is spared is left
alone, and so is one that says nothing. One with a lone type is brought to one line and spared from
then on. Any other is laid out anew: it is framed at the first change and spaced at the second, and
when it is both, nothing is left to do.
-/

namespace PhpStyle

open Php (Fills IsNewline Legible Says enclosed letters)
open DocLayout (Cleared Ends Framed Relaid Spaced framed_of_fills layoutFindings parts)
open Finding (Makes)

/-- How a comment is changed, given which comments are spared and which are brought to one line. -/
inductive Tidied (Spared Lone : List Lexeme → Prop) : List Lexeme → List Lexeme → Prop
  | spared {body : List Lexeme} (h : Spared body) : Tidied Spared Lone body body
  | silent {body : List Lexeme} (h : ∀ l ∈ body, Fills l) : Tidied Spared Lone body body
  | oneLine {body body' : List Lexeme} (h : Lone body) (hparts : parts body' = parts body)
      (hspared : Spared body') : Tidied Spared Lone body body'
  | relaid {body body' : List Lexeme} (hspared : ¬ Spared body) (hlone : ¬ Lone body)
      (h : Relaid body body') : Tidied Spared Lone body body'

/-- A rule for documentation comments: what it finds at a comment, and how its fixes change the
comment. -/
structure Tidies (find : File → Nat → List Finding) (Spared Lone : List Lexeme → Prop) : Prop where
  lone : ∀ {body body'}, DocComment.Summary.ofBody body' = DocComment.Summary.ofBody body →
    Lone body' → Lone body
  silent : ∀ {body}, (∀ l ∈ body, Fills l) → ¬ Lone body
  unclosed : ∀ {s tag}, s.commentMatch? tag = none → find (.ofStore s) tag = []
  editsOnce : ∀ {s tag}, ∀ f ∈ find (.ofStore s) tag, f.EditsOnce
  within : ∀ {s tag close e}, IsComment s tag close → Makes (find (.ofStore s) tag) e →
    tag ≤ e.target ∧ e.target ≤ close
  same : ∀ {s tag close}, IsComment s tag close → ∀ f ∈ find (.ofStore s) tag, ∀ c, f.fix = some c →
    ∀ f' ∈ find (.ofStore s) tag, ∀ c', f'.fix = some c' → ∀ e ∈ c, ∀ e' ∈ c',
    e.target = e'.target → c = c'
  tidied : ∀ {s tag close edits}, IsComment s tag close →
    MadeIn s edits tag close (find (.ofStore s) tag) →
    ∃ body, Legible body ∧ Tidied Spared Lone (s.slice (tag + 1) close) body ∧
      s.remade edits tag (close + 1) = letters (enclosed body)
  settled : ∀ {s tag close}, IsComment s tag close → ¬ Lone (s.slice (tag + 1) close) ∧
      Framed (s.slice (tag + 1) close) ∧ Spaced (s.slice (tag + 1) close) ∨
      Spared (s.slice (tag + 1) close) →
    ∀ f ∈ find (.ofStore s) tag, f.fix = none

/-- The stages of a comment: any comment, one that was changed, and one that was changed twice. -/
def Stage (Spared Lone : List Lexeme → Prop) (body : List Lexeme) : Nat → Prop
  | 0 => True
  | 1 => ¬ Lone body ∧ Framed body ∨ Spared body
  | _ => ¬ Lone body ∧ Framed body ∧ Spaced body ∨ Spared body

section

variable {find : File → Nat → List Finding} {Spared Lone : List Lexeme → Prop}
    {body body' : List Lexeme}

/-- A tidied comment has the parts that it had. -/
theorem Tidied.parts_eq (h : Tidied Spared Lone body body') : parts body' = parts body := by
  cases h with
  | spared => rfl
  | silent => rfl
  | oneLine _ hparts => exact hparts
  | relaid _ _ h => exact h.parts

/-- Every change takes a comment to the next stage. -/
theorem Tidied.stage (hfind : Tidies find Spared Lone) (h : Tidied Spared Lone body body') {n : Nat}
    (hn : n < 2) (hstage : Stage Spared Lone body n) : Stage Spared Lone body' (n + 1) := by
  have hfirst : Stage Spared Lone body' 1 := by
    cases h with
    | spared h => exact .inr h
    | silent h => exact .inl ⟨hfind.silent h, (framed_of_fills h).1⟩
    | oneLine _ _ hspared => exact .inr hspared
    | relaid _ hlone h => exact .inl ⟨fun hnew => hlone (hfind.lone h.summary hnew), h.framed⟩
  match n with
  | 0 => exact hfirst
  | 1 =>
    cases h with
    | spared h => exact .inr h
    | silent h => exact .inl ⟨hfind.silent h, framed_of_fills h⟩
    | oneLine _ _ hspared => exact .inr hspared
    | relaid hspared hlone h =>
      obtain ⟨_, hframed⟩ := hstage.resolve_right hspared
      exact .inl ⟨fun hnew => hlone (hfind.lone h.summary hnew), h.framed, h.spaced hframed⟩

end

namespace DocLayout

variable {s : Store} {settings : Settings} {newline : String} {tag short last close : Nat}

/-- The fix of a comment that edits a token. -/
def fixAt (s : Store) (newline : String) (tag short last close i : Nat) : Changeset :=
  if i = tag ∨ i = short then [.append tag newline, .insert short "* "]
  else if i = close then [.insert close newline]
  else if i < short then
    (s.onLinesBetween (s.line tag) (s.line short) (s.between tag short)).map (Edit.replace · "")
  else if last < i then
    ((s.between last close).takeWhile fun p => !s.sameLine (p + 1) close).map (Edit.replace · "")
  else
    (long? s short close).toList.flatMap fun long =>
      (s.onLinesBetween (s.line (shortEnd s short close)) (s.line long - 1)
        (s.between (shortEnd s short close) long)).map (Edit.replace · "")

/-- The tokens of a fix that clears them tell it. -/
theorem eq_fixAt_of_clearing {tokens : List Nat} {c : Changeset} {e : Edit}
    (hclearing : clearing tokens = some c) (he : e ∈ c) (hfixAt : ∀ p ∈ tokens,
      fixAt s newline tag short last close p = tokens.map (Edit.replace · "")) :
    c = fixAt s newline tag short last close e.target := by
  obtain ⟨p, hp, rfl⟩ := makes_clearing.mp ⟨c, hclearing, he⟩
  rw [Edit.target_replace, hfixAt p hp]
  unfold clearing at hclearing
  split at hclearing
  · cases hclearing
  · exact (Option.some.inj hclearing).symm

section

variable (hends : Ends s tag short last close) {i : Nat}

include hends

/-- In front of the first part, the fix clears the lines between the tag and the part. -/
theorem fixAt_lead (hlow : tag < i) (hhigh : i < short) : fixAt s newline tag short last close i =
    (s.onLinesBetween (s.line tag) (s.line short) (s.between tag short)).map
    (Edit.replace · "") := by
  have hclose := hends.short_lt
  rw [fixAt, if_neg (by omega), if_neg (by omega), if_pos hhigh]

/-- Behind the last part, the fix clears the lines in front of the closing tag. -/
theorem fixAt_trail (hlow : last < i) (hhigh : i < close) : fixAt s newline tag short last close i =
    ((s.between last close).takeWhile fun p => !s.sameLine (p + 1) close).map
    (Edit.replace · "") := by
  have hopen := hends.lt_short
  have hle := hends.short_le
  rw [fixAt, if_neg (by omega), if_neg (by omega), if_neg (by omega), if_pos hlow]

/-- Behind the first description, the fix clears the lines between the two descriptions. -/
theorem fixAt_middle {long : Nat} (hlong : long? s short close = some long) (hlow : short < i)
    (hhigh : i ≤ last) : fixAt s newline tag short last close i =
      (s.onLinesBetween (s.line (shortEnd s short close)) (s.line long - 1)
        (s.between (shortEnd s short close) long)).map (Edit.replace · "") := by
  have hopen := hends.lt_short
  have hclose := hends.last_lt
  rw [fixAt, if_neg (by omega), if_neg (by omega), if_neg (by omega), if_neg (by omega), hlong,
    Option.toList_some, List.flatMap_singleton]

/-- An edit that the descriptions ask for belongs to the fix of its token. -/
theorem eq_fixAt_of_descriptions (h : IsComment s tag close) {f : Finding}
    {c : Changeset} {e : Edit} (hf : f ∈ descriptions s tag short close) (hfix : f.fix = some c)
    (he : e ∈ c) : c = fixAt s newline tag short last close e.target := by
  unfold descriptions at hf
  dsimp only at hf
  split at hf
  · obtain rfl := List.mem_singleton.mp hf
    cases hfix
  rename_i htext
  rw [ne_eq, Decidable.not_not] at htext
  rcases List.mem_append.mp hf with hf | hf
  · rcases List.mem_append.mp hf with hf | hf
    · obtain ⟨_, rfl⟩ := Finding.mem_unless_iff.mp hf
      refine eq_fixAt_of_clearing hfix he fun p hp => ?_
      obtain ⟨hlow, hhigh⟩ := Store.mem_between.mp (Store.mem_onLinesBetween_iff.mp hp).1
      exact fixAt_lead hends hlow hhigh
    · obtain ⟨_, rfl⟩ := Finding.mem_when_iff.mp hf
      cases hfix
  · obtain ⟨long, hlong, hf⟩ := List.mem_flatMap.mp hf
    have hlong : long? s short close = some long := Option.mem_toList.mp hlong
    rcases List.mem_append.mp hf with hf | hf
    · obtain ⟨_, rfl⟩ := Finding.mem_unless_iff.mp hf
      refine eq_fixAt_of_clearing hfix he fun p hp => ?_
      obtain ⟨hlow, hhigh⟩ := Store.mem_between.mp (Store.mem_onLinesBetween_iff.mp hp).1
      obtain ⟨_, hsize, hkind, _⟩ := hends.long_spec h htext hlong
      have hstart : short ≤ shortEnd s short close := (hends.describes h htext).le
      have hstop : long ≤ last := hends.le_of_text (by omega) hkind
      exact fixAt_middle hends hlong (Nat.lt_of_le_of_lt hstart hlow)
        (Nat.le_trans (Nat.le_of_lt hhigh) hstop)
    · obtain ⟨_, rfl⟩ := Finding.mem_when_iff.mp hf
      cases hfix

/-- A token tells the fix that edits it. -/
theorem eq_fixAt (h : IsComment s tag close) {f : Finding} {c : Changeset} {e : Edit}
    (hf : f ∈ layoutFindings s newline tag short last close) (hfix : f.fix = some c) (he : e ∈ c) :
    c = fixAt s newline tag short last close e.target := by
  have hshort := hends.short_lt
  have hlt := h.lt
  rw [layoutFindings, List.mem_append, List.mem_append, List.mem_append] at hf
  rcases hf with ((hf | hf) | hf) | hf
  · obtain ⟨_, rfl⟩ := Finding.mem_when_iff.mp hf
    obtain rfl := Option.some.inj hfix
    simp only [List.mem_cons, List.not_mem_nil, or_false] at he
    rcases he with rfl | rfl
    · exact (if_pos (.inl rfl)).symm
    · exact (if_pos (.inr rfl)).symm
  · obtain ⟨_, rfl⟩ := Finding.mem_when_iff.mp hf
    obtain rfl := Option.some.inj hfix
    obtain rfl := List.mem_singleton.mp he
    rw [Edit.target_insert, fixAt, if_neg (by omega), if_pos rfl]
  · obtain ⟨_, rfl⟩ := Finding.mem_when_iff.mp hf
    refine eq_fixAt_of_clearing hfix he fun p hp => ?_
    obtain ⟨hlow, hhigh⟩ := Store.mem_between.mp ((List.takeWhile_sublist _).mem hp)
    exact fixAt_trail hends hlow hhigh
  · exact eq_fixAt_of_descriptions hends h hf hfix he

end

/-- What is found at a comment: what is wrong with its layout, or that it says nothing. -/
theorem findings_cases (h : IsComment s tag close) (settings : Settings) :
    (∃ short last, Ends s tag short last close ∧
      findings settings (.ofStore s) tag =
        layoutFindings s ((File.ofStore s).newline settings) tag short last close) ∨
    (∀ l ∈ s.slice (tag + 1) close, Fills l) ∧
      ∀ f ∈ findings settings (.ofStore s) tag, f.fix = none := by
  cases hshort : nextPart? s tag (some close) with
  | none => exact .inr (findings_of_none h hshort)
  | some short =>
    obtain ⟨last, hends, hfindings⟩ := findings_of_ends h hshort
    exact .inl ⟨short, last, hends, hfindings⟩

/-- Of a comment that is not closed nothing is found. -/
theorem findings_of_commentMatch?_none (hnone : s.commentMatch? tag = none) :
    findings settings (.ofStore s) tag = [] := by
  unfold findings
  dsimp only [File.ofStore_store]
  rw [hnone]

/-- The tokens of a comment make the edits in it. -/
theorem target_of_makes (h : IsComment s tag close) {short last : Nat}
    (hends : Ends s tag short last close) {newline : String} {e : Edit}
    (hmakes : Makes (layoutFindings s newline tag short last close) e) :
    tag ≤ e.target ∧ e.target ≤ close := by
  have hlow := hends.lt_short
  have hle := hends.short_le
  have hlt := hends.last_lt
  rcases (makes_layoutFindings_iff h hends).mp hmakes with
    ⟨_, rfl | rfl⟩ | ⟨_, rfl⟩ | ⟨p, hcleared, rfl⟩
  · simp only [Edit.target_append]
    omega
  · simp only [Edit.target_insert]
    omega
  · simp only [Edit.target_insert]
    omega
  · have hbetween := hcleared.between h hends
    simp only [Edit.target_replace]
    omega

/-- The general rule spares no comment and brings none to one line. -/
theorem tidies (settings : Settings) :
    Tidies (findings settings) (fun _ => False) (fun _ => False) where
  lone _ := id
  silent _ := id
  unclosed := findings_of_commentMatch?_none
  editsOnce := findings_editsOnce
  within h hmakes := by
    rcases findings_cases h settings with ⟨short, last, hends, hfindings⟩ | ⟨_, hnone⟩
    · exact target_of_makes h hends (hfindings ▸ hmakes)
    · obtain ⟨f, hf, c, hfix, _⟩ := hmakes
      cases (hnone f hf).symm.trans hfix
  same h f hf c hc f' hf' c' hc' e he e' he' htarget := by
    rcases findings_cases h settings with ⟨short, last, hends, hfindings⟩ | ⟨_, hnone⟩
    · rw [hfindings] at hf hf'
      rw [eq_fixAt hends h hf hc he, eq_fixAt hends h hf' hc' he', htarget]
    · cases (hnone f hf).symm.trans hc
  tidied h hmade := by
    rcases findings_cases h settings with ⟨short, last, hends, hfindings⟩ | ⟨hfills, hnone⟩
    · rw [hfindings] at hmade
      obtain ⟨body, hrelaid, hremade⟩ := exists_relaid h hends hmade (File.newline_cases settings _)
      exact ⟨body, hrelaid.legible, .relaid id id hrelaid, hremade⟩
    · refine ⟨_, h.legible, .silent hfills, hmade.remade_of_not_makes h ?_⟩
      rintro e ⟨f, hf, c, hfix, _⟩
      cases (hnone f hf).symm.trans hfix
  settled h hstage f hf := by
    rcases findings_cases h settings with ⟨short, last, hends, hfindings⟩ | ⟨_, hnone⟩
    · obtain ⟨_, hframed, hspaced⟩ := hstage.resolve_right id
      refine Option.eq_none_iff_forall_ne_some.mpr fun c hfix => ?_
      have hchanges := findings_changes h.breaking.exact (Nat.lt_trans h.lt h.lt_size) f hf c hfix
      obtain ⟨e, he⟩ := List.exists_mem_of_ne_nil c (by
        rintro rfl
        exact hchanges (Store.rewrite_nil h.breaking.exact.sound))
      rw [hfindings] at hf
      exact not_makes_of_framed h hends hframed hspaced ⟨f, hf, c, hfix, he⟩
    · exact hnone f hf

end DocLayout

namespace DocComment

variable {s : Store} {settings : Settings} {tag close : Nat}

/-- Of a comment that is not closed nothing is found. -/
theorem findings_of_commentMatch?_none (hnone : s.commentMatch? tag = none) :
    findings settings (.ofStore s) tag = [] := by
  unfold findings
  dsimp only [File.ofStore_store]
  rw [hnone]

/-- The finding of a comment of one type makes the edits that put it on one line. -/
theorem makes_toOneLine {e : Edit} {tag' : Nat} : Makes [{
    code := "OneLineTypeDeclare", index := tag'
    message := "Comments with only @var should be on one line"
    fix := some (toOneLine s tag close) }] e ↔ e ∈ toOneLine s tag close := by
  rw [Finding.makes_singleton]
  simp

/-- A comment that says nothing states no type. -/
theorem not_isLoneType_of_fills {body : List Lexeme} (h : ∀ l ∈ body, Fills l) :
    ¬ (Summary.ofBody body).isLoneType = true := by
  have htags : (Summary.ofBody body).tags = [] := by
    rw [Summary.ofBody, tags_eq_parts, DocLayout.parts_of_fills h]
    rfl
  rw [Summary.isLoneType, htags]
  simp

/-- The other rule spares annotations and comments of certain tags, and brings lone types to one
line. -/
theorem tidies (settings : Settings) :
    Tidies (findings settings) Spared (fun body => (Summary.ofBody body).isLoneType = true) where
  lone hsame hlone := hsame ▸ hlone
  silent := not_isLoneType_of_fills
  unclosed := findings_of_commentMatch?_none
  editsOnce := findings_editsOnce
  within h hmakes := by
    rcases findings_eq h settings with ⟨_, hfindings⟩ | ⟨_, _, hfindings⟩ | ⟨_, _, hfindings⟩
    · rw [hfindings] at hmakes
      exact absurd hmakes Finding.not_makes_nil
    · rw [hfindings, makes_toOneLine] at hmakes
      exact (target_of_mem_toOneLine h.lt _ hmakes).imp_right Nat.le_of_lt
    · rw [hfindings] at hmakes
      exact (DocLayout.tidies settings).within h hmakes
  same h f hf c hc f' hf' c' hc' e he e' he' htarget := by
    rcases findings_eq h settings with ⟨_, hfindings⟩ | ⟨_, _, hfindings⟩ | ⟨_, _, hfindings⟩
    · rw [hfindings] at hf
      cases hf
    · rw [hfindings] at hf hf'
      obtain rfl := List.mem_singleton.mp hf
      obtain rfl := List.mem_singleton.mp hf'
      exact Option.some.inj (hc.symm.trans hc')
    · rw [hfindings] at hf hf'
      exact (DocLayout.tidies settings).same h f hf c hc f' hf' c' hc' e he e' he' htarget
  tidied h hmade := by
    rcases findings_eq h settings with
      ⟨hspared, hfindings⟩ | ⟨_, hlone, hfindings⟩ | ⟨hspared, hlone, hfindings⟩
    · rw [hfindings] at hmade
      exact ⟨_, h.legible, .spared hspared, hmade.remade_of_not_makes h fun e =>
        Finding.not_makes_nil⟩
    · rw [hfindings] at hmade
      refine ⟨_, legible_oneLine h.legible hlone, .oneLine hlone (parts_oneLine _) (.inl ?_), ?_⟩
      · exact annotates_oneLine h.legible hlone
      · exact remade_toOneLine h hmade fun e => makes_toOneLine
    · rw [hfindings] at hmade
      obtain ⟨body, hlegible, htidied, hremade⟩ := (DocLayout.tidies settings).tidied h hmade
      refine ⟨body, hlegible, ?_, hremade⟩
      cases htidied with
      | spared h => exact h.elim
      | silent h => exact .silent h
      | oneLine h => exact h.elim
      | relaid _ _ h => exact .relaid hspared (by simp [hlone]) h
  settled h hstage f hf := by
    rcases findings_eq h settings with
      ⟨_, hfindings⟩ | ⟨hspared, hlone, _⟩ | ⟨hspared, _, hfindings⟩
    · rw [hfindings] at hf
      cases hf
    · exact absurd hlone (hstage.resolve_right hspared).1
    · obtain ⟨_, hframed, hspaced⟩ := hstage.resolve_right hspared
      rw [hfindings] at hf
      exact (DocLayout.tidies settings).settled h (.inl ⟨id, hframed, hspaced⟩) f hf

end DocComment

end PhpStyle
