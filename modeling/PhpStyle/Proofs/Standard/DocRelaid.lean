import PhpStyle.Proofs.Standard.DocEnds

/-!
# A documentation comment that is laid out anew

Between the first and the last of its parts a comment loses only blank lines between its
descriptions, so it says what it said. With the two ends that are made for it, it is framed, and
spaced if it was framed before.
-/

namespace PhpStyle

open Php (Fills IsNewline Legible docCloser docOpener enclosed letters)
open DocLayout (breaks parts)
open Finding (Makes)

namespace DocLayout

variable {s : Store} {newline : String} {tag short last close : Nat} {edits : List Edit}
  (h : IsComment s tag close) (hends : Ends s tag short last close)
  (hmade : MadeIn s edits tag close (layoutFindings s newline tag short last close))

section

include h hends

/-- The space in front of the long description, as far as the comment is looked at. -/
theorem Ends.longGap?_walk (htext : s.kind short = .docText) {stop : Nat}
    (hstop : shortEnd s short close < stop) :
    longGap? 0 (s.slice (short + 1) stop) = longGap? 0
      (s.slice (shortEnd s short close + 1) stop) := by
  have hdescribes := hends.describes h htext
  have hstart := hdescribes.le
  have hwalk := hdescribes.walks (s.slice (shortEnd s short close + 1) stop)
  rwa [Store.slice_append (by omega) hstop, Store.slice_cons (by omega), longGap?_text htext]
    at hwalk

/-- Behind a description and fillers, the gap to the next part is that of their lines. -/
theorem Ends.longGap?_fills (htext : s.kind short = .docText) {q stop : Nat}
    (hq : shortEnd s short close < q) (hstop : q < stop) (hclose : stop ≤ close)
    (hfiller : ∀ k, shortEnd s short close < k → k < q → isFiller (s.token k) = true) :
    longGap? 0 (s.slice (short + 1) stop) =
      longGap? (s.line q - s.line (shortEnd s short close))
      (⟨s.kind q, s.text q⟩ :: s.slice (q + 1) stop) := by
  have hdescribes := hends.describes h htext
  have hstart := hdescribes.le
  have := hends.lt_short
  have hnext := h.line_succ_of_saying (by omega) hdescribes.lt (.inr hdescribes.text)
  have hgap := h.line_eq_add_breaks (show shortEnd s short close + 1 ≤ q from hq) (by omega)
  rw [hends.longGap?_walk h htext (by omega),
    ← Store.slice_append (show shortEnd s short close + 1 ≤ q from hq)
    (Nat.le_of_lt hstop), longGap?_append_of_fills (fills_slice hfiller), Store.slice_cons hstop]
  congr 1
  omega

/-- The space in front of the long description is counted in lines. -/
theorem Ends.longGap?_long (htext : s.kind short = .docText) {long stop : Nat}
    (hlong : long? s short close = some long) (hstop : long < stop) (hclose : stop ≤ close) :
    longGap? 0 (s.slice (short + 1) stop) =
      some (s.line long - s.line (shortEnd s short close)) := by
  obtain ⟨hafter, _, hkind, hfiller, hgap⟩ := hends.long_spec h htext hlong
  rw [hends.longGap?_fills h htext hafter hstop hclose hfiller, longGap?, if_pos hkind,
    if_neg (by omega)]

/-- A comment is spaced if nothing has to be cleared between its descriptions, and its closing tag
stands apart. -/
theorem Ends.gap_le (htext : s.kind short = .docText) (hwindow : last + 1 < close)
    (hfew : ∀ long, long? s short close = some long →
      s.line long ≤ s.line (shortEnd s short close) + 2) {gap : Nat}
    (hgap : longGap? 0 (s.slice (short + 1) (last + 1)) = some gap) : gap ≤ 2 := by
  have hlow := hends.lt_short
  have hdescribes := hends.describes h htext
  have hprev : s.prev? close = some (close - 1) := if_neg (by omega)
  have hlast := hends.le_of_text hdescribes.lt hdescribes.text
  rcases Nat.eq_or_lt_of_le hlast with heq | hbefore
  · rw [hends.longGap?_walk h htext (by omega), heq, Store.slice_self] at hgap
    cases hgap
  cases hfound : nextPart? s (shortEnd s short close) (some (close - 1)) with
  | none =>
    have hsize := h.lt_size
    have hfiller := nextPart?_none (by omega) hfound last hbefore (by omega)
    rw [not_isFiller_of_saying hends.last_says] at hfiller
    cases hfiller
  | some q =>
    obtain ⟨hq, hvisible, hfiller⟩ := nextPart?_spec hfound
    have hqclose := nextPart?_lt hfound
    have hqlast : q ≤ last := by
      by_contra hless
      have hsilent := hfiller last hbefore (by omega)
      rw [not_isFiller_of_saying hends.last_says] at hsilent
      cases hsilent
    have hstart := hdescribes.le
    rcases says_of_not_isFiller h (by omega) (by omega) hvisible with hkind | hkind
    · rw [hends.longGap?_fills h htext hq (by omega) (by omega) hfiller, longGap?,
        if_neg (by rw [hkind]; decide), if_pos hkind] at hgap
      cases hgap
    · have hlong : long? s short close = some q := by
        rw [long?, hprev, hfound]
        exact Option.filter_eq_some_iff.mpr ⟨rfl, beq_iff_eq.mpr hkind⟩
      rw [hends.longGap?_long h htext hlong (by omega) (by omega), Option.some.injEq] at hgap
      have := hfew q hlong
      omega

end

/-- What may stand from the first part of a comment to the last: it says the same, and descriptions
are spaced, in a comment that is looked at as far as its last part. -/
structure IsCore (s : Store) (short last close : Nat) (lead trail core : List Lexeme) : Prop where
  legible : Legible (lead ++ ⟨s.kind short, s.text short⟩ :: (core ++ trail))
  ends : ∃ front, (⟨s.kind short, s.text short⟩ :: core : List Lexeme) = front ++
    [⟨s.kind last, s.text last⟩]
  parts_eq : parts core = parts (s.slice (short + 1) (last + 1))
  saysMore_eq : ∀ onTagLine, DocComment.saysMore onTagLine (⟨s.kind short, s.text short⟩ :: core) =
    DocComment.saysMore onTagLine (⟨s.kind short, s.text short⟩ :: s.slice (short + 1) (last + 1))
  gap_le : last + 1 < close → s.kind short = .docText → ∀ gap, longGap? 0 core = some gap → gap ≤ 2

/-- A body that takes the place of another: framed, and spaced if that was framed, and it says the
same. -/
structure Relaid (body body' : List Lexeme) : Prop where
  legible : Legible body'
  framed : Framed body'
  spaced : Framed body → Spaced body'
  parts : parts body' = parts body
  summary : DocComment.Summary.ofBody body' = DocComment.Summary.ofBody body

include h hends hmade

/-- Between the first part and the last, what is not cleared is left as it was. -/
theorem rewritten_core {k : Nat} (hk : short < k) (hkl : k ≤ last)
    (hcleared : ¬ Cleared s tag short last close k) : s.rewritten edits k = s.text k := by
  have hlow := hends.lt_short
  have hlt := hends.last_lt
  exact rewritten_kept h hends hmade (by omega) (by omega) hcleared (by omega) (by omega)

/-- Of the lines between two descriptions, all but the first of the one and the last in front of the
other go. -/
theorem rewritten_far {long k : Nat} (hlong : long? s short close = some long) (hk : short < k)
    (hkl : k ≤ last) (hout : shortEnd s short close < k → k < long →
      s.line k = s.line (shortEnd s short close) ∨ s.line long ≤ s.line k + 1) :
      s.rewritten edits k = s.text k := by
  refine rewritten_core h hends hmade hk hkl fun hcleared => ?_
  obtain ⟨_, long', hlong', hlow, hhigh, hless, hline⟩ := hcleared.middle_of_lt hk hkl
  obtain rfl := Option.some.inj (hlong.symm.trans hlong')
  have := hout hlow hhigh
  omega

/-- Two line breaks are left between two descriptions that stood further apart. -/
theorem exists_mid_of_far (htext : s.kind short = .docText) {long : Nat}
    (hlong : long? s short close = some long)
    (hmany : s.line (shortEnd s short close) + 2 < s.line long) {lead trail : List Lexeme}
    (hlegible :
      Legible (lead ++ ⟨s.kind short, s.text short⟩ :: (s.slice (short + 1) (last + 1) ++ trail))) :
    ∃ mid, s.remade edits (shortEnd s short close + 1) long = letters mid ∧ (∀ l ∈ mid, Fills l) ∧
      breaks mid = 2 ∧ Legible (lead ++ ⟨s.kind short, s.text short⟩ ::
        (s.slice (short + 1) (shortEnd s short close + 1) ++ (mid ++ s.slice long (last + 1)) ++
          trail)) := by
  have hlow := hends.lt_short
  have hlt := hends.last_lt
  have hdescribes := hends.describes h htext
  obtain ⟨hafter, hsize, hkind, hfiller, _⟩ := hends.long_spec h htext hlong
  have hstop := hends.le_of_text (by omega) hkind
  have hstart := hdescribes.le
  have hnext := h.line_succ_of_saying (by omega) hdescribes.lt (.inr hdescribes.text)
  have hwhole : Legible
      ((lead ++ ⟨s.kind short, s.text short⟩ :: s.slice (short + 1) (shortEnd s short close + 1)) ++
      (s.slice (shortEnd s short close + 1) long ++ (s.slice long (last + 1) ++ trail))) := by
    rw [← Store.slice_append (show short + 1 ≤ shortEnd s short close + 1 by omega)
      (show _ ≤ last + 1 by omega),
      ← Store.slice_append (show shortEnd s short close + 1 ≤ long from hafter)
      (show _ ≤ last + 1 by omega)] at hlegible
    simpa using hlegible
  obtain ⟨mid, hmid, hfills, hnew, hcount⟩ := h.exists_cut _
    (show tag < shortEnd s short close + 1 by omega)
    (show shortEnd s short close + 1 ≤ long from hafter)
    (by omega) (show s.line (shortEnd s short close + 1) + 1 < s.line long - 1 by omega) (by omega)
    (fills_slice hfiller)
    (fun k hk hkl hless hline =>
      rewritten_cleared h hends hmade (.middle hk hkl htext hlong (by omega) (by omega)))
    (fun k hk hkl hline =>
      rewritten_far h hends hmade hlong (by omega) (by omega) fun _ _ => by omega) hwhole
  exact ⟨mid, hmid, hfills, by omega, by simpa using hnew⟩

/-- Blank lines between descriptions are taken out, but for one. -/
theorem exists_core_of_far (htext : s.kind short = .docText) {long : Nat}
    (hlong : long? s short close = some long)
    (hmany : s.line (shortEnd s short close) + 2 < s.line long) {lead trail : List Lexeme}
    (hlegible :
      Legible (lead ++ ⟨s.kind short, s.text short⟩ :: (s.slice (short + 1) (last + 1) ++ trail))) :
    ∃ core, IsCore s short last close lead trail core ∧
      s.remade edits (short + 1) (last + 1) = letters core := by
  have hlow := hends.lt_short
  have hlt := hends.last_lt
  have hdescribes := hends.describes h htext
  obtain ⟨hafter, hsize, hkind, hfiller, _⟩ := hends.long_spec h htext hlong
  have hstop := hends.le_of_text (by omega) hkind
  have hstart := hdescribes.le
  have hnext := h.line_succ_of_saying (by omega) hdescribes.lt (.inr hdescribes.text)
  have hfills := fills_slice hfiller
  -- the comment up to the end of the description, what stands in front of the next, and that one
  have hsplit : s.slice (short + 1) (last + 1) = s.slice (short + 1) (shortEnd s short close + 1) ++
      (s.slice (shortEnd s short close + 1) long ++ s.slice long (last + 1)) := by
    rw [Store.slice_append (by omega) (by omega), Store.slice_append (by omega) (by omega)]
  obtain ⟨mid, hmid, hmidFills, htwo, hnew⟩ :=
    exists_mid_of_far h hends hmade htext hlong hmany hlegible
  have hbreaks : 1 < breaks (s.slice (shortEnd s short close + 1) long) := by
    have := h.line_eq_add_breaks (show shortEnd s short close + 1 ≤ long from hafter) (by omega)
    omega
  refine ⟨s.slice (short + 1) (shortEnd s short close + 1) ++ (mid ++ s.slice long (last + 1)),
    ⟨hnew, ?_, ?_, ?_, ?_⟩, ?_⟩
  · refine ⟨⟨s.kind short, s.text short⟩ :: s.slice (short + 1) (shortEnd s short close + 1) ++
      (mid ++ s.slice long last), ?_⟩
    rw [← Store.slice_append hstop (Nat.le_succ last), Store.slice_singleton]
    simp
  · rw [hsplit]
    simp only [parts_append, parts_of_fills hmidFills, parts_of_fills hfills]
  · intro onTagLine
    rw [hsplit, ← List.cons_append, ← List.cons_append]
    refine DocComment.saysMore_congr (fun onTagLine => ?_) _ onTagLine
    rw [DocComment.saysMore_append_of_fills hmidFills, DocComment.saysMore_append_of_fills hfills,
      htwo, beq_eq_false_iff_ne.mpr
      (show breaks (s.slice (shortEnd s short close + 1) long) ≠ 0 by omega)]
    rfl
  · intro _ _ gap hgap
    have hwalk := hdescribes.walks (mid ++ s.slice long (last + 1))
    rw [Store.slice_cons (by omega), List.cons_append, longGap?_text htext, hgap,
      longGap?_append_of_fills hmidFills, Nat.zero_add, htwo, Store.slice_cons (by omega), longGap?,
      if_pos hkind, if_neg (by decide), Option.some.injEq] at hwalk
    omega
  · have hdescription : s.remade edits (short + 1) (shortEnd s short close + 1) =
        letters (s.slice (short + 1) (shortEnd s short close + 1)) :=
      Store.remade_of_kept fun k hk hke =>
        rewritten_far h hends hmade hlong hk (by omega) fun hafter => by omega
    have hrest : s.remade edits long (last + 1) = letters (s.slice long (last + 1)) :=
      Store.remade_of_kept fun k hk hkl =>
        rewritten_far h hends hmade hlong (by omega) (Nat.le_of_lt_succ hkl)
          fun _ hbefore => by omega
    rw [Store.remade_append s edits (show short + 1 ≤ shortEnd s short close + 1 by omega)
        (by omega),
      Store.remade_append s edits (show shortEnd s short close + 1 ≤ long from hafter) (by omega),
      hdescription, hmid, hrest]
    simp

/-- What is made of a comment from its first part to its last. -/
theorem exists_core {lead trail : List Lexeme}
    (hlegible :
      Legible (lead ++ ⟨s.kind short, s.text short⟩ :: (s.slice (short + 1) (last + 1) ++ trail))) :
    ∃ core, IsCore s short last close lead trail core ∧
      s.remade edits (short + 1) (last + 1) = letters core := by
  have hle := hends.short_le
  by_cases hcut : s.kind short = .docText ∧ ∃ long, long? s short close = some long ∧
      s.line (shortEnd s short close) + 2 < s.line long
  · obtain ⟨htext, long, hlong, hmany⟩ := hcut
    exact exists_core_of_far h hends hmade htext hlong hmany hlegible
  · refine ⟨s.slice (short + 1) (last + 1),
      ⟨hlegible, ⟨s.slice short last, ?_⟩, rfl, fun _ => rfl, ?_⟩, ?_⟩
    · rw [← Store.slice_cons (by omega), ← Store.slice_append hle (Nat.le_succ last),
        Store.slice_singleton]
    · intro hwindow htext gap hgap
      refine hends.gap_le h htext hwindow (fun long hlong => ?_) hgap
      by_contra hmany
      exact hcut ⟨htext, long, hlong, by omega⟩
    · refine Store.remade_of_kept fun k hk hkl => ?_
      refine rewritten_core h hends hmade hk (by omega) fun hcleared => hcut ?_
      obtain ⟨htext, long, hlong, _, _, hless, hline⟩ := hcleared.middle_of_lt hk (by omega)
      exact ⟨htext, long, hlong, by omega⟩

/-- The fixes of a comment make a framed comment of it. -/
theorem exists_relaid (hnewline : IsNewline newline) :
    ∃ body, Relaid (s.slice (tag + 1) close) body ∧
      s.remade edits tag (close + 1) = letters (enclosed body) := by
  have hlow := hends.lt_short
  have hle := hends.short_le
  have hlt := hends.last_lt
  have hbody : s.slice (tag + 1) close = s.slice (tag + 1) short ++
      ⟨s.kind short, s.text short⟩ ::
      (s.slice (short + 1) (last + 1) ++ s.slice (last + 1) close) := by
    rw [Store.slice_append (by omega) hlt]
    exact s.slice_split hlow (by omega)
  have hbodyEnd := s.slice_split (show tag + 1 ≤ last by omega) hlt
  have hlegible := h.legible
  rw [hbody] at hlegible
  obtain ⟨lead, ⟨hleadFills, hlegible, hpos, hone⟩, hlead⟩ :=
    exists_lead h hends hmade hnewline hlegible
  obtain ⟨core, ⟨hlegible, ⟨front, hfront⟩, hcoreParts, hcoreMore, hcoreGap⟩, hcore⟩ :=
    exists_core h hends hmade hlegible
  rw [← List.cons_append, hfront, ← List.append_assoc, ← List.append_assoc] at hlegible
  obtain ⟨trail, ⟨htrailFills, hlegible, htrailOne⟩, htrail⟩ :=
    exists_trail h hends hmade hnewline hlegible
  have hnew : lead ++ ⟨s.kind short, s.text short⟩ :: (core ++ trail) =
      lead ++ front ++ ⟨s.kind last, s.text last⟩ :: trail := by
    rw [← List.cons_append, hfront]
    simp
  rw [List.append_assoc (lead ++ front), List.singleton_append, ← hnew] at hlegible
  have hparts : parts (lead ++ ⟨s.kind short, s.text short⟩ :: (core ++ trail)) =
      parts (s.slice (tag + 1) close) := by
    rw [hbody]
    simp only [parts_append, parts_of_fills hleadFills, parts_of_fills hends.lead,
      parts_cons_of_saying hends.short_says, hcoreParts, parts_of_fills htrailFills,
      parts_of_fills hends.trail]
  refine ⟨lead ++ ⟨s.kind short, s.text short⟩ :: (core ++ trail),
    ⟨hlegible, ?_, fun hframed => ?_, hparts, ?_⟩, ?_⟩
  · exact framed_of_split rfl hleadFills hends.short_says hpos hone hnew htrailFills
      hends.last_says htrailOne
  · have hwindow : last + 1 < close := by
      by_contra hend
      have hbreaks := hframed.closes _ _ _ hbodyEnd hends.trail hends.last_says
      rw [show last + 1 = close by omega, Store.slice_self] at hbreaks
      cases hbreaks
    refine spaced_of_split rfl hleadFills hends.short_says fun htext gap hgap => ?_
    rw [longGap?_append_trail htrailFills] at hgap
    exact hcoreGap hwindow htext gap hgap
  · refine DocComment.Summary.ofBody_congr hparts ?_
    rw [hbody, ← List.cons_append, ← List.cons_append,
      DocComment.saysMore_of_split hleadFills htrailFills,
      DocComment.saysMore_of_split hends.lead hends.trail, hcoreMore]
  · rw [Store.remade_append s edits (show tag ≤ short + 1 by omega) (by omega),
      Store.remade_append s edits (show short + 1 ≤ last + 1 by omega) (by omega), hlead,
      hcore, htrail]
    simp [enclosed]

omit hmade in
/-- In a framed comment with spaced descriptions, nothing is edited. -/
theorem not_makes_of_framed (hframed : Framed (s.slice (tag + 1) close))
    (hspaced : Spaced (s.slice (tag + 1) close)) {e : Edit} :
    ¬ Makes (layoutFindings s newline tag short last close) e := by
  have hlow := hends.lt_short
  have hle := hends.short_le
  have hlt := hends.last_lt
  have hbody := s.slice_split (show tag + 1 ≤ short from hlow) (show short < close by omega)
  have hbodyEnd := s.slice_split (show tag + 1 ≤ last by omega) hlt
  obtain ⟨hpos, hone⟩ := hframed.opens _ _ _ hbody hends.lead hends.short_says
  have htrail := hframed.closes _ _ _ hbodyEnd hends.trail hends.last_says
  have hfirst := h.line_succ_tag
  have hshort := h.line_eq_add_breaks (show tag + 1 ≤ short from hlow) (by omega)
  have hlast := h.line_succ_of_saying (by omega) hlt hends.last_says
  have hclose := h.line_eq_add_breaks (show last + 1 ≤ close from hlt) (Nat.le_refl close)
  rw [makes_layoutFindings_iff h hends]
  rintro (⟨hline, _⟩ | ⟨hline, _⟩ | ⟨p, hcleared, _⟩)
  · omega
  · omega
  · cases hcleared with
    | lead _ _ htext hless hline =>
      have := hone htext
      omega
    | middle _ _ htext hlong hless hline =>
      obtain ⟨_, hsize, _⟩ := hends.long_spec h htext hlong
      have := hspaced _ _ _ hbody hends.lead htext _
          (hends.longGap?_long h htext hlong (by omega) (Nat.le_refl close))
      omega
    | trail _ _ hmany hline => omega

end DocLayout

end PhpStyle
