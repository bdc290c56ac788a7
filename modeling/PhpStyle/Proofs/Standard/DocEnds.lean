import PhpStyle.Proofs.Standard.DocFixes

/-!
# The two ends of a documentation comment that is laid out anew

What the fixes make of a comment is put together from three pieces: what stands before its first
part, its parts, and what stands behind the last one. Here are the first and the last of them. Each
can be read where it is put, with any of the others.
-/

namespace PhpStyle

open Php (Fills IsDocBreak IsNewline Legible Says docCloser docOpener enclosed letters)
open DocLayout (breaks parts)
open Finding (Makes)

/-- Edits that are, in a comment, those of the fixes of some findings. -/
structure MadeIn (s : Store) (edits : List Edit) (tag close : Nat) (fs : List Finding) : Prop where
  nodup : (edits.map (·.target)).Nodup
  mem_iff : ∀ e : Edit, tag ≤ e.target → e.target ≤ close → (e ∈ edits ↔ Makes fs e)

section

variable {s : Store} {edits : List Edit} {tag close k : Nat} {fs : List Finding} {e : Edit}

/-- A token of a comment that an edit is made for is rewritten by that edit. -/
theorem MadeIn.rewritten (h : MadeIn s edits tag close fs) (hmakes : Makes fs e)
    (hlow : tag ≤ e.target) (hhigh : e.target ≤ close) : s.rewritten edits e.target = e.result s :=
  Store.rewritten_of_mem h.nodup ((h.mem_iff e hlow hhigh).mpr hmakes)

/-- A token of a comment that no edit is made for is as it was. -/
theorem MadeIn.rewritten_of_forall_ne (h : MadeIn s edits tag close fs) (hlow : tag ≤ k)
    (hhigh : k ≤ close) (hnone : ∀ e, Makes fs e → e.target ≠ k) :
    s.rewritten edits k = s.text k := by
  refine Store.rewritten_of_forall_ne fun e he htarget => ?_
  subst htarget
  exact hnone e ((h.mem_iff e hlow hhigh).mp he) rfl

/-- A comment in which nothing is edited stays. -/
theorem MadeIn.remade_of_not_makes (h : MadeIn s edits tag close fs)
    (hcomment : IsComment s tag close) (hnone : ∀ e, ¬ Makes fs e) :
    s.remade edits tag (close + 1) = letters (enclosed (s.slice (tag + 1) close)) := by
  rw [← hcomment.slice]
  exact Store.remade_of_kept fun k hlow hhigh =>
    h.rewritten_of_forall_ne hlow (Nat.le_of_lt_succ hhigh) fun e hmakes => absurd hmakes (hnone e)

/-- Lines between two line breaks of a comment can be taken out. -/
theorem IsComment.cut (h : IsComment s tag close) {front behind : List Lexeme} {i m n j : Nat}
    (hi : tag < i) (him : i ≤ m) (hmn : m < n) (hnj : n < j) (hj : j ≤ close)
    (hm : s.line m < s.line (m + 1)) (hn : s.line n < s.line (n + 1))
    (hlegible : Legible (front ++ (s.slice i j ++ behind))) :
    Legible (front ++ ((s.slice i (m + 1) ++ s.slice (n + 1) j) ++ behind)) := by
  have hfirst : s.slice i (m + 1) = s.slice i m ++ [⟨s.kind m, s.text m⟩] := by
    rw [← Store.slice_append him (Nat.le_succ m), Store.slice_singleton]
  have hsecond : s.slice (m + 1) (n + 1) = s.slice (m + 1) n ++ [⟨s.kind n, s.text n⟩] := by
    rw [← Store.slice_append hmn (Nat.le_succ n), Store.slice_singleton]
  have hall : s.slice i j = s.slice i (m + 1) ++
      (s.slice (m + 1) (n + 1) ++ s.slice (n + 1) j) := by
    rw [Store.slice_append (by omega) hnj, Store.slice_append (by omega) (by omega)]
  have hcut := Legible.cut (a := front ++ s.slice i m) (p := s.slice (m + 1) n)
      (b := s.slice (n + 1) j ++ behind)
    (w := ⟨s.kind m, s.text m⟩) (v := ⟨s.kind n, s.text n⟩)
    (by simpa [hall, hfirst, hsecond] using hlegible)
    (h.isDocBreak (by omega) (by omega) hm) (h.isDocBreak (by omega) (by omega) hn)
  simpa [hfirst] using hcut

/-- Between two parts of a comment, lines that are cleared are taken out. -/
theorem IsComment.exists_cut (h : IsComment s tag close) (front : List Lexeme)
    {behind : List Lexeme} {i j high : Nat} (hi : tag < i) (hij : i ≤ j) (hj : j ≤ close)
    (hmany : s.line i + 1 < high) (hhigh : high ≤ s.line j) (hfills : ∀ l ∈ s.slice i j, Fills l)
    (hclear : ∀ k, i ≤ k → k < j → s.line i < s.line k → s.line k < high → s.rewritten edits k = "")
    (hkeep : ∀ k, i ≤ k → k < j → s.line k = s.line i ∨ high ≤ s.line k →
      s.rewritten edits k = s.text k) (hlegible : Legible (front ++ (s.slice i j ++ behind))) :
    ∃ mid, s.remade edits i j = letters mid ∧ (∀ l ∈ mid, Fills l) ∧
      Legible (front ++ (mid ++ behind)) ∧ breaks mid = s.line j - high + 1 := by
  obtain ⟨m, him, hmj, hmline, hmnext⟩ :=
    h.exists_lineStart (n := s.line i + 1) (Nat.le_of_lt hi) hij hj (by omega) (by omega)
  obtain ⟨n, hmn, hnj, hnline, hnnext⟩ :=
    h.exists_lineStart (n := high) (show tag ≤ m + 1 by omega) hmj hj (by omega) hhigh
  refine ⟨s.slice i (m + 1) ++ s.slice (n + 1) j, ?_, fun l hl => ?_, ?_, ?_⟩
  · refine Store.remade_of_cleared (by omega) (by omega) hnj
      (fun k hmk hkn => ?_) fun k hik hkj hout => ?_
    · have hge := h.line_le hmk (by omega)
      have hle := h.line_le (Nat.le_of_lt_succ hkn) (by omega)
      exact hclear k (by omega) (by omega) (by omega) (by omega)
    · refine hkeep k hik hkj ?_
      rcases hout with hkm | hnk
      · have hge := h.line_le hik (by omega)
        have hle := h.line_le (Nat.le_of_lt_succ hkm) (by omega)
        exact .inl (by omega)
      · have hge := h.line_le hnk (by omega)
        exact .inr (by omega)
  · refine hfills l (Store.mem_slice.mpr ?_)
    rcases List.mem_append.mp hl with hl | hl
    · obtain ⟨k, hik, hkm, rfl⟩ := Store.mem_slice.mp hl
      exact ⟨k, hik, by omega, rfl⟩
    · obtain ⟨k, hnk, hkj, rfl⟩ := Store.mem_slice.mp hl
      exact ⟨k, by omega, hkj, rfl⟩
  · exact h.cut hi him hmn hnj hj (by omega) (by omega) hlegible
  · have hfirst := h.line_eq_add_breaks (show i ≤ m + 1 by omega) (by omega)
    have hsecond := h.line_eq_add_breaks (show n + 1 ≤ j from hnj) hj
    rw [DocLayout.breaks_append]
    omega

end

namespace DocLayout

variable {s : Store} {newline : String} {tag short last close p k : Nat} {edits : List Edit}
  (h : IsComment s tag close) (hends : Ends s tag short last close)
  (hmade : MadeIn s edits tag close (layoutFindings s newline tag short last close))

/-- What may stand up to the first part of a comment: it breaks the line, and in front of a
description only once. -/
structure IsLead (s : Store) (short : Nat) (behind lead : List Lexeme) : Prop where
  fills : ∀ l ∈ lead, Fills l
  legible : Legible (lead ++ ⟨s.kind short, s.text short⟩ :: behind)
  breaks_pos : 0 < breaks lead
  breaks_eq_one : s.kind short = .docText → breaks lead = 1

/-- What may stand behind the last part of a comment: it breaks the line once. -/
structure IsTrail (s : Store) (last : Nat) (front trail : List Lexeme) : Prop where
  fills : ∀ l ∈ trail, Fills l
  legible : Legible (front ++ [⟨s.kind last, s.text last⟩] ++ trail)
  breaks_eq_one : breaks trail = 1

include h hends hmade

/-- Of a token that is cleared nothing is left. -/
theorem rewritten_cleared (hcleared : Cleared s tag short last close p) :
    s.rewritten edits p = "" := by
  obtain ⟨_, _, hlow, hhigh⟩ := hcleared.between h hends
  exact hmade.rewritten (e := .replace p "")
    ((makes_layoutFindings_iff h hends).mpr (.inr (.inr ⟨p, hcleared, rfl⟩)))
    (Nat.le_of_lt hlow) (Nat.le_of_lt hhigh)

/-- Tokens that are not cleared are left alone, but for the first part and the tags where they share
lines. -/
theorem rewritten_kept (hlow : tag ≤ k) (hhigh : k ≤ close)
    (hcleared : ¬ Cleared s tag short last close k) (hopen : k = tag ∨ k = short →
      s.line short ≠ s.line tag) (hclose : k = close → s.line last ≠ s.line close) :
    s.rewritten edits k = s.text k := by
  refine hmade.rewritten_of_forall_ne hlow hhigh fun e hmakes htarget => ?_
  rcases (makes_layoutFindings_iff h hends).mp hmakes with
    ⟨hline, rfl | rfl⟩ | ⟨hline, rfl⟩ | ⟨p, hp, rfl⟩
  · exact hopen (.inl htarget.symm) hline
  · exact hopen (.inr htarget.symm) hline
  · exact hclose htarget.symm hline
  · obtain rfl : p = k := htarget
    exact hcleared hp

/-- Where the first part shares the line of the opening tag, a line is opened for it. -/
theorem exists_lead_of_shared (hsame : s.line short = s.line tag) (hnewline : IsNewline newline)
    {behind : List Lexeme}
    (hlegible : Legible (s.slice (tag + 1) short ++ ⟨s.kind short, s.text short⟩ :: behind)) :
    ∃ lead, IsLead s short behind lead ∧
      s.remade edits tag (short + 1) = docOpener.text.toList ++
      (letters lead ++ (s.text short).toList) := by
  have hlow := hends.lt_short
  have hhigh := hends.short_lt
  have hflat : breaks (s.slice (tag + 1) short) = 0 := by
    have hbreaks := h.line_eq_add_breaks (show tag + 1 ≤ short from hlow) (Nat.le_of_lt hhigh)
    rw [h.line_succ_tag] at hbreaks
    omega
  obtain ⟨lead, hlead, hfills, hnew⟩ :=
    hlegible.open hnewline hends.short_says hends.lead (breaks_eq_zero_iff.mp hflat)
  have hone : breaks lead = 1 := by
    rw [breaks] at hflat
    rw [breaks, hlead, List.count_append, List.count_append, hnewline.count, hflat]
    rfl
  have htag : s.rewritten edits tag = s.text tag ++ newline :=
    hmade.rewritten (e := .append tag newline)
      ((makes_layoutFindings_iff h hends).mpr (.inl ⟨hsame, .inl rfl⟩))
      (Nat.le_refl tag) (Nat.le_of_lt h.lt)
  have hshort : s.rewritten edits short = "* " ++ s.text short :=
    hmade.rewritten (e := .insert short "* ")
      ((makes_layoutFindings_iff h hends).mpr (.inl ⟨hsame, .inr rfl⟩))
      (Nat.le_of_lt hlow) (Nat.le_of_lt hhigh)
  have hkept : s.remade edits (tag + 1) short = letters (s.slice (tag + 1) short) := by
    refine Store.remade_of_kept fun k hk hks => ?_
    refine rewritten_kept h hends hmade (by omega) (by omega) (fun hcleared => ?_)
      (by omega) (by omega)
    have := hcleared.lead_of_le h hends (Nat.le_of_lt hks)
    omega
  refine ⟨lead, ⟨hfills, hnew, by omega, fun _ => hone⟩, ?_⟩
  rw [Store.remade_cons s edits (by omega), Store.remade_succ s edits hlow, htag, hshort,
    hkept, hlead, show docOpener.text = s.text tag from h.text_tag.symm]
  simp

/-- Where the first part stands on a line of its own, blank lines in front of a description are
taken out. -/
theorem exists_lead_of_apart (hless : s.line tag < s.line short) {behind : List Lexeme}
    (hlegible : Legible (s.slice (tag + 1) short ++ ⟨s.kind short, s.text short⟩ :: behind)) :
    ∃ lead, IsLead s short behind lead ∧
      s.remade edits tag (short + 1) = docOpener.text.toList ++
      (letters lead ++ (s.text short).toList) := by
  have hlow := hends.lt_short
  have hhigh := hends.short_lt
  have hfirst := h.line_succ_tag
  have hbreaks := h.line_eq_add_breaks (show tag + 1 ≤ short from hlow) (Nat.le_of_lt hhigh)
  have hkeep (k : Nat) (hk : tag ≤ k) (hks : k ≤ short)
      (hout : s.kind short = .docText → s.line k = s.line tag ∨ s.line short ≤ s.line k) :
      s.rewritten edits k = s.text k := by
    refine rewritten_kept h hends hmade hk (by omega) (fun hcleared => ?_) (by omega) (by omega)
    obtain ⟨htext, _⟩ := hcleared.lead_of_le h hends hks
    have := hout htext
    omega
  have hremade : s.remade edits tag (short + 1) =
      docOpener.text.toList ++ (s.remade edits (tag + 1) short ++ (s.text short).toList) := by
    rw [Store.remade_cons s edits (by omega), Store.remade_succ s edits hlow,
      hkeep tag (Nat.le_refl tag) (Nat.le_of_lt hlow) fun _ => .inl rfl,
      hkeep short (Nat.le_of_lt hlow) (Nat.le_refl short) fun _ => .inr (Nat.le_refl _),
      show docOpener.text = s.text tag from h.text_tag.symm]
  by_cases hcut : s.kind short = .docText ∧ s.line tag + 1 < s.line short
  · obtain ⟨htext, hmany⟩ := hcut
    obtain ⟨lead, hlead, hfills, hnew, hcount⟩ := h.exists_cut [] (show tag < tag + 1 by omega) hlow
      (Nat.le_of_lt hhigh) (by omega) (Nat.le_refl (s.line short)) hends.lead
      (fun k hk hks hless hline =>
        rewritten_cleared h hends hmade (.lead hk hks htext (by omega) hline))
      (fun k hk hks hline => hkeep k (by omega) (Nat.le_of_lt hks) fun _ => by omega) hlegible
    exact ⟨lead, ⟨hfills, hnew, by omega, fun _ => by omega⟩, by rw [hremade, hlead]⟩
  · refine ⟨s.slice (tag + 1) short, ⟨hends.lead, hlegible, by omega, fun htext => ?_⟩, ?_⟩
    · by_contra hmany
      exact hcut ⟨htext, by omega⟩
    · rw [hremade, Store.remade_of_kept fun k hk hks =>
        hkeep k (by omega) (Nat.le_of_lt hks) fun htext => ?_]
      have hge := h.line_le (show tag ≤ k by omega) (by omega)
      have hone : ¬ s.line tag + 1 < s.line short := fun hmany => hcut ⟨htext, hmany⟩
      omega

/-- What is made of the beginning of a comment, up to its first part. -/
theorem exists_lead (hnewline : IsNewline newline) {behind : List Lexeme}
    (hlegible : Legible (s.slice (tag + 1) short ++ ⟨s.kind short, s.text short⟩ :: behind)) :
    ∃ lead, IsLead s short behind lead ∧
      s.remade edits tag (short + 1) = docOpener.text.toList ++
      (letters lead ++ (s.text short).toList) := by
  have hle := h.line_le (Nat.le_of_lt hends.lt_short) (Nat.le_of_lt hends.short_lt)
  rcases Nat.eq_or_lt_of_le hle with hsame | hless
  · exact exists_lead_of_shared h hends hmade hsame.symm hnewline hlegible
  · exact exists_lead_of_apart h hends hmade hless hlegible

/-- The last line in front of the closing tag is left as it was. -/
theorem rewritten_trail {k : Nat} (hk : last < k) (hkc : k < close)
    (hline : s.line close ≤ s.line last + 1 ∨ s.line close ≤ s.line (k + 1)) :
    s.rewritten edits k = s.text k := by
  have := hends.lt_short
  have := hends.short_le
  refine rewritten_kept h hends hmade (by omega) (Nat.le_of_lt hkc) (fun hcleared => ?_)
    (by omega) (by omega)
  have := hcleared.trail_of_lt h hends hk
  omega

/-- Where the last part shares the line of the closing tag, the line is broken between them. -/
theorem exists_trail_of_shared (hsame : s.line last = s.line close) (hnewline : IsNewline newline)
    {front : List Lexeme}
    (hlegible : Legible (front ++ [⟨s.kind last, s.text last⟩] ++ s.slice (last + 1) close)) :
    ∃ trail, IsTrail s last front trail ∧
      s.remade edits (last + 1) (close + 1) = letters trail ++ docCloser.text.toList := by
  have hlt := hends.last_lt
  have hflat : breaks (s.slice (last + 1) close) = 0 := by
    have hnext := h.line_succ_of_saying (Nat.lt_of_lt_of_le hends.lt_short hends.short_le) hlt
        hends.last_says
    have hbreaks := h.line_eq_add_breaks (show last + 1 ≤ close from hlt) (Nat.le_refl close)
    omega
  obtain ⟨trail, htrail, hfills, hnew⟩ :=
    hlegible.break_end hnewline hends.last_says hends.trail (breaks_eq_zero_iff.mp hflat)
  have hclose : s.rewritten edits close = newline ++ s.text close :=
    hmade.rewritten (e := .insert close newline)
      ((makes_layoutFindings_iff h hends).mpr (.inr (.inl ⟨hsame, rfl⟩)))
      (Nat.le_of_lt h.lt) (Nat.le_refl close)
  refine ⟨trail, ⟨hfills, hnew, ?_⟩, ?_⟩
  · rw [breaks] at hflat ⊢
    rw [htrail, List.count_append, hflat, hnewline.count]
  · rw [Store.remade_succ s edits hlt, hclose, htrail,
      show docCloser.text = s.text close from h.text_close.symm,
      Store.remade_of_kept fun k hk hkc => rewritten_trail h hends hmade hk hkc (.inl (by omega))]
    simp

/-- Where the closing tag stands on a line of its own, blank lines in front of it are taken out. -/
theorem exists_trail_of_apart (hless : s.line last < s.line close) {front : List Lexeme}
    (hlegible : Legible (front ++ [⟨s.kind last, s.text last⟩] ++ s.slice (last + 1) close)) :
    ∃ trail, IsTrail s last front trail ∧
      s.remade edits (last + 1) (close + 1) = letters trail ++ docCloser.text.toList := by
  have hlow := hends.lt_short
  have hle := hends.short_le
  have hlt := hends.last_lt
  have hnext := h.line_succ_of_saying (by omega) hlt hends.last_says
  have hbreaks := h.line_eq_add_breaks (show last + 1 ≤ close from hlt) (Nat.le_refl close)
  have hclose : s.rewritten edits close = s.text close := by
    refine rewritten_kept h hends hmade (Nat.le_of_lt h.lt) (Nat.le_refl close)
      (fun hcleared => ?_) (by omega) (by omega)
    have := hcleared.trail_of_lt h hends hlt
    omega
  have hremade : s.remade edits (last + 1) (close + 1) =
      s.remade edits (last + 1) close ++ docCloser.text.toList := by
    rw [Store.remade_succ s edits hlt, hclose,
      show docCloser.text = s.text close from h.text_close.symm]
  rw [hremade]
  by_cases hmany : s.line last + 1 < s.line close
  · -- all is taken out up to the line break in front of the line of the closing tag
    obtain ⟨m, hm, hmclose, hmline, hmnext⟩ :=
      h.exists_lineStart (n := s.line close) (show tag ≤ last + 1 by omega) hlt
      (Nat.le_refl close) (by omega) (Nat.le_refl _)
    rw [s.slice_split hm hmclose] at hlegible
    refine ⟨s.slice m close, ⟨fun l hl => ?_, ?_, ?_⟩, ?_⟩
    · obtain ⟨k, hmk, hkc, rfl⟩ := Store.mem_slice.mp hl
      exact hends.trail _ (Store.mem_slice.mpr ⟨k, by omega, hkc, rfl⟩)
    · rw [Store.slice_cons hmclose]
      exact hlegible.cut_end hends.last_says (h.isDocBreak (by omega) hmclose (by omega))
    · have := h.line_eq_add_breaks (Nat.le_of_lt hmclose) (Nat.le_refl close)
      omega
    · rw [Store.remade_of_cleared (Nat.le_refl (last + 1)) hm (Nat.le_of_lt hmclose),
        Store.slice_self, List.nil_append]
      · intro k hk hkm
        have := h.line_le (show k + 1 ≤ m from hkm) (Nat.le_of_lt hmclose)
        exact rewritten_cleared h hends hmade (.trail hk (by omega) hmany (by omega))
      · intro k hk hkc hout
        have := h.line_le (show m + 1 ≤ k + 1 by omega) hkc
        exact rewritten_trail h hends hmade hk hkc (.inr (by omega))
  · refine ⟨s.slice (last + 1) close, ⟨hends.trail, hlegible, by omega⟩, ?_⟩
    rw [Store.remade_of_kept fun k hk hkc => rewritten_trail h hends hmade hk hkc (.inl (by omega))]

/-- What is made of the end of a comment, behind its last part. -/
theorem exists_trail (hnewline : IsNewline newline) {front : List Lexeme}
    (hlegible : Legible (front ++ [⟨s.kind last, s.text last⟩] ++ s.slice (last + 1) close)) :
    ∃ trail, IsTrail s last front trail ∧
      s.remade edits (last + 1) (close + 1) = letters trail ++ docCloser.text.toList := by
  have hle := h.line_le (Nat.le_of_lt hends.last_lt) (Nat.le_refl close)
  rcases Nat.eq_or_lt_of_le hle with hsame | hless
  · exact exists_trail_of_shared h hends hmade hsame hnewline hlegible
  · exact exists_trail_of_apart h hends hmade hless hlegible

end DocLayout

end PhpStyle
