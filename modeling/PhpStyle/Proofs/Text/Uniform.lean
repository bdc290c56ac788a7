import Mathlib.Data.List.Basic
import PhpStyle.Standard.Settings
import PhpStyle.Text.Case

/-!
# Texts with one kind of line break

A text has the line breaks of one ending only: no carriage return at all, or one in front of every
line feed. Of texts put together this holds if it holds of each; of a part that starts with a line
feed it need not hold, since the carriage return may have been left behind.
-/

namespace PhpStyle

/-- The upper case of a character holds no line feed and no carriage return, unless the character is
one. -/
theorem Text.not_mem_upperChar {c x : Char} (hx : x.toNat ∈ [10, 13]) (hc : c ≠ x) :
    x ∉ upperChar c := by
  have hmany : ∀ e ∈ Case.toUpperMany, ∀ n ∈ e.2, (Char.ofNat n).toNat ∉ [10, 13] := by
    decide +kernel
  have hruns : ∀ r ∈ Case.toUpperRuns, 13 < (r.1.first : Int) + r.2 := by decide +kernel
  have hofNat (n : Nat) : (Char.ofNat n).toNat = n ∨ (Char.ofNat n).toNat = 0 := by
    by_cases hvalid : n.isValidChar
    · exact .inl (by rw [Char.ofNat, dif_pos hvalid]; rfl)
    · exact .inr (by rw [Char.ofNat, dif_neg hvalid]; rfl)
  unfold upperChar Case.convert
  split
  · rename_i ns hlookup
    obtain ⟨before, behind, htable, _⟩ := List.lookup_eq_some_iff.mp hlookup
    intro hmem
    obtain ⟨n, hn, rfl⟩ := List.mem_map.mp hmem
    exact hmany (c.toNat, ns) (by simp [htable]) n hn hx
  · split
    · rename_i run distance hfound
      have hlow : 13 < (run.first : Int) + distance := hruns _ (List.mem_of_find?_eq_some hfound)
      have hhas := List.find?_some hfound
      simp only [Run.has, Bool.and_eq_true, decide_eq_true_eq] at hhas
      rw [List.mem_singleton]
      rintro rfl
      have hcases := hofNat ((c.toNat : Int) + distance).toNat
      simp only [List.mem_cons, List.not_mem_nil, or_false] at hx
      omega
    · simpa using hc.symm

namespace LineEnding

/-- Every line break of a text is of this ending. -/
def Uniform : LineEnding → List Char → Prop
  | .lf, cs => '\r' ∉ cs
  | .crlf, cs => ∀ before behind, cs = before ++ '\n' :: behind → before.getLast? = some '\r'

variable {style : LineEnding} {a b cs : List Char}

namespace Uniform

/-- Characters without line breaks have those of every style. -/
theorem of_plain (hreturn : '\r' ∉ cs) (hfeed : '\n' ∉ cs) : style.Uniform cs := by
  cases style with
  | lf => exact hreturn
  | crlf =>
    rintro before behind rfl
    simp at hfeed

/-- No characters have the line breaks of every style. -/
theorem nil : style.Uniform [] := of_plain (by simp) (by simp)

/-- A blank has the line breaks of every style. -/
theorem space : style.Uniform " ".toList := of_plain (by decide) (by decide)

/-- Characters put together have the line breaks that both have. -/
theorem append (ha : style.Uniform a) (hb : style.Uniform b) : style.Uniform (a ++ b) := by
  cases style with
  | lf => exact List.mem_append.not.mpr (not_or.mpr ⟨ha, hb⟩)
  | crlf =>
    intro before behind h
    rcases List.append_eq_append_iff.mp h with ⟨more, rfl, hmore⟩ | ⟨more, rfl, hmore⟩
    · rw [List.getLast?_append, hb more behind hmore]
      rfl
    · cases more with
      | nil => cases hb [] behind hmore.symm
      | cons c more =>
        obtain ⟨rfl, _⟩ := List.cons_eq_cons.mp hmore
        exact ha before more rfl

/-- Texts put together have the line breaks that all have. -/
theorem join {texts : List String} (h : ∀ t ∈ texts, style.Uniform t.toList) :
    style.Uniform (String.join texts).toList := by
  rw [String.toList_join]
  induction texts with
  | nil => exact nil
  | cons t texts ih =>
    obtain ⟨hfirst, hrest⟩ := List.forall_mem_cons.mp h
    exact hfirst.append (ih hrest)

/-- The first characters have the line breaks of all. -/
theorem of_append_left (h : style.Uniform (a ++ b)) : style.Uniform a := by
  cases style with
  | lf => exact fun hmem => h (List.mem_append_left b hmem)
  | crlf =>
    rintro before behind rfl
    exact h before (behind ++ b) (by simp)

/-- What a text ends with is uniform if it does not start in the middle of a break. -/
theorem of_append_right (h : style.Uniform (a ++ b)) (hhead : b.head? ≠ some '\n') :
    style.Uniform b := by
  cases style with
  | lf => exact fun hmem => h (List.mem_append_right a hmem)
  | crlf =>
    rintro before behind rfl
    have hbefore : before ≠ [] := by
      rintro rfl
      exact hhead rfl
    have hlast := h (a ++ before) behind (List.append_assoc ..).symm
    rwa [List.getLast?_append_of_ne_nil a hbefore] at hlast

/-- Behind its first character a text is uniform, unless that belongs to a break. -/
theorem of_cons {c : Char} (h : style.Uniform (c :: cs))
    (hbreak : c = '\r' → cs.head? ≠ some '\n') : style.Uniform cs := by
  cases style with
  | lf => exact fun hmem => h (List.mem_cons_of_mem c hmem)
  | crlf =>
    refine of_append_right (a := [c]) h fun hhead => ?_
    obtain ⟨more, rfl⟩ := List.head?_eq_some_iff.mp hhead
    exact hbreak (by simpa using h [c] more rfl) hhead

/-- What stands in a uniform text is uniform if its first part is. -/
theorem of_infix (h : style.Uniform (cs ++ (a ++ b))) (ha : style.Uniform a) (hne : a ≠ []) :
    style.Uniform (a ++ b) := by
  cases style with
  | lf => exact fun hmem => h (List.mem_append_right cs hmem)
  | crlf =>
    refine h.of_append_right fun hhead => ?_
    rw [List.head?_append_of_ne_nil a hne] at hhead
    obtain ⟨more, rfl⟩ := List.head?_eq_some_iff.mp hhead
    cases ha [] more rfl

/-- The other half of a break may be put to the first. -/
theorem concat (ha : style.Uniform a) (hlast : a.getLast? = some '\r') :
    style.Uniform (a ++ ['\n']) := by
  cases style with
  | lf => exact absurd (List.mem_of_getLast? hlast) ha
  | crlf =>
    intro before behind h
    rcases List.eq_nil_or_concat behind with rfl | ⟨rest, last, rfl⟩
    · rw [← List.append_inj_left' h rfl]
      exact hlast
    · rw [List.concat_eq_append, ← List.cons_append, ← List.append_assoc] at h
      exact ha before rest (List.append_inj_left' h rfl)

/-- The line break of a style has that style. -/
theorem text (style : LineEnding) : style.Uniform style.text.toList := by
  cases style with
  | lf => simp [Uniform, LineEnding.text]
  | crlf =>
    refine concat (a := ['\r']) (fun before behind h => ?_) rfl
    have hmem : '\n' ∈ ['\r'] := by simp [h]
    simp at hmem

/-- Case has no line breaks. -/
theorem capitalize {text : String} (h : style.Uniform text.toList) :
    style.Uniform (Text.capitalize text).toList := by
  unfold Text.capitalize
  split
  · exact .nil
  rename_i c rest htext
  rw [htext] at h
  rw [String.toList_ofList]
  by_cases hc : c = '\n' ∨ c = '\r'
  · have hsame : Text.upperChar c = [c] := by rcases hc with rfl | rfl <;> decide
    rw [hsame]
    exact h
  obtain ⟨hfeed, hreturn⟩ := not_or.mp hc
  have hrest : style.Uniform rest := h.of_cons fun heq => absurd heq hreturn
  have hupper : style.Uniform (Text.upperChar c) :=
    of_plain (Text.not_mem_upperChar (by decide) hreturn) (Text.not_mem_upperChar (by decide) hfeed)
  exact hupper.append hrest

end Uniform

/-- A chain of characters that allows line feeds behind carriage returns only. -/
theorem isChain_iff {c : Char} {cs : List Char} :
    (c :: cs).IsChain (fun a b => b = '\n' → a = '\r') ↔
    ∀ before behind, cs = before ++ '\n' :: behind → (c :: before).getLast? = some '\r' := by
  induction cs generalizing c with
  | nil => simp
  | cons d cs ih =>
    rw [List.isChain_cons_cons, ih]
    constructor
    · rintro ⟨hfirst, hrest⟩ before behind h
      cases before with
      | nil =>
        obtain ⟨rfl, _⟩ := List.cons_eq_cons.mp h
        rw [List.getLast?_singleton, hfirst rfl]
      | cons e before =>
        obtain ⟨rfl, hsplit⟩ := List.cons_eq_cons.mp h
        exact hrest before behind hsplit
    · intro h
      refine ⟨fun hd => ?_, fun before behind hsplit =>
        h (d :: before) behind (by rw [hsplit, List.cons_append])⟩
      have := h [] cs (by rw [hd, List.nil_append])
      simpa using this

/-- All line breaks have a carriage return if every line feed has one in front of it. -/
theorem uniform_crlf_iff {cs : List Char} :
    LineEnding.crlf.Uniform cs ↔ (' ' :: cs).IsChain (fun a b => b = '\n' → a = '\r') := by
  rw [isChain_iff]
  refine forall_congr' fun before => forall_congr' fun behind => imp_congr_right fun _ => ?_
  cases before with
  | nil => simp
  | cons d before => rw [List.getLast?_cons_cons]

instance (style : LineEnding) (cs : List Char) : Decidable (style.Uniform cs) :=
  match style with
  | .lf => inferInstanceAs (Decidable ('\r' ∉ cs))
  | .crlf => decidable_of_iff _ uniform_crlf_iff.symm

end LineEnding

end PhpStyle
