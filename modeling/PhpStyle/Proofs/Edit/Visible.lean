import Mathlib.Data.List.Flatten
import PhpStyle.Proofs.Edit.Rewriting
import PhpStyle.Proofs.Php.Stores

/-!
# What edits do to visible characters

Edits of layout put blanks in and take whitespace away, so they keep the visible characters of a
text. Edits that only take characters away keep all of them exactly if each keeps those of its own
token, for what one edit takes away no other can bring back.
-/

namespace PhpStyle

namespace Edit

/-- The text of the token of an edit when the edit is made. -/
def result (s : Store) (e : Edit) : String := e.change.applyTo (s.text e.target)

/-- An edit that keeps the visible characters of its token. -/
def Keeps (s : Store) (e : Edit) : Prop :=
  Text.visible (e.result s) = Text.visible (s.text e.target)

/-- An edit that brings no visible character in. -/
def Erases (s : Store) (e : Edit) : Prop :=
  (Text.visible (e.result s)).Sublist (Text.visible (s.text e.target))

/-- An edit of layout: blanks beside a token, or blanks in place of whitespace. -/
def IsLayout (s : Store) (e : Edit) : Prop :=
  match e.change with
  | .insert text | .append text => Text.isBlank text = true
  | .replace text => s.kind e.target = .whitespace ∧ Text.isBlank text = true
  | .delete => s.kind e.target = .whitespace

/-- An edit that keeps the visible characters brings none in. -/
theorem Keeps.erases {s : Store} {e : Edit} (h : e.Keeps s) : e.Erases s := by
  rw [Erases, show Text.visible (e.result s) = _ from h]

/-- An edit of layout keeps the visible characters. -/
theorem IsLayout.keeps {s : Store} (hs : Php.Sound s) {e : Edit} (h : e.IsLayout s) :
    e.Keeps s := by
  obtain ⟨i, change⟩ := e
  cases change with
  | insert text =>
    have htext := Text.visible_eq_nil_iff.mpr h
    simp [Keeps, result, Change.applyTo, htext]
  | append text =>
    have htext := Text.visible_eq_nil_iff.mpr h
    simp [Keeps, result, Change.applyTo, htext]
  | replace text =>
    have htext := Text.visible_eq_nil_iff.mpr h.2
    have hold := Text.visible_eq_nil_iff.mpr (hs.isBlank_of_whitespace h.1)
    exact htext.trans hold.symm
  | delete =>
    have hold := Text.visible_eq_nil_iff.mpr (hs.isBlank_of_whitespace h)
    exact Text.visible_empty.trans hold.symm

/-- Blanks put in place of a token take its visible characters away. -/
theorem erases_of_replace {s : Store} {i : Nat} {text : String} (h : Text.isBlank text = true) :
    (Edit.replace i text).Erases s := by
  have hresult : Text.visible ((Edit.replace i text).result s) = [] := Text.visible_eq_nil_iff.mpr h
  rw [Erases, hresult]
  exact List.nil_sublist _

/-- Cutting the end of a token off brings no visible character in. -/
theorem erases_of_cut {s : Store} {i : Nat} {kept cut : String} (h : s.text i = kept ++ cut) :
    (Edit.replace i kept).Erases s := by
  rw [Erases, show s.text (Edit.replace i kept).target = kept ++ cut from h, Text.visible_append]
  exact List.sublist_append_left _ _

/-- Cutting the end off a token keeps the visible characters if the end is blank. -/
theorem keeps_cut_iff {s : Store} {i : Nat} {kept cut : String} (h : s.text i = kept ++ cut) :
    (Edit.replace i kept).Keeps s ↔ Text.isBlank cut = true := by
  rw [Keeps, show s.text (Edit.replace i kept).target = kept ++ cut from h, Text.visible_append,
    ← Text.visible_eq_nil_iff]
  exact List.self_eq_append_right

end Edit

namespace Finding

/-- A finding whose fix, if it has one, is made of edits of layout. -/
def OnlyLayout (s : Store) (f : Finding) : Prop :=
  ∀ c, f.fix = some c → ∀ e ∈ c, e.IsLayout s

/-- A fix of one edit of layout is layout. -/
theorem onlyLayout_of_singleton {s : Store} {f : Finding} {e : Edit} (hfix : f.fix = some [e])
    (he : e.IsLayout s) : f.OnlyLayout s := by
  intro c hc e' he'
  obtain rfl := Option.some.inj (hfix.symm.trans hc)
  obtain rfl := List.mem_singleton.mp he'
  exact he

/-- A fix of layout keeps the visible characters of every token. -/
theorem OnlyLayout.keeps {s : Store} (hs : Php.Sound s) {f : Finding} (h : f.OnlyLayout s)
    {c : Changeset} (hc : f.fix = some c) : ∀ e ∈ c, e.Keeps s :=
  fun e he => (h c hc e he).keeps hs

end Finding

/-- A token as it is rewritten: by the edit of it if there is one. -/
theorem rewriteToken_cases {s : Store} (edits : List Edit) {t : Token × Nat}
    (ht : t ∈ s.tokens.toList.zipIdx) :
    (∃ e ∈ edits, e.target = t.2 ∧ rewriteToken edits t = e.result s ∧ t.1.text = s.text e.target) ∨
      (∀ e ∈ edits, e.target ≠ t.2) ∧ rewriteToken edits t = t.1.text := by
  cases hfind : edits.find? (·.target == t.2) with
  | some e =>
    have htarget : e.target = t.2 := by simpa using List.find?_some hfind
    have htext : t.1.text = s.text e.target := by
      have hget := List.mem_zipIdx_iff_getElem?.mp ht
      rw [Store.text, Store.token, htarget, ← Array.getElem?_toList, hget]
      rfl
    refine .inl ⟨e, List.mem_of_find?_eq_some hfind, htarget, ?_, htext⟩
    rw [rewriteToken, hfind, Edit.result, htext]
  | none =>
    refine .inr ⟨fun e he => ?_, by rw [rewriteToken, hfind]⟩
    simpa using List.find?_eq_none.mp hfind e he

namespace Store

/-- The visible characters of a rewritten text are those of its rewritten tokens. -/
theorem visible_rewrite (s : Store) (edits : List Edit) :
    Text.visible (s.rewrite edits) =
      s.tokens.toList.zipIdx.flatMap fun t => Text.visible (rewriteToken edits t) := by
  rw [rewrite, Text.visible_join, List.flatMap_map]

/-- Without edits a text is rewritten to itself. -/
theorem rewrite_nil {s : Store} (hs : Php.Sound s) : s.rewrite [] = s.source := by
  have htexts : s.tokens.toList.zipIdx.map (rewriteToken []) = s.tokens.toList.map (·.text) := by
    conv_rhs => rw [← List.zipIdx_map_fst 0 s.tokens.toList, List.map_map]
    rfl
  rw [rewrite, htexts, ← hs.source]

/-- The visible characters of a source are those of its tokens. -/
theorem visible_source {s : Store} (hs : Php.Sound s) :
    Text.visible s.source = s.tokens.toList.zipIdx.flatMap fun t => Text.visible t.1.text := by
  rw [← rewrite_nil hs, visible_rewrite]
  rfl

end Store

/-- Lists of which each is a part of another are together equal exactly if each is. -/
theorem flatMap_eq_iff_of_sublist {α β : Type} {f g : α → List β} {l : List α}
    (h : ∀ a ∈ l, (f a).Sublist (g a)) : l.flatMap f = l.flatMap g ↔ ∀ a ∈ l, f a = g a := by
  induction l with
  | nil => simp
  | cons a l ih =>
    obtain ⟨hfirst, hrest⟩ := List.forall_mem_cons.mp h
    rw [List.flatMap_cons, List.flatMap_cons, List.forall_mem_cons, ← ih hrest]
    constructor
    · intro heq
      have hlength := congrArg List.length heq
      have hle := hfirst.length_le
      have hle' := (List.Sublist.flatMap_right l hrest).length_le
      simp only [List.length_append] at hlength
      exact List.append_inj heq (by omega)
    · rintro ⟨hfirst, hrest⟩
      rw [hfirst, hrest]

section

variable {s : Store} {edits : List Edit}

/-- If no edit brings a visible character in, no rewritten token has more than before. -/
theorem visible_rewriteToken_sublist (herases : ∀ e ∈ edits, e.Erases s) {t : Token × Nat}
    (ht : t ∈ s.tokens.toList.zipIdx) :
    (Text.visible (rewriteToken edits t)).Sublist (Text.visible t.1.text) := by
  rcases rewriteToken_cases edits ht with ⟨e, he, _, hresult, htext⟩ | ⟨_, hresult⟩
  · rw [hresult, htext]
    exact herases e he
  · rw [hresult]

/-- Edits that bring no visible character in leave a part of the visible characters. -/
theorem visible_rewrite_sublist (hs : Php.Sound s) (herases : ∀ e ∈ edits, e.Erases s) :
    (Text.visible (s.rewrite edits)).Sublist (Text.visible s.source) := by
  rw [s.visible_rewrite, Store.visible_source hs]
  exact List.Sublist.flatMap_right _ fun _ => visible_rewriteToken_sublist herases

/-- They leave all of them exactly if every edit of a token of the file keeps those of its token. -/
theorem visible_rewrite_eq_iff (hs : Php.Sound s) (hnodup : (edits.map (·.target)).Nodup)
    (herases : ∀ e ∈ edits, e.Erases s) :
    Text.visible (s.rewrite edits) = Text.visible s.source ↔
      ∀ e ∈ edits, e.target < s.size → e.Keeps s := by
  rw [s.visible_rewrite, Store.visible_source hs,
    flatMap_eq_iff_of_sublist fun _ => visible_rewriteToken_sublist herases]
  constructor
  · intro hall e he hsize
    have ht : (s.token e.target, e.target) ∈ s.tokens.toList.zipIdx := by
      rw [List.mem_zipIdx_iff_getElem?, Array.getElem?_toList, Store.token,
        Array.getElem?_eq_getElem hsize]
      rfl
    have heq := hall _ ht
    rwa [rewriteToken, (find?_target_eq_some_iff hnodup).mpr ⟨he, rfl⟩] at heq
  · intro hkeeps t ht
    rcases rewriteToken_cases edits ht with ⟨e, he, htarget, hresult, htext⟩ | ⟨_, hresult⟩
    · have hlt := (List.getElem?_eq_some_iff.mp (List.mem_zipIdx_iff_getElem?.mp ht)).1
      rw [hresult, htext]
      exact hkeeps e he (by simpa [htarget, Store.size] using hlt)
    · rw [hresult]

end

end PhpStyle
