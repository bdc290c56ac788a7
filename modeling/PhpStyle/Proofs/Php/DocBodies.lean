import PhpStyle.Proofs.Php.DocParts

/-!
# Documentation comments in a text

A documentation comment that is closed is an opening tag, a body of parts and a closing tag. Another
body can take the place of a body if it is read there as it was put together. So a text in which the
bodies of comments have been exchanged is read as before outside of them, and its comments are those
of the old text, with the new bodies.
-/

namespace PhpStyle.Php

open Lexer

variable {mode next : Mode} {l : Lexeme} {ls ks body body' : List Lexeme}
    {rest : List Char} {n : Nat}

/-- A list is split in one way at its first element without a property. -/
theorem split_unique {α : Type} {p : α → Prop} {a a' b b' : List α} {x x' : α} (ha : ∀ y ∈ a, p y)
    (ha' : ∀ y ∈ a', p y) (hx : ¬ p x) (hx' : ¬ p x') (h : a ++ x :: b = a' ++ x' :: b') :
    a = a' ∧ x = x' ∧ b = b' := by
  induction a generalizing a' with
  | nil =>
    cases a' with
    | nil => exact ⟨rfl, List.cons_eq_cons.mp h⟩
    | cons y a' =>
      obtain ⟨rfl, _⟩ := List.cons_eq_cons.mp h
      exact absurd (ha' _ List.mem_cons_self) hx
  | cons y a ih =>
    obtain ⟨hy, ha⟩ := List.forall_mem_cons.mp ha
    cases a' with
    | nil =>
      obtain ⟨rfl, _⟩ := List.cons_eq_cons.mp h
      exact absurd hy hx'
    | cons y' a' =>
      obtain ⟨rfl, hrest⟩ := List.cons_eq_cons.mp h
      obtain ⟨rfl, hsame⟩ := ih ha (List.forall_mem_cons.mp ha').2 hrest
      exact ⟨rfl, hsame⟩

/-- What stands behind such elements, and is none of them, stands behind the first element that is
none. -/
theorem exists_split_behind {α : Type} {p : α → Prop} {a b c front : List α} {x z : α}
    (ha : ∀ y ∈ a, p y) (hz : ¬ p z) (hne : z ≠ x) (h : front ++ z :: c = a ++ x :: b) :
    ∃ front', b = front' ++ z :: c := by
  induction a generalizing front with
  | nil =>
    cases front with
    | nil => exact absurd (List.cons_eq_cons.mp h).1 hne
    | cons f front => exact ⟨front, (List.cons_eq_cons.mp h).2.symm⟩
  | cons y a ih =>
    obtain ⟨hy, ha⟩ := List.forall_mem_cons.mp ha
    cases front with
    | nil =>
      obtain ⟨rfl, _⟩ := List.cons_eq_cons.mp h
      exact absurd hy hz
    | cons f front => exact ih ha (List.cons_eq_cons.mp h).2

/-- The tag that opens a documentation comment. -/
def docOpener : Lexeme := ⟨.docOpen, "/**"⟩

/-- The tag that closes a documentation comment. -/
def docCloser : Lexeme := ⟨.docClose, "*/"⟩

/-- What a documentation comment starts with is a blank or a line break. -/
def opensBody (rest : List Char) : Bool := rest.head?.any fun c => isBlank c || c == '\n'

/-- The opening tag of a documentation comment is read as one in front of a body. -/
theorem reads_docOpener (h : opensBody rest = true) :
    Reads .code docOpener rest (.docComment false) := by
  refine ⟨'/', ['*', '*'], rfl, ?_⟩
  have hopens : opensDoc ('*' :: rest) = true := by
    rw [opensDoc_cons]
    exact h
  change slashStep ('*' :: '*' :: rest) = _
  rw [slashStep_star, hopens, if_pos rfl]
  rfl

/-- Only the opening tag opens a documentation comment, and a body follows it. -/
theorem eq_of_slashStep {taken : List Char}
    (h : slashStep (taken ++ rest) = ⟨.docOpen, taken.length, next⟩) :
    taken = ['*', '*'] ∧ next = .docComment false ∧ opensBody rest = true := by
  have hkind := congrArg Step.kind h
  unfold slashStep at hkind
  split at hkind
  · cases hkind
  · rename_i body hbody
    rw [hbody, slashStep_star] at h
    cases hopens : opensDoc body with
    | false =>
      rw [hopens, if_neg (by simp)] at h
      cases congrArg Step.kind h
    | true =>
      rw [hopens, if_pos rfl, Step.mk.injEq] at h
      obtain ⟨_, hextra, rfl⟩ := h
      obtain ⟨d, e, rfl⟩ := List.length_eq_two.mp hextra.symm
      obtain ⟨rfl, rfl⟩ := List.cons_eq_cons.mp hbody
      change opensDoc (e :: rest) = true at hopens
      rw [opensDoc_cons, Bool.and_eq_true, beq_iff_eq] at hopens
      obtain ⟨rfl, hhead⟩ := hopens
      exact ⟨rfl, rfl, hhead⟩
  · have hnot := isComment_operatorStep ('/' :: (taken ++ rest))
    rw [hkind] at hnot
    cases hnot

/-- A documentation comment is opened in code, in front of a blank or a line break. -/
theorem Reads.of_docOpen (hl : Reads mode l rest next) (hkind : l.kind = .docOpen) :
    mode = .code ∧ next = .docComment false ∧ l = docOpener ∧ opensBody rest = true := by
  obtain ⟨c, taken, htext, hstep⟩ := hl
  have hread : (mode.step c (taken ++ rest)).kind = .docOpen :=
    (congrArg Step.kind hstep).trans hkind
  have hout : mode.inDoc = false := by
    rw [← (mode.step_tracks c (taken ++ rest)).1, hread]
    rfl
  cases mode with
  | html =>
    have hmem := htmlStep_kind c (taken ++ rest)
    rw [Mode.step] at hread
    rw [hread] at hmem
    simp at hmem
  | blockComment => cases hread
  | docComment lineStart => cases hout
  | docTail => cases hout
  | code =>
    rw [Mode.step] at hread hstep
    rcases start_of_isComment_codeStep c (taken ++ rest) (by rw [hread]; rfl) with rfl | rfl
    · have hhash : codeStep '#' (taken ++ rest) =
          if at? "[" (taken ++ rest) then ⟨.attribute, 1, .code⟩
          else ⟨.comment, lineCommentLength (taken ++ rest), .code⟩ := rfl
      rw [hhash] at hread
      split at hread <;> cases hread
    · have hslash : slashStep (taken ++ rest) = ⟨.docOpen, taken.length, next⟩ := hkind ▸ hstep
      obtain ⟨rfl, rfl, hopens⟩ := eq_of_slashStep hslash
      have hsame : l.text = "/**" := by
        rw [← String.toList_inj, htext]
        rfl
      exact ⟨rfl, rfl, by rw [docOpener, ← hkind, ← hsame], hopens⟩

/-- The parts of a documentation comment between its tags. -/
def IsBody (body : List Lexeme) : Prop := ∀ l ∈ body, Fills l ∨ Says l

/-- The closing tag neither fills a line nor says anything. -/
theorem not_fills_or_says_docCloser : ¬ (Fills docCloser ∨ Says docCloser) := by
  rintro ((h | h) | (h | h)) <;> cases h

/-- The body of a comment has no closing tag. -/
theorem IsBody.ne_docClose (h : IsBody body) : ∀ l ∈ body, l.kind ≠ .docClose := fun l hl =>
  (h l hl).elim Fills.ne_docClose Says.ne_docClose

/-- A body that is read, between the tags of a comment, as it was put together. -/
structure Legible (body : List Lexeme) : Prop where
  isBody : IsBody body
  opens : opensBody (letters body) = true
  reads : ∀ rest, ReadsAll (.docComment false) (body ++ [docCloser]) rest .code

/-- A comment with its tags. -/
def enclosed (body : List Lexeme) : List Lexeme := docOpener :: (body ++ [docCloser])

/-- Whether a body follows the opening tag is settled by its first character. -/
theorem opensBody_append {a : List Char} (h : opensBody a = true) (b : List Char) :
    opensBody (a ++ b) = true := by
  cases a with
  | nil => cases h
  | cons c a => exact h

/-- A legible body is read as it stands between its tags. -/
theorem Legible.readsAll (h : Legible body) (rest : List Char) :
    ReadsAll .code (enclosed body) rest .code := by
  refine .cons (reads_docOpener ?_) (h.reads rest)
  rw [letters_append, List.append_assoc]
  exact opensBody_append h.opens _

/-- The tags of a comment are read as they are spelled. -/
theorem enclosed_of_readsAll {close : Lexeme} (h : ReadsAll mode (l :: (body ++ [close])) rest next)
    (hopen : l.kind = .docOpen) (hclose : close.kind = .docClose) (hbody : IsBody body) :
    l :: (body ++ [close]) = enclosed body := by
  cases h with
  | cons hl hrest =>
    obtain ⟨_, rfl, rfl, _⟩ := hl.of_docOpen hopen
    obtain ⟨between, hread, hlast⟩ := hrest.of_append
    cases hlast with
    | cons hl hnil =>
      obtain ⟨htext, _⟩ := (hl.docReads (hread.inDoc rfl hbody.ne_docClose)).text_of_close hclose
      have hsame : close.text = "*/" := by
        rw [← String.toList_inj, htext]
        rfl
      rw [enclosed, docCloser, ← hclose, ← hsame]

/-- A body that is read between the tags of one comment can be read. -/
theorem legible_of_reads (hbody : IsBody body) (hopens : opensBody (letters body) = true)
    (h : ReadsAll (.docComment false) (body ++ [docCloser]) rest next) : Legible body := by
  obtain ⟨between, hread, hlast⟩ := h.of_append
  have hbetween := hread.inDoc rfl hbody.ne_docClose
  refine ⟨hbody, hopens,
    fun rest' => .append (hread.of_agree ?_) (.singleton (DocReads.close hbetween rfl rfl).reads)⟩
  exact .bound ['*'] ([] ++ rest) ([] ++ rest') (x := '/')
    (List.mem_cons_of_mem _ List.mem_cons_self)

/-- A comment that is read has a body that can be read. -/
theorem legible_of_readsAll (h : ReadsAll mode (enclosed body) rest next) (hbody : IsBody body) :
    mode = .code ∧ next = .code ∧ Legible body := by
  cases h with
  | cons hl hrest =>
    obtain ⟨rfl, rfl, _, hopens⟩ := hl.of_docOpen rfl
    obtain ⟨between, hread, hlast⟩ := hrest.of_append
    refine ⟨rfl, ?_, legible_of_reads hbody ?_ hrest⟩
    · cases hlast with
      | cons hclose hnil =>
        cases hnil
        exact ((hclose.docReads (hread.inDoc rfl hbody.ne_docClose)).text_of_close rfl).2
    · cases hread with
      | nil => cases hopens
      | cons hl hls =>
        obtain ⟨c, t, htext⟩ := List.exists_cons_of_ne_nil (ReadsAll.cons hl hls).ne_nil
        rw [List.cons_append, letters_cons, htext] at hopens
        rw [letters_cons, htext]
        exact hopens

/-! ### Bodies that change -/

variable {a b p fill : List Lexeme} {w v z : Lexeme} {newline : String}

/-- No lexeme of a legible body is empty. -/
theorem Legible.text_ne (h : Legible body) : ∀ l ∈ body, l.text.toList ≠ [] := by
  intro l hl
  obtain ⟨front, behind, rfl⟩ := List.append_of_mem hl
  have hread := h.reads []
  rw [List.append_assoc, List.cons_append] at hread
  obtain ⟨_, _, hread⟩ := hread.of_append
  exact hread.ne_nil

/-- What a body starts with is all that counts for its opening. -/
theorem opensBody_congr {b b' : List Char} {a : List Char} (ha : a ≠ [])
    (h : opensBody (a ++ b) = true) : opensBody (a ++ b') = true := by
  cases a with
  | nil => exact absurd rfl ha
  | cons c a => exact h

/-- Lexemes are not empty if the last one is not. -/
theorem letters_concat_ne_nil (hz : z.text.toList ≠ []) : letters (a ++ [z]) ≠ [] := by
  simpa using fun _ => hz

/-- A body stays one if lexemes that fill their lines are put in. -/
theorem IsBody.of_subset (h : IsBody body) (hsub : ∀ l ∈ body', l ∈ body ∨ Fills l) :
    IsBody body' :=
  fun l hl => (hsub l hl).elim (h l) .inl

/-- A body of which something behind its start is left out is read, if it is read as before. -/
theorem Legible.of_subset {b' : List Lexeme} (h : Legible (a ++ [z] ++ b)) (hsub : b' ⊆ b)
    {rest : List Char} {next : Mode}
    (hread : ReadsAll (.docComment false) (a ++ [z] ++ b' ++ [docCloser]) rest next) :
    Legible (a ++ [z] ++ b') := by
  refine legible_of_reads (h.isBody.of_subset fun l hl => .inl ?_) ?_ hread
  · exact (List.mem_append.mp hl).elim (List.mem_append_left _) fun hl =>
      List.mem_append_right _ (hsub hl)
  · have hopens := h.opens
    rw [letters_append] at hopens ⊢
    exact opensBody_congr (letters_concat_ne_nil (h.text_ne z (by simp))) hopens

/-- Lines of a body can be taken out. -/
theorem Legible.cut (h : Legible (a ++ [w] ++ (p ++ [v] ++ b))) (hw : IsDocBreak w)
    (hv : IsDocBreak v) : Legible (a ++ [w] ++ b) := by
  have hne := h.isBody.ne_docClose
  have hread := h.reads []
  rw [List.append_assoc, List.append_assoc (p ++ [v])] at hread
  have hnew := hread.cut rfl (fun l hl => hne l (by simp [hl]))
      (fun l hl => hne l (by simp [hl])) hw hv
  rw [← List.append_assoc] at hnew
  exact h.of_subset (List.subset_append_right _ _) hnew

/-- At the end of a body, everything in front of a line break can be taken out. -/
theorem Legible.cut_end (h : Legible (a ++ [z] ++ (p ++ w :: b))) (hz : Says z)
    (hw : IsDocBreak w) : Legible (a ++ [z] ++ w :: b) := by
  have hne := h.isBody.ne_docClose
  have hread := h.reads []
  rw [List.append_assoc, List.append_assoc p, List.cons_append] at hread
  have hnew := hread.cut_end rfl (fun l hl => hne l (by simp [hl])) hz
      (fun l hl => hne l (by simp [hl])) hw
  rw [← List.cons_append, ← List.append_assoc] at hnew
  exact h.of_subset (List.subset_append_right _ _) hnew

/-- In front of the first part of a body, a line can be opened. -/
theorem Legible.open (h : Legible (fill ++ z :: b)) (hnewline : IsNewline newline) (hz : Says z)
    (hfill : ∀ l ∈ fill, Fills l) (hflat : '\n' ∉ letters fill) :
    ∃ ks, letters ks = newline.toList ++ (letters fill ++ ['*', ' ']) ∧ (∀ k ∈ ks, Fills k) ∧
      Legible (ks ++ z :: b) := by
  have hread := h.reads []
  rw [List.append_assoc, List.cons_append] at hread
  obtain ⟨ks, hks, hfills, hnew⟩ := hread.open hnewline hz hfill hflat
  rw [← List.cons_append, ← List.append_assoc] at hnew
  refine ⟨ks, hks, hfills, legible_of_reads ?_ ?_ hnew⟩
  · intro l hl
    rcases List.mem_append.mp hl with hl | hl
    · exact .inl (hfills l hl)
    · exact h.isBody l (List.mem_append_right _ hl)
  · rw [letters_append, hks, List.append_assoc]
    exact opensBody_append (by rcases hnewline with rfl | rfl <;> rfl) _

/-- Behind the last part of a body, the line can be broken. -/
theorem Legible.break_end (h : Legible (a ++ [z] ++ fill)) (hnewline : IsNewline newline)
    (hz : Says z) (hfill : ∀ l ∈ fill, Fills l) (hflat : '\n' ∉ letters fill) :
    ∃ ks, letters ks = letters fill ++ newline.toList ∧ (∀ k ∈ ks, Fills k) ∧
      Legible (a ++ [z] ++ ks) := by
  have hread := h.reads []
  rw [List.append_assoc] at hread
  obtain ⟨ks, hks, hfills, hnew⟩ :=
    hread.break_end rfl hnewline (fun l hl => h.isBody.ne_docClose l (by simp [hl])) hz
      hfill hflat rfl
  rw [← List.append_assoc] at hnew
  refine ⟨ks, hks, hfills, legible_of_reads ?_ ?_ hnew⟩
  · intro l hl
    rcases List.mem_append.mp hl with hl | hl
    · exact h.isBody l (List.mem_append_left _ hl)
    · exact .inl (hfills l hl)
  · have hopens := h.opens
    rw [letters_append] at hopens ⊢
    exact opensBody_congr (letters_concat_ne_nil (h.text_ne z (by simp))) hopens

/-! ### The lexemes of a body -/

/-- How a lexeme of a body is read. -/
theorem Legible.exists_docReads (h : Legible body) (hl : l ∈ body) :
    ∃ mode rest next, DocReads mode l rest next ∧ Lulls mode (l.text.toList ++ rest) := by
  obtain ⟨front, behind, rfl⟩ := List.append_of_mem hl
  have hne := h.isBody.ne_docClose
  have hread := h.reads []
  rw [List.append_assoc, List.cons_append] at hread
  obtain ⟨mode, hfront, hbehind⟩ := hread.of_append
  have hfrontNe : ∀ k ∈ front, k.kind ≠ .docClose := fun k hk => hne k (List.mem_append_left _ hk)
  have hlulls := hfront.lulls rfl hfrontNe nofun
  rw [letters_cons, List.append_assoc] at hlulls
  cases hbehind with
  | cons hl _ => exact ⟨mode, _, _, hl.docReads (hfront.inDoc rfl hfrontNe), hlulls⟩

/-- A part that says something stands on one line. -/
theorem Legible.flat (h : Legible body) (hl : l ∈ body) (hsaid : Says l) :
    '\n' ∉ l.text.toList := by
  have hlex := (h.readsAll []).lexFrom_append
  have hmem : l ∈ lexFrom .code (letters (enclosed body) ++ []) := by
    rw [hlex]
    exact List.mem_append_left _ (by simp [enclosed, hl])
  exact (spells_lexFrom _ _ l hmem).docLine hsaid

/-- What says nothing and has a line feed is a line break. -/
theorem Legible.isDocBreak (h : Legible body) (hl : l ∈ body) (hfills : Fills l)
    (hfeed : '\n' ∈ l.text.toList) : IsDocBreak l := by
  obtain ⟨mode, rest, next, hread, hlulls⟩ := h.exists_docReads hl
  rcases hread.fills_cases hfills hlulls with hbreak | ⟨htext, _⟩ | ⟨hblank, _⟩
  · exact hbreak
  · simp [htext] at hfeed
  · cases hblank _ hfeed

/-- The characters of what says nothing. -/
theorem Legible.layout (h : Legible body) (hl : l ∈ body) (hfills : Fills l) :
    ∀ c ∈ l.text.toList, isBlank c = true ∨ c = '\n' ∨ c = '*' := by
  obtain ⟨mode, rest, next, hread, hlulls⟩ := h.exists_docReads hl
  rcases hread.fills_cases hfills hlulls with ⟨_, htext | htext⟩ | ⟨htext, _⟩ | ⟨hblank, _⟩
  · simp [htext]
  · simp [htext, isBlank]
  · simp [htext]
  · exact fun c hc => .inl (hblank c hc)

/-- What is visible behind blanks stands on their line. -/
theorem mem_docLine_of_blank {u t : List Char} {c : Char} (hu : ∀ x ∈ u, isBlank x = true)
    (hfeed : c ≠ '\n') (hc : isBlank c = false) (hstar : c = '*' → t.head? ≠ some '/') :
    c ∈ docLine (u ++ c :: t) := by
  induction u with
  | nil =>
    rw [List.nil_append, docLine_cons, if_neg]
    · exact List.mem_cons_self
    · rintro (rfl | ⟨rfl, _⟩ | ⟨rfl, hhead⟩)
      · exact hfeed rfl
      · cases hc
      · exact hstar rfl hhead
  | cons d u ih =>
    obtain ⟨hd, hu⟩ := List.forall_mem_cons.mp hu
    rw [List.cons_append, docLine_cons, if_neg]
    · exact List.mem_cons_of_mem _ (ih hu)
    · rintro (rfl | ⟨rfl, hhead⟩ | ⟨rfl, _⟩)
      · cases hd
      · cases u with
        | nil => exact hfeed (by simpa using hhead)
        | cons e u =>
          obtain rfl : e = '\n' := by simpa using hhead
          have hbreak : isBlank '\n' = true := hu _ (List.mem_cons_of_mem _ List.mem_cons_self)
          cases hbreak
      · cases hd

/-- Behind text, the next part stands on another line. -/
theorem Legible.feed_of_text {mid : List Lexeme} (h : Legible (a ++ z :: (mid ++ w :: b)))
    (hz : z.kind = .docText) (hmid : ∀ l ∈ mid, Fills l) (hw : Says w) : '\n' ∈ letters mid := by
  by_contra hflat
  have hne := h.isBody.ne_docClose
  have hfeed := h.flat (l := w) (by simp) hw
  have hread := h.reads []
  rw [List.append_assoc, List.cons_append, List.append_assoc, List.cons_append] at hread
  obtain ⟨before, hfront, hread⟩ := hread.of_append
  have hbefore := hfront.inDoc rfl fun l hl => hne l (by simp [hl])
  cases hread with
  | cons hl hbehind =>
    cases hl.docReads hbefore with
    | close _ hkind => cases hz.symm.trans hkind
    | «break» _ hkind => cases hz.symm.trans hkind
    | blank hkind => cases hz.symm.trans hkind
    | tail hkind => cases hz.symm.trans hkind
    | star hkind => cases hz.symm.trans hkind
    | tag _ hkind => cases hz.symm.trans hkind
    | text _ _ _ _ _ _ hline =>
      have hlulls := isBlank_of_visibleLength hline
      rw [letters_append, List.append_assoc] at hlulls
      obtain ⟨between, hmiddle, hlast⟩ := hbehind.of_append
      obtain ⟨hblank, _⟩ := hmiddle.blank rfl (by simp) (fun _ => hlulls) hmid hflat
      cases hlast with
      | cons hl _ =>
        obtain ⟨c, t, htext, hc, hstar⟩ :=
          (hl.docReads (hmiddle.inDoc rfl fun l hl => (hmid l hl).ne_docClose)).visible hw
        rw [letters_cons, htext, List.cons_append, List.cons_append, List.append_assoc] at hlulls
        have hcfeed : c ≠ '\n' := by
          rintro rfl
          simp [htext] at hfeed
        rw [hlulls c (mem_docLine_of_blank hblank hcfeed hc hstar)] at hc
        cases hc

/-- A closed comment starts with a lexeme. -/
def StartsComment (l : Lexeme) (ls : List Lexeme) : Prop :=
  l.kind = .docOpen ∧ ∃ body behind, IsBody body ∧ ls = body ++ docCloser :: behind

/-- Bodies take the place of bodies of comments, and everything else is left alone. -/
inductive InComments (Body : List Lexeme → List Lexeme → Prop) : Patch
  | keep {n : Nat} (l : Lexeme) (ls : List Lexeme) (hl : ¬ StartsComment l ls) :
      InComments Body n [l] [l] ls
  | comment {n : Nat} {body body' : List Lexeme} (ls : List Lexeme) (hold : IsBody body)
      (hnew : Legible body')
      (hbody : Body body body') : InComments Body n (enclosed body) (enclosed body') ls

variable {Body : List Lexeme → List Lexeme → Prop}

/-- Comments with other bodies are read as before around these. -/
theorem InComments.rereads : (InComments Body).Rereads where
  agree hpatch _ _ h := by
    cases hpatch with
    | keep => exact h.append _
    | comment =>
      exact .bound [] ('*' :: '*' :: _) ('*' :: '*' :: _) (x := '/')
        (List.mem_cons_of_mem _ List.mem_cons_self)
  reads hpatch _ _ _ hold _ hrest := by
    cases hpatch with
    | keep => exact hold.of_agree hrest
    | comment _ hbody hnew =>
      obtain ⟨rfl, rfl, _⟩ := legible_of_readsAll hold hbody
      exact hnew.readsAll _

/-- A lexeme in front of comments that change stays. -/
theorem InComments.cons (l : Lexeme) (hl : ¬ StartsComment l ls)
    (h : Patched (InComments Body) (n + 1) ls ks) :
    Patched (InComments Body) n (l :: ls) (l :: ks) :=
  Patched.cons (InComments.keep l ls hl) h

/-- A comment is patched by another body, and the lexemes behind it as they are. -/
theorem InComments.comment_cons (hold : IsBody body) (hnew : Legible body')
    (hbody : Body body body') (h : Patched (InComments Body) (n + (enclosed body).length) ls ks) :
    Patched (InComments Body) n (enclosed body ++ ls) (enclosed body' ++ ks) :=
  Patched.cons (InComments.comment ls hold hnew hbody) h

/-- What is read up to a closing tag was read there before. -/
theorem exists_of_patched_body (h : Patched (InComments Body) n ls (body ++ docCloser :: ks))
    (hbody : IsBody body) : ∃ behind, ls = body ++ docCloser :: behind := by
  induction body generalizing n ls with
  | nil =>
    generalize hnew : [] ++ docCloser :: ks = new at h
    cases h with
    | nil => cases hnew
    | cons hpatch hrest =>
      cases hpatch with
      | keep l =>
        obtain ⟨rfl, rfl⟩ := List.cons_eq_cons.mp hnew
        exact ⟨_, rfl⟩
      | comment =>
        obtain ⟨hkind, _⟩ := List.cons_eq_cons.mp hnew
        cases hkind
  | cons l body ih =>
    obtain ⟨hl, hbody⟩ := List.forall_mem_cons.mp hbody
    generalize hnew : l :: body ++ docCloser :: ks = new at h
    cases h with
    | nil => cases hnew
    | cons hpatch hrest =>
      cases hpatch with
      | keep =>
        obtain ⟨rfl, rfl⟩ := List.cons_eq_cons.mp hnew
        obtain ⟨behind, rfl⟩ := ih hrest hbody
        exact ⟨behind, rfl⟩
      | comment =>
        obtain ⟨rfl, _⟩ := List.cons_eq_cons.mp hnew
        rcases hl with (hl | hl) | (hl | hl) <;> cases hl

/-- The bodies of the comments in a changed text are those that were put there. -/
theorem exists_of_patched {front : List Lexeme}
    (h : Patched (InComments Body) n ls (front ++ (enclosed body' ++ ks))) (hbody : IsBody body') :
    ∃ body, Body body body' := by
  generalize hnew : front ++ (enclosed body' ++ ks) = new at h
  induction h generalizing front with
  | nil => simp [enclosed] at hnew
  | @cons n old new ls ks' hpatch hrest ih =>
    cases hpatch with
    | keep l _ hl =>
      rcases front with _ | ⟨first, front⟩
      · rw [List.nil_append, enclosed, List.cons_append, List.append_assoc] at hnew
        obtain ⟨rfl, rfl⟩ := List.cons_eq_cons.mp hnew
        obtain ⟨behind, rfl⟩ := exists_of_patched_body hrest hbody
        exact absurd ⟨rfl, body', behind, hbody, rfl⟩ hl
      · obtain ⟨rfl, hbehind⟩ := List.cons_eq_cons.mp hnew
        exact ih hbehind
    | @comment _ old new _ hold hlegible hput =>
      rw [enclosed, enclosed, List.cons_append, List.cons_append, List.append_assoc,
        List.append_assoc] at hnew
      rcases front with _ | ⟨first, front⟩
      · obtain ⟨_, hbehind⟩ := List.cons_eq_cons.mp hnew
        obtain ⟨rfl, _⟩ :=
          split_unique hbody hlegible.isBody not_fills_or_says_docCloser not_fills_or_says_docCloser
            hbehind
        exact ⟨_, hput⟩
      · obtain ⟨_, hbehind⟩ := List.cons_eq_cons.mp hnew
        have hopener : ¬ (Fills docOpener ∨ Says docOpener) := by
          rintro ((h | h) | (h | h)) <;> cases h
        obtain ⟨front', hfront⟩ := exists_split_behind hlegible.isBody hopener (by decide) hbehind
        have hbefore : front' ++ (enclosed body' ++ ks) = ks' := by
          simpa [enclosed] using hfront.symm
        exact ih hbefore

end PhpStyle.Php
