import Mathlib.Data.List.Chain
import PhpStyle.Proofs.Edit.Splicing

/-!
# When edits can be applied, and what comes out

Edits can be applied to a source if the span of each lies in it, cuts no character, and does not
start before the one in front of it stops, in the order by spans that keeps the edits of one span as
they were given. Then every turn of the loop finds the span of its edit in the text that the turns
before it have left, and what comes out are the bytes that no edit covers, with the replacements
between them. As there is only one such order, edits of different spans can be given in any order.
-/

namespace PhpStyle.Splice

/-- The edits of one span. -/
def ofSpan (start stop : Nat) (edits : List TextEdit) : List TextEdit :=
  edits.filter fun e => e.start = start ∧ e.stop = stop

/-- Edits in the order of their spans, those of one span as they are given. -/
structure StablyOrders (ordered edits : List TextEdit) : Prop where
  perm : ordered.Perm edits
  sorted : ordered.Pairwise fun a b => a.start < b.start ∨ a.start = b.start ∧ a.stop ≤ b.stop
  stable : ∀ start stop, ofSpan start stop ordered = ofSpan start stop edits

/-- The span of an edit lies in a source, and both its ends are ends of characters. -/
structure Fits (source : String) (e : TextEdit) : Prop where
  start_le : e.start ≤ e.stop
  stop_le : e.stop ≤ source.utf8ByteSize
  start_valid : (⟨e.start⟩ : String.Pos.Raw).IsValid source
  stop_valid : (⟨e.stop⟩ : String.Pos.Raw).IsValid source

/-- The bytes of a source from `pos` on that no edit covers, with the replacements between them. -/
def interleave (source : ByteArray) (pos : Nat) : List TextEdit → ByteArray
  | [] => source.extract pos source.size
  | e :: rest => source.extract pos e.start ++ e.replacement.toUTF8 ++ interleave source e.stop rest

section Order

/-- Edits are in order by their starts, and by their ends where they start together. -/
theorem inOrder_iff {a b : TextEdit} :
    inOrder a b = true ↔ a.start < b.start ∨ a.start = b.start ∧ a.stop ≤ b.stop := by
  simp [inOrder]

/-- The order of edits is transitive. -/
theorem inOrder_trans (a b c : TextEdit) (hab : inOrder a b = true) (hbc : inOrder b c = true) :
    inOrder a c = true := by
  rw [inOrder_iff] at *
  omega

/-- Of two edits one comes first, or they have the same span. -/
theorem inOrder_total (a b : TextEdit) : (inOrder a b || inOrder b a) = true := by
  rw [Bool.or_eq_true, inOrder_iff, inOrder_iff]
  omega

/-- An edit is among those of its span if it is among all. -/
theorem mem_ofSpan {e : TextEdit} {edits : List TextEdit} :
    e ∈ ofSpan e.start e.stop edits ↔ e ∈ edits := by
  simp [ofSpan]

/-- Sorting keeps the edits of each span as they are. -/
theorem ofSpan_mergeSort (start stop : Nat) (edits : List TextEdit) :
    ofSpan start stop (edits.mergeSort inOrder) = ofSpan start stop edits := by
  have hsame : (ofSpan start stop edits).Pairwise fun a b => inOrder a b = true := by
    refine List.pairwise_of_forall_mem_list fun a ha b hb => ?_
    have ha := (List.mem_filter.mp ha).2
    have hb := (List.mem_filter.mp hb).2
    simp only [decide_eq_true_eq] at ha hb
    rw [inOrder_iff]
    omega
  have hsub : (ofSpan start stop edits).Sublist (edits.mergeSort inOrder) :=
    List.sublist_mergeSort inOrder_trans inOrder_total hsame List.filter_sublist
  have hwhole := hsub.filter fun e => e.start = start ∧ e.stop = stop
  have hlength := ((List.mergeSort_perm edits inOrder).filter fun e => e.start = start ∧
      e.stop = stop).length_eq
  rw [ofSpan, List.filter_filter] at hwhole
  simp only [Bool.and_self] at hwhole
  exact (hwhole.eq_of_length hlength.symm).symm

/-- Sorting edits orders them and keeps those of one span as they were. -/
theorem stablyOrders_mergeSort (edits : List TextEdit) :
    StablyOrders (edits.mergeSort inOrder) edits where
  perm := List.mergeSort_perm edits inOrder
  sorted := (List.pairwise_mergeSort inOrder_trans inOrder_total edits).imp fun h =>
    inOrder_iff.mp h
  stable start stop := ofSpan_mergeSort start stop edits

/-- Lists with the same edits of every span have the same edits. -/
theorem mem_iff_of_ofSpan {edits others : List TextEdit}
    (h : ∀ start stop, ofSpan start stop edits = ofSpan start stop others) (e : TextEdit) :
    e ∈ edits ↔ e ∈ others := by
  rw [← mem_ofSpan, h, mem_ofSpan]

/-- Sorted edits are told by the edits of each span. -/
theorem eq_of_ofSpan {edits others : List TextEdit}
    (hedits : edits.Pairwise fun a b => a.start < b.start ∨ a.start = b.start ∧ a.stop ≤ b.stop)
    (hothers : others.Pairwise fun a b => a.start < b.start ∨ a.start = b.start ∧ a.stop ≤ b.stop)
    (h : ∀ start stop, ofSpan start stop edits = ofSpan start stop others) : edits = others := by
  induction edits generalizing others with
  | nil =>
    refine (List.eq_nil_iff_forall_not_mem.mpr fun e he => ?_).symm
    exact List.not_mem_nil ((mem_iff_of_ofSpan h e).mpr he)
  | cons a edits ih =>
    cases others with
    | nil => exact absurd ((mem_iff_of_ofSpan h a).mp List.mem_cons_self) List.not_mem_nil
    | cons b others =>
      obtain ⟨hafter, hrest⟩ := List.pairwise_cons.mp hedits
      obtain ⟨hbefore, hrest'⟩ := List.pairwise_cons.mp hothers
      -- each head is no later than the other, so both have one span and head the edits of that span
      have hspan : b.start = a.start ∧ b.stop = a.stop := by
        rcases List.mem_cons.mp ((mem_iff_of_ofSpan h a).mp List.mem_cons_self) with rfl | ha
        · exact ⟨rfl, rfl⟩
        rcases List.mem_cons.mp ((mem_iff_of_ofSpan h b).mpr List.mem_cons_self) with rfl | hb
        · exact ⟨rfl, rfl⟩
        have := hbefore a ha
        have := hafter b hb
        omega
      have hheads := h a.start a.stop
      simp only [ofSpan, List.filter_cons, hspan, and_self, decide_true, if_true] at hheads
      obtain ⟨rfl, _⟩ := List.cons.inj hheads
      refine congrArg (a :: ·) (ih hrest hrest' fun start stop => ?_)
      have hall := h start stop
      simp only [ofSpan, List.filter_cons] at hall
      split at hall
      · exact (List.cons.inj hall).2
      · exact hall

/-- There is one stable order. -/
theorem stablyOrders_iff {ordered edits : List TextEdit} :
    StablyOrders ordered edits ↔ ordered = edits.mergeSort inOrder := by
  constructor
  · intro h
    have hsort := stablyOrders_mergeSort edits
    exact eq_of_ofSpan h.sorted hsort.sorted fun start stop => by rw [h.stable, hsort.stable]
  · rintro rfl
    exact stablyOrders_mergeSort edits

/-- Splicing does not see how edits of different spans are ordered. -/
theorem splice_congr (source : String) {edits others : List TextEdit}
    (h : ∀ start stop, ofSpan start stop others = ofSpan start stop edits) :
    splice source others = splice source edits := by
  have hsame : others.mergeSort inOrder = edits.mergeSort inOrder := by
    refine eq_of_ofSpan (stablyOrders_mergeSort others).sorted (stablyOrders_mergeSort edits).sorted
      fun start stop => ?_
    rw [ofSpan_mergeSort, ofSpan_mergeSort, h]
  rw [splice, splice, hsame]

/-- If no two edits have one span, every order of them has the same edits of each span. -/
theorem ofSpan_of_perm {edits others : List TextEdit} (hperm : others.Perm edits)
    (hdistinct : edits.Pairwise fun a b => (a.start, a.stop) ≠ (b.start, b.stop))
    (start stop : Nat) : ofSpan start stop others = ofSpan start stop edits := by
  have hnone {l : List TextEdit} (hl : l.Pairwise fun a b =>
      (a.start, a.stop) ≠ (b.start, b.stop)) : (ofSpan start stop l).Pairwise fun _ _ => False := by
    refine (hl.sublist List.filter_sublist).imp_of_mem fun {a b} ha hb hne => hne ?_
    have ha := (List.mem_filter.mp ha).2
    have hb := (List.mem_filter.mp hb).2
    simp only [decide_eq_true_eq] at ha hb
    rw [ha.1, ha.2, hb.1, hb.2]
  have hdistinct' := (hperm.pairwise_iff fun h => Ne.symm h).mpr hdistinct
  exact (hperm.filter _).eq_of_pairwise (fun _ _ _ _ h => h.elim) (hnone hdistinct')
    (hnone hdistinct)

end Order

section Application

variable {source : String} {edits : List TextEdit}

/-- A place in a text is a boundary exactly if the text can be cut there. -/
theorem isBoundary_iff {text : List Char} {n : Nat} :
    isBoundary text n = true ↔ ∃ front back, text = front ++ back ∧ byteLength front = n := by
  constructor
  · intro h
    fun_induction isBoundary text n with
    | case1 text => exact ⟨[], text, rfl, rfl⟩
    | case2 => cases h
    | case3 c cs n ih =>
      simp only [Bool.and_eq_true, decide_eq_true_eq] at h
      obtain ⟨hle, hrest⟩ := h
      obtain ⟨front, back, rfl, hfront⟩ := ih hrest
      refine ⟨c :: front, back, rfl, ?_⟩
      rw [byteLength, hfront]
      omega
  · rintro ⟨front, back, rfl, rfl⟩
    exact isBoundary_append front back

/-- A boundary behind a beginning of a text cuts the rest. -/
theorem exists_split {before text : List Char} {n : Nat} (hsource : source.toList = before ++ text)
    (hn : isBoundary source.toList n = true) (hle : byteLength before ≤ n) :
    ∃ front back, text = front ++ back ∧ byteLength front = n - byteLength before := by
  obtain ⟨front, back, hcut, rfl⟩ := isBoundary_iff.mp hn
  rw [hsource] at hcut
  rcases List.append_eq_append_iff.mp hcut with ⟨gap, rfl, rfl⟩ | ⟨surplus, rfl, rfl⟩
  · exact ⟨gap, back, rfl, by rw [byteLength_append]; omega⟩
  · rw [byteLength_append] at hle
    cases surplus with
    | nil => exact ⟨[], text, rfl, by simp [byteLength]⟩
    | cons c surplus =>
      have := c.utf8Size_pos
      rw [byteLength] at hle
      omega

/-- The two notions of a place between characters agree. -/
theorem isValid_iff_isBoundary {n : Nat} :
    (⟨n⟩ : String.Pos.Raw).IsValid source ↔ isBoundary source.toList n = true := by
  rw [isBoundary_iff, String.Pos.Raw.isValid_iff_exists_append]
  constructor
  · rintro ⟨front, back, rfl, hn⟩
    refine ⟨front.toList, back.toList, String.toList_append, ?_⟩
    rw [byteLength_toList]
    exact (congrArg String.Pos.Raw.byteIdx hn).symm
  · rintro ⟨front, back, hsource, rfl⟩
    refine ⟨String.ofList front, String.ofList back, ?_, ?_⟩
    · rw [← String.ofList_append, ← hsource, String.ofList_toList]
    · rw [← String.toList_ofList (l := front), byteLength_toList, String.ofList_toList]
      rfl

/-- Ordered edits pass every check if each of them fits and none starts before the one in front
stops. -/
theorem check_eq_ok_iff {last : Nat} :
    check source.toList source.utf8ByteSize last edits = .ok () ↔
      (∀ e ∈ edits, Fits source e) ∧ (∀ e ∈ edits.head?, last ≤ e.start) ∧
        edits.IsChain fun a b => a.stop ≤ b.start := by
  induction edits generalizing last with
  | nil => simp [check]
  | cons e rest ih =>
    have hfits : Fits source e ↔ ¬ (source.utf8ByteSize < e.stop ∨ e.stop < e.start) ∧
        isBoundary source.toList e.start = true ∧ isBoundary source.toList e.stop = true := by
      rw [← isValid_iff_isBoundary, ← isValid_iff_isBoundary]
      constructor
      · rintro ⟨hle, hbound, hstart, hstop⟩
        exact ⟨by omega, hstart, hstop⟩
      · rintro ⟨hbounds, hstart, hstop⟩
        exact ⟨by omega, by omega, hstart, hstop⟩
    simp only [List.forall_mem_cons, hfits, List.isChain_cons, List.head?_cons,
      Option.mem_some_iff, forall_eq']
    rw [check]
    split
    · rename_i hbounds
      simp [hbounds]
    split
    · rename_i hbounds hcuts
      simp [hcuts]
    split
    · rename_i hbounds hcuts hoverlap
      simp [Nat.not_le.mpr hoverlap]
    · rename_i hbounds hcuts hoverlap
      rw [ih]
      simp only [not_not] at hcuts
      simp [hbounds, hcuts, Nat.not_lt.mp hoverlap]

/-- Ordered edits that fit cut what is left of a source behind a place in front of all of them. -/
theorem exists_spliced {before text : List Char} (hsource : source.toList = before ++ text)
    (hfits : ∀ e ∈ edits, Fits source e) (hfirst : ∀ e ∈ edits.head?, byteLength before ≤ e.start)
    (hchain : edits.IsChain fun a b => a.stop ≤ b.start) :
    ∃ out, Spliced (byteLength before) text edits out := by
  induction edits generalizing before text with
  | nil => exact ⟨text, .done _ text⟩
  | cons e rest ih =>
    obtain ⟨hfit, hrest⟩ := List.forall_mem_cons.mp hfits
    obtain ⟨hnext, hchain⟩ := List.isChain_cons.mp hchain
    have hstart := hfirst e (by simp)
    obtain ⟨gap, behind, rfl, hgap⟩ :=
      exists_split hsource (isValid_iff_isBoundary.mp hfit.start_valid) hstart
    rw [← List.append_assoc] at hsource
    have hbefore : byteLength (before ++ gap) = e.start := by rw [byteLength_append, hgap]; omega
    obtain ⟨covered, rest', rfl, hcovered⟩ :=
      exists_split hsource (isValid_iff_isBoundary.mp hfit.stop_valid) (hbefore ▸ hfit.start_le)
    rw [← List.append_assoc] at hsource
    have hthrough : byteLength (before ++ gap ++ covered) = e.stop := by
      rw [byteLength_append, hcovered]
      have := hfit.start_le
      omega
    obtain ⟨out, hout⟩ := ih hsource hrest (by rwa [hthrough]) hchain
    rw [hthrough] at hout
    have := hfit.start_le
    exact ⟨_, .edit gap covered (by omega) (by omega) hout⟩

/-- The bytes of a text in UTF-8 are those of its characters. -/
theorem size_utf8Encode (text : List Char) : text.utf8Encode.size = byteLength text := by
  rw [← String.toByteArray_ofList, String.size_toByteArray, ← byteLength_toList,
    String.toList_ofList]

/-- What comes out of a source cut into gaps and covered stretches, in bytes. -/
theorem Spliced.utf8_eq {pos : Nat} {text out : List Char} (h : Spliced pos text edits out)
    (before : ByteArray) (hpos : before.size = pos) :
    out.utf8Encode = interleave (before ++ text.utf8Encode) pos edits := by
  induction h generalizing before with
  | done pos text =>
    rw [interleave, ByteArray.size_append, ByteArray.extract_append_eq_right hpos.symm rfl]
  | @edit gap covered pos rest out e edits hstart hstop _ ih =>
    have hgap : gap.utf8Encode.size = byteLength gap := size_utf8Encode gap
    have hcovered : covered.utf8Encode.size = byteLength covered := size_utf8Encode covered
    have hsplit : before ++ (gap ++ (covered ++ rest)).utf8Encode =
        before ++ gap.utf8Encode ++ covered.utf8Encode ++ rest.utf8Encode := by
      simp only [List.utf8Encode_append, ByteArray.append_assoc]
    have hfront : (before ++ (gap ++ (covered ++ rest)).utf8Encode).extract pos e.start =
        gap.utf8Encode := by
      rw [List.utf8Encode_append, hstart, ← hpos, ← hgap, ← Nat.add_zero before.size, Nat.add_assoc,
        ByteArray.extract_append_size_add, Nat.zero_add, ByteArray.extract_append_eq_left rfl]
    have hrest := ih (before ++ gap.utf8Encode ++ covered.utf8Encode) (by
      rw [ByteArray.size_append, ByteArray.size_append, hgap, hcovered, hpos]
      omega)
    rw [interleave, hfront, hsplit, ← hrest, List.utf8Encode_append, List.utf8Encode_append,
      ← String.toByteArray_ofList (l := e.replacement.toList), String.ofList_toList,
      ByteArray.append_assoc]
    rfl

/-- What comes out of a whole source. -/
theorem Spliced.toUTF8_eq {out : List Char} (h : Spliced 0 source.toList edits out) :
    (String.ofList out).toUTF8 = interleave source.toUTF8 0 edits := by
  have hsource : source.toList.utf8Encode = source.toUTF8 := by
    rw [← String.toByteArray_ofList, String.ofList_toList]
    rfl
  have hout := h.utf8_eq ByteArray.empty rfl
  rw [hsource, ByteArray.empty_append] at hout
  rw [← hout]
  exact String.toByteArray_ofList

/-- An edit whose start and stop are the ends of a piece of a text fits that text. -/
theorem fits_ofList {front covered behind : List Char} {e : TextEdit}
    (hstart : byteLength front = e.start) (hstop : e.stop = e.start + byteLength covered) :
    Fits (String.ofList (front ++ covered ++ behind)) e where
  start_le := by omega
  stop_le := by
    rw [← byteLength_toList, String.toList_ofList, byteLength_append, byteLength_append]
    omega
  start_valid := by
    rw [isValid_iff_isBoundary, String.toList_ofList, List.append_assoc, ← hstart]
    exact isBoundary_append front _
  stop_valid := by
    rw [isValid_iff_isBoundary, String.toList_ofList, hstop, ← hstart, ← byteLength_append]
    exact isBoundary_append _ behind

/-- Every turn of the loop finds the span of its edit in the text as the turns before it have left
it: they all replaced text behind that span. -/
theorem Spliced.fits_turn {out : List Char} (h : Spliced 0 source.toList edits out) {e : TextEdit}
    {behind : List TextEdit} (hsuffix : e :: behind <:+ edits) :
    Fits (String.ofList (applyBackward source.toList behind)) e := by
  obtain ⟨before, text, out', hsplit, hcut⟩ := h.exists_of_suffix [] rfl hsuffix
  rw [List.nil_append] at hsplit
  cases hcut with
  | @edit gap covered _ rest out _ _ hstart hstop hrest =>
    have hfront : byteLength (before ++ gap) = e.start := by
      rw [byteLength_append, hstart]
    have hback : byteLength (before ++ gap ++ covered) = e.stop := by
      rw [byteLength_append, hstop, hfront]
    have hloop := hrest.applyBackward_eq (before ++ gap ++ covered) hback
    have hsource : source.toList = before ++ gap ++ covered ++ rest := by
      rw [hsplit]
      simp only [List.append_assoc]
    rw [hsource, hloop]
    exact fits_ofList hfront hstop

/-- Edits have one stable order by their spans. They can be applied exactly if each fits the source
and none starts before the one in front of it stops, in this order. Then each edit still fits the
text that the edits behind it have left when its turn comes, and the bytes of the source that no
edit covers come out, with the replacements between them. Given in another order that keeps the
edits of each span in theirs, the edits come to the same, so those of different spans do in any
order. -/
theorem splice_interleaves (source : String) (edits : List TextEdit) :
    ∃ ordered, (∀ l, StablyOrders l edits ↔ l = ordered) ∧
      ((∃ text, splice source edits = .ok text) ↔
        (∀ e ∈ edits, Fits source e) ∧ ordered.IsChain fun a b => a.stop ≤ b.start) ∧
      (∀ text, splice source edits = .ok text →
        (∀ e behind, e :: behind <:+ ordered →
          Fits (String.ofList (applyBackward source.toList behind)) e) ∧
        text.toUTF8 = interleave source.toUTF8 0 ordered) ∧
      (∀ others, (∀ start stop, ofSpan start stop others = ofSpan start stop edits) →
        splice source others = splice source edits) ∧
      (edits.Pairwise (fun a b => (a.start, a.stop) ≠ (b.start, b.stop)) →
        ∀ others, others.Perm edits → splice source others = splice source edits) := by
  have hcheck : check source.toList source.utf8ByteSize 0 (edits.mergeSort inOrder) = .ok () ↔
      (∀ e ∈ edits, Fits source e) ∧
        (edits.mergeSort inOrder).IsChain fun a b => a.stop ≤ b.start := by
    rw [check_eq_ok_iff]
    simp only [List.mem_mergeSort, Nat.zero_le, implies_true, true_and]
  refine ⟨edits.mergeSort inOrder, fun l => stablyOrders_iff, ?_, ?_,
    fun others => splice_congr source,
    fun hdistinct others hperm => splice_congr source (ofSpan_of_perm hperm hdistinct)⟩
  · rw [← hcheck, splice]
    cases check source.toList source.utf8ByteSize 0 (edits.mergeSort inOrder) <;> simp
  · intro text htext
    unfold splice at htext
    dsimp only at htext
    split at htext
    · cases htext
    · rename_i hok
      cases htext
      obtain ⟨hfits, hchain⟩ := hcheck.mp hok
      have hfits' : ∀ e ∈ edits.mergeSort inOrder, Fits source e := by simpa using hfits
      have hwhole : source.toList = [] ++ source.toList := rfl
      obtain ⟨out, hout⟩ := exists_spliced hwhole hfits' (by simp [byteLength]) hchain
      rw [byteLength] at hout
      refine ⟨fun e behind hsuffix => hout.fits_turn hsuffix, ?_⟩
      have hloop : applyBackward source.toList (edits.mergeSort inOrder) = out :=
        hout.applyBackward_eq [] rfl
      rw [hloop]
      exact hout.toUTF8_eq

/-- An insertion in front of a replaced character, whichever of the two is given first. -/
theorem splice_interleaves_before_replacement :
    splice "aéb" [⟨1, 3, "z"⟩, ⟨1, 1, "x"⟩] = .ok "axzb" ∧
      splice "aéb" [⟨1, 1, "x"⟩, ⟨1, 3, "z"⟩] = .ok "axzb" := by
  have hsorted : splice "aéb" [⟨1, 1, "x"⟩, ⟨1, 3, "z"⟩] = .ok "axzb" :=
    splice_of_spliced (.edit ['a'] [] rfl rfl (.edit [] ['é'] rfl rfl (.done 3 ['b'])))
  obtain ⟨_, _, _, _, _, hperm⟩ := splice_interleaves "aéb" [⟨1, 1, "x"⟩, ⟨1, 3, "z"⟩]
  exact ⟨(hperm (by decide) [⟨1, 3, "z"⟩, ⟨1, 1, "x"⟩] (.swap _ _ _)).trans hsorted, hsorted⟩

end Application

end PhpStyle.Splice
