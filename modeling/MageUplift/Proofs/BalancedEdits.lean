import MageUplift.Proofs.SplicedBatches

/-!
# Edits keep brackets balanced

The head of a call that is replaced is balanced, or it opens the parenthesis of an argument list. In the
first case its code is balanced too. In the second case the code may open more than that one parenthesis,
but what else it opens is closed by the further edit of the call. So a balanced stretch of the file that cuts
no head becomes a balanced stretch of the converted stream (`balanced_pieces`). The injector adds only code
that is balanced in itself.
-/

namespace MageUplift

open Php TokenStream Call Wiring Magento List Option Edit

variable {ks ls : List Kind} {a b o d left close p i : Nat} {e : Edit Token} {k : Kind} {inserts : List (Edit Token)}

/-! ## §1. Words of brackets. -/

theorem Php.Balanced.insert {ms : List Kind} (h : Balanced (ks ++ ls)) (hm : Balanced ms) :
    Balanced (ks ++ ms ++ ls) := by
  unfold Balanced at h ⊢
  rw [expected_append] at h
  rw [append_assoc, expected_append]
  cases hk : Php.expectedAfter [] ks with
  | none =>
    rw [hk] at h
    cases h
  | some expected =>
    rw [hk] at h
    rw [bind_some] at h ⊢
    rw [expected_append, hm.expectedAfter, bind_some]
    exact h

theorem Php.Balanced.of_append (h : Balanced (ks ++ ls)) (hk : Balanced ks) : Balanced ls := by
  unfold Balanced at h hk ⊢
  rw [expected_append, hk, bind_some] at h
  exact h

theorem balanced_marks_iff (ks : List Kind) : Balanced (ks.flatMap Kind.marks) ↔ Balanced ks := by
  have key : ∀ expected, expectedAfter expected (ks.flatMap Kind.marks) = expectedAfter expected ks := by
    induction ks with
    | nil => exact fun _ => rfl
    | cons k ks ih =>
      intro expected
      rw [flatMap_cons, expected_append]
      by_cases hk : k.isPlain
      · rw [Kind.marks_of_isPlain hk, expected_plain hk]
        exact ih expected
      · rw [Kind.marks, if_neg hk, show k :: ks = [k] ++ ks from rfl, expected_append]
        cases expectedAfter expected [k] with
        | none => rfl
        | some after => exact ih after
  unfold Php.Balanced
  rw [key]

theorem marksOf_append (a b : List Token) : marksOf (a ++ b) = marksOf a ++ marksOf b := flatMap_append

theorem marksOf_eq (tokens : List Token) : marksOf tokens = (tokens.map Token.kind).flatMap Kind.marks := by
  rw [marksOf, flatMap_map]

/-! ## §2. The pieces of the converted stream. -/

section

variable {table : AliasTable} {s : TokenStream} {i : Nat} {k : Kind} {inv : Invocation}

def marksAt (table : AliasTable) (s : TokenStream) (i : Nat) : List Kind :=
  marksOf (pieceAt (callEdits table s) (s.get? i) i)

def marksIn (table : AliasTable) (s : TokenStream) (a b : Nat) : List Kind :=
  (List.range' a (b - a)).flatMap (marksAt table s)

theorem marksIn_self (a : Nat) : marksIn table s a a = [] := by
  simp [marksIn]

theorem marksIn_append {c : Nat} (hab : a ≤ b) (hbc : b ≤ c) :
    marksIn table s a c = marksIn table s a b ++ marksIn table s b c := by
  unfold marksIn
  rw [← flatMap_append, show c - a = (b - a) + (c - b) by omega, ← range'_append_1,
    show a + (b - a) = b by omega]

theorem marksIn_cons (h : a < b) : marksIn table s a b = marksAt table s a ++ marksIn table s (a + 1) b := by
  rw [marksIn_append a.le_succ h]
  simp [marksIn]

theorem marksIn_eq_nil (h : ∀ i, a ≤ i → i < b → marksAt table s i = []) : marksIn table s a b = [] := by
  unfold marksIn
  rw [flatMap_eq_nil_iff]
  intro i hi
  rw [mem_range'_1] at hi
  exact h i hi.1 (by omega)

theorem callEdits_kind (he : e ∈ callEdits table s) : ∃ k, s.kind? e.span.start = some k ∧ k ∈ editedKinds := by
  obtain ⟨inv, hinv, c, hc, rfl⟩ := mem_callEdits he
  have hcall := isCall_mem hinv
  exact hcall.anatomy.edited_kind hcall.isMage hc

theorem generatedAt_size (table : AliasTable) (s : TokenStream) : generatedAt (callEdits table s) s.size = [] := by
  refine generatedAt_ne fun e he hstart => ?_
  obtain ⟨k, hk, -⟩ := callEdits_kind he
  have := lt_kind? hk
  omega

theorem marksOf_convertedStream (table : AliasTable) (s : TokenStream) :
    marksOf (convertedStream table s).tokens.toList = marksIn table s 0 s.size := by
  have hend : marksAt table s s.size = [] := by
    have hnone : s.get? s.size = none := Array.getElem?_eq_none le_rfl
    simp [marksAt, pieceAt, hnone, generatedAt_size, marksOf]
  have hsplit : marksIn table s 0 (s.size + 1) = marksIn table s 0 s.size := by
    rw [marksIn_append (Nat.zero_le s.size) (Nat.le_succ s.size), marksIn_cons (Nat.lt_succ_self s.size), hend,
      marksIn_self, append_nil, append_nil]
  rw [← hsplit]
  show marksOf (weave s.tokens.toList (callEdits table s)) = _
  rw [weave_eq_flatMap, Array.length_toList, marksOf, flatMap_assoc, marksIn, Nat.sub_zero, ← range_eq_range']
  simp only [Array.getElem?_toList]
  rfl

theorem marksAt_untouched (hk : s.kind? i = some k)
    (hgen : generatedAt (callEdits table s) i = []) (hcov : covers (callEdits table s) i = false) :
    marksAt table s i = k.marks := by
  obtain ⟨t, ht, rfl⟩ := map_eq_some_iff.mp hk
  unfold marksAt
  rw [ht, pieceAt, hgen, hcov]
  simp [marksOf]

/-! ## §3. Places that cut no head. -/

/-- No head of a converted call reaches over the place in front of `p`. -/
def CutsNoHead (table : AliasTable) (s : TokenStream) (p : Nat) : Prop :=
  ∀ inv ∈ scan table s, p ≤ inv.span.start ∨ inv.headEnd ≤ p

/-- The token at `p` is in no head of a converted call. -/
def OutsideHeads (table : AliasTable) (s : TokenStream) (p : Nat) : Prop :=
  ∀ inv ∈ scan table s, p < inv.span.start ∨ inv.headEnd ≤ p

theorem OutsideHeads.cuts (h : OutsideHeads table s p) : CutsNoHead table s p ∧ CutsNoHead table s (p + 1) := by
  constructor <;> intro inv hinv <;> have := h inv hinv <;> omega

theorem outsideHeads_comma {p : Nat} (hk : s.kind? p = some .comma) : OutsideHeads table s p := by
  intro inv hinv
  have hcall := isCall_mem hinv
  exact hcall.anatomy.comma_outside hcall.isMage hk

theorem CutsNoHead.outside (h : CutsNoHead table s p) (hstart : ∀ inv ∈ scan table s, inv.span.start ≠ p) :
    OutsideHeads table s p := by
  intro inv hinv
  have := h inv hinv
  have := hstart inv hinv
  omega

theorem heads_apart {a b : Invocation} (ha : a ∈ scan table s) (hb : b ∈ scan table s) :
    a = b ∨ a.headEnd ≤ b.span.start ∨ b.headEnd ≤ a.span.start := by
  have hordered := (scan_callsInOrder table s).ordered
  generalize scan table s = calls at ha hb hordered
  induction hordered with
  | nil => cases ha
  | cons hfst _ ih =>
    rcases mem_cons.mp ha with rfl | ha
    · rcases mem_cons.mp hb with rfl | hb
      · exact .inl rfl
      · exact .inr (.inl (hfst b hb))
    · rcases mem_cons.mp hb with rfl | hb
      · exact .inr (.inr (hfst a ‹_›))
      · exact ih ‹_› hb

theorem head_lt (h : inv ∈ scan table s) : inv.span.start < inv.headEnd :=
  (isCall_mem h).anatomy.start_lt_headEnd

theorem cutsNoHead_headEnd (h : inv ∈ scan table s) : CutsNoHead table s inv.headEnd := by
  intro b hb
  rcases heads_apart h hb with rfl | hab | hba
  · exact .inr le_rfl
  · exact .inl hab
  · have := head_lt h
    right
    omega

theorem opens_in_head (h : inv ∈ scan table s) (hd : s.matchingClose? o = some d)
    (hle : inv.span.start ≤ d) (hlt : d < inv.headEnd) : inv.span.start < o ∧ o < inv.headEnd := by
  have hcall := isCall_mem h
  obtain ⟨k, hopen, hk⟩ := opener_close hd
  obtain ⟨opener, -, hcloser⟩ := bind_eq_some_iff.mp hopen
  have hclose := Kind.isCloser_closer? hcloser
  have hne : inv.span.start ≠ d := by
    rintro rfl
    obtain ⟨t, ht, hmage⟩ := hcall.isMage
    rw [kind?_get? ht, some.injEq] at hk
    rcases isMage_kind hmage with hname | hname <;> rw [← hk, hname] at hclose <;> cases hclose
  -- the only closing bracket of a head is a parenthesis
  have hparen : k = .rightParen := by
    have hkinds : ∀ k ∈ headPaths.flatten, k.isCloser → k = .rightParen := by decide
    rcases hcall.anatomy.head_kind (by omega) hlt hk with htriv | hmem
    · rw [(Kind.isPlain_iff.mp (Kind.isPlain_trivia htriv)).2] at hclose
      cases hclose
    · exact hkinds k hmem hclose
  obtain ⟨o', ho', hlt', hclose'⟩ :=
    hcall.anatomy.open_of_close hcall.start_lt_size (show inv.span.start < d by omega) hlt (hparen ▸ hk)
  obtain rfl := close_injective hd hclose'
  exact ⟨ho', by omega⟩

theorem cutsNoHead_close (hd : s.matchingClose? o = some d)
    (ho : ∀ inv ∈ scan table s, inv.span.start < o → o < inv.headEnd → inv.headEnd ≤ d) : OutsideHeads table s d := by
  intro inv hinv
  by_contra hin
  obtain ⟨hlt, hend⟩ := opens_in_head hinv hd (by omega) (by omega)
  have := ho inv hinv hlt hend
  omega

/-! ## §4. What becomes of each token. -/

theorem edit_outside (hout : OutsideHeads table s i) (he : e ∈ callEdits table s)
    (hle : e.span.start ≤ i) (hi : e.span.start = i ∨ i < e.span.stop) :
    ∃ inv ∈ scan table s, ∃ c, inv.tail = some c ∧ e = c.toEdit
      ∧ ((c.span = ⟨i, i + 1⟩ ∧ s.kind? i = some .comma)
        ∨ ∃ left, c.span = .empty i ∧ inv.headEnd = left + 1 ∧ s.matchingClose? left = some i) := by
  obtain ⟨inv, hinv, c, hc, rfl⟩ := mem_callEdits he
  have hcall := isCall_mem hinv
  have hlt := head_lt hinv
  change c.span.start ≤ i at hle
  change c.span.start = i ∨ i < c.span.stop at hi
  rcases Invocation.mem_codeEdits.mp hc with rfl | hc
  · change inv.span.start ≤ i at hle
    change inv.span.start = i ∨ i < inv.headEnd at hi
    have := hout inv hinv
    omega
  · refine ⟨inv, hinv, c, hc, rfl, ?_⟩
    obtain ⟨left, close, commas, hheadEnd, -, hclose, htop, -, hspan | ⟨comma, hcomma, hspan⟩⟩ :=
      hcall.anatomy.tail_cases hc
    · rw [hspan] at hle hi ⊢
      change close ≤ i at hle
      change close = i ∨ i < close at hi
      obtain rfl : close = i := by omega
      exact .inr ⟨left, rfl, hheadEnd, hclose⟩
    · rw [hspan] at hle hi ⊢
      change comma ≤ i at hle
      change comma = i ∨ i < comma + 1 at hi
      obtain rfl : comma = i := by omega
      exact .inl ⟨rfl, (topCommas?_spec htop hcomma).2.2⟩

theorem not_edited (hk : s.kind? i = some k) (hout : OutsideHeads table s i) (hcomma : k ≠ .comma)
    (hclose : ∀ inv ∈ scan table s, ∀ left, inv.headEnd = left + 1 → s.matchingClose? left ≠ some i) :
    generatedAt (callEdits table s) i = [] ∧ covers (callEdits table s) i = false := by
  refine unedited fun e he hle hi => ?_
  obtain ⟨inv, hinv, c, -, -, ⟨-, hkind⟩ | ⟨left, -, hheadEnd, hmatch⟩⟩ := edit_outside hout he hle hi
  · rw [hk, some.injEq] at hkind
    exact hcomma hkind
  · exact hclose inv hinv left hheadEnd hmatch

theorem isCloser_of_close (h : s.matchingClose? o = some d) (hk : s.kind? d = some k) : k.isCloser := by
  obtain ⟨c, hopen, hc⟩ := opener_close h
  obtain ⟨opener, -, hcloser⟩ := bind_eq_some_iff.mp hopen
  rw [hk, some.injEq] at hc
  exact hc ▸ Kind.isCloser_closer? hcloser

theorem not_edited_outside (hk : s.kind? i = some k) (hout : OutsideHeads table s i)
    (hcomma : k ≠ .comma) (hcloser : k.isCloser = false) :
    generatedAt (callEdits table s) i = [] ∧ covers (callEdits table s) i = false := by
  refine not_edited hk hout hcomma fun inv _ left _ hclose => ?_
  rw [isCloser_of_close hclose hk] at hcloser
  cases hcloser

theorem untouched (hk : s.kind? i = some k) (hout : OutsideHeads table s i) (hcomma : k ≠ .comma)
    (hclose : ∀ inv ∈ scan table s, ∀ left, inv.headEnd = left + 1 → s.matchingClose? left ≠ some i) :
    marksAt table s i = k.marks := by
  obtain ⟨hgen, hcov⟩ := not_edited hk hout hcomma hclose
  exact marksAt_untouched hk hgen hcov

theorem marksAt_opener {c : Kind} (hk : s.kind? i = some k) (hc : k.closer? = some c)
    (hout : OutsideHeads table s i) : marksAt table s i = [k] := by
  have hmarks : k.marks = [k] := by
    rw [Kind.marks, if_neg]
    intro hplain
    rw [(Kind.isPlain_iff.mp hplain).1] at hc
    cases hc
  rw [← hmarks]
  refine untouched hk hout (fun h => ?_) fun inv _ left _ hmatch => ?_
  · rw [h] at hc
    cases hc
  · rw [Kind.closer?_of_isCloser (isCloser_of_close hmatch hk)] at hc
    cases hc

theorem marksAt_close (hd : s.matchingClose? o = some d) (hk : s.kind? d = some k)
    (hout : OutsideHeads table s o) : OutsideHeads table s d ∧ marksAt table s d = [k] := by
  have hclose := isCloser_of_close hd hk
  have houtside : OutsideHeads table s d := cutsNoHead_close hd fun inv hinv hlt hend => by
    have := hout inv hinv
    omega
  have hmarks : k.marks = [k] := by
    rw [Kind.marks, if_neg]
    intro hplain
    rw [(Kind.isPlain_iff.mp hplain).2] at hclose
    cases hclose
  refine ⟨houtside, hmarks ▸ untouched hk houtside (fun h => ?_) fun inv hinv left hheadEnd hmatch => ?_⟩
  · rw [h] at hclose
    cases hclose
  · -- the parenthesis of an argument list is in a head
    obtain rfl := close_injective hd hmatch
    have := hout inv hinv
    have := head_lt hinv
    omega

theorem marksAt_plain (htab : table.WellFormed) (hk : s.kind? i = some k) (hplain : k.isPlain)
    (hout : OutsideHeads table s i) : marksAt table s i = [] := by
  have hopen : ∀ left, s.matchingClose? left ≠ some i := by
    intro left hmatch
    have hclose := isCloser_of_close hmatch hk
    rw [(Kind.isPlain_iff.mp hplain).2] at hclose
    cases hclose
  by_cases hedit : ∃ e ∈ callEdits table s, e.span.start = i
  · -- the comma of a call, whose code brings no bracket
    obtain ⟨e, he, rfl⟩ := hedit
    obtain ⟨inv, hinv, c, hc, rfl, ⟨hspan, -⟩ | ⟨left, -, -, hmatch⟩⟩ :=
      edit_outside hout he le_rfl (.inl rfl)
    · obtain ⟨ks, ls, hcode⟩ := matchAt?_code htab (isCall_mem hinv)
      obtain ⟨hinert, -, hnone⟩ := hcode.further c hc
      have hstop : c.span.stop = c.span.start + 1 := congrArg Span.stop hspan
      have hcov : covers (callEdits table s) c.span.start :=
        covers_iff.mpr ⟨c.toEdit, he, show c.span.start ≤ c.span.start ∧ c.span.start < c.span.stop by omega⟩
      have hgen : generatedAt (callEdits table s) c.span.start = lexFragment c.code :=
        generatedAt_mem (callEdits_distinct table s) he
      show marksAt table s c.span.start = []
      rw [marksAt, pieceAt, hgen, hcov, if_pos rfl, append_nil, (lexFragment_inert hinert).2]
      exact hnone (by omega)
    · exact absurd hmatch (hopen left)
  · have hgen := generatedAt_ne fun e he hstart => hedit ⟨e, he, hstart⟩
    have hcov : covers (callEdits table s) i = false := by
      refine covers_eq_false_iff.mpr fun e he hle => Nat.not_lt.mp fun hlt => ?_
      obtain ⟨inv, hinv, c, hc, rfl, ⟨hspan, -⟩ | ⟨left, -, -, hmatch⟩⟩ := edit_outside hout he hle (.inr hlt)
      · exact hedit ⟨_, he, congrArg Span.start hspan⟩
      · exact hopen left hmatch
    rw [marksAt_untouched hk hgen hcov, Kind.marks_of_isPlain hplain]

section

variable (h : inv ∈ scan table s)

include h

theorem mem_callEdits_of_mem {c : CodeEdit} (hc : c ∈ inv.codeEdits) :
    c.toEdit ∈ callEdits table s := mem_flatMap.mpr ⟨inv, h, List.mem_map.mpr ⟨c, hc, rfl⟩⟩

theorem headEdit_mem : (⟨⟨inv.span.start, inv.headEnd⟩, inv.modern⟩ : CodeEdit).toEdit ∈ callEdits table s :=
  mem_callEdits_of_mem h mem_cons_self

theorem covers_head (hle : inv.span.start ≤ i) (hi : i < inv.headEnd) : covers (callEdits table s) i :=
  covers_iff.mpr ⟨_, headEdit_mem h, hle, hi⟩

theorem generatedAt_head : generatedAt (callEdits table s) inv.span.start = lexFragment inv.modern :=
  generatedAt_mem (callEdits_distinct table s) (headEdit_mem h)

theorem pieceAt_in_head (hlt : inv.span.start < i) (hi : i < inv.headEnd) (item? : Option Token) :
    pieceAt (callEdits table s) item? i = [] := by
  rw [pieceAt, covers_head h hlt.le hi, if_pos rfl, append_nil]
  exact (callEdits_fit table s).generatedAt_inside (headEdit_mem h) hlt hi

theorem marksIn_head (hcode : CallCode inv ks ls) : marksIn table s inv.span.start inv.headEnd = ks := by
  have hlt := head_lt h
  have hfst : marksAt table s inv.span.start = ks := by
    rw [marksAt, pieceAt, generatedAt_head h, covers_head h le_rfl hlt, if_pos rfl, append_nil]
    exact (lexFragment_inert hcode.modern).2
  have hrest : marksIn table s (inv.span.start + 1) inv.headEnd = [] := by
    refine marksIn_eq_nil fun i hle hi => ?_
    rw [marksAt, pieceAt_in_head h hle hi]
    rfl
  rw [marksIn_cons hlt, hfst, hrest, append_nil]

end

theorem eq_of_headEnd {a b : Invocation} (ha : a ∈ scan table s) (hb : b ∈ scan table s) (h : a.headEnd = b.headEnd) :
    a = b := by
  have := head_lt ha
  have := head_lt hb
  rcases heads_apart ha hb with heq | hab | hba
  · exact heq
  · omega
  · omega

section

variable (h : inv ∈ scan table s) (hheadEnd : inv.headEnd = left + 1) (hclose : s.matchingClose? left = some close)

include h hheadEnd hclose

theorem outsideHeads_callClose : OutsideHeads table s close := by
  have hlt := lt_close hclose
  refine cutsNoHead_close hclose fun b hb hstart hend => ?_
  have := head_lt h
  rcases heads_apart h hb with rfl | hab | hba
  · omega
  · omega
  · omega

theorem edit_at_callClose (hk : s.kind? close = some .rightParen) : OutsideHeads table s close
      ∧ ∀ e ∈ callEdits table s, e.span.start ≤ close → e.span.start = close ∨ close < e.span.stop →
        ∃ c, inv.tail = some c ∧ e = c.toEdit ∧ c.span = .empty close := by
  have hout := outsideHeads_callClose h hheadEnd hclose
  refine ⟨hout, fun e he hle hi => ?_⟩
  obtain ⟨b, hb, c, hc, rfl, ⟨-, hcomma⟩ | ⟨left', hspan, hheadEnd', hclose'⟩⟩ := edit_outside hout he hle hi
  · rw [hk] at hcomma
    cases hcomma
  · obtain rfl := close_injective hclose hclose'
    obtain rfl := eq_of_headEnd h hb (by omega)
    exact ⟨c, hc, rfl, hspan⟩

theorem not_covered_callClose (hk : s.kind? close = some .rightParen) : covers (callEdits table s) close = false := by
  refine covers_eq_false_iff.mpr fun e he hle => Nat.not_lt.mp fun hlt => ?_
  obtain ⟨c, -, rfl, hspan⟩ := (edit_at_callClose h hheadEnd hclose hk).2 e he hle (.inr hlt)
  have hstop : c.span.stop = close := congrArg Span.stop hspan
  have : close < c.span.stop := hlt
  omega

end

theorem marksAt_callClose (h : inv ∈ scan table s) (hcode : CallCode inv ks ls)
    (hheadEnd : inv.headEnd = left + 1) (hclose : s.matchingClose? left = some close)
    (hk : s.kind? close = some .rightParen) :
    OutsideHeads table s close ∧ marksAt table s close = ls ++ [.rightParen] := by
  obtain ⟨hout, hedit⟩ := edit_at_callClose h hheadEnd hclose hk
  have hcov := not_covered_callClose h hheadEnd hclose hk
  have hgen : marksOf (generatedAt (callEdits table s) close) = ls := by
    by_cases hwrites : ∃ e ∈ callEdits table s, e.span.start = close
    · obtain ⟨e, he, hstart⟩ := hwrites
      obtain ⟨c, hc, rfl, -⟩ := hedit e he (Nat.le_of_eq hstart) (.inl hstart)
      rw [← hstart, generatedAt_mem (callEdits_distinct table s) he]
      exact (lexFragment_inert (hcode.further c hc).1).2
    · rw [generatedAt_ne fun e he hstart => hwrites ⟨e, he, hstart⟩]
      show [] = ls
      cases htail : inv.tail with
      | none => exact (hcode.noFurther htail).symm
      | some c =>
        obtain ⟨left', close', _, hheadEnd', -, hclose', -, -, hspan | ⟨comma, -, hspan⟩⟩ :=
          (isCall_mem h).anatomy.tail_cases htail
        · obtain rfl : left' = left := by omega
          rw [hclose, some.injEq] at hclose'
          have hmem := Invocation.mem_codeEdits.mpr (.inr htail)
          exact absurd ⟨c.toEdit, mem_callEdits_of_mem h hmem, hclose' ▸ congrArg Span.start hspan⟩ hwrites
        · refine ((hcode.further c htail).2.2 ?_).symm
          rw [hspan]
          exact comma.lt_succ_self
  refine ⟨hout, ?_⟩
  obtain ⟨t, ht, hkind⟩ := map_eq_some_iff.mp hk
  rw [marksAt, pieceAt, hcov, marksOf_append, hgen, ht]
  simp [marksOf, hkind]
  rfl

/-! ## §5. Balanced stretches. -/

theorem expected_head (h : inv ∈ scan table s) {path : List Kind} {last : Nat}
    (hfollows : s.Follows inv.span.start path last) :
    expectedAfter [] (s.kindsIn inv.span.start (last + 1)) = expectedAfter [] path := by
  obtain ⟨t, ht, hmage⟩ := (isCall_mem h).isMage
  have hle := hfollows.le
  have hplain : t.kind.isPlain := by rcases isMage_kind hmage with hk | hk <;> rw [hk] <;> rfl
  rw [kindsIn_cons (kind?_get? ht) (by omega), expected_plain hplain, ← expected_significant,
    hfollows.significant]

theorem balanced_span (hinv : inv ∈ scan table s) : Balanced (s.kindsIn inv.span.start inv.span.stop) := by
  unfold Php.Balanced
  cases (isCall_mem hinv).anatomy with
  | @closed path last mem follows headEnd stop =>
    have hpaths : ∀ path ∈ closedPaths, Balanced path := by decide
    rw [stop, expected_head hinv follows]
    exact hpaths path mem
  | @opened left close commas follows closes top headEnd stop =>
    obtain ⟨hlc, -⟩ := lt_close closes
    obtain ⟨k, hopen, -, hkclose, hmid⟩ := close_iff.mp closes
    rw [kind_of_openPath follows] at hopen
    cases hopen
    have hle := follows.le
    rw [stop, kindsIn_append s (show inv.span.start ≤ left + 1 by omega) (show left + 1 ≤ close + 1 by omega),
      expected_append, expected_head hinv follows]
    show expectedAfter [.rightParen] (s.kindsIn (left + 1) (close + 1)) = some []
    rw [kindsIn_append s hlc close.le_succ, expected_append,
      hmid.expectedAfter, bind_some, kindsIn_cons hkclose close.lt_succ_self,
      expected_closer rfl, if_pos rfl, kindsIn_self]
    rfl

theorem balanced_behind_span (h : inv ∈ scan table s) (hstop : inv.span.stop ≤ b)
    (hbal : Balanced (s.kindsIn inv.span.start b)) : Balanced (s.kindsIn inv.span.stop b) := by
  have hle := (isCall_mem h).anatomy.headEnd_le_stop
  have hlt := head_lt h
  rw [kindsIn_append s (show inv.span.start ≤ inv.span.stop by omega) hstop] at hbal
  exact hbal.of_append (balanced_span h)

/-- Balanced stretches between `a` and `b` stay balanced. -/
def KeepsBalance (table : AliasTable) (s : TokenStream) (a b : Nat) : Prop :=
  ∀ i j, a ≤ i → i ≤ j → j ≤ b → CutsNoHead table s i → CutsNoHead table s j → Balanced (s.kindsIn i j) →
    Balanced (marksIn table s i j)

theorem balanced_call (htab : table.WellFormed) {inv : Invocation} (h : inv ∈ scan table s)
    (hb : b ≤ s.size) (hlt : inv.span.start < b) (hcut : CutsNoHead table s b)
    (hbal : Balanced (s.kindsIn inv.span.start b)) (hrest : KeepsBalance table s (inv.span.start + 1) b) :
    Balanced (marksIn table s inv.span.start b) := by
  have hcall := isCall_mem h
  obtain ⟨ks, ls, hcode⟩ := matchAt?_code htab hcall
  have hhead := head_lt h
  have hheadEnd : inv.headEnd ≤ b := by
    have := hcut inv h
    omega
  rw [marksIn_append hhead.le hheadEnd, marksIn_head h hcode]
  cases hcall.anatomy with
  | @closed path last mem follows headEnd stop =>
    have hks : Balanced ks := by
      rcases hcode.closes with ⟨-, hks⟩ | ⟨hopen, -⟩
      · exact hks
      · omega
    have hstop : inv.span.stop = inv.headEnd := by omega
    have hbehind := balanced_behind_span h (by omega) hbal
    rw [hstop] at hbehind
    exact hks.append (hrest _ _ hhead hheadEnd le_rfl (cutsNoHead_headEnd h) hcut hbehind)
  | @opened left close commas follows closes _ headEnd stop =>
    obtain ⟨hlc, -⟩ := lt_close closes
    obtain ⟨k, hopen, -, hkclose, hmid⟩ := close_iff.mp closes
    obtain ⟨d, hd, hdb⟩ := exists_closer hb hbal follows.le (show left < b by omega) hopen
    rw [closes, some.injEq] at hd
    subst hd
    rw [kind_of_openPath follows] at hopen
    cases hopen
    have hbehind := balanced_behind_span h (by omega) hbal
    rw [stop] at hbehind
    obtain ⟨hout, hmarks⟩ := marksAt_callClose h hcode headEnd closes hkclose
    have hargs : Balanced (marksIn table s inv.headEnd close) := by
      refine hrest _ _ hhead (by omega) (by omega) (cutsNoHead_headEnd h) hout.cuts.1 ?_
      rw [headEnd]
      exact hmid
    have hcloses : Balanced (ks ++ (ls ++ [.rightParen])) := by
      rcases hcode.closes with ⟨heq, -⟩ | ⟨-, hcloses⟩
      · omega
      · rwa [append_assoc] at hcloses
    have hafter := hrest _ _ (show inv.span.start + 1 ≤ close + 1 by omega) hdb le_rfl hout.cuts.2 hcut hbehind
    rw [marksIn_append (show inv.headEnd ≤ close by omega) hdb.le, marksIn_cons hdb, hmarks]
    have hall := (hcloses.insert hargs).append hafter
    simpa only [append_assoc] using hall

theorem balanced_token (htab : table.WellFormed) (hb : b ≤ s.size) (hlt : a < b)
    (hout : OutsideHeads table s a) (hcut : CutsNoHead table s b) (hbal : Balanced (s.kindsIn a b))
    (hrest : KeepsBalance table s (a + 1) b) : Balanced (marksIn table s a b) := by
  obtain ⟨k, hk⟩ : ∃ k, s.kind? a = some k := ⟨_, kind?_eq_getElem (hlt.trans_le hb)⟩
  rw [marksIn_cons hlt]
  rcases Kind.bracket_or_plain k with ⟨c, hc⟩ | ⟨-, hclose⟩ | hplain
  · -- the bracket is closed in the stretch, and what is between is kept balanced
    obtain ⟨d, hd, hdb⟩ := exists_closer hb hbal le_rfl hlt (by rw [hk]; exact hc)
    obtain ⟨had, -⟩ := lt_close hd
    obtain ⟨c', hc', -, hkd, hmid⟩ := close_iff.mp hd
    rw [hk, bind_some, hc, some.injEq] at hc'
    subst hc'
    obtain ⟨houtD, hmarks⟩ := marksAt_close hd hkd hout
    have hbehind := (balanced_behind hd hdb).2 hbal
    have hinner := hrest _ _ le_rfl had hdb.le hout.cuts.2 houtD.cuts.1 hmid
    have hafter := hrest _ _ (show a + 1 ≤ d + 1 by omega) hdb le_rfl houtD.cuts.2 hcut hbehind
    rw [marksAt_opener hk hc hout, marksIn_append had hdb.le, marksIn_cons hdb, hmarks]
    have hall := (hinner.wrap hc).append hafter
    simpa using hall
  · unfold Php.Balanced at hbal
    rw [kindsIn_cons hk hlt, expected_closer_nil hclose] at hbal
    cases hbal
  · rw [marksAt_plain htab hk hplain hout, nil_append]
    unfold Php.Balanced at hbal
    rw [kindsIn_cons hk hlt, expected_plain hplain] at hbal
    exact hrest (a + 1) b le_rfl hlt le_rfl hout.cuts.2 hcut hbal

/-- **Converting calls keeps balanced stretches balanced**, when they cut no head. -/
theorem balanced_pieces (htab : table.WellFormed) (hb : b ≤ s.size) :
    ∀ n a, b ≤ a + n → KeepsBalance table s a b := by
  intro n
  induction n with
  | zero =>
    intro a hn i j hi hij hj _ _ _
    obtain rfl : i = j := by omega
    rw [marksIn_self]
    exact balanced_nil
  | succ n ih =>
    intro a hn i j hi hij hj hcutI hcutJ hbal
    by_cases hend : i = j
    · subst hend
      rw [marksIn_self]
      exact balanced_nil
    · have hlt : i < j := by omega
      have hrest : KeepsBalance table s (i + 1) j := fun i' j' hi' hij' hj' =>
        ih (i + 1) (by omega) i' j' hi' hij' (by omega)
      by_cases hstart : ∃ inv ∈ scan table s, inv.span.start = i
      · obtain ⟨inv, hinv, rfl⟩ := hstart
        exact balanced_call htab hinv (by omega) hlt hcutJ hbal hrest
      · have hout : OutsideHeads table s i := hcutI.outside fun inv hinv heq => hstart ⟨inv, hinv, heq⟩
        exact balanced_token htab (by omega) hlt hout hcutJ hbal hrest

theorem convertedStream_balanced (htab : table.WellFormed) (hbal : s.isBalanced) :
    Balanced (marksOf (convertedStream table s).tokens.toList) := by
  have hkinds : Balanced (s.kindsIn 0 s.size) := by
    rw [isBalanced_iff] at hbal
    rwa [kindsIn_all]
  rw [marksOf_convertedStream]
  refine balanced_pieces htab le_rfl s.size 0 (by omega) 0 s.size (Nat.le_refl 0) (Nat.zero_le _)
    le_rfl (fun inv _ => .inl (Nat.zero_le _)) (fun inv hinv => .inr ?_) hkinds
  have hcall := isCall_mem hinv
  exact hcall.anatomy.headEnd_le_stop.trans (hcall.anatomy.stop_le_size hcall.start_lt_size)

end

/-! ## §6. Insertions. -/

theorem balanced_flatMap {α : Type} {l : List α} {f : α → List Kind} (h : ∀ x ∈ l, Balanced (f x)) :
    Balanced (l.flatMap f) := by
  induction l with
  | nil => exact balanced_nil
  | cons x l ih =>
    rw [flatMap_cons]
    exact (h x mem_cons_self).append (ih (forall_mem_cons.mp h).2)

theorem expected_stretch
    (h : ∀ p, Balanced (marksOf (generatedAt inserts p))) (items : List Token) : ∀ (off : Nat) (expected : List Kind),
      expectedAfter expected (marksOf (stretch inserts off items)) = expectedAfter expected (marksOf items) := by
  induction items with
  | nil => exact fun _ _ => rfl
  | cons t items ih =>
    intro off expected
    have hcons : ∀ rest, marksOf (t :: rest) = t.kind.marks ++ marksOf rest := fun _ => rfl
    rw [stretch, marksOf_append, expected_append, (h off).expectedAfter, bind_some, hcons, hcons,
      expected_append, expected_append]
    congr 1
    funext after
    exact ih (off + 1) after

theorem editedTokens_balanced {m : Migrator} {s : TokenStream} {r : Requirements}
    (htab : m.table.WellFormed) (hind : IsIndentText m.indent.toList) (hbal : s.isBalanced)
    (hcoll : m.collect (scan m.table s) = .ok r)
    (hinj : inject (convertedStream m.table s) m.indent r = .ok inserts) :
    Balanced (marksOf (editedTokens m.table s inserts)) := by
  have hcode := inject_code hind (collect_plain (scan_plain htab) hcoll) hinj
  have hreplacement : ∀ e ∈ inserts, Balanced (marksOf e.replacement) := by
    intro e he
    obtain ⟨p, code, rfl, hins⟩ := hcode e he
    obtain ⟨ks, hinert, hks⟩ := hins.inert
    show Balanced (marksOf (lexFragment code))
    rw [(lexFragment_inert hinert).2]
    exact hks
  have hgen : ∀ p, Balanced (marksOf (generatedAt inserts p)) := by
    intro p
    rw [generatedAt, marksOf_append, marksOf, marksOf, flatMap_assoc, flatMap_assoc]
    exact (balanced_flatMap fun e he => hreplacement e (mem_filter.mp he).1).append
      (balanced_flatMap fun e he => hreplacement e (mem_filter.mp he).1)
  rw [editedTokens, weave, weaveFrom_insertions (inject_insertions hinj), marksOf_append]
  refine Balanced.append ?_ (hgen _)
  unfold Php.Balanced
  rw [expected_stretch hgen]
  exact convertedStream_balanced htab hbal

end MageUplift
