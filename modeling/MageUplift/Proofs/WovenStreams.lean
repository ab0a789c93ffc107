import MageUplift.Proofs.CarriedTokens
import MageUplift.Proofs.InjectedCode

/-!
# A stream and what a batch of edits makes of it

The weave of a batch consists of the items that no edit covers, each behind what the batch puts in front of it.
Here both are given their places: a kept item stands at `placeOf`, and new items stand from `offsetOf` on. What
is next to a token of the edited stream is then found in the stream before the edits, or in what the batch puts
there (`next_weave`).
-/

namespace MageUplift.Edit

open Php List Option

variable {α : Type} {i j : Nat}

/-! ## §1. Places in a weave. -/

/-- Where the item at `i` stands in the weave, unless an edit covers it. -/
def placeOf (items : List α) (edits : List (Edit α)) (i : Nat) : Nat :=
  offsetOf items edits i + (generatedAt edits i).length

/-- The item at `i` is kept, and stands at `j` in the weave. -/
structure KeptAt (items : List α) (edits : List (Edit α)) (i j : Nat) : Prop where
  lt : i < items.length
  kept : covers edits i = false
  place : j = placeOf items edits i

variable {items : List α} {edits : List (Edit α)}

theorem offset_le_place (i : Nat) : offsetOf items edits i ≤ placeOf items edits i := Nat.le_add_right _ _

theorem place_le_offset (i : Nat) : placeOf items edits i ≤ offsetOf items edits (i + 1) := by
  rw [offsetOf_succ, pieceAt, length_append, placeOf]
  omega

theorem KeptAt.offsetOf_succ (h : KeptAt items edits i j) : offsetOf items edits (i + 1) = j + 1 := by
  rw [Edit.offsetOf_succ, pieceAt, length_append, h.place, placeOf, h.kept, if_neg Bool.false_ne_true,
    getElem?_eq_getElem h.lt]
  rfl

theorem offsetOf_mono (h : i ≤ j) : offsetOf items edits i ≤ offsetOf items edits j := by
  induction h with
  | refl => exact le_rfl
  | step _ ih => exact ih.trans ((offset_le_place _).trans (place_le_offset _))

theorem placeOf_le_offsetOf (h : i < j) : placeOf items edits i ≤ offsetOf items edits j :=
  (place_le_offset i).trans (offsetOf_mono h)

theorem KeptAt.lt_offsetOf {k : Nat} (h : KeptAt items edits i j) (hik : i < k) : j < offsetOf items edits k := by
  rw [← Nat.succ_le_iff, Nat.succ_eq_add_one, ← h.offsetOf_succ]
  exact offsetOf_mono hik

theorem KeptAt.lt_iff {i' j' : Nat} (h : KeptAt items edits i j) (h' : KeptAt items edits i' j') : i < i' ↔ j < j' := by
  have key : ∀ {a b a' b' : Nat}, KeptAt items edits a b → KeptAt items edits a' b' → a < a' → b < b' := by
    intro a b a' b' h h' hlt
    rw [h'.place]
    exact (h.lt_offsetOf hlt).trans_le (offset_le_place a')
  constructor
  · exact key h h'
  · intro hlt
    rcases Nat.lt_trichotomy i i' with hi | rfl | hi
    · exact hi
    · have := h.place
      have := h'.place
      omega
    · have := key h' h hi
      omega

theorem length_weave (items : List α) (edits : List (Edit α)) :
    (weave items edits).length = offsetOf items edits (items.length + 1) := by
  rw [weave_eq_flatMap, offsetOf]

theorem weave_eq_append {i : Nat} (hi : i ≤ items.length) :
    ∃ before behind, weave items edits = before ++ (pieceAt edits items[i]? i ++ behind)
      ∧ before.length = offsetOf items edits i := by
  refine ⟨(List.range i).flatMap fun j => pieceAt edits items[j]? j,
    (List.range' (i + 1) (items.length - i)).flatMap fun j => pieceAt edits items[j]? j, ?_, rfl⟩
  have hrange : List.range (items.length + 1) = List.range i ++ i :: List.range' (i + 1) (items.length - i) := by
    rw [range_eq_range', range_eq_range', ← range'_succ,
      show items.length + 1 = i + (items.length - i + 1) by omega, ← range'_append_1, Nat.zero_add]
  rw [weave_eq_flatMap, hrange, flatMap_append, flatMap_cons]

theorem KeptAt.getElem? (h : KeptAt items edits i j) : (weave items edits)[j]? = items[i]? := by
  obtain ⟨before, behind, hweave, hlen⟩ := @weave_eq_append _ _ edits _ h.lt.le
  have hi := h.lt
  have hitem : items[i]? = some items[i] := getElem?_eq_getElem hi
  rw [hweave, h.place, placeOf, ← hlen, getElem?_append_right (by omega), pieceAt, h.kept,
    if_neg Bool.false_ne_true, hitem, show before.length + (generatedAt edits i).length - before.length
      = (generatedAt edits i).length by omega]
  simp

theorem getElem?_weave_new {q : Nat} (hi : i ≤ items.length) (hq : q < (generatedAt edits i).length) :
    (weave items edits)[offsetOf items edits i + q]? = (generatedAt edits i)[q]? := by
  obtain ⟨before, behind, hweave, hlen⟩ := @weave_eq_append _ _ edits _ hi
  rw [hweave, ← hlen, getElem?_append_right (by omega), Nat.add_sub_cancel_left, pieceAt, append_assoc,
    getElem?_append_left hq]

theorem exists_place (hj : j < (weave items edits).length) : (∃ i, KeptAt items edits i j)
      ∨ ∃ i q, i ≤ items.length ∧ q < (generatedAt edits i).length ∧ j = offsetOf items edits i + q := by
  have key : ∀ n, n ≤ items.length + 1 → j < offsetOf items edits n →
      (∃ i, KeptAt items edits i j)
        ∨ ∃ i q, i ≤ items.length ∧ q < (generatedAt edits i).length ∧ j = offsetOf items edits i + q := by
    intro n
    induction n with
    | zero =>
      intro _ h
      simp [offsetOf] at h
    | succ n ih =>
      intro hn hlt
      by_cases hbef : j < offsetOf items edits n
      · exact ih (by omega) hbef
      · rw [Edit.offsetOf_succ, pieceAt, length_append] at hlt
        by_cases hnew : j < placeOf items edits n
        · right
          unfold placeOf at hnew
          exact ⟨n, j - offsetOf items edits n, by omega, by omega, by omega⟩
        · -- the item itself
          unfold placeOf at hnew
          have hkept : covers edits n = false := by
            rw [← Bool.not_eq_true]
            intro hcov
            rw [if_pos hcov, length_nil] at hlt
            omega
          have hitem : n < items.length := by
            by_contra hge
            rw [hkept, if_neg Bool.false_ne_true, getElem?_eq_none (by omega)] at hlt
            simp only [toList_none, length_nil] at hlt
            omega
          rw [hkept, if_neg Bool.false_ne_true, getElem?_eq_getElem hitem] at hlt
          simp only [toList_some, length_singleton] at hlt
          exact .inl ⟨n, hitem, hkept, by unfold placeOf; omega⟩
  exact key _ le_rfl (length_weave items edits ▸ hj)

theorem new_lt_offsetOf {i q k : Nat} (hq : q < (generatedAt edits i).length) (hik : i < k) :
    offsetOf items edits i + q < offsetOf items edits k :=
  (Nat.add_lt_add_left hq _).trans_le (placeOf_le_offsetOf hik)

theorem not_keptAt_new {q : Nat} (hq : q < (generatedAt edits i).length) (m : Nat) :
    ¬ KeptAt items edits m (offsetOf items edits i + q) := by
  intro h
  have hplace := h.place
  rcases Nat.lt_trichotomy m i with hlt | rfl | hlt
  · have := h.lt_offsetOf hlt
    omega
  · unfold placeOf at hplace
    omega
  · have h₁ := @new_lt_offsetOf _ items edits i q m hq hlt
    have h₂ := @offset_le_place _ items edits m
    omega

/-! ## §2. The edited stream carries the kept tokens. -/

/-- Where a batch takes tokens away it writes something significant. -/
def LeavesCode (edits : List (Edit Token)) : Prop :=
  ∀ e ∈ edits, e.span.start < e.span.stop → ∃ t ∈ generatedAt edits e.span.start, t.isTrivia = false

theorem exists_start_of_covers {m : Nat} (hi : covers edits i = false) (him : i < m) (hm : covers edits m) :
    ∃ e ∈ edits, i < e.span.start ∧ e.span.start ≤ m ∧ m < e.span.stop := by
  obtain ⟨e, he, hspan⟩ := covers_iff.mp hm
  refine ⟨e, he, Decidable.byContradiction fun hle => ?_, hspan⟩
  have := covers_eq_false_iff.mp hi e he (by omega)
  omega

end MageUplift.Edit

namespace MageUplift.Php.TokenStream

open Edit List Option

variable {s v : TokenStream} {edits : List (Edit Token)} {t : Token} {i j p q n a b : Nat}

theorem get?_ofTokens (tokens : List Token) (i : Nat) : (ofTokens tokens).get? i = tokens[i]? := by
  simp [get?, ofTokens]

theorem tokens_getElem? (s : TokenStream) (i : Nat) : s.tokens.toList[i]? = s.get? i := by
  rw [Array.getElem?_toList]
  rfl

theorem size_ofTokens (tokens : List Token) : (ofTokens tokens).size = tokens.length := by
  simp [size, ofTokens]

def woven (v : TokenStream) (edits : List (Edit Token)) : TokenStream := .ofTokens (weave v.tokens.toList edits)

def Kept (v : TokenStream) (edits : List (Edit Token)) (i j : Nat) : Prop := KeptAt v.tokens.toList edits i j

def offsetIn (v : TokenStream) (edits : List (Edit Token)) (i : Nat) : Nat := offsetOf v.tokens.toList edits i

theorem Kept.get? (h : v.Kept edits i j) : (v.woven edits).get? j = v.get? i := by
  rw [woven, get?_ofTokens, KeptAt.getElem? h, tokens_getElem?]

theorem Kept.lt_size (h : v.Kept edits i j) : i < v.size := by
  have := KeptAt.lt h
  rwa [Array.length_toList] at this

theorem get?_woven_new {q : Nat} (hi : i ≤ v.size) (hq : q < (generatedAt edits i).length) :
    (v.woven edits).get? (v.offsetIn edits i + q) = (generatedAt edits i)[q]? := by
  rw [woven, get?_ofTokens, offsetIn, getElem?_weave_new (by rwa [Array.length_toList]) hq]

theorem exists_place_woven (h : (v.woven edits).get? j = some t) :
    (∃ i, v.Kept edits i j) ∨ ∃ i q, i ≤ v.size ∧ (generatedAt edits i)[q]? = some t ∧ j = v.offsetIn edits i + q := by
  have hj : j < (weave v.tokens.toList edits).length := by
    have := lt_get? h
    rwa [woven, size_ofTokens] at this
  rcases exists_place hj with hkept | ⟨i, q, hi, hq, hplace⟩
  · exact .inl hkept
  · rw [Array.length_toList] at hi
    have hnew := get?_woven_new (v := v) hi hq
    change j = v.offsetIn edits i + q at hplace
    rw [← hplace, h] at hnew
    exact .inr ⟨i, q, hi, hnew.symm, hplace⟩

theorem weave_carries (hcode : LeavesCode edits) : Carries v (v.woven edits) (v.Kept edits) where
  same := fun {i j} h => by
    obtain ⟨t, ht⟩ := get?_of_lt h.lt_size
    exact ⟨t, ht, h.get?.trans ht⟩
  order := fun h h' => KeptAt.lt_iff h h'
  solid := fun {i j i' j' m t} h h' him hmi ht hsig hlost => by
    have hm : m < v.size := lt_get? ht
    have hcov : covers edits m := by
      rw [← Bool.not_eq_false]
      intro hkept
      exact hlost _ ⟨by rwa [Array.length_toList], hkept, rfl⟩
    -- the edit starts behind `i`, and what it writes stands in between
    obtain ⟨e, he, hstart, hle, hstop⟩ := exists_start_of_covers h.kept him hcov
    obtain ⟨u, hu, husig⟩ := hcode e he (by omega)
    obtain ⟨q, hq, hqu⟩ := getElem_of_mem hu
    have hnew := get?_woven_new (v := v) (show e.span.start ≤ v.size by omega) hq
    refine ⟨v.offsetIn edits e.span.start + q, u, ?_, ?_, ?_, husig⟩
    · exact (KeptAt.lt_offsetOf h hstart).trans_le (Nat.le_add_right _ _)
    · rw [KeptAt.place h']
      exact (new_lt_offsetOf hq (by omega)).trans_le (offset_le_place i')
    · rw [hnew, getElem?_eq_getElem hq, hqu]

/-! ## §3. What follows a place of the edited stream. -/

def firstCode (tokens : List Token) : Option Token := tokens.find? (!·.isTrivia)

theorem firstCode_drop {tokens : List Token} (hqn : q ≤ n) (ht : tokens[n]? = some t)
    (hsig : t.isTrivia = false) (hbef : ∀ m u, q ≤ m → m < n → tokens[m]? = some u → u.isTrivia) :
    firstCode (tokens.drop q) = some t := by
  induction hd : n - q generalizing q with
  | zero =>
    obtain rfl : q = n := by omega
    have hq := lt_getElem? ht
    have htoken : tokens[q] = t := by simpa [hq] using ht
    rw [drop_eq_getElem_cons hq, firstCode, htoken, find?_cons_of_pos (by simp [hsig])]
  | succ d ih =>
    have hq : q < tokens.length := by
      have := lt_getElem? ht
      omega
    have htriv := hbef q tokens[q] le_rfl (by omega) (getElem?_eq_getElem hq)
    rw [drop_eq_getElem_cons hq, firstCode, find?_cons_of_neg (by simp [htriv])]
    exact ih (by omega) (fun m u hm => hbef m u (by omega)) (by omega)

/-- What the next significant token of an edited stream can be, seen from the place `q` places behind the offset of
position `p`: a new one that stands in front of some token from `p` on, or a kept one, with only trivia passed on
the way. -/
inductive NextCode (v : TokenStream) (edits : List (Edit Token)) (p q n : Nat) : Prop where
  | new {p' : Nat} {t : Token} (here : (v.woven edits).get? n = some t) (notKept : ∀ m, ¬ v.Kept edits m n)
      (le : p ≤ p') (size : p' ≤ v.size)
      (first : firstCode ((generatedAt edits p').drop (if p' = p then q else 0)) = some t)
      (passed : ∀ m, p ≤ m → m < p' → ∃ u, v.get? m = some u ∧ u.isTrivia = true)
  | kept {m : Nat} (here : v.Kept edits m n) (le : p ≤ m)
      (passed : ∀ m', p ≤ m' → m' < m → ∃ u, v.get? m' = some u ∧ u.isTrivia = true)

/-- **The next significant token of an edited stream.** `hfree` says that what is covered from `p` on is covered by
edits that write something significant at or behind the place. -/
theorem next_weave (hfree : ∀ m, p ≤ m → covers edits m →
      ∃ s, p ≤ s ∧ s ≤ m ∧ (s = p → q = 0) ∧ ∃ t ∈ generatedAt edits s, t.isTrivia = false)
    (hq : q ≤ (generatedAt edits p).length)
    (h : (v.woven edits).nextSignificant? (v.offsetIn edits p + q) = some n) : NextCode v edits p q n := by
  obtain ⟨hle, ⟨t, ht, hsig⟩, hbef⟩ := next_spec h
  have hreach : ∀ {m : Nat}, p < m → v.offsetIn edits p + q ≤ v.offsetIn edits m := fun hpm =>
    (Nat.add_le_add_left hq _).trans (placeOf_le_offsetOf hpm)
  -- a token that was passed is trivia, wherever the next significant one stands
  have hpassed : ∀ p', (∀ s, s < p' → offsetOf v.tokens.toList edits (s + 1) ≤ n) → p' ≤ v.size →
      ∀ m, p ≤ m → m < p' → ∃ u, v.get? m = some u ∧ u.isTrivia := by
    intro p' hoff hp' m hpm hmp
    obtain ⟨u, hu⟩ := get?_of_lt (hmp.trans_le hp')
    refine ⟨u, hu, ?_⟩
    cases hcov : covers edits m with
    | false =>
      have hkept : v.Kept edits m (placeOf v.tokens.toList edits m) :=
        ⟨by rw [Array.length_toList]; exact lt_get? hu, hcov, rfl⟩
      have h₁ := KeptAt.offsetOf_succ hkept
      have h₂ := hoff m hmp
      have h₃ : v.offsetIn edits p + q ≤ placeOf v.tokens.toList edits m := by
        rcases Nat.eq_or_lt_of_le hpm with rfl | hlt
        · exact Nat.add_le_add_left hq _
        · exact (hreach hlt).trans (offset_le_place m)
      obtain ⟨u', hu', htriv⟩ := hbef _ h₃ (by omega)
      rw [hkept.get?, hu] at hu'
      cases hu'
      exact htriv
    | true =>
      -- the edit that covers it has written something significant on the way
      obtain ⟨s, hps, hsm, hsq, w, hw, hwsig⟩ := hfree m hpm hcov
      obtain ⟨r, hr, hrw⟩ := getElem_of_mem hw
      have hnew := get?_woven_new (v := v) (show s ≤ v.size by omega) hr
      have h₁ := @new_lt_offsetOf _ v.tokens.toList _ _ _ (s + 1) hr s.lt_succ_self
      have h₂ := hoff s (by omega)
      have h₃ : v.offsetIn edits p + q ≤ v.offsetIn edits s + r := by
        by_cases hsp : s = p
        · have := hsq hsp
          subst hsp
          omega
        · exact (hreach (by omega)).trans (Nat.le_add_right _ _)
      obtain ⟨w', hw', htriv⟩ := hbef (v.offsetIn edits s + r) h₃ (by unfold offsetIn; omega)
      rw [hnew, getElem?_eq_getElem hr, hrw] at hw'
      cases hw'
      rw [hwsig] at htriv
      cases htriv
  rcases exists_place_woven ht with ⟨m, hkept⟩ | ⟨p', q', hp', hq', rfl⟩
  · have hpm : p ≤ m := by
      by_contra hlt
      have := KeptAt.lt_offsetOf hkept (Nat.lt_of_not_le hlt)
      unfold offsetIn at hle
      omega
    refine .kept hkept hpm (hpassed m (fun s hs => ?_) hkept.lt_size.le)
    rw [KeptAt.place hkept]
    exact (offsetOf_mono hs).trans (offset_le_place m)
  · have hlen := lt_getElem? hq'
    have hpp : p ≤ p' := by
      by_contra hlt
      have := @new_lt_offsetOf _ v.tokens.toList _ _ _ _ hlen (Nat.lt_of_not_le hlt)
      unfold offsetIn at hle
      omega
    have htriv : ∀ m u, v.offsetIn edits p + q ≤ v.offsetIn edits p' + m → m < q' →
        (generatedAt edits p')[m]? = some u → u.isTrivia := by
      intro m u hm hmq hu
      obtain ⟨u', hu', htriv⟩ := hbef (v.offsetIn edits p' + m) hm (by omega)
      rw [get?_woven_new hp' (lt_getElem? hu), hu] at hu'
      cases hu'
      exact htriv
    refine .new ht (not_keptAt_new hlen) hpp hp' ?_ (hpassed p' (fun s hs => ?_) hp')
    · by_cases heq : p' = p
      · subst heq
        rw [if_pos rfl]
        exact firstCode_drop (by omega) hq' hsig fun m u hm => htriv m u (by omega)
      · rw [if_neg heq]
        refine firstCode_drop (Nat.zero_le _) hq' hsig fun m u _ => htriv m u ?_
        exact (hreach (by omega)).trans (Nat.le_add_right _ _)
    · exact (offsetOf_mono hs).trans (Nat.le_add_right _ _)

theorem Kept.next (hcode : LeavesCode edits) {i j : Nat} (h : v.Kept edits i j)
    (hnext : (v.woven edits).nextSignificant? (j + 1) = some n) : NextCode v edits (i + 1) 0 n := by
  have hplace : j + 1 = v.offsetIn edits (i + 1) + 0 := (KeptAt.offsetOf_succ h).symm
  rw [hplace] at hnext
  refine next_weave (fun m him hm => ?_) (Nat.zero_le _) hnext
  obtain ⟨e, he, hstart, hle, hstop⟩ := exists_start_of_covers h.kept him hm
  exact ⟨e.span.start, hstart, hle, fun _ => rfl, hcode e he (by omega)⟩

/-! ## §4. What stands before a place of the edited stream. -/

theorem prev_eq_some (hji : j < i) (hi : i ≤ s.size) (ht : s.get? j = some t) (hsig : t.isTrivia = false)
    (hbtw : ∀ m u, j < m → m < i → s.get? m = some u → u.isTrivia) : s.prevSignificant? i = some j := by
  have key : ∀ n, j < n → n ≤ i → s.findBefore? (!·.isTrivia) n = some j := by
    intro n
    induction n with
    | zero => intro h; omega
    | succ n ih =>
      intro hjn hni
      rw [findBefore?]
      by_cases hn : n = j
      · subst hn
        rw [if_pos (by simp [ht, hsig])]
      · obtain ⟨u, hu⟩ := get?_of_lt (s := s) (show n < s.size by omega)
        rw [if_neg (by simp [hu, hbtw n u (by omega) (by omega) hu])]
        exact ih (by omega) (by omega)
  rw [prevSignificant?, Nat.min_eq_left hi]
  exact key i hji le_rfl

def IsCode (s : TokenStream) (i : Nat) : Prop := ∃ t, s.get? i = some t ∧ t.isTrivia = false

theorem isCode_of_kind? {k : Kind} (hk : s.kind? i = some k) (hsig : k.isTrivia = false) : s.IsCode i := by
  obtain ⟨t, ht, rfl⟩ := map_eq_some_iff.mp hk
  exact ⟨t, ht, hsig⟩

theorem isCode_brackets (h : s.matchingClose? i = some j) : s.IsCode i ∧ s.IsCode j := by
  obtain ⟨k, hk, hj⟩ := opener_close h
  obtain ⟨opener, hi, hopen⟩ := bind_eq_some_iff.mp hk
  constructor
  · refine isCode_of_kind? hi (Bool.eq_false_iff.mpr fun htriv => ?_)
    rw [(Kind.isPlain_iff.mp (Kind.isPlain_trivia htriv)).1] at hopen
    cases hopen
  · refine isCode_of_kind? hj (Bool.eq_false_iff.mpr fun htriv => ?_)
    have := (Kind.isPlain_iff.mp (Kind.isPlain_trivia htriv)).2
    rw [Kind.isCloser_closer? hopen] at this
    cases this

theorem isCode_of_close (h : s.matchingClose? i = some j) : s.IsCode j := (isCode_brackets h).2

def TriviaIn (s : TokenStream) (a b : Nat) : Prop := ∀ m, a ≤ m → m < b → ∃ t, s.get? m = some t ∧ t.isTrivia = true

theorem TriviaIn.isTrivia {m : Nat} (h : s.TriviaIn a b) (ham : a ≤ m) (hmb : m < b)
    (ht : s.get? m = some t) : t.isTrivia := by
  obtain ⟨u, hu, htriv⟩ := h m ham hmb
  rw [ht] at hu
  cases hu
  exact htriv

theorem next_of_triviaIn (hab : a ≤ b) (h : s.TriviaIn a b)
    (ht : s.get? b = some t) (hsig : t.isTrivia = false) : s.nextSignificant? a = some b :=
  next_eq_some hab ht hsig h

theorem prev_of_triviaIn (hab : a < b) (hb : b ≤ s.size)
    (h : s.TriviaIn (a + 1) b) (ht : s.get? a = some t) (hsig : t.isTrivia = false) : s.prevSignificant? b = some a :=
  prev_eq_some hab hb ht hsig fun _ _ ham hmb hu => h.isTrivia ham hmb hu

theorem triviaIn_of_prev (hi : i ≤ s.size)
    (h : s.prevSignificant? i = some j) : s.TriviaIn (j + 1) i := fun m hjm hmi =>
  prev_spec h m hjm hmi (by omega)

theorem prev_token (h : s.prevSignificant? i = some j) : ∃ t, s.get? j = some t ∧ t.isTrivia = false := by
  have key : ∀ n, s.findBefore? (!·.isTrivia) n = some j → ∃ t, s.get? j = some t ∧ t.isTrivia = false := by
    intro n
    induction n with
    | zero => intro h; cases h
    | succ n ih =>
      intro h
      rw [findBefore?] at h
      split at h
      · rename_i hany
        cases h
        obtain ⟨t, ht, hsig⟩ := (Option.any_eq_true _ _).mp hany
        exact ⟨t, ht, by simpa using hsig⟩
      · exact ih h
  exact key _ h

theorem exists_next (hij : i ≤ j) (ht : s.get? j = some t)
    (hsig : t.isTrivia = false) : ∃ n, s.nextSignificant? i = some n ∧ n ≤ j := by
  induction hn : j - i generalizing i with
  | zero =>
    obtain rfl : i = j := by omega
    exact ⟨i, next_eq_some le_rfl ht hsig fun m h₁ h₂ => by omega, le_rfl⟩
  | succ d ih =>
    have hsize := lt_get? ht
    obtain ⟨u, hu⟩ := get?_of_lt (s := s) (i := i) (by omega)
    by_cases htriv : u.isTrivia
    · obtain ⟨n, hnext, hle⟩ := ih (i := i + 1) (by omega) (by omega)
      obtain ⟨hlt, ⟨x, hx, hxsig⟩, hbef⟩ := next_spec hnext
      refine ⟨n, next_eq_some (by omega) hx hxsig fun m h₁ h₂ => ?_, hle⟩
      by_cases hm : m = i
      · exact ⟨u, hm ▸ hu, htriv⟩
      · exact hbef m (by omega) h₂
    · exact ⟨i, next_eq_some le_rfl hu (Bool.not_eq_true _ ▸ htriv) fun m h₁ h₂ => by omega, hij⟩

theorem exists_prev (hij : i < j) (hj : j ≤ s.size)
    (ht : s.get? i = some t) (hsig : t.isTrivia = false) : ∃ n, s.prevSignificant? j = some n ∧ i ≤ n := by
  induction j with
  | zero => omega
  | succ j ih =>
    obtain ⟨u, hu⟩ := get?_of_lt (s := s) (i := j) (by omega)
    by_cases htrivia : u.isTrivia
    · have hne : i ≠ j := by
        rintro rfl
        rw [ht] at hu
        cases hu
        rw [hsig] at htrivia
        cases htrivia
      obtain ⟨n, hprev, hle⟩ := ih (by omega) (by omega)
      have hnj := lt_of_prev hprev
      obtain ⟨x, hx, hxsig⟩ := prev_token hprev
      refine ⟨n, prev_eq_some (by omega) hj hx hxsig fun m w h₁ h₂ hw => ?_, hle⟩
      by_cases hm : m = j
      · subst hm
        rw [hu] at hw
        cases hw
        exact htrivia
      · obtain ⟨w', hw', htriv⟩ := prev_spec hprev m h₁ (by omega) (lt_get? hw)
        rw [hw] at hw'
        cases hw'
        exact htriv
    · exact ⟨j, prev_eq_some (by omega) hj hu (Bool.not_eq_true _ ▸ htrivia) fun m w h₁ h₂ => by omega, by omega⟩

theorem Kept.between {i j m : Nat} (hp : v.Kept edits p n) (hi : v.Kept edits i j)
    (hnone : ∀ q, p < q → q ≤ i → generatedAt edits q = []) (hnm : n < m) (hmj : m < j)
    (ht : (v.woven edits).get? m = some t) : ∃ k, v.Kept edits k m ∧ p < k ∧ k < i := by
  rcases exists_place_woven ht with ⟨k, hk⟩ | ⟨k, q, -, hq, rfl⟩
  · exact ⟨k, hk, (KeptAt.lt_iff hp hk).mpr hnm, (KeptAt.lt_iff hk hi).mpr hmj⟩
  · -- a new token would have been written in between
    have hlen := lt_getElem? hq
    unfold offsetIn at hnm hmj
    have hpk : p < k := by
      by_contra hle
      have h₁ := @new_lt_offsetOf _ v.tokens.toList _ _ _ (p + 1) hlen (by omega)
      have h₂ := KeptAt.offsetOf_succ hp
      omega
    have hki : k ≤ i := by
      by_contra hgt
      have := KeptAt.lt_offsetOf hi (Nat.lt_of_not_le hgt)
      omega
    rw [hnone k hpk hki] at hlen
    exact absurd hlen (Nat.not_lt_zero _)

theorem Kept.trivia_between {i j : Nat} (hp : v.Kept edits p n) (hi : v.Kept edits i j)
    (htriv : v.TriviaIn (p + 1) i) (hnone : ∀ q, p < q → q ≤ i → generatedAt edits q = []) :
    ∀ m t, n < m → m < j → (v.woven edits).get? m = some t → t.isTrivia := by
  intro m u hnm hmj hu
  obtain ⟨k, hk, hpk, hki⟩ := hp.between hi hnone hnm hmj hu
  rw [hk.get?] at hu
  exact htriv.isTrivia hpk hki hu

theorem Kept.lt_size_woven (h : v.Kept edits i j) : j < (v.woven edits).size := by
  obtain ⟨t, ht⟩ := get?_of_lt h.lt_size
  exact lt_get? (h.get?.trans ht)

theorem Kept.prev {i j : Nat} (hp : v.Kept edits p n) (hi : v.Kept edits i j) (hprev : v.prevSignificant? i = some p)
    (hnone : ∀ q, p < q → q ≤ i → generatedAt edits q = []) : (v.woven edits).prevSignificant? j = some n := by
  obtain ⟨t, ht, hsig⟩ : ∃ t, v.get? p = some t ∧ t.isTrivia = false := prev_token hprev
  have hpi := lt_of_prev hprev
  refine prev_eq_some ((KeptAt.lt_iff hp hi).mp hpi) hi.lt_size_woven.le (hp.get?.trans ht) hsig ?_
  exact hp.trivia_between hi (triviaIn_of_prev hi.lt_size.le hprev) hnone

theorem Kept.next_eq {m : Nat} (hi : v.Kept edits i j) (hm : v.Kept edits m n)
    (hnext : v.nextSignificant? (i + 1) = some m) (hnone : ∀ q, i < q → q ≤ m → generatedAt edits q = []) :
    (v.woven edits).nextSignificant? (j + 1) = some n := by
  obtain ⟨him, ⟨t, ht, hsig⟩, hbef⟩ := next_spec hnext
  have hjn : j < n := (KeptAt.lt_iff hi hm).mp him
  have htriv := hi.trivia_between hm hbef hnone
  refine next_eq_some hjn (hm.get?.trans ht) hsig fun k hjk hkn => ?_
  have hsize := hm.lt_size_woven
  obtain ⟨w, hw⟩ := get?_of_lt (s := v.woven edits) (i := k) (by omega)
  exact ⟨w, hw, htriv k w hjk hkn hw⟩

theorem prev_new {r : Nat} {u : Token} (hp : p ≤ v.size) (hq : (generatedAt edits p)[q]? = some t)
    (hr : (generatedAt edits p)[r]? = some u) (hrq : r < q) (hsig : u.isTrivia = false)
    (hbtw : ∀ m w, r < m → m < q → (generatedAt edits p)[m]? = some w → w.isTrivia) :
    (v.woven edits).prevSignificant? (v.offsetIn edits p + q) = some (v.offsetIn edits p + r) := by
  have hget : ∀ {m w}, (generatedAt edits p)[m]? = some w → (v.woven edits).get? (v.offsetIn edits p + m) = some w := by
    intro m w hm
    rw [get?_woven_new hp (lt_getElem? hm), hm]
  refine prev_eq_some (by omega) (lt_get? (hget hq)).le (hget hr) hsig ?_
  intro m w hlt hmq hw
  obtain ⟨m, rfl⟩ : ∃ m', m = v.offsetIn edits p + m' := ⟨m - v.offsetIn edits p, by omega⟩
  have hm : m < (generatedAt edits p).length := by
    have := lt_getElem? hq
    omega
  rw [get?_woven_new hp hm] at hw
  exact hbtw m w (by omega) (by omega) hw

/-! ## §5. Stretches of the edited stream. -/

def tokensIn (s : TokenStream) (a b : Nat) : List Token := (s.tokens.toList.drop a).take (b - a)

theorem map_kind_tokensIn (s : TokenStream) (a b : Nat) : (s.tokensIn a b).map Token.kind = s.kindsIn a b := by
  rw [tokensIn, kindsIn, kinds, map_take, map_drop]

@[simp] theorem tokensIn_self (s : TokenStream) (a : Nat) : s.tokensIn a a = [] := by
  simp [tokensIn]

theorem tokensIn_append (s : TokenStream) {c : Nat} (hab : a ≤ b) (hbc : b ≤ c) :
    s.tokensIn a c = s.tokensIn a b ++ s.tokensIn b c := by
  unfold tokensIn
  rw [show c - a = (b - a) + (c - b) from by omega, take_add, drop_drop, show a + (b - a) = b from by omega]

theorem tokensIn_cons (ht : s.get? a = some t) (h : a < b) : s.tokensIn a b = t :: s.tokensIn (a + 1) b := by
  rw [← tokens_getElem?] at ht
  unfold tokensIn
  rw [drop_of_getElem? ht, show b - a = (b - (a + 1)) + 1 from by omega, take_succ_cons]

theorem length_tokensIn (hb : b ≤ s.size) : (s.tokensIn a b).length = b - a := by
  rw [tokensIn, length_take, length_drop, Array.length_toList]
  have : s.tokens.size = s.size := rfl
  omega

theorem tokensIn_woven (hab : a ≤ b) (hb : b ≤ v.size + 1) :
    (v.woven edits).tokensIn (v.offsetIn edits a) (v.offsetIn edits b)
      = (List.range' a (b - a)).flatMap fun i => pieceAt edits (v.get? i) i := by
  let piece : Nat → List Token := fun i => pieceAt edits v.tokens.toList[i]? i
  have hoff : ∀ i, v.offsetIn edits i = ((List.range i).flatMap piece).length := fun _ => rfl
  have hrange : List.range (v.size + 1) = List.range a ++ (List.range' a (b - a) ++ List.range' b (v.size + 1 - b)) := by
    rw [range_eq_range', range_eq_range', show v.size + 1 = a + ((b - a) + (v.size + 1 - b)) by omega,
      ← range'_append_1, ← range'_append_1, Nat.zero_add, show a + (b - a) = b by omega,
      show a + (b - a + (v.size + 1 - b)) - b = v.size + 1 - b by omega]
  have hmid : (List.range b).flatMap piece = (List.range a).flatMap piece ++ (List.range' a (b - a)).flatMap piece := by
    rw [← flatMap_append, range_eq_range', range_eq_range', show b = a + (b - a) by omega,
      ← range'_append_1, Nat.zero_add, Nat.add_sub_cancel_left]
  have hweave : (v.woven edits).tokens.toList = (List.range (v.size + 1)).flatMap piece := by
    rw [woven, ofTokens, weave_eq_flatMap, Array.length_toList]
    rfl
  rw [tokensIn, hweave, hrange, flatMap_append, flatMap_append, hoff a, hoff b, hmid, length_append,
    drop_left, Nat.add_sub_cancel_left, take_left]
  simp only [piece, tokens_getElem?]

theorem tokensIn_piece (hi : i ≤ v.size) :
    (v.woven edits).tokensIn (v.offsetIn edits i) (v.offsetIn edits (i + 1)) = pieceAt edits (v.get? i) i := by
  rw [tokensIn_woven i.le_succ (by omega), show i.succ - i = 1 by omega]
  simp

theorem tokensIn_new (hp : p ≤ v.size) :
    (v.woven edits).tokensIn (v.offsetIn edits p) (placeOf v.tokens.toList edits p) = generatedAt edits p := by
  obtain ⟨before, behind, hweave, hlen⟩ :=
    @weave_eq_append _ v.tokens.toList edits p (by rwa [Array.length_toList])
  have hoff : v.offsetIn edits p = before.length := hlen.symm
  have hplace : placeOf v.tokens.toList edits p = before.length + (generatedAt edits p).length := by
    rw [placeOf, ← hlen]
  have htoks : (v.woven edits).tokens.toList = weave v.tokens.toList edits := by rw [woven, ofTokens]
  rw [tokensIn, htoks, hweave, hoff, hplace, drop_left, Nat.add_sub_cancel_left, pieceAt, append_assoc,
    take_left]

theorem kindsIn_woven (hab : a ≤ b) (hb : b ≤ v.size + 1) :
    (v.woven edits).kindsIn (v.offsetIn edits a) (v.offsetIn edits b)
      = (List.range' a (b - a)).flatMap fun i => (pieceAt edits (v.get? i) i).map Token.kind := by
  rw [← map_kind_tokensIn, tokensIn_woven hab hb, map_flatMap]

theorem kindsIn_new (hp : p ≤ v.size) :
    (v.woven edits).kindsIn (v.offsetIn edits p) (placeOf v.tokens.toList edits p)
      = (generatedAt edits p).map Token.kind := by
  rw [← map_kind_tokensIn, tokensIn_new hp]

theorem Kept.kindsIn_between (hi : v.Kept edits i j) (hp : v.Kept edits p q) (hip : i < p) :
    (v.woven edits).kindsIn (j + 1) q
      = ((List.range' (i + 1) (p - (i + 1))).flatMap fun m => (pieceAt edits (v.get? m) m).map Token.kind)
        ++ (generatedAt edits p).map Token.kind := by
  have hsize := hp.lt_size
  have hj : j + 1 = v.offsetIn edits (i + 1) := (KeptAt.offsetOf_succ hi).symm
  have hq : q = placeOf v.tokens.toList edits p := KeptAt.place hp
  have h₁ : v.offsetIn edits (i + 1) ≤ v.offsetIn edits p := offsetOf_mono hip
  have h₂ : v.offsetIn edits p ≤ placeOf v.tokens.toList edits p := offset_le_place p
  rw [hj, hq, kindsIn_append _ h₁ h₂, kindsIn_woven hip (by omega), kindsIn_new hsize.le]

theorem closeFrom?_skip (hj : j ≤ s.size) :
    ∀ (above expected : List Kind), expected ≠ [] → i ≤ j → expectedAfter above (s.kindsIn i j) = some [] →
      s.closeFrom? (above ++ expected) i = s.closeFrom? expected j := by
  -- induction on the length of the stretch; `above` are the closers that are expected inside it
  induction hn : j - i generalizing i with
  | zero =>
    intro above expected _ hij h
    obtain rfl : i = j := by omega
    rw [kindsIn_self, expected_nil, some.injEq] at h
    rw [h, nil_append]
  | succ n ih =>
    intro above expected hne hij h
    have hlt : i < j := by omega
    obtain ⟨t, ht⟩ := get?_of_lt (hlt.trans_le hj)
    have hk := kind?_get? ht
    rw [kindsIn_cons hk hlt] at h
    obtain ⟨mid, hstep, h⟩ := expected_cons_iff.mp h
    rw [closeFrom?_of_kind? hk (by simp [hne]), expected_singleton.mpr (hstep.append expected), bind_some,
      if_neg (by simp [hne])]
    exact ih (by omega) mid expected hne (by omega) h

theorem closeFrom?_balanced {expected : List Kind} (hij : i ≤ j) (hj : j ≤ s.size)
    (hne : expected ≠ []) (hbal : Balanced (s.kindsIn i j)) : s.closeFrom? expected i = s.closeFrom? expected j :=
  closeFrom?_skip hj [] expected hne hij hbal

theorem size_woven (v : TokenStream) (edits : List (Edit Token)) :
    (v.woven edits).size = v.offsetIn edits (v.size + 1) := by
  rw [woven, size_ofTokens, length_weave, Array.length_toList]
  rfl

theorem size_woven_of_end (hend : generatedAt edits v.size = []) : (v.woven edits).size = v.offsetIn edits v.size := by
  have hnone : v.get? v.size = none := Array.getElem?_eq_none le_rfl
  have hpiece : (pieceAt edits v.tokens.toList[v.size]? v.size).length = 0 := by
    rw [tokens_getElem?, hnone, pieceAt, hend]
    split <;> rfl
  rw [size_woven, offsetIn, Edit.offsetOf_succ, hpiece]
  rfl

theorem placeOf_le_size (hp : p ≤ v.size) : placeOf v.tokens.toList edits p ≤ (v.woven edits).size := by
  rw [size_woven]
  exact (place_le_offset p).trans (offsetOf_mono (by omega))

/-- A search for closers can go on from every place of the set `P`, in one of two ways: past a kept token with
something balanced in front of it, or over a stretch that is balanced before and after the edits. -/
def Passable (v : TokenStream) (edits : List (Edit Token)) (P : Nat → Prop) : Prop :=
  ∀ i, P i → i < v.size →
    (∃ j, v.Kept edits i j ∧ Balanced ((generatedAt edits i).map Token.kind) ∧ P (i + 1))
      ∨ ∃ j, i < j ∧ j ≤ v.size ∧ Balanced (v.kindsIn i j)
        ∧ Balanced ((v.woven edits).kindsIn (v.offsetIn edits i) (v.offsetIn edits j)) ∧ P j

/-- **Brackets close where they did**, seen from any place from which the search can go on. -/
theorem closeFrom?_weave {P : Nat → Prop} (hstep : Passable v edits P)
    (hend : generatedAt edits v.size = []) {i : Nat} (hP : P i) (hi : i ≤ v.size) {expected : List Kind}
    (hne : expected ≠ []) :
    (v.woven edits).closeFrom? expected (v.offsetIn edits i)
      = (v.closeFrom? expected i).map (placeOf v.tokens.toList edits) := by
  -- induction on what is left of the stream
  induction hn : v.size - i using Nat.strongRecOn generalizing i expected with
  | ind n ih =>
  by_cases hlast : i = v.size
  · subst hlast
    rw [closeFrom?_end (Nat.le_of_eq (size_woven_of_end hend)), closeFrom?_end le_rfl]
    rfl
  have hlt : i < v.size := by omega
  rcases hstep i hP hlt with ⟨j, hkept, hbal, hnext⟩ | ⟨j, hij, hj, hbef, hafter, hnext⟩
  · obtain ⟨t, ht⟩ := get?_of_lt hlt
    have hkv := kind?_get? ht
    have hku : (v.woven edits).kind? j = some t.kind := kind?_get? (hkept.get?.trans ht)
    have hplace : placeOf v.tokens.toList edits i = j := (KeptAt.place hkept).symm
    have hoff : j + 1 = v.offsetIn edits (i + 1) := (KeptAt.offsetOf_succ hkept).symm
    -- what is written in front of the token is passed over
    have hskip : (v.woven edits).closeFrom? expected (v.offsetIn edits i) = (v.woven edits).closeFrom? expected j := by
      refine closeFrom?_balanced ?_ (lt_kind? hku).le hne ?_
      · rw [← hplace]
        exact offset_le_place i
      · rw [← hplace, kindsIn_new hlt.le]
        exact hbal
    have hrest : ∀ expected' : List Kind, expected' ≠ [] → (v.woven edits).closeFrom? expected' (j + 1)
        = (v.closeFrom? expected' (i + 1)).map (placeOf v.tokens.toList edits) := by
      intro expected' hne'
      rw [hoff]
      exact ih (v.size - (i + 1)) (by omega) hnext hlt hne' rfl
    rw [hskip, closeFrom?_of_kind? hku hne, closeFrom?_of_kind? hkv hne, Option.map_bind]
    refine Option.bind_congr fun mid _ => ?_
    by_cases hmid : mid = []
    · rw [if_pos hmid, Function.comp_apply, if_pos hmid, map_some, hplace]
    · rw [if_neg hmid, Function.comp_apply, if_neg hmid]
      exact hrest mid hmid
  · have hsize : v.offsetIn edits j ≤ (v.woven edits).size :=
      (offset_le_place j).trans (placeOf_le_size hj)
    have hle : v.offsetIn edits i ≤ v.offsetIn edits j := offsetOf_mono hij.le
    rw [closeFrom?_balanced hle hsize hne hafter, closeFrom?_balanced hij.le hj hne hbef]
    exact ih (v.size - j) (by omega) hnext hj hne rfl

theorem Kept.matchingClose? {P : Nat → Prop} (hstep : Passable v edits P)
    (hend : generatedAt edits v.size = []) {i j : Nat} (h : v.Kept edits i j) (hP : P (i + 1)) :
    (v.woven edits).matchingClose? j = (v.matchingClose? i).map (placeOf v.tokens.toList edits) := by
  obtain ⟨t, ht⟩ := get?_of_lt h.lt_size
  rw [TokenStream.matchingClose?, TokenStream.matchingClose?, kind?_get? ht, kind?_get? (h.get?.trans ht)]
  show (t.kind.closer?.bind _) = (t.kind.closer?.bind _).map _
  cases t.kind.closer? with
  | none => rfl
  | some c =>
    show (v.woven edits).closeFrom? [c] (j + 1) = (v.closeFrom? [c] (i + 1)).map _
    rw [← closeFrom?_weave hstep hend hP h.lt_size (cons_ne_nil c [])]
    exact congrArg _ (KeptAt.offsetOf_succ h).symm

end MageUplift.Php.TokenStream
