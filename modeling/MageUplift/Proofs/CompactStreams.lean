import MageUplift.Proofs.CodeTokens

/-!
# Streams without trivia

`compact` drops the trivia of a stream, and `rank` says where a position of the stream stands afterwards: behind
as many significant tokens as before. Every question that skips trivia has the same answer in both streams, up to
`rank`. It follows that the answer depends on the significant tokens alone, since two streams with the same
significant tokens have one compact stream.

All of this comes from how `rank` moves over one token: trivia does not move it, a significant token moves it by
one and stands at its place (`rank_of_trivia`, `rank_code`). `position_induction` turns that into an induction
with three cases, and each search is one such induction.
-/

namespace MageUplift.Php.TokenStream

open List Option

/-! ## §1. Ranks. -/

def compact (s : TokenStream) : TokenStream := .ofTokens (significant s.tokens.toList)

/-- Where a position stands in the compact stream: behind the significant tokens that stand before it. -/
def rank (s : TokenStream) (i : Nat) : Nat := (significant (s.tokens.toList.take i)).length

variable {s : TokenStream} {i j : Nat} {t : Token}

@[simp] theorem rank_zero (s : TokenStream) : s.rank 0 = 0 := by simp [rank, significant]

theorem rank_succ (ht : s.get? i = some t) : s.rank (i + 1) = s.rank i + if t.isTrivia then 0 else 1 := by
  rw [← tokens_getElem?] at ht
  rw [rank, take_add_one, ht, significant_append, length_append, rank]
  cases h : t.isTrivia <;> simp [significant, h]

theorem rank_of_trivia (ht : s.get? i = some t) (htriv : t.isTrivia) : s.rank (i + 1) = s.rank i := by
  rw [rank_succ ht, htriv]
  rfl

theorem rank_code (hi : s.IsCode i) : s.rank (i + 1) = s.rank i + 1 := by
  obtain ⟨t, ht, hsig⟩ := hi
  rw [rank_succ ht, hsig]
  rfl

theorem size_compact (s : TokenStream) : s.compact.size = (significant s.tokens.toList).length := size_ofTokens _

theorem rank_of_size_le (h : s.size ≤ i) : s.rank i = s.compact.size := by
  rw [rank, take_of_length_le (by simpa [size] using h), size_compact]

theorem rank_mono (h : i ≤ j) : s.rank i ≤ s.rank j :=
  List.Sublist.length_le (List.Sublist.filter _ (take_sublist_take_left h))

theorem rank_le_size (s : TokenStream) (i : Nat) : s.rank i ≤ s.compact.size := by
  rw [← rank_of_size_le (Nat.le_max_left s.size i)]
  exact rank_mono (Nat.le_max_right s.size i)

theorem drop_of_get? (ht : s.get? i = some t) : s.tokens.toList.drop i = t :: s.tokens.toList.drop (i + 1) :=
  drop_of_getElem? (by rw [tokens_getElem?, ht])

theorem get?_compact (ht : s.get? i = some t) (hsig : t.isTrivia = false) : s.compact.get? (s.rank i) = some t := by
  have hsplit := take_append_drop i s.tokens.toList
  rw [drop_of_get? ht] at hsplit
  rw [compact, get?_ofTokens]
  conv => lhs; rw [← hsplit]
  rw [significant_append, significant_cons, hsig, if_neg (by decide), rank, getElem?_append_right le_rfl,
    Nat.sub_self]
  rfl

theorem IsCode.get?_compact (hi : s.IsCode i) : s.compact.get? (s.rank i) = s.get? i := by
  obtain ⟨t, ht, hsig⟩ := hi
  rw [TokenStream.get?_compact ht hsig, ht]

theorem IsCode.kind?_compact (hi : s.IsCode i) : s.compact.kind? (s.rank i) = s.kind? i := by
  rw [kind?, hi.get?_compact, kind?]

theorem IsCode.hasKind_compact (hi : s.IsCode i) (k : Kind) : s.compact.hasKind (s.rank i) k = s.hasKind i k := by
  rw [hasKind, hi.kind?_compact, hasKind]

theorem IsCode.text_compact (hi : s.IsCode i) : s.compact.text (s.rank i) = s.text i := by
  rw [text, hi.get?_compact, text]

theorem rank_lt_iff (hi : s.IsCode i) : s.rank i < s.rank j ↔ i < j := by
  constructor
  · intro h
    rcases Nat.lt_or_ge i j with hlt | hle
    · exact hlt
    · exact absurd (rank_mono hle) (Nat.not_le_of_lt h)
  · intro h
    have := rank_mono (s := s) h
    rw [rank_code hi] at this
    omega

theorem rank_inj (hi : s.IsCode i) (hj : s.IsCode j) : s.rank i = s.rank j ↔ i = j := by
  have := rank_lt_iff (j := j) hi
  have := rank_lt_iff (j := i) hj
  omega

theorem not_rank_lt (h : ¬ i < j) : ¬ s.rank i < s.rank j := by
  have := rank_mono (s := s) (Nat.le_of_not_lt h)
  omega

/-- **Induction from the end of a stream.** Nothing is there, or trivia, or a significant token, behind which a
search may jump ahead. -/
theorem position_induction {P : Nat → Prop} (s : TokenStream) (atEnd : ∀ i, s.size ≤ i → P i)
    (trivia : ∀ i t, s.get? i = some t → t.isTrivia → P (i + 1) → P i)
    (code : ∀ i t, s.get? i = some t → t.isTrivia = false → (∀ j, i < j → P j) → P i) (i : Nat) : P i := by
  by_cases hi : s.size ≤ i
  · exact atEnd i hi
  · obtain ⟨t, ht⟩ := get?_of_lt (Nat.lt_of_not_le hi)
    cases htriv : t.isTrivia with
    | true => exact trivia i t ht htriv (position_induction s atEnd trivia code (i + 1))
    | false => exact code i t ht htriv fun j _ => position_induction s atEnd trivia code j
termination_by s.size - i

/-! ## §2. Searches. -/

theorem findFrom?_of_get? {p : Token → Bool} (ht : s.get? i = some t) :
    s.findFrom? p i = if p t then some i else s.findFrom? p (i + 1) := by
  obtain ⟨hi, rfl⟩ := Array.getElem?_eq_some_iff.mp ht
  rw [findFrom?, dif_pos hi]

theorem findFrom?_of_size_le {p : Token → Bool} (h : s.size ≤ i) : s.findFrom? p i = none := by
  rw [findFrom?, dif_neg (by simpa [size] using h)]

theorem findFrom?_compact {p : Token → Bool} (hp : ∀ t, t.isTrivia → p t = false) (i : Nat) :
    s.compact.findFrom? p (s.rank i) = (s.findFrom? p i).map s.rank := by
  induction i using position_induction s with
  | atEnd i hi => rw [findFrom?_of_size_le hi, findFrom?_of_size_le (Nat.le_of_eq (rank_of_size_le hi).symm), map_none]
  | trivia i t ht htriv ih =>
    rw [← rank_of_trivia ht htriv, ih, findFrom?_of_get? (i := i) ht, hp t htriv, if_neg Bool.false_ne_true]
  | code i t ht hsig ih =>
    rw [findFrom?_of_get? (get?_compact ht hsig), findFrom?_of_get? ht, ← rank_code ⟨t, ht, hsig⟩,
      ih (i + 1) i.lt_succ_self]
    split <;> rfl

theorem next_compact (s : TokenStream) (i : Nat) :
    s.compact.nextSignificant? (s.rank i) = (s.nextSignificant? i).map s.rank :=
  findFrom?_compact (fun t h => by rw [h]; rfl) i

theorem nextOfKind?_compact {k : Kind} (hk : k.isTrivia = false) (i : Nat) :
    s.compact.nextOfKind? (s.rank i) k = (s.nextOfKind? i k).map s.rank :=
  findFrom?_compact (fun t h => beq_eq_false_iff_ne.mpr fun heq => by rw [Token.isTrivia, heq, hk] at h; cases h) i

theorem findBefore?_compact (s : TokenStream) (i : Nat) (hi : i ≤ s.size) :
    s.compact.findBefore? (!·.isTrivia) (s.rank i) = (s.findBefore? (!·.isTrivia) i).map s.rank := by
  induction i with
  | zero => rw [rank_zero, findBefore?, findBefore?, map_none]
  | succ i ih =>
    obtain ⟨t, ht⟩ := get?_of_lt (show i < s.size by omega)
    rw [findBefore?, ht, any_some]
    cases htriv : t.isTrivia with
    | true =>
      rw [rank_of_trivia ht htriv, ih (by omega)]
      rfl
    | false =>
      rw [rank_code ⟨t, ht, htriv⟩, findBefore?, get?_compact ht htriv, any_some, htriv]
      rfl

theorem prev_compact (s : TokenStream) (i : Nat) :
    s.compact.prevSignificant? (s.rank i) = (s.prevSignificant? i).map s.rank := by
  rw [prevSignificant?, prevSignificant?, ← findBefore?_compact s _ (Nat.min_le_right i s.size)]
  congr 1
  rcases Nat.le_total i s.size with h | h
  · rw [Nat.min_eq_left h, Nat.min_eq_left (rank_le_size s i)]
  · rw [Nat.min_eq_right h, rank_of_size_le h, rank_of_size_le le_rfl, Nat.min_self]

theorem isCode_of_next (h : s.nextSignificant? i = some j) : s.IsCode j := (next_spec h).2.1

theorem isCode_of_prev (h : s.prevSignificant? i = some j) : s.IsCode j := prev_token h

theorem isCode_followedBy? {k : Kind} (h : s.followedBy? i k = some j) : s.IsCode j :=
  isCode_of_next (followedBy?_iff.mp h).1

theorem Follows.isCode {ks : List Kind} (h : s.Follows i ks j) (hi : s.IsCode i) : s.IsCode j := by
  induction h with
  | nil => exact hi
  | cons first _ ih => exact ih (isCode_followedBy? first)

theorem followedBy?_compact (hi : s.IsCode i) (k : Kind) :
    s.compact.followedBy? (s.rank i) k = (s.followedBy? i k).map s.rank := by
  rw [followedBy?, ← rank_code hi, next_compact, followedBy?]
  cases hj : s.nextSignificant? (i + 1) with
  | none => rfl
  | some j =>
    rw [map_some, filter_some, filter_some, (isCode_of_next hj).hasKind_compact]
    split <;> rfl

theorem bind_kind?_compact {o : Option Nat} (ho : ∀ j, o = some j → s.IsCode j) :
    (o.map s.rank).bind s.compact.kind? = o.bind s.kind? := by
  rw [bind_map]
  exact Option.bind_congr fun j hj => (ho j hj).kind?_compact

/-! ## §3. Brackets. -/

theorem closeFrom?_compact (i : Nat) : ∀ expected, expected ≠ [] →
    s.compact.closeFrom? expected (s.rank i) = (s.closeFrom? expected i).map s.rank := by
  induction i using position_induction s with
  | atEnd i hi =>
    intro expected _
    rw [closeFrom?_end hi, closeFrom?_end (Nat.le_of_eq (rank_of_size_le hi).symm), map_none]
  | trivia i t ht htriv ih =>
    intro expected hne
    rw [← rank_of_trivia ht htriv, ih _ hne, closeFrom?_of_kind? (kind?_get? ht) hne,
      expected_plain (Kind.isPlain_trivia htriv), expected_nil, bind_some, if_neg hne]
  | code i t ht hsig ih =>
    intro expected hne
    -- both searches see the same token and go on behind it
    have next := ih (i + 1) i.lt_succ_self
    rw [rank_code ⟨t, ht, hsig⟩] at next
    rw [closeFrom?_of_kind? (kind?_get? (get?_compact ht hsig)) hne, closeFrom?_of_kind? (kind?_get? ht) hne,
      Option.map_bind]
    refine Option.bind_congr fun mid _ => ?_
    by_cases hmid : mid = []
    · rw [if_pos hmid, Function.comp_apply, if_pos hmid, map_some]
    · rw [if_neg hmid, Function.comp_apply, if_neg hmid]
      exact next mid hmid

theorem close_compact (hi : s.IsCode i) : s.compact.matchingClose? (s.rank i) = (s.matchingClose? i).map s.rank := by
  rw [matchingClose?, hi.kind?_compact, ← rank_code hi, matchingClose?, Option.map_bind]
  exact Option.bind_congr fun closer _ => closeFrom?_compact (i + 1) [closer] (cons_ne_nil _ _)

/-! ## §4. Positions one by one. -/

theorem rank_of_not_code (hi : ¬ s.IsCode i) : s.rank (i + 1) = s.rank i := by
  rcases Nat.lt_or_ge i s.size with hlt | hge
  · obtain ⟨t, ht⟩ := get?_of_lt hlt
    exact rank_of_trivia ht ((Bool.not_eq_false _).mp fun hsig => hi ⟨t, ht, hsig⟩)
  · rw [rank_of_size_le hge, rank_of_size_le (Nat.le_succ_of_le hge)]

section

variable {α β : Type} {f : Nat → Option α} {g : Nat → Option β} {h : α → β} (hnone : ∀ i, ¬ s.IsCode i → f i = none)
  (hcode : ∀ i, s.IsCode i → g (s.rank i) = (f i).map h)

include hnone hcode

theorem filterMap_range'_compact (a n : Nat) :
    (List.range' (s.rank a) (s.rank (a + n) - s.rank a)).filterMap g = ((List.range' a n).filterMap f).map h := by
  induction n generalizing a with
  | zero => simp
  | succ n ih =>
    have next := ih (a + 1)
    rw [show a + 1 + n = a + (n + 1) by omega] at next
    rw [range'_succ, filterMap_cons]
    by_cases ha : s.IsCode a
    · have hle : s.rank (a + 1) ≤ s.rank (a + (n + 1)) := rank_mono (by omega)
      rw [rank_code ha] at hle next
      rw [show s.rank (a + (n + 1)) - s.rank a = s.rank (a + (n + 1)) - (s.rank a + 1) + 1 by omega,
        range'_succ, filterMap_cons, hcode a ha, next]
      cases f a <;> rfl
    · rw [rank_of_not_code ha] at next
      rw [hnone a ha, next]

theorem filterMap_range_compact :
    (List.range s.compact.size).filterMap g = ((List.range s.size).filterMap f).map h := by
  have := filterMap_range'_compact hnone hcode 0 s.size
  rwa [Nat.zero_add, rank_zero, rank_of_size_le le_rfl, Nat.sub_zero, ← range_eq_range',
    ← range_eq_range'] at this

end

/-! ## §5. Edits. -/

end TokenStream

end MageUplift.Php

namespace MageUplift

def Span.relocate (f : Nat → Nat) (span : Span) : Span := ⟨f span.start, f span.stop⟩

def Edit.relocate {α : Type} (f : Nat → Nat) (e : Edit α) : Edit α := ⟨e.span.relocate f, e.replacement⟩

end MageUplift

namespace MageUplift.Php.TokenStream

open Edit

variable {s : TokenStream} {i : Nat} {edits : List (Edit Token)}

theorem rank_mem_iff {a b : Nat} (hi : s.IsCode i) :
    (s.rank a ≤ s.rank i ∧ s.rank i < s.rank b) ↔ (a ≤ i ∧ i < b) := by
  have := rank_lt_iff (j := a) hi
  have := rank_lt_iff (j := b) hi
  omega

variable (hedits : ∀ e ∈ edits, s.IsCode e.span.start ∧ e.span.start ≤ e.span.stop)

include hedits

theorem relocate_span_iff {e : Edit Token} (he : e ∈ edits) (hi : s.IsCode i) :
    (s.rank e.span.start = s.rank i ↔ e.span.start = i)
      ∧ (s.rank e.span.start = s.rank e.span.stop ↔ e.span.start = e.span.stop) := by
  obtain ⟨hstart, hle⟩ := hedits e he
  have := rank_lt_iff (j := e.span.stop) hstart
  have := rank_mono (s := s) hle
  exact ⟨rank_inj hstart hi, by omega⟩

theorem generatedAt_compact (hi : s.IsCode i) :
    generatedAt (edits.map (Edit.relocate s.rank)) (s.rank i) = generatedAt edits i := by
  have key : ∀ p q : Edit Token → Bool, (∀ e ∈ edits, q (e.relocate s.rank) = p e) →
      ((edits.map (Edit.relocate s.rank)).filter q).flatMap replacement = (edits.filter p).flatMap replacement := by
    intro p q h
    rw [List.filter_map, List.flatMap_map, List.filter_congr (q := p) (by exact h)]
    rfl
  have inserts : ∀ e ∈ edits, insertsAt (s.rank i) (e.relocate s.rank) = insertsAt i e := by
    intro e he
    obtain ⟨hstart, hempty⟩ := relocate_span_iff hedits he hi
    rw [Bool.eq_iff_iff]
    simp only [insertsAt, beq_iff_eq, Edit.relocate, Span.relocate, Span.empty, Span.mk.injEq]
    rw [show e.span = ⟨i, i⟩ ↔ e.span.start = i ∧ e.span.stop = i by cases e.span; simp]
    omega
  have replaces : ∀ e ∈ edits, replacesAt (s.rank i) (e.relocate s.rank) = replacesAt i e := by
    intro e he
    obtain ⟨hstart, hempty⟩ := relocate_span_iff hedits he hi
    rw [Bool.eq_iff_iff]
    simp only [replacesAt, Span.isEmpty, Edit.relocate, Span.relocate, Bool.and_eq_true, Bool.not_eq_true', beq_iff_eq,
      beq_eq_false_iff_ne, ne_eq, hstart, hempty]
  rw [generatedAt, generatedAt, key _ _ inserts, key _ _ replaces]

omit hedits in
theorem covers_compact (edits : List (Edit Token)) (hi : s.IsCode i) :
    covers (edits.map (Edit.relocate s.rank)) (s.rank i) = covers edits i := by
  rw [covers, covers, List.any_map]
  congr 1
  funext e
  rw [Bool.eq_iff_iff]
  simp only [Function.comp_apply, Bool.and_eq_true, decide_eq_true_eq]
  exact rank_mem_iff hi

theorem generatedAt_of_not_code (hi : ¬ s.IsCode i) : generatedAt edits i = [] :=
  generatedAt_ne fun e he heq => hi (heq ▸ (hedits e he).1)

theorem generatedAt_compact_end : generatedAt (edits.map (Edit.relocate s.rank)) s.compact.size = [] := by
  refine generatedAt_ne fun e' he' heq => ?_
  obtain ⟨e, he, rfl⟩ := List.mem_map.mp he'
  obtain ⟨t, ht, hsig⟩ := (hedits e he).1
  have := lt_get? (get?_compact ht hsig)
  exact absurd heq this.ne

theorem significant_weaveFrom (i : Nat) : i ≤ s.size →
    significant (weaveFrom edits i (s.tokens.toList.drop i))
      = significant
      (weaveFrom (edits.map (Edit.relocate s.rank)) (s.rank i) (s.compact.tokens.toList.drop (s.rank i))) := by
  induction i using position_induction s with
  | atEnd i hi =>
    intro hle
    have hnot : ¬ s.IsCode i := by
      rintro ⟨_, ht, -⟩
      have := lt_get? ht
      omega
    have hend : ∀ (u : TokenStream) j, u.size ≤ j → u.tokens.toList.drop j = [] := fun u j h =>
      List.drop_eq_nil_of_le (by simpa [size] using h)
    rw [rank_of_size_le hi, hend s i hi, hend s.compact _ le_rfl, weaveFrom, weaveFrom, pieceAt, pieceAt,
      generatedAt_of_not_code hedits hnot, generatedAt_compact_end hedits]
    simp
  | trivia i t ht htriv ih =>
    intro hle
    have hnot : ¬ s.IsCode i := by
      rintro ⟨u, hu, hsig⟩
      rw [ht, Option.some.injEq] at hu
      rw [← hu, htriv] at hsig
      cases hsig
    rw [← rank_of_trivia ht htriv, ← ih (lt_get? ht), drop_of_get? ht, weaveFrom, pieceAt,
      generatedAt_of_not_code hedits hnot, significant_append]
    cases covers edits i <;> simp [significant, htriv]
  | code i t ht hsig ih =>
    intro hle
    have hi : s.IsCode i := ⟨t, ht, hsig⟩
    rw [drop_of_get? ht, drop_of_get? (get?_compact ht hsig), weaveFrom, weaveFrom, pieceAt, pieceAt,
      generatedAt_compact hedits hi, covers_compact edits hi, significant_append, significant_append _ (weaveFrom _ _ _),
      ih (i + 1) i.lt_succ_self (lt_get? ht), rank_code hi]

theorem significant_woven :
    significant (s.woven edits).tokens.toList
      = significant (s.compact.woven (edits.map (Edit.relocate s.rank))).tokens.toList := by
  have := significant_weaveFrom hedits 0 (Nat.zero_le _)
  rw [rank_zero] at this
  simpa [woven, weave, ofTokens] using this

end MageUplift.Php.TokenStream
