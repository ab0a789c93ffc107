import MageUplift.Proofs.CallTokens

/-!
# Calls of the converted stream

The first batch of edits replaces all convertible calls at once. In the stream that it leaves, a legacy call can only
be one that was there before and was not replaced: the new code holds no call, and the surroundings of a token that is
kept tell the same story as before. The opening bracket of a kept token still closes at the same place, even where
calls in between were replaced, and commas that were top-level are top-level again.
-/

namespace MageUplift

open Php TokenStream Call Wiring Magento List Option Edit

variable {i p j c q : Nat} {t : Token} {inv : Invocation} {kinds : List Kind} {code : String} {k : Kind}
  {v : TokenStream}

/-! ## §1. Heads hold no further call. -/

/-- Every name of a path stands behind a double colon or an arrow; `prev` is the kind in front of the path. -/
def namesSelected (prev : Option Kind) : List Kind → Bool
  | [] => true
  | k :: ks => (!k.isName || prev == some .doubleColon || prev == some .arrow) && namesSelected (some k) ks

theorem isMember_of_follows {s : TokenStream} {m : Nat} {ks : List Kind} (h : s.Follows i ks m)
    (hks : namesSelected (s.kind? i) ks) (hip : i < p) (hpm : p ≤ m)
    (ht : s.get? p = some t) (hname : t.kind.isName) : isMember s p := by
  induction h with
  | nil => omega
  | @cons i j m k ks first rest ih =>
    rw [namesSelected, Bool.and_eq_true] at hks
    obtain ⟨hnext, hkind⟩ := followedBy?_iff.mp first
    obtain ⟨hij, -, hbef⟩ := next_spec hnext
    rcases Nat.lt_trichotomy p j with hlt | rfl | hgt
    · -- between the two tokens of a step there is only trivia
      have htriv := TriviaIn.isTrivia hbef hip hlt ht
      rw [Token.isTrivia] at htriv
      cases hk : t.kind <;> rw [hk] at hname htriv <;> simp [Kind.isName, Kind.isTrivia] at hname htriv
    · rw [kind?_get? ht, some.injEq] at hkind
      rw [← hkind, hname, Bool.not_true, Bool.false_or, Bool.or_eq_true, beq_iff_eq, beq_iff_eq] at hks
      obtain ⟨u, hu⟩ : ∃ u, s.get? i = some u := get?_of_lt (hip.trans (lt_get? ht))
      have hsig : u.isTrivia = false := by
        rw [kind?_get? hu, some.injEq, some.injEq] at hks
        rw [Token.isTrivia]
        rcases hks.1 with hk | hk <;> rw [hk] <;> rfl
      have hprev : s.prevSignificant? p = some i :=
        prev_of_triviaIn hip (lt_get? ht).le hbef hu hsig
      rw [isMember, hprev, bind_some]
      rcases hks.1 with hk | hk <;> rw [hk]
    · rw [hkind] at ih
      exact ih hks.2 hgt hpm

section

variable {table : AliasTable} {s : TokenStream}

theorem isMember_of_head (h : IsCallOf table s inv) (hlt : inv.span.start < p)
    (hp : p < inv.headEnd) (ht : s.get? p = some t) (hname : t.kind.isName) : isMember s p := by
  obtain ⟨path, last, hpath, hfollows, hheadEnd⟩ := h.anatomy.head_path
  obtain ⟨mage, hmage, hkind⟩ := h.isMage
  have hpaths : ∀ k ∈ [Kind.identifier, .qualifiedName], ∀ path ∈ headPaths, namesSelected (some k) path := by
    decide
  refine isMember_of_follows hfollows ?_ hlt (by omega) ht hname
  rw [kind?_get? hmage]
  exact hpaths _ (by simpa using isMage_kind hkind) path hpath

theorem matchAt?_inside (h : IsCallOf table s inv) (hlt : inv.span.start < p)
    (hp : p < inv.headEnd) : matchAt? table s p = none := by
  cases hmatch : matchAt? table s p with
  | none => rfl
  | some other =>
    obtain ⟨-, ⟨t, ht, hmage⟩, hmem, -⟩ := matchAt?_anatomy hmatch
    have hname : t.kind.isName := by rcases isMage_kind hmage with hk | hk <;> rw [hk] <;> rfl
    rw [isMember_of_head h hlt hp ht hname] at hmem
    cases hmem

theorem matchAt?_parenthesis (h : matchAt? table s i = some inv) : ∃ left, s.Follows i openPath left := by
  obtain ⟨head, p, method, hhead, -, hmatch⟩ := matchAt?_cases h
  obtain ⟨rfl, -, -, hpath⟩ := head?_spec hhead
  have hopen : ∀ {left}, s.followedBy? head.method .leftParen = some left → ∃ left, s.Follows head.mage openPath left :=
    fun hleft => ⟨_, hpath.snoc hleft⟩
  have hlit : ∀ {arg}, literalArgument? s head.method = some arg → ∃ left, s.Follows head.mage openPath left := by
    intro arg harg
    obtain ⟨left, hleft, -⟩ := bind_eq_some_iff.mp harg
    exact hopen hleft
  cases head_recognised hmatch with
  | translation argument | helper argument | model _ _ argument => exact hlit argument
  | storeConfig _ arguments | exception _ _ arguments => exact hopen (arguments?_spec arguments).1
  | service _ _ opens | appStore opens => exact hopen opens

theorem lt_of_matchAt? (h : matchAt? table s i = some inv) : i + 3 < s.size := by
  obtain ⟨left, hleft⟩ := matchAt?_parenthesis h
  obtain ⟨-, ⟨t, ht, -⟩, -⟩ := matchAt?_anatomy h
  have hlt := hleft.lt_size (lt_get? ht)
  cases hleft with
  | cons colons rest =>
    cases rest with
    | cons name rest =>
      cases rest with
      | cons paren rest =>
        cases rest
        have h₁ := (followedBy?_spec colons).1
        have h₂ := (followedBy?_spec name).1
        have h₃ := (followedBy?_spec paren).1
        omega

theorem mem_scan (h : matchAt? table s i = some inv)
    (hconvertible : inv.isConvertible (staticBodies s)) : inv ∈ scan table s := by
  have hsize := lt_of_matchAt? h
  have hhead : ∀ {found j}, matchAt? table s j = some found → j < i → found.headEnd ≤ i := by
    intro found j hfound hlt
    refine Nat.not_lt.mp fun hi => ?_
    rw [matchAt?_inside (.of_matchAt? hfound) (by have := (matchAt?_anatomy hfound).1; omega) hi] at h
    cases h
  -- the scan never jumps over a place where a call begins
  have key : ∀ bodies j, j ≤ i → inv.isConvertible bodies → inv ∈ scanFrom table s bodies j := by
    intro bodies j hj hconv
    fun_induction scanFrom table s bodies j with
    | case1 j hlt hnone ih =>
      refine ih ?_
      have hne : j ≠ i := by
        rintro rfl
        rw [h] at hnone
        cases hnone
      omega
    | case2 j hlt found hfound rest _ ih =>
      by_cases hji : j = i
      · subst hji
        rw [h] at hfound
        cases hfound
        exact mem_cons_self
      · have := hhead hfound (by omega)
        exact mem_cons_of_mem found (ih (by omega))
    | case3 j hlt found hfound rest hnot ih =>
      by_cases hji : j = i
      · subst hji
        rw [h] at hfound
        cases hfound
        exact absurd hconv hnot
      · have := hhead hfound (by omega)
        exact ih (by omega)
    | case4 j hlt => omega
  exact key (staticBodies s) 0 i.zero_le hconvertible

end

/-! ## §2. New code. -/

theorem firstCode_eq (tokens : List Token) : firstCode tokens = (significant tokens).head? := by
  rw [firstCode, significant, head?_filter]

theorem QuietCode.firstCode (h : QuietCode kinds code)
    (hfst : TokenStream.firstCode (lexFragment code) = some t) : t.kind ∈ kinds := by
  obtain ⟨u, rest, htoks, hkind⟩ := h.first
  rw [firstCode_eq, lexFragment_code, htoks] at hfst
  cases hfst
  exact hkind

theorem QuietCode.exists_code (h : QuietCode kinds code) : ∃ t ∈ lexFragment code, t.isTrivia = false := by
  obtain ⟨t, rest, htoks, -⟩ := h.first
  rw [← lexFragment_code] at htoks
  have hmem : t ∈ significant (lexFragment code) := htoks ▸ mem_cons_self
  obtain ⟨hmem, hsig⟩ := mem_filter.mp hmem
  exact ⟨t, hmem, by simpa using hsig⟩

theorem magesSelected_spec {tokens : List Token} {prev : Option Kind}
    (h : magesSelected prev (significant tokens)) (hq : tokens[q]? = some t)
    (hmage : isMage t) : (∃ r u, r < q ∧ tokens[r]? = some u ∧ u.kind = .arrow
        ∧ ∀ m w, r < m → m < q → tokens[m]? = some w → w.isTrivia)
      ∨ prev = some .arrow ∧ ∀ m w, m < q → tokens[m]? = some w → w.isTrivia := by
  induction tokens generalizing prev q with
  | nil => cases hq
  | cons x tokens ih =>
    have shift : ∀ {q}, (∃ r u, r < q ∧ tokens[r]? = some u ∧ u.kind = .arrow
        ∧ ∀ m w, r < m → m < q → tokens[m]? = some w → w.isTrivia) →
      ∃ r u, r < q + 1 ∧ (x :: tokens)[r]? = some u ∧ u.kind = .arrow
        ∧ ∀ m w, r < m → m < q + 1 → (x :: tokens)[m]? = some w → w.isTrivia := by
      rintro q ⟨r, u, hrq, hr, harrow, hbtw⟩
      refine ⟨r + 1, u, by omega, by rwa [getElem?_cons_succ], harrow, fun m w h₁ h₂ hw => ?_⟩
      obtain ⟨m, rfl⟩ : ∃ m', m = m' + 1 := ⟨m - 1, by omega⟩
      exact hbtw m w (by omega) (by omega) hw
    rw [significant_cons] at h
    by_cases htriv : x.isTrivia
    · rw [if_pos htriv] at h
      cases q with
      | zero =>
        cases hq
        rw [isTrivia_of_isMage hmage] at htriv
        cases htriv
      | succ q =>
        rw [getElem?_cons_succ] at hq
        rcases ih h hq with hin | ⟨harrow, hbtw⟩
        · exact .inl (shift hin)
        · refine .inr ⟨harrow, fun m w h₁ hw => ?_⟩
          cases m with
          | zero =>
            cases hw
            exact htriv
          | succ m => exact hbtw m w (by omega) hw
    · rw [if_neg htriv, magesSelected, Bool.and_eq_true] at h
      cases q with
      | zero =>
        cases hq
        rw [hmage, Bool.not_true, Bool.false_or, beq_iff_eq] at h
        exact .inr ⟨h.1, fun m w h₁ => by omega⟩
      | succ q =>
        rw [getElem?_cons_succ] at hq
        rcases ih h.2 hq with hin | ⟨harrow, hbtw⟩
        · exact .inl (shift hin)
        · -- the first token is the arrow
          refine .inl ⟨0, x, by omega, rfl, some.inj harrow, fun m w h₁ h₂ hw => ?_⟩
          obtain ⟨m, rfl⟩ : ∃ m', m = m' + 1 := ⟨m - 1, by omega⟩
          exact hbtw m w (by omega) hw

def QuietCalls (table : AliasTable) (s : TokenStream) : Prop := ∀ inv ∈ scan table s, CallTokens inv

section

variable {table : AliasTable} {s : TokenStream}

theorem callEdits_quiet (hquiet : QuietCalls table s) {e : Edit Token} (he : e ∈ callEdits table s) :
    ∃ code, generatedAt (callEdits table s) e.span.start = lexFragment code
      ∧ ((∃ inv ∈ scan table s, inv.span.start = e.span.start ∧ QuietCode headKinds code)
        ∨ QuietCode tailKinds code) := by
  have hgen := generatedAt_mem (callEdits_distinct table s) he
  obtain ⟨inv, hinv, c, hc, rfl⟩ := mem_callEdits he
  refine ⟨c.code, hgen, ?_⟩
  rcases Invocation.mem_codeEdits.mp hc with rfl | hc
  · exact .inl ⟨inv, hinv, rfl, (hquiet inv hinv).modern⟩
  · exact .inr ((hquiet inv hinv).further c hc)

theorem callEdits_leavesCode (hquiet : QuietCalls table s) : LeavesCode (callEdits table s) := by
  intro e he _
  obtain ⟨code, hgen, ⟨inv, -, -, hcode⟩ | hcode⟩ := callEdits_quiet hquiet he
  · rw [hgen]
    exact hcode.exists_code
  · rw [hgen]
    exact hcode.exists_code

theorem matchAt?_new (hquiet : QuietCalls table s) {other : AliasTable} (hp : p ≤ s.size)
    (hq : (generatedAt (callEdits table s) p)[q]? = some t) :
    matchAt? other (convertedStream table s) (s.offsetIn (callEdits table s) p + q) = none := by
  have hlt := lt_getElem? hq
  have hne : generatedAt (callEdits table s) p ≠ [] := fun hnil => by
    rw [hnil] at hlt
    exact Nat.not_lt_zero _ hlt
  obtain ⟨e, he, rfl⟩ := exists_generatedAt hne
  obtain ⟨code, hcode, hkinds⟩ := callEdits_quiet hquiet he
  have hsel : magesSelected none (significant (lexFragment code)) := by
    rw [lexFragment_code]
    rcases hkinds with ⟨inv, -, -, hquietCode⟩ | hquietCode
    · exact hquietCode.selected
    · exact hquietCode.selected
  cases hmatch : matchAt? other (convertedStream table s) (s.offsetIn (callEdits table s) e.span.start + q) with
  | none => rfl
  | some call =>
    obtain ⟨-, ⟨u, hu, hmage⟩, hmem, -⟩ := matchAt?_anatomy hmatch
    have htoken : (convertedStream table s).get? (s.offsetIn (callEdits table s) e.span.start + q) = some t :=
      (get?_woven_new hp hlt).trans hq
    rw [htoken] at hu
    cases hu
    -- the arrow in front of it makes it a member
    have hq' := hq
    rw [hcode] at hq'
    rcases magesSelected_spec hsel hq' hmage with ⟨r, u, hrq, hr, harrow, hbtw⟩ | ⟨hprev, -⟩
    · rw [← hcode] at hr hbtw
      have hsig : u.isTrivia = false := by
        rw [Token.isTrivia, harrow]
        rfl
      have hprev : (convertedStream table s).prevSignificant? (s.offsetIn (callEdits table s) e.span.start + q)
          = some (s.offsetIn (callEdits table s) e.span.start + r) := prev_new hp hq hr hrq hsig hbtw
      have hget : (convertedStream table s).get? (s.offsetIn (callEdits table s) e.span.start + r) = some u :=
        (get?_woven_new hp (lt_getElem? hr)).trans hr
      rw [isMember, hprev, bind_some, kind?_get? hget, harrow] at hmem
      cases hmem
    · cases hprev

/-! ## §3. Kept tokens. -/

theorem outside_of_kept (h : s.Kept (callEdits table s) i j) : OutsideHeads table s i := by
  intro inv hinv
  by_contra hin
  have hcov := covers_head hinv (show inv.span.start ≤ i by omega) (by omega)
  rw [KeptAt.kept h] at hcov
  cases hcov

theorem kept_of_covers (hi : i < s.size) (h : covers (callEdits table s) i = false) :
    s.Kept (callEdits table s) i (placeOf s.tokens.toList (callEdits table s) i) :=
  ⟨by rwa [Array.length_toList], h, rfl⟩

theorem generatedAt_trivia (ht : s.get? i = some t) (htriv : t.isTrivia) :
    generatedAt (callEdits table s) i = [] := by
  refine generatedAt_ne fun e he hstart => ?_
  obtain ⟨k, hk, hedited⟩ := callEdits_kind he
  have hkinds : ∀ k ∈ editedKinds, k.isTrivia = false := by decide
  rw [hstart, kind?_get? ht, some.injEq] at hk
  rw [Token.isTrivia, hk, hkinds k hedited] at htriv
  cases htriv

theorem Php.Kind.of_isName (h : k.isName) : k.isTrivia = false ∧ k ≠ .comma ∧ k.isCloser = false := by
  cases k <;> first | exact ⟨rfl, by decide, rfl⟩ | cases h

theorem generatedAt_name (h : s.Kept (callEdits table s) i j) (ht : s.get? i = some t)
    (hname : t.kind.isName) : generatedAt (callEdits table s) i = [] := by
  obtain ⟨-, hcomma, hcloser⟩ := Kind.of_isName hname
  exact (not_edited_outside (kind?_get? ht) (outside_of_kept h) hcomma hcloser).1

theorem not_edited_close (hout : OutsideHeads table s i) (hclose : s.matchingClose? i = some c) :
    generatedAt (callEdits table s) c = [] ∧ covers (callEdits table s) c = false := by
  obtain ⟨k, -, hk⟩ := opener_close hclose
  refine not_edited hk (marksAt_close hclose hk hout).1 ?_ fun inv hinv left hheadEnd hmatch => ?_
  · rintro rfl
    have := isCloser_of_close hclose hk
    cases this
  · -- the parenthesis of an argument list that is edited at its end is in a head
    obtain rfl := close_injective hclose hmatch
    have h₁ := hout inv hinv
    have h₂ := head_lt hinv
    omega

/-! ## §4. Balanced stretches between kept tokens. -/

theorem balanced_kinds (htab : table.WellFormed) {a b : Nat} (hab : a ≤ b) (hb : b ≤ s.size) (ha : CutsNoHead table s a)
    (hcut : CutsNoHead table s b) (hbal : Balanced (s.kindsIn a b)) :
    Balanced ((List.range' a (b - a)).flatMap fun i =>
      (pieceAt (callEdits table s) (s.get? i) i).map Token.kind) := by
  have hmarks := balanced_pieces htab hb b a (by omega) a b le_rfl hab le_rfl ha hcut hbal
  have hpcs : marksAt table s = fun i =>
      ((pieceAt (callEdits table s) (s.get? i) i).map Token.kind).flatMap Kind.marks := by
    funext i
    rw [marksAt, marksOf_eq]
  rw [marksIn, hpcs] at hmarks
  rw [← balanced_marks_iff, flatMap_assoc]
  exact hmarks

theorem balanced_between (htab : table.WellFormed) (hi : s.Kept (callEdits table s) i j)
    (hp : s.Kept (callEdits table s) p q) (hip : i < p) (hnone : generatedAt (callEdits table s) p = [])
    (hbal : Balanced (s.kindsIn (i + 1) p)) : Balanced ((convertedStream table s).kindsIn (j + 1) q) := by
  have hkinds : (convertedStream table s).kindsIn (j + 1) q = _ := Kept.kindsIn_between hi hp hip
  rw [hkinds, hnone, map_nil, append_nil]
  exact balanced_kinds htab hip hp.lt_size.le (outside_of_kept hi).cuts.2
    (outside_of_kept hp).cuts.1 hbal

theorem close_convert (htab : table.WellFormed) (h : s.Kept (callEdits table s) i j)
    (hclose : s.matchingClose? i = some c) : ∃ d, s.Kept (callEdits table s) c d
      ∧ (convertedStream table s).matchingClose? j = some d := by
  obtain ⟨k, hopen, hic, hk, hbal⟩ := close_iff.mp hclose
  obtain ⟨hnone, hcov⟩ := not_edited_close (outside_of_kept h) hclose
  have hc := kept_of_covers (lt_kind? hk) hcov
  refine ⟨_, hc, close_iff.mpr ⟨k, ?_, (KeptAt.lt_iff h hc).mp hic, ?_, ?_⟩⟩
  · obtain ⟨t, ht⟩ := get?_of_lt h.lt_size
    have hget : (convertedStream table s).get? j = some t := h.get?.trans ht
    rwa [kind?_get? hget, ← kind?_get? ht]
  · obtain ⟨t, ht, hkind⟩ := map_eq_some_iff.mp hk
    have hget : (convertedStream table s).get? _ = some t := hc.get?.trans ht
    rw [kind?_get? hget, hkind]
  · exact balanced_between htab h hc hic hnone hbal

/-! ## §5. Brackets that are never closed. -/

/-- The place in front of `p` is in the argument list of a converted call. -/
def InArguments (table : AliasTable) (s : TokenStream) (p : Nat) : Prop :=
  ∃ inv ∈ scan table s, ∃ left close, inv.headEnd = left + 1 ∧ s.matchingClose? left = some close ∧ left < p ∧ p ≤ close

/-- A place that cuts no head and is in no argument list of a converted call. -/
structure OutsideCalls (table : AliasTable) (s : TokenStream) (p : Nat) : Prop where
  cuts : CutsNoHead table s p
  arguments : ¬ InArguments table s p

theorem kindsIn_converted {a b : Nat} (hab : a ≤ b) (hb : b ≤ s.size + 1) :
    (s.woven (callEdits table s)).kindsIn (s.offsetIn (callEdits table s) a) (s.offsetIn (callEdits table s) b)
      = (List.range' a (b - a)).flatMap fun i => (pieceAt (callEdits table s) (s.get? i) i).map Token.kind :=
  kindsIn_woven hab hb

theorem OutsideCalls.succ {p : Nat} (h : OutsideCalls table s p) (hout : OutsideHeads table s p) :
    OutsideCalls table s (p + 1) := by
  refine ⟨hout.cuts.2, ?_⟩
  rintro ⟨inv, hinv, left, close, hheadEnd, hclose, hlt, hle⟩
  -- the list would begin right here, but its parenthesis is in a head
  have h₁ := hout inv hinv
  have h₂ := head_lt hinv
  exact h.arguments ⟨inv, hinv, left, close, hheadEnd, hclose, by omega, by omega⟩

theorem OutsideCalls.not_edited (h : OutsideCalls table s p) (hout : OutsideHeads table s p) :
    generatedAt (callEdits table s) p = [] ∧ covers (callEdits table s) p = false := by
  refine unedited fun e he hle hi => ?_
  obtain ⟨inv, hinv, c, hc, -, ⟨hspan, -⟩ | ⟨left, -, hheadEnd, hmatch⟩⟩ := edit_outside hout he hle hi
  · -- the comma of an argument list
    obtain ⟨left, close, commas, hheadEnd, hclose, htop, hcomma⟩ := (isCall_mem hinv).anatomy.tail_comma hc hspan
    have hbounds := topCommas?_spec htop hcomma
    exact h.arguments ⟨inv, hinv, left, close, hheadEnd, hclose, by omega, by omega⟩
  · have hlt := lt_close hmatch
    exact h.arguments ⟨inv, hinv, left, p, hheadEnd, hmatch, hlt.1, le_rfl⟩

theorem cutsNoHead_stop (hinv : inv ∈ scan table s) : CutsNoHead table s inv.span.stop := by
  cases (isCall_mem hinv).anatomy with
  | @closed path last mem follows headEnd stop =>
    rw [stop, ← headEnd]
    exact cutsNoHead_headEnd hinv
  | @opened left close commas follows closes top headEnd stop =>
    rw [stop]
    exact (outsideHeads_callClose hinv headEnd closes).cuts.2

theorem OutsideCalls.call (hinv : inv ∈ scan table s) (h : OutsideCalls table s inv.span.start) :
    inv.span.start < inv.span.stop ∧ inv.span.stop ≤ s.size ∧ OutsideCalls table s inv.span.stop := by
  have hcall := isCall_mem hinv
  have hhead := head_lt hinv
  have hstop := hcall.anatomy.headEnd_le_stop
  refine ⟨by omega, hcall.anatomy.stop_le_size hcall.start_lt_size, cutsNoHead_stop hinv, ?_⟩
  rintro ⟨b, hb, left', close', hheadEnd, hclose', hlt, hle'⟩
  have hb' := head_lt hb
  by_cases hbef : left' < inv.span.start
  · exact h.arguments ⟨b, hb, left', close', hheadEnd, hclose', hbef, by omega⟩
  · cases hcall.anatomy with
    | @closed path last mem follows headEnd stop =>
      rcases heads_apart hinv hb with rfl | hab | hba
      · -- the last token of the head opens nothing
        obtain rfl : left' = last := by omega
        obtain ⟨k, hopen, -⟩ := opener_close hclose'
        have hends : ∀ path ∈ closedPaths, path.getLast?.bind Kind.closer? = none := by decide
        rw [follows.kind_last (by rintro rfl; revert mem; decide), hends path mem] at hopen
        cases hopen
      · omega
      · omega
    | @opened left close commas follows closes top headEnd stop =>
      -- a list that begins inside the call ends inside it
      have hin : left ≤ left' := by
        rcases heads_apart hinv hb with rfl | hab | hba
        · omega
        · omega
        · omega
      by_cases hsame : left = left'
      · subst hsame
        rw [closes, some.injEq] at hclose'
        omega
      · obtain ⟨k, hopen', -⟩ := opener_close hclose'
        have hne : left' ≠ close := by
          rintro rfl
          obtain ⟨c, hk, hkclose⟩ := opener_close closes
          rw [kind_of_openPath follows] at hk
          cases hk
          rw [hkclose] at hopen'
          cases hopen'
        obtain ⟨d, hd, hdc⟩ := close_inside closes (show left < left' by omega) (by omega) hopen'
        rw [hclose', some.injEq] at hd
        omega

theorem passable_outsideCalls (htab : table.WellFormed) : Passable s (callEdits table s) (OutsideCalls table s) := by
  intro i hi hsize
  by_cases hstart : ∃ inv ∈ scan table s, inv.span.start = i
  · obtain ⟨inv, hinv, rfl⟩ := hstart
    obtain ⟨hlt, hstop, houtside⟩ := hi.call hinv
    refine .inr ⟨inv.span.stop, hlt, hstop, balanced_span hinv, ?_, houtside⟩
    rw [kindsIn_converted hlt.le (by omega)]
    exact balanced_kinds htab hlt.le hstop hi.cuts houtside.cuts (balanced_span hinv)
  · have hout : OutsideHeads table s i := hi.cuts.outside fun inv hinv heq => hstart ⟨inv, hinv, heq⟩
    obtain ⟨hnone, hcov⟩ := hi.not_edited hout
    refine .inl ⟨_, kept_of_covers hsize hcov, ?_, hi.succ hout⟩
    rw [hnone]
    exact balanced_nil

theorem close_convert_none (htab : table.WellFormed) (h : s.Kept (callEdits table s) i j)
    (hopen : s.matchingClose? i = none) : (convertedStream table s).matchingClose? j = none := by
  obtain ⟨t, ht⟩ := get?_of_lt h.lt_size
  by_cases hcloser : t.kind.closer? = none
  · -- the token is no bracket
    have hget : (convertedStream table s).get? j = some t := h.get?.trans ht
    rw [matchingClose?, kind?_get? hget]
    show t.kind.closer?.bind _ = none
    rw [hcloser]
    rfl
  obtain ⟨k, hk⟩ := ne_none_iff_exists'.mp hcloser
  have hout := outside_of_kept h
  have houtside : OutsideCalls table s (i + 1) := by
    refine ⟨hout.cuts.2, ?_⟩
    rintro ⟨inv, hinv, left, close, hheadEnd, hclose, hlt, hle⟩
    -- inside an argument list, the bracket would be closed
    have h₁ := hout inv hinv
    have h₂ := head_lt hinv
    obtain ⟨d, hd, -⟩ := close_inside hclose (show left < i by omega) (by omega)
      (show (s.kind? i).bind Kind.closer? = some k by rw [kind?_get? ht]; exact hk)
    rw [hopen] at hd
    cases hd
  have hsearch : (s.woven (callEdits table s)).matchingClose? j = _ :=
    Kept.matchingClose? (passable_outsideCalls htab) (generatedAt_size table s) h houtside
  rw [hopen] at hsearch
  exact hsearch

/-! ## §6. The surroundings of kept tokens. -/

theorem entry_convert (hquiet : QuietCalls table s) {n : Nat} (h : s.Kept (callEdits table s) i j)
    (hnext : (convertedStream table s).nextSignificant? (j + 1) = some n)
    (hnew : ∀ m, ¬ s.Kept (callEdits table s) m n) (ht : (convertedStream table s).get? n = some t) :
    t.kind ∉ linkKinds ∧ (t.kind = .identifier → (convertedStream table s).kind? j ≠ some .doubleColon
      ∧ (convertedStream table s).kind? j ≠ some .arrow) := by
  cases Kept.next (callEdits_leavesCode hquiet) h hnext with
  | kept here => exact absurd here (hnew _)
  | @new p u here _ le size first passed =>
    have hu : (convertedStream table s).get? n = some u := here
    rw [ht] at hu
    cases hu
    have hcode : firstCode (generatedAt (callEdits table s) p) = some t := by
      have := first
      split at this <;> exact this
    have hne : generatedAt (callEdits table s) p ≠ [] := fun hnil => by
      rw [hnil] at hcode
      cases hcode
    obtain ⟨e, he, rfl⟩ := exists_generatedAt hne
    obtain ⟨code, hgen, hkinds⟩ := callEdits_quiet hquiet he
    rw [hgen] at hcode
    rcases hkinds with ⟨inv, hinv, hstart, hquietCode⟩ | hquietCode
    · have hkind := hquietCode.firstCode hcode
      have hlinks : ∀ k ∈ headKinds, k ∉ linkKinds := by decide
      refine ⟨hlinks _ hkind, fun _ => ?_⟩
      -- the token in front of a call selects nothing
      obtain ⟨-, -, hmem, -⟩ := matchAt?_anatomy (isCall_mem hinv)
      have hsel : ∀ k, s.kind? i = some k → k = .doubleColon ∨ k = .arrow → False := by
        intro k hk hselector
        obtain ⟨u, hu, hkindU⟩ := map_eq_some_iff.mp hk
        have hsig : u.isTrivia = false := by
          rw [Token.isTrivia, hkindU]
          rcases hselector with rfl | rfl <;> rfl
        have hprev : s.prevSignificant? inv.span.start = some i := by
          rw [← hstart] at le size passed
          exact prev_of_triviaIn le size passed hu hsig
        rw [isMember, hprev, bind_some, hk] at hmem
        rcases hselector with rfl | rfl <;> cases hmem
      have hsame : (convertedStream table s).kind? j = s.kind? i :=
        ((weave_carries (callEdits_leavesCode hquiet)).kind_eq h).symm
      rw [hsame]
      exact ⟨fun hk => hsel _ hk (.inl rfl), fun hk => hsel _ hk (.inr rfl)⟩
    · have hkind := hquietCode.firstCode hcode
      have hlinks : ∀ k ∈ tailKinds, k ∉ linkKinds ∧ k ≠ .identifier := by decide
      exact ⟨(hlinks _ hkind).1, fun hname => absurd hname (hlinks _ hkind).2⟩

def selectors : List Kind := [.arrow, .nullsafeArrow, .doubleColon]

theorem selector_of_isMember (h : isMember v i) :
    ∃ p k, v.prevSignificant? i = some p ∧ v.kind? p = some k ∧ k ∈ selectors := by
  unfold isMember at h
  cases hprev : v.prevSignificant? i with
  | none =>
    rw [hprev] at h
    cases h
  | some p =>
    rw [hprev, bind_some] at h
    split at h
    · exact ⟨p, _, rfl, ‹_›, by decide⟩
    · exact ⟨p, _, rfl, ‹_›, by decide⟩
    · exact ⟨p, _, rfl, ‹_›, by decide⟩
    · cases h

theorem isMember_of_selector (hprev : v.prevSignificant? i = some p)
    (hk : v.kind? p = some k) (hsel : k ∈ selectors) : isMember v i := by
  rw [isMember, hprev, bind_some, hk]
  simp only [selectors, mem_cons, not_mem_nil, or_false] at hsel
  rcases hsel with rfl | rfl | rfl <;> rfl

theorem member_convert (h : s.Kept (callEdits table s) i j) (ht : s.get? i = some t)
    (hmage : isMage t) (hmem : isMember s i) : isMember (convertedStream table s) j := by
  obtain ⟨p, k, hprev, hk, hsel⟩ := selector_of_isMember hmem
  have hpi := lt_of_prev hprev
  have hname : t.kind.isName := by rcases isMage_kind hmage with hkind | hkind <;> rw [hkind] <;> rfl
  have hi := outside_of_kept h
  have hout : OutsideHeads table s p := by
    intro inv hinv
    by_contra hin
    -- in a head, the name behind a selector belongs to the head too
    have hcall := isCall_mem hinv
    obtain ⟨path, last, hpath, hfollows, hheadEnd⟩ := hcall.anatomy.head_path
    have hends : ∀ path ∈ headPaths, path ≠ [] ∧ ∀ k ∈ selectors,
        path.getLast? ≠ some k := by decide
    have hlast := hfollows.kind_last (hends path hpath).1
    have hne : p ≠ last := by
      rintro rfl
      rw [hk] at hlast
      exact (hends path hpath).2 k hsel hlast.symm
    obtain ⟨k', hk'⟩ : ∃ k', s.kind? last = some k' := by
      cases hkind : s.kind? last with
      | none =>
        rw [hkind] at hlast
        exact absurd (getLast?_eq_none_iff.mp hlast.symm) (hends path hpath).1
      | some k' => exact ⟨k', rfl⟩
    obtain ⟨u, hu, hkindU⟩ := map_eq_some_iff.mp hk'
    have hsig : u.isTrivia = false := by
      have hpaths : ∀ path ∈ headPaths, ∀ k, path.getLast? = some k → k.isTrivia = false := by decide
      rw [Token.isTrivia, hkindU]
      exact hpaths path hpath k' (hlast.symm.trans hk')
    have hlt : i ≤ last := by
      by_contra hgt
      obtain ⟨w, hw, htriv⟩ := prev_spec hprev last (by omega) (by omega) (lt_get? hu)
      rw [hu] at hw
      cases hw
      rw [hsig] at htriv
      cases htriv
    have := hi inv hinv
    omega
  have hkinds : ∀ k ∈ selectors, k ≠ .comma ∧ k.isCloser = false := by decide
  have hedited := not_edited_outside hk hout (hkinds k hsel).1 (hkinds k hsel).2
  have hp := kept_of_covers (lt_kind? hk) hedited.2
  have hprev' : (convertedStream table s).prevSignificant? j = some _ := hp.prev h hprev fun q hpq hqi => by
    by_cases hq : q = i
    · exact hq ▸ generatedAt_name h ht hname
    · have hsize := h.lt_size
      obtain ⟨w, hw, htriv⟩ := prev_spec hprev q hpq (by omega) (by omega)
      exact generatedAt_trivia hw htriv
  obtain ⟨u, hu, hkindU⟩ := map_eq_some_iff.mp hk
  have hget : (convertedStream table s).get? _ = some u := hp.get?.trans hu
  exact isMember_of_selector hprev' ((kind?_get? hget).trans (congrArg some hkindU)) hsel

theorem commas_convert (htab : table.WellFormed) (h : s.Kept (callEdits table s) i j)
    (hclose : s.matchingClose? i = some c) (hip : i < p) (hpc : p < c) (hk : s.kind? p = some .comma)
    (hbal : Balanced (s.kindsIn (i + 1) p)) :
    ∃ q, s.Kept (callEdits table s) p q ∧ Balanced ((convertedStream table s).kindsIn (j + 1) q) := by
  have hi := outside_of_kept h
  have hout : OutsideHeads table s p := outsideHeads_comma hk
  have hunedited := @Edit.unedited _ (callEdits table s) p fun e he hle hedit => by
    obtain ⟨inv, hinv, d, hd, -, ⟨hspan, -⟩ | ⟨left, -, -, hmatch⟩⟩ := edit_outside hout he hle hedit
    · obtain ⟨left, close, commas, hheadEnd, hclose', htop, hcomma⟩ := (isCall_mem hinv).anatomy.tail_comma hd hspan
      have hbounds := topCommas?_spec htop hcomma
      -- the comma is top-level in both lists, so they are the same
      rcases Nat.lt_trichotomy i left with hlt | rfl | hgt
      · obtain ⟨k, hopen, -⟩ := opener_close hclose'
        have hsize := lt_kind? hk
        obtain ⟨d, hd, hdp⟩ := exists_closer hsize.le hbal hlt (by omega) hopen
        rw [hclose', some.injEq] at hd
        omega
      · have h₁ := hi inv hinv
        have h₂ := head_lt hinv
        omega
      · have := topCommas?_outside htop hcomma hgt hip hclose
        omega
    · have := isCloser_of_close hmatch hk
      cases this
  have hp := kept_of_covers (lt_kind? hk) hunedited.2
  exact ⟨_, hp, balanced_between htab h hp hip hunedited.1 hbal⟩

theorem empty_convert {l l' c' : Nat} (hclose : s.matchingClose? l = some c)
    (hnext : s.nextSignificant? (l + 1) = some c) (hl : s.Kept (callEdits table s) l l')
    (hc : s.Kept (callEdits table s) c c') : (convertedStream table s).nextSignificant? (l' + 1) = some c' := by
  refine hl.next_eq hc hnext fun q hlq hqc => ?_
  by_cases hq : q = c
  · exact hq ▸ (not_edited_close (outside_of_kept hl) hclose).1
  · obtain ⟨-, -, hbef⟩ := next_spec hnext
    obtain ⟨w, hw, htriv⟩ := hbef q hlq (by omega)
    exact generatedAt_trivia hw htriv

theorem keepsCalls_convert (htab : table.WellFormed) (hquiet : QuietCalls table s) :
    KeepsCalls s (convertedStream table s) (s.Kept (callEdits table s)) where
  toCarries := weave_carries (callEdits_leavesCode hquiet)
  entry := entry_convert hquiet
  member := member_convert
  closes := fun {i j d} h hd => by
    cases hclose : s.matchingClose? i with
    | none =>
      rw [close_convert_none htab h hclose] at hd
      cases hd
    | some c =>
      obtain ⟨d', hc, hd'⟩ := close_convert htab h hclose
      rw [hd, some.injEq] at hd'
      exact ⟨c, rfl, hd' ▸ hc⟩
  commas := commas_convert htab
  empty := fun _ _ _ _ hclose hnext hl hc => empty_convert hclose hnext hl hc

end

end MageUplift
