import MageUplift.Proofs.LegibleInjection
import MageUplift.Proofs.ListedParameters
import MageUplift.Proofs.TranslatedExceptions

/-!
# Arguments stay single arguments

The commas of an argument list are counted in the file, before any call is replaced. The calls that are nested in an
argument bring brackets and commas of their own: a read of the store configuration names the scope, behind a comma.
But such a comma stands inside the parentheses of the nested call, and the code that is no argument list has none. So
what was one argument in the file is one argument in the converted stream (`oneItem_becomes`).

The recursion is that of a stretch of tokens: it begins with a call, with a bracket, or with a token that is neither,
and what follows is a stretch again.
-/

namespace MageUplift

open Php TokenStream Call Wiring Magento List Option

variable {i c a b : Nat} {inv : Invocation} {s : TokenStream} {commas : List Nat} {t : Token}

/-! ## §1. Cutting a list at its commas. -/

/-- The items from `a` up to `b`, which top-level commas separate. -/
def Php.TokenStream.itemsIn (s : TokenStream) (a b : Nat) : List (List Token) := itemsFrom 0 [] (s.tokensIn a b)

/-- The tokens from `start` up to `stop`, cut at the listed places, whose tokens are dropped. -/
def Php.TokenStream.cutAt (s : TokenStream) (stop start : Nat) : List Nat → List (List Token)
  | [] => [s.tokensIn start stop]
  | c :: cs => s.tokensIn start c :: s.cutAt stop (c + 1) cs

theorem length_cutAt (s : TokenStream) (stop : Nat) (cs : List Nat) :
    ∀ start, (s.cutAt stop start cs).length = cs.length + 1 := by
  induction cs with
  | nil => exact fun _ => rfl
  | cons c cs ih =>
    intro start
    show (s.cutAt stop (c + 1) cs).length + 1 = _
    rw [ih, length_cons]

theorem exists_bracket (h : s.matchingClose? i = some c) :
    ∃ o d, s.get? i = some o ∧ s.get? c = some d ∧ o.kind.closer? = some d.kind ∧ Balanced (s.kindsIn (i + 1) c) := by
  obtain ⟨k, hopen, hic, hkc, hbal⟩ := close_iff.mp h
  obtain ⟨o, ho⟩ := get?_of_lt (hic.trans (lt_kind? hkc))
  obtain ⟨d, hd⟩ := get?_of_lt (lt_kind? hkc)
  refine ⟨o, d, ho, hd, ?_, hbal⟩
  rw [kind?_get? ho, bind_some] at hopen
  rw [hopen, ← hkc, kind?_get? hd]

theorem oneItem_bracket (h : s.matchingClose? i = some c) : OneItem (s.tokensIn i (c + 1)) := by
  obtain ⟨o, d, ho, hd, hpair, hbal⟩ := exists_bracket h
  have hic := (lt_close h).1
  rw [tokensIn_cons ho (by omega), tokensIn_append s hic c.le_succ,
    tokensIn_cons hd c.lt_succ_self, tokensIn_self]
  refine OneItem.bracket hpair ?_
  rwa [map_kind_tokensIn]

theorem itemsFrom_eq_cutAt {stop : Nat} (hstop : stop ≤ s.size) (hi : i ≤ stop)
    (hbal : Balanced (s.kindsIn i stop)) (h : topCommas? s stop i = some commas) {start : Nat} (hstart : start ≤ i) :
    itemsFrom 0 (s.tokensIn start i) (s.tokensIn i stop) = s.cutAt stop start commas := by
  fun_induction topCommas? s stop i generalizing commas start with
  | case1 | case2 => cases h
  | case3 i hlt k hk hopen close hclose ih =>
    -- a bracket is passed as a whole
    have hds := close_lt_balanced hstop hlt hbal hclose
    have hic := (lt_close hclose).1
    rw [tokensIn_append s (show i ≤ close + 1 by omega) hds, oneItem_bracket hclose,
      ← tokensIn_append s hstart (show i ≤ close + 1 by omega)]
    exact ih hds ((balanced_behind hclose hds).2 hbal) h (by omega)
  | case4 i hlt k hk hopen ih =>
    obtain ⟨rest, hrest, rfl⟩ := map_eq_some_iff.mp h
    obtain ⟨t, ht, rfl⟩ := map_eq_some_iff.mp hk
    have hplain := isPlain_balanced hk hlt hbal hopen
    have hbehind := balanced_tail hk hlt hplain hbal
    rw [tokensIn_cons ht hlt]
    by_cases hcomma : t.kind = .comma
    · -- the next item begins behind the comma
      have hnext := ih hlt hbehind hrest le_rfl
      rw [tokensIn_self] at hnext
      rw [if_pos hcomma, itemsFrom_comma hcomma, hnext]
      rfl
    · have hone : s.tokensIn start i ++ [t] = s.tokensIn start (i + 1) := by
        rw [tokensIn_append s hstart i.le_succ, tokensIn_cons ht i.lt_succ_self, tokensIn_self]
      rw [if_neg hcomma, itemsFrom_plain hplain fun hc => hcomma hc.1, hone]
      exact ih hlt hbehind hrest (by omega)
  | case5 i hge =>
    cases h
    obtain rfl : i = stop := by omega
    rw [tokensIn_self]
    rfl

theorem itemsIn_eq_cutAt (hb : b ≤ s.size) (hab : a ≤ b)
    (hbal : Balanced (s.kindsIn a b)) (h : topCommas? s b a = some commas) : s.itemsIn a b = s.cutAt b a commas := by
  have hitems := itemsFrom_eq_cutAt hb hab hbal h le_rfl
  rwa [tokensIn_self] at hitems

section

variable {table : AliasTable} {s : TokenStream}

/-! ## §2. Stretches that are one item. -/

/-- The tokens from `a` up to `b` are balanced and have no comma outside of brackets. -/
structure IsItem (table : AliasTable) (s : TokenStream) (a b : Nat) : Prop where
  le : a ≤ b
  size : b ≤ s.size
  starts : CutsNoHead table s a
  ends : CutsNoHead table s b
  balanced : Balanced (s.kindsIn a b)
  noComma : ∀ m, a ≤ m → m < b → s.kind? m = some .comma → ¬ Balanced (s.kindsIn a m)

theorem IsItem.behind (h : IsItem table s a b) (hac : a ≤ c) (hcb : c ≤ b) (hcut : CutsNoHead table s c)
    (hbal : Balanced (s.kindsIn a c)) : IsItem table s c b := by
  refine ⟨hcb, h.size, hcut, h.ends, ?_, fun m hcm hmb hk hm => h.noComma m (by omega) hmb hk ?_⟩
  · have hall := h.balanced
    rw [kindsIn_append s hac hcb] at hall
    exact hall.of_append hbal
  · rw [kindsIn_append s hac hcm]
    exact hbal.append hm

theorem isItem_of_no_commas (hab : a ≤ b) (hb : b ≤ s.size) (hstarts : CutsNoHead table s a)
    (hends : CutsNoHead table s b) (hbal : Balanced (s.kindsIn a b)) (h : topCommas? s b a = some []) :
    IsItem table s a b := by
  refine ⟨hab, hb, hstarts, hends, hbal, fun m ham hmb hk hm => ?_⟩
  have hmem := (mem_topCommas?_iff hb hbal h).mpr ⟨ham, hmb, hk, hm⟩
  cases hmem

theorem isItem_of_comma (hb : b ≤ s.size) (hstarts : CutsNoHead table s a)
    (hends : CutsNoHead table s b) (hbal : Balanced (s.kindsIn a b)) (h : topCommas? s b a = some [c]) :
    IsItem table s a c ∧ IsItem table s (c + 1) b := by
  have hmem := fun m => @mem_topCommas?_iff s b a m [c] hb hbal h
  obtain ⟨hac, hcb, hk, hbef⟩ := (hmem c).mp mem_cons_self
  have hcuts := (@outsideHeads_comma table s c hk).cuts
  have hcomma : Balanced (s.kindsIn a (c + 1)) := by
    rw [kindsIn_snoc hk hac]
    exact hbef.append rfl
  constructor
  · refine ⟨hac, by omega, hstarts, hcuts.1, hbef, fun m ham hmc hkm hm => ?_⟩
    have := mem_singleton.mp ((hmem m).mpr ⟨ham, by omega, hkm, hm⟩)
    omega
  · refine ⟨hcb, hb, hcuts.2, hends, ?_, fun m hcm hmb hkm hm => ?_⟩
    · rw [kindsIn_append s (show a ≤ c + 1 by omega) hcb] at hbal
      exact hbal.of_append hcomma
    · have hall : Balanced (s.kindsIn a m) := by
        rw [kindsIn_append s (show a ≤ c + 1 by omega) hcm]
        exact hcomma.append hm
      have := mem_singleton.mp ((hmem m).mpr ⟨by omega, hmb, hkm, hall⟩)
      omega

theorem IsItem.stop_le (h : IsItem table s a b) (hinv : inv ∈ scan table s)
    (ha : a ≤ inv.span.start) (hb : inv.span.start < b) : inv.span.stop ≤ b := by
  have hend : inv.headEnd ≤ b := by
    have := h.ends inv hinv
    omega
  cases (isCall_mem hinv).anatomy with
  | closed _ _ headEnd stop => omega
  | @opened left close _ follows closes _ headEnd stop =>
    -- its parenthesis is closed before the item ends
    have hle := follows.le
    obtain ⟨k, hopen, -⟩ := opener_close closes
    obtain ⟨d, hd, hdb⟩ := exists_closer h.size h.balanced (show a ≤ left by omega) (by omega) hopen
    rw [closes, some.injEq] at hd
    omega

/-! ## §3. What becomes of a stretch. -/

/-- What becomes of the tokens from `a` up to `b`. -/
def becomes (table : AliasTable) (s : TokenStream) (a b : Nat) : List Token :=
  (convertedStream table s).tokensIn (convertedOffset table s a) (convertedOffset table s b)

@[simp] theorem becomes_self (a : Nat) : becomes table s a a = [] := tokensIn_self _ _

theorem becomes_append (hab : a ≤ b) (hbc : b ≤ c) : becomes table s a c = becomes table s a b ++ becomes table s b c :=
  tokensIn_append _ (Edit.offsetOf_mono hab) (Edit.offsetOf_mono hbc)

theorem becomes_eq_flatMap (hab : a ≤ b) (hb : b ≤ s.size) :
    becomes table s a b = (List.range' a (b - a)).flatMap fun i => Edit.pieceAt (callEdits table s) (s.get? i) i :=
  tokensIn_woven hab (by omega)

theorem becomes_succ (hi : i < s.size) : becomes table s i (i + 1) = Edit.pieceAt (callEdits table s) (s.get? i) i :=
  tokensIn_piece hi.le

theorem becomes_kept (ht : s.get? i = some t) (hcov : Edit.covers (callEdits table s) i = false) :
    becomes table s i (i + 1) = Edit.generatedAt (callEdits table s) i ++ [t] := by
  rw [becomes_succ (lt_get? ht), Edit.pieceAt, hcov, ht]
  rfl

theorem becomes_unedited (ht : s.get? i = some t)
    (h : Edit.generatedAt (callEdits table s) i = [] ∧ Edit.covers (callEdits table s) i = false) :
    becomes table s i (i + 1) = [t] := by
  rw [becomes_kept ht h.2, h.1, nil_append]

theorem becomes_head (hinv : inv ∈ scan table s) :
    becomes table s inv.span.start inv.headEnd = lexFragment inv.modern := by
  have hsize := (isCall_mem hinv).start_lt_size
  have hplace : Edit.placeOf s.tokens.toList (callEdits table s) inv.span.start
      = s.offsetIn (callEdits table s) inv.headEnd := by
    rw [Edit.placeOf, generatedAt_head hinv, offsetIn_headEnd hinv]
    rfl
  have hnew := @tokensIn_new s (callEdits table s) inv.span.start hsize.le
  rwa [hplace, generatedAt_head hinv] at hnew

theorem balanced_becomes (htab : table.WellFormed) (hab : a ≤ b) (hb : b ≤ s.size)
    (hstarts : CutsNoHead table s a) (hends : CutsNoHead table s b) (hbal : Balanced (s.kindsIn a b)) :
    Balanced ((becomes table s a b).map Token.kind) := by
  rw [becomes_eq_flatMap hab hb, map_flatMap]
  exact balanced_kinds htab hab hb hstarts hends hbal

/-! ## §4. Calls. -/

theorem lexFragment_no_comma {code : String} {ks : List Kind} (hinert : InertText code.toList ks)
    (h : ',' ∉ code.toList) : ∀ t ∈ lexFragment code, t.kind ≠ .comma := by
  intro t ht hkind
  obtain ⟨i, hi⟩ := mem_iff_getElem?.mp ht
  have hread := (lexFragment_legible hinert).read_at hi (by rw [hkind]; decide)
  obtain ⟨c, htext, hmark⟩ := hread.mark (by rw [hkind]; decide)
  obtain rfl : c = ',' := by
    rw [hkind] at hmark
    unfold soleMark? at hmark
    split at hmark <;> first | rfl | cases hmark
  -- the text of the token is part of the code
  refine h ?_
  rw [← chars_fragment, charsOf, mem_flatMap]
  exact ⟨t, ht, by rw [htext]; exact mem_cons_self⟩

theorem modern_no_comma (htab : table.WellFormed) (hinv : inv ∈ scan table s) :
    ∀ t ∈ lexFragment inv.modern, t.kind ≠ .comma := by
  have hcall := isCall_mem hinv
  obtain ⟨ks, ls, hcode⟩ := matchAt?_code htab hcall
  refine lexFragment_no_comma hcode.modern ?_
  cases matchAt?_form hcall with
  | property v target modern mem _ collaborator _ =>
    have htargets : ∀ target ∈ propertyTargets, ',' ∉ target.toList := by decide
    rw [modern, Collaborator.property, String.toList_append, String.toList_append, mem_append, mem_append]
    rintro ((hthis | hname) | htarget)
    · revert hthis
      decide
    · have := (hcode.collaborator v collaborator).name ',' hname
      revert this
      decide
    · exact htargets target mem htarget
  | storeConfig target _ modern mem _ _ _ _ =>
    have htargets : ∀ target ∈ ["->getValue(", "->isSetFlag("], ',' ∉ (scopeConfig.property ++ target).toList := by
      decide
    rw [modern]
    exact htargets target mem
  | translation modern _ _ | exception modern _ _ _ | plainException _ modern _ _ _ _ =>
    rw [modern]
    decide

theorem OpensArguments.further_kinds {left close : Nat} (h : OpensArguments table s inv left close) :
    Balanced ((Edit.generatedAt (callEdits table s) close).map Token.kind)
      ∨ expectedAfter [] ((lexFragment inv.modern).map Token.kind) = some [.rightParen, .rightParen]
        ∧ (Edit.generatedAt (callEdits table s) close).map Token.kind = [.rightParen] := by
  rcases h.generatedAt_close with hnone | ⟨c, hc, hspan, hgen⟩
  · left
    rw [hnone]
    exact balanced_nil
  · rw [hgen]
    cases matchAt?_form (isCall_mem h.mem) with
    | property _ _ _ _ _ _ tail | translation _ _ tail | exception _ _ _ tail =>
      rw [hc] at tail
      cases tail
    | storeConfig _ e _ _ _ _ tail code =>
      left
      rw [hc, some.injEq] at tail
      subst tail
      have hcode : c.code = ", " ++ scopeStore := by
        rcases code with ⟨-, hcode⟩ | ⟨hempty, -⟩
        · exact hcode
        · rw [hspan, Span.isEmpty, Span.empty, beq_self_eq_true] at hempty
          cases hempty
      rw [hcode]
      unfold Php.Balanced
      decide +kernel
    | plainException e modern _ _ tail code =>
      right
      rw [hc, some.injEq] at tail
      subst tail
      rw [modern, code.2, lexFragment_translated, lexFragment_rightParen]
      exact ⟨rfl, rfl⟩

theorem oneItem_call (htab : table.WellFormed) (hinv : inv ∈ scan table s) :
    OneItem (becomes table s inv.span.start inv.span.stop) := by
  have hcall := isCall_mem hinv
  have hhead := head_lt hinv
  have hstop := hcall.anatomy.headEnd_le_stop
  have hsize := hcall.anatomy.stop_le_size hcall.start_lt_size
  have hcut : CutsNoHead table s inv.span.start := by
    intro b hb
    rcases heads_apart hinv hb with rfl | hab | hba
    · exact .inl le_rfl
    · left
      omega
    · exact .inr hba
  have hbal := balanced_becomes htab (show inv.span.start ≤ inv.span.stop by omega) hsize hcut (cutsNoHead_stop hinv)
    (balanced_span hinv)
  have hcomma := modern_no_comma htab hinv
  cases hcall.anatomy with
  | @closed path last mem follows headEnd stop =>
    rw [stop, ← headEnd, becomes_head hinv] at hbal ⊢
    exact .of_no_comma hbal hcomma
  | @opened left close commas follows closes top headEnd stop =>
    have hopens : OpensArguments table s inv left close := ⟨hinv, headEnd, kind_of_openPath follows, closes⟩
    have hlc := (lt_close closes).1
    obtain ⟨d, hd, hdkind⟩ := map_eq_some_iff.mp hopens.kind_close
    have hargs : Balanced ((becomes table s inv.headEnd close).map Token.kind) := by
      rw [headEnd, becomes, map_kind_tokensIn]
      exact hopens.balanced_arguments htab
    rw [stop, becomes_append hhead.le (show inv.headEnd ≤ close + 1 by omega), becomes_head hinv,
      becomes_append (show inv.headEnd ≤ close by omega) close.le_succ,
      becomes_kept hd (not_covered_callClose hinv headEnd closes hopens.kind_close),
      ← append_assoc (becomes _ _ _ _)] at hbal ⊢
    have hdcloser : d.kind.isCloser := by
      rw [hdkind]
      rfl
    rcases hopens.further_kinds with hfurther | ⟨htwo, hfurther⟩
    · -- the last parenthesis closes all that the head opens, so the head opens just one
      refine @OneItem.opened _ _ d [] .rightParen hcomma ?_ ?_ hdcloser
      · unfold Php.Balanced at hbal
        rw [map_append, expected_append] at hbal
        obtain ⟨after, hafter, hbal⟩ := bind_eq_some_iff.mp hbal
        rw [map_append, map_append, expected_append, expected_append, hargs.expectedAfter,
          bind_some, hfurther.expectedAfter, bind_some, map_cons, map_nil] at hbal
        obtain ⟨below, rfl, hbelow⟩ := (expected_closer_iff hdcloser).mp hbal
        cases hbelow
        rw [hafter, hdkind]
        rfl
      · rw [map_append]
        exact hargs.append hfurther
    · refine @OneItem.opened _ _ d [.rightParen] .rightParen hcomma htwo ?_ hdcloser
      rw [map_append, expected_append, hargs.expectedAfter, bind_some, hfurther]
      rfl

/-! ## §5. Items. -/

theorem oneItem_becomes_bracket (htab : table.WellFormed) (hout : OutsideHeads table s i)
    (h : s.matchingClose? i = some c) : OutsideHeads table s c ∧ OneItem (becomes table s i (c + 1)) := by
  obtain ⟨o, d, ho, hd, hpair, hbal⟩ := exists_bracket h
  obtain ⟨hic, hsize⟩ := lt_close h
  have hopen : o.kind ≠ .comma ∧ o.kind.isCloser = false := by
    refine ⟨fun hk => ?_, Bool.eq_false_iff.mpr fun hk => ?_⟩
    · rw [hk] at hpair
      cases hpair
    · rw [Kind.closer?_of_isCloser hk] at hpair
      cases hpair
  have houtC := (marksAt_close h (kind?_get? hd) hout).1
  refine ⟨houtC, ?_⟩
  rw [becomes_append i.le_succ (show i + 1 ≤ c + 1 by omega), becomes_append hic c.le_succ,
    becomes_unedited ho (not_edited_outside (kind?_get? ho) hout hopen.1 hopen.2),
    becomes_unedited hd (not_edited_close hout h)]
  exact .bracket hpair (balanced_becomes htab hic hsize.le hout.cuts.2 houtC.cuts.1 hbal)

theorem oneItem_becomes (htab : table.WellFormed) (h : IsItem table s a b) : OneItem (becomes table s a b) := by
  -- one call, bracket or token at a time, from the front
  induction hn : b - a using Nat.strongRecOn generalizing a with
  | ind n ih =>
    by_cases hend : a = b
    · subst hend
      rw [becomes_self]
      exact .nil
    · have hle := h.le
      have hlt : a < b := by omega
      have hsize := h.size
      by_cases hstart : ∃ inv ∈ scan table s, inv.span.start = a
      · obtain ⟨inv, hinv, rfl⟩ := hstart
        have hstop := h.stop_le hinv le_rfl hlt
        have hpos := head_lt hinv
        have hspan := (isCall_mem hinv).anatomy.headEnd_le_stop
        have hrest := h.behind (by omega) hstop (cutsNoHead_stop hinv) (balanced_span hinv)
        rw [becomes_append (show inv.span.start ≤ inv.span.stop by omega) hstop]
        exact (oneItem_call htab hinv).append (ih _ (by omega) hrest rfl)
      · have hout := h.starts.outside fun inv hinv heq => hstart ⟨inv, hinv, heq⟩
        obtain ⟨t, ht⟩ := get?_of_lt (hlt.trans_le hsize)
        have hk := kind?_get? ht
        by_cases hopen : t.kind.isOpener
        · obtain ⟨c, hclose, hcb⟩ := close_of_isOpener hsize hlt h.balanced hk hopen
          obtain ⟨houtC, hone⟩ := oneItem_becomes_bracket htab hout hclose
          have hac := (lt_close hclose).1
          have hrest := h.behind (by omega) hcb houtC.cuts.2 (balanced_behind hclose hcb).1
          rw [becomes_append (show a ≤ c + 1 by omega) hcb]
          exact hone.append (ih _ (by omega) hrest rfl)
        · have hplain := isPlain_balanced hk hlt h.balanced hopen
          have hcomma : t.kind ≠ .comma := by
            intro hcomma
            refine h.noComma a le_rfl hlt (hcomma ▸ hk) ?_
            rw [kindsIn_self]
            exact balanced_nil
          have hunedited := not_edited_outside hk hout hcomma (Kind.isPlain_iff.mp hplain).2
          have hone : Balanced (s.kindsIn a (a + 1)) := by
            rw [kindsIn_cons hk a.lt_succ_self, kindsIn_self]
            exact balanced_nil.cons_plain hplain
          have hrest := h.behind a.le_succ hlt hout.cuts.2 hone
          rw [becomes_append a.le_succ hlt, becomes_unedited ht hunedited]
          exact (OneItem.plain hplain hcomma).append (ih _ (by omega) hrest rfl)

end

end MageUplift
