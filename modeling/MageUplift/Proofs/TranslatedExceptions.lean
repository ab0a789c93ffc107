import MageUplift.Proofs.CodeStretches
import MageUplift.Proofs.ConvertedCalls

/-!
# Exceptions are translated once

The message of a raised exception is put into a call of `__`, unless the argument is such a call already. The decision
is made when the outer call is recognised, and relies on the scan to replace a `Mage::helper('x')->__` inside by `__`.
For the two spellings of the function this works out: the message of the converted call is one call of `__`, which
fills the argument list.

The decision looks at the form `Mage::…('x')->__` only, not at the method. With a method other than `helper` the
argument is taken for a translation, but nothing makes it one (`convertCalls_leaves_untranslated`).
-/

namespace MageUplift

open Php TokenStream Call Magento List Option Edit

variable {t : Token} {i first method a b last : Nat} {inv : Invocation}

/-! ## §1. Places of the converted stream. -/

section

variable {table : AliasTable} {s : TokenStream}

theorem offsetIn_headEnd (h : inv ∈ scan table s) :
    s.offsetIn (callEdits table s) inv.headEnd
      = s.offsetIn (callEdits table s) inv.span.start + (lexFragment inv.modern).length := by
  have hlt := head_lt h
  have hin : ∀ n, inv.span.start + 1 + n ≤ inv.headEnd →
      s.offsetIn (callEdits table s) (inv.span.start + 1 + n)
        = s.offsetIn (callEdits table s) inv.span.start + (lexFragment inv.modern).length := by
    intro n
    induction n with
    | zero =>
      intro _
      rw [Nat.add_zero, offsetIn, offsetOf_succ, pieceAt, generatedAt_head h,
        covers_head h le_rfl hlt, if_pos rfl, append_nil]
      rfl
    | succ n ih =>
      intro hle
      rw [← Nat.add_assoc, offsetIn, offsetOf_succ, pieceAt_in_head h (by omega) (by omega), length_nil,
        Nat.add_zero]
      exact ih (by omega)
  have hlast := hin (inv.headEnd - (inv.span.start + 1)) (by omega)
  rwa [show inv.span.start + 1 + (inv.headEnd - (inv.span.start + 1)) = inv.headEnd by omega] at hlast

theorem get?_head (h : inv ∈ scan table s) {q : Nat} (hq : (lexFragment inv.modern)[q]? = some t) :
    (convertedStream table s).get? (s.offsetIn (callEdits table s) inv.span.start + q) = some t := by
  have hsize := (isCall_mem h).start_lt_size
  have hlen : q < (generatedAt (callEdits table s) inv.span.start).length := by
    rw [generatedAt_head h]
    exact lt_getElem? hq
  rw [← hq, ← generatedAt_head h]
  exact get?_woven_new hsize.le hlen

theorem kept_of_not_edited (hi : i < s.size)
    (h : generatedAt (callEdits table s) i = [] ∧ covers (callEdits table s) i = false) :
    s.Kept (callEdits table s) i (s.offsetIn (callEdits table s) i) := by
  refine ⟨by rwa [Array.length_toList], h.2, ?_⟩
  rw [placeOf, h.1, length_nil, Nat.add_zero]
  rfl

theorem kept_outside {k : Kind} (hk : s.kind? i = some k) (hout : OutsideHeads table s i) (hcomma : k ≠ .comma)
    (hcloser : k.isCloser = false) : s.Kept (callEdits table s) i (s.offsetIn (callEdits table s) i) :=
  kept_of_not_edited (lt_kind? hk) (not_edited_outside hk hout hcomma hcloser)

theorem CutsNoHead.trivia (h : CutsNoHead table s a) (htrivia : s.TriviaIn a b) (hab : a ≤ b) :
    CutsNoHead table s b := by
  intro inv hinv
  rcases h inv hinv with hstart | hend
  · refine .inl (Nat.le_of_not_lt fun hlt => ?_)
    obtain ⟨t, ht, hmage⟩ := (isCall_mem hinv).isMage
    have htriv := htrivia.isTrivia hstart hlt ht
    rw [isTrivia_of_isMage hmage] at htriv
    cases htriv
  · exact .inr (hend.trans hab)

theorem CutsNoHead.outside_of_not_mage (h : CutsNoHead table s i) (ht : s.get? i = some t)
    (hmage : isMage t = false) : OutsideHeads table s i := by
  refine h.outside fun inv hinv hstart => ?_
  obtain ⟨t', ht', hmage'⟩ := (isCall_mem hinv).isMage
  rw [hstart, ht, some.injEq] at ht'
  rw [← ht', hmage] at hmage'
  cases hmage'

theorem isName_of_isMage (h : isMage t) : t.kind.isName := by
  rcases isMage_kind h with hk | hk <;> rw [hk] <;> rfl

theorem next_convert_trivia (hcut : CutsNoHead table s a) (htrivia : s.TriviaIn a b) (hab : a ≤ b) :
    (convertedStream table s).nextSignificant? (s.offsetIn (callEdits table s) a)
      = (convertedStream table s).nextSignificant? (s.offsetIn (callEdits table s) b) := by
  induction hn : b - a generalizing a with
  | zero =>
    obtain rfl : a = b := by omega
    rfl
  | succ n ih =>
    obtain ⟨t, ht, htriv⟩ := htrivia a le_rfl (by omega)
    have hplain := Kind.isPlain_iff.mp (Kind.isPlain_trivia htriv)
    have hmage : isMage t = false := by
      refine Bool.eq_false_iff.mpr fun hmage => ?_
      rw [isTrivia_of_isMage hmage] at htriv
      cases htriv
    have hcomma : t.kind ≠ .comma := by
      intro hkind
      rw [Token.isTrivia, hkind] at htriv
      cases htriv
    have hkept := kept_outside (kind?_get? ht) (hcut.outside_of_not_mage ht hmage) hcomma hplain.2
    have hget : (convertedStream table s).get? (s.offsetIn (callEdits table s) a) = some t := hkept.get?.trans ht
    have hnext : s.offsetIn (callEdits table s) (a + 1) = s.offsetIn (callEdits table s) a + 1 :=
      KeptAt.offsetOf_succ hkept
    have hrest := ih (hcut.trivia (fun m h₁ h₂ => htrivia m h₁ (by omega)) a.le_succ)
      (fun m h₁ h₂ => htrivia m (by omega) h₂) (by omega) (by omega)
    rw [← hrest, hnext, nextSignificant?, findFrom?_of_get? hget, htriv, if_neg (by decide)]
    rfl

theorem next_convert (hcut : CutsNoHead table s a) (hnext : s.nextSignificant? a = some b)
    (ht : (convertedStream table s).get? (s.offsetIn (callEdits table s) b) = some t) (hsig : t.isTrivia = false) :
    (convertedStream table s).nextSignificant? (s.offsetIn (callEdits table s) a)
      = some (s.offsetIn (callEdits table s) b) := by
  obtain ⟨hab, -, htriv⟩ := next_spec hnext
  rw [next_convert_trivia hcut htriv hab]
  exact next_eq_some le_rfl ht hsig fun m h₁ h₂ => by omega

end

/-! ## §2. Arguments that are taken for translations. -/

/-- `Mage::method('x')->__` stands from `first` to `last`; the name of the method is the token at `method`. -/
structure SelectsTranslation (s : TokenStream) (first method last : Nat) : Prop where
  head : head? s first = some ⟨first, method⟩
  member : ∃ arg arrow, literalArgument? s method = some arg ∧ s.followedBy? arg.close .arrow = some arrow
    ∧ s.followedBy? arrow .identifier = some last
  name : s.text last = "__"

/-- Between the parentheses at `left` and `close` stands one call, whose function is named from `first` to `last`. -/
structure FillsArguments (s : TokenStream) (left close first last : Nat) : Prop where
  starts : s.nextSignificant? (left + 1) = some first
  ends : ∃ open' close', s.followedBy? last .leftParen = some open' ∧ s.matchingClose? open' = some close'
    ∧ s.nextSignificant? (close' + 1) = some close

/-- The argument is a call of `__`, or of `__` on a helper. -/
def IsTranslation (s : TokenStream) (left close : Nat) : Prop :=
  ∃ first last, FillsArguments s left close first last
    ∧ ((last = first ∧ ∃ t, s.get? first = some t ∧ t.isWord "__" = true)
      ∨ ∃ method, SelectsTranslation s first method last ∧ sameWord "helper" (s.text method) = true)

/-- The argument is a call of `__` on what another method of `Mage` answers. -/
def IsForeignTranslation (s : TokenStream) (left close : Nat) : Prop :=
  ∃ first last method, FillsArguments s left close first last ∧ SelectsTranslation s first method last
    ∧ sameWord "helper" (s.text method) = false

section

variable {s : TokenStream}

theorem not_isMage_of_isWord (h : t.isWord "__") : isMage t = false := by
  refine Bool.eq_false_iff.mpr fun hmage => ?_
  obtain ⟨-, htext⟩ := Bool.and_eq_true_iff.mp h
  have hlower : t.text.toLower = "__".toLower := beq_iff_eq.mp htext
  unfold isMage at hmage
  split at hmage
  · have hother : t.text.toLower = "Mage".toLower := beq_iff_eq.mp hmage
    rw [hlower] at hother
    revert hother
    decide +kernel
  · have hother : t.text.toLower = "\\Mage".toLower := beq_iff_eq.mp hmage
    rw [hlower] at hother
    revert hother
    decide +kernel
  · cases hmage

theorem SelectsTranslation.matches {left : Nat} (h : SelectsTranslation s first method last)
    (hleft : s.followedBy? last .leftParen = some left) :
    ∃ inv, matchHelperTranslate? s ⟨first, method⟩ = some inv ∧ inv.span = ⟨first, last + 1⟩
      ∧ inv.headEnd = last + 1 ∧ inv.modern = "__" ∧ inv.collaborator = none := by
  obtain ⟨arg, arrow, harg, harrow, hlast⟩ := h.member
  refine ⟨⟨.helperTranslate, ⟨first, last + 1⟩, last + 1, "Mage::helper('" ++ arg.value ++ "')->__", "__", none, "__",
    none⟩,
    ?_, rfl, rfl, rfl, rfl⟩
  unfold matchHelperTranslate?
  simp only [harg, harrow, hlast, h.name, hleft, bind_eq_bind, bind_some, if_true]
  rfl

theorem selectsTranslation_of_match (hhead : head? s first = some ⟨first, method⟩)
    (h : matchHelperTranslate? s ⟨first, method⟩ = some inv) :
    ∃ last, SelectsTranslation s first method last ∧ inv.span.stop = last + 1 := by
  unfold matchHelperTranslate? at h
  obtain ⟨arg, harg, h⟩ := bind_eq_some_iff.mp h
  obtain ⟨arrow, harrow, h⟩ := bind_eq_some_iff.mp h
  obtain ⟨last, hlast, h⟩ := bind_eq_some_iff.mp h
  split at h
  · rename_i hname
    obtain ⟨left, -, h⟩ := bind_eq_some_iff.mp h
    cases h
    exact ⟨last, ⟨hhead, ⟨arg, arrow, harg, harrow, hlast⟩, hname⟩, rfl⟩
  · cases h

theorem localizedEnd?_eq_some {stop : Nat} (h : localizedEnd? s i = some stop) : ∃ last, stop = last + 1
      ∧ ((last = i ∧ ∃ t, s.get? i = some t ∧ t.isWord "__") ∨ ∃ method, SelectsTranslation s i method last) := by
  unfold localizedEnd? at h
  obtain ⟨t, ht, h⟩ := bind_eq_some_iff.mp h
  split at h
  · rename_i hword
    cases h
    exact ⟨i, rfl, .inl ⟨rfl, t, ht, hword⟩⟩
  · obtain ⟨head, hhead, h⟩ := bind_eq_some_iff.mp h
    obtain ⟨inv, hinv, h⟩ := bind_eq_some_iff.mp h
    cases h
    obtain ⟨mage, method⟩ := head
    obtain ⟨rfl, -⟩ := head?_spec hhead
    obtain ⟨last, hsel, hstop⟩ := selectsTranslation_of_match hhead hinv
    exact ⟨last, hstop, .inr ⟨method, hsel⟩⟩

theorem localizedEnd?_of_isWord (ht : s.get? i = some t) (hword : t.isWord "__") :
    localizedEnd? s i = some (i + 1) := by
  unfold localizedEnd?
  simp only [ht, hword, bind_eq_bind, bind_some, if_true]
  rfl

theorem SelectsTranslation.localizedEnd? {left : Nat} (h : SelectsTranslation s first method last)
    (hleft : s.followedBy? last .leftParen = some left) : Call.localizedEnd? s first = some (last + 1) := by
  obtain ⟨-, ⟨t, ht, hmage⟩, -⟩ := head?_spec h.head
  have hword : ¬ t.isWord "__" := by
    intro hword
    rw [not_isMage_of_isWord hword] at hmage
    cases hmage
  obtain ⟨inv, hinv, hspan, -⟩ := h.matches hleft
  unfold Call.localizedEnd?
  simp only [ht, hword, h.head, hinv, bind_eq_bind, bind_some]
  rw [if_neg Bool.false_ne_true, hspan]
  rfl

/-- **When an argument is taken for a translation**: when it is one, or has the form of one with another method. -/
theorem isLocalized_iff {args : Arguments} :
    isLocalized s args ↔ IsTranslation s args.left args.close ∨ IsForeignTranslation s args.left args.close := by
  rw [isLocalized, beq_iff_eq]
  constructor
  · intro h
    obtain ⟨first, hfst, h⟩ := bind_eq_some_iff.mp h
    obtain ⟨stop, hstop, h⟩ := bind_eq_some_iff.mp h
    obtain ⟨left, hleft, h⟩ := bind_eq_some_iff.mp h
    obtain ⟨close, hclose, hnext⟩ := bind_eq_some_iff.mp h
    obtain ⟨last, rfl, hname⟩ := localizedEnd?_eq_some hstop
    rw [Nat.add_sub_cancel] at hleft
    have hfills : FillsArguments s args.left args.close first last := ⟨hfst, left, close, hleft, hclose, hnext⟩
    rcases hname with hword | ⟨method, hsel⟩
    · exact .inl ⟨first, last, hfills, .inl hword⟩
    · cases hhelper : sameWord "helper" (s.text method) with
      | true => exact .inl ⟨first, last, hfills, .inr ⟨method, hsel, hhelper⟩⟩
      | false => exact .inr ⟨first, last, method, hfills, hsel, hhelper⟩
  · intro h
    -- either way the name ends at some `last`, and the call fills the list
    have hname : ∃ first last, FillsArguments s args.left args.close first last
        ∧ localizedEnd? s first = some (last + 1) := by
      rcases h with ⟨first, last, hfills, ⟨rfl, t, ht, hword⟩ | ⟨method, hsel, -⟩⟩ |
        ⟨first, last, method, hfills, hsel, -⟩
      · exact ⟨_, _, hfills, localizedEnd?_of_isWord ht hword⟩
      · obtain ⟨left, _, hleft, -⟩ := hfills.ends
        exact ⟨_, _, hfills, hsel.localizedEnd? hleft⟩
      · obtain ⟨left, _, hleft, -⟩ := hfills.ends
        exact ⟨_, _, hfills, hsel.localizedEnd? hleft⟩
    obtain ⟨first, last, hfills, hend⟩ := hname
    obtain ⟨left, close, hleft, hclose, hnext⟩ := hfills.ends
    simp only [hfills.starts, hend, Nat.add_sub_cancel, hleft, hclose, hnext, bind_eq_bind, bind_some]

end

/-! ## §3. Argument lists of converted calls. -/

section

variable {table : AliasTable} {s : TokenStream}

/-- The head of a converted call ends with the parenthesis at `left`, and its arguments end at `close`. -/
structure OpensArguments (table : AliasTable) (s : TokenStream) (inv : Invocation) (left close : Nat) : Prop where
  mem : inv ∈ scan table s
  headEnd : inv.headEnd = left + 1
  opens : s.kind? left = some .leftParen
  closes : s.matchingClose? left = some close

namespace OpensArguments

variable {inv : Invocation} {left close : Nat}

theorem kind_close (h : OpensArguments table s inv left close) : s.kind? close = some .rightParen := by
  obtain ⟨k, hk, hkc⟩ := opener_close h.closes
  rw [h.opens] at hk
  cases hk
  exact hkc

theorem offset_arguments (h : OpensArguments table s inv left close) :
    s.offsetIn (callEdits table s) (left + 1)
      = s.offsetIn (callEdits table s) inv.span.start + (lexFragment inv.modern).length := by
  rw [← h.headEnd]
  exact offsetIn_headEnd h.mem

theorem cuts_arguments (h : OpensArguments table s inv left close) : CutsNoHead table s (left + 1) := by
  rw [← h.headEnd]
  exact cutsNoHead_headEnd h.mem

theorem balanced_arguments (htab : table.WellFormed) (h : OpensArguments table s inv left close) :
    Balanced ((convertedStream table s).kindsIn (s.offsetIn (callEdits table s) (left + 1))
      (s.offsetIn (callEdits table s) close)) := by
  obtain ⟨hlt, hsize⟩ := lt_close h.closes
  obtain ⟨-, -, -, -, hbal⟩ := close_iff.mp h.closes
  have hout := (edit_at_callClose h.mem h.headEnd h.closes h.kind_close).1
  show Balanced ((s.woven (callEdits table s)).kindsIn _ _)
  rw [kindsIn_converted hlt (by omega)]
  exact balanced_kinds htab hlt hsize.le h.cuts_arguments hout.cuts.1 hbal

variable (h : OpensArguments table s inv left close)

include h

theorem get?_close :
    (convertedStream table s).kind?
      (s.offsetIn (callEdits table s) close + (generatedAt (callEdits table s) close).length) = some .rightParen := by
  have hkept := kept_of_covers (lt_kind? h.kind_close) (not_covered_callClose h.mem h.headEnd h.closes h.kind_close)
  have hget : (convertedStream table s).get? _ = s.get? close := hkept.get?
  rw [← h.kind_close, kind?, kind?, ← hget]
  rfl

theorem generatedAt_close :
    generatedAt (callEdits table s) close = []
      ∨ ∃ c, inv.tail = some c ∧ c.span = .empty close
        ∧ generatedAt (callEdits table s) close = lexFragment c.code := by
  by_cases hwrites : ∃ e ∈ callEdits table s, e.span.start = close
  · obtain ⟨e, he, hstart⟩ := hwrites
    obtain ⟨c, hc, rfl, hspan⟩ :=
      (edit_at_callClose h.mem h.headEnd h.closes h.kind_close).2 e he (Nat.le_of_eq hstart) (.inl hstart)
    have hgen := generatedAt_mem (callEdits_distinct table s) he
    rw [hstart] at hgen
    exact .inr ⟨c, hc, hspan, hgen⟩
  · exact .inl (generatedAt_ne fun e he hstart => hwrites ⟨e, he, hstart⟩)

theorem generatedAt_close_of_none (htail : inv.tail = none) : generatedAt (callEdits table s) close = [] := by
  rcases h.generatedAt_close with hnone | ⟨c, hc, -⟩
  · exact hnone
  · rw [htail] at hc
    cases hc

theorem generatedAt_close_of_some {code : String} (htail : inv.tail = some ⟨.empty close, code⟩) :
    generatedAt (callEdits table s) close = lexFragment code := by
  have hmem : (⟨.empty close, code⟩ : CodeEdit) ∈ inv.codeEdits :=
    mem_cons_of_mem _ (by rw [htail]; exact mem_singleton.mpr rfl)
  exact generatedAt_mem (callEdits_distinct table s) (mem_callEdits_of_mem h.mem hmem)

end OpensArguments

/-! ## §4. Recognised exceptions. -/

/-- The parts of a recognised exception: its argument list, and what is written at its head and at the end of the list. -/
structure ExceptionAt (table : AliasTable) (s : TokenStream) (inv : Invocation) (left close : Nat) : Prop
    extends OpensArguments table s inv left close where
  /-- The message is put into a call of `__`, or the argument is taken for a translation. -/
  code : (inv.modern = throwCode ++ "__(" ∧ inv.tail = some ⟨.empty close, ")"⟩
        ∧ ¬ IsTranslation s left close ∧ ¬ IsForeignTranslation s left close)
      ∨ (inv.modern = throwCode ∧ inv.tail = none ∧ (IsTranslation s left close ∨ IsForeignTranslation s left close))

theorem exceptionAt_of_pattern (hinv : inv ∈ scan table s) (hpat : inv.pattern = .throwException) :
    ∃ left close, ExceptionAt table s inv left close := by
  obtain ⟨head, p, method, hhead, -, hmatch⟩ := matchAt?_cases (isCall_mem hinv)
  obtain rfl : p = .throwException := (matchHead?_pattern hmatch).1.symm.trans hpat
  change matchThrowException? s head = some inv at hmatch
  unfold matchThrowException? at hmatch
  obtain ⟨args, hargs, hmatch⟩ := bind_eq_some_iff.mp hmatch
  obtain ⟨hleft, hclose, -⟩ := arguments?_spec hargs
  split at hmatch
  · cases hmatch
  · refine ⟨args.left, args.close, ⟨hinv, ?_, (followedBy?_spec hleft).2.1, hclose⟩, ?_⟩
    · cases hmatch
      rfl
    · cases hlocalized : isLocalized s args with
      | true =>
        rw [hlocalized] at hmatch
        cases hmatch
        exact .inr ⟨rfl, rfl, isLocalized_iff.mp hlocalized⟩
      | false =>
        have hneither : ¬ (IsTranslation s args.left args.close ∨ IsForeignTranslation s args.left args.close) := by
          rw [← isLocalized_iff, hlocalized]
          exact Bool.false_ne_true
        rw [not_or] at hneither
        rw [hlocalized] at hmatch
        cases hmatch
        exact .inl ⟨rfl, rfl, hneither⟩

/-! ## §5. What becomes of an exception. -/

def raiseTokens : List Token :=
  [⟨.keyword .throwKw, "throw"⟩, ⟨.whitespace, " "⟩, ⟨.keyword .newKw, "new"⟩, ⟨.whitespace, " "⟩,
   ⟨.qualifiedName, "\\Magento\\Framework\\Exception\\LocalizedException"⟩, ⟨.leftParen, "("⟩]

/-- At `i` an exception is raised with a translated message: the first significant tokens of its argument list are `__`
and a parenthesis, and behind the partner of that parenthesis the list ends. -/
structure RaisesTranslated (t : TokenStream) (i : Nat) : Prop where
  reads : ∀ q u, raiseTokens[q]? = some u → t.get? (i + q) = some u
  message : ∃ name left right close, t.nextSignificant? (i + 6) = some name
    ∧ (∃ u, t.get? name = some u ∧ u.isWord "__" = true) ∧ t.followedBy? name .leftParen = some left
    ∧ t.matchingClose? left = some right ∧ t.nextSignificant? (right + 1) = some close
    ∧ t.matchingClose? (i + 5) = some close

theorem lexFragment_throwCode : lexFragment throwCode = raiseTokens := by decide +kernel

theorem lexFragment_translated :
    lexFragment (throwCode ++ "__(") = raiseTokens ++ [⟨.identifier, "__"⟩, ⟨.leftParen, "("⟩] := by decide +kernel

theorem lexFragment_translate : lexFragment "__" = [⟨.identifier, "__"⟩] := by decide +kernel

theorem isWord_translate : (⟨.identifier, "__"⟩ : Token).isWord "__" := by decide +kernel

theorem lexFragment_rightParen : lexFragment ")" = [⟨.rightParen, ")"⟩] := by decide +kernel

theorem modern_first {call : Invocation} (hcall : call ∈ scan table s) (hpat : call.pattern ≠ .helperTranslate) :
    ∃ u rest, lexFragment call.modern = u :: rest ∧ u.kind.isName = false ∧ u.isTrivia = false := by
  have hisCall := isCall_mem hcall
  obtain ⟨head, p, method, -, -, hmatch⟩ := matchAt?_cases hisCall
  obtain ⟨rfl, hbare⟩ := matchHead?_pattern hmatch
  cases hv : call.collaborator with
  | none =>
    rcases hbare.mp hv with htranslate | hthrow
    · exact absurd htranslate hpat
    obtain ⟨left, close, hexception⟩ := exceptionAt_of_pattern hcall hthrow
    rcases hexception.code with ⟨hmod, -⟩ | ⟨hmod, -⟩
    · rw [hmod, lexFragment_translated]
      exact ⟨_, _, rfl, rfl, rfl⟩
    · rw [hmod, lexFragment_throwCode]
      exact ⟨_, _, rfl, rfl, rfl⟩
  | some v =>
    obtain ⟨target, -, hmod⟩ := (matchAt?_form hisCall).modern_of_collaborator hv
    obtain ⟨u, rest, hcode, hkind⟩ := lexFragment_property v target
    exact ⟨u, rest, by rw [hmod, hcode], by rw [hkind]; rfl, by rw [Token.isTrivia, hkind]; rfl⟩

namespace ExceptionAt

variable {inv : Invocation} {left close : Nat}

theorem raises_wrapped (htab : table.WellFormed) (h : ExceptionAt table s inv left close)
    (hmod : inv.modern = throwCode ++ "__(") (htail : inv.tail = some ⟨.empty close, ")"⟩) :
    RaisesTranslated (convertedStream table s) (s.offsetIn (callEdits table s) inv.span.start) := by
  have hget : ∀ q u, (raiseTokens ++ [⟨.identifier, "__"⟩, ⟨.leftParen, "("⟩])[q]? = some u →
      (convertedStream table s).get? (s.offsetIn (callEdits table s) inv.span.start + q) = some u := by
    intro q u hq
    refine get?_head h.mem ?_
    rw [hmod, lexFragment_translated]
    exact hq
  have hargs := h.offset_arguments
  rw [hmod, lexFragment_translated] at hargs
  have hbal := h.balanced_arguments htab
  rw [hargs] at hbal
  -- the inserted parenthesis, and the one that was there
  have hwrit := h.generatedAt_close_of_some htail
  rw [lexFragment_rightParen] at hwrit
  have hinserted : (convertedStream table s).kind? (s.offsetIn (callEdits table s) close) = some .rightParen := by
    have hnew := @get?_woven_new s (callEdits table s) close 0 (lt_kind? h.kind_close).le
      (by rw [hwrit]; exact Nat.zero_lt_one)
    rw [hwrit] at hnew
    exact kind?_get? hnew
  have hlast := h.get?_close
  rw [hwrit] at hlast
  have hmono : s.offsetIn (callEdits table s) (left + 1) ≤ s.offsetIn (callEdits table s) close :=
    offsetIn_mono s _ (lt_close h.closes).1
  rw [hargs] at hmono
  generalize s.offsetIn (callEdits table s) inv.span.start = i at *
  generalize s.offsetIn (callEdits table s) close = right at *
  change i + 8 ≤ right at hmono
  change Balanced ((convertedStream table s).kindsIn (i + 8) right) at hbal
  change (convertedStream table s).kind? (right + 1) = some .rightParen at hlast
  have hopen : ∀ q, (raiseTokens ++ [⟨.identifier, "__"⟩, ⟨.leftParen, "("⟩])[q]? = some ⟨.leftParen, "("⟩ →
      ((convertedStream table s).kind? (i + q)).bind Kind.closer? = some .rightParen := by
    intro q hq
    rw [kind?_get? (hget q _ hq)]
    rfl
  have hinner : (convertedStream table s).matchingClose? (i + 7) = some right :=
    close_iff.mpr ⟨.rightParen, hopen 7 rfl, by omega, hinserted, hbal⟩
  have houter : (convertedStream table s).matchingClose? (i + 5) = some (right + 1) := by
    refine close_iff.mpr ⟨.rightParen, hopen 5 rfl, by omega, hlast, ?_⟩
    rw [kindsIn_cons (kind?_get? (hget 6 _ rfl)) (show i + 6 < right + 1 by omega),
      kindsIn_cons (kind?_get? (hget 7 _ rfl)) (show i + 7 < right + 1 by omega),
      kindsIn_snoc hinserted (show i + 8 ≤ right by omega)]
    exact (hbal.wrap rfl).cons_plain rfl
  obtain ⟨u, hu, hkind⟩ := map_eq_some_iff.mp hlast
  refine ⟨fun q u hq => hget q u ?_, i + 6, i + 7, right, right + 1, ?_, ⟨_, hget 6 _ rfl, isWord_translate⟩, ?_,
    hinner, ?_, houter⟩
  · rw [getElem?_append_left (lt_getElem? hq)]
    exact hq
  · exact next_eq_some le_rfl (hget 6 _ rfl) rfl fun m h₁ h₂ => by omega
  · refine followedBy?_iff.mpr ⟨?_, kind?_get? (hget 7 _ rfl)⟩
    exact next_eq_some le_rfl (hget 7 _ rfl) rfl fun m h₁ h₂ => by omega
  · exact next_eq_some le_rfl hu (by rw [Token.isTrivia, hkind]; rfl) fun m h₁ h₂ => by omega

theorem translation_name (h : ExceptionAt table s inv left close) (htranslation : IsTranslation s left close) :
    ∃ first last u, FillsArguments s left close first last ∧ CutsNoHead table s (last + 1)
      ∧ (convertedStream table s).get? (s.offsetIn (callEdits table s) first) = some u ∧ u.isWord "__"
      ∧ s.offsetIn (callEdits table s) (last + 1) = s.offsetIn (callEdits table s) first + 1 := by
  obtain ⟨first, last, hfills, ⟨rfl, t, ht, hword⟩ | ⟨method, hsel, hmeth⟩⟩ := htranslation
  · -- the function by its name is left alone
    obtain ⟨hle, -, htriv⟩ := next_spec hfills.starts
    have hout := (h.cuts_arguments.trivia htriv hle).outside_of_not_mage ht (not_isMage_of_isWord hword)
    obtain ⟨-, hcomma, hcloser⟩ := Kind.of_isName (Bool.and_eq_true_iff.mp hword).1
    have hkept := kept_outside (kind?_get? ht) hout hcomma hcloser
    exact ⟨last, last, t, hfills, hout.cuts.2, hkept.get?.trans ht, hword, KeptAt.offsetOf_succ hkept⟩
  · -- the function on a helper is a call that the scan finds, also in static functions
    obtain ⟨open', -, hopen, -⟩ := hfills.ends
    obtain ⟨call, hcall, hspan, hend, hmod, hbare⟩ := hsel.matches hopen
    have hpat : Pattern.helperTranslate.match? table s ⟨first, method⟩ = some call := by
      rw [Pattern.match?, Pattern.methods, find?_cons, hmeth]
      exact hcall
    have hmatch : matchAt? table s first = some call := by
      rw [matchAt?, hsel.head, bind_some, Pattern.catalog, findSome?_cons, hpat]
    have hmem : call ∈ scan table s := mem_scan hmatch (by rw [Invocation.isConvertible, hbare]; simp)
    have hstart : call.span.start = first := by rw [hspan]
    have hget := get?_head hmem (q := 0) (t := ⟨.identifier, "__"⟩) (by rw [hmod, lexFragment_translate]; rfl)
    have hoff := offsetIn_headEnd hmem
    rw [hmod, lexFragment_translate, hend, hstart] at hoff
    rw [hstart] at hget
    refine ⟨first, last, _, hfills, ?_, hget, isWord_translate, hoff⟩
    rw [← hend]
    exact cutsNoHead_headEnd hmem

theorem raises_filled (htab : table.WellFormed) (h : ExceptionAt table s inv left close) (hmod : inv.modern = throwCode)
    (htail : inv.tail = none) (htranslation : IsTranslation s left close) :
    RaisesTranslated (convertedStream table s) (s.offsetIn (callEdits table s) inv.span.start) := by
  have hget : ∀ q u, raiseTokens[q]? = some u →
      (convertedStream table s).get? (s.offsetIn (callEdits table s) inv.span.start + q) = some u := by
    intro q u hq
    refine get?_head h.mem ?_
    rw [hmod, lexFragment_throwCode]
    exact hq
  have hargs : s.offsetIn (callEdits table s) (left + 1) = s.offsetIn (callEdits table s) inv.span.start + 6 := by
    rw [h.offset_arguments, hmod, lexFragment_throwCode]
    rfl
  have hlast := h.get?_close
  rw [h.generatedAt_close_of_none htail, length_nil, Nat.add_zero] at hlast
  obtain ⟨closing, hclosing, hkind⟩ := map_eq_some_iff.mp hlast
  have hsig : closing.isTrivia = false := by rw [Token.isTrivia, hkind]; rfl
  obtain ⟨first, last, u, hfills, hcut, hu, hword, hbehind⟩ := h.translation_name htranslation
  have husig : u.isTrivia = false := (Kind.of_isName (Bool.and_eq_true_iff.mp hword).1).1
  obtain ⟨open', close', hopen, hmatch, hend⟩ := hfills.ends
  obtain ⟨hnext, hparen⟩ := followedBy?_iff.mp hopen
  -- the parenthesis behind the name is kept, and so is its partner
  obtain ⟨hle, ⟨t, ht, htsig⟩, htriv⟩ := next_spec hnext
  have htkind : t.kind = .leftParen := by
    rw [kind?_get? ht, some.injEq] at hparen
    exact hparen
  have hmage : isMage t = false := by rw [isMage, htkind]
  have hout := (hcut.trivia htriv hle).outside_of_not_mage ht hmage
  have hkept := kept_outside hparen hout (by decide) rfl
  have hgetOpen : (convertedStream table s).get? (s.offsetIn (callEdits table s) open') = some t := hkept.get?.trans ht
  obtain ⟨d, hkeptClose, hd⟩ := close_convert htab hkept hmatch
  have hdnext : s.offsetIn (callEdits table s) (close' + 1) = d + 1 := KeptAt.offsetOf_succ hkeptClose
  refine ⟨hget, _, _, d, s.offsetIn (callEdits table s) close, ?_, ⟨u, hu, hword⟩, ?_, hd, ?_, ?_⟩
  · rw [← hargs]
    exact next_convert h.cuts_arguments hfills.starts hu husig
  · refine followedBy?_iff.mpr ⟨?_, by rw [kind?_get? hgetOpen, htkind]⟩
    rw [← hbehind]
    exact next_convert hcut hnext hgetOpen htsig
  · rw [← hdnext]
    exact next_convert (outside_of_kept hkeptClose).cuts.2 hend hclosing hsig
  · have hmono : s.offsetIn (callEdits table s) (left + 1) ≤ s.offsetIn (callEdits table s) close :=
      offsetIn_mono s _ (lt_close h.closes).1
    have hbal := h.balanced_arguments htab
    rw [hargs] at hmono hbal
    refine close_iff.mpr ⟨.rightParen, ?_, by omega, hlast, hbal⟩
    rw [kind?_get? (hget 5 _ rfl)]
    rfl

/-- What the argument begins with when another method than `helper` is asked for the function: the `Mage` that was
there, or the code of a call that is no translation. -/
theorem foreign_first {last : Nat} (h : ExceptionAt table s inv left close)
    (hfills : FillsArguments s left close first last) (hsel : SelectsTranslation s first method last)
    (hmeth : sameWord "helper" (s.text method) = false) :
    ∃ u, (convertedStream table s).get? (s.offsetIn (callEdits table s) first) = some u ∧ u.isWord "__" = false
      ∧ u.isTrivia = false := by
  obtain ⟨-, ⟨t, ht, hmage⟩, -⟩ := head?_spec hsel.head
  by_cases hstart : ∃ call ∈ scan table s, call.span.start = first
  · obtain ⟨call, hcall, rfl⟩ := hstart
    have hpat : call.pattern ≠ .helperTranslate := by
      intro hpat
      obtain ⟨head, p, name, hhead, hname, hmatch⟩ := matchAt?_cases (isCall_mem hcall)
      obtain ⟨rfl, -⟩ := matchHead?_pattern hmatch
      rw [hsel.head, some.injEq] at hhead
      rw [hpat, ← hhead, Pattern.methods, find?_cons, hmeth] at hname
      cases hname
    obtain ⟨u, rest, hcode, hkind, hsig⟩ := modern_first hcall hpat
    refine ⟨u, get?_head hcall (q := 0) (by rw [hcode]; rfl), ?_, hsig⟩
    rw [Token.isWord, hkind, Bool.false_and]
  · obtain ⟨hle, -, htriv⟩ := next_spec hfills.starts
    have hout := (h.cuts_arguments.trivia htriv hle).outside fun call hcall heq => hstart ⟨call, hcall, heq⟩
    obtain ⟨-, hcomma, hcloser⟩ := Kind.of_isName (isName_of_isMage hmage)
    have hkept := kept_outside (kind?_get? ht) hout hcomma hcloser
    refine ⟨t, hkept.get?.trans ht, ?_, isTrivia_of_isMage hmage⟩
    refine Bool.eq_false_iff.mpr fun hword => ?_
    rw [not_isMage_of_isWord hword] at hmage
    cases hmage

theorem not_raises_foreign (h : ExceptionAt table s inv left close) (hmod : inv.modern = throwCode)
    (hforeign : IsForeignTranslation s left close) :
    ¬ RaisesTranslated (convertedStream table s) (s.offsetIn (callEdits table s) inv.span.start) := by
  rintro ⟨-, name, _, _, _, hname, ⟨u, hu, hword⟩, -⟩
  obtain ⟨first, last, method, hfills, hsel, hmeth⟩ := hforeign
  obtain ⟨u', hu', hword', hsig⟩ := h.foreign_first hfills hsel hmeth
  have hargs : s.offsetIn (callEdits table s) (left + 1) = s.offsetIn (callEdits table s) inv.span.start + 6 := by
    rw [h.offset_arguments, hmod, lexFragment_throwCode]
    rfl
  rw [← hargs, next_convert h.cuts_arguments hfills.starts hu' hsig, some.injEq] at hname
  rw [← hname, hu', some.injEq] at hu
  rw [← hu, hword'] at hword
  cases hword

end ExceptionAt

end

/-- **A raised exception is translated once.** In the converted stream the call reads `throw new …LocalizedException(`
with one call of `__` as the argument, and that call fills the list, unless the argument asks another method of `Mage`
than `helper` for the function. An argument that is a translation already is not put into a further call; any other
is put into one, from the start of the list to its end. -/
theorem convertCalls_translates_once {table : AliasTable} {s : TokenStream} {inv : Invocation} (htab : table.Reachable)
    (hinv : inv ∈ scan table s) (hpat : inv.pattern = .throwException) :
    ∃ left close converted, inv.headEnd = left + 1 ∧ s.matchingClose? left = some close
      ∧ Migrator.convertCalls s (scan table s) = .ok converted
      ∧ (RaisesTranslated converted (convertedOffset table s inv.span.start) ↔ ¬ IsForeignTranslation s left close)
      ∧ (IsTranslation s left close → inv.codeEdits = [⟨⟨inv.span.start, inv.headEnd⟩, throwCode⟩])
      ∧ (¬ IsTranslation s left close → ¬ IsForeignTranslation s left close →
          inv.codeEdits = [⟨⟨inv.span.start, inv.headEnd⟩, throwCode ++ "__("⟩, ⟨.empty close, ")"⟩]) := by
  obtain ⟨left, close, h⟩ := exceptionAt_of_pattern hinv hpat
  refine ⟨left, close, _, h.headEnd, h.closes, convertCalls_scan table s, ?_⟩
  rcases h.code with ⟨hmod, htail, hneither⟩ | ⟨hmod, htail, heither⟩
  · refine ⟨⟨fun _ => hneither.2, fun _ => h.raises_wrapped htab.wellFormed hmod htail⟩, fun hself => ?_, fun _ _ => ?_⟩
    · exact absurd hself hneither.1
    · rw [Invocation.codeEdits, hmod, htail]
      rfl
  · refine ⟨⟨fun hraises hforeign => h.not_raises_foreign hmod hforeign hraises, fun hforeign => ?_⟩, fun _ => ?_,
      fun hself hforeign => ?_⟩
    · exact h.raises_filled htab.wellFormed hmod htail (heither.resolve_right hforeign)
    · rw [Invocation.codeEdits, hmod, htail]
      rfl
    · exact absurd heither (not_or.mpr ⟨hself, hforeign⟩)

/-- A static function that raises an exception. Its message is translated through a helper, and holds a call that
stays. -/
def raisesInStatic : TokenStream :=
  .ofSource "<?php class A\x7bstatic function f()\x7bMage::throwException(Mage::helper('a')->__(Mage::log(1)));\x7d\x7d"

theorem convertCalls_translates_once_raisesInStatic :
    (scan .builtin raisesInStatic).map (·.pattern) = [.throwException, .helperTranslate]
      ∧ ∃ converted, Migrator.convertCalls raisesInStatic (scan .builtin raisesInStatic) = .ok converted
        ∧ ∀ inv ∈ scan .builtin raisesInStatic, inv.pattern = .throwException →
          RaisesTranslated converted (convertedOffset .builtin raisesInStatic inv.span.start) := by
  have hscan : (scan .builtin raisesInStatic).map (·.pattern) = [.throwException, .helperTranslate] := by
    rw [show raisesInStatic = .ofTokens _ from ofSource_ofList _]
    decide +kernel
  -- the helper is the only method with a literal argument
  have hhelper : ((List.range raisesInStatic.size).all fun i => (head? raisesInStatic i).all fun head =>
      sameWord "helper" (raisesInStatic.text head.method) || (literalArgument? raisesInStatic head.method).isNone)
        = true := by
    rw [show raisesInStatic = .ofTokens _ from ofSource_ofList _]
    decide +kernel
  refine ⟨hscan, _, convertCalls_scan _ _, fun inv hinv hpat => ?_⟩
  obtain ⟨left, close, converted, -, -, hconv, hraises, -⟩ := convertCalls_translates_once .builtin hinv hpat
  rw [convertCalls_scan, Except.ok.injEq] at hconv
  rw [hconv, hraises]
  rintro ⟨first, last, method, -, hsel, hmeth⟩
  obtain ⟨-, ⟨t, ht, -⟩, -⟩ := head?_spec hsel.head
  obtain ⟨arg, arrow, harg, -⟩ := hsel.member
  have hall := List.all_eq_true.mp hhelper first (List.mem_range.mpr (lt_get? ht))
  rw [hsel.head, Option.all_some, hmeth, harg] at hall
  cases hall

/-- An exception whose message another method than `helper` is asked for. -/
def raisesForeign : TokenStream :=
  .ofSource "<?php class A\x7bfunction f()\x7bMage::throwException(Mage::foo('a')->__('b'));\x7d\x7d"

/-- The message of an exception may stay without a translation: what has the form of one is left as it is. -/
theorem convertCalls_leaves_untranslated :
    ∃ inv converted, inv ∈ scan .builtin raisesForeign ∧ inv.pattern = .throwException
      ∧ Migrator.convertCalls raisesForeign (scan .builtin raisesForeign) = .ok converted
      ∧ ¬ RaisesTranslated converted (convertedOffset .builtin raisesForeign inv.span.start) := by
  have hcheck : ((scan .builtin raisesForeign).length == 1 && (scan .builtin raisesForeign).all fun inv =>
      inv.pattern == .throwException
        && (((convertedStream .builtin raisesForeign).nextSignificant?
            (convertedOffset .builtin raisesForeign inv.span.start + 6)).bind
          (convertedStream .builtin raisesForeign).get?).any (!·.isWord "__")) = true := by
    rw [show raisesForeign = .ofTokens _ from ofSource_ofList _]
    decide +kernel
  obtain ⟨inv, hscan, hcheck⟩ := exists_eq_singleton hcheck
  obtain ⟨hpat, hmessage⟩ := Bool.and_eq_true_iff.mp hcheck
  refine ⟨inv, _, by rw [hscan]; exact List.mem_singleton.mpr rfl, beq_iff_eq.mp hpat, convertCalls_scan _ _, ?_⟩
  rintro ⟨-, name, _, _, _, hname, ⟨u, hu, hword⟩, -⟩
  rw [hname, Option.bind_some, hu, Option.any_some, hword] at hmessage
  cases hmessage

end MageUplift
