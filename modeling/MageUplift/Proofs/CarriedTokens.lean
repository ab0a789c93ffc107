import MageUplift.Proofs.CallShape

/-!
# Calls in a stream that carries the tokens of another

Editing a stream gives a second one in which some tokens of the first stand again, in the same order, with new
ones between them. Whether a call is recognised depends on what stands around it: the token in front of it, the
tokens of its head, the parenthesis that closes its arguments, their commas. `KeepsCalls` says of two streams
what has to be known about these surroundings, and nothing more; then a call on a carried `Mage` that is
recognised in the second stream was recognised in the first.
-/

namespace MageUplift.Php.TokenStream

open List Option

variable {s : TokenStream} {i j : Nat} {t : Token}

/-! ## §1. Searches, the other way round. -/

theorem findFrom?_eq_some {p : Token → Bool} (hle : i ≤ j) (ht : s.get? j = some t) (hp : p t)
    (hbef : ∀ m, i ≤ m → m < j → ∃ t, s.get? m = some t ∧ p t = false) : s.findFrom? p i = some j := by
  have hj : j < s.tokens.size := lt_kind? (kind?_get? ht)
  -- induction on the way that is left to `j`
  induction hn : j - i generalizing i with
  | zero =>
    obtain rfl : i = j := by omega
    have htoken : s.tokens[i] = t := by simpa [get?, hj] using ht
    rw [findFrom?, dif_pos hj, htoken, if_pos hp]
  | succ n ih =>
    obtain ⟨u, hu, hpu⟩ := hbef i (Nat.le_refl i) (by omega)
    have hi : i < s.tokens.size := by omega
    have htoken : s.tokens[i] = u := by simpa [get?, hi] using hu
    rw [findFrom?, dif_pos hi, htoken, if_neg (by simp [hpu])]
    exact ih (by omega) (fun m hm => hbef m (by omega)) (by omega)

theorem next_eq_some (hle : i ≤ j) (ht : s.get? j = some t)
    (hsig : t.isTrivia = false) (hbef : ∀ m, i ≤ m → m < j → ∃ t, s.get? m = some t ∧ t.isTrivia) :
    s.nextSignificant? i = some j := by
  refine findFrom?_eq_some hle ht (by simp [hsig]) fun m hm hlt => ?_
  obtain ⟨u, hu, htriv⟩ := hbef m hm hlt
  exact ⟨u, hu, by simp [htriv]⟩

theorem followedBy?_iff {k : Kind} :
    s.followedBy? i k = some j ↔ s.nextSignificant? (i + 1) = some j ∧ s.kind? j = some k := by
  rw [followedBy?, filter_eq_some_iff, hasKind, beq_iff_eq]

theorem lt_get? (h : s.get? i = some t) : i < s.size :=
  lt_kind? (kind?_get? h)

/-! ## §2. Carried tokens. -/

/-- Tokens of `v` stand again in `u`: `carried i j` says that token `j` of `u` is token `i` of `v`. Carried
tokens keep their order, and where a significant token between two of them is lost, some other significant
token stands instead. -/
structure Carries (v u : TokenStream) (carried : Nat → Nat → Prop) : Prop where
  same : ∀ {i j}, carried i j → ∃ t, v.get? i = some t ∧ u.get? j = some t
  order : ∀ {i j i' j'}, carried i j → carried i' j' → (i < i' ↔ j < j')
  solid : ∀ {i j i' j' m t}, carried i j → carried i' j' → i < m → m < i' → v.get? m = some t →
    t.isTrivia = false → (∀ n, ¬ carried m n) → ∃ n u', j < n ∧ n < j' ∧ u.get? n = some u' ∧ u'.isTrivia = false

namespace Carries

variable {v u : TokenStream} {carried : Nat → Nat → Prop}

theorem injective (h : Carries v u carried) {i' : Nat} (hi : carried i j) (hi' : carried i' j) : i = i' := by
  have h₁ := h.order hi hi'
  have h₂ := h.order hi' hi
  omega

variable (h : Carries v u carried) (hij : carried i j)

include h hij

theorem kind_eq : v.kind? i = u.kind? j := by
  obtain ⟨t, hv, hu⟩ := h.same hij
  rw [kind?_get? hv, kind?_get? hu]

theorem text_eq : v.text i = u.text j := by
  obtain ⟨t, hv, hu⟩ := h.same hij
  rw [text, text, hv, hu]

theorem nextSignificant? {m n : Nat} (hmn : carried m n) (hnext : u.nextSignificant? (j + 1) = some n) :
    v.nextSignificant? (i + 1) = some m := by
  obtain ⟨hlt, ⟨t, htu, hsig⟩, hbef⟩ := next_spec hnext
  obtain ⟨t', htv, htu'⟩ := h.same hmn
  rw [htu] at htu'
  cases htu'
  have him : i < m := (h.order hij hmn).mpr hlt
  refine next_eq_some him htv hsig fun p hip hpm => ?_
  obtain ⟨x, hx⟩ := get?_of_lt (Nat.lt_trans hpm (lt_get? htv))
  refine ⟨x, hx, ?_⟩
  rw [← Bool.not_eq_false]
  intro hsigx
  -- a significant token in between would be carried, or leave something significant behind
  by_cases hcarried : ∃ q, carried p q
  · obtain ⟨q, hpq⟩ := hcarried
    obtain ⟨x', hxv, hxu⟩ := h.same hpq
    rw [hx] at hxv
    cases hxv
    obtain ⟨y, hy, htriv⟩ := hbef q ((h.order hij hpq).mp hip) ((h.order hpq hmn).mp hpm)
    rw [hxu] at hy
    cases hy
    rw [hsigx] at htriv
    cases htriv
  · obtain ⟨q, y, hjq, hqn, hy, hsigy⟩ := h.solid hij hmn hip hpm hx hsigx fun q hq => hcarried ⟨q, hq⟩
    obtain ⟨y', hy', htriv⟩ := hbef q hjq hqn
    rw [hy] at hy'
    cases hy'
    rw [hsigy] at htriv
    cases htriv

theorem followedBy? {m n : Nat} {k : Kind} (hmn : carried m n) (hnext : u.followedBy? j k = some n) :
    v.followedBy? i k = some m := by
  rw [followedBy?_iff] at hnext ⊢
  exact ⟨h.nextSignificant? hij hmn hnext.1, (h.kind_eq hmn).trans hnext.2⟩

end Carries

end MageUplift.Php.TokenStream

namespace MageUplift.Call

open Php TokenStream Magento List Option

variable {i j method n : Nat} {p : Pattern} {s : TokenStream} {t : Token}

/-! ## §3. Top-level commas of a balanced stretch. -/

theorem exists_topCommas? {stop : Nat} (hstop : stop ≤ s.size) (hi : i ≤ stop)
    (hbal : Balanced (s.kindsIn i stop)) : ∃ commas, topCommas? s stop i = some commas := by
  fun_induction topCommas? s stop i with
  | case1 i hlt hnone =>
    obtain ⟨t, ht⟩ := get?_of_lt (Nat.lt_of_lt_of_le hlt hstop)
    rw [kind?_get? ht] at hnone
    cases hnone
  | case2 i hlt k hk hopen hnone =>
    obtain ⟨d, hd, -⟩ := close_of_isOpener hstop hlt hbal hk hopen
    rw [hnone] at hd
    cases hd
  | case3 i hlt k hk hopen close hclose ih =>
    have hds := close_lt_balanced hstop hlt hbal hclose
    exact ih hds ((balanced_behind hclose hds).2 hbal)
  | case4 i hlt k hk hopen ih =>
    obtain ⟨commas, hcommas⟩ := ih hlt (balanced_tail hk hlt (isPlain_balanced hk hlt hbal hopen) hbal)
    rw [hcommas]
    exact ⟨_, rfl⟩
  | case5 => exact ⟨[], rfl⟩

theorem mem_topCommas?_iff {s : TokenStream} {stop i p : Nat} {commas : List Nat} (hstop : stop ≤ s.size)
    (hbal : Balanced (s.kindsIn i stop)) (h : topCommas? s stop i = some commas) :
    p ∈ commas ↔ i ≤ p ∧ p < stop ∧ s.kind? p = some .comma ∧ Balanced (s.kindsIn i p) := by
  fun_induction topCommas? s stop i generalizing commas with
  | case1 | case2 => cases h
  | case3 i hlt k hk hopen close hclose ih =>
    obtain ⟨hic, -⟩ := lt_close hclose
    have hds := close_lt_balanced hstop hlt hbal hclose
    rw [ih ((balanced_behind hclose hds).2 hbal) h]
    constructor
    · rintro ⟨hle, hps, hcomma, hbehind⟩
      refine ⟨by omega, hps, hcomma, ?_⟩
      rw [kindsIn_append s (show i ≤ close + 1 by omega) hle]
      exact (balanced_behind hclose hds).1.append hbehind
    · rintro ⟨hle, hps, hcomma, hbef⟩
      have hne : i ≠ p := by
        rintro rfl
        rw [hk, some.injEq] at hcomma
        subst hcomma
        cases hopen
      -- the bracket at `i` is closed before the comma
      have hdp := close_lt_balanced (Nat.le_of_lt (Nat.lt_of_lt_of_le hps hstop)) (show i < p by omega) hbef hclose
      exact ⟨hdp, hps, hcomma, (balanced_behind hclose hdp).2 hbef⟩
  | case4 i hlt k hk hopen ih =>
    obtain ⟨rest, hrest, rfl⟩ := map_eq_some_iff.mp h
    have hplain := isPlain_balanced hk hlt hbal hopen
    have hmem := ih (balanced_tail hk hlt hplain hbal) hrest
    have hstep : ∀ {p}, i < p → (Balanced (s.kindsIn i p) ↔ Balanced (s.kindsIn (i + 1) p)) := by
      intro p hip
      unfold Php.Balanced
      rw [kindsIn_cons hk hip, expected_plain hplain]
    by_cases hip : i = p
    · subst hip
      have hnot : i ∉ rest := fun hin => by
        have := (hmem.mp hin).1
        omega
      by_cases hcomma : k = .comma
      · simp [hcomma, hk, hlt]
      · simp [hcomma, hk, hnot]
    · have hhead : p ∈ (if k = .comma then i :: rest else rest) ↔ p ∈ rest := by
        split
        · rw [mem_cons]
          exact ⟨fun h => h.resolve_left (Ne.symm hip), .inr⟩
        · exact Iff.rfl
      rw [hhead, hmem]
      constructor
      · rintro ⟨hle, hps, hcomma, hbef⟩
        exact ⟨by omega, hps, hcomma, (hstep hle).mpr hbef⟩
      · rintro ⟨hle, hps, hcomma, hbef⟩
        have hlt : i < p := by omega
        exact ⟨hlt, hps, hcomma, (hstep hlt).mp hbef⟩
  | case5 i hge =>
    rw [some.injEq] at h
    subst h
    refine ⟨fun hp => (by cases hp), fun hp => ?_⟩
    omega

theorem topCommas?_pairwise {stop : Nat} {commas : List Nat}
    (h : topCommas? s stop i = some commas) : commas.Pairwise (· < ·) := by
  fun_induction topCommas? s stop i generalizing commas with
  | case1 | case2 => cases h
  | case3 i hlt k hk hopen close hclose ih => exact ih h
  | case4 i hlt k hk hopen ih =>
    obtain ⟨rest, hrest, rfl⟩ := map_eq_some_iff.mp h
    split
    · refine List.Pairwise.cons (fun p hp => ?_) (ih hrest)
      have := (topCommas?_spec hrest hp).1
      omega
    · exact ih hrest
  | case5 =>
    rw [some.injEq] at h
    subst h
    exact .nil

theorem mem_commas_iff {p : Nat} {args : Arguments} (h : arguments? s method = some args) :
    p ∈ args.commas ↔ args.left < p ∧ p < args.close ∧ s.kind? p = some .comma
      ∧ Balanced (s.kindsIn (args.left + 1) p) := by
  obtain ⟨-, hclose, htop⟩ := arguments?_spec h
  obtain ⟨_, _, _, -, hbal⟩ := close_iff.mp hclose
  exact mem_topCommas?_iff (Nat.le_of_lt (lt_close hclose).2) hbal htop

theorem length_le_of_carried {as bs : List Nat} {carried : Nat → Nat → Prop} (hnodup : as.Nodup)
    (hinto : ∀ a ∈ as, ∃ b ∈ bs, carried a b) (hinj : ∀ a a' b, carried a b → carried a' b → a = a') :
    as.length ≤ bs.length := by
  induction as generalizing bs with
  | nil => exact Nat.zero_le _
  | cons a as ih =>
    obtain ⟨hnot, hrest⟩ := nodup_cons.mp hnodup
    obtain ⟨b, hb, hab⟩ := hinto a mem_cons_self
    -- the others are carried elsewhere
    have hle := @ih (bs.erase b) hrest fun a' ha' => by
      obtain ⟨b', hb', hab'⟩ := hinto a' (mem_cons_of_mem a ha')
      refine ⟨b', (mem_erase_of_ne ?_).mpr hb', hab'⟩
      rintro rfl
      exact hnot (hinj a a' b' hab hab' ▸ ha')
    rw [length_erase_of_mem hb] at hle
    have hpos : 0 < bs.length := length_pos_of_mem hb
    rw [length_cons]
    omega

/-! ## §4. What calls depend on. -/

/-- The kinds of the tokens that continue the head of a call, but for the names of methods. -/
def linkKinds : List Kind := [.doubleColon, .leftParen, .stringLiteral, .arrow]

/-- **What has to be known so that no call on a carried token is new.** New tokens do not continue a head. A
member stays a member. Brackets close where they closed before. Top-level commas are carried and stay at the
top level, and an argument list without arguments stays without, unless it is that of a constructor. -/
structure KeepsCalls (v u : TokenStream) (carried : Nat → Nat → Prop) : Prop extends Carries v u carried where
  entry : ∀ {i j n t}, carried i j → u.nextSignificant? (j + 1) = some n → (∀ m, ¬ carried m n) →
    u.get? n = some t → t.kind ∉ linkKinds
      ∧ (t.kind = .identifier → u.kind? j ≠ some .doubleColon ∧ u.kind? j ≠ some .arrow)
  member : ∀ {i j t}, carried i j → v.get? i = some t → isMage t = true → isMember v i = true → isMember u j = true
  closes : ∀ {i j d}, carried i j → u.matchingClose? j = some d → ∃ c, v.matchingClose? i = some c ∧ carried c d
  commas : ∀ {i j c p}, carried i j → v.matchingClose? i = some c → i < p → p < c → v.kind? p = some .comma →
    Balanced (v.kindsIn (i + 1) p) → ∃ q, carried p q ∧ Balanced (u.kindsIn (j + 1) q)
  empty : ∀ {name t l l' c c'}, v.get? name = some t → t.isTrivia = false → t.isWord "__construct" = false →
    v.followedBy? name .leftParen = some l → v.matchingClose? l = some c → v.nextSignificant? (l + 1) = some c →
    carried l l' → carried c c' → u.nextSignificant? (l' + 1) = some c'

namespace KeepsCalls

variable {v u : TokenStream} {carried : Nat → Nat → Prop}

section

variable (h : KeepsCalls v u carried)

include h

theorem link {k : Kind} (hij : carried i j) (hk : k ∈ linkKinds) (hnext : u.followedBy? j k = some n) :
    ∃ m, carried m n ∧ v.followedBy? i k = some m := by
  by_cases hcarried : ∃ m, carried m n
  · obtain ⟨m, hmn⟩ := hcarried
    exact ⟨m, hmn, h.followedBy? hij hmn hnext⟩
  · obtain ⟨hsig, hkind⟩ := followedBy?_iff.mp hnext
    obtain ⟨t, ht, rfl⟩ := map_eq_some_iff.mp hkind
    exact absurd hk (h.entry hij hsig (fun m hm => hcarried ⟨m, hm⟩) ht).1

theorem selected (hij : carried i j) (hkind : u.kind? j = some .doubleColon ∨ u.kind? j = some .arrow)
    (hnext : u.followedBy? j .identifier = some n) : ∃ m, carried m n ∧ v.followedBy? i .identifier = some m := by
  by_cases hcarried : ∃ m, carried m n
  · obtain ⟨m, hmn⟩ := hcarried
    exact ⟨m, hmn, h.followedBy? hij hmn hnext⟩
  · obtain ⟨hsig, hname⟩ := followedBy?_iff.mp hnext
    obtain ⟨t, ht, htk⟩ := map_eq_some_iff.mp hname
    obtain ⟨hcolons, harrow⟩ := (h.entry hij hsig (fun m hm => hcarried ⟨m, hm⟩) ht).2 htk
    rcases hkind with hkind | hkind
    · exact absurd hkind hcolons
    · exact absurd hkind harrow

theorem closing {left left' : Nat} {ks : List Kind} (hleft : carried left left')
    (hparen : u.kind? left' = some .leftParen) (hpath : u.Follows left' ks j) (hks : Balanced ks) (hij : carried i j)
    (hnext : u.followedBy? j .rightParen = some n) : ∃ m, carried m n ∧ v.followedBy? i .rightParen = some m := by
  have hclose := close_of_follows hparen (hpath.snoc hnext) hks
  obtain ⟨m, -, hmn⟩ := h.closes hleft hclose
  exact ⟨m, hmn, h.followedBy? hij hmn hnext⟩

/-! ## §5. The parts of a call. -/

theorem head? {head : Head} (hij : carried i j) (hhead : Call.head? u j = some head) :
    ∃ method, carried method head.method ∧ Call.head? v i = some ⟨i, method⟩ := by
  unfold Call.head? at hhead ⊢
  obtain ⟨t, htv, htu⟩ := h.same hij
  rw [htu] at hhead
  rw [htv]
  simp only [bind_eq_bind, bind_some] at hhead ⊢
  split at hhead
  · rename_i hmage
    rw [Bool.and_eq_true, Bool.not_eq_true'] at hmage
    have hmem : isMember v i = false := by
      rw [← Bool.not_eq_true]
      intro hmem
      rw [h.member hij htv hmage.1 hmem] at hmage
      cases hmage.2
    obtain ⟨colons, hcolons, hhead⟩ := bind_eq_some_iff.mp hhead
    obtain ⟨method, hmeth, hhead⟩ := bind_eq_some_iff.mp hhead
    cases hhead
    obtain ⟨colons', hcarried, hcolons'⟩ := h.link hij (by decide) hcolons
    obtain ⟨method', hcarried', hmethod'⟩ := h.selected hcarried (.inl (followedBy?_spec hcolons).2.1) hmeth
    refine ⟨method', hcarried', ?_⟩
    rw [if_pos (by rw [hmage.1, hmem]; rfl), hcolons', bind_some, hmethod']
    rfl
  · cases hhead

theorem literalArgument? {method' : Nat} {arg : LiteralArgument} (hmeth : carried method method')
    (harg : Call.literalArgument? u method' = some arg) :
    ∃ close, carried close arg.close ∧ Call.literalArgument? v method = some ⟨close, arg.value⟩ := by
  unfold Call.literalArgument? at harg ⊢
  obtain ⟨left, hleft, harg⟩ := bind_eq_some_iff.mp harg
  obtain ⟨literal, hlit, harg⟩ := bind_eq_some_iff.mp harg
  obtain ⟨close, hclose, harg⟩ := bind_eq_some_iff.mp harg
  obtain ⟨value, hvalue, harg⟩ := bind_eq_some_iff.mp harg
  cases harg
  obtain ⟨left', hcarriedLeft, hleft'⟩ := h.link hmeth (by decide) hleft
  obtain ⟨literal', hcarriedLiteral, hliteral'⟩ := h.link hcarriedLeft (by decide) hlit
  obtain ⟨close', hcarriedClose, hclose'⟩ := h.closing hcarriedLeft (followedBy?_spec hleft).2.1
    (.cons hlit (.nil _)) (by decide) hcarriedLiteral hclose
  refine ⟨close', hcarriedClose, ?_⟩
  simp only [bind_eq_bind, hleft', bind_some, hliteral', hclose', h.text_eq hcarriedLiteral, hvalue]
  rfl

theorem arguments? {method' : Nat} {args' : Arguments} (hmeth : carried method method') (ht : v.get? method = some t)
    (hsig : t.isTrivia = false) (hname : t.isWord "__construct" = false)
    (hargs : Call.arguments? u method' = some args') :
    ∃ args, Call.arguments? v method = some args ∧ carried args.left args'.left ∧ carried args.close args'.close
      ∧ (args.isEmpty v → args'.isEmpty u) ∧ args.commas.length ≤ args'.commas.length := by
  obtain ⟨hleft, hclose, -⟩ := arguments?_spec hargs
  obtain ⟨left, hcarriedLeft, hleft'⟩ := h.link hmeth (by decide) hleft
  obtain ⟨close, hclose', hcarriedClose⟩ := h.closes hcarriedLeft hclose
  obtain ⟨hlt, hsize⟩ := lt_close hclose'
  obtain ⟨_, _, _, -, hbal⟩ := close_iff.mp hclose'
  obtain ⟨commas, hcommas⟩ := exists_topCommas? (Nat.le_of_lt hsize) hlt hbal
  have harguments : Call.arguments? v method = some ⟨left, close, commas⟩ := by
    unfold Call.arguments?
    simp only [bind_eq_bind, hleft', bind_some, hclose', hcommas]
    rfl
  refine ⟨⟨left, close, commas⟩, harguments, hcarriedLeft, hcarriedClose, fun hempty => ?_, ?_⟩
  · rw [Arguments.isEmpty, beq_iff_eq] at hempty ⊢
    exact h.empty ht hsig hname hleft' hclose' hempty hcarriedLeft hcarriedClose
  · -- each comma is carried to one of the new list, and no two to the same
    have hinto : ∀ p ∈ commas, ∃ q ∈ args'.commas, carried p q := by
      intro p hp
      obtain ⟨hlp, hpc, hkind, hbef⟩ := (mem_commas_iff harguments).mp hp
      obtain ⟨q, hpq, hbefore'⟩ := h.commas hcarriedLeft hclose' hlp hpc hkind hbef
      refine ⟨q, (mem_commas_iff hargs).mpr ⟨?_, ?_, ?_, hbefore'⟩, hpq⟩
      · exact (h.order hcarriedLeft hpq).mp hlp
      · exact (h.order hpq hcarriedClose).mp hpc
      · rw [← h.kind_eq hpq, hkind]
    have hnodup : commas.Nodup := (topCommas?_pairwise hcommas).imp Nat.ne_of_lt
    exact length_le_of_carried hnodup hinto fun _ _ _ hp hp' => h.injective hp hp'

end

/-! ## §6. Every pattern. -/

variable {table : AliasTable} {head head' : Head}

theorem not_construct_of_method {method : String}
    (h : p.methods.find? (sameWord · t.text) = some method) : t.isWord "__construct" = false := by
  have hmethods : ∀ p ∈ Pattern.catalog, ∀ m ∈ p.methods, m.toLower ≠ "__construct".toLower := by decide +kernel
  have hsame := find?_some h
  have hmem := hmethods p p.mem_catalog method (mem_of_find?_eq_some h)
  rw [← Bool.not_eq_true]
  intro hword
  rw [Token.isWord, Bool.and_eq_true, sameWord, beq_iff_eq] at hword
  rw [sameWord, beq_iff_eq] at hsame
  exact hmem (hsame.trans hword.2)

theorem matchHead? (h : KeepsCalls v u carried) {method : String}
    (hmeth : carried head.method head'.method) (ht : v.get? head.method = some t) (hsig : t.isTrivia = false)
    (hname : t.isWord "__construct" = false) (hmatch : (p.matchHead? table u head' method).isSome) :
    (p.matchHead? table v head method).isSome := by
  obtain ⟨inv, hinv⟩ := isSome_iff_exists.mp hmatch
  cases head_recognised hinv with
  | translation argument selects names text opens =>
    obtain ⟨close, hclose, hargument⟩ := h.literalArgument? hmeth argument
    obtain ⟨arrow, harrow, hsel⟩ := h.link hclose (by decide) selects
    obtain ⟨member, hmem, hnames⟩ := h.selected harrow (.inr (followedBy?_spec selects).2.1) names
    obtain ⟨left, -, hopens⟩ := h.link hmem (by decide) opens
    simp [Pattern.matchHead?, matchHelperTranslate?, hargument, hsel, hnames, h.text_eq hmem, text, hopens]
  | helper argument resolves =>
    obtain ⟨close, -, hargument⟩ := h.literalArgument? hmeth argument
    simp [Pattern.matchHead?, matchHelper?, hargument, resolves]
  | @model arg cls _ kind factory aliased argument resolves =>
    obtain ⟨close, -, hargument⟩ := h.literalArgument? hmeth argument
    have hmodel : ∀ q, (matchModel? table q kind factory v head).isSome := by
      simp [matchModel?, hargument, resolves]
    simp only [mem_cons, Prod.mk.injEq, not_mem_nil, or_false] at aliased
    rcases aliased with ⟨rfl, rfl, rfl⟩ | ⟨rfl, rfl, rfl⟩ | ⟨rfl, rfl, rfl⟩ <;> exact hmodel _
  | service serves _ opens =>
    obtain ⟨left, -, hopens⟩ := h.link hmeth (by decide) opens
    have hservice : ∀ q m c target, (matchService? q m c target v head).isSome := by
      simp [matchService?, hopens]
    simp only [mem_cons, Prod.mk.injEq, not_mem_nil, or_false] at serves
    rcases serves with ⟨rfl, rfl⟩ | ⟨rfl, rfl⟩ | ⟨rfl, rfl⟩ <;> exact hservice _ _ _ _
  | storeConfig reads arguments filled scope =>
    obtain ⟨args, hargs, -, -, hempty, hcommas⟩ := h.arguments? hmeth ht hsig hname arguments
    have hfilled : ¬ args.isEmpty v := fun hnone => by
      rw [hempty hnone] at filled
      cases filled
    -- there is at most one comma, as in the other list
    have hlen : args.commas.length ≤ 1 := by
      refine Nat.le_trans hcommas ?_
      cases scope with
      | atClose none => simp [none]
      | atComma one => simp [one]
    have hstore : ∀ q getter, (matchStoreConfig? q getter v head).isSome := by
      intro q getter
      simp only [matchStoreConfig?, bind_eq_bind, hargs, bind_some, if_neg hfilled]
      match args.commas, hlen with
      | [], _ => rfl
      | [comma], _ => rfl
    simp only [mem_cons, Prod.mk.injEq, not_mem_nil, or_false] at reads
    rcases reads with ⟨rfl, rfl⟩ | ⟨rfl, rfl⟩ <;> exact hstore _ _
  | exception _ _ arguments filled =>
    obtain ⟨args, hargs, -, -, hempty, -⟩ := h.arguments? hmeth ht hsig hname arguments
    have hfilled : ¬ args.isEmpty v := fun hnone => by
      rw [hempty hnone] at filled
      cases filled
    simp [Pattern.matchHead?, matchThrowException?, hargs, hfilled]
  | appStore opens closes selects names known =>
    obtain ⟨left, hleft, hopens⟩ := h.link hmeth (by decide) opens
    obtain ⟨close, hclose, hcloses⟩ := h.closing hleft (followedBy?_spec opens).2.1 (.nil _) balanced_nil hleft closes
    obtain ⟨arrow, harrow, hsel⟩ := h.link hclose (by decide) selects
    obtain ⟨member, hmem, hnames⟩ := h.selected harrow (.inr (followedBy?_spec selects).2.1) names
    simp [Pattern.matchHead?, matchAppStore?, hopens, hcloses, hsel, hnames, h.text_eq hmem, known]

theorem match?_isSome (h : KeepsCalls v u carried) (hij : carried i j)
    (hhead' : Call.head? u j = some head') (hmatch : (p.match? table u head').isSome) :
    ∃ head, Call.head? v i = some head ∧ (p.match? table v head).isSome := by
  obtain ⟨inv, hinv⟩ := isSome_iff_exists.mp hmatch
  obtain ⟨method, hfind, hinv⟩ := bind_eq_some_iff.mp hinv
  obtain ⟨name, hname, hhead⟩ := h.head? hij hhead'
  obtain ⟨t, htv, htu⟩ := h.same hname
  rw [text_of_get? htu] at hfind
  have hsig : t.isTrivia = false := by
    obtain ⟨-, -, -, hpath⟩ := head?_spec hhead
    have hsnoc : v.Follows i ([.doubleColon] ++ [.identifier]) name := hpath
    obtain ⟨colons, -, hlast⟩ := hsnoc.unsnoc
    have hkind := (followedBy?_spec hlast).2.1
    rw [kind?_get? htv, some.injEq] at hkind
    rw [Token.isTrivia, hkind]
    rfl
  refine ⟨⟨i, name⟩, hhead, ?_⟩
  rw [Pattern.match?, text_of_get? htv, hfind, bind_some]
  exact h.matchHead? hname htv hsig (not_construct_of_method hfind) (by rw [hinv]; rfl)

/-- **No call on a carried token is new.** -/
theorem matchAt?_isSome (h : KeepsCalls v u carried) (hij : carried i j)
    (hmatch : (matchAt? table u j).isSome) : (matchAt? table v i).isSome := by
  obtain ⟨inv, hinv⟩ := isSome_iff_exists.mp hmatch
  obtain ⟨head', hhead', hfind⟩ := bind_eq_some_iff.mp hinv
  obtain ⟨p, hp, hinv⟩ := exists_of_findSome?_eq_some hfind
  have hfits : (p.match? table u head').isSome := by rw [hinv]; rfl
  obtain ⟨head, hhead, hpat⟩ := h.match?_isSome hij hhead' hfits
  rw [matchAt?, hhead, bind_some, findSome?_isSome_iff]
  exact ⟨p, hp, hpat⟩

end KeepsCalls

end MageUplift.Call
