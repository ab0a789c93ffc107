import MageUplift.Proofs.ClassScope
import MageUplift.Proofs.CodeStretches
import MageUplift.Proofs.GeneratedTokens

/-!
# Assignments and uses in a constructor

What a constructor assigns is read off the significant tokens of its body (`assignedIn`). The injector adds its
assignments in one piece, in front of the first call of the parent's constructor or else at the end of the body; it
does not look at where the body uses the properties. So a converted call in a constructor finds its property
assigned only if the assignment was there before the call, or the parent's constructor is called before it.
-/

namespace MageUplift

open List Option Edit

variable {name : String} {t : Token} {rest ts : List Token} {cs : List Char}
variable {s : TokenStream} {use : Nat} {v : Collaborator} {vs : List Collaborator}

namespace Wiring

open Php TokenStream
open Call (Collaborator)

/-! ## §1. Assignments among significant tokens. -/

/-- The property that `$this->name =` assigns, where `t` is its first token and `rest` follows. -/
def assignedBy? (t : Token) (rest : List Token) : Option String :=
  match rest with
  | arrow :: name :: equals :: _ =>
    if t.kind = .variableName ∧ t.text = "$this" ∧ arrow.kind = .arrow ∧ name.kind = .identifier ∧ equals.kind = .equals
    then some name.text else none
  | _ => none

def assignedIn : List Token → List String
  | [] => []
  | t :: rest => (assignedBy? t rest).toList ++ assignedIn rest

theorem assignedIn_cons (t : Token) (rest : List Token) :
    assignedIn (t :: rest) = (assignedBy? t rest).toList ++ assignedIn rest := rfl

theorem assignedBy?_cons (t arrow name equals : Token) (more : List Token) :
    assignedBy? t (arrow :: name :: equals :: more)
      = if t.kind = .variableName ∧ t.text = "$this" ∧ arrow.kind = .arrow ∧ name.kind = .identifier
          ∧ equals.kind = .equals then some name.text else none := rfl

theorem mem_assignedIn_iff :
    name ∈ assignedIn ts ↔ ∃ front t rest, ts = front ++ t :: rest ∧ assignedBy? t rest = some name := by
  induction ts with
  | nil => simp [assignedIn]
  | cons u ts ih =>
    rw [assignedIn_cons, mem_append, mem_toList, ih]
    constructor
    · rintro (h | ⟨front, t, rest, rfl, h⟩)
      · exact ⟨[], u, ts, rfl, h⟩
      · exact ⟨u :: front, t, rest, rfl, h⟩
    · rintro ⟨front, t, rest, heq, h⟩
      cases front with
      | nil =>
        cases heq
        exact .inl h
      | cons w front =>
        cases heq
        exact .inr ⟨front, t, rest, rfl, h⟩

theorem assignedBy?_iff : assignedBy? t rest = some name
      ↔ t.kind = .variableName ∧ t.text = "$this" ∧ ∃ arrow n equals more, rest = arrow :: n :: equals :: more
        ∧ arrow.kind = .arrow ∧ n.kind = .identifier ∧ equals.kind = .equals ∧ n.text = name := by
  match rest with
  | arrow :: n :: equals :: more =>
    rw [assignedBy?_cons, ite_none_right_eq_some, some.injEq]
    constructor
    · rintro ⟨⟨hthis, htext, harrow, hname, hequals⟩, rfl⟩
      exact ⟨hthis, htext, arrow, n, equals, more, rfl, harrow, hname, hequals, rfl⟩
    · rintro ⟨hthis, htext, _, _, _, _, hrest, harrow, hname, hequals, htext'⟩
      cases hrest
      exact ⟨⟨hthis, htext, harrow, hname, hequals⟩, htext'⟩
  | [] | [_] | [_, _] => exact ⟨nofun, fun ⟨_, _, _, _, _, _, hrest, _⟩ => nomatch hrest⟩

/-- The tokens do not go on with an assignment that begins in front of them. -/
def StartsApart : List Token → Prop
  | [] => True
  | t :: rest => t.kind ≠ .arrow ∧ t.kind ≠ .equals ∧ (t.kind = .identifier → ∀ u ∈ rest.head?, u.kind ≠ .equals)

theorem assignedBy?_append {x y : List Token} (hy : StartsApart y) : assignedBy? t (x ++ y) = assignedBy? t x := by
  match x, y with
  | _ :: _ :: _ :: _, _ => rfl
  | x, [] => rw [append_nil]
  | [a, b], u :: ys =>
    rw [cons_append, cons_append, nil_append, assignedBy?_cons, if_neg fun h => hy.2.1 h.2.2.2.2]
    rfl
  | [a], [u] | [], [u] | [], [u, w] => rfl
  | [a], u :: w :: ys =>
    have hnot : ¬ (u.kind = .identifier ∧ w.kind = .equals) := fun h => hy.2.2 h.1 w rfl h.2
    rw [cons_append, nil_append, assignedBy?_cons, if_neg fun h => hnot h.2.2.2]
    rfl
  | [], u :: w :: x :: ys =>
    rw [nil_append, assignedBy?_cons, if_neg fun h => hy.1 h.2.2.1]
    rfl

theorem assignedIn_append {x y : List Token} (hy : StartsApart y) :
    assignedIn (x ++ y) = assignedIn x ++ assignedIn y := by
  induction x with
  | nil => rfl
  | cons t x ih => rw [cons_append, assignedIn_cons, assignedIn_cons, assignedBy?_append hy, ih, append_assoc]

theorem assignedAt?_iff {stop i : Nat} : assignedAt? s stop i = some name
      ↔ ∃ t, s.get? i = some t ∧ assignedBy? t (s.codeIn (i + 1) stop) = some name := by
  simp only [assignedBy?_iff]
  constructor
  · intro h
    rw [assignedAt?] at h
    split at h
    · rename_i hthis
      rw [Bool.and_eq_true, hasKind, beq_iff_eq, decide_eq_true_eq] at hthis
      obtain ⟨arrow, harrow, h⟩ := bind_eq_some_iff.mp h
      obtain ⟨n, hn, h⟩ := bind_eq_some_iff.mp h
      obtain ⟨equals, hequals, h⟩ := bind_eq_some_iff.mp h
      split at h
      · rename_i hlt
        cases h
        have h₁ := lt_of_followedBy? hn
        have h₂ := lt_of_followedBy? hequals
        obtain ⟨t, ht, htk⟩ := map_eq_some_iff.mp hthis.1
        obtain ⟨harrow, hka⟩ := followedBy?_iff.mp harrow
        obtain ⟨hn, hkn⟩ := followedBy?_iff.mp hn
        obtain ⟨hequals, hke⟩ := followedBy?_iff.mp hequals
        obtain ⟨ta, hta, hka⟩ := map_eq_some_iff.mp hka
        obtain ⟨tn, htn, hkn⟩ := map_eq_some_iff.mp hkn
        obtain ⟨te, hte, hke⟩ := map_eq_some_iff.mp hke
        refine ⟨t, ht, htk, text_of_get? ht ▸ hthis.2, ta, tn, te, s.codeIn (equals + 1) stop, ?_, hka, hkn, hke,
          (text_of_get? htn).symm⟩
        rw [codeIn_next harrow hta (by omega), codeIn_next hn htn (by omega), codeIn_next hequals hte hlt]
      · cases h
    · cases h
  · rintro ⟨t, ht, hkind, htext, ta, tn, te, more, hcode, hka, hkn, hke, rfl⟩
    obtain ⟨arrow, harrow, hta, -, hcode⟩ := next_of_codeIn hcode
    obtain ⟨n, hn, htn, -, hcode⟩ := next_of_codeIn hcode
    obtain ⟨equals, hequals, hte, hlt, -⟩ := next_of_codeIn hcode
    have hthis : (s.hasKind i .variableName && decide (s.text i = "$this")) := by
      rw [Bool.and_eq_true, hasKind, beq_iff_eq, decide_eq_true_eq, kind?_get? ht, hkind, text_of_get? ht]
      exact ⟨rfl, htext⟩
    rw [assignedAt?, if_pos hthis, followedBy?_iff.mpr ⟨harrow, by rw [kind?_get? hta, hka]⟩]
    show ((s.followedBy? arrow .identifier).bind fun name => _) = _
    rw [followedBy?_iff.mpr ⟨hn, by rw [kind?_get? htn, hkn]⟩]
    show ((s.followedBy? n .equals).bind fun equals => _) = _
    rw [followedBy?_iff.mpr ⟨hequals, by rw [kind?_get? hte, hke]⟩]
    show (if equals < stop then some (s.text n) else none) = _
    rw [if_pos hlt, text_of_get? htn]

theorem exists_assignedAt?_iff {s : TokenStream} {a b stop : Nat} {name : String} (hb : b ≤ stop)
    (hapart : StartsApart (s.codeIn b stop)) :
    (∃ i, a ≤ i ∧ i < b ∧ assignedAt? s stop i = some name) ↔ name ∈ assignedIn (s.codeIn a b) := by
  have key : ∀ i t, i < b → (assignedBy? t (s.codeIn (i + 1) stop) = some name
      ↔ assignedBy? t (s.codeIn (i + 1) b) = some name) := by
    intro i t hi
    rw [codeIn_append s (Nat.succ_le_of_lt hi) hb, assignedBy?_append hapart]
  simp only [assignedAt?_iff]
  rw [mem_assignedIn_iff]
  constructor
  · rintro ⟨i, hai, hib, t, ht, h⟩
    have hsig : t.isTrivia = false := by
      rw [Token.isTrivia, (assignedBy?_iff.mp h).1]
      rfl
    exact ⟨s.codeIn a i, t, s.codeIn (i + 1) b,
      by rw [codeIn_append s hai hib.le, codeIn_code ht hsig hib], (key i t hib).mp h⟩
  · rintro ⟨front, t, rest, hsplit, h⟩
    obtain ⟨i, hai, hib, ht, rfl⟩ := exists_place_of_codeIn hsplit
    exact ⟨i, hai, hib, t, ht, (key i t hib).mpr h⟩

theorem mem_assignedProperties_iff {c : Constructor} :
    name ∈ assignedProperties s c ↔ name ∈ assignedIn (s.codeIn (c.bodyLeft + 1) c.bodyRight) := by
  rw [← exists_assignedAt?_iff le_rfl (by rw [codeIn_self]; trivial), assignedProperties, mem_filterMap]
  refine exists_congr fun i => ?_
  rw [mem_range'_1, ← and_assoc]
  refine and_congr_left fun _ => ?_
  omega

/-! ## §2. New assignments. -/

theorem assignedBy?_eq_none (h : t.kind ≠ .variableName) : assignedBy? t rest = none := by
  rw [eq_none_iff_forall_ne_some]
  exact fun name hname => h (assignedBy?_iff.mp hname).1

theorem assignedIn_of_no_variable (h : ∀ t ∈ ts, t.kind ≠ .variableName) :
    assignedIn (ts ++ rest) = assignedIn rest := by
  induction ts with
  | nil => rfl
  | cons t ts ih =>
    rw [cons_append, assignedIn_cons, assignedBy?_eq_none (h t mem_cons_self),
      ih (forall_mem_cons.mp h).2]
    rfl

theorem assignedIn_identifier (hname : isIdentifier v.name.toList) (rest : List Token) :
    assignedIn (assignmentTokens v ++ rest) = v.name :: assignedIn rest := by
  have hthis : assignedBy? (variableToken "this") (⟨.arrow, "->"⟩ :: ⟨.identifier, v.name⟩ :: ⟨.equals, "="⟩
      :: variableToken v.name :: ⟨.semicolon, ";"⟩ :: rest) = some v.name :=
    assignedBy?_iff.mpr ⟨rfl, by decide, _, _, _, _, rfl, rfl, rfl, rfl, rfl⟩
  have hvar : assignedBy? (variableToken v.name) (⟨.semicolon, ";"⟩ :: rest) = none := by
    rw [eq_none_iff_forall_ne_some]
    intro name h
    obtain ⟨-, -, arrow, _, _, _, hrest, harrow, -⟩ := assignedBy?_iff.mp h
    cases hrest
    cases harrow
  rw [assignmentTokens_eq hname]
  simp only [cons_append, nil_append, assignedIn_cons]
  rw [hthis, hvar, assignedBy?_eq_none (t := ⟨.arrow, "->"⟩) nofun,
    assignedBy?_eq_none (t := ⟨.identifier, v.name⟩) nofun,
    assignedBy?_eq_none (t := ⟨.equals, "="⟩) nofun, assignedBy?_eq_none (t := ⟨.semicolon, ";"⟩) nofun]
  rfl

theorem nextIs_of_not_identifier (hcs : IsNameText cs) (h : isIdentifier cs = false) :
    nextIs isNameStart cs = false := by
  cases cs with
  | nil => rfl
  | cons c w =>
    rw [isIdentifier, Bool.and_eq_false_iff] at h
    rcases h with h | h
    · exact h
    · rw [List.all_eq_false] at h
      obtain ⟨x, hx, hnot⟩ := h
      exact absurd (hcs x (mem_cons_of_mem c hx)) hnot

theorem codeTokens_digit {c : Char} {w : List Char} (hc : c.isDigit) (last : Option Kind) :
    ∃ t rest, codeTokens last (c :: w) = t :: rest ∧ t.kind = .number := by
  obtain ⟨more, hlex, -, -⟩ := phpLexeme_digit (w := w) (y := []) hc (.inl rfl) last
  rw [codeTokens_cons (by rw [hlex]; rfl), hlex]
  exact ⟨_, _, rfl, rfl⟩

theorem assignedBy?_malformed (hplain : IsNameText cs) (hname : isIdentifier cs = false) (more : List Token) :
    assignedBy? (variableToken "this") (⟨.arrow, "->"⟩ :: (codeTokens (some .arrow) cs ++ ⟨.equals, "="⟩ :: more))
      = none := by
  have hstart := nextIs_of_not_identifier hplain hname
  rw [eq_none_iff_forall_ne_some]
  intro name h
  obtain ⟨-, -, arrow, n, equals, _, hrest, -, hkind, -⟩ := assignedBy?_iff.mp h
  cases cs with
  | nil =>
    rw [codeTokens_nil, nil_append] at hrest
    cases hrest
    cases hkind
  | cons c w =>
    obtain ⟨t, ts, htoks, hnumber⟩ := codeTokens_digit (w := w)
      (isDigit_of_isNamePart (hplain c mem_cons_self) hstart) (some .arrow)
    rw [htoks, cons_append, cons.injEq, cons.injEq] at hrest
    rw [← hrest.2.1, hnumber] at hkind
    cases hkind

theorem assignedIn_malformed (hplain : IsNameText v.name.toList)
    (hname : isIdentifier v.name.toList = false) (rest : List Token) :
    assignedIn (assignmentTokens v ++ rest) = assignedIn rest := by
  have hstart := nextIs_of_not_identifier hplain hname
  have hdollar : codeTokens (some .equals) ('$' :: v.name.toList)
      = ⟨.dollar, "$"⟩ :: codeTokens (some .dollar) v.name.toList := by
    simpa using @codeTokens_dollar _ [] hstart rfl (some .equals)
  have hkinds : ∀ last, ∀ t ∈ codeTokens last v.name.toList, t.kind ≠ .variableName := fun last =>
    (codeTokens_nameText (y := []) hplain (.inl rfl) last).2
  -- the name falls apart into a number and what follows it, and none of that is a variable
  have hnone : ∀ t ∈ ⟨.arrow, "->"⟩ :: (codeTokens (some .arrow) v.name.toList ++ ⟨.equals, "="⟩
      :: (codeTokens (some .equals) ('$' :: v.name.toList) ++ [⟨.semicolon, ";"⟩])), t.kind ≠ .variableName := by
    rw [hdollar]
    intro t ht
    simp only [mem_cons, mem_append, not_mem_nil, or_false] at ht
    rcases ht with rfl | ht | rfl | (rfl | ht) | rfl
    · nofun
    · exact hkinds _ t ht
    · nofun
    · nofun
    · exact hkinds _ t ht
    · nofun
  rw [assignmentTokens, cons_append, assignedIn_cons, assignedIn_of_no_variable hnone, cons_append, append_assoc,
    cons_append, assignedBy?_malformed hplain hname]
  rfl

theorem assignedIn_assignments (hvs : ∀ v ∈ vs, IsNameText v.name.toList) (rest : List Token) :
    assignedIn (vs.flatMap assignmentTokens ++ rest)
      = (vs.filter fun v => isIdentifier v.name.toList).map (·.name) ++ assignedIn rest := by
  induction vs with
  | nil => rfl
  | cons v vs ih =>
    rw [flatMap_cons, append_assoc, filter_cons]
    have ih := ih (forall_mem_cons.mp hvs).2
    cases hname : isIdentifier v.name.toList with
    | true => rw [assignedIn_identifier hname, ih]; rfl
    | false => rw [assignedIn_malformed (hvs v mem_cons_self) hname, ih]; rfl

theorem startsApart_assignments (hrest : StartsApart rest) : StartsApart (vs.flatMap assignmentTokens ++ rest) := by
  cases vs with
  | nil => exact hrest
  | cons v vs => exact ⟨nofun, nofun, nofun⟩

/-! ## §3. The body of the constructor after the injection. -/

section

variable {s : TokenStream} {indent : String} {r : Requirements} {inserts : List (Edit Token)} {cls : ClassBody}
    {m : Members}
  {c : Constructor}

theorem significant_in_body (h : IsInjection s indent r inserts) (hr : r.isEmpty = false) (hcls : classBody s = .ok cls)
    (hm : members s cls = .ok m) (hc : m.ctor = some c) {i : Nat} (hi : c.bodyLeft ≤ i) :
    (i ≠ assignmentSpot s c → generatedAt inserts i = [])
      ∧ significant (generatedAt inserts i)
        = if i = assignmentSpot s c then (unassigned s c r).flatMap assignmentTokens else [] := by
  have hins := inject_of_some hr h.answer hcls hm hc
  have hnamed := members_named hm hc
  have hwell := members_ctor hm hc
  have hlist := lt_close hwell.parameters
  have hparam := (parameterSpot_bounds hwell indent
    ((missingParameters (parameterList s c) r).map parameterCode)).2
  have hbody := hnamed.body
  have hin := hnamed.inside
  have hread := (@reads_assignmentInsertion s _ c (unassigned s c r) h.indented
    hwell.isIndentText fun v hv => (h.plain v (mem_filter.mp hv).1).name).tokens
  rw [hins, generatedAt_extension, if_neg (by omega), if_neg (show i ≠ cls.left + 1 by omega), assignment_spot,
    nil_append, append_nil]
  constructor
  · intro hne
    rw [if_neg fun h => hne h.2]
  · by_cases hspot : i = assignmentSpot s c
    · by_cases hnil : unassigned s c r = []
      · rw [if_neg fun h => h.1 hnil, if_pos hspot, hnil]
        rfl
      · rw [if_pos ⟨hnil, hspot⟩, if_pos hspot, lexFragment_code, hread]
    · rw [if_neg fun h => hspot h.2, if_neg hspot]
      rfl

theorem spot_lt_iff (ht : s.get? use = some t) (hkind : t.kind = .variableName)
    (hright : use < c.bodyRight) : assignmentSpot s c ≠ use
      ∧ (assignmentSpot s c < use ↔ ∃ call, parentCall? s c = some call ∧ call < use) := by
  rw [assignmentSpot]
  cases hcall : parentCall? s c with
  | some call =>
    obtain ⟨u, hu, hword, -⟩ := isWord_parentCall (parentCall_spec hcall).2.2
    refine ⟨?_, by simp⟩
    show call ≠ use
    rintro rfl
    rw [ht, some.injEq] at hu
    subst hu
    rw [Token.isWord, hkind] at hword
    cases hword
  | none =>
    have hspot : use < trailingBlankStart s c.bodyLeft c.bodyRight := by
      refine Nat.lt_of_not_le fun hle => ?_
      have := (triviaIn_trailing s c.bodyLeft c.bodyRight).isTrivia hle hright ht
      rw [Token.isTrivia, hkind] at this
      cases this
    simp only [getD_none, reduceCtorEq, false_and, exists_false, iff_false]
    omega

theorem codeIn_before (h : IsInjection s indent r inserts) (hr : r.isEmpty = false) (hcls : classBody s = .ok cls)
    (hm : members s cls = .ok m) (hc : m.ctor = some c) (ht : s.get? use = some t)
    (hkind : t.kind = .variableName) (hleft : c.bodyLeft < use) (hright : use < c.bodyRight) :
    (s.woven inserts).codeIn (placeOf s.tokens.toList inserts c.bodyLeft + 1) (placeOf s.tokens.toList inserts use)
      = if assignmentSpot s c < use
        then s.codeIn (c.bodyLeft + 1) (assignmentSpot s c) ++ (unassigned s c r).flatMap assignmentTokens
          ++ s.codeIn (assignmentSpot s c) use else s.codeIn (c.bodyLeft + 1) use := by
  have hwell := members_ctor hm hc
  have hsize := lt_get? ht
  have hbody := fun {i : Nat} (hi : c.bodyLeft ≤ i) => significant_in_body h hr hcls hm hc hi
  have hcov := h.covers_eq_false
  have hne := (spot_lt_iff ht hkind hright).1
  have hbounds := (spot_bounds hwell).1
  -- behind the brace the stretch begins, and nothing new stands directly in front of the use
  have hstart : placeOf s.tokens.toList inserts c.bodyLeft + 1 = s.offsetIn inserts (c.bodyLeft + 1) :=
    (KeptAt.offsetOf_succ (h.kept (by omega))).symm
  have hend : placeOf s.tokens.toList inserts use = s.offsetIn inserts use := by
    rw [placeOf, (hbody hleft.le).1 (Ne.symm hne)]
    rfl
  rw [hstart, hend]
  split
  · rename_i hlt
    rw [codeIn_woven_insert (u := assignmentSpot s c) hbounds hlt hsize.le (fun i _ _ => hcov i)
      (fun i h₁ _ hi => (hbody (by omega)).1 hi), (hbody hbounds.le).2, if_pos rfl]
  · exact codeIn_woven hleft hsize.le fun i h₁ h₂ => ⟨(hbody (by omega)).1 (by omega), hcov i⟩

theorem startsApart_parentCall {call stop : Nat} (h : parentCall? s c = some call) :
    StartsApart (s.codeIn call stop) := by
  have hcall := (parentCall_spec h).2.2
  rw [isParentCall, Bool.and_eq_true, Option.any_eq_true, Option.any_eq_true] at hcall
  obtain ⟨⟨t, ht, hword⟩, _, hconstruct, -⟩ := hcall
  obtain ⟨colons, hcolons, -⟩ := bind_eq_some_iff.mp hconstruct
  obtain ⟨hnext, hkind⟩ := followedBy?_iff.mp hcolons
  obtain ⟨u, hu, hk⟩ := map_eq_some_iff.mp hkind
  have hname : t.kind.isName := by
    rw [Token.isWord, Bool.and_eq_true] at hword
    exact hword.1
  by_cases hlt : call < stop
  · rw [codeIn_code ht (isTrivia_of_isWord hword).1 hlt]
    have hmark : t.kind ≠ .arrow ∧ t.kind ≠ .equals := by
      constructor <;> intro h <;> rw [h] at hname <;> cases hname
    refine ⟨hmark.1, hmark.2, fun _ w hw => ?_⟩
    -- what follows, as far as it belongs to the stretch, begins with the colons
    cases hrest : s.codeIn (call + 1) stop with
    | nil => rw [hrest] at hw; cases hw
    | cons x rest =>
      obtain ⟨j, hj, hx, -, -⟩ := next_of_codeIn hrest
      rw [hrest, head?_cons, mem_some_iff] at hw
      rw [hnext, some.injEq] at hj
      subst hj hw
      rw [hu, some.injEq] at hx
      subst hx
      rw [hk]
      decide
  · rw [codeIn, Nat.sub_eq_zero_of_le (Nat.le_of_not_lt hlt), take_zero]
    trivial

theorem mem_identified_names :
    name ∈ (vs.filter fun v => isIdentifier v.name.toList).map (·.name)
      ↔ isIdentifier name.toList ∧ name ∈ vs.map (·.name) := by
  simp only [List.mem_map, mem_filter]
  constructor
  · rintro ⟨v, ⟨hv, hname⟩, rfl⟩
    exact ⟨hname, v, hv, rfl⟩
  · rintro ⟨hname, v, hv, rfl⟩
    exact ⟨v, ⟨hv, hname⟩, rfl⟩

theorem assigned_before_iff (h : IsInjection s indent r inserts) (hr : r.isEmpty = false) (hcls : classBody s = .ok cls)
    (hm : members s cls = .ok m) (hc : m.ctor = some c) (ht : s.get? use = some t)
    (hkind : t.kind = .variableName) (hleft : c.bodyLeft < use) (hright : use < c.bodyRight) (name : String) :
    (∃ a, placeOf s.tokens.toList inserts c.bodyLeft < a ∧ a < placeOf s.tokens.toList inserts use
        ∧ assignedAt? (s.woven inserts) (placeOf s.tokens.toList inserts c.bodyRight) a = some name)
      ↔ (∃ a, c.bodyLeft < a ∧ a < use ∧ assignedAt? s c.bodyRight a = some name)
        ∨ (isIdentifier name.toList ∧ name ∈ (unassigned s c r).map (·.name)
          ∧ ∃ call, parentCall? s c = some call ∧ call < use) := by
  have hwell := members_ctor hm hc
  have hsig : t.isTrivia = false := by
    rw [Token.isTrivia, hkind]
    rfl
  have hapart : ∀ {rest : List Token}, StartsApart (t :: rest) := by
    intro rest
    simp [StartsApart, hkind]
  have huse := h.kept (lt_get? ht)
  have hclose : c.bodyRight < s.size := (lt_close hwell.body).2
  have hplace : placeOf s.tokens.toList inserts use < placeOf s.tokens.toList inserts c.bodyRight :=
    (KeptAt.lt_iff huse (h.kept hclose)).mp hright
  have hold := @exists_assignedAt?_iff s (c.bodyLeft + 1) use c.bodyRight name hright.le
    (by rw [codeIn_code ht hsig hright]; exact hapart)
  have hnew := @exists_assignedAt?_iff (s.woven inserts) (placeOf s.tokens.toList inserts c.bodyLeft + 1) _ _ name
    hplace.le (by rw [codeIn_code (huse.get?.trans ht) hsig hplace]; exact hapart)
  obtain ⟨-, hspot⟩ := spot_lt_iff ht hkind hright
  simp only [Nat.succ_le_iff] at hold hnew
  rw [hold, hnew, codeIn_before h hr hcls hm hc ht hkind hleft hright, ← hspot]
  split
  · rename_i hlt
    -- the assignments stand in front of the parent's call, and neither joins with what stands before it
    obtain ⟨call, hcall, -⟩ := hspot.mp hlt
    have hcallSpot : assignmentSpot s c = call := by rw [assignmentSpot, hcall]; rfl
    have hpar : StartsApart (s.codeIn (assignmentSpot s c) use) := by
      rw [hcallSpot]
      exact startsApart_parentCall hcall
    have hplain : ∀ v ∈ unassigned s c r, IsNameText v.name.toList := fun v hv => (h.plain v (mem_filter.mp hv).1).name
    rw [codeIn_append s (spot_bounds hwell).1 hlt.le, append_assoc, assignedIn_append (startsApart_assignments hpar),
      assignedIn_assignments hplain, assignedIn_append hpar]
    simp only [mem_append, hlt, and_true, mem_identified_names]
    constructor
    · rintro (h | h | h)
      · exact .inl (.inl h)
      · exact .inr h
      · exact .inl (.inr h)
    · rintro ((h | h) | h)
      · exact .inl h
      · exact .inr (.inr h)
      · exact .inr (.inl h)
  · rename_i hlt
    simp only [hlt, and_false, or_false]

end

end Wiring

/-! ## §4. Uses of collaborators. -/

open Php TokenStream Call Wiring Magento

def ReadsProperty (s : TokenStream) (i : Nat) (name : String) : Prop :=
  ∃ more, s.codeIn i s.size = variableToken "this" :: ⟨.arrow, "->"⟩ :: ⟨.identifier, name⟩ :: more

/-- Where the code of a call begins in the converted stream. -/
def useOf (table : AliasTable) (s : TokenStream) (inv : Invocation) : Nat := s.offsetIn (callEdits table s) inv.span.start

/-- Where a token of the converted stream stands among the tokens that the two batches put together. -/
def Migrator.settle (m : Migrator) (s : TokenStream) (i : Nat) : Nat :=
  Edit.placeOf (convertedStream m.table s).tokens.toList (m.insertions s) i

theorem readsProperty_useOf {table : AliasTable} {inv : Invocation} (hinv : inv ∈ scan table s)
    (hv : inv.collaborator = some v) :
    (∃ t, (convertedStream table s).get? (useOf table s inv) = some t ∧ t.kind = .variableName)
      ∧ (isIdentifier v.name.toList → ReadsProperty (convertedStream table s) (useOf table s inv) v.name) := by
  have hcall := isCall_mem hinv
  obtain ⟨target, htarget, hmod⟩ := (matchAt?_form hcall).modern_of_collaborator hv
  have hsize := hcall.start_lt_size
  have hgen := generatedAt_head hinv
  constructor
  · obtain ⟨t, rest, hcode, hkind⟩ := lexFragment_property v target
    refine ⟨t, ?_, hkind⟩
    have hfst := @get?_woven_new s (callEdits table s) inv.span.start 0 hsize.le
      (by rw [hgen, hmod, hcode]; exact Nat.zero_lt_succ _)
    rw [hgen, hmod, hcode] at hfst
    exact hfst
  · intro hname
    have hplace : useOf table s inv ≤ placeOf s.tokens.toList (callEdits table s) inv.span.start :=
      offset_le_place _
    have hlast : placeOf s.tokens.toList (callEdits table s) inv.span.start ≤ (convertedStream table s).size :=
      placeOf_le_size hsize.le
    have hcode : (convertedStream table s).codeIn (useOf table s inv)
        (placeOf s.tokens.toList (callEdits table s) inv.span.start) = codeTokens none inv.modern.toList := by
      rw [← lexFragment_code, ← hgen]
      exact codeIn_new hsize.le
    rw [hmod, codeTokens_property hname (propertyTargets_quiet target htarget).1] at hcode
    exact ⟨_, by rw [codeIn_append _ hplace hlast, hcode]; rfl⟩

/-- **When the property of a converted call is assigned before it is read.** In the stream that the injector returns,
whose text is read anew, an assignment stands in front of the use in the body of the constructor exactly if it stood
there before, or if the injector adds one and the parent's constructor is called in front of the use. -/
theorem migrate_assigns_before_use {m : Migrator} {file : String} {s out : TokenStream} {report : FileReport}
    (htab : m.table.Reachable) (hind : IsIndentText m.indent.toList)
    (hrun : m.migrate file s = .ok (.converted out report)) {cls : ClassBody} {mem : Members} {c : Constructor}
    (hcls : classBody (convertedStream m.table s) = .ok cls) (hmem : members (convertedStream m.table s) cls = .ok mem)
    (hc : mem.ctor = some c) {inv : Invocation} {v : Collaborator} (hinv : inv ∈ scan m.table s)
    (hv : inv.collaborator = some v) (hleft : c.bodyLeft < useOf m.table s inv)
    (hright : useOf m.table s inv < c.bodyRight) :
    (∃ r, m.collect (scan m.table s) = .ok r
        ∧ Migrator.convertCalls s (scan m.table s) = .ok (convertedStream m.table s)
        ∧ m.wire (convertedStream m.table s) r = .ok (.ofTokens (m.edited s))
        ∧ out = (TokenStream.ofTokens (m.edited s)).refresh)
      ∧ (TokenStream.ofTokens (m.edited s)).matchingClose? (m.settle s c.bodyLeft) = some (m.settle s c.bodyRight)
      ∧ (isIdentifier v.name.toList = true → ReadsProperty (convertedStream m.table s) (useOf m.table s inv) v.name)
      ∧ ((∃ a, m.settle s c.bodyLeft < a ∧ a < m.settle s (useOf m.table s inv)
            ∧ assignedAt? (.ofTokens (m.edited s)) (m.settle s c.bodyRight) a = some v.name)
          ↔ (∃ a, c.bodyLeft < a ∧ a < useOf m.table s inv
              ∧ assignedAt? (convertedStream m.table s) c.bodyRight a = some v.name)
            ∨ (isIdentifier v.name.toList = true
              ∧ v.name ∉ (parameterList (convertedStream m.table s) c).promotedNames
              ∧ v.name ∉ assignedProperties (convertedStream m.table s) c
              ∧ ∃ call, parentCall? (convertedStream m.table s) c = some call ∧ call < useOf m.table s inv)) := by
  obtain ⟨r, hcoll, -, hinj, hedited⟩ := m.run_cases htab hind hrun
  obtain ⟨w, hw, hname⟩ := collect_names hcoll inv hinv v hv
  have hr : r.isEmpty = false := by
    rw [Requirements.isEmpty, isEmpty_eq_false_iff]
    exact ne_nil_of_mem hw
  obtain ⟨⟨t, ht, hkind⟩, hreads⟩ := readsProperty_useOf hinv hv
  have hwell := members_ctor hmem hc
  have hbrace := lt_close hwell.body
  refine ⟨?_, ?_, hreads, ?_⟩
  · obtain ⟨r, hcoll, hwire, hout⟩ := migrate_wired hrun
    exact ⟨r, hcoll, convertCalls_scan m.table s, hwire, hout⟩
  · rw [hedited, Migrator.settle, (hinj.kept (by omega)).matchingClose? hinj.passable hinj.nothing_at_end trivial,
      hwell.body]
    rfl
  · rw [hedited]
    refine (assigned_before_iff hinj hr hcls hmem hc ht hkind hleft hright v.name).trans
      (or_congr_right (and_congr_right fun _ => ?_))
    rw [← and_assoc]
    refine and_congr_left fun _ => ?_
    rw [List.mem_map]
    constructor
    · rintro ⟨u, hu, hname⟩
      simpa [unassigned, hname] using (List.mem_filter.mp hu).2
    · intro hnot
      exact ⟨w, List.mem_filter.mpr ⟨hw, by simpa [hname] using hnot⟩, hname⟩

/-- A constructor that calls its parent and then logs. -/
def logsBehindParent : TokenStream :=
  .ofSource "<?php class A extends B\x7bfunction __construct()\x7bparent::__construct();Mage::log(1);\x7d\x7d"

theorem migrate_assigns_before_use_logsBehindParent :
    ∃ out report cls mem c inv, defaultMigrator.migrate "A.php" logsBehindParent = .ok (.converted out report)
      ∧ classBody (convertedStream .builtin logsBehindParent) = .ok cls
      ∧ members (convertedStream .builtin logsBehindParent) cls = .ok mem ∧ mem.ctor = some c
      ∧ scan .builtin logsBehindParent = [inv] ∧ c.bodyLeft < useOf .builtin logsBehindParent inv
      ∧ useOf .builtin logsBehindParent inv < c.bodyRight
      ∧ ∃ a, defaultMigrator.settle logsBehindParent c.bodyLeft < a
        ∧ a < defaultMigrator.settle logsBehindParent (useOf .builtin logsBehindParent inv)
        ∧ assignedAt? (.ofTokens (defaultMigrator.edited logsBehindParent))
          (defaultMigrator.settle logsBehindParent c.bodyRight) a = some "logger" := by
  have hrun : convertsTo (fun _ _ => true) (defaultMigrator.migrate "A.php" logsBehindParent) = true := by
    rw [migrate_eq, show logsBehindParent = .ofTokens _ from ofSource_ofList _]
    decide +kernel
  have hread : ((scan .builtin logsBehindParent).length == 1 && (scan .builtin logsBehindParent).all fun inv =>
      hasConstructor (convertedStream .builtin logsBehindParent) fun c =>
        inv.collaborator == some logger && decide (c.bodyLeft < useOf .builtin logsBehindParent inv)
          && decide (useOf .builtin logsBehindParent inv < c.bodyRight)
          && (parameterList (convertedStream .builtin logsBehindParent) c).promotedNames.isEmpty
          && (assignedProperties (convertedStream .builtin logsBehindParent) c).isEmpty
          && (parentCall? (convertedStream .builtin logsBehindParent) c).any
            (decide <| · < useOf .builtin logsBehindParent inv)) = true := by
    rw [show logsBehindParent = .ofTokens _ from ofSource_ofList _]
    decide +kernel
  obtain ⟨out, report, hout, -⟩ := of_convertsTo hrun
  obtain ⟨inv, hinv, hread⟩ := exists_eq_singleton hread
  obtain ⟨cls, mem, c, hcls, hmem, hc, hread⟩ := of_hasConstructor hread
  simp only [Bool.and_eq_true, beq_iff_eq, decide_eq_true_eq, List.isEmpty_iff, Option.any_eq_true] at hread
  obtain ⟨⟨⟨⟨⟨hlogger, hleft⟩, hright⟩, hprom⟩, hasg⟩, call, hcall, hlt⟩ := hread
  obtain ⟨-, -, -, hiff⟩ := migrate_assigns_before_use .builtin (by decide) hout hcls hmem hc
    (hinv ▸ mem_singleton_self inv) hlogger hleft hright
  exact ⟨out, report, cls, mem, c, inv, hout, hcls, hmem, hc, hinv, hleft, hright, hiff.mpr (.inr
    ⟨by decide, List.eq_nil_iff_forall_not_mem.mp hprom _, List.eq_nil_iff_forall_not_mem.mp hasg _, call, hcall, hlt⟩)⟩

def logsInConstructor : TokenStream := .ofSource "<?php class A\x7bfunction __construct()\x7bMage::log(1);\x7d\x7d"

/-- Without a call of the parent's constructor, the migrated constructor reads its collaborator and assigns it
afterwards. -/
theorem migrate_reads_unassigned :
    ∃ out report cls mem c use, defaultMigrator.migrate "A.php" logsInConstructor = .ok (.converted out report)
      ∧ report.calls.map (·.modern) = ["$this->logger->debug"] ∧ classBody out = .ok cls ∧ members out cls = .ok mem
      ∧ mem.ctor = some c ∧ c.bodyLeft < use ∧ use < c.bodyRight ∧ ReadsProperty out use "logger"
      ∧ "logger" ∈ assignedProperties out c
      ∧ ∀ a, c.bodyLeft < a → a < use → assignedAt? out c.bodyRight a ≠ some "logger" := by
  have hrun : convertsTo (fun out report => hasConstructor out fun c =>
      report.calls.map (·.modern) == ["$this->logger->debug"] && decide (c.bodyLeft + 1 < c.bodyRight)
        && (out.codeIn (c.bodyLeft + 1) out.size).take 3
          == [variableToken "this", ⟨.arrow, "->"⟩, ⟨.identifier, "logger"⟩]
        && (assignedProperties out c).contains "logger") (defaultMigrator.migrate "A.php" logsInConstructor) = true := by
    rw [migrate_eq]
    simp only [refresh_ofTokens]
    rw [show logsInConstructor = .ofTokens _ from ofSource_ofList _]
    decide +kernel
  obtain ⟨out, report, hout, hrun⟩ := of_convertsTo hrun
  obtain ⟨cls, mem, c, hcls, hmem, hc, hrun⟩ := of_hasConstructor hrun
  simp only [Bool.and_eq_true, beq_iff_eq, decide_eq_true_eq, contains_eq_mem] at hrun
  obtain ⟨⟨⟨hmod, hright⟩, hreads⟩, hasg⟩ := hrun
  refine ⟨out, report, cls, mem, c, c.bodyLeft + 1, hout, hmod, hcls, hmem, hc, Nat.lt_succ_self _, hright,
    ⟨(out.codeIn (c.bodyLeft + 1) out.size).drop 3, ?_⟩, hasg, fun a h₁ h₂ => by omega⟩
  rw [← take_append_drop 3 (out.codeIn (c.bodyLeft + 1) out.size), hreads]
  rfl

end MageUplift
