import MageUplift.Proofs.CarriedTokens
import MageUplift.Proofs.DyckWords
import MageUplift.Proofs.InjectionPoints

/-!
# Lists are cut at the commas of their own level

The argument list of a call and the parameter list of a constructor are read by loops that jump over every bracket they
meet. Here the jumps are told without a loop: of the commas between the parentheses, those count that no bracket pair
behind the opening parenthesis encloses (`SplitsAt`).

Brackets between two parentheses that belong together are in pairs, and no pair reaches beyond the closing one. So a
jump always finds its closer and lands inside the list: the loops cannot fail, and the way out that the reader of
parameters has for an unclosed bracket is never taken.
-/

namespace MageUplift

open Php TokenStream Call Wiring

variable {method : Nat}

namespace Php.TokenStream

variable {s : TokenStream} {left right p : Nat}

/-! ## §1. Enclosed positions. -/

/-- A bracket pair that opens behind `left` has `p` between its brackets. -/
def Enclosed (s : TokenStream) (left p : Nat) : Prop :=
  ∃ o d, left < o ∧ o < p ∧ p < d ∧ s.matchingClose? o = some d

/-- The list between two brackets falls apart at the commas: in increasing order, they are those of the list that no
bracket pair of the list encloses. -/
structure SplitsAt (s : TokenStream) (left right : Nat) (commas : List Nat) : Prop where
  increasing : commas.Pairwise (· < ·)
  mem_iff : ∀ p, p ∈ commas ↔ left < p ∧ p < right ∧ s.kind? p = some .comma ∧ ¬ s.Enclosed left p

theorem SplitsAt.unique {commas commas' : List Nat} (h : s.SplitsAt left right commas)
    (h' : s.SplitsAt left right commas') : commas = commas' := by
  have hsame : ∀ p, p ∈ commas ↔ p ∈ commas' := fun p => (h.mem_iff p).trans (h'.mem_iff p).symm
  have hperm : commas.Perm commas' := (List.perm_ext_iff_of_nodup (h.increasing.imp Nat.ne_of_lt)
    (h'.increasing.imp Nat.ne_of_lt)).mpr hsame
  exact List.Perm.eq_of_pairwise (fun a b _ _ hab hba => by omega) h.increasing h'.increasing hperm

theorem closed_inside (h : s.matchingClose? left = some right) (hleft : left < p) (hright : p < right)
    (hopens : s.opensAt p) : ∃ d, s.matchingClose? p = some d ∧ d < right := by
  obtain ⟨closer, hopen⟩ := opensAt_iff.mp hopens
  exact close_inside h hleft hright hopen

/-- **A position that is no bracket is enclosed by no pair exactly if the list is balanced up to it.** -/
theorem balanced_iff_not_enclosed (h : s.matchingClose? left = some right) (hright : p < right)
    (hplain : ¬ s.closesAt p) : Balanced (s.kindsIn (left + 1) p) ↔ ¬ s.Enclosed left p := by
  obtain ⟨_, _, _, hkind, hbal⟩ := close_iff.mp h
  have hsize : right < s.size := lt_kind? hkind
  constructor
  · intro hfront hencl
    obtain ⟨o, d, hlo, hop, hpd, hpair⟩ := hencl
    -- what opens before `p` in a balanced word is closed before `p`
    obtain ⟨closer, hopen, -⟩ := opener_close hpair
    obtain ⟨d', hpair', hdp⟩ := exists_closer (by omega) hfront hlo hop hopen
    rw [hpair, Option.some.injEq] at hpair'
    omega
  · intro hfree
    apply PairedIn.balanced _ (by omega)
    constructor
    · intro o hlo hop hopens
      obtain ⟨d, hpair, hdr⟩ := closed_inside h hlo (by omega) hopens
      refine ⟨d, hpair, Nat.lt_of_not_le fun hpd => ?_⟩
      -- the pair may neither enclose `p` nor end there
      rcases Nat.eq_or_lt_of_le hpd with rfl | hlt
      · obtain ⟨k, hopen, hk⟩ := opener_close hpair
        obtain ⟨_, _, hcloser⟩ := Option.bind_eq_some_iff.mp hopen
        exact hplain (closesAt_iff.mpr ⟨k, hk, Kind.isCloser_closer? hcloser⟩)
      · exact hfree ⟨o, d, hlo, hop, hlt, hpair⟩
    · intro c hlc hcp hcloses
      obtain ⟨k, hk, hcloser⟩ := closesAt_iff.mp hcloses
      obtain ⟨o, hlo, -, hpair⟩ := exists_open_of_balanced (by omega) hbal hlc (by omega) hk hcloser
      exact ⟨o, hlo, hpair⟩

end Php.TokenStream

variable {s : TokenStream} {left right start i : Nat} {commas : List Nat}

/-! ## §2. Arguments. -/

theorem splitsAt_commas (hclose : s.matchingClose? left = some right)
    (h : topCommas? s right (left + 1) = some commas) : s.SplitsAt left right commas := by
  obtain ⟨_, _, _, hkind, hbal⟩ := close_iff.mp hclose
  refine ⟨topCommas?_pairwise h, fun p => ?_⟩
  rw [mem_topCommas?_iff (Nat.le_of_lt (lt_kind? hkind)) hbal h]
  constructor
  · rintro ⟨hleft, hright, hcomma, hfront⟩
    have hplain : ¬ s.closesAt p := by simp [closesAt, hcomma, Kind.isCloser]
    exact ⟨hleft, hright, hcomma, (balanced_iff_not_enclosed hclose hright hplain).mp hfront⟩
  · rintro ⟨hleft, hright, hcomma, hfree⟩
    have hplain : ¬ s.closesAt p := by simp [closesAt, hcomma, Kind.isCloser]
    exact ⟨hleft, hright, hcomma, (balanced_iff_not_enclosed hclose hright hplain).mpr hfree⟩

theorem commas_inside (hclose : s.matchingClose? left = some right) :
    ∃ commas, topCommas? s right (left + 1) = some commas := by
  obtain ⟨_, _, hlt, hkind, hbal⟩ := close_iff.mp hclose
  exact exists_topCommas? (Nat.le_of_lt (lt_kind? hkind)) hlt hbal

theorem arguments?_iff {args : Arguments} : arguments? s method = some args ↔
    s.followedBy? method .leftParen = some args.left ∧ s.matchingClose? args.left = some args.close
      ∧ s.SplitsAt args.left args.close args.commas := by
  constructor
  · intro h
    obtain ⟨hleft, hclose, htop⟩ := arguments?_spec h
    exact ⟨hleft, hclose, splitsAt_commas hclose htop⟩
  · intro ⟨hleft, hclose, hsplits⟩
    obtain ⟨commas, htop⟩ := commas_inside hclose
    unfold arguments?
    rw [hleft, Option.bind_eq_bind, Option.bind_some, hclose, Option.bind_eq_bind, Option.bind_some, htop,
      (splitsAt_commas hclose htop).unique hsplits]
    rfl

theorem arguments?_eq_none_iff : arguments? s method = none ↔
    ∀ left, s.followedBy? method .leftParen = some left → s.matchingClose? left = none := by
  constructor
  · intro hnone left hleft
    cases hclose : s.matchingClose? left with
    | none => rfl
    | some right =>
      obtain ⟨commas, htop⟩ := commas_inside hclose
      have hargs : arguments? s method = some ⟨left, right, commas⟩ :=
        arguments?_iff.mpr ⟨hleft, hclose, splitsAt_commas hclose htop⟩
      rw [hnone] at hargs
      cases hargs
  · intro hunclosed
    cases hargs : arguments? s method with
    | none => rfl
    | some args =>
      obtain ⟨hleft, hclose, -⟩ := arguments?_spec hargs
      rw [hunclosed args.left hleft] at hclose
      cases hclose

/-! ## §3. Parameters. -/

/-- The stretches from `start` to `stop` with the commas left out. -/
def stretches (start stop : Nat) : List Nat → List (Nat × Nat)
  | [] => [(start, stop)]
  | comma :: commas => (start, comma) :: stretches (comma + 1) stop commas

/-- Where the last stretch begins. -/
def lastStart (start : Nat) : List Nat → Nat
  | [] => start
  | comma :: commas => lastStart (comma + 1) commas

theorem lastStart_eq (start : Nat) (commas : List Nat) :
    lastStart start commas = (commas.getLast?.map (· + 1)).getD start := by
  induction commas generalizing start with
  | nil => rfl
  | cons comma commas ih =>
    show lastStart (comma + 1) commas = _
    rw [ih, List.getLast?_cons]
    cases commas.getLast? <;> rfl

/-- **The parameters are read stretch by stretch.** The reader is at `i`, and the stretch it is in began at `start`. -/
theorem readParameters_eq (hright : right ≤ s.size) (hi : i ≤ right) (hbal : Balanced (s.kindsIn i right)) :
    ∀ commas, topCommas? s right i = some commas → readParameters s left right start i
      = ((stretches start right commas).filterMap fun stretch => parameter? s stretch.1 stretch.2,
        if (parameter? s (lastStart start commas) right).isSome then none
          else if left + 1 < lastStart start commas then some (lastStart start commas - 1) else none) := by
  fun_induction readParameters s left right start i with
  | case1 start i hlt hnone =>
    intro commas htop
    rw [topCommas?, if_pos hlt, hnone] at htop
    cases htop
  | case2 start i hlt rest hk ih =>
    intro commas htop
    rw [topCommas?_of_kind? hk hlt, if_neg (by decide)] at htop
    obtain ⟨behind, hrest, rfl⟩ := Option.map_eq_some_iff.mp htop
    rw [if_pos rfl, show rest = _ from ih hlt (balanced_tail hk hlt rfl hbal) behind hrest]
    show _ = (((start, i) :: stretches (i + 1) right behind).filterMap _, _)
    rw [List.filterMap_cons]
    cases parameter? s start i <;> rfl
  | case3 start i hlt k hk hcomma hopen hnone ih =>
    -- the way out for an unclosed bracket: there is none in a balanced stretch
    obtain ⟨close, hclose, -⟩ := close_of_isOpener hright hlt hbal hk hopen
    rw [hnone] at hclose
    cases hclose
  | case4 start i hlt k hk hcomma hopen close hclose ih =>
    intro commas htop
    have hds := close_lt_balanced hright hlt hbal hclose
    apply ih hds ((balanced_behind hclose hds).2 hbal)
    rwa [topCommas?_of_kind? hk hlt, if_pos hopen, hclose, Option.bind_some] at htop
  | case5 start i hlt k hk hcomma hopen ih =>
    intro commas htop
    rw [topCommas?_of_kind? hk hlt, if_neg hopen] at htop
    obtain ⟨behind, hrest, rfl⟩ := Option.map_eq_some_iff.mp htop
    rw [if_neg hcomma]
    exact ih hlt (balanced_tail hk hlt (isPlain_balanced hk hlt hbal hopen) hbal) behind hrest
  | case6 start p hge hp =>
    intro commas htop
    rw [topCommas?, if_neg hge] at htop
    cases htop
    show _ = ([(start, right)].filterMap _, if (parameter? s start right).isSome then none else _)
    simp [hp]
  | case7 start hge hp =>
    intro commas htop
    rw [topCommas?, if_neg hge] at htop
    cases htop
    show _ = ([(start, right)].filterMap _, if (parameter? s start right).isSome then none else
      if left + 1 < start then some (start - 1) else none)
    simp [hp]
  | case8 start i hge hne => omega

/-- The parameters of a list that splits at some commas: each stretch that holds more than trivia is one, and a last
stretch that holds nothing leaves the last comma behind. -/
structure ReadBetween (s : TokenStream) (left right : Nat) (commas : List Nat) (read : ParameterList) : Prop where
  parameters : read.parameters = (stretches (left + 1) right commas).filterMap fun stretch =>
    parameter? s stretch.1 stretch.2
  trailing : read.trailingComma = commas.getLast?.filter fun comma => (parameter? s (comma + 1) right).isNone

theorem parameterList_readBetween {c : Constructor} (hclose : s.matchingClose? c.left = some c.right)
    (htop : topCommas? s c.right (c.left + 1) = some commas) :
    ReadBetween s c.left c.right commas (parameterList s c) := by
  obtain ⟨_, _, hlt, hkind, hbal⟩ := close_iff.mp hclose
  have hread := @readParameters_eq s c.left c.right (c.left + 1) (c.left + 1) (Nat.le_of_lt (lt_kind? hkind)) hlt hbal
    commas htop
  refine ⟨congrArg Prod.fst hread, (congrArg Prod.snd hread).trans ?_⟩
  rw [lastStart_eq]
  cases hlast : commas.getLast? with
  | none => simp
  | some comma =>
    have hbehind := (topCommas?_spec htop (List.mem_of_getLast? hlast)).1
    show (if (parameter? s (comma + 1) c.right).isSome then none
      else if c.left + 1 < comma + 1 then some comma else none) = _
    rw [if_pos (show c.left + 1 < comma + 1 by omega), Option.filter_some]
    cases parameter? s (comma + 1) c.right <;> rfl

/-! ## §4. Both lists. -/

/-- **Argument and parameter lists are cut at the commas of their own level.** A call has arguments if and only if an
opening parenthesis comes next and is closed; they are split at its commas. In the parameter list of a constructor
every bracket that opens is closed, so the reader never gives up on one, and its parameters are what stands between the
commas of the list. -/
theorem lists_split_at_commas (s : TokenStream) :
    (∀ method args, arguments? s method = some args ↔
        s.nextSignificant? (method + 1) = some args.left ∧ s.kind? args.left = some .leftParen
          ∧ s.matchingClose? args.left = some args.close ∧ s.SplitsAt args.left args.close args.commas)
      ∧ (∀ method, arguments? s method = none ↔
        ∀ left, s.nextSignificant? (method + 1) = some left → s.kind? left = some .leftParen →
        s.matchingClose? left = none)
      ∧ ∀ limit i name c, readConstructor s limit i name = .ok c →
        (∀ o, c.left < o → o < c.right → s.opensAt o = true → ∃ d, s.matchingClose? o = some d ∧ d < c.right)
          ∧ ∃ commas, s.SplitsAt c.left c.right commas ∧ ReadBetween s c.left c.right commas (parameterList s c) := by
  refine ⟨fun method args => ?_, fun method => ?_, fun limit i name c hread => ?_⟩
  · rw [arguments?_iff, followedBy?_iff, and_assoc]
  · simp only [arguments?_eq_none_iff, followedBy?_iff, and_imp]
  · have hclose := (wellBracketed_read hread).parameters
    obtain ⟨commas, htop⟩ := commas_inside hclose
    exact ⟨fun o hleft hright hopens => closed_inside hclose hleft hright hopens, commas,
      splitsAt_commas hclose htop, parameterList_readBetween hclose htop⟩

/-- A call and a constructor whose lists hold brackets with commas of their own; the second ends with a comma. -/
def nestedLists : TokenStream :=
  .ofTokens (lexFragment "f(1,[2,3],g(4,5));function __construct(#[A(1,2)] $x,$y=[1,2],){}")

/-- Two commas of five split the arguments, and two of four the parameters. -/
theorem lists_split_at_commas_nested :
    arguments? nestedLists 0 = some ⟨1, 16, [3, 9]⟩ ∧ nestedLists.SplitsAt 1 16 [3, 9]
      ∧ readConstructor nestedLists 44 18 20 = .ok ⟨18, 21, 41, 42, 43, ""⟩ ∧ nestedLists.SplitsAt 21 41 [32, 40]
      ∧ (parameterList nestedLists ⟨18, 21, 41, 42, 43, ""⟩).parameters
        = [(22, 32), (33, 40), (41, 41)].filterMap fun stretch => parameter? nestedLists stretch.1 stretch.2 := by
  obtain ⟨harguments, -, hparams⟩ := lists_split_at_commas nestedLists
  have hargs : arguments? nestedLists 0 = some ⟨1, 16, [3, 9]⟩ := by decide +kernel
  have hctor : readConstructor nestedLists 44 18 20 = .ok ⟨18, 21, 41, 42, 43, ""⟩ :=
    readConstructor_iff.mpr (by decide +kernel)
  have htop : topCommas? nestedLists 41 22 = some [32, 40] := by decide +kernel
  obtain ⟨-, commas, hsplits, hread⟩ := hparams 44 18 20 _ hctor
  cases hsplits.unique (splitsAt_commas (by decide +kernel) htop)
  exact ⟨hargs, ((harguments 0 _).mp hargs).2.2.2, hctor, hsplits, hread.parameters⟩

end MageUplift
