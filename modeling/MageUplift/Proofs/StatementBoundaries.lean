import MageUplift.Proofs.CompleteInjection
import MageUplift.Proofs.InjectionFrame

/-!
# New assignments among the statements of a constructor

The tokens of a body fall into statements: each ends with a semicolon or a closing brace that stands in no bracket of the
body (`statements`). New assignments are written in one piece, in front of the first call of the parent's constructor that
stands in no bracket, or else at the end of the body. The end of a body is between statements if the last one is
complete; the call need not be. It is found by its name, wherever that stands in its statement.

So the assignments split no statement exactly if the call, where there is one, begins a statement. In
`return parent::__construct();` it does not, and the value that is returned is another one afterwards.
-/

namespace MageUplift

open Php TokenStream List Option Bool

variable {xs : List Token}

namespace Wiring

open Call (Collaborator)

/-! ## §1. The call of the parent's constructor. -/

/-- The place is between the braces of the body and in no other bracket. -/
abbrev AtBodyDepth (s : TokenStream) (c : Constructor) (i : Nat) : Prop := AtMemberDepth s c.bodyLeft c.bodyRight i

/-- The first call of the parent's constructor that stands in no bracket of the body. -/
structure FirstParentCall (s : TokenStream) (c : Constructor) (i : Nat) : Prop where
  depth : AtBodyDepth s c i
  isCall : isParentCall s i = true
  first : ∀ j, j < i → AtBodyDepth s c j → isParentCall s j = false

section

variable {s : TokenStream} {c : Constructor} {i : Nat}

theorem FirstParentCall.unique {j : Nat} (hi : FirstParentCall s c i) (hj : FirstParentCall s c j) : i = j := by
  -- of two first calls, neither stands in front of the other
  have hnot : ∀ {i j : Nat}, FirstParentCall s c i → FirstParentCall s c j → ¬ i < j := by
    intro i j hi hj hlt
    cases (hj.first i hlt hi.depth).symm.trans hi.isCall
  exact (Nat.le_of_not_lt (hnot hj hi)).antisymm (Nat.le_of_not_lt (hnot hi hj))

theorem parentCallFrom?_first (hbody : s.matchingClose? c.bodyLeft = some c.bodyRight) (hi : c.bodyLeft < i)
    (hle : i ≤ c.bodyRight) (hdepth : Balanced (s.kindsIn (c.bodyLeft + 1) i))
    (hbef : ∀ j, j < i → AtBodyDepth s c j → isParentCall s j = false) :
    (∀ call, parentCallFrom? s c.bodyRight i = some call → FirstParentCall s c call)
      ∧ (parentCallFrom? s c.bodyRight i = none → ∀ j, AtBodyDepth s c j → isParentCall s j = false) := by
  have hsize := (lt_close hbody).2
  -- the lemmas on depth are about the braces of a class
  have hin := @not_atMemberDepth_inside s ⟨c.bodyLeft, c.bodyRight, ""⟩
  have hsucc := @AtMemberDepth.succ s ⟨c.bodyLeft, c.bodyRight, ""⟩
  fun_induction parentCallFrom? s c.bodyRight i with
  | case1 i hlt hk =>
    obtain ⟨t, ht⟩ := get?_of_lt (s := s) (i := i) (by omega)
    rw [kind?_get? ht] at hk
    cases hk
  | case2 i hlt k hk hopen hclose =>
    obtain ⟨closer, hcloser⟩ := isSome_iff_exists.mp hopen
    obtain ⟨d, hd, -⟩ := close_inside hbody hi hlt (by rw [hk, bind_some, hcloser])
    cases hclose.symm.trans hd
  | case3 i hlt k hk hopen close hclose ih =>
    have hic := (lt_close hclose).1
    have hright := close_lt_of_inside hbody hi hlt hclose
    refine ih (by omega) hright ?_ fun j hj hat => ?_
    · rw [kindsIn_append s hi (show i ≤ close + 1 by omega)]
      exact hdepth.append (Call.balanced_behind hclose hright).1
    · obtain hlt' | rfl | hgt := Nat.lt_trichotomy j i
      · exact hbef j hlt' hat
      · -- what opens a bracket is no name
        refine Bool.eq_false_iff.mpr fun hcall => ?_
        obtain ⟨t, ht, hword, -⟩ := isWord_parentCall hcall
        rw [kind?_get? ht, some.injEq] at hk
        rw [Token.isWord, and_eq_true, hk] at hword
        have hname : ∀ k : Kind, k.isOpener → k.isName = false := by
          intro k hk
          cases k <;> first | rfl | cases hk
        rw [hname k hopen] at hword
        cases hword.1
      · exact absurd hat (hin ⟨hi, hlt, hdepth⟩ hbody hclose hgt (by omega))
  | case4 i hlt k hk hopen hcall =>
    refine ⟨fun call h => ?_, fun h => (by cases h)⟩
    cases h
    exact ⟨⟨hi, hlt, hdepth⟩, hcall, hbef⟩
  | case5 i hlt k hk hopen hcall ih =>
    refine ih (by omega) hlt (hsucc ⟨hi, hlt, hdepth⟩ hbody hk hopen) fun j hj hat => ?_
    obtain hlt' | rfl := Nat.lt_succ_iff_lt_or_eq.mp hj
    · exact hbef j hlt' hat
    · exact Bool.eq_false_iff.mpr hcall
  | case6 i hlt =>
    refine ⟨fun call h => (by cases h), fun _ j hat => hbef j ?_ hat⟩
    have := hat.lt_right
    omega

theorem parentCall?_iff (hwell : c.WellBracketed s) : parentCall? s c = some i ↔ FirstParentCall s c i := by
  obtain ⟨hfound, hnone⟩ := @parentCallFrom?_first s c (c.bodyLeft + 1) hwell.body (Nat.lt_succ_self _)
    (lt_close hwell.body).1 (by rw [kindsIn_self]; rfl) fun j hj hat => by have := hat.lt_left; omega
  refine ⟨hfound i, fun hfst => ?_⟩
  cases hcall : parentCall? s c with
  | some call => rw [(hfound call hcall).unique hfst]
  | none => cases (hnone hcall i hfst.depth).symm.trans hfst.isCall

end

/-! ## §2. Statements. -/

/-- The tokens end a statement, or there are none. -/
def Complete (ts : List Token) : Prop := ∀ t, ts.getLast? = some t → t.kind = .semicolon ∨ t.kind = .rightBrace

def depthBehind (depth : Nat) (k : Kind) : Nat :=
  if k.isOpener then depth + 1 else if k.isCloser then depth - 1 else depth

/-- The statements of a list of tokens; a semicolon or a closing brace ends one where no bracket is open any more. `depth`
brackets are open, and `read` was read behind the last statement. -/
def statementsFrom (depth : Nat) (read : List Token) : List Token → List (List Token)
  | [] => if read = [] then [] else [read]
  | t :: rest =>
    if (t.kind = .semicolon ∨ t.kind = .rightBrace) ∧ depthBehind depth t.kind = 0 then
      (read ++ [t]) :: statementsFrom 0 [] rest
    else statementsFrom (depthBehind depth t.kind) (read ++ [t]) rest

def statements (ts : List Token) : List (List Token) := statementsFrom 0 [] ts

section

variable {s : TokenStream} {c : Constructor}

theorem expected_depthBehind {expected after : List Kind} {k : Kind} {ks : List Kind}
    (h : expectedAfter expected (k :: ks) = some after) :
    ∃ next, expectedAfter next ks = some after ∧ next.length = depthBehind expected.length k := by
  obtain ⟨next, hstep, h⟩ := expected_cons_iff.mp h
  refine ⟨next, h, ?_⟩
  rw [depthBehind]
  cases hstep with
  | opener hc => simp [Kind.isOpener, hc]
  | closer hc => simp [Kind.isOpener, Kind.closer?_of_isCloser hc, hc]
  | plain hplain =>
    obtain ⟨hnone, hcloser⟩ := Kind.isPlain_iff.mp hplain
    simp [Kind.isOpener, hnone, hcloser]

theorem statementsFrom_append (rest : List Token) (hne : xs ≠ []) (hcomplete : Complete xs) :
    ∀ {expected : List Kind} (read : List Token), expectedAfter expected (xs.map Token.kind) = some [] →
      statementsFrom expected.length read (xs ++ rest) = statementsFrom expected.length read xs ++ statements rest := by
  induction xs with
  | nil => exact absurd rfl hne
  | cons t xs ih =>
    intro expected read h
    obtain ⟨next, hnext, hlen⟩ := expected_depthBehind h
    rw [cons_append, statementsFrom, statementsFrom, ← hlen]
    cases xs with
    | nil =>
      -- the last token closes what is open and ends the statement
      cases hnext
      have hend : (t.kind = .semicolon ∨ t.kind = .rightBrace) ∧ ([] : List Kind).length = 0 := ⟨hcomplete t rfl, rfl⟩
      rw [if_pos hend, if_pos hend]
      rfl
    | cons u xs =>
      have hrest : Complete (u :: xs) := fun w hw => hcomplete w (by rwa [getLast?_cons_cons])
      have hstep := fun {expected : List Kind} => @ih (cons_ne_nil u xs) hrest expected
      by_cases hend : (t.kind = .semicolon ∨ t.kind = .rightBrace) ∧ next.length = 0
      · obtain rfl := length_eq_zero_iff.mp hend.2
        rw [if_pos hend, if_pos hend, cons_append]
        exact congrArg _ (hstep [] hnext)
      · rw [if_neg hend, if_neg hend]
        exact hstep _ hnext

theorem statements_append (hbal : Balanced (xs.map Token.kind)) (hcomplete : Complete xs)
    (ys : List Token) : statements (xs ++ ys) = statements xs ++ statements ys := by
  by_cases hne : xs = []
  · rw [hne]
    rfl
  · exact statementsFrom_append ys hne hcomplete [] hbal

theorem statements_assignments {vs : List Collaborator} (hvs : ∀ v ∈ vs, isIdentifier v.name.toList) (rest : List Token) :
    statements (vs.flatMap assignmentTokens ++ rest) = vs.map assignmentTokens ++ statements rest := by
  induction vs with
  | nil => rfl
  | cons v vs ih =>
    rw [flatMap_cons, append_assoc, map_cons, cons_append, ← ih (forall_mem_cons.mp hvs).2,
      assignmentTokens_eq (hvs v mem_cons_self)]
    rfl

end

/-! ## §3. The place of new assignments. -/

/-- The last significant token before `p` is the brace that opens the body, or it ends a statement. -/
def BetweenStatements (s : TokenStream) (c : Constructor) (p : Nat) : Prop :=
  ∃ q, s.prevSignificant? p = some q
    ∧ (q = c.bodyLeft ∨ s.kind? q = some .semicolon ∨ s.kind? q = some .rightBrace)

/-- No insertion into the body splits a statement. -/
def SplitsNothing (s : TokenStream) (c : Constructor) (inserts : List (Edit Token)) : Prop :=
  ∀ e ∈ inserts, c.bodyLeft < e.span.start → e.span.start ≤ c.bodyRight → BetweenStatements s c e.span.start

section

variable {s : TokenStream} {indent : String} {r : Requirements} {inserts : List (Edit Token)} {cls : ClassBody}
    {m : Members}
  {c : Constructor}

theorem betweenStatements_iff (hwell : c.WellBracketed s) {p : Nat} (hlo : c.bodyLeft < p) (hhi : p ≤ c.bodyRight) :
    BetweenStatements s c p ↔ Complete (s.codeIn (c.bodyLeft + 1) p) := by
  have hsize : p ≤ s.size := by
    have := (lt_close hwell.body).2
    omega
  cases hlast : (s.codeIn (c.bodyLeft + 1) p).getLast? with
  | none =>
    have hnil := getLast?_eq_none_iff.mp hlast
    obtain ⟨t, ht, hkind⟩ := map_eq_some_iff.mp hwell.isBrace
    have hsig : t.isTrivia = false := by
      rw [Token.isTrivia, hkind]
      rfl
    refine iff_of_true ⟨c.bodyLeft, ?_, .inl rfl⟩ fun t ht => by cases hlast.symm.trans ht
    exact prev_of_triviaIn hlo hsize (triviaIn_of_nil hsize hnil) ht hsig
  | some t =>
    obtain ⟨front, hfront⟩ := getLast?_eq_some_iff.mp hlast
    obtain ⟨j, hj, hjp, ht, hbehind⟩ := exists_place_of_codeIn hfront
    have hsig : t.isTrivia = false := by
      have hmem : t ∈ s.codeIn (c.bodyLeft + 1) p := hfront ▸ mem_append_right _ (mem_singleton_self t)
      simpa using (mem_filter.mp hmem).2
    have hprev : s.prevSignificant? p = some j :=
      prev_of_triviaIn hjp hsize (triviaIn_of_nil hsize hbehind) ht hsig
    constructor
    · rintro ⟨q, hq, hends⟩ u hu
      cases hprev.symm.trans hq
      cases hlast.symm.trans hu
      rw [kind?_get? ht, some.injEq, some.injEq] at hends
      exact hends.resolve_left (by omega)
    · intro hcomplete
      refine ⟨j, hprev, .inr ?_⟩
      rw [kind?_get? ht, some.injEq, some.injEq]
      exact hcomplete t hlast

theorem codeIn_spot_none (hwell : c.WellBracketed s) (hnone : parentCall? s c = none) :
    s.codeIn (c.bodyLeft + 1) (assignmentSpot s c) = s.codeIn (c.bodyLeft + 1) c.bodyRight := by
  obtain ⟨hlo, hhi⟩ := spot_bounds hwell
  have htriv : s.TriviaIn (assignmentSpot s c) c.bodyRight := by
    rw [assignmentSpot, hnone]
    exact triviaIn_trailing s c.bodyLeft c.bodyRight
  rw [codeIn_append s hlo hhi, codeIn_triviaIn htriv hhi, append_nil]

theorem balanced_assignmentSpot (hwell : c.WellBracketed s) :
    Balanced ((s.codeIn (c.bodyLeft + 1) (assignmentSpot s c)).map Token.kind) := by
  cases hcall : parentCall? s c with
  | none =>
    rw [codeIn_spot_none hwell hcall]
    exact balanced_codeIn.mpr (balanced_inside hwell.body)
  | some call =>
    rw [assignmentSpot, hcall]
    exact balanced_codeIn.mpr ((parentCall?_iff hwell).mp hcall).depth.depth

/-- **When the place of new assignments is between statements**, in a body whose last statement is complete. -/
theorem betweenStatements_assignmentSpot_iff (hwell : c.WellBracketed s)
    (hclosed : Complete (s.codeIn (c.bodyLeft + 1) c.bodyRight)) :
    BetweenStatements s c (assignmentSpot s c) ↔ ∀ i, FirstParentCall s c i → BetweenStatements s c i := by
  obtain ⟨hlo, hhi⟩ := spot_bounds hwell
  cases hcall : parentCall? s c with
  | none =>
    have hbtw : BetweenStatements s c (assignmentSpot s c) := by
      rw [betweenStatements_iff hwell hlo hhi, codeIn_spot_none hwell hcall]
      exact hclosed
    refine iff_of_true hbtw fun i hi => ?_
    cases hcall.symm.trans ((parentCall?_iff hwell).mpr hi)
  | some call =>
    have hspot : assignmentSpot s c = call := by
      rw [assignmentSpot, hcall]
      rfl
    have hfst := (parentCall?_iff hwell).mp hcall
    rw [hspot]
    exact ⟨fun hbtw i hi => hfst.unique hi ▸ hbtw, fun h => h call hfst⟩

theorem inject_into_body (hr : r.isEmpty = false) (h : inject s indent r = .ok inserts) (hcls : classBody s = .ok cls)
    (hm : members s cls = .ok m) (hc : m.ctor = some c) :
    (∀ e ∈ inserts, c.bodyLeft < e.span.start → unassigned s c r ≠ [] ∧ e.span.start = assignmentSpot s c)
      ∧ (unassigned s c r ≠ [] → ∃ e ∈ inserts, e.span.start = assignmentSpot s c) := by
  have hnamed := members_named hm hc
  have hlist := lt_close (members_ctor hm hc).parameters
  have hbef := hnamed.body
  have hin := hnamed.inside
  have hextends := extends_of_inject hr h hcls hm hc
  obtain ⟨properties, rfl, hprops⟩ := hextends.parts
  constructor
  · intro e he hlt
    rcases mem_append.mp he with he | he
    · rcases mem_append.mp he with he | he
      · have := (hextends.parameters e he).2
        omega
      · obtain ⟨rfl, hne⟩ := mem_insertCode he
        exact ⟨hne, assignment_spot s indent c _⟩
    · have := hprops e he
      omega
  · intro hne
    refine ⟨.insert (assignmentInsertion s indent c (unassigned s c r)).1
      (lexFragment (assignmentInsertion s indent c (unassigned s c r)).2), ?_, assignment_spot s indent c _⟩
    refine mem_append_left _ (mem_append_right _ ?_)
    rw [assignmentEdits, insertCode, if_neg (by rwa [List.isEmpty_iff])]
    exact mem_singleton_self _

theorem splitsNothing_iff (h : inject s indent r = .ok inserts) (hcls : classBody s = .ok cls)
    (hm : members s cls = .ok m)
    (hc : m.ctor = some c) : SplitsNothing s c inserts ↔ unassigned s c r = []
      ∨ BetweenStatements s c (assignmentSpot s c) := by
  by_cases hr : r.isEmpty
  · -- nothing is needed, and nothing inserted
    obtain rfl : [] = inserts := Except.ok.inj ((inject_of_isEmpty hr s indent).symm.trans h)
    refine iff_of_true (fun e he => by cases he) (.inl ?_)
    rw [unassigned, List.isEmpty_iff.mp hr]
    rfl
  · obtain ⟨honly, hthere⟩ := inject_into_body (not_eq_true _ ▸ hr) h hcls hm hc
    obtain ⟨hlo, hhi⟩ := spot_bounds (members_ctor hm hc)
    constructor
    · intro hsplits
      by_cases hne : unassigned s c r = []
      · exact .inl hne
      · obtain ⟨e, he, hspot⟩ := hthere hne
        exact .inr (hspot ▸ hsplits e he (hspot ▸ hlo) (hspot ▸ hhi))
    · rintro hbtw e he hlt -
      obtain ⟨hne, hspot⟩ := honly e he hlt
      rw [hspot]
      exact hbtw.resolve_left hne

/-! ## §4. The statements after an injection. -/

theorem constructor_of_injection (h : IsInjection s indent r inserts) (hr : r.isEmpty = false)
    (hproper : ∀ v ∈ r.entries, Proper v) (hcls : classBody s = .ok cls) (hm : members s cls = .ok m) :
    ∃ cls' m' c', classBody (s.woven inserts) = .ok cls' ∧ members (s.woven inserts) cls' = .ok m' ∧ m'.ctor = some c'
      ∧ c'.WellBracketed (s.woven inserts)
      ∧ (s.woven inserts).codeIn (c'.left + 1) c'.right = (constructorAfter s indent r m.ctor).1
      ∧ (s.woven inserts).codeIn (c'.bodyLeft + 1) c'.bodyRight = (constructorAfter s indent r m.ctor).2 := by
  obtain ⟨cls', hcls', houtline⟩ := outlines_injection h hr hproper hcls hm
  obtain ⟨m', hm', hfound⟩ :=
    @membersFrom_of_outlines _ cls' (classBody_spec hcls') (classBody_brace hcls') _ _ _ houtline
    ⟨[], none⟩ (cls'.left + 1) (Nat.lt_succ_self _) rfl rfl
  obtain ⟨c', hc', hpair⟩ := map_eq_some_iff.mp (congrArg Outline.ctor hfound)
  exact ⟨cls', m', c', hcls', hm', hc', members_ctor hm' hc', congrArg Prod.fst hpair, congrArg Prod.snd hpair⟩

theorem statements_extendedBody (hproper : ∀ v ∈ r.entries, Proper v) (hwell : c.WellBracketed s)
    (hbtw : unassigned s c r = [] ∨ BetweenStatements s c (assignmentSpot s c)) :
    ∃ front back, statements (s.codeIn (c.bodyLeft + 1) c.bodyRight) = front ++ back
      ∧ statements (extendedBody s c r) = front ++ (unassigned s c r).map assignmentTokens ++ back := by
  obtain ⟨hlo, hhi⟩ := spot_bounds hwell
  have hsplit := codeIn_append s hlo hhi
  rcases hbtw with hnone | hbtw
  · refine ⟨_, [], (append_nil _).symm, ?_⟩
    rw [extendedBody, hnone, flatMap_nil, append_nil, ← hsplit, map_nil, append_nil, append_nil]
  · have hcomplete := (betweenStatements_iff hwell hlo hhi).mp hbtw
    have happ := statements_append (balanced_assignmentSpot hwell) hcomplete
    have hnames : ∀ v ∈ unassigned s c r, isIdentifier v.name.toList := fun v hv =>
      (hproper v (mem_filter.mp hv).1).name
    refine ⟨_, _, by rw [hsplit, happ], ?_⟩
    rw [extendedBody, append_assoc, happ, statements_assignments hnames, append_assoc]

end

end Wiring

open Call Wiring

/-- **When new assignments split no statement.** A constructor is extended whose last statement is complete. No insertion
into its body splits a statement exactly if nothing has to be assigned, or the first call of the parent's constructor that
stands in no bracket begins a statement, or there is no such call. Then the insertions can be applied, and the body that
they leave has the statements that it had, in their order, with the new assignments between two of them or at an end. -/
theorem inject_between_statements {s : TokenStream} {indent : String} {r : Requirements} {inserts : List (Edit Token)}
    {cls : ClassBody} {m : Members} {c : Constructor} (h : inject s indent r = .ok inserts) (hcls : classBody s = .ok cls)
    (hm : members s cls = .ok m) (hc : m.ctor = some c) (hclosed : Complete (s.codeIn (c.bodyLeft + 1) c.bodyRight)) :
    (SplitsNothing s c inserts ↔ unassigned s c r = [] ∨ ∀ i, FirstParentCall s c i → BetweenStatements s c i)
      ∧ (IsIndentText indent.toList → (∀ v ∈ r.entries, Proper v) → SplitsNothing s c inserts →
        ∃ out cls' m' c' front back, s.apply inserts = .ok out ∧ classBody out = .ok cls' ∧ members out cls' = .ok m'
          ∧ m'.ctor = some c' ∧ statements (s.codeIn (c.bodyLeft + 1) c.bodyRight) = front ++ back
          ∧ statements (out.codeIn (c'.bodyLeft + 1) c'.bodyRight)
            = front ++ (unassigned s c r).map assignmentTokens ++ back) := by
  have hwell := members_ctor hm hc
  have hsplits := splitsNothing_iff h hcls hm hc
  refine ⟨?_, fun hind hproper hnothing => ?_⟩
  · rw [hsplits, betweenStatements_assignmentSpot_iff hwell hclosed]
  · obtain ⟨front, back, hold, hnew⟩ := statements_extendedBody hproper hwell (hsplits.mp hnothing)
    by_cases hr : r.isEmpty
    · -- nothing is inserted
      obtain rfl : [] = inserts := Except.ok.inj ((inject_of_isEmpty hr s indent).symm.trans h)
      have hnone : unassigned s c r = [] := by
        rw [unassigned, List.isEmpty_iff.mp hr]
        rfl
      refine ⟨s, cls, m, c, front, back, ?_, hcls, hm, hc, hold, by rw [hold, hnone, List.map_nil, List.append_nil]⟩
      rw [apply, Edit.applyAll_nil]
      rfl
    · have hinj : IsInjection s indent r inserts := ⟨hind, fun v hv => (hproper v hv).plain, h⟩
      obtain ⟨cls', m', c', hcls', hm', hc', -, -, hbody⟩ :=
        constructor_of_injection hinj (not_eq_true _ ▸ hr) hproper hcls hm
      rw [hc] at hbody
      exact ⟨_, cls', m', c', front, back, apply_eq_weave (inject_fits h), hcls', hm', hc', hold, hbody ▸ hnew⟩

/-- A constructor that calls its parent behind a conditional. -/
def callsBetween : TokenStream :=
  .ofSource "<?php class A extends B\x7bfunction __construct($a)\x7bif($a)\x7b$a=f(1);\x7d parent::__construct($a);$a=2;\x7d\x7d"

/-- The assignment stands behind the conditional and in front of the call. -/
theorem inject_between_statements_callsBetween :
    ∃ inserts out cls m c cls' m' c' front back, inject callsBetween "    " ⟨[⟨"x", "\\T"⟩]⟩ = .ok inserts
      ∧ classBody callsBetween = .ok cls ∧ members callsBetween cls = .ok m ∧ m.ctor = some c
      ∧ SplitsNothing callsBetween c inserts ∧ callsBetween.apply inserts = .ok out ∧ classBody out = .ok cls'
      ∧ members out cls' = .ok m' ∧ m'.ctor = some c' ∧ front.length + back.length = 3
      ∧ statements (callsBetween.codeIn (c.bodyLeft + 1) c.bodyRight) = front ++ back
      ∧ statements (out.codeIn (c'.bodyLeft + 1) c'.bodyRight) = front ++ [assignmentTokens ⟨"x", "\\T"⟩] ++ back := by
  have hrun : ((inject callsBetween "    " ⟨[⟨"x", "\\T"⟩]⟩).toOption.any fun _ => hasConstructor callsBetween fun c =>
      ((callsBetween.codeIn (c.bodyLeft + 1) c.bodyRight).getLast?.map Token.kind == some .semicolon)
        && (parentCall? callsBetween c).all (fun i =>
          (callsBetween.prevSignificant? i).any (callsBetween.hasKind · .rightBrace))
        && (unassigned callsBetween c ⟨[⟨"x", "\\T"⟩]⟩ == [⟨"x", "\\T"⟩])
        && (statements (callsBetween.codeIn (c.bodyLeft + 1) c.bodyRight)).length == 3) = true := by
    rw [show callsBetween = .ofTokens _ from ofSource_ofList _]
    decide +kernel
  obtain ⟨inserts, hins, hrun⟩ := of_any_ok hrun
  obtain ⟨cls, m, c, hcls, hm, hc, hrun⟩ := of_hasConstructor hrun
  simp only [and_eq_true, beq_iff_eq] at hrun
  obtain ⟨⟨⟨hlast, hcall⟩, hnew⟩, hcount⟩ := hrun
  have hclosed : Complete (callsBetween.codeIn (c.bodyLeft + 1) c.bodyRight) := by
    intro t ht
    rw [ht, map_some, Option.some.injEq] at hlast
    exact .inl hlast
  obtain ⟨hiff, happ⟩ := inject_between_statements hins hcls hm hc hclosed
  have hsplits : SplitsNothing callsBetween c inserts := by
    refine hiff.mpr (.inr fun i hi => ?_)
    rw [(parentCall?_iff (members_ctor hm hc)).mpr hi, all_some, Option.any_eq_true] at hcall
    obtain ⟨q, hq, hbrace⟩ := hcall
    exact ⟨q, hq, .inr (.inr (eq_of_beq hbrace))⟩
  have hproper : ∀ v ∈ ([⟨"x", "\\T"⟩] : List Collaborator), Proper v := by
    intro v hv
    cases List.mem_singleton.mp hv
    exact ⟨by decide, by decide⟩
  obtain ⟨out, cls', m', c', front, back, hout, hcls', hm', hc', hold, hafter⟩ := happ (by decide) hproper hsplits
  rw [hold, List.length_append] at hcount
  rw [hnew] at hafter
  exact ⟨inserts, out, cls, m, c, cls', m', c', front, back, hins, hcls, hm, hc, hsplits, hout, hcls', hm', hc',
    hcount, hold, hafter⟩

def returnsParentCall : TokenStream :=
  .ofSource "<?php class A\x7bfunction __construct()\x7breturn parent::__construct();\x7d\x7d"

/-- The call is found behind the `return`, and the assignment is written between the two: the constructor returns the
collaborator, and does not call its parent any more. -/
theorem inject_splits_statement :
    ∃ inserts out cls m c, inject returnsParentCall "    " ⟨[⟨"x", "\\T"⟩]⟩ = .ok inserts
      ∧ classBody returnsParentCall = .ok cls ∧ members returnsParentCall cls = .ok m ∧ m.ctor = some c
      ∧ Complete (returnsParentCall.codeIn (c.bodyLeft + 1) c.bodyRight) ∧ ¬ SplitsNothing returnsParentCall c inserts
      ∧ returnsParentCall.apply inserts = .ok out
      ∧ out.render
        = "<?php class A\x7b\n    /**\n     * @var \\T\n     */\n    protected $x;\nfunction __construct(\\T $x)\x7b"
          ++ "return $this->x = $x;\nparent::__construct();\x7d\x7d" := by
  have hrun : ((inject returnsParentCall "    " ⟨[⟨"x", "\\T"⟩]⟩).toOption.any fun inserts =>
      hasConstructor returnsParentCall fun c =>
        ((returnsParentCall.codeIn (c.bodyLeft + 1) c.bodyRight).getLast?.map Token.kind == some .semicolon)
          && inserts.any (fun e => decide (c.bodyLeft < e.span.start) && decide (e.span.start ≤ c.bodyRight)
            && (returnsParentCall.prevSignificant? e.span.start).any fun q => q != c.bodyLeft
              && returnsParentCall.hasKind q (.keyword .returnKw))
          && (joinTexts (Edit.weave returnsParentCall.tokens.toList inserts)
            == "<?php class A\x7b\n    /**\n     * @var \\T\n     */\n    protected $x;\nfunction __construct(\\T $x)\x7b"
              ++ "return $this->x = $x;\nparent::__construct();\x7d\x7d")) = true := by
    rw [show returnsParentCall = .ofTokens _ from ofSource_ofList _]
    decide +kernel
  obtain ⟨inserts, hins, hrun⟩ := of_any_ok hrun
  obtain ⟨cls, m, c, hcls, hm, hc, hrun⟩ := of_hasConstructor hrun
  simp only [and_eq_true, beq_iff_eq, List.any_eq_true, Option.any_eq_true, decide_eq_true_eq, bne_iff_ne] at hrun
  obtain ⟨⟨hlast, e, he, ⟨hlo, hhi⟩, q, hq, hne, hret⟩, hrender⟩ := hrun
  refine ⟨inserts, _, cls, m, c, hins, hcls, hm, hc, fun t ht => ?_, fun hsplits => ?_,
    apply_eq_weave (inject_fits hins), hrender⟩
  · rw [ht, map_some, Option.some.injEq] at hlast
    exact .inl hlast
  · obtain ⟨q', hq', hends⟩ := hsplits e he hlo hhi
    cases hq.symm.trans hq'
    rw [eq_of_beq hret] at hends
    rcases hends with hbrace | hmark | hmark
    · exact hne hbrace
    · cases hmark
    · cases hmark

end MageUplift
