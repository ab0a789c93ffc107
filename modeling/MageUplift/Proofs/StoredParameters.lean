import MageUplift.Proofs.StatementBoundaries

/-!
# Parameters that are stored

A new parameter is of use only if the constructor keeps it: the parameter is promoted, or the body has the statement
`$this->v = $v;` outside of all brackets (`StoresIn`). The injector adds that statement unless the body already assigns
the property. It looks for `$this->v =` at any depth and does not read what is assigned; so a conditional assignment, one
in a closure, or one of another value keeps the statement out.

What is added joins with nothing around it: a statement of this form is found in the new body where it was in the old one,
or it is new.
-/

namespace MageUplift

open Php TokenStream List

variable {v : Collaborator} {name : String} {s : TokenStream}

namespace Wiring

open Call (Collaborator)

/-! ## §1. Statements that store a parameter. -/

def storeTokens (name : String) : List Token :=
  [variableToken "this", ⟨.arrow, "->"⟩, ⟨.identifier, name⟩, ⟨.equals, "="⟩, variableToken name, ⟨.semicolon, ";"⟩]

def StoresIn (ts : List Token) (name : String) : Prop :=
  ∃ front back, ts = front ++ storeTokens name ++ back ∧ Balanced (front.map Token.kind)

/-- The tokens do not go on with such a statement that begins in front of them. -/
def StandsApart (ts : List Token) : Prop :=
  StartsApart ts ∧ ∀ t rest, ts = t :: rest →
    t.kind ≠ .semicolon ∧ (t.kind = .variableName → ∀ u ∈ rest.head?, u.kind ≠ .semicolon)

section

variable {xs ys : List Token} {name : String}

theorem balanced_storeTokens (name : String) : Balanced ((storeTokens name).map Token.kind) := rfl

theorem StoresIn.variable_mem (h : StoresIn xs name) : variableToken name ∈ xs := by
  obtain ⟨front, back, rfl, -⟩ := h
  simp [storeTokens]

theorem StandsApart.not_suffix (h : StandsApart ys) {begun rest back : List Token} (hne : begun ≠ [])
    (hsplit : storeTokens name = begun ++ rest) (hrest : rest ≠ []) : ys ≠ rest ++ back := by
  obtain ⟨hstarts, hends⟩ := h
  rintro rfl
  rw [storeTokens] at hsplit
  -- by how far the statement has begun
  match begun, hne, hsplit with
  | [_], _, hsplit =>
    cases hsplit
    exact hstarts.1 rfl
  | [_, _], _, hsplit =>
    cases hsplit
    exact hstarts.2.2 rfl _ rfl rfl
  | [_, _, _], _, hsplit =>
    cases hsplit
    exact hstarts.2.1 rfl
  | [_, _, _, _], _, hsplit =>
    cases hsplit
    exact (hends _ _ rfl).2 rfl _ rfl rfl
  | [_, _, _, _, _], _, hsplit =>
    cases hsplit
    exact (hends _ _ rfl).1 rfl
  | _ :: _ :: _ :: _ :: _ :: _ :: more, _, hsplit =>
    have hlen := congrArg length hsplit
    simp only [length_cons, length_nil, length_append] at hlen
    exact hrest (length_eq_zero_iff.mp (by omega))

theorem storesIn_append_iff (hx : Balanced (xs.map Token.kind)) (hy : StandsApart ys) :
    StoresIn (xs ++ ys) name ↔ StoresIn xs name ∨ StoresIn ys name := by
  constructor
  · rintro ⟨front, back, hsplit, hfront⟩
    rw [append_assoc] at hsplit
    rcases append_eq_append_iff.mp hsplit with ⟨behind, rfl, hys⟩ | ⟨begun, rfl, hrest⟩
    · -- the statement begins in the second part
      rw [map_append] at hfront
      exact .inr ⟨behind, back, by rw [hys, append_assoc], hfront.of_append hx⟩
    · rcases append_eq_append_iff.mp hrest with ⟨behind, rfl, -⟩ | ⟨rest, hstore, hys⟩
      · exact .inl ⟨front, behind, by rw [append_assoc], hfront⟩
      · -- it would begin in the first part and end in the second
        by_cases hbegun : begun = []
        · subst hbegun
          exact .inr ⟨[], back, by rw [hys, nil_append, hstore, nil_append], balanced_nil⟩
        · by_cases hnone : rest = []
          · subst hnone
            rw [append_nil] at hstore
            exact .inl ⟨front, [], by rw [hstore, append_nil], hfront⟩
          · exact absurd hys (hy.not_suffix hbegun hstore hnone)
  · rintro (⟨front, back, rfl, hfront⟩ | ⟨front, back, rfl, hfront⟩)
    · exact ⟨front, back ++ ys, by rw [append_assoc, append_assoc], hfront⟩
    · refine ⟨xs ++ front, back, by rw [append_assoc, append_assoc, append_assoc], ?_⟩
      rw [map_append]
      exact hx.append hfront

theorem storesIn_storeTokens_iff {other : String} : StoresIn (storeTokens other) name ↔ other = name := by
  constructor
  · rintro ⟨front, back, hsplit, -⟩
    have hlen := congrArg length hsplit
    simp only [storeTokens, length_append, length_cons, length_nil] at hlen
    obtain rfl : front = [] := length_eq_zero_iff.mp (by omega)
    obtain rfl : back = [] := length_eq_zero_iff.mp (by omega)
    rw [nil_append, append_nil, storeTokens, storeTokens] at hsplit
    injection hsplit with _ hsplit
    injection hsplit with _ hsplit
    injection hsplit with hname
    injection hname
  · rintro rfl
    exact ⟨[], [], by rw [nil_append, append_nil], balanced_nil⟩

end

/-! ## §2. New assignments. -/

theorem standsApart_nil : StandsApart [] := ⟨trivial, nofun⟩

theorem standsApart_store (name : String) (rest : List Token) : StandsApart (storeTokens name ++ rest) := by
  refine ⟨⟨nofun, nofun, nofun⟩, fun t more h => ?_⟩
  cases h
  refine ⟨nofun, fun _ u hu => ?_⟩
  cases hu
  exact nofun

theorem assignmentTokens_eq_store (h : isIdentifier v.name.toList) :
    assignmentTokens v = storeTokens v.name := assignmentTokens_eq h

theorem standsApart_assignments {vs : List Collaborator} (hvs : ∀ v ∈ vs, isIdentifier v.name.toList) {rest : List Token}
    (hrest : StandsApart rest) : StandsApart (vs.flatMap assignmentTokens ++ rest) := by
  cases vs with
  | nil => exact hrest
  | cons v vs =>
    rw [flatMap_cons, append_assoc, assignmentTokens_eq_store (hvs v mem_cons_self)]
    exact standsApart_store v.name _

theorem storesIn_assignments {vs : List Collaborator} (hvs : ∀ v ∈ vs, isIdentifier v.name.toList) {rest : List Token}
    (hrest : StandsApart rest) {name : String} :
    StoresIn (vs.flatMap assignmentTokens ++ rest) name ↔ name ∈ vs.map (·.name) ∨ StoresIn rest name := by
  induction vs with
  | nil => simp
  | cons v vs ih =>
    have hmore : ∀ u ∈ vs, isIdentifier u.name.toList := (forall_mem_cons.mp hvs).2
    rw [flatMap_cons, append_assoc, assignmentTokens_eq_store (hvs v mem_cons_self),
      storesIn_append_iff (balanced_storeTokens _) (standsApart_assignments hmore hrest), storesIn_storeTokens_iff,
      ih hmore,
      map_cons, mem_cons, or_assoc, eq_comm]

section

variable {s : TokenStream} {indent : String} {r : Requirements} {inserts : List (Edit Token)} {c : Constructor}

theorem standsApart_assignmentSpot (hwell : c.WellBracketed s) :
    StandsApart (s.codeIn (assignmentSpot s c) c.bodyRight) := by
  refine ⟨startsApart_spot hwell, fun t rest h => ?_⟩
  cases hcall : parentCall? s c with
  | none =>
    have hhi := (spot_bounds hwell).2
    have htriv : s.TriviaIn (assignmentSpot s c) c.bodyRight := by
      rw [assignmentSpot, hcall]
      exact triviaIn_trailing s c.bodyLeft c.bodyRight
    rw [codeIn_triviaIn htriv hhi] at h
    cases h
  | some call =>
    obtain ⟨u, hu, hword, -⟩ := isWord_parentCall (parentCall_spec hcall).2.2
    have hlt := (parentCall_spec hcall).2.1
    rw [assignmentSpot, hcall, Option.getD_some, codeIn_code hu (isTrivia_of_isWord hword).1 hlt] at h
    cases h
    rw [Token.isWord, Bool.and_eq_true] at hword
    refine ⟨fun hkind => ?_, fun hkind => ?_⟩
    · rw [hkind] at hword
      cases hword.1
    · rw [hkind] at hword
      cases hword.1

theorem storesIn_extendedBody (hproper : ∀ v ∈ r.entries, Proper v) (hwell : c.WellBracketed s) :
    StoresIn (extendedBody s c r) name
      ↔ StoresIn (s.codeIn (c.bodyLeft + 1) c.bodyRight) name ∨ name ∈ (unassigned s c r).map (·.name) := by
  obtain ⟨hlo, hhi⟩ := spot_bounds hwell
  have hapart := standsApart_assignmentSpot hwell
  have hbal := balanced_assignmentSpot hwell
  have hnames : ∀ v ∈ unassigned s c r, isIdentifier v.name.toList := fun v hv =>
    (hproper v (mem_filter.mp hv).1).name
  rw [extendedBody, append_assoc, storesIn_append_iff hbal (standsApart_assignments hnames hapart),
    storesIn_assignments hnames hapart, codeIn_append s hlo hhi,
    storesIn_append_iff hbal hapart, or_assoc, or_comm (b := StoresIn (s.codeIn (assignmentSpot s c) c.bodyRight) name)]

theorem mem_promotedIn_iff (hproper : ∀ v ∈ r.entries, Proper v) (hwell : c.WellBracketed s) :
    name ∈ promotedIn (extendedList s indent c r) ↔ name ∈ (parameterList s c).promotedNames := by
  have hnew : ((missingParameters (parameterList s c) r).map newFacts).filter (·.promoted) = [] := by
    refine filter_eq_nil_iff.mpr fun f hf => ?_
    obtain ⟨v, -, rfl⟩ := List.mem_map.mp hf
    exact Bool.false_ne_true
  rw [promotedNames_list hwell.parameters]
  refine (((extendedList_perm hproper hwell).filter (·.promoted)).filterMap (·.name)).mem_iff.trans ?_
  rw [filter_append, hnew, append_nil]
  rfl

end

/-! ## §3. Kept collaborators. -/

def ConstructorOf (s : TokenStream) (c : Constructor) : Prop :=
  ∃ cls m, classBody s = .ok cls ∧ members s cls = .ok m ∧ m.ctor = some c

/-- The constructor promotes its parameter of the name, or stores it outside of all brackets. -/
def Keeps (s : TokenStream) (c : Constructor) (name : String) : Prop :=
  name ∈ (parameterList s c).promotedNames ∨ StoresIn (s.codeIn (c.bodyLeft + 1) c.bodyRight) name

theorem ConstructorOf.unique {c c' : Constructor} (h : ConstructorOf s c) (h' : ConstructorOf s c') : c = c' := by
  obtain ⟨cls, m, hcls, hm, hc⟩ := h
  obtain ⟨cls', m', hcls', hm', hc'⟩ := h'
  cases hcls.symm.trans hcls'
  cases hm.symm.trans hm'
  exact Option.some.inj (hc.symm.trans hc')

theorem keeps_constructorAfter {indent : String} {r : Requirements} {c : Constructor}
    (hproper : ∀ v ∈ r.entries, Proper v) (hwell : c.WellBracketed s) (hv : v ∈ r.entries) :
    (v.name ∈ promotedIn (extendedList s indent c r) ∨ StoresIn (extendedBody s c r) v.name)
      ↔ v.name ∉ assignedProperties s c ∨ Keeps s c v.name := by
  rw [mem_promotedIn_iff hproper hwell, storesIn_extendedBody hproper hwell]
  constructor
  · rintro (hprom | hstored | hnew)
    · exact .inr (.inl hprom)
    · exact .inr (.inr hstored)
    · obtain ⟨u, hu, hname⟩ := List.mem_map.mp hnew
      have hnot := (mem_filter.mp hu).2
      rw [hname, Bool.and_eq_true, Bool.not_eq_true', Bool.not_eq_true'] at hnot
      exact .inl fun hasg => by rw [contains_iff_mem.mpr hasg] at hnot; cases hnot.2
  · rintro (hunassigned | hprom | hstored)
    · by_cases hprom : v.name ∈ (parameterList s c).promotedNames
      · exact .inl hprom
      · refine .inr (.inr (List.mem_map.mpr ⟨v, mem_filter.mpr ⟨hv, ?_⟩, rfl⟩))
        simp [hprom, hunassigned]
    · exact .inl hprom
    · exact .inr (.inl hstored)

end Wiring

open Call Wiring

/-- **Which collaborators the constructor keeps.** The insertions can be applied, and the class has a constructor
afterwards. It promotes a collaborator or stores it outside of all brackets, unless the constructor that was there
assigned the property somewhere, and neither promoted nor stored it in this way: then it does not do so now. -/
theorem inject_stores_parameters {s : TokenStream} {indent : String} {r : Requirements} {inserts : List (Edit Token)}
    (hind : IsIndentText indent.toList) (hproper : ∀ v ∈ r.entries, Proper v) (h : inject s indent r = .ok inserts) :
    ∃ out, s.apply inserts = .ok out ∧ ∀ v ∈ r.entries, ∃ new, ConstructorOf out new
      ∧ (Keeps out new v.name ↔ ∀ old, ConstructorOf s old → v.name ∈ assignedProperties s old → Keeps s old v.name) := by
  refine ⟨_, apply_eq_weave (inject_fits h), fun v hv => ?_⟩
  have hr : r.isEmpty = false := by
    rw [Requirements.isEmpty, isEmpty_eq_false_iff]
    exact ne_nil_of_mem hv
  have hinj : IsInjection s indent r inserts := ⟨hind, fun v hv => (hproper v hv).plain, h⟩
  obtain ⟨cls, m, hcls, hm, -⟩ := inject_cases hr h
  obtain ⟨cls', m', new, hcls', hm', hnew, hwell', hlist, hbody⟩ := constructor_of_injection hinj hr hproper hcls hm
  refine ⟨new, ⟨cls', m', hcls', hm', hnew⟩, ?_⟩
  change v.name ∈ (parameterList (s.woven inserts) new).promotedNames
    ∨ StoresIn ((s.woven inserts).codeIn (new.bodyLeft + 1) new.bodyRight) v.name ↔ _
  rw [promotedNames_list hwell'.parameters, hlist, hbody]
  cases hc : m.ctor with
  | none =>
    -- a new constructor stores all of them
    have hstores := (@storesIn_assignments r.entries (fun u hu => (hproper u hu).name) [] standsApart_nil v.name).mpr
      (.inl (mem_map_of_mem hv))
    rw [List.append_nil] at hstores
    refine iff_of_true (.inr hstores) fun old hold => ?_
    obtain ⟨cls₀, m₀, hcls₀, hm₀, hc₀⟩ := hold
    cases hcls.symm.trans hcls₀
    cases hm.symm.trans hm₀
    cases hc.symm.trans hc₀
  | some c =>
    have hctor : ConstructorOf s c := ⟨cls, m, hcls, hm, hc⟩
    refine (keeps_constructorAfter hproper (members_ctor hm hc) hv).trans ⟨fun hkeeps old hold hasg => ?_, fun hall => ?_⟩
    · cases hctor.unique hold
      exact hkeeps.resolve_left fun hnot => hnot hasg
    · by_cases hasg : v.name ∈ assignedProperties s c
      · exact .inr (hall c hctor hasg)
      · exact .inl hasg

/-- The constructor promotes the one collaborator and is given a statement that stores the other. -/
theorem inject_stores_parameters_promotesOne :
    ∃ inserts out, inject (.ofSource promotesOne) "\t" twoCollaborators = .ok inserts
      ∧ (ofSource promotesOne).apply inserts = .ok out
      ∧ ∀ v ∈ twoCollaborators.entries, ∃ new, ConstructorOf out new ∧ Keeps out new v.name := by
  -- the constructor that is there assigns neither property
  have hrun : ((inject (.ofSource promotesOne) "\t" twoCollaborators).toOption.any fun _ =>
      hasConstructor (.ofSource promotesOne) fun c => twoCollaborators.entries.all fun v =>
        !(assignedProperties (.ofSource promotesOne) c).contains v.name) = true := by
    rw [show ofSource promotesOne = .ofTokens _ from ofSource_ofList _]
    decide +kernel
  obtain ⟨inserts, hins, hrun⟩ := of_any_ok hrun
  obtain ⟨cls, m, c, hcls, hm, hc, hnone⟩ := of_hasConstructor hrun
  obtain ⟨out, hout, hall⟩ := inject_stores_parameters (by decide) proper_twoCollaborators hins
  refine ⟨inserts, out, hins, hout, fun v hv => ?_⟩
  obtain ⟨new, hnew, hkeeps⟩ := hall v hv
  refine ⟨new, hnew, hkeeps.mpr fun old hold hasg => ?_⟩
  cases hold.unique ⟨cls, m, hcls, hm, hc⟩
  have hnot := List.all_eq_true.mp hnone v hv
  rw [List.contains_iff_mem.mpr hasg] at hnot
  cases hnot

/-- An assignment under a condition keeps the statement out: the new parameter is neither promoted nor stored. -/
theorem inject_leaves_unstored :
    let source := "<?php class A\x7bfunction __construct($a)\x7bif($a)\x7b$this->x=1;\x7d\x7d\x7d"
    ∃ inserts out new, inject (.ofSource source) "    " ⟨[⟨"x", "\\T"⟩]⟩ = .ok inserts
      ∧ (ofSource source).apply inserts = .ok out ∧ ConstructorOf out new
      ∧ "x" ∈ (parameterList out new).names ∧ ¬Keeps out new "x" := by
  intro source
  have hrun : ((inject (.ofSource source) "    " ⟨[⟨"x", "\\T"⟩]⟩).toOption.any fun inserts =>
      hasConstructor ((ofSource source).woven inserts) fun c =>
        let list := parameterList ((ofSource source).woven inserts) c
        let body := ((ofSource source).woven inserts).codeIn (c.bodyLeft + 1) c.bodyRight
        decide ("x" ∈ list.names ∧ "x" ∉ list.promotedNames ∧ variableToken "x" ∉ body)) = true := by
    rw [show ofSource source = .ofTokens _ from ofSource_ofList _]
    decide +kernel
  obtain ⟨inserts, hins, hrun⟩ := of_any_ok hrun
  obtain ⟨cls, m, new, hcls, hm, hnew, hunstored⟩ := of_hasConstructor hrun
  obtain ⟨hnames, hprom, hbody⟩ := of_decide_eq_true hunstored
  refine ⟨inserts, _, new, hins, apply_eq_weave (inject_fits hins), ⟨cls, m, hcls, hm, hnew⟩, hnames, ?_⟩
  rintro (h | h)
  · exact hprom h
  · exact hbody h.variable_mem

end MageUplift
