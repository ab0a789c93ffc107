import MageUplift.Proofs.CompleteInjection

/-!
# The order of parameters

Required parameters have to stand in front of those that may be omitted, so new parameters go in front of the first
parameter that is optional or variadic, and to the end of a list that has none. The parameters that were there keep
their order, and what they say of themselves.

This is said of the text that is written, when it is read anew: `constructorParameters` reads the list of the
constructor from a stream, and `parametersAfter` is what an injection makes of such a list.
-/

namespace MageUplift

open Php TokenStream Call Wiring

namespace Wiring

/-! ## §1. The list of the constructor. -/

/-- What the parameters of the constructor say of themselves, in order, in the first class of a stream; `none` if the
class has no constructor. -/
def constructorParameters (s : TokenStream) : Except InjectError (Option (List ParameterFacts)) := do
  let cls ← classBody s
  let m ← members s cls
  return m.ctor.map fun c => (parameterList s c).parameters.map (·.facts)

/-- What an injection makes of the list: the collaborators that are not in it yet come in front of the first parameter
that may be omitted. A new constructor has the collaborators for its parameters. -/
def parametersAfter (r : Requirements) : Option (List ParameterFacts) → List ParameterFacts
  | none => r.entries.map newFacts
  | some facts =>
    withRequired facts ((r.entries.filter fun v => !(facts.filterMap (·.name)).contains v.name).map newFacts)

section

variable {s : TokenStream} {cls : ClassBody}

theorem parameters_of_members {m : Members} (hcls : classBody s = .ok cls) (hm : members s cls = .ok m) :
    constructorParameters s = .ok (m.ctor.map fun c => (parameterList s c).parameters.map (·.facts)) := by
  rw [constructorParameters, hcls]
  show (members s cls >>= _) = _
  rw [hm]
  rfl

theorem parameters_of_outlines {o : Outline} (hcls : classBody s = .ok cls)
    (h : Outlines ⟨[], none⟩ (s.codeIn (cls.left + 1) cls.right) o) :
    constructorParameters s = .ok (o.ctor.map fun x => listedFacts x.1) := by
  obtain ⟨m, hm, rfl⟩ := @membersFrom_of_outlines s cls (classBody_spec hcls) (classBody_brace hcls) _ _ _ h ⟨[], none⟩
    (cls.left + 1) (Nat.lt_succ_self _) rfl rfl
  rw [parameters_of_members hcls hm, Members.outline]
  cases hc : m.ctor with
  | none => rfl
  | some c =>
    show Except.ok (some ((parameterList s c).parameters.map (·.facts))) = .ok (some (listedFacts _))
    rw [parameterList_facts (members_ctor hm hc).parameters]

theorem listedFacts_constructorAfter {indent : String} {m : Members} {r : Requirements}
    (hproper : ∀ v ∈ r.entries, Proper v)
    (hm : members s cls = .ok m) :
    listedFacts (constructorAfter s indent r m.ctor).1
      = parametersAfter r (m.ctor.map fun c => (parameterList s c).parameters.map (·.facts)) := by
  cases hc : m.ctor with
  | none => exact (facts_commasBetween hproper).2
  | some c =>
    have hwell := members_ctor hm hc
    -- the names that count are those of the parameters that were read
    have hnames : (parameterList s c).names = ((parameterList s c).parameters.map (·.facts)).filterMap (·.name) := by
      rw [List.filterMap_map]
      rfl
    show listedFacts (extendedList s indent c r) = withRequired ((parameterList s c).parameters.map (·.facts)) _
    rw [listedFacts_extendedList hproper hwell, ← parameterList_facts hwell.parameters, missingParameters, hnames]

end

end Wiring

/-! ## §2. The list in the text that is written. -/

/-- **New parameters stand in front of those that may be omitted.** In a file in which no token waits for the text
behind it, the insertions can be applied, and in the text that they leave, read anew, the constructor has the
parameters that it had, in their order and with what they said of themselves; the collaborators that were not among
them come in the order in which they were asked for, in front of the first parameter that is optional or variadic,
or at the end. A constructor that is new has exactly the collaborators. -/
theorem inject_orders_parameters {source indent : String} {r : Requirements} {inserts : List (Edit Token)}
    (hind : IsIndentText indent.toList) (hproper : ∀ v ∈ r.entries, Proper v)
    (hset : areSettled none (lex source) = true) (h : inject (.ofSource source) indent r = .ok inserts) :
    ∃ out, (ofSource source).apply inserts = .ok out
      ∧ (r.isEmpty = true → constructorParameters out.refresh = constructorParameters (.ofSource source))
      ∧ (r.isEmpty = false → ∃ old, constructorParameters (.ofSource source) = .ok old
        ∧ constructorParameters out.refresh = .ok (some (parametersAfter r old))) := by
  have hinj : IsInjection (.ofSource source) indent r inserts := ⟨hind, fun v hv => (hproper v hv).plain, h⟩
  refine ⟨_, apply_eq_weave (inject_fits h), fun hr => ?_, fun hr => ?_⟩
  · -- nothing is inserted, and the text is read as before
    obtain rfl : [] = inserts := Except.ok.inj ((inject_of_isEmpty hr _ _).symm.trans h)
    have happ : (ofSource source).apply [] = .ok (.ofSource source) := by
      rw [apply, Edit.applyAll_nil]
      rfl
    rw [← Except.ok.inj (happ.symm.trans (apply_eq_weave (inject_fits h))), refresh, render_ofSource]
  · obtain ⟨cls, m, hcls, hm, -⟩ := inject_cases hr h
    refine ⟨_, parameters_of_members hcls hm, ?_⟩
    obtain ⟨cls', hcls', houtline⟩ := outlines_injection hinj hr hproper hcls hm
    -- the class that is read anew has the same tokens
    obtain ⟨inner, hinner, hcode⟩ := classBody_of_significant (hinj.significant_refresh hproper hset).symm hcls'
    have hread := parameters_of_outlines hinner (hcode ▸ houtline)
    rw [← @listedFacts_constructorAfter _ _ indent _ _ hproper hm]
    exact hread

/-- A collaborator that the constructor lacks comes in front of the parameter with a default. -/
theorem inject_orders_parameters_promotesOne :
    ∃ inserts out, inject (.ofSource promotesOne) "\t" twoCollaborators = .ok inserts
      ∧ (ofSource promotesOne).apply inserts = .ok out
      ∧ constructorParameters (.ofSource promotesOne)
        = .ok (some [{ name := some "y", promoted := true }, { name := some "a", optional := true }])
      ∧ constructorParameters out.refresh = .ok (some [{ name := some "y", promoted := true }, { name := some "x" },
        { name := some "a", optional := true }]) := by
  have hrun : ((inject (.ofSource promotesOne) "\t" twoCollaborators).toOption.any fun _ =>
      (constructorParameters (.ofSource promotesOne)).toOption.any
        (· == some [{ name := some "y", promoted := true }, { name := some "a", optional := true }])) = true := by
    rw [show ofSource promotesOne = .ofTokens _ from ofSource_ofList _]
    decide +kernel
  obtain ⟨inserts, hins, hrun⟩ := of_any_ok hrun
  obtain ⟨old, hold, hsame⟩ := of_any_ok hrun
  cases eq_of_beq hsame
  obtain ⟨out, hout, -, hnew⟩ := inject_orders_parameters (by decide) proper_twoCollaborators (by decide +kernel) hins
  obtain ⟨old', hold', hlist⟩ := hnew rfl
  cases hold.symm.trans hold'
  exact ⟨inserts, out, hins, hout, hold, hlist⟩

/-- A close tag that ends a comment counts as the first token of the parameter behind it, and a new parameter in front of
it is written into the comment: in the text that is left the constructor has the old parameter only. -/
theorem inject_hides_parameter :
    ∃ inserts out, inject (.ofSource opensWithComment) "    " ⟨[⟨"x", "\\T"⟩]⟩ = .ok inserts
      ∧ (ofSource opensWithComment).apply inserts = .ok out
      ∧ constructorParameters (.ofSource opensWithComment) = .ok (some [{ name := some "a", optional := true }])
      ∧ constructorParameters out.refresh = .ok (some [{ name := some "a", optional := true }]) := by
  have hrun : ((inject (.ofSource opensWithComment) "    " ⟨[⟨"x", "\\T"⟩]⟩).toOption.any fun inserts =>
      (constructorParameters (.ofSource opensWithComment)).toOption.any
      (· == some [{ name := some "a", optional := true }])
        && (constructorParameters (ofTokens
            (Edit.weave (ofSource opensWithComment).tokens.toList inserts)).refresh).toOption.any
          (· == some [{ name := some "a", optional := true }])) = true := by
    simp only [refresh_ofTokens]
    rw [show ofSource opensWithComment = .ofTokens _ from ofSource_ofList _]
    decide +kernel
  obtain ⟨inserts, hins, hrun⟩ := of_any_ok hrun
  rw [Bool.and_eq_true] at hrun
  obtain ⟨old, hold, hsame⟩ := of_any_ok hrun.1
  obtain ⟨new, hnew, hsame'⟩ := of_any_ok hrun.2
  cases eq_of_beq hsame
  cases eq_of_beq hsame'
  exact ⟨inserts, _, hins, apply_eq_weave (inject_fits hins), hold, hnew⟩

end MageUplift
