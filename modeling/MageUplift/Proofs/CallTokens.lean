import MageUplift.Proofs.BalancedEdits
import MageUplift.Proofs.CodeTokens

/-!
# The tokens of a call's code

The code that takes the place of a call holds no legacy call. For this it is enough to know a little about its
significant tokens: which kinds the first one can have, and that a `Mage` among them (a collaborator can be
called so) is always a name that an arrow selects.
-/

namespace MageUplift

open Php TokenStream Call Wiring Magento String

/-! ## §1. The code of calls. -/

/-- Every `Mage` among significant tokens is a name that an arrow selects; `prev` is the kind of the token in front
of them. -/
def magesSelected (prev : Option Kind) : List Token → Bool
  | [] => true
  | t :: ts => (!isMage t || prev == some .arrow) && magesSelected (some t.kind) ts

/-- What the code for the head of a call starts with. -/
def headKinds : List Kind := [.variableName, .identifier, .keyword .throwKw]

/-- What the further code of a call starts with. -/
def tailKinds : List Kind := [.comma, .rightParen]

/-- Code that starts with one of the kinds and holds no class `Mage`. -/
structure QuietCode (kinds : List Kind) (code : String) : Prop where
  first : ∃ t rest, codeTokens none code.toList = t :: rest ∧ t.kind ∈ kinds
  selected : magesSelected none (codeTokens none code.toList) = true

structure CallTokens (inv : Invocation) : Prop where
  modern : QuietCode headKinds inv.modern
  further : ∀ e, inv.tail = some e → QuietCode tailKinds e.code

def isQuiet (kinds : List Kind) (tokens : List Token) : Bool :=
  tokens.head?.any (kinds.contains ·.kind) && magesSelected none tokens

theorem QuietCode.of_isQuiet {kinds : List Kind} {code : String}
    (h : isQuiet kinds (codeTokens none code.toList)) : QuietCode kinds code := by
  rw [isQuiet, Bool.and_eq_true] at h
  refine ⟨?_, h.2⟩
  cases htoks : codeTokens none code.toList with
  | nil =>
    rw [htoks] at h
    cases h.1
  | cons t rest =>
    rw [htoks] at h
    exact ⟨t, rest, rfl, by simpa using h.1⟩

theorem codeTokens_property {v : Collaborator} (hname : isIdentifier v.name.toList) {target : String}
    (htarget : nameRun target.toList = 0) :
    codeTokens none (v.property ++ target).toList = ⟨.variableName, "$this"⟩ :: ⟨.arrow, "->"⟩
      :: ⟨.identifier, v.name⟩ :: codeTokens (some .identifier) target.toList := by
  have htext : (v.property ++ target).toList
    = '$' :: ("this".toList ++ '-' :: '>' :: (v.name.toList ++ target.toList)) := by
    rw [Collaborator.property, toList_append, toList_append]
    rfl
  rw [htext, codeTokens_variable (by decide) rfl, codeTokens_arrow, codeTokens_identifier hname htarget]
  rfl

theorem lexFragment_property (v : Collaborator) (target : String) :
    ∃ t rest, lexFragment (v.property ++ target) = t :: rest ∧ t.kind = .variableName := by
  have htext : (v.property ++ target).toList = '$' :: 't' :: ("his->".toList ++ v.name.toList ++ target.toList) := by
    rw [Collaborator.property]
    simp [toList_append]
  rw [lexFragment, htext, tokens_steps_cons]
  exact ⟨_, _, rfl, rfl⟩

def propertyTargets : List String :=
  ["", "->create()", "->dispatch", "->registry", "->register", "->unregister", "->critical", "->debug",
   "->getValue(", "->isSetFlag(", "->getStore", "->getStores", "->getWebsite", "->getWebsites",
   "->getDefaultStoreView"]

theorem propertyTargets_quiet : ∀ target ∈ propertyTargets, nameRun target.toList = 0
    ∧ magesSelected (some .identifier) (codeTokens (some .identifier) target.toList) := by
  decide +kernel

theorem QuietCode.property {v : Collaborator} (hname : isIdentifier v.name.toList) {target : String}
    (htarget : target ∈ propertyTargets) : QuietCode headKinds (v.property ++ target) := by
  obtain ⟨hrun, hsel⟩ := propertyTargets_quiet target htarget
  have htoks := codeTokens_property hname hrun
  refine ⟨⟨_, _, htoks, by simp [headKinds]⟩, ?_⟩
  rw [htoks]
  show (true && (true && ((_ || true) && magesSelected (some .identifier) _))) = true
  rw [hsel, Bool.or_true]
  rfl

/-! ## §2. The forms of calls. -/

def throwCode : String := "throw new " ++ localizedException ++ "("

/-- **What the code of a recognised call looks like.** -/
inductive CallForm (s : TokenStream) (inv : Invocation) : Prop where
  /-- The property of a collaborator, and what follows it. -/
  | property (v : Collaborator) (target : String) (modern : inv.modern = v.property ++ target)
      (mem : target ∈ propertyTargets) (closed : target ∉ ["->getValue(", "->isSetFlag("])
      (collaborator : inv.collaborator = some v) (tail : inv.tail = none)
  /-- A read of the store configuration: the scope goes before the end of the list, or in the place of its comma. -/
  | storeConfig (target : String) (e : CodeEdit) (modern : inv.modern = scopeConfig.property ++ target)
      (mem : target ∈ ["->getValue(", "->isSetFlag("]) (collaborator : inv.collaborator = some scopeConfig)
      (paren : ∃ left, inv.headEnd = left + 1 ∧ s.kind? left = some .leftParen) (tail : inv.tail = some e)
      (code : e.span.isEmpty = true ∧ e.code = ", " ++ scopeStore
        ∨ e.span.isEmpty = false ∧ e.code = ", " ++ scopeStore ++ ",")
  | translation (modern : inv.modern = "__") (bare : inv.collaborator = none) (tail : inv.tail = none)
  /-- An exception whose message is translated already. -/
  | exception (modern : inv.modern = throwCode) (bare : inv.collaborator = none)
      (paren : ∃ left, inv.headEnd = left + 1 ∧ s.kind? left = some .leftParen) (tail : inv.tail = none)
  | plainException (e : CodeEdit) (modern : inv.modern = throwCode ++ "__(") (bare : inv.collaborator = none)
      (paren : ∃ left, inv.headEnd = left + 1 ∧ s.kind? left = some .leftParen) (tail : inv.tail = some e)
      (code : e.span.isEmpty = true ∧ e.code = ")")

section

variable {table : AliasTable} {s : TokenStream} {head : Head} {inv : Invocation}

theorem matchHead?_form {p : Pattern} {method : String}
    (hmeth : p.methods.find? (sameWord · (s.text head.method)) = some method)
    (h : p.matchHead? table s head method = some inv) : CallForm s inv := by
  cases head_recognised h with
  | translation => exact .translation rfl rfl rfl
  | helper => exact .property _ "" (append_empty).symm (by decide) (by decide) rfl rfl
  | model factory _ _ _ _ named =>
    cases factory with
    | true => exact .property _ "->create()" rfl (by decide) (by decide) rfl rfl
    | false => exact .property _ "" (append_empty).symm (by decide) (by decide) rfl rfl
  | service _ moves =>
    have hall : ∀ x ∈ servicePatterns, "->" ++ x.2.2 ∈ propertyTargets
        ∧ "->" ++ x.2.2 ∉ ["->getValue(", "->isSetFlag("] := by decide
    obtain ⟨hin, hclosed⟩ := hall _ (moves (List.mem_of_find?_eq_some hmeth))
    exact .property _ _ (append_assoc ..) hin hclosed rfl rfl
  | @storeConfig _ getter _ _ reads arguments _ scope =>
    have hall : ∀ x ∈ [(Pattern.getStoreConfig, "getValue"), (.getStoreConfigFlag, "isSetFlag")],
        "->" ++ x.2 ++ "(" ∈ ["->getValue(", "->isSetFlag("] := by decide
    have hmod : scopeConfig.property ++ "->" ++ getter ++ "(" = scopeConfig.property ++ ("->" ++ getter ++ "(") := by
      simp only [append_assoc]
    have hparen := (followedBy?_spec (arguments?_spec arguments).1).2.1
    refine .storeConfig _ _ hmod (hall _ reads) rfl ⟨_, rfl, hparen⟩ rfl ?_
    cases scope with
    | atClose => exact .inl ⟨beq_self_eq_true _, rfl⟩
    | atComma => exact .inr ⟨beq_eq_false_iff_ne.mpr (Nat.lt_succ_self _).ne, rfl⟩
  | exception translated _ arguments =>
    have hparen := (followedBy?_spec (arguments?_spec arguments).1).2.1
    cases translated with
    | true => exact .exception rfl rfl ⟨_, rfl, hparen⟩ rfl
    | false => exact .plainException _ rfl rfl ⟨_, rfl, hparen⟩ rfl ⟨beq_self_eq_true _, rfl⟩
  | appStore _ _ _ _ known =>
    have hall : ∀ getter ∈ storeGetters, "->" ++ getter ∈ propertyTargets
        ∧ "->" ++ getter ∉ ["->getValue(", "->isSetFlag("] := by decide
    obtain ⟨hin, hclosed⟩ := hall _ (List.mem_of_find?_eq_some known)
    exact .property _ _ (append_assoc ..) hin hclosed rfl rfl

theorem matchAt?_form {i : Nat} (h : matchAt? table s i = some inv) : CallForm s inv := by
  obtain ⟨head, p, method, -, hmeth, hmatch⟩ := matchAt?_cases h
  exact matchHead?_form hmeth hmatch

theorem storeTargets_mem : ∀ target ∈ ["->getValue(", "->isSetFlag("], target ∈ propertyTargets := by decide

theorem CallForm.modern_of_collaborator (h : CallForm s inv) {v : Collaborator} (hv : inv.collaborator = some v) :
    ∃ target ∈ propertyTargets, inv.modern = v.property ++ target := by
  cases h with
  | property w target modern mem _ collaborator tail =>
    rw [hv, Option.some.injEq] at collaborator
    exact ⟨target, mem, collaborator ▸ modern⟩
  | storeConfig target e modern mem collaborator _ tail code =>
    rw [hv, Option.some.injEq] at collaborator
    exact ⟨target, storeTargets_mem target mem, collaborator ▸ modern⟩
  | translation _ bare _ | exception _ bare _ _ | plainException _ _ bare _ _ _ =>
    rw [hv] at bare
    cases bare

theorem matchAt?_tokens {i : Nat} (h : matchAt? table s i = some inv)
    (hname : ∀ v, inv.collaborator = some v → isIdentifier v.name.toList) : CallTokens inv := by
  cases matchAt?_form h with
  | property v target modern mem _ collaborator tail =>
    refine ⟨?_, fun e he => ?_⟩
    · rw [modern]
      exact .property (hname v collaborator) mem
    · rw [tail] at he
      cases he
  | storeConfig target e modern mem collaborator _ tail code =>
    refine ⟨?_, fun e' he => ?_⟩
    · rw [modern]
      exact .property (hname _ collaborator) (storeTargets_mem target mem)
    · rw [tail] at he
      cases he
      rcases code with ⟨-, code⟩ | ⟨-, code⟩ <;> rw [code] <;> exact .of_isQuiet (by decide +kernel)
  | translation modern _ tail =>
    refine ⟨by rw [modern]; exact .of_isQuiet (by decide +kernel), fun e he => ?_⟩
    rw [tail] at he
    cases he
  | exception modern _ _ tail =>
    refine ⟨by rw [modern]; exact .of_isQuiet (by decide +kernel), fun e he => ?_⟩
    rw [tail] at he
    cases he
  | plainException e modern _ _ tail code =>
    refine ⟨by rw [modern]; exact .of_isQuiet (by decide +kernel), fun e' he => ?_⟩
    rw [tail] at he
    cases he
    rw [code.2]
    exact .of_isQuiet (by decide +kernel)

end

end MageUplift
