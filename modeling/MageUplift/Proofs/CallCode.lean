import MageUplift.Proofs.AliasNames
import MageUplift.Proofs.CallShape
import MageUplift.Proofs.InertText

/-!
# The code of converted calls

The code that takes the place of a call is inert text: names, ordinary operators and brackets. It starts
with a character that no token in front of it takes along, and what it opens is closed, by itself, by the
code at the end of the arguments or by the parenthesis that closes them.
-/

namespace MageUplift

open Php TokenStream Call Magento List
open String (toList_append)

/-! ## §1. Texts. -/

def IsSoftText (cs : List Char) : Prop := ∀ x ∈ cs, isSoft x = true

instance (cs : List Char) : Decidable (IsSoftText cs) :=
  inferInstanceAs (Decidable (∀ x ∈ cs, isSoft x = true))

theorem IsSoftText.append_iff {a b : List Char} : IsSoftText (a ++ b) ↔ IsSoftText a ∧ IsSoftText b :=
  forall_mem_append

theorem IsNameText.soft {cs : List Char} (h : IsNameText cs) : IsSoftText cs :=
  fun x hx => isSoft_namePart (h x hx)

/-- The code is there, and does not start with a character that joins a token in front of it. -/
def StartsCode (code : String) : Prop := code.toList ≠ [] ∧ startsFree code.toList = true

theorem StartsCode.append {a : String} (h : StartsCode a) (b : String) : StartsCode (a ++ b) := by
  obtain ⟨hne, hfree⟩ := h
  refine ⟨?_, ?_⟩
  · rw [toList_append]
    exact fun hnil => hne (append_eq_nil_iff.mp hnil).1
  · rw [toList_append, startsFree, nextIs_append hne]
    exact hfree

structure Call.Collaborator.Plain (v : Collaborator) : Prop where
  name : IsNameText v.name.toList
  type : IsClassText v.type.toList

theorem Call.Collaborator.plain_mk {name type : String} (hname : IsNameText name.toList)
    (htype : IsClassText type.toList) : Collaborator.Plain ⟨name, type⟩ := ⟨hname, htype⟩

/-! ## §2. The code of calls. -/

/-- The code of a call: `head` are the brackets of the code for its head, and `tail` those of the further
code in its argument list. -/
structure CallCode (inv : Invocation) (head tail : List Kind) : Prop where
  modern : InertText inv.modern.toList head
  starts : StartsCode inv.modern
  further : ∀ e, inv.tail = some e → InertText e.code.toList tail ∧ StartsCode e.code
    ∧ (e.span.start < e.span.stop → tail = [])
  noFurther : inv.tail = none → tail = []
  /-- What the code opens is closed again, by the parenthesis of the arguments if the head takes theirs. -/
  closes : (inv.headEnd = inv.span.stop ∧ Balanced head)
    ∨ (inv.headEnd < inv.span.stop ∧ Balanced (head ++ tail ++ [.rightParen]))
  collaborator : ∀ v, inv.collaborator = some v → v.Plain

theorem services_plain : ∀ v ∈ [scopeConfig, eventManager, registry, logger, storeManager], v.Plain := by
  have hnames : ∀ v ∈ [scopeConfig, eventManager, registry, logger, storeManager],
      IsNameText v.name.toList ∧ isQualifiedClassName v.type := by
    decide
  intro v hv
  exact ⟨(hnames v hv).1, isClassText_qualified (hnames v hv).2⟩

theorem scopeStore_soft : IsSoftText scopeStore.toList := by decide

theorem localizedException_soft : IsSoftText localizedException.toList := by decide

theorem property_soft {v : Collaborator} (h : v.Plain) : IsSoftText v.property.toList := by
  rw [Collaborator.property, toList_append, IsSoftText.append_iff]
  exact ⟨by decide, h.name.soft⟩

theorem property_starts (v : Collaborator) : StartsCode v.property := by
  exact StartsCode.append ⟨by decide, by decide⟩ v.name

section

variable {table : AliasTable} {s : TokenStream} {head : Head} {inv : Invocation}

theorem callCode_of_property (v : Collaborator) (target : String) {ks : List Kind} (hv : v.Plain)
    (htarget : InertText target.toList ks) (hks : Balanced ks) (hmod : inv.modern = v.property ++ target)
    (hend : inv.headEnd = inv.span.stop) (htail : inv.tail = none) (hcollab : inv.collaborator = some v) :
    CallCode inv ks [] := by
  refine ⟨?_, ?_, fun e he => ?_, fun _ => rfl, .inl ⟨hend, hks⟩, fun w hw => ?_⟩
  · rw [hmod, toList_append, ← nil_append ks]
    exact (InertText.softs (property_soft hv)).append htarget
  · rw [hmod]
    exact (property_starts v).append target
  · rw [htail] at he
    cases he
  · rw [hcollab] at hw
    cases hw
    exact hv

theorem callCode_of_storeConfig {args : Arguments} {method mage : Nat} {pattern : Pattern} {getter legacy type : String}
    {edit : CodeEdit} (hargs : arguments? s method = some args) (hgetter : IsSoftText getter.toList)
    (hedit : ScopeEdit args edit) :
    CallCode ⟨pattern, ⟨mage, args.close + 1⟩, args.left + 1, legacy, type, some scopeConfig,
      scopeConfig.property ++ "->" ++ getter ++ "(", some edit⟩ [.leftParen] [] := by
  have hplain : scopeConfig.Plain := services_plain _ (by simp)
  have hclose := lt_close (arguments?_spec hargs).2.1
  have hparen : InertText "(".toList [.leftParen] := .of_brackets? (by decide)
  have hscope : IsSoftText (", " ++ scopeStore).toList ∧ IsSoftText (", " ++ scopeStore ++ ",").toList := by
    simp only [toList_append, IsSoftText.append_iff]
    exact ⟨⟨by decide, scopeStore_soft⟩, ⟨by decide, scopeStore_soft⟩, by decide⟩
  have hcomma : StartsCode (", " ++ scopeStore) := StartsCode.append ⟨by decide, by decide⟩ scopeStore
  have hsoft : IsSoftText (scopeConfig.property ++ "->" ++ getter).toList := by
    rw [toList_append, toList_append, IsSoftText.append_iff, IsSoftText.append_iff]
    exact ⟨⟨property_soft hplain, by decide⟩, hgetter⟩
  refine ⟨?_, (((property_starts scopeConfig).append _).append _).append _, fun e' he => ?_, fun _ => rfl,
    .inr ⟨show args.left + 1 < args.close + 1 by omega, rfl⟩, fun v hv => ?_⟩
  · show InertText (scopeConfig.property ++ "->" ++ getter ++ "(").toList _
    rw [toList_append, ← nil_append [_]]
    exact (InertText.softs hsoft).append hparen
  · cases he
    cases hedit with
    | atClose => exact ⟨.softs hscope.1, hcomma, fun _ => rfl⟩
    | atComma => exact ⟨.softs hscope.2, hcomma.append ",", fun _ => rfl⟩
  · cases hv
    exact hplain

theorem callCode_of_exception {args : Arguments} {method mage : Nat} {pattern : Pattern} {legacy type : String}
    (hargs : arguments? s method = some args) (translated : Bool) :
    ∃ ks ls, CallCode ⟨pattern, ⟨mage, args.close + 1⟩, args.left + 1, legacy, type, none,
      if translated then "throw new " ++ localizedException ++ "("
      else "throw new " ++ localizedException ++ "(" ++ "__(",
      if translated then none else some ⟨.empty args.close, ")"⟩⟩ ks ls := by
  have hlt : args.left + 1 < args.close + 1 := by
    have := lt_close (arguments?_spec hargs).2.1
    omega
  have hthrow : IsSoftText ("throw new " ++ localizedException).toList := by
    rw [toList_append, IsSoftText.append_iff]
    exact ⟨by decide, localizedException_soft⟩
  have hopen : InertText "(".toList [.leftParen] := .of_brackets? (by decide)
  have hcall : InertText "__(".toList [.leftParen] := .of_brackets? (by decide)
  have hclose : InertText ")".toList [.rightParen] := .of_brackets? (by decide)
  have hclosing : StartsCode ")" := ⟨by decide, by decide⟩
  have hraise : InertText ("throw new " ++ localizedException ++ "(").toList [.leftParen] := by
    rw [toList_append]
    exact (InertText.softs hthrow).append hopen
  have htranslate :
      InertText ("throw new " ++ localizedException ++ "(" ++ "__(").toList [.leftParen, .leftParen] := by
    rw [toList_append]
    exact hraise.append hcall
  have hstarts : StartsCode ("throw new " ++ localizedException ++ "(") :=
    StartsCode.append (StartsCode.append ⟨by decide, by decide⟩ localizedException) "("
  cases translated with
  | true =>
    exact ⟨[.leftParen], [], hraise, hstarts, fun e he => (by cases he), fun _ => rfl, .inr ⟨hlt, rfl⟩,
      fun v hv => (by cases hv)⟩
  | false =>
    refine ⟨[.leftParen, .leftParen], [.rightParen], htranslate, hstarts.append _, fun e he => ?_,
      fun hnone => (by cases hnone), .inr ⟨hlt, rfl⟩, fun v hv => (by cases hv)⟩
    cases he
    exact ⟨hclose, hclosing, fun hspan => absurd hspan (Nat.lt_irrefl _)⟩

theorem matchHead?_code {p : Pattern} {method : String} (ht : table.WellFormed)
    (hmeth : p.methods.find? (sameWord · (s.text head.method)) = some method)
    (h : p.matchHead? table s head method = some inv) : ∃ ks ls, CallCode inv ks ls := by
  cases head_recognised h with
  | translation =>
    have htext : InertText "__".toList [] := .of_brackets? (by decide)
    have hstarts : StartsCode "__" := ⟨by decide, by decide⟩
    exact ⟨[], [], htext, hstarts, fun e he => (by cases he), fun _ => rfl, .inl ⟨rfl, rfl⟩, fun v hv => (by cases hv)⟩
  | helper _ resolves =>
    have hclass := AliasTable.resolve?_isClassText ht resolves
    exact ⟨_, _, callCode_of_property _ "" (Collaborator.plain_mk (helperVariableName_isNameText hclass) hclass)
      (.softs (by decide)) rfl (String.append_empty).symm rfl rfl rfl⟩
  | @model _ cls _ _ factory _ _ resolves _ type _ named =>
    subst named type
    have hclass := AliasTable.resolve?_isClassText ht resolves
    cases factory with
    | true =>
      have hfactory : IsClassText (cls ++ "Factory").toList := by
        obtain ⟨path, hpath, htext⟩ := hclass
        exact ⟨path ++ "Factory".toList, by rw [toList_append, hpath]; rfl, htext.append (by decide)⟩
      have hcreate : InertText "->create()".toList [.leftParen, .rightParen] := .of_brackets? (by decide)
      exact ⟨_, _, callCode_of_property _ "->create()"
        (Collaborator.plain_mk (variableName_isNameText hfactory) hfactory) hcreate rfl rfl rfl rfl rfl⟩
    | false =>
      exact ⟨_, _, callCode_of_property _ "" (Collaborator.plain_mk (variableName_isNameText hclass) hclass)
        (.softs (by decide)) rfl (String.append_empty).symm rfl rfl rfl⟩
  | service serves moves =>
    have hall : ∀ x ∈ servicePatterns, IsSoftText ("->" ++ x.2.2).toList
        ∧ x.2.1 ∈ [scopeConfig, eventManager, registry, logger, storeManager] := by decide
    obtain ⟨hsoft, hservice⟩ := hall _ (moves (mem_of_find?_eq_some hmeth))
    exact ⟨_, _, callCode_of_property _ _ (services_plain _ hservice) (.softs hsoft) rfl (String.append_assoc ..) rfl
      rfl rfl⟩
  | storeConfig reads arguments _ scope =>
    have hall : ∀ x ∈ [(Pattern.getStoreConfig, "getValue"), (.getStoreConfigFlag, "isSetFlag")],
      IsSoftText x.2.toList := by
      decide
    exact ⟨_, _, callCode_of_storeConfig arguments (hall _ reads) scope⟩
  | exception translated _ arguments => exact callCode_of_exception arguments translated
  | appStore _ _ _ _ known =>
    have hall : ∀ getter ∈ storeGetters, IsSoftText ("->" ++ getter).toList := by decide
    exact ⟨_, _, callCode_of_property storeManager _ (services_plain _ (by simp))
      (.softs (hall _ (mem_of_find?_eq_some known))) rfl
      (String.append_assoc ..) rfl rfl rfl⟩

theorem matchAt?_code {i : Nat} (ht : table.WellFormed) (h : matchAt? table s i = some inv) :
    ∃ ks ls, CallCode inv ks ls := by
  obtain ⟨head, p, method, -, hmeth, hmatch⟩ := matchAt?_cases h
  exact matchHead?_code ht hmeth hmatch

end

end MageUplift
