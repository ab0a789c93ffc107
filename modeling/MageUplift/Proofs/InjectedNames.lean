import MageUplift.Proofs.CallTokens
import MageUplift.Proofs.QualifiedNames
import Mathlib.Data.List.Flatten

/-!
# Names of injected variables

The property and the parameter that hold a collaborator share its name. A service has a name of its own; the name of any
other object is made from its class, by dropping segments, running the others together and writing the first letter small.
Whatever class an alias table was given, that leaves an identifier: a segment is always left, each of them begins with a
letter, and the small form of a letter begins with one, be it several characters long or a letter of ASCII.
-/

namespace MageUplift

open Php List

variable {c : Char} {cls : String} {v : Collaborator} {tokens : List Token}

/-! ## §1. Names made from a class. -/

namespace Magento

theorem isNameStart_toLower (h : isNameStart c) : isNameStart c.toLower := by
  unfold Char.toLower
  split
  · grind [isNameStart, isAlpha_eq, Char.le_def]
  · exact h

theorem nextIs_lowercaseChar (h : isNameStart c) (cs : List Char) :
    nextIs isNameStart (Text.lowercaseChar c ++ cs) := by
  unfold Text.lowercaseChar
  split
  · exact isNameStart_toLower h
  · split
    · rfl
    · cases hshift : Text.shifted? Text.lowercaseShifts c with
      | none => exact h
      | some d => exact isNameStart_shifted? (by omega) hshift

theorem isIdentifier_lowerCamel {segments : List (List Char)} (hne : segments ≠ [])
    (h : ∀ segment ∈ segments, isIdentifier segment) : isIdentifier (lowerCamel segments).toList := by
  have hnames := isNameText_lowerCamel fun segment hseg => nameText_identifier (h segment hseg)
  refine isIdentifier_iff.mpr ⟨?_, hnames⟩
  cases segments with
  | nil => exact absurd rfl hne
  | cons first rest =>
    have hfst := h first mem_cons_self
    cases first with
    | nil => cases hfst
    | cons c cs =>
      rw [lowerCamel, flatten_cons, cons_append]
      dsimp only
      rw [String.toList_ofList]
      exact nextIs_lowercaseChar (isIdentifier_iff.mp hfst).1 _

theorem classSegments_identifiers (h : isQualifiedClassName cls) :
    classSegments cls ≠ [] ∧ ∀ segment ∈ classSegments cls, isIdentifier segment := by
  unfold isQualifiedClassName at h
  split at h
  · rename_i cs htext
    rw [List.all_eq_true] at h
    have hpcs : ((Text.split '\\' cls.toList).filter fun s => !s.isEmpty) = Text.split '\\' cs := by
      rw [htext, Text.split, if_pos (beq_self_eq_true _), filter_cons_of_neg (by simp), filter_eq_self]
      intro piece hpiece
      cases piece with
      | nil => exact absurd (h [] hpiece) (by decide)
      | cons c cs => rfl
    unfold classSegments
    rw [hpcs]
    split
    · rename_i vendor first rest hsplit
      exact ⟨cons_ne_nil first rest, fun segment hseg => h segment (hsplit ▸ mem_cons_of_mem vendor hseg)⟩
    · exact ⟨Text.split_ne_nil _ cs, h⟩
  · cases h

theorem isIdentifier_variableName (h : isQualifiedClassName cls) : isIdentifier (variableName cls).toList := by
  obtain ⟨hne, hsegments⟩ := classSegments_identifiers h
  unfold variableName
  dsimp only
  split
  · -- every segment is `Model`, and the last one stays
    rw [getLast?_eq_some_getLast hne]
    exact isIdentifier_lowerCamel (cons_ne_nil _ _) (forall_mem_singleton.mpr (hsegments _ (getLast_mem hne)))
  · rename_i hkept
    refine isIdentifier_lowerCamel (fun hnil => hkept (by rw [hnil]; rfl)) fun segment hseg => ?_
    exact hsegments segment (mem_filter.mp hseg).1

theorem isIdentifier_helperVariableName (h : isQualifiedClassName cls) :
    isIdentifier (helperVariableName cls).toList := by
  have hkept : ∀ segment ∈ (classSegments cls).filter (· ≠ "Helper".toList), isIdentifier segment :=
    fun segment hseg => (classSegments_identifiers h).2 segment (mem_filter.mp hseg).1
  unfold helperVariableName
  dsimp only
  refine isIdentifier_lowerCamel (append_ne_nil_of_right_ne_nil _ (cons_ne_nil _ _)) ?_
  rw [forall_mem_append]
  refine ⟨fun segment hseg => ?_, by decide⟩
  split at hseg
  · exact hkept segment ((dropLast_sublist _).subset hseg)
  · exact hkept segment hseg

end Magento

/-! ## §2. Collaborators of recognised calls. -/

namespace Call

open Magento

/-- **How a collaborator is named**: a service has a name of its own, and any other object is named after its class. -/
inductive Collaborator.Named : Collaborator → Prop where
  | service {v : Collaborator} (mem : v ∈ [scopeConfig, eventManager, registry, logger, storeManager]) : Named v
  | object (cls : String) : Named ⟨variableName cls, cls⟩
  | helper (cls : String) : Named ⟨helperVariableName cls, cls⟩

theorem services_isIdentifier : ∀ v ∈ [scopeConfig, eventManager, registry, logger, storeManager],
    isIdentifier v.name.toList := by
  decide

theorem Collaborator.Named.isIdentifier (h : v.Named) (htype : isQualifiedClassName v.type) :
    Php.isIdentifier v.name.toList := by
  cases h with
  | service mem => exact services_isIdentifier v mem
  | object cls => exact isIdentifier_variableName htype
  | helper cls => exact isIdentifier_helperVariableName htype

section

variable {table : AliasTable} {s : TokenStream} {head : Head} {inv : Invocation} {v : Collaborator}

theorem matchHead?_named {p : Pattern} {method : String} (h : p.matchHead? table s head method = some inv)
    (hv : inv.collaborator = some v) : v.Named := by
  cases head_recognised h with
  | translation | exception => cases hv
  | helper =>
    cases hv
    exact .helper _
  | model _ _ _ _ _ named =>
    cases hv
    rw [named]
    exact .object _
  | service serves =>
    cases hv
    have hall : ∀ x ∈ [(Pattern.dispatchEvent, eventManager), (.registry, Call.registry), (.log, logger)],
        x.2 ∈ [scopeConfig, eventManager, registry, logger, storeManager] := by decide
    exact .service (hall _ serves)
  | storeConfig | appStore =>
    cases hv
    exact .service (by simp)

theorem matchAt?_named {i : Nat} (h : matchAt? table s i = some inv) (hv : inv.collaborator = some v) : v.Named := by
  obtain ⟨head, p, method, -, -, hmatch⟩ := matchAt?_cases h
  exact matchHead?_named hmatch hv

end

end Call

/-! ## §3. Names as the lexer reads them. -/

theorem significant_eq_self (hne : ∀ t ∈ tokens, t.text.toList ≠ [])
    (htext : charsOf (significant tokens) = charsOf tokens) : significant tokens = tokens := by
  induction tokens with
  | nil => rfl
  | cons t ts ih =>
    obtain ⟨ht, hts⟩ := forall_mem_cons.mp hne
    rw [significant_cons] at htext ⊢
    split at htext
    · have hle : (charsOf (significant ts)).length ≤ (charsOf ts).length :=
        (filter_sublist.flatMap fun t : Token => t.text.toList).length_le
      have hpos := length_pos_of_ne_nil ht
      have hlen := congrArg List.length htext
      rw [charsOf_cons, length_append] at hlen
      omega
    · rename_i htriv
      rw [charsOf_cons, charsOf_cons] at htext
      rw [if_neg htriv, ih hts (append_cancel_left htext)]

theorem lexFragment_of_codeTokens {code : String} (h : codeTokens none code.toList = tokens)
    (htext : charsOf tokens = code.toList) : lexFragment code = tokens := by
  rw [← h, ← lexFragment_code] at htext ⊢
  exact (significant_eq_self (steps_text_ne_nil .php none 0 code.toList) (htext.trans (chars_fragment code).symm)).symm

theorem lexFragment_variable {name : String} (h : isIdentifier name.toList) :
    lexFragment ("$" ++ name) = [Wiring.variableToken name] := by
  have htext : ("$" ++ name).toList = '$' :: (name.toList ++ []) := by simp [String.toList_append]
  apply lexFragment_of_codeTokens
  · rw [htext, codeTokens_variable h rfl, codeTokens_nil, Wiring.variableToken_eq]
  · rw [charsOf_cons, charsOf_nil, append_nil]
    rfl

namespace Call

open Magento

theorem lexFragment_property_eq (h : isIdentifier v.name.toList) :
    lexFragment v.property = [⟨.variableName, "$this"⟩, ⟨.arrow, "->"⟩, ⟨.identifier, v.name⟩] := by
  apply lexFragment_of_codeTokens
  · have htoks := @codeTokens_property v h "" rfl
    rwa [String.append_empty, String.toList_empty, codeTokens_nil] at htoks
  · simp [Collaborator.property, String.toList_append]

/-- **The name of a collaborator can be used.** When a call is recognised that needs a collaborator, and the class of the
collaborator has a full name, then its name behind a dollar sign is read as one variable, and behind `$this->` as the name
of a property. -/
theorem matchAt?_names_variable {table : AliasTable} {s : TokenStream} {i : Nat} {inv : Invocation} {v : Collaborator}
    (h : matchAt? table s i = some inv) (hv : inv.collaborator = some v) (htype : isQualifiedClassName v.type = true) :
    lexFragment ("$" ++ v.name) = [⟨.variableName, "$" ++ v.name⟩]
      ∧ lexFragment ("$this->" ++ v.name) = [⟨.variableName, "$this"⟩, ⟨.arrow, "->"⟩, ⟨.identifier, v.name⟩] := by
  have hname := (matchAt?_named h hv).isIdentifier htype
  exact ⟨lexFragment_variable hname, lexFragment_property_eq hname⟩

/-- The small form of the first letter has two characters, or is a letter of ASCII, or makes the name a reserved word. -/
def oddClasses : AliasTable :=
  { AliasTable.builtin with
    classes := (aliasKey "v/dotted", "\\V\\\u0130f") :: (aliasKey "v/kelvin", "\\V\\\u212Ag")
      :: (aliasKey "v/reserved", "\\V\\Class") :: AliasTable.builtin.classes }

theorem oddClasses_reachable : oddClasses.Reachable := by
  have hadd : ∀ {t : AliasTable} (key target : String), t.Reachable → isQualifiedClassName target →
      AliasTable.Reachable { t with classes := (aliasKey key, target) :: t.classes } :=
    fun key target ht htarget => .addClass ht (if_pos htarget)
  have hres := hadd "v/reserved" "\\V\\Class" .builtin (by decide)
  have hkelvin := hadd "v/kelvin" "\\V\\\u212Ag" hres (by decide)
  exact hadd "v/dotted" "\\V\\\u0130f" hkelvin (by decide)

def callsOddClasses : TokenStream :=
  .ofSource "<?php Mage::getSingleton('v/dotted');Mage::getSingleton('v/kelvin');Mage::getSingleton('v/reserved');"

/-- The calls, and what each needs. -/
def oddCollaborators : List (Nat × Collaborator) :=
  [(1, ⟨"i\u0307f", "\\V\\\u0130f"⟩), (8, ⟨"kg", "\\V\\\u212Ag"⟩), (15, ⟨"class", "\\V\\Class"⟩)]

theorem matchAt?_names_variable_oddClasses :
    oddClasses.Reachable
      ∧ ∀ p ∈ oddCollaborators, isQualifiedClassName p.2.type = true
        ∧ ∃ inv, matchAt? oddClasses callsOddClasses p.1 = some inv ∧ inv.collaborator = some p.2
          ∧ lexFragment ("$" ++ p.2.name) = [⟨.variableName, "$" ++ p.2.name⟩]
          ∧ lexFragment ("$this->" ++ p.2.name)
            = [⟨.variableName, "$this"⟩, ⟨.arrow, "->"⟩, ⟨.identifier, p.2.name⟩] := by
  have hcalls : ∀ p ∈ oddCollaborators, isQualifiedClassName p.2.type
      ∧ (matchAt? oddClasses callsOddClasses p.1).bind (·.collaborator) = some p.2 := by
    rw [show callsOddClasses = .ofTokens _ from ofSource_ofList _]
    decide +kernel
  refine ⟨oddClasses_reachable, fun p hp => ?_⟩
  obtain ⟨htype, hcall⟩ := hcalls p hp
  obtain ⟨inv, hinv, hv⟩ := Option.bind_eq_some_iff.mp hcall
  exact ⟨htype, inv, hinv, hv, matchAt?_names_variable hinv hv htype⟩

end Call

end MageUplift
