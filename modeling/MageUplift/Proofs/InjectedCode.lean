import MageUplift.Proofs.CallCode
import MageUplift.Proofs.InjectionPoints

/-!
# The code of the injector

Properties, constructors, parameters and assignments are inert text as well. Parameters and assignments are
soft, a new property is soft but for its doc comment, and a new constructor is balanced in itself. All of
it goes to places where code is read and not markup.
-/

namespace MageUplift

open Php TokenStream Call Wiring List
open String (toList_append)

variable {cs : List Char} {s : TokenStream} {indent : String} {v : Collaborator} {vs new : List Collaborator}
  {list : ParameterList} {m : Members}
variable {c : Constructor} {i : Nat} {inner : String} {r : Requirements}

/-! ## §1. Indentation and comments. -/

def IsIndentText (cs : List Char) : Prop := ∀ x ∈ cs, isIndent x = true

instance (cs : List Char) : Decidable (IsIndentText cs) := inferInstanceAs (Decidable (∀ x ∈ cs, _))

theorem IsIndentText.append {a b : List Char} (ha : IsIndentText a) (hb : IsIndentText b) :
    IsIndentText (a ++ b) := by
  intro x hx
  rcases mem_append.mp hx with hx | hx
  · exact ha x hx
  · exact hb x hx

theorem IsIndentText.blank (h : IsIndentText cs) : ∀ x ∈ cs, isBlank x := by
  intro x hx
  have := h x hx
  rw [isIndent, Bool.or_eq_true, beq_iff_eq, beq_iff_eq] at this
  rcases this with rfl | rfl <;> decide

theorem IsIndentText.newline (h : IsIndentText cs) : ∀ x ∈ '\n' :: cs, isBlank x := by
  intro x hx
  rcases mem_cons.mp hx with rfl | hx
  · decide
  · exact h.blank x hx

theorem lineIndent_text (s : TokenStream) (i : Nat) : IsIndentText (lineIndent s i).toList := by
  unfold lineIndent
  rw [String.toList_ofList]
  exact fun x hx => List.all_eq_true.mp all_takeWhile x hx

theorem classBody_deeper {cls : ClassBody} (hcls : classBody s = .ok cls)
    (hindent : IsIndentText indent.toList) : IsIndentText (cls.indent ++ indent).toList := by
  obtain ⟨line, hline⟩ := classBody_indented hcls
  rw [toList_append, hline]
  exact (lineIndent_text s line).append hindent

theorem Wiring.Constructor.WellBracketed.isIndentText (h : c.WellBracketed s) : IsIndentText c.indent.toList := by
  obtain ⟨line, hline⟩ := h.indented
  exact hline ▸ lineIndent_text s line

/-- Blanks, names, and the punctuation that is written outside brackets and comments. -/
def isWritten (c : Char) : Bool :=
  isBlank c || isNamePart c || ['\\', '$', '*', '@', '-', '>', '=', ';', ','].contains c

def IsWritten (cs : List Char) : Prop := ∀ x ∈ cs, isWritten x = true

instance (cs : List Char) : Decidable (IsWritten cs) := inferInstanceAs (Decidable (∀ x ∈ cs, _))

namespace IsWritten

theorem append_iff {a b : List Char} : IsWritten (a ++ b) ↔ IsWritten a ∧ IsWritten b := forall_mem_append

theorem of_blanks (h : ∀ x ∈ cs, isBlank x) : IsWritten cs := fun x hx => by simp [isWritten, h x hx]

theorem of_name (h : IsNameText cs) : IsWritten cs := fun x hx => by simp [isWritten, h x hx]

theorem of_class (h : IsClassText cs) : IsWritten cs := by
  obtain ⟨path, rfl, hpath⟩ := h
  refine forall_mem_cons.mpr ⟨by decide, fun x hx => ?_⟩
  rcases hpath x hx with hx | rfl
  · simp [isWritten, hx]
  · decide

theorem soft (h : IsWritten cs) : IsSoftText cs := by
  have hall : ∀ x ∈ ['\\', '$', '*', '@', '-', '>', '=', ';', ','], isSoft x := by decide
  intro x hx
  have := h x hx
  rw [isWritten, Bool.or_eq_true, Bool.or_eq_true, contains_iff_mem] at this
  exact this.elim (·.elim isSoft_of_isBlank isSoft_namePart) (hall x)

theorem not_mem {x : Char} (h : IsWritten cs) (hx : isWritten x = false) : x ∉ cs := fun hmem => by
  rw [h x hmem] at hx
  cases hx

end IsWritten

section

variable {P : Char → Prop} {Q : String → Prop} {α : Type} {l : List α} {f : α → String} {sep : String}
    {texts : List String}

theorem forall_mem_join (h : ∀ a ∈ l, ∀ x ∈ (f a).toList, P x) : ∀ x ∈ (String.join (l.map f)).toList, P x := by
  rw [String.toList_join]
  intro x hx
  obtain ⟨text, htext, hx⟩ := mem_flatMap.mp hx
  obtain ⟨a, ha, rfl⟩ := List.mem_map.mp htext
  exact h a ha x hx

theorem forall_mem_intercalate (hsep : ∀ x ∈ sep.toList, P x) (h : ∀ text ∈ texts, ∀ x ∈ text.toList, P x) :
    ∀ x ∈ (sep.intercalate texts).toList, P x := by
  induction texts with
  | nil => exact nofun
  | cons a texts ih =>
    have ha := h a mem_cons_self
    cases texts with
    | nil => rwa [String.intercalate_singleton]
    | cons b texts =>
      rw [String.intercalate_cons_cons, toList_append, toList_append]
      exact forall_mem_append.mpr ⟨forall_mem_append.mpr ⟨ha, hsep⟩, ih (forall_mem_cons.mp h).2⟩

theorem join_starts (happ : ∀ a b, Q a → Q (a ++ b)) (hne : l ≠ []) (h : ∀ x ∈ l, Q (f x)) :
    Q (String.join (l.map f)) := by
  obtain ⟨x, l, rfl⟩ := exists_cons_of_ne_nil hne
  rw [map_cons, String.join_cons]
  exact happ _ _ (h x mem_cons_self)

theorem intercalate_starts (happ : ∀ a b, Q a → Q (a ++ b)) (hne : texts ≠ []) (h : ∀ text ∈ texts, Q text) :
    Q (sep.intercalate texts) := by
  obtain ⟨x, texts, rfl⟩ := exists_cons_of_ne_nil hne
  have hx := h x mem_cons_self
  cases texts with
  | nil => rwa [String.intercalate_singleton]
  | cons y texts =>
    rw [String.intercalate_cons_cons]
    exact happ _ _ (happ _ _ hx)

end

/-! ## §2. Properties, parameters, assignments and constructors. -/

theorem parameterCode_written (h : v.Plain) : IsWritten (parameterCode v).toList := by
  unfold parameterCode
  rw [toList_append, toList_append, IsWritten.append_iff, IsWritten.append_iff]
  exact ⟨⟨.of_class h.type, by decide⟩, .of_name h.name⟩

theorem parameterCode_starts (h : v.Plain) : StartsCode (parameterCode v) := by
  obtain ⟨path, htype, -⟩ := h.type
  unfold parameterCode
  refine StartsCode.append (StartsCode.append ⟨?_, ?_⟩ _) _
  · rw [htype]
    simp
  · rw [htype]
    rfl

theorem assignmentCode_written (h : v.Plain) : IsWritten (assignmentCode v).toList := by
  unfold assignmentCode
  simp only [toList_append, IsWritten.append_iff, IsWritten.of_name h.name, and_true]
  decide

def propertyDoc (indent : String) (v : Collaborator) : String :=
  "*\n" ++ indent ++ " * @var " ++ v.type ++ "\n" ++ indent ++ " "

def constructorDoc (indent : String) (vs : List Collaborator) : String :=
  "*\n" ++ String.join (vs.map fun v => indent ++ " * @param " ++ parameterCode v ++ "\n") ++ indent ++ " "

section

variable (hindent : IsIndentText indent.toList)

include hindent

theorem propertyDoc_written (hv : v.Plain) : IsWritten (propertyDoc indent v).toList := by
  simp only [propertyDoc, toList_append, IsWritten.append_iff, IsWritten.of_blanks hindent.blank,
    IsWritten.of_class hv.type, and_true]
  decide

theorem constructorDoc_written (hvs : ∀ v ∈ vs, v.Plain) : IsWritten (constructorDoc indent vs).toList := by
  have hblanks := IsWritten.of_blanks hindent.blank
  simp only [constructorDoc, toList_append, IsWritten.append_iff]
  refine ⟨⟨⟨by decide, forall_mem_join fun v hv => ?_⟩, hblanks⟩, by decide⟩
  simp only [toList_append]
  exact IsWritten.append_iff.mpr ⟨IsWritten.append_iff.mpr ⟨IsWritten.append_iff.mpr ⟨hblanks, by decide⟩,
    parameterCode_written (hvs v hv)⟩, by decide⟩

theorem parameterLines_written (hinner : IsIndentText inner.toList) (hvs : ∀ v ∈ vs, v.Plain) :
    IsWritten (['\n'] ++ (",\n".intercalate (vs.map fun v => inner ++ parameterCode v)).toList
      ++ ('\n' :: indent.toList)) := by
  rw [IsWritten.append_iff, IsWritten.append_iff]
  refine ⟨⟨by decide, forall_mem_intercalate (by decide) fun code hcode => ?_⟩, .of_blanks hindent.newline⟩
  obtain ⟨v, hv, rfl⟩ := List.mem_map.mp hcode
  rw [toList_append]
  exact IsWritten.append_iff.mpr ⟨.of_blanks hinner.blank, parameterCode_written (hvs v hv)⟩

theorem assignmentLines_written (hinner : IsIndentText inner.toList) (hvs : ∀ v ∈ vs, v.Plain) :
    IsWritten ([] ++ (String.join (vs.map fun v => inner ++ assignmentCode v ++ "\n")).toList ++ indent.toList) := by
  rw [IsWritten.append_iff, IsWritten.append_iff]
  refine ⟨⟨nofun, forall_mem_join fun v hv => ?_⟩, .of_blanks hindent.blank⟩
  rw [toList_append, toList_append]
  exact IsWritten.append_iff.mpr ⟨IsWritten.append_iff.mpr ⟨.of_blanks hinner.blank, assignmentCode_written (hvs v hv)⟩,
    by decide⟩

end

theorem toList_propertyCode (indent : String) (v : Collaborator) : (propertyCode indent v).toList
    = ('\n' :: indent.toList) ++ (('/' :: '*' :: ((propertyDoc indent v).toList ++ ['*', '/']))
      ++ (('\n' :: (indent.toList ++ ("protected".toList ++ ' ' :: ('$' :: v.name.toList)))) ++ ([';'] ++ ['\n']))) := by
  unfold propertyCode propertyDoc
  simp [toList_append]

theorem toList_constructorCode (indent inner : String) (vs : List Collaborator) :
    (constructorCode indent inner vs).toList = ('\n' :: indent.toList)
      ++ ('/' :: '*' :: ((constructorDoc indent vs).toList ++ ['*', '/']))
      ++ ('\n' :: (indent.toList ++ "public function __construct(".toList))
      ++ (['\n'] ++ (",\n".intercalate (vs.map fun v => inner ++ parameterCode v)).toList ++ ('\n' :: indent.toList))
      ++ ([')'] ++ ([' '] ++ ['\x7b'] ++ ['\n']))
      ++ ([] ++ (String.join (vs.map fun v => inner ++ assignmentCode v ++ "\n")).toList ++ indent.toList)
      ++ (['\x7d'] ++ ['\n']) := by
  unfold constructorCode constructorDoc
  generalize String.join (vs.map fun v => indent ++ " * @param " ++ parameterCode v ++ "\n") = tags,
    ",\n".intercalate _ = parameters, String.join _ = assignments
  simp [toList_append]

theorem propertyCode_inert (hindent : IsIndentText indent.toList)
    (hv : v.Plain) : InertText (propertyCode indent v).toList [] := by
  have hafter : IsWritten ('\n' :: (indent.toList ++ ("protected".toList ++ ' ' :: ('$' :: v.name.toList)))) := by
    simp only [IsWritten, forall_mem_cons, forall_mem_append]
    exact ⟨by decide, IsWritten.of_blanks hindent.blank, by decide, by decide, by decide, IsWritten.of_name hv.name⟩
  have hdoc := (propertyDoc_written hindent hv).not_mem (show isWritten '/' = false by decide)
  rw [toList_propertyCode]
  exact (InertText.softs (IsWritten.of_blanks hindent.newline).soft).append ((InertText.block hdoc).append
    ((InertText.softs hafter.soft).append (.softs (by decide))))

theorem constructorCode_inert
    (hindent : IsIndentText indent.toList) (hinner : IsIndentText inner.toList) (hvs : ∀ v ∈ vs, v.Plain) :
    InertText (constructorCode indent inner vs).toList [.leftParen, .rightParen, .leftBrace, .rightBrace] := by
  have hname : InertText ('\n' :: (indent.toList ++ "public function __construct(".toList)) [.leftParen] :=
    (InertText.softs (IsWritten.of_blanks hindent.newline).soft).append (.of_brackets? (by decide))
  have hlist := (parameterLines_written hindent hinner hvs).soft
  have hbody := (assignmentLines_written hindent hinner hvs).soft
  have hdoc := (constructorDoc_written hindent hvs).not_mem (show isWritten '/' = false by decide)
  have hmid : InertText ([')'] ++ ([' '] ++ ['\x7b'] ++ ['\n'])) [.rightParen, .leftBrace] := .of_brackets? (by decide)
  have hend : InertText (['\x7d'] ++ ['\n']) [.rightBrace] := .of_brackets? (by decide)
  rw [toList_constructorCode]
  exact ((((((InertText.softs (IsWritten.of_blanks hindent.newline).soft).append (.block hdoc)).append hname).append
    (.softs hlist)).append
    hmid).append (.softs hbody)).append hend

theorem assignmentCode_starts (v : Collaborator) : StartsCode (assignmentCode v) := by
  unfold assignmentCode
  repeat' apply StartsCode.append
  exact ⟨by decide, by decide⟩

theorem propertyCode_starts (indent : String) (v : Collaborator) : StartsCode (propertyCode indent v) :=
  ⟨by rw [toList_propertyCode]; exact cons_ne_nil _ _, by rw [toList_propertyCode]; rfl⟩

theorem constructorCode_starts (indent inner : String) (vs : List Collaborator) :
    StartsCode (constructorCode indent inner vs) :=
  ⟨by rw [toList_constructorCode]; exact cons_ne_nil _ _, by rw [toList_constructorCode]; rfl⟩

theorem StartsCode.blanks {a b : String} (ha : ∀ x ∈ a.toList, isBlank x) (h : StartsCode b) : StartsCode (a ++ b) := by
  have hjoiners : ∀ x ∈ joiners, isBlank x = false := by decide
  cases htext : a.toList with
  | nil => rwa [String.toList_eq_nil_iff.mp htext, String.empty_append]
  | cons x cs =>
    rw [htext] at ha
    refine StartsCode.append ⟨by simp [htext], ?_⟩ b
    have hx : x ∉ joiners := fun hmem => by
      have hblank := hjoiners x hmem
      rw [ha x mem_cons_self] at hblank
      cases hblank
    simpa [htext, startsFree, nextIs] using hx

/-! ## §3. The code of an insertion. -/

/-- Where new parameters go, and what their code is, up to blanks. -/
inductive ParametersAt (c : Constructor) (list : ParameterList) (new : List String) : Nat × String → Prop where
  /-- In front of the first parameter that is optional or variadic. -/
  | before {p : Parameter} {gap : String}
      (here : (list.parameters.find? fun p => p.facts.optional || p.facts.variadic) = some p)
      (blank : ∀ x ∈ gap.toList, isBlank x = true) :
      ParametersAt c list new (p.first, String.join (new.map fun code => code ++ ("," ++ gap)))
  /-- Behind the comma that ends the list. -/
  | behindComma {last : Parameter} {comma : Nat} {gap : String}
      (required : (list.parameters.find? fun p => p.facts.optional || p.facts.variadic) = none)
      (ends : list.parameters.getLast? = some last) (trailing : list.trailingComma = some comma)
      (blank : ∀ x ∈ gap.toList, isBlank x = true) :
      ParametersAt c list new (comma + 1, String.join (new.map fun code => gap ++ (code ++ ",")))
  /-- Behind the last parameter. -/
  | behindLast {last : Parameter} {gap : String}
      (required : (list.parameters.find? fun p => p.facts.optional || p.facts.variadic) = none)
      (ends : list.parameters.getLast? = some last) (trailing : list.trailingComma = none)
      (blank : ∀ x ∈ gap.toList, isBlank x = true) :
      ParametersAt c list new (last.last + 1, String.join (new.map fun code => "," ++ (gap ++ code)))
  /-- Between the parentheses. -/
  | alone {lead gap : String} (required : (list.parameters.find? fun p => p.facts.optional || p.facts.variadic) = none)
      (empty : list.parameters.getLast? = none) (leads : ∀ x ∈ lead.toList, isBlank x = true)
      (blank : ∀ x ∈ gap.toList, isBlank x = true) :
      ParametersAt c list new (c.left + 1, lead ++ ("," ++ gap).intercalate new)

/-- Where new assignments go, and what their code is, up to blanks. -/
inductive AssignmentsAt (s : TokenStream) (c : Constructor) (new : List Collaborator) : Nat × String → Prop where
  | beforeParent {call : Nat} {gap : String} (here : parentCall? s c = some call)
      (blank : ∀ x ∈ gap.toList, isBlank x = true) :
      AssignmentsAt s c new (call, String.join (new.map fun v => assignmentCode v ++ gap))
  | atEnd {gap tail : String} (noCall : parentCall? s c = none) (blank : ∀ x ∈ ("\n" ++ gap).toList, isBlank x = true)
      (ends : ∀ x ∈ tail.toList, isBlank x = true) :
      AssignmentsAt s c new (trailingBlankStart s c.bodyLeft c.bodyRight,
        String.join (new.map fun v => "\n" ++ gap ++ assignmentCode v) ++ tail)

section

variable {c : Constructor} {spot : Nat × String}

theorem parameter_spec (hindent : IsIndentText indent.toList) (hc : IsIndentText c.indent.toList)
    (list : ParameterList) (new : List String) : ParametersAt c list new (parameterInsertion s indent c list new) := by
  unfold parameterInsertion
  extract_lets deeper
  have hdeeper : IsIndentText deeper.toList := by
    dsimp only [deeper]
    split
    · exact lineIndent_text s _
    · rw [toList_append]
      exact hc.append hindent
  clear_value deeper
  have hlines : ∀ x ∈ ("\n" ++ deeper).toList, isBlank x := by
    rw [toList_append]
    exact hdeeper.newline
  have hline : ∀ x ∈ " ".toList, isBlank x := by decide
  have hcommas : ",\n" ++ deeper = "," ++ ("\n" ++ deeper) := by rw [← String.append_assoc]; rfl
  cases hfind : list.parameters.find? fun p => p.facts.optional || p.facts.variadic with
  | some p =>
    cases list.multiline
    · exact .before hfind hline
    · simp only [String.append_assoc, hcommas, if_true]
      exact .before hfind hlines
  | none =>
    cases hlast : list.parameters.getLast? with
    | none =>
      cases list.multiline
      · exact .alone hfind hlast (show ∀ x ∈ "".toList, _ by decide) hline
      · simp only [hcommas, if_true]
        exact .alone hfind hlast hlines hlines
    | some last =>
      cases htrail : list.trailingComma with
      | some comma =>
        cases list.multiline
        · exact .behindComma hfind hlast htrail hline
        · simp only [String.append_assoc, if_true]
          simpa only [String.append_assoc] using ParametersAt.behindComma hfind hlast htrail hlines
      | none =>
        cases list.multiline
        · exact .behindLast hfind hlast htrail hline
        · simp only [hcommas, String.append_assoc, if_true]
          simpa only [String.append_assoc] using ParametersAt.behindLast hfind hlast htrail hlines

theorem assignment_spec (hindent : IsIndentText indent.toList) (hc : IsIndentText c.indent.toList)
    (new : List Collaborator) : AssignmentsAt s c new (assignmentInsertion s indent c new) := by
  unfold assignmentInsertion
  extract_lets deeper code
  have hdeeper : IsIndentText deeper.toList := by
    dsimp only [deeper]
    split
    · exact lineIndent_text s _
    · rw [toList_append]
      exact hc.append hindent
  have hlines : ∀ {text : String}, IsIndentText text.toList → ∀ x ∈ ("\n" ++ text).toList, isBlank x := by
    intro text htext
    rw [toList_append]
    exact htext.newline
  cases hcall : parentCall? s c with
  | some call =>
    simp only [String.append_assoc]
    exact .beforeParent hcall (hlines hdeeper)
  | none =>
    dsimp only
    split
    · rw [String.append_assoc]
      exact .atEnd hcall (hlines hdeeper) (hlines hc)
    · rw [← @String.append_empty code]
      exact .atEnd hcall (hlines hdeeper) (by decide)

variable {Q : String → Prop}

theorem ParametersAt.written {new : List String} (h : ParametersAt c list new spot)
    (hnew : ∀ code ∈ new, IsWritten code.toList) : IsWritten spot.2.toList := by
  have hmark : IsWritten ",".toList := by decide
  cases h with
  | before here blank =>
    refine forall_mem_join fun code hcode => ?_
    simp only [toList_append, forall_mem_append]
    exact ⟨hnew code hcode, hmark, IsWritten.of_blanks blank⟩
  | behindComma required ends trailing blank =>
    refine forall_mem_join fun code hcode => ?_
    simp only [toList_append, forall_mem_append]
    exact ⟨IsWritten.of_blanks blank, hnew code hcode, hmark⟩
  | behindLast required ends trailing blank =>
    refine forall_mem_join fun code hcode => ?_
    simp only [toList_append, forall_mem_append]
    exact ⟨hmark, IsWritten.of_blanks blank, hnew code hcode⟩
  | alone required empty leads blank =>
    rw [toList_append]
    refine IsWritten.append_iff.mpr ⟨.of_blanks leads, forall_mem_intercalate ?_ hnew⟩
    rw [toList_append]
    exact IsWritten.append_iff.mpr ⟨hmark, .of_blanks blank⟩

theorem ParametersAt.starts {new : List String} (h : ParametersAt c list new spot)
    (happ : ∀ a b, Q a → Q (a ++ b)) (hblank : ∀ a b, (∀ x ∈ a.toList, isBlank x) → Q b → Q (a ++ b)) (hcomma : Q ",")
    (hne : new ≠ []) (hnew : ∀ code ∈ new, Q code) : Q spot.2 := by
  cases h with
  | before here blank => exact join_starts happ hne fun code hcode => happ _ _ (hnew code hcode)
  | behindComma required ends trailing blank =>
    exact join_starts happ hne fun code hcode => hblank _ _ blank (happ _ _ (hnew code hcode))
  | behindLast => exact join_starts happ hne fun _ _ => happ _ _ hcomma
  | alone required empty leads blank => exact hblank _ _ leads (intercalate_starts happ hne hnew)

theorem AssignmentsAt.written (h : AssignmentsAt s c new spot) (hnew : ∀ v ∈ new, v.Plain) :
    IsWritten spot.2.toList := by
  cases h with
  | beforeParent here blank =>
    refine forall_mem_join fun v hv => ?_
    rw [toList_append]
    exact IsWritten.append_iff.mpr ⟨assignmentCode_written (hnew v hv), .of_blanks blank⟩
  | atEnd noCall blank ends =>
    rw [toList_append]
    refine IsWritten.append_iff.mpr ⟨forall_mem_join fun v hv => ?_, .of_blanks ends⟩
    rw [toList_append]
    exact IsWritten.append_iff.mpr ⟨.of_blanks blank, assignmentCode_written (hnew v hv)⟩

theorem AssignmentsAt.starts (h : AssignmentsAt s c new spot) (happ : ∀ a b, Q a → Q (a ++ b))
    (hblank : ∀ a b, (∀ x ∈ a.toList, isBlank x) → Q b → Q (a ++ b)) (hne : new ≠ [])
    (hnew : ∀ v, Q (assignmentCode v)) : Q spot.2 := by
  cases h with
  | beforeParent => exact join_starts happ hne fun v _ => happ _ _ (hnew v)
  | atEnd noCall blank => exact happ _ _ (join_starts happ hne fun v _ => hblank _ _ blank (hnew v))

end

/-! ## §4. The places of insertions. -/

/-- Behind the token in front of `p`, code is read. -/
def CodeBefore (s : TokenStream) (p : Nat) : Prop := ∃ q k, p = q + 1 ∧ s.kind? q = some k ∧ k.nextMode = .php

def CodeAt (s : TokenStream) (p : Nat) : Prop := ∃ k, s.kind? p = some k ∧ k.mode = .php

theorem mode_of_isTrivia {k : Kind} (h : k.isTrivia) : k.mode = .php ∧ k.nextMode = .php := by
  cases k <;> first | exact ⟨rfl, rfl⟩ | cases h

theorem prev_spec {j : Nat} (h : s.prevSignificant? i = some j) :
    ∀ m, j < m → m < i → m < s.size → ∃ t, s.get? m = some t ∧ t.isTrivia := by
  have key : ∀ n, s.findBefore? (!·.isTrivia) n = some j → n ≤ s.size →
      ∀ m, j < m → m < n → ∃ t, s.get? m = some t ∧ t.isTrivia := by
    intro n
    induction n with
    | zero =>
      intro h
      cases h
    | succ n ih =>
      intro h hn m hjm hmn
      rw [findBefore?] at h
      split at h
      · cases h
        omega
      · rename_i hnot
        by_cases hm : m = n
        · subst hm
          have hget : s.get? m = some s.tokens[m] := Array.getElem?_eq_getElem hn
          rw [hget] at hnot
          exact ⟨_, hget, by simpa using hnot⟩
        · exact ih h (by omega) m hjm (by omega)
  intro m hjm hmi hms
  exact key _ h (Nat.min_le_right _ _) m hjm (by omega)

theorem parameter?_places {start stop : Nat} {p : Parameter}
    (h : parameter? s start stop = some p) (hstart : CodeBefore s start) (hstop : CodeAt s stop) :
    CodeBefore s p.first ∧ CodeAt s (p.last + 1) := by
  obtain ⟨hfst, hlast, -⟩ := parameter?_spec h
  constructor
  · -- in front of the first token stands trivia, or what was before the parameter
    obtain ⟨hle, -, hbef⟩ := next_spec hfst
    by_cases heq : start = p.first
    · exact heq ▸ hstart
    · obtain ⟨t, ht, htriv⟩ := hbef (p.first - 1) (by omega) (by omega)
      exact ⟨p.first - 1, t.kind, by omega, kind?_get? ht, (mode_of_isTrivia htriv).2⟩
  · have hlt := (parameter?_bounds h).2.2
    by_cases heq : p.last + 1 = stop
    · exact heq ▸ hstop
    · obtain ⟨k, hk, -⟩ := hstop
      have hsize := lt_kind? hk
      obtain ⟨t, ht, htriv⟩ := prev_spec hlast (p.last + 1) (by omega) (by omega) (by omega)
      exact ⟨t.kind, kind?_get? ht, (mode_of_isTrivia htriv).1⟩

theorem Wiring.IsItem.places {start right a b : Nat} (h : IsItem s start right a b) (hstart : CodeBefore s start)
    (hright : CodeAt s right) : CodeBefore s a ∧ CodeAt s b := by
  constructor
  · obtain rfl | ⟨comma, rfl, -, hk, -⟩ := h.begins
    · exact hstart
    · exact ⟨comma, _, rfl, hk, rfl⟩
  · obtain rfl | ⟨-, hk⟩ := h.ends
    · exact hright
    · exact ⟨_, hk, rfl⟩

theorem close_code {c : Nat} (h : s.matchingClose? i = some c) : CodeBefore s (i + 1) ∧ CodeAt s c := by
  obtain ⟨k, hopen, hclose⟩ := opener_close h
  obtain ⟨opener, hi, hopener⟩ := Option.bind_eq_some_iff.mp hopen
  have hmode : opener.nextMode = .php ∧ k.mode = .php := by
    cases opener <;> first | (cases hopener; exact ⟨rfl, rfl⟩) | cases hopener
  exact ⟨⟨i, opener, rfl, hi, hmode.1⟩, ⟨k, hclose, hmode.2⟩⟩

theorem parameterInsertion_place (hc : c.WellBracketed s) (indent : String)
    (new : List String) : CodeBefore s (parameterInsertion s indent c (parameterList s c) new).1
      ∨ CodeAt s (parameterInsertion s indent c (parameterList s c) new).1 := by
  obtain ⟨hleft, hright⟩ := close_code hc.parameters
  have hlisted := parameterList_listed hc.parameters
  have hparams : ∀ p ∈ (parameterList s c).parameters, CodeBefore s p.first ∧ CodeAt s (p.last + 1) := by
    intro p hp
    obtain ⟨a, b, hitem, hp⟩ := hlisted.of_mem hp
    exact parameter?_places hp (hitem.places hleft hright).1 (hitem.places hleft hright).2
  unfold parameterInsertion
  dsimp only
  split
  · rename_i boundary hbound
    exact .inl (hparams boundary (mem_of_find?_eq_some hbound)).1
  · split
    · rename_i comma _ htrail
      have hitem := ((htrail ▸ hlisted).behind_trailing (Nat.lt_succ_self _)).2.2.1
      exact .inl (hitem.places hleft hright).1
    · rename_i last hlast _
      exact .inr (hparams last (mem_of_getLast? hlast)).2
    · exact .inl hleft

theorem codeAt_of_isParentCall (h : isParentCall s i) : CodeAt s i := by
  obtain ⟨t, ht, hword, -⟩ := isWord_parentCall h
  rw [Token.isWord, Bool.and_eq_true] at hword
  refine ⟨t.kind, kind?_get? ht, ?_⟩
  cases hkind : t.kind <;> first | rfl | (rw [hkind] at hword; cases hword.1)

theorem trailingBlankStart_place {left : Nat} : ∀ {i : Nat}, CodeAt s i →
    CodeAt s (trailingBlankStart s left i)
  | 0, hi => hi
  | i + 1, hi => by
    rw [trailingBlankStart]
    split
    · rename_i hblank
      rw [Bool.and_eq_true, hasKind, beq_iff_eq] at hblank
      exact trailingBlankStart_place ⟨_, hblank.2, rfl⟩
    · exact hi

theorem assignmentInsertion_place (hc : c.WellBracketed s) (indent : String)
    (new : List Collaborator) : CodeAt s (assignmentInsertion s indent c new).1 := by
  unfold assignmentInsertion
  dsimp only
  split
  · rename_i call hcall
    exact codeAt_of_isParentCall (parentCall_spec hcall).2.2
  · exact trailingBlankStart_place (close_code hc.body).2

/-! ## §5. The injector. -/

/-- Code that may go in front of position `p`. It is balanced in itself and meets code on its right. Where
it is not soft, a bracket stands on its left. -/
structure InsertableAt (s : TokenStream) (p : Nat) (code : String) : Prop where
  lt : p < s.size
  place : CodeBefore s p ∨ CodeAt s p
  starts : StartsCode code
  inert : ∃ ks, InertText code.toList ks ∧ Balanced ks
  soft : IsSoftText code.toList ∨ ∃ q k, p = q + 1 ∧ (s.kind? q).bind Kind.closer? = some k

theorem InsertableAt.ofSoft {p : Nat} {code : String} (hlt : p < s.size)
    (hplace : CodeBefore s p ∨ CodeAt s p) (hsoft : IsSoftText code.toList) (hstarts : StartsCode code) :
    InsertableAt s p code :=
  ⟨hlt, hplace, hstarts, ⟨[], InertText.softs hsoft, balanced_nil⟩, .inl hsoft⟩

theorem missing_inert {m : Members} {r : Requirements}
    (hindent : IsIndentText indent.toList) (hr : ∀ v ∈ r.entries, v.Plain) :
    InertText (missingProperties s indent m r).toList [] := by
  have hplain : ∀ v ∈ undeclared s m r, v.Plain := fun v hv => hr v (mem_filter.mp hv).1
  unfold missingProperties
  generalize undeclared s m r = vs at hplain
  induction vs with
  | nil => exact .nil
  | cons v vs ih =>
    rw [map_cons, String.join_cons, toList_append]
    exact (propertyCode_inert hindent (hplain v mem_cons_self)).append
      (ih (forall_mem_cons.mp hplain).2)

theorem missingProperties_starts (hne : undeclared s m r ≠ []) : StartsCode (missingProperties s indent m r) :=
  join_starts (fun _ b h => h.append b) hne fun v _ => propertyCode_starts indent v

theorem missingProperties_of_nil (hnil : undeclared s m r = []) : missingProperties s indent m r = "" := by
  rw [missingProperties, hnil]
  rfl

/-- **What the injector inserts is balanced code, at places where code is read.** -/
theorem inject_code {edits : List (Edit Token)}
    (hindent : IsIndentText indent.toList) (hr : ∀ v ∈ r.entries, v.Plain) (h : inject s indent r = .ok edits) :
    ∀ e ∈ edits, ∃ p code, e = .insert p (lexFragment code) ∧ InsertableAt s p code := by
  intro e he
  -- what goes to the top of the class stands behind the brace
  have htop : ∀ {cls : ClassBody} {code : String} {ks : List Kind}, classBody s = .ok cls → StartsCode code →
      InertText code.toList ks → Balanced ks → InsertableAt s (cls.left + 1) code := by
    intro cls code ks hcls hstarts hinert hbal
    have hright := classBody_spec hcls
    have hbounds := lt_close hright
    obtain ⟨k, hopen, -⟩ := opener_close hright
    exact ⟨by omega, .inl (close_code hright).1, hstarts, ⟨ks, hinert, hbal⟩, .inr ⟨_, k, rfl, hopen⟩⟩
  cases injectedEdit_of_mem h he with
  | @constructor cls m hcls hm =>
    have hdeeper := classBody_deeper hcls hindent
    have hinner : IsIndentText (cls.indent ++ indent ++ indent).toList := by
      rw [toList_append]
      exact hdeeper.append hindent
    have hinert := (@missing_inert s _ m r hdeeper hr).append (constructorCode_inert hdeeper hinner hr)
    rw [← toList_append] at hinert
    refine ⟨_, _, rfl, htop hcls ?_ hinert (by decide)⟩
    by_cases hnone : undeclared s m r = []
    · rw [missingProperties_of_nil hnone, String.empty_append]
      exact constructorCode_starts _ _ _
    · exact (missingProperties_starts hnone).append _
  | properties hcls hm hne =>
    exact ⟨_, _, rfl, htop hcls (missingProperties_starts hne) (missing_inert (classBody_deeper hcls hindent) hr)
      balanced_nil⟩
  | @parameters cls m c hcls hm hc new hnew hne spot hspot =>
    have hbrs := members_ctor hm hc
    have hplain : ∀ code ∈ new.map parameterCode, IsWritten code.toList ∧ StartsCode code := by
      intro code hcode
      obtain ⟨v, hv, rfl⟩ := List.mem_map.mp hcode
      have hplain := hr v (mem_filter.mp (hnew ▸ hv)).1
      exact ⟨parameterCode_written hplain, parameterCode_starts hplain⟩
    have hcode := hspot ▸ @parameter_spec s _ _ hindent hbrs.isIndentText (parameterList s c) (new.map parameterCode)
    have hle := hspot ▸ parameterSpot_bounds hbrs indent (new.map parameterCode)
    have hlt := lt_close hbrs.parameters
    exact ⟨_, _, rfl, .ofSoft (by omega) (hspot ▸ parameterInsertion_place hbrs indent _)
      (hcode.written fun code hcode => (hplain code hcode).1).soft
      (hcode.starts (fun _ b h => h.append b) (fun _ _ => .blanks) ⟨by decide, by decide⟩
        (fun hnil => hne (map_eq_nil_iff.mp hnil)) fun code hcode => (hplain code hcode).2)⟩
  | @assignments cls m c hcls hm hc new hnew hne spot hspot =>
    have hbrs := members_ctor hm hc
    have hcode := hspot ▸ @assignment_spec s _ _ hindent hbrs.isIndentText new
    have hle := hspot ▸ assignment_bounds hbrs indent new
    have hlt := lt_close hbrs.body
    exact ⟨_, _, rfl, .ofSoft (by omega) (.inr (hspot ▸ assignmentInsertion_place hbrs indent new))
      (hcode.written fun v hv => hr v (mem_filter.mp (hnew ▸ hv)).1).soft
      (hcode.starts (fun _ b h => h.append b) (fun _ _ => .blanks) hne assignmentCode_starts)⟩

end MageUplift
