import MageUplift.Proofs.AssignmentOrder
import MageUplift.Proofs.FormattingIndependence
import MageUplift.Proofs.LegibleCalls
import MageUplift.Proofs.ListedMembers

/-!
# Injection is complete

After an injection nothing is missing: every collaborator has its property, its parameter and its assignment, and the
injector would add nothing. This holds of the text that is written, when it is read anew.

The class after the injection is known by its tokens: those of the class before, with new ones at three places. What the
injector reads from a class it reads from its tokens as well (`Outlines`, `listedFacts`, `assignedIn`), so the new
members are found among the old ones, and the old ones as before.
-/

namespace MageUplift

open List

variable {v : Collaborator} {s : TokenStream} {cls : ClassBody} {r : Requirements} {name : String}

namespace Wiring

open Php TokenStream
open Call (Collaborator)

/-! ## §1. What a collaborator needs. -/

def namesIn (ts : List Token) : List String := (listedFacts ts).filterMap (·.name)

def promotedIn (ts : List Token) : List String := ((listedFacts ts).filter (·.promoted)).filterMap (·.name)

section

variable {s : TokenStream} {c : Constructor}

theorem parameterList_names (hlist : s.matchingClose? c.left = some c.right) :
    (parameterList s c).names = namesIn (s.codeIn (c.left + 1) c.right) := by
  rw [namesIn, ← parameterList_facts hlist, filterMap_map]
  rfl

theorem promotedNames_list (hlist : s.matchingClose? c.left = some c.right) :
    (parameterList s c).promotedNames = promotedIn (s.codeIn (c.left + 1) c.right) := by
  rw [promotedIn, ← parameterList_facts hlist, filter_map, filterMap_map]
  rfl

end

/-- The class of the stream has a property, a parameter and an assignment for the collaborator. A promoted parameter is
all three. -/
def Receives (s : TokenStream) (v : Collaborator) : Prop :=
  ∃ cls m c, classBody s = .ok cls ∧ members s cls = .ok m ∧ m.ctor = some c
    ∧ (v.name ∈ m.properties ∨ v.name ∈ (parameterList s c).promotedNames) ∧ v.name ∈ (parameterList s c).names
    ∧ (v.name ∈ (parameterList s c).promotedNames ∨ v.name ∈ assignedProperties s c)

def Outline.Serves (o : Outline) (v : Collaborator) : Prop :=
  ∃ parameters body, o.ctor = some (parameters, body) ∧ (v.name ∈ o.properties ∨ v.name ∈ promotedIn parameters)
    ∧ v.name ∈ namesIn parameters ∧ (v.name ∈ promotedIn parameters ∨ v.name ∈ assignedIn body)

theorem receives_of_serves {o : Outline}
    (hcls : classBody s = .ok cls) (h : Outlines ⟨[], none⟩ (s.codeIn (cls.left + 1) cls.right) o) (hv : o.Serves v) :
    Receives s v := by
  obtain ⟨m, hm, rfl⟩ := @membersFrom_of_outlines s cls (classBody_spec hcls) (classBody_brace hcls) _ _ _ h ⟨[], none⟩
    (cls.left + 1) (Nat.lt_succ_self _) rfl rfl
  obtain ⟨parameters, body, hctor, hproperty, hname, hasg⟩ := hv
  obtain ⟨c, hc, hpair⟩ := Option.map_eq_some_iff.mp hctor
  cases hpair
  have hlist := (members_ctor hm hc).parameters
  refine ⟨cls, m, c, hcls, hm, hc, ?_, ?_, ?_⟩
  · rw [promotedNames_list hlist]
    exact hproperty
  · rw [parameterList_names hlist]
    exact hname
  · rw [promotedNames_list hlist, mem_assignedProperties_iff]
    exact hasg

theorem inject_eq_nil {indent : String} (h : ∀ v ∈ r.entries, Receives s v) : inject s indent r = .ok [] := by
  cases hentries : r.entries with
  | nil => exact inject_of_isEmpty (by rw [Requirements.isEmpty, hentries]; rfl) s indent
  | cons first rest =>
    have hr : ¬ r.isEmpty := by
      rw [Requirements.isEmpty, hentries]
      exact Bool.false_ne_true
    obtain ⟨cls, m, c, hcls, hm, hc, -⟩ := h first (hentries ▸ mem_cons_self)
    -- all collaborators are received by the same constructor
    have hall : ∀ v ∈ r.entries, (v.name ∈ m.properties ∨ v.name ∈ (parameterList s c).promotedNames)
        ∧ v.name ∈ (parameterList s c).names
        ∧ (v.name ∈ (parameterList s c).promotedNames ∨ v.name ∈ assignedProperties s c) := by
      intro v hv
      obtain ⟨cls', m', c', hcls', hm', hc', hneeds⟩ := h v hv
      rw [hcls, Except.ok.injEq] at hcls'
      subst hcls'
      rw [hm, Except.ok.injEq] at hm'
      subst hm'
      rw [hc, Option.some.injEq] at hc'
      subst hc'
      exact hneeds
    have hnone : ∀ p : Collaborator → Bool, (∀ v ∈ r.entries, p v = false) → r.entries.filter p = [] := by
      intro p hp
      exact filter_eq_nil_iff.mpr fun v hv => by rw [hp v hv]; exact Bool.false_ne_true
    have hdecl := hnone (fun v => !(m.properties ++ (parameterList s c).promotedNames).contains v.name) fun v hv => by
      rw [Bool.not_eq_false', contains_iff_mem, mem_append]
      exact (hall v hv).1
    have hlisted := hnone (fun v => !(parameterList s c).names.contains v.name) fun v hv => by
      rw [Bool.not_eq_false', contains_iff_mem]
      exact (hall v hv).2.1
    have hasg := hnone (fun v => !(parameterList s c).promotedNames.contains v.name
        && !(assignedProperties s c).contains v.name) fun v hv => by
      rw [Bool.and_eq_false_iff, Bool.not_eq_false', Bool.not_eq_false', contains_iff_mem, contains_iff_mem]
      exact (hall v hv).2.2
    rw [inject, if_neg hr]
    simp only [hcls, hm, hc, bind, Except.bind, Option.map_some, Option.getD_some, hdecl, extendConstructor, hlisted,
      hasg]
    rfl

/-! ## §2. The outline of generated code. -/

section

variable {m m' : Outline} {ts : List Token} {vs : List Collaborator}

theorem outlines_properties (hvs : ∀ v ∈ vs, Proper v)
    (h : Outlines ⟨m.properties ++ vs.map (·.name), m.ctor⟩ ts m') : Outlines m (vs.flatMap propertyTokens ++ ts) m' := by
  induction vs generalizing m with
  | nil =>
    rw [map_nil, append_nil] at h
    exact h
  | cons v vs ih =>
    have hv := variableOf_variableToken (hvs v mem_cons_self).name
    rw [map_cons, ← singleton_append, ← append_assoc, ← hv] at h
    rw [flatMap_cons, append_assoc]
    -- the modifier, the variable and the semicolon
    refine .skip (by decide) rfl (fun hk => by cases hk)
      (.property rfl (.skip (by decide) rfl (fun hk => by cases hk) ?_))
    exact ih (forall_mem_cons.mp hvs).2 h

theorem balanced_assignments (hvs : ∀ v ∈ vs, Proper v) : Balanced ((vs.flatMap assignmentTokens).map Token.kind) := by
  refine balanced_of_plain fun k hk => ?_
  obtain ⟨t, ht, rfl⟩ := mem_map.mp hk
  obtain ⟨v, hv, ht⟩ := mem_flatMap.mp ht
  rw [assignmentTokens_eq (hvs v hv).name] at ht
  simp only [mem_cons, not_mem_nil, or_false] at ht
  rcases ht with rfl | rfl | rfl | rfl | rfl | rfl <;> rfl

def newConstructor (vs : List Collaborator) (hvs : ∀ v ∈ vs, Proper v) : ConstructorCode where
  function := ⟨.keyword .functionKw, "function"⟩
  name := [⟨.identifier, "__construct"⟩]
  left := ⟨.leftParen, "("⟩
  parameters := [⟨.comma, ","⟩].intercalate (vs.map parameterTokens)
  right := ⟨.rightParen, ")"⟩
  signature := []
  bodyLeft := ⟨.leftBrace, "\x7b"⟩
  body := vs.flatMap assignmentTokens
  bodyRight := ⟨.rightBrace, "\x7d"⟩
  isFunction := rfl
  isName := ⟨_, by decide +kernel, .inl rfl⟩
  isLeft := rfl
  isRight := rfl
  balanced := (facts_commasBetween hvs).1
  isSignature := fun t ht => by cases ht
  isBodyLeft := rfl
  isBodyRight := rfl
  bodyBalanced := balanced_assignments hvs

theorem constructorTokens_eq (hvs : ∀ v ∈ vs, Proper v) :
    constructorTokens vs = ⟨.keyword .publicKw, "public"⟩ :: (newConstructor vs hvs).tokens := by
  simp [constructorTokens, ConstructorCode.tokens, newConstructor]

theorem outlines_newConstructor (hvs : ∀ v ∈ vs, Proper v) (hnone : m.ctor = none)
    (h : Outlines ⟨m.properties, some ((newConstructor vs hvs).parameters, (newConstructor vs hvs).body)⟩ ts m') :
    Outlines m (constructorTokens vs ++ ts) m' := by
  rw [constructorTokens_eq hvs, cons_append]
  exact .skip (by decide) rfl (fun hk => by cases hk) (.ctor hnone (newConstructor vs hvs) h)

end

/-! ## §3. The class after an injection. -/

section

variable {s : TokenStream} {indent : String} {r : Requirements} {inserts : List (Edit Token)} {cls : ClassBody}
    {m : Members}

theorem classBody_woven (h : IsInjection s indent r inserts) (hcls : classBody s = .ok cls) :
    ∃ cls', classBody (s.woven inserts) = .ok cls' ∧ cls'.left + 1 = s.offsetIn inserts (cls.left + 1)
      ∧ cls'.right = Edit.placeOf s.tokens.toList inserts cls.right := by
  obtain ⟨hbrace, hfound⟩ := classBody_of_kept hcls fun e he => by
    obtain ⟨p, items, rfl, hp⟩ := inject_points h.answer e he
    exact (injectionPoint_inside hcls hp).1
  have hclose := Kept.matchingClose? h.passable h.nothing_at_end hbrace trivial
  rw [classBody_spec hcls, Option.map_some] at hclose
  obtain ⟨cls', hcls', hleft, hright⟩ := hfound _ hclose
  refine ⟨cls', hcls', ?_, hright⟩
  rw [hleft]
  exact (Edit.KeptAt.offsetOf_succ hbrace).symm

theorem codeIn_class_new (h : IsInjection s indent r inserts) (hr : r.isEmpty = false)
    (hproper : ∀ v ∈ r.entries, Proper v)
    (hcls : classBody s = .ok cls) (hm : members s cls = .ok m) (hnone : m.ctor = none) :
    (s.woven inserts).codeIn (s.offsetIn inserts (cls.left + 1)) (Edit.placeOf s.tokens.toList inserts cls.right)
      = (undeclared s m r).flatMap propertyTokens
        ++ (constructorTokens r.entries ++ s.codeIn (cls.left + 1) cls.right) := by
  have hind := classBody_deeper hcls h.indented
  have hinner : IsIndentText (cls.indent ++ indent ++ indent).toList := by
    rw [String.toList_append]
    exact hind.append h.indented
  have hread := (@reads_missingProperties s _ m r hind hproper).append (reads_constructorCode hind hinner hproper)
  have hsize := lt_close (classBody_spec hcls)
  have hgen : ∀ i, Edit.generatedAt inserts i = if i = cls.left + 1 then lexFragment _ else [] :=
    fun i => inject_of_none hr h.answer hcls hm hnone ▸ generatedAt_header cls _ i
  rw [codeIn_woven_to le_rfl hsize.1 hsize.2.le h.covers_eq_false
    (fun i _ _ hne => by rw [hgen, if_neg hne]), codeIn_self, hgen, if_pos rfl, lexFragment_code,
    String.toList_append, hread.tokens, nil_append, append_assoc]

def parameterSpot (s : TokenStream) (indent : String) (c : Constructor) (r : Requirements) : Nat :=
  (parameterInsertion s indent c (parameterList s c) ((missingParameters (parameterList s c) r).map parameterCode)).1

def extendedList (s : TokenStream) (indent : String) (c : Constructor) (r : Requirements) : List Token :=
  s.codeIn (c.left + 1) (parameterSpot s indent c r)
    ++ insertedParameters (parameterList s c) (missingParameters (parameterList s c) r)
    ++ s.codeIn (parameterSpot s indent c r) c.right

def extendedBody (s : TokenStream) (c : Constructor) (r : Requirements) : List Token :=
  s.codeIn (c.bodyLeft + 1) (assignmentSpot s c) ++ (unassigned s c r).flatMap assignmentTokens
    ++ s.codeIn (assignmentSpot s c) c.bodyRight

variable {c : Constructor}

theorem insertedParameters_nil (list : ParameterList) : insertedParameters list [] = [] := by
  unfold insertedParameters
  split
  · rfl
  · split <;> rfl

section

variable (h : IsInjection s indent r inserts) (hr : r.isEmpty = false) (hproper : ∀ v ∈ r.entries, Proper v)
  (hcls : classBody s = .ok cls) (hm : members s cls = .ok m) (hc : m.ctor = some c)

include h hr hproper hcls hm hc

theorem significant_before_body :
    (∀ i, i ≤ c.bodyLeft → i ≠ cls.left + 1 → i ≠ parameterSpot s indent c r → Edit.generatedAt inserts i = [])
      ∧ significant (Edit.generatedAt inserts (cls.left + 1)) = (undeclared s m r).flatMap propertyTokens
      ∧ significant (Edit.generatedAt inserts (parameterSpot s indent c r))
        = insertedParameters (parameterList s c) (missingParameters (parameterList s c) r) := by
  have hins := inject_of_some hr h.answer hcls hm hc
  have hnamed := members_named hm hc
  have hwell := members_ctor hm hc
  have hspot : c.left < parameterSpot s indent c r ∧ parameterSpot s indent c r ≤ c.right :=
    parameterSpot_bounds hwell indent _
  have hassign := (assignment_bounds hwell indent (unassigned s c r)).1
  have hlist := lt_close hwell.parameters
  have hbody := hnamed.body
  have hin := hnamed.inside
  have hprops := (@reads_missingProperties s _ m r (classBody_deeper hcls h.indented) hproper).tokens
  have hparams :=
    (@reads_parameterInsertion s _ c (parameterList s c) (missingParameters (parameterList s c) r) h.indented
    hwell.isIndentText fun v hv => hproper v (mem_filter.mp hv).1).tokens
  refine ⟨fun i hle htop hne => ?_, ?_, ?_⟩
  · rw [hins, generatedAt_extension, if_neg fun h => hne h.2, if_neg (by omega), if_neg htop]
    rfl
  · rw [hins, generatedAt_extension, if_neg fun h => absurd h.2 (show _ ≠ parameterSpot s indent c r by omega),
      if_neg (by omega), if_pos rfl, nil_append, nil_append, lexFragment_code, hprops]
  · have hapart : ¬ (unassigned s c r ≠ []
        ∧ parameterSpot s indent c r = (assignmentInsertion s indent c (unassigned s c r)).1) := by omega
    rw [hins, generatedAt_extension, if_neg hapart, if_neg (show parameterSpot s indent c r ≠ cls.left + 1 by omega),
      append_nil, append_nil]
    by_cases hnil : missingParameters (parameterList s c) r = []
    · rw [if_neg fun h => h.1 hnil, hnil, insertedParameters_nil]
      rfl
    · rw [if_pos ⟨hnil, rfl⟩, lexFragment_code, hparams]

theorem codeIn_class_extended :
    (s.woven inserts).codeIn (s.offsetIn inserts (cls.left + 1)) (Edit.placeOf s.tokens.toList inserts cls.right)
      = (undeclared s m r).flatMap propertyTokens ++ (s.codeIn (cls.left + 1) (c.left + 1) ++ extendedList s indent c r
        ++ s.codeIn c.right (c.bodyLeft + 1) ++ extendedBody s c r ++ s.codeIn c.bodyRight cls.right) := by
  obtain ⟨hbef, htop, hlist⟩ := significant_before_body h hr hproper hcls hm hc
  have hbody := fun {i : Nat} (hi : c.bodyLeft ≤ i) => significant_in_body h hr hcls hm hc hi
  have hwell := members_ctor hm hc
  have horder := (membersFrom_inside (classBody_spec hcls) (Nat.lt_succ_self _) hm rfl hc).order
  have hsize := (lt_close (classBody_spec hcls)).2
  have hspot : c.left < parameterSpot s indent c r ∧ parameterSpot s indent c r ≤ c.right :=
    parameterSpot_bounds hwell indent _
  have hassign := spot_bounds hwell
  have hplace : Edit.placeOf s.tokens.toList inserts cls.right = s.offsetIn inserts cls.right := by
    rw [Edit.placeOf, (hbody (by omega)).1 (by omega)]
    rfl
  have hmono := fun {i j : Nat} (hij : i ≤ j) => offsetIn_mono s inserts hij
  -- the top of the class, the list, the signature, the body, and the rest
  rw [hplace, codeIn_append (s.woven inserts) (hmono (show cls.left + 1 ≤ c.left + 1 by omega))
      (hmono (show c.left + 1 ≤ cls.right by omega)),
    codeIn_append (s.woven inserts) (hmono (show c.left + 1 ≤ c.right + 1 by omega))
      (hmono (show c.right + 1 ≤ cls.right by omega)),
    codeIn_append (s.woven inserts) (hmono (show c.right + 1 ≤ c.bodyLeft + 1 by omega))
      (hmono (show c.bodyLeft + 1 ≤ cls.right by omega)),
    codeIn_append (s.woven inserts) (hmono (show c.bodyLeft + 1 ≤ c.bodyRight + 1 by omega))
      (hmono (show c.bodyRight + 1 ≤ cls.right by omega)),
    codeIn_woven_insert le_rfl (show cls.left + 1 < c.left + 1 by omega) (by omega)
      (fun i _ _ => h.covers_eq_false i) (fun i _ _ hne => hbef i (by omega) hne (by omega)),
    codeIn_woven_insert (show c.left + 1 ≤ parameterSpot s indent c r from hspot.1)
      (show parameterSpot s indent c r < c.right + 1 by omega) (by omega) (fun i _ _ => h.covers_eq_false i)
      (fun i _ _ hne => hbef i (by omega) (by omega) hne),
    codeIn_woven (show c.right + 1 ≤ c.bodyLeft + 1 by omega) (by omega)
      (fun i _ _ => ⟨hbef i (by omega) (by omega) (by omega), h.covers_eq_false i⟩),
    codeIn_woven_insert (show c.bodyLeft + 1 ≤ assignmentSpot s c from hassign.1)
      (show assignmentSpot s c < c.bodyRight + 1 by omega) (by omega) (fun i _ _ => h.covers_eq_false i)
      (fun i _ _ hne => (hbody (by omega)).1 hne),
    codeIn_woven (show c.bodyRight + 1 ≤ cls.right by omega) (by omega)
      (fun i _ _ => ⟨(hbody (by omega)).1 (by omega), h.covers_eq_false i⟩),
    htop, hlist, (hbody hassign.1.le).2, if_pos rfl]
  -- the two closers belong to what follows them
  rw [extendedList, extendedBody, codeIn_append s hspot.2 c.right.le_succ,
    codeIn_append s c.right.le_succ (show c.right + 1 ≤ c.bodyLeft + 1 by omega),
    codeIn_append s hassign.2 c.bodyRight.le_succ,
    codeIn_append s c.bodyRight.le_succ (show c.bodyRight + 1 ≤ cls.right by omega), codeIn_self]
  simp only [nil_append, append_assoc]

theorem balanced_extendedList : Balanced ((extendedList s indent c r).map Token.kind) := by
  have hwell := members_ctor hm hc
  obtain ⟨hlo, hhi⟩ : c.left < parameterSpot s indent c r ∧ parameterSpot s indent c r ≤ c.right :=
    parameterSpot_bounds hwell indent _
  have hall := balanced_codeIn.mpr (balanced_inside hwell.parameters)
  rw [codeIn_append s hlo hhi, map_append] at hall
  rw [extendedList, ← (significant_before_body h hr hproper hcls hm hc).2.2, map_append, map_append]
  exact hall.insert (balanced_significantTokens.mpr (h.balanced_at _))

end

section

variable (hproper : ∀ v ∈ r.entries, Proper v) (hwell : c.WellBracketed s)

include hproper hwell

theorem balanced_extendedBody : Balanced ((extendedBody s c r).map Token.kind) := by
  obtain ⟨hlo, hhi⟩ := spot_bounds hwell
  have hall := balanced_codeIn.mpr (balanced_inside hwell.body)
  rw [codeIn_append s hlo hhi, map_append] at hall
  rw [extendedBody, map_append, map_append]
  exact hall.insert (balanced_assignments fun v hv => hproper v (mem_filter.mp hv).1)

theorem listedFacts_extendedList :
    listedFacts (extendedList s indent c r) = withRequired (listedFacts (s.codeIn (c.left + 1) c.right))
      ((missingParameters (parameterList s c) r).map newFacts) :=
  listedFacts_inserted hwell.parameters indent (fun v hv => hproper v (mem_filter.mp hv).1) rfl

theorem extendedList_perm :
    (listedFacts (extendedList s indent c r)).Perm (listedFacts (s.codeIn (c.left + 1) c.right)
      ++ (missingParameters (parameterList s c) r).map newFacts) :=
  listedFacts_extendedList hproper hwell ▸ withRequired_perm _ _

theorem mem_namesIn_extendedList (hv : v ∈ r.entries) : v.name ∈ namesIn (extendedList s indent c r) := by
  refine ((extendedList_perm hproper hwell).filterMap (·.name)).mem_iff.mpr ?_
  rw [filterMap_append, mem_append]
  by_cases hlisted : v.name ∈ (parameterList s c).names
  · rw [parameterList_names hwell.parameters] at hlisted
    exact .inl hlisted
  · refine .inr (mem_filterMap.mpr ⟨newFacts v, mem_map_of_mem (mem_filter.mpr ⟨hv, ?_⟩), rfl⟩)
    simpa using hlisted

theorem mem_promotedIn_extendedList (h : name ∈ (parameterList s c).promotedNames) :
    name ∈ promotedIn (extendedList s indent c r) := by
  refine (((extendedList_perm hproper hwell).filter (·.promoted)).filterMap (·.name)).mem_iff.mpr ?_
  rw [filter_append, filterMap_append, mem_append]
  rw [promotedNames_list hwell.parameters] at h
  exact .inl h

end

theorem startsApart_spot (hwell : c.WellBracketed s) : StartsApart (s.codeIn (assignmentSpot s c) c.bodyRight) := by
  rw [assignmentSpot]
  cases hcall : parentCall? s c with
  | some call => exact startsApart_parentCall hcall
  | none =>
    rw [Option.getD_none, codeIn_triviaIn (triviaIn_trailing s c.bodyLeft c.bodyRight)
      (trailing_bounds s (lt_close hwell.body).1).2]
    trivial

theorem mem_assignedIn_extendedBody (hproper : ∀ v ∈ r.entries, Proper v) (hwell : c.WellBracketed s) :
    name ∈ assignedIn (extendedBody s c r)
      ↔ name ∈ assignedProperties s c ∨ name ∈ (unassigned s c r).map (·.name) := by
  have hapart := startsApart_spot hwell
  obtain ⟨hlo, hhi⟩ := spot_bounds hwell
  have hunassigned : ∀ v ∈ unassigned s c r, Proper v := fun v hv => hproper v (mem_filter.mp hv).1
  have hall : ((unassigned s c r).filter fun v => isIdentifier v.name.toList) = unassigned s c r :=
    filter_eq_self.mpr fun v hv => (hunassigned v hv).name
  rw [mem_assignedProperties_iff, codeIn_append s hlo hhi,
    assignedIn_append hapart, extendedBody, append_assoc, assignedIn_append (startsApart_assignments hapart),
    assignedIn_assignments fun v hv => (hunassigned v hv).plain.name, hall]
  simp only [mem_append]
  rw [or_assoc, or_comm (a := name ∈ assignedIn (s.codeIn (assignmentSpot s c) c.bodyRight))]

theorem declared_or_undeclared (s : TokenStream) (m : Members) (hv : v ∈ r.entries) :
    v.name ∈ (undeclared s m r).map (·.name)
      ∨ v.name ∈ m.properties ++ ((m.ctor.map (parameterList s)).map ParameterList.promotedNames).getD [] := by
  by_cases hdecl : v.name ∈ m.properties ++ ((m.ctor.map (parameterList s)).map ParameterList.promotedNames).getD []
  · exact .inr hdecl
  · refine .inl (mem_map.mpr ⟨v, mem_filter.mpr ⟨hv, ?_⟩, rfl⟩)
    rw [Bool.not_eq_true', ← Bool.not_eq_true, contains_iff_mem]
    exact hdecl

theorem newConstructor_serves (hproper : ∀ v ∈ r.entries, Proper v) (hv : v ∈ r.entries) :
    v.name ∈ namesIn (newConstructor r.entries hproper).parameters
      ∧ v.name ∈ assignedIn (newConstructor r.entries hproper).body := by
  constructor
  · show v.name ∈ (listedFacts ([⟨.comma, ","⟩].intercalate (r.entries.map parameterTokens))).filterMap (·.name)
    rw [(facts_commasBetween hproper).2]
    exact mem_filterMap.mpr ⟨newFacts v, mem_map_of_mem hv, rfl⟩
  · have hasg := assignedIn_assignments (fun v hv => (hproper v hv).plain.name) []
    rw [append_nil] at hasg
    show v.name ∈ assignedIn (r.entries.flatMap assignmentTokens)
    rw [hasg]
    exact mem_append_left _ (mem_map.mpr ⟨v, mem_filter.mpr ⟨hv, (hproper v hv).name⟩, rfl⟩)

def constructorAfter (s : TokenStream) (indent : String) (r : Requirements) : Option Constructor → List Token × List Token
  | none => ([⟨.comma, ","⟩].intercalate (r.entries.map parameterTokens), r.entries.flatMap assignmentTokens)
  | some c => (extendedList s indent c r, extendedBody s c r)

def outlineAfter (s : TokenStream) (indent : String) (m : Members) (r : Requirements) : Outline :=
  ⟨(undeclared s m r).map (·.name) ++ m.properties, some (constructorAfter s indent r m.ctor)⟩

theorem outlines_injection (h : IsInjection s indent r inserts) (hr : r.isEmpty = false)
    (hproper : ∀ v ∈ r.entries, Proper v)
    (hcls : classBody s = .ok cls) (hm : members s cls = .ok m) :
    ∃ cls', classBody (s.woven inserts) = .ok cls'
      ∧ Outlines ⟨[], none⟩ ((s.woven inserts).codeIn (cls'.left + 1) cls'.right) (outlineAfter s indent m r) := by
  obtain ⟨cls', hcls', hleft, hright⟩ := classBody_woven h hcls
  have hprops : ∀ v ∈ undeclared s m r, Proper v := fun v hv => hproper v (mem_filter.mp hv).1
  refine ⟨cls', hcls', ?_⟩
  rw [hleft, hright, outlineAfter]
  cases hc : m.ctor with
  | none =>
    have houtline := outlines_of_membersFrom (classBody_spec hcls) (classBody_brace hcls) (Nat.lt_succ_self _) hm
    have hempty : (m.outline s).ctor = none := by rw [Members.outline, hc]; rfl
    have hrest := houtline.settle (.inr hempty) (constructorAfter s indent r none)
    rw [codeIn_class_new h hr hproper hcls hm hc]
    exact outlines_properties hprops (outlines_newConstructor hproper rfl (hrest.behind _))
  | some c =>
    have hwell := members_ctor hm hc
    have hrest := outlines_of_extension (classBody_spec hcls) (classBody_brace hcls) (Nat.lt_succ_self _) hm rfl hc
      (balanced_extendedList h hr hproper hcls hm hc) (@balanced_extendedBody s r c hproper hwell)
    rw [codeIn_class_extended h hr hproper hcls hm hc]
    exact outlines_properties hprops (hrest.behind _)

theorem serves_outlineAfter (hproper : ∀ v ∈ r.entries, Proper v) (hm : members s cls = .ok m)
    (hv : v ∈ r.entries) : (outlineAfter s indent m r).Serves v := by
  have hdecl := declared_or_undeclared s m hv
  rw [outlineAfter]
  cases hc : m.ctor with
  | none =>
    obtain ⟨hlisted, hasg⟩ := newConstructor_serves hproper hv
    rw [hc, Option.map_none, Option.map_none, Option.getD_none, append_nil] at hdecl
    exact ⟨_, _, rfl, .inl (mem_append.mpr hdecl), hlisted, .inr hasg⟩
  | some c =>
    have hwell := members_ctor hm hc
    have hprom : v.name ∈ (parameterList s c).promotedNames → v.name ∈ promotedIn (extendedList s indent c r) :=
      mem_promotedIn_extendedList hproper hwell
    refine ⟨_, _, rfl, ?_, mem_namesIn_extendedList hproper hwell hv, ?_⟩
    · rcases hdecl with hnew | hold
      · exact .inl (mem_append_left _ hnew)
      · rw [hc, Option.map_some, Option.map_some, Option.getD_some] at hold
        exact (mem_append.mp hold).imp (mem_append_right _) hprom
    · rw [mem_assignedIn_extendedBody hproper hwell]
      by_cases hold : v.name ∈ (parameterList s c).promotedNames
      · exact .inl (hprom hold)
      · by_cases hasg : v.name ∈ assignedProperties s c
        · exact .inr (.inl hasg)
        · refine .inr (.inr (mem_map.mpr ⟨v, mem_filter.mpr ⟨hv, ?_⟩, rfl⟩))
          simp [hold, hasg]

theorem serves_injection (h : IsInjection s indent r inserts) (hr : r.isEmpty = false)
    (hproper : ∀ v ∈ r.entries, Proper v) :
    ∃ cls o, classBody (s.woven inserts) = .ok cls
      ∧ Outlines ⟨[], none⟩ ((s.woven inserts).codeIn (cls.left + 1) cls.right) o ∧ ∀ v ∈ r.entries, o.Serves v := by
  obtain ⟨cls, m, hcls, hm, -⟩ := inject_cases hr h.answer
  obtain ⟨cls', hcls', houtline⟩ := outlines_injection h hr hproper hcls hm
  exact ⟨cls', _, hcls', houtline, fun v hv => serves_outlineAfter hproper hm hv⟩

end

/-! ## §4. Reading the text anew. -/

theorem classBody_of_significant {u w : TokenStream}
    (h : significant u.tokens.toList = significant w.tokens.toList) (hcls : classBody u = .ok cls) :
    ∃ cls', classBody w = .ok cls' ∧ w.codeIn (cls'.left + 1) cls'.right = u.codeIn (cls.left + 1) cls.right := by
  -- the tokens between the braces, in the compact stream
  have hcompact : ∀ {s : TokenStream} {cls inner : ClassBody}, classBody s = .ok cls → ClassBody.Moved s.rank cls inner →
      s.compact.codeIn (inner.left + 1) inner.right = s.codeIn (cls.left + 1) cls.right := by
    intro s cls inner hcls hmoved
    have hbraces := classBody_spec hcls
    rw [hmoved.left, hmoved.right, ← rank_code (isCode_brackets hbraces).1,
      codeIn_compact s (lt_close hbraces).1]
  have hu := classBody_compact u
  have hw := classBody_compact w
  rw [compact_eq h, hcls] at hu
  cases hinner : classBody w.compact with
  | error e => rw [hinner] at hu; exact absurd hu id
  | ok inner =>
    rw [hinner] at hu hw
    cases hcls' : classBody w with
    | error e => rw [hcls'] at hw; exact absurd hw id
    | ok cls' =>
      rw [hcls'] at hw
      have hsame := hcompact hcls hu
      rw [compact_eq h, hcompact hcls' hw] at hsame
      exact ⟨cls', rfl, hsame⟩

end Wiring

open Php TokenStream Call Wiring

theorem IsInjection.significant_refresh {source indent : String} {inserts : List (Edit Token)}
    (h : IsInjection (.ofSource source) indent r inserts) (hproper : ∀ v ∈ r.entries, Proper v)
    (hset : areSettled none (lex source)) :
    significant ((TokenStream.ofSource source).woven inserts).refresh.tokens.toList
      = significant ((TokenStream.ofSource source).woven inserts).tokens.toList := by
  have hleg := h.legible (fun v hv => (hproper v hv).name) (steps_legible hset) (text_ne_nil_lex source)
  rw [woven, refresh_ofTokens]
  exact hleg.significant_eq

/-! ## §5. A second injection. -/

/-- **A second injection adds nothing.** In a file in which no token waits for the text behind it, the insertions of
the injector can be applied, and in the text that they leave, read anew, the class has a property, a parameter and
an assignment for every collaborator, so that the injector answers with no insertion. -/
theorem inject_twice {source indent : String} {r : Requirements} {inserts : List (Edit Token)}
    (hind : IsIndentText indent.toList) (hproper : ∀ v ∈ r.entries, Proper v)
    (hset : areSettled none (lex source) = true) (h : inject (.ofSource source) indent r = .ok inserts) :
    ∃ out, (TokenStream.ofSource source).apply inserts = .ok out ∧ (∀ v ∈ r.entries, Receives out.refresh v)
      ∧ inject out.refresh indent r = .ok [] := by
  have hinj : IsInjection (.ofSource source) indent r inserts := ⟨hind, fun v hv => (hproper v hv).plain, h⟩
  have hreceives : ∀ v ∈ r.entries, Receives ((TokenStream.ofSource source).woven inserts).refresh v := by
    intro v hv
    have hr : r.isEmpty = false := by
      rw [Requirements.isEmpty, List.isEmpty_eq_false_iff]
      exact List.ne_nil_of_mem hv
    obtain ⟨cls, o, hcls, houtline, hserves⟩ := serves_injection hinj hr hproper
    obtain ⟨cls', hcls', hcode⟩ :=
      classBody_of_significant (hinj.significant_refresh hproper hset).symm hcls
    exact receives_of_serves hcls' (hcode ▸ houtline) (hserves v hv)
  exact ⟨_, apply_eq_weave (inject_fits h), hreceives, inject_eq_nil hreceives⟩

def promotesOne : String := "<?php class A{function __construct(private $y, $a=1){}}"

def twoCollaborators : Requirements := ⟨[⟨"x", "\\T"⟩, ⟨"y", "\\U\\V"⟩]⟩

theorem proper_twoCollaborators : ∀ v ∈ twoCollaborators.entries, Proper v := by
  intro v hv
  simp only [twoCollaborators, mem_cons, not_mem_nil, or_false] at hv
  rcases hv with rfl | rfl
  · exact ⟨by decide, by decide⟩
  · exact ⟨by decide, by decide⟩

/-- One collaborator gets its parameter, its assignment and its property, the other had them all. -/
theorem inject_twice_promotesOne :
    ∃ inserts out, inject (.ofSource promotesOne) "\t" twoCollaborators = .ok inserts ∧ inserts.length = 3
      ∧ (TokenStream.ofSource promotesOne).apply inserts = .ok out
      ∧ (∀ v ∈ twoCollaborators.entries, Receives out.refresh v) ∧ inject out.refresh "\t" twoCollaborators = .ok [] := by
  have hrun : ((inject (.ofSource promotesOne) "\t" twoCollaborators).toOption.any (·.length == 3)) := by
    rw [show TokenStream.ofSource promotesOne = .ofTokens _ from ofSource_ofList _]
    decide +kernel
  obtain ⟨inserts, hins, hcount⟩ := of_any_ok hrun
  obtain ⟨out, hout⟩ := inject_twice (by decide) proper_twoCollaborators (by decide +kernel) hins
  exact ⟨inserts, out, hins, beq_iff_eq.mp hcount, hout⟩

/-! ## §6. New code in a comment. -/

/-- A parameter list that begins with a comment, which a close tag ends. -/
def opensWithComment : String :=
  "<?php class A{var $x;function __construct(#?><?php $a=1){$this->x=1;}}"

/-- The close tag counts as the first token of the parameter that follows. A parameter in front of it becomes part of the
comment, and a second injection adds it again. -/
theorem inject_adds_again :
    ∃ inserts out again, inject (.ofSource opensWithComment) "\t" ⟨[⟨"x", "\\T"⟩]⟩ = .ok inserts
      ∧ (TokenStream.ofSource opensWithComment).apply inserts = .ok out
      ∧ inject out.refresh "\t" ⟨[⟨"x", "\\T"⟩]⟩ = .ok again ∧ again ≠ [] := by
  have hrun : ((inject (.ofSource opensWithComment) "\t" ⟨[⟨"x", "\\T"⟩]⟩).toOption.any fun inserts =>
      (inject (TokenStream.ofTokens (Edit.weave (TokenStream.ofSource opensWithComment).tokens.toList inserts)).refresh
      "\t"
        ⟨[⟨"x", "\\T"⟩]⟩).toOption.any (!·.isEmpty)) = true := by
    simp only [refresh_ofTokens]
    rw [show TokenStream.ofSource opensWithComment = .ofTokens _ from ofSource_ofList _]
    decide +kernel
  obtain ⟨inserts, hins, hrun⟩ := of_any_ok hrun
  obtain ⟨again, hagain, hsome⟩ := of_any_ok hrun
  refine ⟨inserts, _, again, hins, apply_eq_weave (inject_fits hins), hagain, fun hnil => ?_⟩
  rw [hnil] at hsome
  cases hsome

end MageUplift
