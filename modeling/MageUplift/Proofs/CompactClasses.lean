import MageUplift.Proofs.CompactStreams
import MageUplift.Proofs.InjectedTokens

/-!
# Classes without trivia

The class that collaborators are injected into, its members and its constructor are those of the compact stream, at
the ranks of their places; only indentation is lost. Errors are the same as well, at the ranks of their places.
-/

namespace MageUplift.Wiring

open Php TokenStream List Option

variable {k : Kind} {t : Token} {limit : Nat} {cls : ClassBody} {found : Members}

/-! ## §1. Answers that agree. -/

def InjectError.relocate (f : Nat → Nat) : InjectError → InjectError
  | .classBodyNotFound => .classBodyNotFound
  | .unbalancedClassBody left => .unbalancedClassBody (f left)
  | .malformedConstructor span fault => .malformedConstructor (span.relocate f) fault

/-- Two answers are related values, or one error at places moved by `f`. -/
def Agree {α β : Type} (f : Nat → Nat) (r : α → β → Prop) : Except InjectError α → Except InjectError β → Prop
  | .ok a, .ok b => r a b
  | .error e, .error e' => e' = e.relocate f
  | _, _ => False

theorem Agree.bind {α β γ δ : Type} {f : Nat → Nat} {r : α → β → Prop} {q : γ → δ → Prop} {x : Except InjectError α}
    {y : Except InjectError β} {g : α → Except InjectError γ} {h : β → Except InjectError δ} (hxy : Agree f r x y)
    (next : ∀ a b, x = .ok a → r a b → Agree f q (g a) (h b)) : Agree f q (x >>= g) (y >>= h) := by
  match x, y with
  | .ok a, .ok b => exact next a b rfl hxy
  | .error _, .error _ => exact hxy

variable {s : TokenStream} {i : Nat}

/-! ## §2. The class. -/

theorem declaresClass_compact (hi : s.IsCode i) : declaresClass s.compact (s.rank i) = declaresClass s i := by
  rw [declaresClass, hi.hasKind_compact, followedBy?_compact hi, isSome_map, prev_compact,
    bind_kind?_compact fun j hj => isCode_of_prev hj, declaresClass]

theorem isCode_of_hasKind (h : s.hasKind i k) (hk : k.isTrivia = false) : s.IsCode i :=
  isCode_of_kind? (eq_of_beq h) hk

theorem isCode_of_declaresClass (h : declaresClass s i) : s.IsCode i := by
  rw [declaresClass, Bool.and_eq_true, Bool.and_eq_true] at h
  exact isCode_of_hasKind h.1.1 rfl

theorem classKeyword?_compact (s : TokenStream) : classKeyword? s.compact = (classKeyword? s).map s.rank := by
  rw [classKeyword?, classKeyword?, ← head?_filter, ← head?_filter, ← head?_map,
    ← filterMap_eq_filter, ← filterMap_eq_filter]
  congr 1
  refine filterMap_range_compact (fun i hi => ?_) fun i hi => ?_
  · rw [Option.guard, if_neg fun h => hi (isCode_of_declaresClass h)]
  · rw [Option.guard, Option.guard, declaresClass_compact hi]
    split <;> rfl

theorem bodyLeft?_of_get? (ht : s.get? i = some t) :
    bodyLeft? s i = if t.kind = .leftBrace then some i else if isHeaderKind t.kind then bodyLeft? s (i + 1)
    else none := by
  obtain ⟨hi, rfl⟩ := Array.getElem?_eq_some_iff.mp ht
  rw [bodyLeft?, dif_pos hi]

theorem bodyLeft?_of_size_le (h : s.size ≤ i) : bodyLeft? s i = none := by
  rw [bodyLeft?, dif_neg (by simpa [size] using h)]

theorem bodyLeft?_compact (s : TokenStream) (i : Nat) :
    bodyLeft? s.compact (s.rank i) = (bodyLeft? s i).map s.rank := by
  induction i using position_induction s with
  | atEnd i hi =>
    rw [bodyLeft?_of_size_le hi, bodyLeft?_of_size_le (Nat.le_of_eq (rank_of_size_le hi).symm), map_none]
  | trivia i t ht htriv ih =>
    rw [Token.isTrivia] at htriv
    have hheader : isHeaderKind t.kind := by rw [isHeaderKind, htriv]; rfl
    have hbrace : t.kind ≠ .leftBrace := fun h => by rw [h] at htriv; cases htriv
    rw [← rank_of_trivia ht htriv, ih, bodyLeft?_of_get? (i := i) ht, if_neg hbrace, if_pos hheader]
  | code i t ht hsig ih =>
    rw [bodyLeft?_of_get? (get?_compact ht hsig), bodyLeft?_of_get? ht, ← rank_code ⟨t, ht, hsig⟩,
      ih (i + 1) i.lt_succ_self]
    split
    · rfl
    · split <;> rfl

theorem isCode_of_bodyLeft? {left : Nat} (h : bodyLeft? s i = some left) : s.IsCode left :=
  isCode_of_kind? (bodyLeft?_iff.mp h).2.1 rfl

/-- The braces of a class body are at places moved by `f`. -/
structure ClassBody.Moved (f : Nat → Nat) (cls cls' : ClassBody) : Prop where
  left : cls'.left = f cls.left
  right : cls'.right = f cls.right

theorem classBody_compact (s : TokenStream) :
    Agree s.rank (ClassBody.Moved s.rank) (classBody s) (classBody s.compact) := by
  rw [classBody, classBody, classKeyword?_compact]
  cases hkw : classKeyword? s with
  | none => exact rfl
  | some keyword =>
    have hcode : s.IsCode keyword := isCode_of_declaresClass (find?_some hkw)
    have hbody : ((s.compact.nextSignificant? (s.rank keyword + 1)).bind fun name => bodyLeft? s.compact (name + 1))
        = ((s.nextSignificant? (keyword + 1)).bind fun name => bodyLeft? s (name + 1)).map s.rank := by
      rw [← rank_code hcode, next_compact, bind_map, Option.map_bind]
      refine Option.bind_congr fun name hname => ?_
      have := bodyLeft?_compact s (name + 1)
      rwa [rank_code (isCode_of_next hname)] at this
    simp only [map_some, hbody]
    cases hleft : (s.nextSignificant? (keyword + 1)).bind fun name => bodyLeft? s (name + 1) with
    | none => exact rfl
    | some left =>
      obtain ⟨name, -, hname⟩ := bind_eq_some_iff.mp hleft
      simp only [map_some, close_compact (isCode_of_bodyLeft? hname)]
      cases s.matchingClose? left with
      | none => exact rfl
      | some right => exact ⟨rfl, rfl⟩

/-! ## §3. The constructor. -/

theorem isCode_of_constructorName? {name : Nat} (h : constructorName? s i = some name) : s.IsCode name := by
  obtain ⟨hname, -⟩ := filter_eq_some_iff.mp h
  obtain ⟨first, hfst, hname⟩ := bind_eq_some_iff.mp hname
  split at hname
  · exact isCode_of_next hname
  · cases hname
    exact isCode_of_next hfst

theorem constructorName?_compact (hi : s.IsCode i) :
    constructorName? s.compact (s.rank i) = (constructorName? s i).map s.rank := by
  have next : ∀ name, s.IsCode name →
      (if s.compact.hasKind (s.rank name) .ampersand then s.compact.nextSignificant? (s.rank name + 1)
        else some (s.rank name))
      = (if s.hasKind name .ampersand then s.nextSignificant? (name + 1) else some name).map s.rank := by
    intro name hname
    rw [hname.hasKind_compact, ← rank_code hname, next_compact]
    split <;> rfl
  have found : ∀ o : Option Nat, (∀ j, o = some j → s.IsCode j) →
      (o.map s.rank).filter (fun name => (s.compact.get? name).any (·.isWord "__construct"))
      = (o.filter fun name => (s.get? name).any (·.isWord "__construct")).map s.rank := by
    intro o ho
    cases o with
    | none => rfl
    | some name =>
      rw [map_some, filter_some, filter_some, (ho name rfl).get?_compact]
      split <;> rfl
  rw [constructorName?, constructorName?, ← found _ fun j hj => ?_, ← rank_code hi, next_compact,
    bind_map, Option.map_bind]
  · congr 1
    exact Option.bind_congr fun name hname => next name (isCode_of_next hname)
  · obtain ⟨first, hfst, hj⟩ := bind_eq_some_iff.mp hj
    split at hj
    · exact isCode_of_next hj
    · cases hj
      exact isCode_of_next hfst

theorem signatureEnd_compact (hlimit : limit ≤ s.size) (i : Nat) :
    signatureEnd s.compact (s.rank limit) (s.rank i) = s.rank (signatureEnd s limit i) := by
  have done : ∀ i, ¬ i < limit →
      signatureEnd s.compact (s.rank limit) (s.rank i) = s.rank (signatureEnd s limit i) := by
    intro i hi
    rw [signatureEnd, if_neg (not_rank_lt hi), signatureEnd, if_neg hi]
  induction i using position_induction s with
  | atEnd i hi => exact done i (by omega)
  | trivia i t ht htriv ih =>
    by_cases hi : i < limit
    · have hends : (s.hasKind i .leftBrace || s.hasKind i .semicolon) = false := by
        rw [Token.isTrivia] at htriv
        rw [hasKind, hasKind, kind?_get? ht]
        cases hk : t.kind <;> simp_all [Kind.isTrivia]
      rw [← rank_of_trivia ht htriv, ih, signatureEnd.eq_def s limit i, if_pos hi, hends, if_neg Bool.false_ne_true]
    · exact done i hi
  | code i t ht hsig ih =>
    by_cases hi : i < limit
    · have hcode : s.IsCode i := ⟨t, ht, hsig⟩
      rw [signatureEnd, if_pos ((rank_lt_iff hcode).mpr hi), hcode.hasKind_compact, hcode.hasKind_compact,
        ← rank_code hcode, ih (i + 1) i.lt_succ_self, signatureEnd.eq_def s limit i, if_pos hi]
      split <;> rfl
    · exact done i hi

theorem isCode_signatureEnd (h : signatureEnd s limit i < limit) : s.IsCode (signatureEnd s limit i) := by
  fun_induction signatureEnd s limit i with
  | case1 i hi hends =>
    rcases Bool.or_eq_true_iff.mp hends with hbrace | hsemi
    · exact isCode_of_hasKind hbrace rfl
    · exact isCode_of_hasKind hsemi rfl
  | case2 i hi hends ih => exact ih h
  | case3 i hi => exact absurd h hi

/-- The tokens of a constructor are at places moved by `f`. -/
structure Constructor.Moved (f : Nat → Nat) (c c' : Constructor) : Prop where
  functionKw : c'.functionKw = f c.functionKw
  left : c'.left = f c.left
  right : c'.right = f c.right
  bodyLeft : c'.bodyLeft = f c.bodyLeft
  bodyRight : c'.bodyRight = f c.bodyRight

theorem readConstructor_compact {name : Nat} (hlimit : limit ≤ s.size) (hname : s.IsCode name) :
    Agree s.rank (Constructor.Moved s.rank) (readConstructor s limit i name)
      (readConstructor s.compact (s.rank limit) (s.rank i) (s.rank name)) := by
  rw [readConstructor, readConstructor, followedBy?_compact hname]
  cases hleft : s.followedBy? name .leftParen with
  | none => simp [Agree, InjectError.relocate, Span.relocate, rank_code hname]
  | some left =>
    have hleftCode := isCode_followedBy? hleft
    simp only [map_some, close_compact hleftCode]
    cases hright : s.matchingClose? left with
    | none => simp [Agree, InjectError.relocate, Span.relocate, rank_code hleftCode]
    | some right =>
      simp only [map_some, ← rank_code (isCode_of_close hright), signatureEnd_compact hlimit]
      by_cases hstop : signatureEnd s limit (right + 1) < limit
      · have hcode := isCode_signatureEnd hstop
        have hstop' := (rank_lt_iff hcode).mpr hstop
        simp only [hcode.hasKind_compact, close_compact hcode, hstop, hstop', decide_true, Bool.true_and, if_true]
        split
        · cases s.matchingClose? (signatureEnd s limit (right + 1)) with
          | none => simp [Agree, InjectError.relocate, Span.relocate, rank_code hcode]
          | some bodyRight => exact ⟨rfl, rfl, rfl, rfl, rfl⟩
        · simp [Agree, InjectError.relocate, Span.relocate, rank_code hcode]
      · simp only [hstop, not_rank_lt hstop, decide_false, Bool.false_and, Bool.false_eq_true, if_false]
        rfl

/-! ## §4. The members. -/

/-- The members are the same, with the tokens of the constructor at places moved by `f`. -/
structure Members.Moved (f : Nat → Nat) (m m' : Members) : Prop where
  properties : m'.properties = m.properties
  ctor : Option.Rel (Constructor.Moved f) m.ctor m'.ctor

theorem membersFrom_kind? (hi : i < cls.right) (hk : s.kind? i = some k) :
    membersFrom s cls found i
      = if k = .variableName then
          membersFrom s cls { found with properties := found.properties ++ [variableText s i] } (i + 1)
        else if k = .keyword .functionKw && found.ctor.isNone then
          match constructorName? s i with
          | none => membersFrom s cls found (i + 1)
          | some name => do
            let c ← readConstructor s cls.right i name
            membersFrom s cls { found with ctor := some c } (c.bodyRight + 1)
        else if k.isOpener then
          match s.matchingClose? i with
          | none => .error (.unbalancedClassBody cls.left)
          | some close => membersFrom s cls found (close + 1)
        else membersFrom s cls found (i + 1) := by
  rw [membersFrom, if_pos hi]
  split
  · simp_all
  · rename_i k' hk'
    rw [hk, some.injEq] at hk'
    subst hk'
    split
    · rfl
    · split
      · split
        · simp only [*]
        · rename_i name hname
          simp only [hname]
          split
          · rename_i e he
            rw [he]
            rfl
          · rename_i c hc
            rw [hc]
            rfl
      · split
        · split <;> simp only [*]
        · rfl

theorem membersFrom_trivia (hi : i < cls.right) (ht : s.get? i = some t)
    (htriv : t.isTrivia) : membersFrom s cls found i = membersFrom s cls found (i + 1) := by
  have hkind : t.kind ≠ .variableName ∧ t.kind ≠ .keyword .functionKw ∧ t.kind.isOpener = false := by
    rw [Token.isTrivia] at htriv
    cases hk : t.kind <;> simp_all [Kind.isTrivia, Kind.isOpener, Kind.closer?]
  rw [membersFrom_kind? hi (kind?_get? ht), if_neg hkind.1, decide_eq_false hkind.2.1, Bool.false_and,
    if_neg Bool.false_ne_true, hkind.2.2, if_neg Bool.false_ne_true]

theorem variableText_compact (hi : s.IsCode i) : variableText s.compact (s.rank i) = variableText s i := by
  rw [variableText, hi.text_compact, variableText]

theorem membersFrom_compact {cls' : ClassBody} (hcls : ClassBody.Moved s.rank cls cls') (hsize : cls.right ≤ s.size)
    (i : Nat) : ∀ found found', Members.Moved s.rank found found' →
      Agree s.rank (Members.Moved s.rank) (membersFrom s cls found i) (membersFrom s.compact cls' found' (s.rank i)) := by
  have done : ∀ i, ¬ i < cls.right → ∀ found found', Members.Moved s.rank found found' →
      Agree s.rank (Members.Moved s.rank) (membersFrom s cls found i) (membersFrom s.compact cls' found' (s.rank i)) := by
    intro i hi found found' hfound
    rw [membersFrom, if_neg hi, membersFrom, if_neg (hcls.right ▸ not_rank_lt hi)]
    exact hfound
  induction i using position_induction s with
  | atEnd i hi => exact done i (by omega)
  | trivia i t ht htriv ih =>
    by_cases hi : i < cls.right
    · intro found found' hfound
      rw [← rank_of_trivia ht htriv, membersFrom_trivia hi ht htriv]
      exact ih found found' hfound
    · exact done i hi
  | code i t ht hsig ih =>
    by_cases hi : i < cls.right
    · intro found found' hfound
      have hcode : s.IsCode i := ⟨t, ht, hsig⟩
      have hnext := ih (i + 1) i.lt_succ_self
      have hi' : s.rank i < cls'.right := hcls.right ▸ (rank_lt_iff hcode).mpr hi
      have hctor : found'.ctor.isNone = found.ctor.isNone :=
        match found.ctor, found'.ctor, hfound.ctor with
        | _, _, .none => rfl
        | _, _, .some _ => rfl
      rw [membersFrom_kind? hi (kind?_get? ht), membersFrom_kind? hi' (kind?_get? (get?_compact ht hsig)),
        variableText_compact hcode, hctor, constructorName?_compact hcode, close_compact hcode,
        ← rank_code hcode]
      split
      · exact hnext _ _ ⟨by rw [hfound.properties], hfound.ctor⟩
      · split
        · cases hname : constructorName? s i with
          | none => exact hnext _ _ hfound
          | some name =>
            simp only [map_some, hcls.right]
            refine (readConstructor_compact hsize (isCode_of_constructorName? hname)).bind fun c c' hc hmoved => ?_
            have hlt := lt_constructorName? hname
            have hbody := lt_bodyRight_of_read hc
            have hright := isCode_of_close (wellBracketed_read hc).body
            rw [hmoved.bodyRight, ← rank_code hright]
            exact ih (c.bodyRight + 1) (by omega) _ _ ⟨hfound.properties, .some hmoved⟩
        · split
          · cases hclose : s.matchingClose? i with
            | none => exact congrArg InjectError.unbalancedClassBody hcls.left
            | some close =>
              have hlt := (lt_close hclose).1
              simp only [map_some, ← rank_code (isCode_of_close hclose)]
              exact ih (close + 1) (by omega) _ _ hfound
          · exact hnext _ _ hfound
    · exact done i hi

theorem members_compact {cls' : ClassBody} (hcls : ClassBody.Moved s.rank cls cls') (hleft : s.IsCode cls.left)
    (hsize : cls.right ≤ s.size) : Agree s.rank (Members.Moved s.rank) (members s cls) (members s.compact cls') := by
  rw [members, members, hcls.left, ← rank_code hleft]
  exact membersFrom_compact hcls hsize (cls.left + 1) _ _ ⟨rfl, .none⟩

end MageUplift.Wiring
