import MageUplift.Proofs.CallShape
import MageUplift.Proofs.EditBatch
import MageUplift.Wiring.Injection

/-!
# Where collaborators are injected

The injector reads the class of a file before it writes anything: the braces of the class, its first
constructor, the parameters of that constructor. All it writes are insertions, and there are three
places for them: the top of the class, the parameter list of the constructor, and the body of the
constructor (`InjectionPoint`).

Insertions never overlap, and each place lies between two brackets that belong together, so the
insertions can always be applied.
-/

namespace MageUplift

open List Option

variable {c : Constructor} {m : Members} {p : Parameter} {e : Edit Token} {i stop left start : Nat}

theorem exists_of_bind_ok {ε α β : Type} {x : Except ε α} {f : α → Except ε β} {b : β}
    (h : x >>= f = .ok b) : ∃ a, x = .ok a ∧ f a = .ok b := by
  cases x with
  | error e => cases h
  | ok a => exact ⟨a, rfl, h⟩

theorem of_any_ok {ε α : Type} {x : Except ε α} {p : α → Bool} (h : x.toOption.any p) : ∃ a, x = .ok a ∧ p a := by
  cases x with
  | error e => cases h
  | ok a => exact ⟨a, rfl, h⟩

theorem exists_eq_singleton {α : Type} {as : List α} {p : α → Bool} (h : (as.length == 1 && as.all p)) :
    ∃ a, as = [a] ∧ p a := by
  rw [Bool.and_eq_true, beq_iff_eq, length_eq_one_iff] at h
  obtain ⟨⟨a, rfl⟩, hall⟩ := h
  exact ⟨a, rfl, all_eq_true.mp hall a mem_cons_self⟩

namespace Wiring

open Php TokenStream

variable {s : TokenStream} {indent : String} {r : Requirements} {edits : List (Edit Token)} {cls : ClassBody}

/-! ## §1. The constructor of a class. -/

/-- The stream has a class with a constructor, and the constructor passes a test. -/
def hasConstructor (s : TokenStream) (p : Constructor → Bool) : Bool :=
  (classBody s).toOption.any fun cls => (members s cls).toOption.any fun m => m.ctor.any p

theorem of_hasConstructor {p : Constructor → Bool} (h : hasConstructor s p) :
    ∃ cls m c, classBody s = .ok cls ∧ members s cls = .ok m ∧ m.ctor = some c ∧ p c := by
  obtain ⟨cls, hcls, h⟩ := of_any_ok h
  obtain ⟨m, hm, h⟩ := of_any_ok h
  obtain ⟨c, hc, h⟩ := (any_eq_true _ _).mp h
  exact ⟨cls, m, c, hcls, hm, hc, h⟩

theorem readConstructor_iff {limit name : Nat} : readConstructor s limit i name = .ok c ↔
    s.followedBy? name .leftParen = some c.left ∧ s.matchingClose? c.left = some c.right
      ∧ signatureEnd s limit (c.right + 1) = c.bodyLeft ∧ c.bodyLeft < limit ∧ s.hasKind c.bodyLeft .leftBrace
      ∧ s.matchingClose? c.bodyLeft = some c.bodyRight ∧ c.functionKw = i ∧ c.indent = lineIndent s i := by
  rw [readConstructor]
  constructor
  · intro h
    split at h
    · cases h
    · rename_i left hleft
      split at h
      · cases h
      · rename_i right hright
        dsimp only at h
        split at h
        · rename_i hstop
          rw [Bool.and_eq_true, decide_eq_true_eq] at hstop
          split at h
          · cases h
          · rename_i bodyRight hbody
            cases h
            exact ⟨hleft, hright, rfl, hstop.1, hstop.2, hbody, rfl, rfl⟩
        · split at h <;> cases h
  · rintro ⟨hleft, hright, hend, hlt, hbrace, hbody, hfun, hind⟩
    simp only [hleft, hright, hend, hlt, hbrace, hbody, decide_true, Bool.and_self, if_true]
    rw [← hind, ← hfun]

/-- The brackets of a constructor belong together, and its indentation is that of a line. -/
structure Constructor.WellBracketed (s : TokenStream) (c : Constructor) : Prop where
  parameters : s.matchingClose? c.left = some c.right
  body : s.matchingClose? c.bodyLeft = some c.bodyRight
  isBrace : s.kind? c.bodyLeft = some .leftBrace
  indented : ∃ i, c.indent = lineIndent s i

theorem wellBracketed_read {limit name : Nat} (h : readConstructor s limit i name = .ok c) : c.WellBracketed s := by
  obtain ⟨-, hright, -, -, hbrace, hbody, -, hind⟩ := readConstructor_iff.mp h
  exact ⟨hright, hbody, eq_of_beq hbrace, i, hind⟩

theorem membersFrom_read {found : Members}
    (h : membersFrom s cls found i = .ok m) (hc : m.ctor = some c) : found.ctor = some c
      ∨ ∃ j name, i ≤ j ∧ constructorName? s j = some name ∧ readConstructor s cls.right j name = .ok c := by
  have later : ∀ {i i' : Nat}, i ≤ i' →
      (∃ j name, i' ≤ j ∧ constructorName? s j = some name ∧ readConstructor s cls.right j name = .ok c) →
      ∃ j name, i ≤ j ∧ constructorName? s j = some name ∧ readConstructor s cls.right j name = .ok c := by
    rintro i i' hle ⟨j, name, hj, hread⟩
    exact ⟨j, name, Nat.le_trans hle hj, hread⟩
  fun_induction membersFrom s cls found i with
  | case1 found i hi hk =>
    cases h
    exact .inl hc
  | case2 found i hi hk ih => exact (ih h).imp id (later i.le_succ)
  | case3 found i hi k hk hvar hfun hname ih => exact (ih h).imp id (later i.le_succ)
  | case4 found i hi k hk hvar hfun name hname e he => cases h
  | case5 found i hi k hk hvar hfun name hname c' hc' ih =>
    rcases ih h with heq | hlater
    · cases heq
      exact .inr ⟨i, name, Nat.le_refl i, hname, hc'⟩
    · have h₁ := lt_constructorName? hname
      have h₂ := lt_bodyRight_of_read hc'
      exact .inr (later (by omega) hlater)
  | case6 found i hi k hk hvar hfun hopen hclose => cases h
  | case7 found i hi k hk hvar hfun hopen close hclose ih =>
    have := lt_close hclose
    exact (ih h).imp id (later (by omega))
  | case8 found i hi k hk hvar hfun hopen ih => exact (ih h).imp id (later i.le_succ)
  | case9 found i hi =>
    cases h
    exact .inl hc

theorem members_ctor (h : members s cls = .ok m) (hc : m.ctor = some c) : c.WellBracketed s := by
  rcases membersFrom_read h hc with hnone | ⟨j, name, -, -, hread⟩
  · cases hnone
  · exact wellBracketed_read hread

theorem bodyLeft?_iff : bodyLeft? s i = some left ↔
    i ≤ left ∧ s.kind? left = some .leftBrace
      ∧ ∀ m, i ≤ m → m < left → ∃ k, s.kind? m = some k ∧ isHeaderKind k := by
  have hkind : ∀ {i : Nat} (hi : i < s.tokens.size), s.kind? i = some s.tokens[i].kind := fun hi =>
    kind?_get? (Array.getElem?_eq_getElem hi)
  fun_induction bodyLeft? s i with
  | case1 i hi k hk =>
    have hbrace : s.kind? i = some .leftBrace := (hkind hi).trans (congrArg some hk)
    constructor
    · intro h
      cases h
      exact ⟨Nat.le_refl _, hbrace, fun m h₁ h₂ => by omega⟩
    · rintro ⟨hle, -, hheader⟩
      obtain rfl | hlt := Nat.eq_or_lt_of_le hle
      · rfl
      · obtain ⟨k', hk', hisHeader⟩ := hheader i (Nat.le_refl i) hlt
        cases hbrace.symm.trans hk'
        cases hisHeader
  | case2 i hi k hk hisHeader ih =>
    refine ih.trans ⟨?_, ?_⟩
    · rintro ⟨hle, hbrace, hheader⟩
      refine ⟨by omega, hbrace, fun m h₁ h₂ => ?_⟩
      obtain rfl | hlt := Nat.eq_or_lt_of_le h₁
      · exact ⟨k, hkind hi, hisHeader⟩
      · exact hheader m hlt h₂
    · rintro ⟨hle, hbrace, hheader⟩
      obtain rfl | hlt := Nat.eq_or_lt_of_le hle
      · exact absurd (some.inj ((hkind hi).symm.trans hbrace)) hk
      · exact ⟨hlt, hbrace, fun m h₁ h₂ => hheader m (by omega) h₂⟩
  | case3 i hi k hk hisHeader =>
    refine iff_of_false (by simp) ?_
    rintro ⟨hle, hbrace, hheader⟩
    obtain rfl | hlt := Nat.eq_or_lt_of_le hle
    · exact hk (some.inj ((hkind hi).symm.trans hbrace))
    · obtain ⟨k', hk', hisHeader'⟩ := hheader i (Nat.le_refl i) hlt
      cases (hkind hi).symm.trans hk'
      exact hisHeader hisHeader'
  | case4 i hi =>
    refine iff_of_false (by simp) ?_
    rintro ⟨hle, hbrace, -⟩
    have := lt_kind? hbrace
    exact hi (Nat.lt_of_le_of_lt hle this)

theorem classBody_eq_ok_iff : classBody s = .ok cls ↔ ∃ keyword name, classKeyword? s = some keyword
    ∧ s.nextSignificant? (keyword + 1) = some name ∧ bodyLeft? s (name + 1) = some cls.left
    ∧ s.matchingClose? cls.left = some cls.right ∧ cls.indent = lineIndent s keyword := by
  rw [classBody]
  constructor
  · intro h
    split at h
    · cases h
    · rename_i keyword hkw
      split at h
      · cases h
      · rename_i left hleft
        split at h
        · cases h
        · cases h
          obtain ⟨name, hname, hbody⟩ := bind_eq_some_iff.mp hleft
          exact ⟨keyword, name, hkw, hname, hbody, ‹_›, rfl⟩
  · rintro ⟨keyword, name, hkw, hname, hbody, hright, hind⟩
    simp only [hkw, hname, bind_some, hbody, hright]
    rw [← hind]

theorem classBody_spec (h : classBody s = .ok cls) : s.matchingClose? cls.left = some cls.right := by
  obtain ⟨-, -, -, -, -, hright, -⟩ := classBody_eq_ok_iff.mp h
  exact hright

theorem classBody_indented (h : classBody s = .ok cls) : ∃ i, cls.indent = lineIndent s i := by
  obtain ⟨keyword, -, -, -, -, -, hind⟩ := classBody_eq_ok_iff.mp h
  exact ⟨keyword, hind⟩

/-! ## §2. Its parameters. -/

theorem parameter?_spec (h : parameter? s start stop = some p) :
    s.nextSignificant? start = some p.first ∧ s.prevSignificant? stop = some p.last ∧ p.first ≤ p.last
      ∧ p.facts = parameterFacts s p.last {} p.first := by
  unfold parameter? at h
  obtain ⟨first, hfst, h⟩ := bind_eq_some_iff.mp h
  obtain ⟨last, hlast, h⟩ := bind_eq_some_iff.mp h
  cases h
  rw [filter_eq_some_iff] at hfst hlast
  exact ⟨hfst.1, hlast.1, by simpa using hlast.2, rfl⟩

theorem parameter?_bounds
    (h : parameter? s start stop = some p) : start ≤ p.first ∧ p.first ≤ p.last ∧ p.last < stop := by
  obtain ⟨hfst, hlast, hle, -⟩ := parameter?_spec h
  exact ⟨le_of_findFrom? hfst, hle, lt_of_prev hlast⟩

/-- From `start` to `i` there are plain tokens other than commas, and brackets with what they enclose. -/
inductive Uncut (s : TokenStream) (start : Nat) : Nat → Prop
  | nil : Uncut s start start
  | plain {i : Nat} {k : Kind} (front : Uncut s start i) (kind : s.kind? i = some k) (isPlain : k.isPlain = true)
    (ne : k ≠ .comma) : Uncut s start (i + 1)
  | bracket {i close : Nat} (front : Uncut s start i) (closes : s.matchingClose? i = some close) :
      Uncut s start (close + 1)

/-- The parameters from `start` on, and the comma behind the last of them: the list is cut at its commas, and what holds
only trivia is no parameter. -/
inductive ListedFrom (s : TokenStream) (left right : Nat) : Nat → List Parameter → Option Nat → Prop
  | comma {start i : Nat} {ps : List Parameter} {trailing : Option Nat} (item : Uncut s start i) (lt : i < right)
    (kind : s.kind? i = some .comma) (rest : ListedFrom s left right (i + 1) ps trailing) :
    ListedFrom s left right start ((parameter? s start i).toList ++ ps) trailing
  | last {start : Nat} {p : Parameter} (item : Uncut s start right) (here : parameter? s start right = some p) :
    ListedFrom s left right start [p] none
  | empty {start : Nat} (item : Uncut s start right) (nothing : parameter? s start right = none) :
    ListedFrom s left right start [] (if left + 1 < start then some (start - 1) else none)

/-- From `a` to `b` there is an item of the list that goes from `start` to `right`: it begins with the list or behind a
comma, and ends with the list or before a comma. -/
structure IsItem (s : TokenStream) (start right a b : Nat) : Prop where
  begins : a = start ∨ ∃ comma, a = comma + 1 ∧ start ≤ comma ∧ s.kind? comma = some .comma
    ∧ Balanced (s.kindsIn start comma)
  ends : b = right ∨ b < right ∧ s.kind? b = some .comma

section

variable {left right start i a b : Nat} {ps : List Parameter} {trailing : Option Nat}

theorem Uncut.le (h : Uncut s start i) : start ≤ i := by
  induction h with
  | nil => exact Nat.le_refl start
  | plain front kind isPlain ne ih => omega
  | bracket front closes ih =>
    have := lt_close closes
    omega

theorem Uncut.balanced (h : Uncut s start i) : Balanced (s.kindsIn start i) := by
  induction h with
  | nil =>
    rw [kindsIn_self]
    exact balanced_nil
  | plain front kind isPlain ne ih =>
    rw [kindsIn_snoc kind front.le]
    exact ih.append (balanced_nil.cons_plain isPlain)
  | bracket front closes ih =>
    have hlt := (lt_close closes).1
    rw [kindsIn_append s front.le (by omega)]
    exact ih.append (Call.balanced_behind closes (Nat.lt_succ_self _)).1

theorem IsItem.behind (h : IsItem s (i + 1) right a b) (item : Uncut s start i) (kind : s.kind? i = some .comma) :
    IsItem s start right a b := by
  refine ⟨.inr ?_, h.ends⟩
  obtain rfl | ⟨comma, rfl, hle, hk, hbal⟩ := h.begins
  · exact ⟨i, rfl, item.le, kind, item.balanced⟩
  · have hi := item.le
    refine ⟨comma, rfl, by omega, hk, ?_⟩
    rw [kindsIn_append s hi (by omega), kindsIn_cons kind (by omega)]
    exact item.balanced.append (hbal.cons_plain rfl)

/-- **The parameters that are read from `i` on**, where the current one begins at `start`. -/
theorem readParameters_listed (hright : right ≤ s.size) (hi : i ≤ right) (item : Uncut s start i)
    (hbal : Balanced (s.kindsIn i right)) :
    ListedFrom s left right start (readParameters s left right start i).1 (readParameters s left right start i).2 := by
  fun_induction readParameters s left right start i with
  | case1 start i hlt hnone =>
    obtain ⟨t, ht⟩ := get?_of_lt (Nat.lt_of_lt_of_le hlt hright)
    rw [kind?_get? ht] at hnone
    cases hnone
  | case2 start i hlt rest hk ih => exact .comma item hlt hk (ih hlt .nil (Call.balanced_tail hk hlt rfl hbal))
  | case3 start i hlt k hk hcomma hopen hnone ih =>
    obtain ⟨close, hclose, -⟩ := Call.close_of_isOpener hright hlt hbal hk hopen
    rw [hnone] at hclose
    cases hclose
  | case4 start i hlt k hk hcomma hopen close hclose ih =>
    have hds := Call.close_lt_balanced hright hlt hbal hclose
    exact ih hds (.bracket item hclose) ((Call.balanced_behind hclose hds).2 hbal)
  | case5 start i hlt k hk hcomma hopen ih =>
    have hplain := Call.isPlain_balanced hk hlt hbal hopen
    exact ih hlt (.plain item hk hplain hcomma) (Call.balanced_tail hk hlt hplain hbal)
  | case6 start hle p hp => exact .last item hp
  | case7 start hle hp => exact .empty item hp
  | case8 start i hle hne => omega

theorem parameterList_listed (hlist : s.matchingClose? c.left = some c.right) :
    ListedFrom s c.left c.right (c.left + 1) (parameterList s c).parameters (parameterList s c).trailingComma := by
  obtain ⟨-, -, hlt, -, hbal⟩ := close_iff.mp hlist
  exact readParameters_listed (Nat.le_of_lt (lt_close hlist).2) hlt .nil hbal

namespace ListedFrom

theorem split (h : ListedFrom s left right start ps trailing) {front behind : List Parameter}
    (hps : ps = front ++ p :: behind) : ∃ a b, IsItem s start right a b ∧ parameter? s a b = some p
      ∧ ListedFrom s left right a (p :: behind) trailing := by
  induction h generalizing front with
  | @comma start i ps trailing item lt kind rest ih =>
    have hbehind : ∀ {front}, ps = front ++ p :: behind → ∃ a b, IsItem s start right a b ∧ parameter? s a b = some p
        ∧ ListedFrom s left right a (p :: behind) trailing := by
      intro front hps
      obtain ⟨a, b, hitem, hp, hlisted⟩ := ih hps
      exact ⟨a, b, hitem.behind item kind, hp, hlisted⟩
    cases hp : parameter? s start i with
    | none =>
      rw [hp] at hps
      exact hbehind hps
    | some q =>
      rw [hp] at hps
      cases front with
      | nil =>
        cases hps
        have hlisted := ListedFrom.comma item lt kind rest
        rw [hp] at hlisted
        exact ⟨start, i, ⟨.inl rfl, .inr ⟨lt, kind⟩⟩, hp, hlisted⟩
      | cons first front => exact hbehind (cons.inj hps).2
  | last item here =>
    cases front with
    | nil =>
      cases hps
      exact ⟨_, right, ⟨.inl rfl, .inl rfl⟩, here, .last item here⟩
    | cons first front => cases front <;> cases hps
  | empty => cases front <;> cases hps

theorem of_mem (h : ListedFrom s left right start ps trailing) (hp : p ∈ ps) :
    ∃ a b, IsItem s start right a b ∧ parameter? s a b = some p := by
  obtain ⟨front, behind, hps⟩ := append_of_mem hp
  obtain ⟨a, b, hitem, hp, -⟩ := h.split hps
  exact ⟨a, b, hitem, hp⟩

theorem behind_trailing {comma : Nat} (h : ListedFrom s left right start ps (some comma)) (hstart : left < start) :
    left < comma ∧ comma < right ∧ IsItem s start right (comma + 1) right ∧ parameter? s (comma + 1) right = none := by
  generalize htrail : some comma = trailing at h
  induction h with
  | comma item lt kind rest ih =>
    have := item.le
    obtain ⟨hleft, hright, hitem, hnone⟩ := ih (by omega) htrail
    exact ⟨hleft, hright, hitem.behind item kind, hnone⟩
  | last => cases htrail
  | empty item hnone =>
    have := item.le
    split at htrail
    · cases htrail
      rw [Nat.sub_add_cancel (by omega)]
      exact ⟨by omega, by omega, ⟨.inl rfl, .inl rfl⟩, hnone⟩
    · cases htrail

theorem last_item (h : ListedFrom s left right start ps none) (hstart : left < start) :
    (left + 1 < start → ps ≠ []) ∧ ∀ p, ps.getLast? = some p → ∃ a, parameter? s a right = some p := by
  generalize htrail : none = trailing at h
  induction h with
  | comma item lt kind rest ih =>
    have := item.le
    obtain ⟨hne, hlast⟩ := ih (by omega) htrail
    have hps := hne (by omega)
    refine ⟨fun _ => by simp [hps], fun p hp => hlast p ?_⟩
    rwa [getLast?_append, or_of_isSome (by simp [hps])] at hp
  | last item here =>
    refine ⟨fun _ => cons_ne_nil _ [], fun p hp => ?_⟩
    cases hp
    exact ⟨_, here⟩
  | empty =>
    refine ⟨fun hlt => ?_, fun p hp => by cases hp⟩
    rw [if_pos hlt] at htrail
    cases htrail

theorem of_nil (h : ListedFrom s left right start [] trailing) :
    ∃ b, start ≤ b ∧ IsItem s start right start b ∧ parameter? s start b = none := by
  generalize hnil : [] = ps at h
  cases h with
  | comma item lt kind rest =>
    obtain ⟨hnone, -⟩ := append_eq_nil_iff.mp hnil.symm
    exact ⟨_, item.le, ⟨.inl rfl, .inr ⟨lt, kind⟩⟩, by simpa using hnone⟩
  | last => cases hnil
  | empty item hnone => exact ⟨right, item.le, ⟨.inl rfl, .inl rfl⟩, hnone⟩

end ListedFrom

end

theorem parameterList_bounds (hlist : s.matchingClose? c.left = some c.right) :
    (∀ p ∈ (parameterList s c).parameters, c.left < p.first ∧ p.first ≤ p.last ∧ p.last < c.right)
      ∧ ∀ comma, (parameterList s c).trailingComma = some comma → c.left < comma ∧ comma < c.right := by
  have hlisted := parameterList_listed hlist
  refine ⟨fun p hp => ?_, fun comma hcomma => ?_⟩
  · obtain ⟨a, b, hitem, hp⟩ := hlisted.of_mem hp
    have := parameter?_bounds hp
    have hleft : c.left < a := hitem.begins.elim (by omega) fun ⟨comma, ha, hle, _⟩ => by omega
    have hright : b ≤ c.right := hitem.ends.elim (by omega) fun ⟨hlt, _⟩ => by omega
    omega
  · obtain ⟨hleft, hright, -⟩ := (hcomma ▸ hlisted).behind_trailing (Nat.lt_succ_self _)
    exact ⟨hleft, hright⟩

/-! ## §3. The spots for new code. -/

theorem parentCall_spec {call : Nat} (h : parentCallFrom? s stop i = some call) :
    i ≤ call ∧ call < stop ∧ isParentCall s call := by
  fun_induction parentCallFrom? s stop i with
  | case1 | case2 | case6 => cases h
  | case3 i hi k hk hopen close hclose ih =>
    have := lt_close hclose
    exact ⟨by have := (ih h).1; omega, (ih h).2⟩
  | case4 i hi k hk hopen hcall =>
    cases h
    exact ⟨Nat.le_refl _, hi, hcall⟩
  | case5 i hi k hk hopen hcall ih => exact ⟨Nat.le_of_succ_le (ih h).1, (ih h).2⟩

theorem isWord_parentCall (h : isParentCall s i) :
    ∃ t, s.get? i = some t ∧ t.isWord "parent" ∧ (s.followedBy? i .doubleColon).isSome := by
  rw [isParentCall, Bool.and_eq_true, Option.any_eq_true, Option.any_eq_true] at h
  obtain ⟨⟨t, ht, hword⟩, u, hu, -⟩ := h
  obtain ⟨colons, hcolons, -⟩ := bind_eq_some_iff.mp hu
  exact ⟨t, ht, hword, by rw [hcolons]; rfl⟩

theorem trailing_bounds (s : TokenStream) : ∀ {i : Nat}, left < i →
    left < trailingBlankStart s left i ∧ trailingBlankStart s left i ≤ i
  | i + 1, hi => by
    rw [trailingBlankStart]
    split
    · rename_i hblank
      rw [Bool.and_eq_true, decide_eq_true_eq] at hblank
      have := trailing_bounds s hblank.1
      omega
    · exact ⟨hi, Nat.le_refl _⟩

theorem parameterSpot_bounds (hc : c.WellBracketed s) (indent : String) (new : List String) :
    c.left < (parameterInsertion s indent c (parameterList s c) new).1
      ∧ (parameterInsertion s indent c (parameterList s c) new).1 ≤ c.right := by
  have hlt := lt_close hc.parameters
  obtain ⟨hparams, hcomma⟩ := parameterList_bounds hc.parameters
  unfold parameterInsertion
  dsimp only
  split
  · rename_i boundary hbound
    have := hparams boundary (mem_of_find?_eq_some hbound)
    exact ⟨this.1, by show boundary.first ≤ _; omega⟩
  · split
    · rename_i comma _ htrail
      have := hcomma comma htrail
      exact ⟨by show c.left < comma + 1; omega, this.2⟩
    · rename_i last hlast _
      have := hparams last (mem_of_getLast? hlast)
      exact ⟨by show c.left < last.last + 1; omega, this.2.2⟩
    · exact ⟨Nat.lt_succ_self _, by show c.left + 1 ≤ _; omega⟩

theorem assignment_bounds (hc : c.WellBracketed s) (indent : String) (new : List Call.Collaborator) :
    c.bodyLeft < (assignmentInsertion s indent c new).1 ∧ (assignmentInsertion s indent c new).1 ≤ c.bodyRight := by
  have hlt := lt_close hc.body
  unfold assignmentInsertion
  dsimp only
  split
  · rename_i call hcall
    have := parentCall_spec hcall
    exact ⟨this.1, by show call ≤ _; omega⟩
  · exact trailing_bounds s hlt.1

/-! ## §4. The insertions of the injector. -/

theorem mem_insertCode {α : Type} {new : List α} {place : List α → Nat × String}
    (h : e ∈ insertCode new place) : e = .insert (place new).1 (lexFragment (place new).2) ∧ new ≠ [] := by
  unfold insertCode at h
  split at h
  · cases h
  · rename_i hne
    exact ⟨mem_singleton.mp h, fun hnil => hne (hnil ▸ rfl)⟩

def headerInsertion (cls : ClassBody) (header : String) : List (Edit Token) :=
  if header.isEmpty then [] else [.insert (cls.left + 1) (lexFragment header)]

theorem mem_headerInsertion {header : String} (h : e ∈ headerInsertion cls header) :
    e = .insert (cls.left + 1) (lexFragment header) ∧ header.isEmpty = false := by
  unfold headerInsertion at h
  split at h
  · cases h
  · rename_i hne
    exact ⟨mem_singleton.mp h, Bool.not_eq_true _ ▸ hne⟩

def undeclared (s : TokenStream) (m : Members) (r : Requirements) : List Call.Collaborator :=
  r.entries.filter fun v =>
    !(m.properties ++ ((m.ctor.map (parameterList s)).map ParameterList.promotedNames).getD []).contains v.name

def missingParameters (list : ParameterList) (r : Requirements) : List Call.Collaborator :=
  r.entries.filter fun v => !list.names.contains v.name

def unassigned (s : TokenStream) (c : Constructor) (r : Requirements) : List Call.Collaborator :=
  r.entries.filter fun v => !(parameterList s c).promotedNames.contains v.name
    && !(assignedProperties s c).contains v.name

def missingProperties (s : TokenStream) (indent : String) (m : Members) (r : Requirements) : String :=
  String.join ((undeclared s m r).map (propertyCode indent))

theorem inject_of_isEmpty (hr : r.isEmpty) (s : TokenStream) (indent : String) : inject s indent r = .ok [] := by
  unfold inject
  rw [if_pos hr]
  rfl

section

variable (hr : r.isEmpty = false) (h : inject s indent r = .ok edits)

include hr h

theorem inject_cases :
    ∃ cls m, classBody s = .ok cls ∧ members s cls = .ok m
      ∧ (m.ctor = none ∧ edits = headerInsertion cls (missingProperties s (cls.indent ++ indent) m r
            ++ constructorCode (cls.indent ++ indent) (cls.indent ++ indent ++ indent) r.entries)
        ∨ ∃ c, m.ctor = some c ∧ edits = extendConstructor s indent c (parameterList s c) r
            ++ headerInsertion cls (missingProperties s (cls.indent ++ indent) m r)) := by
  unfold inject at h
  rw [if_neg (by simp [hr])] at h
  obtain ⟨cls, hcls, h⟩ := exists_of_bind_ok h
  obtain ⟨m, hm, h⟩ := exists_of_bind_ok h
  refine ⟨cls, m, hcls, hm, ?_⟩
  unfold missingProperties undeclared
  cases hctor : m.ctor with
  | none =>
    rw [hctor] at h
    cases h
    exact .inl ⟨rfl, rfl⟩
  | some c =>
    rw [hctor] at h
    cases h
    exact .inr ⟨c, rfl, rfl⟩

theorem inject_of_none (hcls : classBody s = .ok cls) (hm : members s cls = .ok m) (hnone : m.ctor = none) :
    edits = headerInsertion cls (missingProperties s (cls.indent ++ indent) m r
      ++ constructorCode (cls.indent ++ indent) (cls.indent ++ indent ++ indent) r.entries) := by
  obtain ⟨cls', m', hcls', hm', hcases⟩ := inject_cases hr h
  cases hcls.symm.trans hcls'
  cases hm.symm.trans hm'
  obtain ⟨-, hedits⟩ | ⟨c, hc, -⟩ := hcases
  · exact hedits
  · rw [hnone] at hc
    cases hc

theorem inject_of_some (hcls : classBody s = .ok cls) (hm : members s cls = .ok m) (hc : m.ctor = some c) :
    edits = extendConstructor s indent c (parameterList s c) r
      ++ headerInsertion cls (missingProperties s (cls.indent ++ indent) m r) := by
  obtain ⟨cls', m', hcls', hm', hcases⟩ := inject_cases hr h
  cases hcls.symm.trans hcls'
  cases hm.symm.trans hm'
  obtain ⟨hnone, -⟩ | ⟨c', hc', hedits⟩ := hcases
  · rw [hc] at hnone
    cases hnone
  · cases hc.symm.trans hc'
    exact hedits

end

inductive InjectedEdit (s : TokenStream) (indent : String) (r : Requirements) : Edit Token → Prop where
  | constructor {cls : ClassBody} {m : Members} (hcls : classBody s = .ok cls) (hm : members s cls = .ok m) :
      InjectedEdit s indent r (.insert (cls.left + 1) (lexFragment (missingProperties s (cls.indent ++ indent) m r
        ++ constructorCode (cls.indent ++ indent) (cls.indent ++ indent ++ indent) r.entries)))
  | properties {cls : ClassBody} {m : Members} (hcls : classBody s = .ok cls) (hm : members s cls = .ok m)
      (hne : undeclared s m r ≠ []) :
      InjectedEdit s indent r (.insert (cls.left + 1) (lexFragment (missingProperties s (cls.indent ++ indent) m r)))
  | parameters {cls : ClassBody} {m : Members} {c : Constructor} (hcls : classBody s = .ok cls)
      (hm : members s cls = .ok m)
      (hc : m.ctor = some c) {new : List Call.Collaborator} (hnew : new = missingParameters (parameterList s c) r)
      (hne : new ≠ []) {spot : Nat × String}
      (hspot : parameterInsertion s indent c (parameterList s c) (new.map parameterCode) = spot) :
      InjectedEdit s indent r (.insert spot.1 (lexFragment spot.2))
  | assignments {cls : ClassBody} {m : Members} {c : Constructor} (hcls : classBody s = .ok cls)
      (hm : members s cls = .ok m)
      (hc : m.ctor = some c) {new : List Call.Collaborator} (hnew : new = unassigned s c r) (hne : new ≠ [])
      {spot : Nat × String} (hspot : assignmentInsertion s indent c new = spot) :
      InjectedEdit s indent r (.insert spot.1 (lexFragment spot.2))

theorem injectedEdit_of_mem (h : inject s indent r = .ok edits) (he : e ∈ edits) : InjectedEdit s indent r e := by
  by_cases hr : r.isEmpty
  · cases (inject_of_isEmpty hr s indent).symm.trans h
    cases he
  obtain ⟨cls, m, hcls, hm, ⟨-, rfl⟩ | ⟨c, hc, rfl⟩⟩ := inject_cases (Bool.not_eq_true _ ▸ hr) h
  · obtain ⟨rfl, -⟩ := mem_headerInsertion he
    exact .constructor hcls hm
  · unfold extendConstructor at he
    rw [mem_append, mem_append] at he
    rcases he with (he | he) | he
    · obtain ⟨rfl, hne⟩ := mem_insertCode he
      exact .parameters hcls hm hc rfl (fun hnil => hne (map_eq_nil_iff.mpr hnil)) rfl
    · obtain ⟨rfl, hne⟩ := mem_insertCode he
      exact .assignments hcls hm hc rfl hne rfl
    · obtain ⟨rfl, hne⟩ := mem_headerInsertion he
      refine .properties hcls hm fun hnil => ?_
      rw [missingProperties, hnil] at hne
      cases hne

/-! ## §5. Injection points. -/

/-- The token in front of which new parameters go: the first that is optional or variadic; else they go behind the last
comma or parameter. -/
def parameterPlace (s : TokenStream) (c : Constructor) : Nat :=
  let list := parameterList s c
  match list.parameters.find? fun p => p.facts.optional || p.facts.variadic with
  | some boundary => boundary.first
  | none =>
    match list.parameters.getLast?, list.trailingComma with
    | some _, some comma => comma + 1
    | some last, none => last.last + 1
    | none, _ => c.left + 1

theorem parameterInsertion_spot (s : TokenStream) (indent : String) (c : Constructor) (new : List String) :
    (parameterInsertion s indent c (parameterList s c) new).1 = parameterPlace s c := by
  unfold parameterInsertion parameterPlace
  dsimp only
  cases (parameterList s c).parameters.find? fun p => p.facts.optional || p.facts.variadic with
  | some boundary => rfl
  | none => cases (parameterList s c).parameters.getLast? <;> cases (parameterList s c).trailingComma <;> rfl

/-- The token in front of which new assignments go. -/
def assignmentSpot (s : TokenStream) (c : Constructor) : Nat :=
  (parentCall? s c).getD (trailingBlankStart s c.bodyLeft c.bodyRight)

theorem assignment_spot (s : TokenStream) (indent : String) (c : Constructor) (new : List Call.Collaborator) :
    (assignmentInsertion s indent c new).1 = assignmentSpot s c := by
  rw [assignmentInsertion, assignmentSpot]
  dsimp only
  cases parentCall? s c <;> rfl

theorem parameterPlace_bounds (hc : c.WellBracketed s) : c.left < parameterPlace s c ∧ parameterPlace s c ≤ c.right := by
  rw [← parameterInsertion_spot s "" c []]
  exact parameterSpot_bounds hc "" []

theorem spot_bounds (hc : c.WellBracketed s) :
    c.bodyLeft < assignmentSpot s c ∧ assignmentSpot s c ≤ c.bodyRight := by
  rw [← assignment_spot s "" c []]
  exact assignment_bounds hc "" []

/-- A place where the injector may put code: the top of the class, and the places for parameters and for assignments of
its constructor. -/
inductive InjectionPoint (s : TokenStream) : Nat → Prop where
  | top {cls : ClassBody} (hcls : classBody s = .ok cls) : InjectionPoint s (cls.left + 1)
  | parameter {cls : ClassBody} {m : Members} {c : Constructor} (hcls : classBody s = .ok cls)
      (hm : members s cls = .ok m) (hc : m.ctor = some c) : InjectionPoint s (parameterPlace s c)
  | assignment {cls : ClassBody} {m : Members} {c : Constructor} (hcls : classBody s = .ok cls)
      (hm : members s cls = .ok m) (hc : m.ctor = some c) : InjectionPoint s (assignmentSpot s c)

theorem InjectionPoint.le_size {p : Nat} (h : InjectionPoint s p) : p ≤ s.size := by
  cases h with
  | top hcls =>
    have := lt_close (classBody_spec hcls)
    omega
  | parameter hcls hm hc =>
    have := parameterPlace_bounds (members_ctor hm hc)
    have := lt_close (members_ctor hm hc).parameters
    omega
  | assignment hcls hm hc =>
    have := spot_bounds (members_ctor hm hc)
    have := lt_close (members_ctor hm hc).body
    omega

theorem inject_points (h : inject s indent r = .ok edits) :
    ∀ e ∈ edits, ∃ p items, e = .insert p items ∧ InjectionPoint s p := by
  intro e he
  cases injectedEdit_of_mem h he with
  | constructor hcls | properties hcls => exact ⟨_, _, rfl, .top hcls⟩
  | parameters hcls hm hc hnew hne hspot =>
    exact ⟨_, _, rfl, hspot ▸ (parameterInsertion_spot s indent _ _).symm ▸ .parameter hcls hm hc⟩
  | assignments hcls hm hc hnew hne hspot =>
    exact ⟨_, _, rfl, hspot ▸ (assignment_spot s indent _ _).symm ▸ .assignment hcls hm hc⟩

theorem inject_insertions (h : inject s indent r = .ok edits) : ∀ e ∈ edits, e.span.isEmpty := by
  intro e he
  obtain ⟨p, items, rfl, -⟩ := inject_points h e he
  exact beq_self_eq_true p

theorem inject_fits (h : inject s indent r = .ok edits) : Edit.Fits s.size edits := by
  have hpoints := inject_points h
  refine ⟨fun e he => ?_, pairwise_of_forall_mem_list fun a ha b hb => ?_⟩
  · obtain ⟨p, items, rfl, hp⟩ := hpoints e he
    exact Span.fits_iff.mpr ⟨Nat.le_refl _, hp.le_size⟩
  · obtain ⟨p, items, rfl, -⟩ := hpoints a ha
    obtain ⟨q, items', rfl, -⟩ := hpoints b hb
    exact Nat.le_total p q

end Wiring

end MageUplift
