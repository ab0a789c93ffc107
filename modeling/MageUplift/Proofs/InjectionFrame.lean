import MageUplift.Proofs.ClassScope
import MageUplift.Proofs.LegibleCalls
import MageUplift.Proofs.ListedMembers

/-!
# When collaborators can be injected, and where they go

The injector looks for the first class of a file, and in it for the first constructor that stands in no bracket but
those of the class (`ClassHeader`, `FirstConstructor`). Either can be incomplete: the brace of the class may have no
counterpart, the constructor may lack its parameter list or its body (`FaultyConstructor`). Nothing else makes an
injection fail. Every bracket between two braces that belong together has a counterpart, so what the injector asks
about brackets inside the class is always answered.

What is inserted goes behind the brace that opens the class and not behind the one that closes it, parameters into the
parentheses of the constructor and assignments into its body. Insertions at such places can always be applied, and
leave every token of the file in its order.
-/

namespace MageUplift

open Php TokenStream List Option Bool

variable {e : InjectError} {cls : ClassBody} {left : Nat} {m : Members} {span : Span} {fault : ConstructorFault}

namespace Wiring

/-! ## §1. The header of a class. -/

/-- The header of the first class that a file declares, from its keyword to the brace that opens its body. -/
structure ClassHeader (s : TokenStream) (keyword left : Nat) : Prop where
  declares : declaresClass s keyword = true
  first : ∀ i, i < keyword → declaresClass s i = false
  named : ∃ name, s.nextSignificant? (keyword + 1) = some name ∧ name < left
    ∧ ∀ m, name < m → m < left → ∃ k, s.kind? m = some k ∧ isHeaderKind k = true
  brace : s.kind? left = some .leftBrace

section

variable {s : TokenStream} {keyword left right : Nat}

theorem classHeader_iff : ClassHeader s keyword left ↔
    classKeyword? s = some keyword
      ∧ ((s.nextSignificant? (keyword + 1)).bind fun name => bodyLeft? s (name + 1)) = some left := by
  rw [classKeyword?, find?_range_eq_some, bind_eq_some_iff]
  constructor
  · rintro ⟨declares, first, ⟨name, hname, hlt, hheader⟩, brace⟩
    have hsize := lt_kind? (kind_of_declaresClass declares)
    exact ⟨⟨declares, mem_range.mpr hsize, fun i hi => by simp [first i hi]⟩, name, hname,
      bodyLeft?_iff.mpr ⟨hlt, brace, fun m h₁ h₂ => hheader m h₁ h₂⟩⟩
  · rintro ⟨⟨declares, -, first⟩, name, hname, hbody⟩
    obtain ⟨hlt, brace, hheader⟩ := bodyLeft?_iff.mp hbody
    exact ⟨declares, fun i hi => by simpa using first i hi, ⟨name, hname, hlt, fun m h₁ h₂ => hheader m h₁ h₂⟩, brace⟩

theorem ClassHeader.classBody_closed (h : ClassHeader s keyword left) (hright : s.matchingClose? left = some right) :
    classBody s = .ok ⟨left, right, lineIndent s keyword⟩ := by
  obtain ⟨hkw, hleft⟩ := classHeader_iff.mp h
  obtain ⟨name, hname, hbody⟩ := bind_eq_some_iff.mp hleft
  exact classBody_eq_ok_iff.mpr ⟨keyword, name, hkw, hname, hbody, hright, rfl⟩

theorem ClassHeader.classBody_open (h : ClassHeader s keyword left) (hright : s.matchingClose? left = none) :
    classBody s = .error (.unbalancedClassBody left) := by
  obtain ⟨hkw, hleft⟩ := classHeader_iff.mp h
  rw [classBody, hkw]
  dsimp only
  rw [hleft]
  dsimp only
  rw [hright]

theorem classBody_of_no_header (h : ∀ keyword left, ¬ ClassHeader s keyword left) :
    classBody s = .error .classBodyNotFound := by
  rw [classBody]
  split
  · rfl
  · rename_i keyword hkw
    split
    · rfl
    · rename_i left hleft
      exact absurd (classHeader_iff.mpr ⟨hkw, hleft⟩) (h keyword left)

theorem exists_header (h : classBody s = .ok cls) :
    ∃ keyword, ClassHeader s keyword cls.left ∧ s.matchingClose? cls.left = some cls.right := by
  obtain ⟨keyword, name, hkw, hname, hbody, hright, -⟩ := classBody_eq_ok_iff.mp h
  exact ⟨keyword, classHeader_iff.mpr ⟨hkw, by rw [hname, bind_some, hbody]⟩, hright⟩

end

/-! ## §2. The first constructor. -/

/-- The place is between the braces of a class and in no other bracket. -/
structure AtMemberDepth (s : TokenStream) (left right i : Nat) : Prop where
  lt_left : left < i
  lt_right : i < right
  depth : Balanced (s.kindsIn (left + 1) i)

/-- No `function` among the members in front of `i` has the name of a constructor. -/
def NoConstructorBefore (s : TokenStream) (left right i : Nat) : Prop :=
  ∀ j, j < i → AtMemberDepth s left right j → s.kind? j = some (.keyword .functionKw) → constructorName? s j = none

/-- The first `function` among the members that has the name of a constructor, which stands at `name`. -/
structure FirstConstructor (s : TokenStream) (left right i name : Nat) : Prop where
  member : AtMemberDepth s left right i
  isFunction : s.kind? i = some (.keyword .functionKw)
  named : constructorName? s i = some name
  first : NoConstructorBefore s left right i

section

variable {s : TokenStream} {cls : ClassBody} {found : Members} {i : Nat}

theorem not_atMemberDepth_inside {close j : Nat} (hi : AtMemberDepth s cls.left cls.right i)
    (hcls : s.matchingClose? cls.left = some cls.right) (hclose : s.matchingClose? i = some close) (hij : i < j)
    (hj : j ≤ close) : ¬ AtMemberDepth s cls.left cls.right j := by
  intro h
  have hbal := h.depth
  rw [kindsIn_append s hi.lt_left hij.le] at hbal
  obtain ⟨k, hopen, -⟩ := opener_close hclose
  have hsize := (lt_close hcls).2
  have hright := h.lt_right
  obtain ⟨d, hd, hlt⟩ := exists_closer (by omega) (hbal.of_append hi.depth) le_rfl hij hopen
  cases hclose.symm.trans hd
  omega

theorem AtMemberDepth.succ {k : Kind} (h : AtMemberDepth s cls.left cls.right i)
    (hcls : s.matchingClose? cls.left = some cls.right) (hk : s.kind? i = some k) (hopen : ¬ k.isOpener) :
    Balanced (s.kindsIn (cls.left + 1) (i + 1)) := by
  have hrest : Balanced (s.kindsIn i cls.right) := by
    have hall := balanced_inside hcls
    rw [kindsIn_append s h.lt_left h.lt_right.le] at hall
    exact hall.of_append h.depth
  have hplain := Call.isPlain_balanced hk h.lt_right hrest hopen
  rw [kindsIn_snoc hk h.lt_left]
  exact h.depth.append (balanced_of_plain fun k' hk' => by rw [mem_singleton.mp hk']; exact hplain)

theorem NoConstructorBefore.succ {left right : Nat} {k : Kind} (h : NoConstructorBefore s left right i)
    (hk : s.kind? i = some k) (hname : k = .keyword .functionKw → constructorName? s i = none) :
    NoConstructorBefore s left right (i + 1) := by
  intro j hj hmem hfun
  obtain hlt | rfl := Nat.lt_succ_iff_lt_or_eq.mp hj
  · exact h j hlt hmem hfun
  · exact hname (some.inj (hk.symm.trans hfun))

theorem NoConstructorBefore.not_first {right : Nat} (h : NoConstructorBefore s left right right) (j name : Nat) :
    ¬ FirstConstructor s left right j name := by
  intro hfst
  have hnamed := hfst.named
  rw [h j hfst.member.lt_right hfst.member hfst.isFunction] at hnamed
  cases hnamed

/-- What a scan answers by the first constructor of the class: its fault, or members with that constructor, or members
with none. -/
inductive FollowsFirst (s : TokenStream) (cls : ClassBody) : Except InjectError Members → Prop where
  | faulty {j name : Nat} {e : InjectError} (first : FirstConstructor s cls.left cls.right j name)
      (read : readConstructor s cls.right j name = .error e) : FollowsFirst s cls (.error e)
  | found {j name : Nat} {c : Constructor} {m : Members} (first : FirstConstructor s cls.left cls.right j name)
      (read : readConstructor s cls.right j name = .ok c) (hctor : m.ctor = some c) : FollowsFirst s cls (.ok m)
  | none {m : Members} (absent : ∀ j name, ¬ FirstConstructor s cls.left cls.right j name) (hctor : m.ctor = none) :
      FollowsFirst s cls (.ok m)

theorem membersFrom_followsFirst (hcls : s.matchingClose? cls.left = some cls.right) (hi : cls.left < i)
    (hle : i ≤ cls.right) (hnone : found.ctor = none) (hdepth : Balanced (s.kindsIn (cls.left + 1) i))
    (hbef : NoConstructorBefore s cls.left cls.right i) : FollowsFirst s cls (membersFrom s cls found i) := by
  have hsize := (lt_close hcls).2
  -- the invariant is `hdepth` with `hbefore`; the scan leaves it at the constructor or at the end of the class
  fun_induction membersFrom s cls found i with
  | case1 found i hlt hk =>
    obtain ⟨t, ht⟩ := get?_of_lt (s := s) (i := i) (by omega)
    rw [kind?_get? ht] at hk
    cases hk
  | case2 found i hlt hk ih =>
    have hmem : AtMemberDepth s cls.left cls.right i := ⟨hi, hlt, hdepth⟩
    exact ih (by omega) hlt hnone (hmem.succ hcls hk Bool.false_ne_true) (hbef.succ hk fun h => by cases h)
  | case3 found i hlt k hk hvar hfun hname ih =>
    rw [and_eq_true, decide_eq_true_eq] at hfun
    have hmem : AtMemberDepth s cls.left cls.right i := ⟨hi, hlt, hdepth⟩
    exact ih (by omega) hlt hnone (hmem.succ hcls hk (by rw [hfun.1]; exact Bool.false_ne_true))
      (hbef.succ hk fun _ => hname)
  | case4 found i hlt k hk hvar hfun name hname e he =>
    rw [and_eq_true, decide_eq_true_eq] at hfun
    exact .faulty ⟨⟨hi, hlt, hdepth⟩, hfun.1 ▸ hk, hname, hbef⟩ he
  | case5 found i hlt k hk hvar hfun name hname c hc ih =>
    rw [and_eq_true, decide_eq_true_eq] at hfun
    -- behind its body the scan goes on, but looks for no other constructor
    have horder := (constructor_inside hcls hi hname hc).order
    obtain ⟨m, hm, hctor⟩ := @membersFrom_of_ctor s cls { found with ctor := some c } (c.bodyRight + 1) c hcls
      (by omega) rfl
    rw [hm]
    exact .found ⟨⟨hi, hlt, hdepth⟩, hfun.1 ▸ hk, hname, hbef⟩ hc hctor
  | case6 found i hlt k hk hvar hfun hopen hclose =>
    obtain ⟨closer, hcloser⟩ := isSome_iff_exists.mp hopen
    obtain ⟨d, hd, -⟩ := close_inside hcls hi hlt (by rw [hk, bind_some, hcloser])
    cases hclose.symm.trans hd
  | case7 found i hlt k hk hvar hfun hopen close hclose ih =>
    -- a bracket is passed as a whole, and no place in it counts
    have hic := (lt_close hclose).1
    have hin := close_lt_of_inside hcls hi hlt hclose
    refine ih (by omega) hin hnone ?_ fun j hj hmem hfunction => ?_
    · rw [kindsIn_append s hi (show i ≤ close + 1 by omega)]
      exact hdepth.append (Call.balanced_behind hclose hin).1
    · obtain hlt' | rfl | hgt := Nat.lt_trichotomy j i
      · exact hbef j hlt' hmem hfunction
      · rw [some.inj (hk.symm.trans hfunction)] at hopen
        cases hopen
      · exact absurd hmem (not_atMemberDepth_inside ⟨hi, hlt, hdepth⟩ hcls hclose hgt (by omega))
  | case8 found i hlt k hk hvar hfun hopen ih =>
    have hmem : AtMemberDepth s cls.left cls.right i := ⟨hi, hlt, hdepth⟩
    exact ih (by omega) hlt hnone (hmem.succ hcls hk hopen)
      (hbef.succ hk fun hkind => by simp [hkind, hnone] at hfun)
  | case9 found i hlt =>
    obtain rfl : i = cls.right := by omega
    exact .none hbef.not_first hnone

theorem members_cases (hcls : s.matchingClose? cls.left = some cls.right) : FollowsFirst s cls (members s cls) :=
  membersFrom_followsFirst hcls (Nat.lt_succ_self _) (lt_close hcls).1 rfl (by rw [kindsIn_self]; rfl)
    fun j hj hmem => by have := hmem.lt_left; omega

end

theorem FirstConstructor.unique {s : TokenStream} {right i j name name' : Nat}
    (h : FirstConstructor s left right i name) (h' : FirstConstructor s left right j name') : i = j ∧ name = name' := by
  -- of two first constructors, neither stands in front of the other
  have hnot : ∀ {i j name name' : Nat}, FirstConstructor s left right i name → FirstConstructor s left right j name' →
      ¬ i < j := by
    intro i j name name' h h' hlt
    have hnone := h'.first i hlt h.member h.isFunction
    cases hnone.symm.trans h.named
  obtain rfl : i = j := (Nat.le_of_not_lt (hnot h' h)).antisymm (Nat.le_of_not_lt (hnot h h'))
  exact ⟨rfl, some.inj (h.named.symm.trans h'.named)⟩

/-! ## §3. What can be wrong with it. -/

/-- Neither a body begins nor a declaration ends between two places. -/
def NoBodyBetween (s : TokenStream) (a b : Nat) : Prop :=
  ∀ m, a < m → m < b → s.kind? m ≠ some .leftBrace ∧ s.kind? m ≠ some .semicolon

/-- What is wrong with the constructor whose `function` stands at `i` and whose name stands at `name`, in a class that
ends at `right`; and the tokens that are to blame. -/
inductive FaultyConstructor (s : TokenStream) (right i name : Nat) : Span → ConstructorFault → Prop where
  /-- No parenthesis follows the name. -/
  | noList (none : s.followedBy? name .leftParen = none) :
      FaultyConstructor s right i name ⟨i, name + 1⟩ .missingParameters
  /-- A semicolon comes before any body. -/
  | declared {l r stop : Nat} (list : s.followedBy? name .leftParen = some l) (closed : s.matchingClose? l = some r)
      (behind : r < stop) (inside : stop < right) (semicolon : s.kind? stop = some .semicolon)
      (before : NoBodyBetween s r stop) : FaultyConstructor s right i name ⟨i, stop + 1⟩ .noBody
  /-- The class ends before any body. -/
  | unended {l r : Nat} (list : s.followedBy? name .leftParen = some l) (closed : s.matchingClose? l = some r)
      (before : NoBodyBetween s r right) : FaultyConstructor s right i name ⟨i, right⟩ .noBody

section

variable {s : TokenStream} {limit left right i name : Nat}

theorem hasNoEnd_iff {m : Nat} : (s.hasKind m .leftBrace || s.hasKind m .semicolon) = false ↔
    s.kind? m ≠ some .leftBrace ∧ s.kind? m ≠ some .semicolon := by
  rw [or_eq_false_iff, hasKind, hasKind, beq_eq_false_iff_ne, beq_eq_false_iff_ne]

theorem signatureEnd_eq_limit_iff (hi : i ≤ limit) : signatureEnd s limit i = limit ↔
    ∀ m, i ≤ m → m < limit → (s.hasKind m .leftBrace || s.hasKind m .semicolon) = false := by
  fun_induction signatureEnd s limit i with
  | case1 i hlt hends =>
    refine iff_of_false hlt.ne fun hnone => ?_
    rw [hnone i le_rfl hlt] at hends
    cases hends
  | case2 i hlt hends ih =>
    refine (ih hlt).trans ⟨fun hnone m h₁ h₂ => ?_, fun hnone m h₁ h₂ => hnone m (by omega) h₂⟩
    obtain rfl | hgt := Nat.eq_or_lt_of_le h₁
    · simpa using hends
    · exact hnone m hgt h₂
  | case3 i hlt => exact iff_of_true (by omega) fun m h₁ h₂ => by omega

theorem signatureEnd_le (hi : i ≤ limit) : signatureEnd s limit i ≤ limit := by
  fun_induction signatureEnd s limit i with
  | case1 i hlt hends => exact hi
  | case2 i hlt hends ih => exact ih hlt
  | case3 i hlt => exact hi

variable (hcls : s.matchingClose? left = some right) (hbrace : s.kind? left = some .leftBrace) (hi : left < i)
  (hlt : i < right) (hname : constructorName? s i = some name)

include hcls hbrace hi hlt hname

theorem exists_close_of_list {l : Nat} (hl : s.followedBy? name .leftParen = some l) :
    ∃ r, s.matchingClose? l = some r ∧ r < right := by
  obtain ⟨e, he, hekind⟩ := map_eq_some_iff.mp (kind?_of_close hcls hbrace rfl)
  obtain ⟨-, -, hnameLt, -⟩ := codeIn_constructorName he hekind hlt hname
  have hnameGt := lt_constructorName? hname
  obtain ⟨hnext, hkind⟩ := followedBy?_iff.mp hl
  have hgt := (next_spec hnext).1
  -- the closing brace is significant, so the parenthesis does not stand behind it
  obtain ⟨j, hj, hle⟩ := exists_next (i := name + 1) hnameLt he (by rw [Token.isTrivia, hekind]; rfl)
  cases hnext.symm.trans hj
  have hne : l ≠ right := by
    rintro rfl
    rw [kind?_get? he, hekind] at hkind
    cases hkind
  exact close_inside hcls (by omega) (by omega) (by rw [hkind]; rfl)

theorem ok_or_faulty :
    (∃ c, readConstructor s right i name = .ok c) ∨ ∃ span fault, FaultyConstructor s right i name span fault := by
  cases hl : s.followedBy? name .leftParen with
  | none => exact .inr ⟨_, _, .noList hl⟩
  | some l =>
    obtain ⟨r, hr, hrlt⟩ := exists_close_of_list hcls hbrace hi hlt hname hl
    have hnameGt := lt_constructorName? hname
    have hlgt := lt_of_followedBy? hl
    have hrgt := (lt_close hr).1
    -- the signature ends in front of the class's end, with a body or a semicolon, or not at all
    obtain hend | hend := Nat.lt_or_eq_of_le (signatureEnd_le (s := s) (show r + 1 ≤ right by omega))
    · obtain ⟨hle, hends, hnone⟩ := (signatureEnd_eq_iff hend).mp rfl
      obtain hopen | hsemi := Bool.or_eq_true_iff.mp hends
      · obtain ⟨d, hd, -⟩ := close_inside hcls (by omega) hend (by rw [eq_of_beq hopen]; rfl)
        exact .inl ⟨⟨i, l, r, _, d, lineIndent s i⟩,
          readConstructor_iff.mpr ⟨hl, hr, rfl, hend, hopen, hd, rfl, rfl⟩⟩
      · exact .inr ⟨_, _, .declared hl hr hle hend (eq_of_beq hsemi) fun m h₁ h₂ => hasNoEnd_iff.mp (hnone m h₁ h₂)⟩
    · exact .inr ⟨_, _, .unended hl hr fun m h₁ h₂ =>
        hasNoEnd_iff.mp ((signatureEnd_eq_limit_iff (by omega)).mp hend m h₁ h₂)⟩

theorem read_of_faulty (h : FaultyConstructor s right i name span fault) :
    readConstructor s right i name = .error (.malformedConstructor span fault) := by
  rw [readConstructor]
  cases h with
  | noList hnone => rw [hnone]
  | @declared l r stop hl hr hstop hin hsemi hbef =>
    have hend : signatureEnd s right (r + 1) = stop := (signatureEnd_eq_iff hin).mpr
      ⟨hstop, by simp [hasKind, hsemi], fun m h₁ h₂ => hasNoEnd_iff.mpr (hbef m h₁ h₂)⟩
    simp [hl, hr, hend, hin, hasKind, hsemi]
  | @unended l r hl hr hbef =>
    obtain ⟨r', hr', hrlt⟩ := exists_close_of_list hcls hbrace hi hlt hname hl
    cases hr.symm.trans hr'
    have hend : signatureEnd s right (r + 1) = right :=
      (signatureEnd_eq_limit_iff hrlt).mpr fun m h₁ h₂ => hasNoEnd_iff.mpr (hbef m h₁ h₂)
    simp [hl, hr, hend]

end

/-! ## §4. When an injection fails. -/

/-- Why collaborators cannot be injected into a file. -/
inductive InjectionFault (s : TokenStream) : InjectError → Prop where
  | noClass (absent : ∀ keyword left, ¬ ClassHeader s keyword left) : InjectionFault s .classBodyNotFound
  | openClass {keyword left : Nat} (header : ClassHeader s keyword left) (unclosed : s.matchingClose? left = none) :
      InjectionFault s (.unbalancedClassBody left)
  | badConstructor {keyword left right i name : Nat} {span : Span} {fault : ConstructorFault}
      (header : ClassHeader s keyword left) (closed : s.matchingClose? left = some right)
      (first : FirstConstructor s left right i name) (faulty : FaultyConstructor s right i name span fault) :
      InjectionFault s (.malformedConstructor span fault)

section

variable {s : TokenStream} {indent : String} {r : Requirements}

theorem inject_of_no_class (hr : r.isEmpty = false) (h : classBody s = .error e) : inject s indent r = .error e := by
  unfold inject
  rw [if_neg (by simp [hr]), h]
  rfl

theorem inject_of_members_error (hr : r.isEmpty = false) (hcls : classBody s = .ok cls)
    (h : members s cls = .error e) : inject s indent r = .error e := by
  unfold inject
  rw [if_neg (by simp [hr]), hcls]
  show (members s cls >>= _) = _
  rw [h]
  rfl

theorem exists_inject_of_members (hcls : classBody s = .ok cls) (h : members s cls = .ok m) :
    ∃ inserts, inject s indent r = .ok inserts := by
  unfold inject
  split
  · exact ⟨_, rfl⟩
  · rw [hcls]
    show ∃ inserts, (members s cls >>= _) = _
    rw [h]
    exact ⟨_, rfl⟩

theorem members_of_faulty {i name : Nat}
    (hcls : s.matchingClose? cls.left = some cls.right) (hbrace : s.kind? cls.left = some .leftBrace)
    (hfst : FirstConstructor s cls.left cls.right i name) (h : FaultyConstructor s cls.right i name span fault) :
    members s cls = .error (.malformedConstructor span fault) := by
  have hread := read_of_faulty hcls hbrace hfst.member.lt_left hfst.member.lt_right hfst.named h
  generalize hm : members s cls = answer
  -- the scan and the fault speak of the same constructor
  cases hm ▸ members_cases hcls with
  | faulty first read =>
    obtain ⟨rfl, rfl⟩ := hfst.unique first
    cases read.symm.trans hread
    rfl
  | found first read _ =>
    obtain ⟨rfl, rfl⟩ := hfst.unique first
    cases hread.symm.trans read
  | none absent _ => exact absurd hfst (absent _ _)

theorem exists_members_of_no_fault {cls : ClassBody} (hcls : s.matchingClose? cls.left = some cls.right)
    (hbrace : s.kind? cls.left = some .leftBrace) (h : ∀ i name span fault, FirstConstructor s cls.left cls.right i name →
      ¬ FaultyConstructor s cls.right i name span fault) : ∃ m, members s cls = .ok m := by
  generalize hm : members s cls = answer
  cases hm ▸ members_cases hcls with
  | faulty first read =>
    obtain ⟨c, hc⟩ | ⟨span, fault, hfault⟩ :=
      ok_or_faulty hcls hbrace first.member.lt_left first.member.lt_right first.named
    · cases hc.symm.trans read
    · exact absurd hfault (h _ _ _ _ first)
  | found _ _ _ => exact ⟨_, rfl⟩
  | none _ _ => exact ⟨_, rfl⟩

theorem inject_of_fault (hr : r.isEmpty = false) (h : InjectionFault s e) : inject s indent r = .error e := by
  cases h with
  | noClass absent => exact inject_of_no_class hr (classBody_of_no_header absent)
  | openClass header unclosed => exact inject_of_no_class hr (header.classBody_open unclosed)
  | badConstructor header closed first faulty =>
    exact inject_of_members_error hr (header.classBody_closed closed) (members_of_faulty closed header.brace first faulty)

theorem inject_ok_or_fault (s : TokenStream) (indent : String) (r : Requirements) :
    (∃ inserts, inject s indent r = .ok inserts) ∨ ∃ e, InjectionFault s e := by
  by_cases hheader : ∃ keyword left, ClassHeader s keyword left
  · obtain ⟨keyword, left, header⟩ := hheader
    cases hclose : s.matchingClose? left with
    | none => exact .inr ⟨_, .openClass header hclose⟩
    | some right =>
      by_cases hfault : ∃ i name span fault,
          FirstConstructor s left right i name ∧ FaultyConstructor s right i name span fault
      · obtain ⟨i, name, span, fault, first, faulty⟩ := hfault
        exact .inr ⟨_, .badConstructor header hclose first faulty⟩
      · obtain ⟨m, hm⟩ := @exists_members_of_no_fault s ⟨left, right, lineIndent s keyword⟩ hclose header.brace
          fun i name span fault first faulty => hfault ⟨i, name, span, fault, first, faulty⟩
        exact .inl (exists_inject_of_members (header.classBody_closed hclose) hm)
  · exact .inr ⟨_, .noClass fun keyword left header => hheader ⟨keyword, left, header⟩⟩

theorem inject_eq_error_iff (hr : r.isEmpty = false) : inject s indent r = .error e ↔ InjectionFault s e := by
  refine ⟨fun h => ?_, inject_of_fault hr⟩
  obtain ⟨inserts, hok⟩ | ⟨e', hfault⟩ := inject_ok_or_fault s indent r
  · cases h.symm.trans hok
  · cases h.symm.trans (inject_of_fault hr hfault)
    exact hfault

theorem members_ne_unbalanced (hcls : classBody s = .ok cls) :
    members s cls ≠ .error (.unbalancedClassBody left) := by
  intro h
  have hright := classBody_spec hcls
  have hfault := h ▸ members_cases hright
  cases hfault with
  | faulty first read =>
    obtain ⟨c, hc⟩ | ⟨span, fault, hfaulty⟩ := ok_or_faulty hright (classBody_brace hcls)
      first.member.lt_left first.member.lt_right first.named
    · cases hc.symm.trans read
    · cases read.symm.trans (read_of_faulty hright (classBody_brace hcls) first.member.lt_left
        first.member.lt_right first.named hfaulty)

end

/-- **When an injection fails**, if there is something to inject: when the file declares no class with a body, when
the body of its first class is not closed, and when the first constructor of that class lacks its parameter list or its
body. No other bracket is found to be without counterpart, and what is to be injected does not matter. -/
theorem inject_fails_iff (s : TokenStream) (indent : String) (r : Requirements) (hr : r.isEmpty = false) :
    (inject s indent r = .error .classBodyNotFound ↔ ∀ keyword left, ¬ ClassHeader s keyword left)
      ∧ (∀ left, inject s indent r = .error (.unbalancedClassBody left) ↔
        ∃ keyword, ClassHeader s keyword left ∧ s.matchingClose? left = none)
      ∧ (∀ span fault, inject s indent r = .error (.malformedConstructor span fault) ↔
        ∃ keyword left right i name, ClassHeader s keyword left ∧ s.matchingClose? left = some right
          ∧ FirstConstructor s left right i name ∧ FaultyConstructor s right i name span fault)
      ∧ (∀ span fault, inject s indent r = .error (.malformedConstructor span fault) →
        fault.text ≠ "unbalanced parameter list" ∧ fault.text ≠ "unbalanced constructor body")
      ∧ (∀ cls left, classBody s = .ok cls → members s cls ≠ .error (.unbalancedClassBody left))
      ∧ ∀ indent' r', r'.isEmpty = false → ∀ e, inject s indent' r' = .error e ↔ inject s indent r = .error e := by
  refine ⟨?_, fun left => ?_, fun span fault => ?_, fun span fault h => ?_, fun cls left => members_ne_unbalanced,
    fun indent' r' hr' e => (inject_eq_error_iff hr').trans (inject_eq_error_iff hr).symm⟩
  · refine (inject_eq_error_iff hr).trans ⟨fun h => ?_, .noClass⟩
    cases h with
    | noClass absent => exact absent
  · refine (inject_eq_error_iff hr).trans ⟨fun h => ?_, fun ⟨_, header, unclosed⟩ => .openClass header unclosed⟩
    cases h with
    | openClass header unclosed => exact ⟨_, header, unclosed⟩
  · refine (inject_eq_error_iff hr).trans ⟨fun h => ?_, fun ⟨_, _, _, _, _, header, closed, first, faulty⟩ =>
      .badConstructor header closed first faulty⟩
    cases h with
    | badConstructor header closed first faulty => exact ⟨_, _, _, _, _, header, closed, first, faulty⟩
  · cases (inject_eq_error_iff hr).mp h with
    | badConstructor header closed first faulty => cases faulty <;> decide

def declaresConstructor : TokenStream := .ofSource "<?php abstract class A\x7babstract function __construct($a);\x7d"

theorem inject_fails_iff_declaresConstructor :
    (⟨[⟨"x", "\\T"⟩]⟩ : Requirements).isEmpty = false
      ∧ inject declaresConstructor "    " ⟨[⟨"x", "\\T"⟩]⟩ = .error (.malformedConstructor ⟨9, 16⟩ .noBody)
      ∧ (∃ keyword left right i name, ClassHeader declaresConstructor keyword left
        ∧ declaresConstructor.matchingClose? left = some right ∧ FirstConstructor declaresConstructor left right i name
        ∧ FaultyConstructor declaresConstructor right i name ⟨9, 16⟩ .noBody)
      ∧ ∀ indent r, r.isEmpty = false →
        inject declaresConstructor indent r = .error (.malformedConstructor ⟨9, 16⟩ .noBody) := by
  have hr : (⟨[⟨"x", "\\T"⟩]⟩ : Requirements).isEmpty = false := rfl
  have hrun : (match inject declaresConstructor "    " ⟨[⟨"x", "\\T"⟩]⟩ with
      | .ok _ => false
      | .error e => e == .malformedConstructor ⟨9, 16⟩ .noBody) = true := by
    rw [show declaresConstructor = .ofTokens _ from ofSource_ofList _]
    decide +kernel
  split at hrun
  · cases hrun
  · rename_i e hfails
    cases eq_of_beq hrun
    obtain ⟨-, -, hctor, -, -, hany⟩ := inject_fails_iff declaresConstructor "    " _ hr
    exact ⟨hr, hfails, (hctor _ _).mp hfails, fun indent r hr' => (hany indent r hr' _).mpr hfails⟩

/-! ## §5. Where the insertions are. -/

def parameterEdits (s : TokenStream) (indent : String) (c : Constructor) (r : Requirements) : List (Edit Token) :=
  insertCode ((missingParameters (parameterList s c) r).map parameterCode)
    (parameterInsertion s indent c (parameterList s c))

def assignmentEdits (s : TokenStream) (indent : String) (c : Constructor) (r : Requirements) : List (Edit Token) :=
  insertCode (unassigned s c r) (assignmentInsertion s indent c)

/-- The insertions into a class whose brace stands at `left` and which has the constructor `c`: its missing parameters go
between its parentheses, its missing assignments between its braces, and properties to the top of the class. -/
structure ExtendsConstructor (s : TokenStream) (indent : String) (r : Requirements) (left : Nat) (c : Constructor)
    (inserts : List (Edit Token)) : Prop where
  list : s.matchingClose? c.left = some c.right
  body : s.matchingClose? c.bodyLeft = some c.bodyRight
  parts : ∃ properties, inserts = parameterEdits s indent c r ++ assignmentEdits s indent c r ++ properties
    ∧ ∀ e ∈ properties, e.span.start = left + 1
  parameters : ∀ e ∈ parameterEdits s indent c r, c.left < e.span.start ∧ e.span.start ≤ c.right
  assignments : ∀ e ∈ assignmentEdits s indent c r, c.bodyLeft < e.span.start ∧ e.span.start ≤ c.bodyRight

section

variable {s : TokenStream} {indent : String} {r : Requirements} {inserts : List (Edit Token)}

theorem extends_of_inject {c : Constructor} (hr : r.isEmpty = false)
    (h : inject s indent r = .ok inserts) (hcls : classBody s = .ok cls) (hm : members s cls = .ok m)
    (hc : m.ctor = some c) : ExtendsConstructor s indent r cls.left c inserts := by
  have hbrs := members_ctor hm hc
  refine ⟨hbrs.parameters, hbrs.body, ⟨_, inject_of_some hr h hcls hm hc, fun e he => ?_⟩, fun e he => ?_,
    fun e he => ?_⟩
  · rw [(mem_headerInsertion he).1]
    rfl
  · rw [(mem_insertCode he).1]
    exact parameterSpot_bounds hbrs indent _
  · rw [(mem_insertCode he).1]
    exact assignment_bounds hbrs indent _

theorem apply_inject (h : inject s indent r = .ok inserts) :
    ∃ out, s.apply inserts = .ok out ∧ s.tokens.toList.Sublist out.tokens.toList := by
  refine ⟨_, apply_eq_weave (inject_fits h), ?_⟩
  -- insertions cover nothing, so what is kept is everything
  have hkept := kept_sublist_weaveFrom inserts s.tokens.toList 0
  rwa [filter_eq_self.mpr (fun x _ => by rw [Edit.covers_of_insertions (inject_insertions h)]; rfl),
    zipIdx_map_fst] at hkept

end

/-- **What is injected is inserted, and inside the class.** Every edit is an insertion behind the brace that opens the
first class of the file and not behind the one that closes it. Where the class has a constructor, new parameters go
between its parentheses and new assignments between its braces. So the edits can be applied, and the tokens of the file
are kept in order. -/
theorem inject_inserts_inside {s : TokenStream} {indent : String} {r : Requirements} {inserts : List (Edit Token)}
    (h : inject s indent r = .ok inserts) :
    (∀ e ∈ inserts, e.span.isEmpty = true ∧ ∃ keyword left right, ClassHeader s keyword left
        ∧ s.matchingClose? left = some right ∧ left < e.span.start ∧ e.span.start ≤ right)
      ∧ (∀ keyword left right i name, r.isEmpty = false → ClassHeader s keyword left →
      s.matchingClose? left = some right →
        FirstConstructor s left right i name → ∃ c, readConstructor s right i name = .ok c
          ∧ i < c.left ∧ c.right < c.bodyLeft ∧ c.bodyRight < right ∧ ExtendsConstructor s indent r left c inserts)
      ∧ ∃ out, s.apply inserts = .ok out ∧ s.tokens.toList.Sublist out.tokens.toList := by
  refine ⟨fun e he => ?_, fun keyword left right i name hr header hright first => ?_, apply_inject h⟩
  · obtain ⟨p, items, rfl, hpoint⟩ := inject_points h e he
    obtain ⟨cls, hcls⟩ : ∃ cls, classBody s = .ok cls := by
      cases hpoint with
      | top hcls | parameter hcls | assignment hcls => exact ⟨_, hcls⟩
    obtain ⟨keyword, header, hright⟩ := exists_header hcls
    exact ⟨beq_self_eq_true p, keyword, cls.left, cls.right, header, hright, injectionPoint_inside hcls hpoint⟩
  · have hcls := header.classBody_closed hright
    obtain ⟨cls', m, hcls', hm, -⟩ := inject_cases hr h
    cases hcls.symm.trans hcls'
    cases hm ▸ @members_cases s ⟨left, right, lineIndent s keyword⟩ hright with
    | @found _ _ c _ first' read hctor =>
      obtain ⟨rfl, rfl⟩ := first.unique first'
      obtain ⟨hleft, -, hbody, -, hlt⟩ := (@constructor_inside s ⟨left, right, lineIndent s keyword⟩ i name c hright
        first.member.lt_left first.named read).order
      exact ⟨c, read, hleft, hbody, hlt, extends_of_inject hr h hcls hm hctor⟩
    | none absent _ => exact absurd first (absent _ _)

def callsParent : TokenStream :=
  .ofSource "<?php class A extends B\x7bfunction __construct(C $c, $d = 1)\x7bparent::__construct($c);\x7d\x7d"

theorem inject_inserts_inside_callsParent :
    ∃ inserts, inject callsParent "    " ⟨[⟨"x", "\\T"⟩]⟩ = .ok inserts ∧ inserts.length = 3
      ∧ (∀ e ∈ inserts, e.span.isEmpty = true ∧ ∃ keyword left right, ClassHeader callsParent keyword left
        ∧ callsParent.matchingClose? left = some right ∧ left < e.span.start ∧ e.span.start ≤ right)
      ∧ (∃ left right i name c, FirstConstructor callsParent left right i name
        ∧ readConstructor callsParent right i name = .ok c
        ∧ ExtendsConstructor callsParent "    " ⟨[⟨"x", "\\T"⟩]⟩ left c inserts)
      ∧ ∃ out, callsParent.apply inserts = .ok out ∧ callsParent.tokens.toList.Sublist out.tokens.toList := by
  have hrun : ((inject callsParent "    " ⟨[⟨"x", "\\T"⟩]⟩).toOption.any (·.length == 3)) := by
    rw [show callsParent = .ofTokens _ from ofSource_ofList _]
    decide +kernel
  obtain ⟨inserts, hins, hcount⟩ := of_any_ok hrun
  obtain ⟨hin, hconstructor, happ⟩ := inject_inserts_inside hins
  obtain ⟨cls, m, hcls, hm, -⟩ := inject_cases rfl hins
  obtain ⟨keyword, header, hright⟩ := exists_header hcls
  refine ⟨inserts, hins, eq_of_beq hcount, hin, ?_, happ⟩
  cases hm ▸ members_cases hright with
  | found first read hctor =>
    obtain ⟨c, hread, -, -, -, hextends⟩ := hconstructor _ _ _ _ _ rfl header hright first
    exact ⟨_, _, _, _, c, first, hread, hextends⟩
  | none absent hctor =>
    -- a class without a constructor gets a single insertion
    rw [inject_of_none rfl hins hcls hm hctor, headerInsertion] at hcount
    split at hcount <;> cases hcount

end Wiring

end MageUplift
