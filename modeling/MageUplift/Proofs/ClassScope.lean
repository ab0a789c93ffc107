import MageUplift.Proofs.CallsLeftBehind

/-!
# Where collaborators are used, and where they are

A converted call reads its collaborator from `$this`, and the first class of the file receives it. The scan for calls
does not look at classes, so a call in a free function is converted as well, and nothing is injected where it stands
(`migrate_converts_outside_class`).

In a file whose static accesses all stand inside the body of its first class, both passes agree. Every call stands between
the braces of the class, the header of the class is left as it is, and the class that the injector finds in the
converted stream has the same braces.
-/

namespace MageUplift

open Php TokenStream Call Wiring Magento Option

variable {i j : Nat} {s : TokenStream}

/-! ## §1. Streams that begin alike. -/

/-- The two streams have the same tokens up to `n`. -/
def Php.TokenStream.AgreeTo (s u : TokenStream) (n : Nat) : Prop := ∀ m, m ≤ n → u.get? m = s.get? m

namespace Php.TokenStream.AgreeTo

variable {s u : TokenStream} {n : Nat}

theorem kind? (h : s.AgreeTo u n) (hi : i ≤ n) : u.kind? i = s.kind? i := by
  rw [TokenStream.kind?, TokenStream.kind?, h i hi]

theorem nextSignificant? (h : s.AgreeTo u n) (hj : j ≤ n) (hnext : s.nextSignificant? i = some j) :
    u.nextSignificant? i = some j := by
  obtain ⟨hij, ⟨t, ht, hsig⟩, htriv⟩ := next_spec hnext
  refine next_of_triviaIn hij (fun m him hmj => ?_) ((h j hj).trans ht) hsig
  obtain ⟨w, hw, hwtrivia⟩ := htriv m him hmj
  exact ⟨w, (h m (by omega)).trans hw, hwtrivia⟩

theorem prevSignificant? (h : s.AgreeTo u n) (hi : i ≤ n) (hs : i ≤ s.size) (hu : i ≤ u.size) :
    u.prevSignificant? i = s.prevSignificant? i := by
  have key : ∀ m, m ≤ n → u.findBefore? (!·.isTrivia) m = s.findBefore? (!·.isTrivia) m := by
    intro m
    induction m with
    | zero =>
      intro _
      rfl
    | succ m ih =>
      intro hm
      rw [findBefore?, findBefore?, h m (by omega), ih (by omega)]
  rw [TokenStream.prevSignificant?, TokenStream.prevSignificant?, Nat.min_eq_left hs, Nat.min_eq_left hu]
  exact key i hi

theorem declaresClass (h : s.AgreeTo u n) (hs : n < s.size) (hu : n < u.size)
    (hnext : s.nextSignificant? (i + 1) = some j) (hj : j ≤ n) : declaresClass u i = declaresClass s i := by
  have hij : i < j := (next_spec hnext).1
  have hprev := h.prevSignificant? (i := i) (by omega) (by omega) (by omega)
  have hkinds : (s.prevSignificant? i).bind u.kind? = (s.prevSignificant? i).bind s.kind? := by
    cases hp : s.prevSignificant? i with
    | none => rfl
    | some p =>
      have hpi := lt_of_prev hp
      exact h.kind? (by omega)
  have hname : u.followedBy? i .identifier = s.followedBy? i .identifier := by
    rw [followedBy?, followedBy?, h.nextSignificant? hj hnext, hnext, filter_some, filter_some, hasKind, hasKind,
      h.kind? hj]
  rw [Wiring.declaresClass, Wiring.declaresClass, hasKind, hasKind, h.kind? (by omega), hname, hprev, hkinds]

theorem bodyLeft? (h : s.AgreeTo u n) {left : Nat} (hbody : Wiring.bodyLeft? s i = some left) (hleft : left ≤ n) :
    Wiring.bodyLeft? u i = some left := by
  obtain ⟨hle, hbrace, hheader⟩ := bodyLeft?_iff.mp hbody
  refine bodyLeft?_iff.mpr ⟨hle, (h.kind? hleft).trans hbrace, fun m h₁ h₂ => ?_⟩
  rw [h.kind? (by omega)]
  exact hheader m h₁ h₂

end Php.TokenStream.AgreeTo

/-! ## §2. The class of the converted stream. -/

theorem Edit.keptAt_before {α : Type} {items : List α} {edits : List (Edit α)} {n : Nat}
    (h : ∀ e ∈ edits, n < e.span.start) (hi : i ≤ n) (hlt : i < items.length) : KeptAt items edits i i := by
  have hlater : ∀ {i}, i ≤ n → ∀ e ∈ edits, i < e.span.start := fun hi e he => hi.trans_lt (h e he)
  -- each item takes one place, so the offsets do not move
  have hoff : ∀ i, i ≤ n → i < items.length → offsetOf items edits i = i := by
    intro i
    induction i with
    | zero =>
      intro _ _
      rfl
    | succ i ih =>
      intro hi hlt
      have hkept : KeptAt items edits i i := by
        refine ⟨by omega, covers_of_lt (hlater (by omega)), ?_⟩
        rw [placeOf, ih (by omega) (by omega), generatedAt_of_lt (hlater (by omega))]
        rfl
      exact hkept.offsetOf_succ
  refine ⟨hlt, covers_of_lt (hlater hi), ?_⟩
  rw [placeOf, hoff i hi hlt, generatedAt_of_lt (hlater hi)]
  rfl

theorem kind_of_declaresClass (h : declaresClass s i) : s.kind? i = some (.keyword .classKw) := by
  rw [declaresClass, Bool.and_eq_true, Bool.and_eq_true, hasKind, beq_iff_eq] at h
  exact h.1.1

theorem Php.TokenStream.AgreeTo.classKeyword? {u : TokenStream} {n keyword name : Nat} (h : s.AgreeTo u n)
    (hs : n < s.size)
    (hu : n < u.size) (hkw : Wiring.classKeyword? s = some keyword)
    (hname : s.nextSignificant? (keyword + 1) = some name) (hn : name ≤ n) : Wiring.classKeyword? u = some keyword := by
  unfold Wiring.classKeyword? at hkw ⊢
  rw [List.find?_range_eq_some] at hkw ⊢
  obtain ⟨hdeclares, -, hfst⟩ := hkw
  have hlt : keyword < name := (next_spec hname).1
  refine ⟨(h.declaresClass hs hu hname hn).trans hdeclares, List.mem_range.mpr (by omega), fun i hi => ?_⟩
  -- what follows an earlier token comes no later than the keyword
  obtain ⟨t, ht, hkind⟩ := map_eq_some_iff.mp (kind_of_declaresClass hdeclares)
  obtain ⟨j, hj, hjk⟩ := exists_next (i := i + 1) hi ht (by rw [Token.isTrivia, hkind]; rfl)
  rw [h.declaresClass hs hu hj (by omega)]
  exact hfst i hi

section

variable {table : AliasTable} {s : TokenStream} {cls : ClassBody}

theorem start_le_of_mem_callEdits {e : Edit Token} (he : e ∈ callEdits table s) :
    ∃ inv ∈ scan table s, inv.span.start ≤ e.span.start := by
  obtain ⟨inv, hinv, c, hc, rfl⟩ := mem_callEdits he
  exact ⟨inv, hinv, ((isCall_mem hinv).anatomy.codeEdits_inside hc).1⟩

theorem classBody_of_kept {edits : List (Edit Token)} (hcls : classBody s = .ok cls)
    (hedits : ∀ e ∈ edits, cls.left < e.span.start) : s.Kept edits cls.left cls.left
      ∧ ∀ right, (s.woven edits).matchingClose? cls.left = some right →
        ∃ inner, classBody (s.woven edits) = .ok inner ∧ inner.left = cls.left ∧ inner.right = right := by
  have hsize := lt_close (classBody_spec hcls)
  have hkept : ∀ i, i ≤ cls.left → s.Kept edits i i := fun i hi =>
    Edit.keptAt_before hedits hi (by rw [Array.length_toList]; show i < s.size; omega)
  have hagree : s.AgreeTo (s.woven edits) cls.left := fun i hi => (hkept i hi).get?
  have hbrace := hkept cls.left le_rfl
  refine ⟨hbrace, fun right hright => ?_⟩
  obtain ⟨keyword, name, hkw, hname, hbody, -⟩ := classBody_eq_ok_iff.mp hcls
  have hle := (bodyLeft?_iff.mp hbody).1
  have hfound := hagree.classKeyword? (by omega) hbrace.lt_size_woven hkw hname (by omega)
  exact ⟨⟨cls.left, right, _⟩, classBody_eq_ok_iff.mpr ⟨keyword, name, hfound, hagree.nextSignificant? (by omega) hname,
    hagree.bodyLeft? hbody le_rfl, hright, rfl⟩, rfl, rfl⟩

theorem classBody_convert (htab : table.WellFormed) (hcls : classBody s = .ok cls)
    (hbehind : ∀ inv ∈ scan table s, cls.left < inv.span.start) :
    ∃ inner, classBody (convertedStream table s) = .ok inner ∧ inner.left = cls.left
      ∧ inner.right = Edit.placeOf s.tokens.toList (callEdits table s) cls.right := by
  obtain ⟨hbrace, hfound⟩ := classBody_of_kept hcls fun e he => by
    obtain ⟨inv, hinv, hle⟩ := start_le_of_mem_callEdits he
    exact (hbehind inv hinv).trans_le hle
  obtain ⟨right, hkept, hright⟩ := close_convert htab hbrace (classBody_spec hcls)
  obtain ⟨inner, hinner, hleft, rfl⟩ := hfound right hright
  exact ⟨inner, hinner, hleft, Edit.KeptAt.place hkept⟩

theorem call_inside_class (hcls : classBody s = .ok cls)
    (hcolons : ∀ i t colons, s.get? i = some t → isMage t → s.followedBy? i .doubleColon = some colons →
      cls.left < colons ∧ colons < cls.right) {inv : Invocation}
    (h : matchAt? table s i = some inv) : cls.left < i ∧ i < cls.right := by
  obtain ⟨left, hpath⟩ := matchAt?_parenthesis h
  obtain ⟨-, ⟨t, ht, hmage⟩, -⟩ := matchAt?_anatomy h
  cases hpath with
  | @cons _ colons _ _ _ first _ =>
    obtain ⟨hlt, -, htriv⟩ := next_spec (followedBy?_iff.mp first).1
    obtain ⟨hleft, hright⟩ := hcolons i t colons ht hmage first
    refine ⟨Decidable.byContradiction fun hge => ?_, by omega⟩
    -- otherwise the brace would be `Mage` itself, or stand between it and the double colon
    have hbrace := classBody_brace hcls
    by_cases heq : i = cls.left
    · rw [← heq, kind?_get? ht, some.injEq] at hbrace
      rcases isMage_kind hmage with hk | hk <;> rw [hk] at hbrace <;> cases hbrace
    · obtain ⟨t, ht, hkindT⟩ := map_eq_some_iff.mp hbrace
      have := TriviaIn.isTrivia htriv (show i + 1 ≤ cls.left by omega) hleft ht
      rw [Token.isTrivia, hkindT] at this
      cases this

end

/-! ## §3. The places of the injector. -/

theorem injectionPoint_inside {cls : ClassBody} {p : Nat} (hcls : classBody s = .ok cls)
    (h : InjectionPoint s p) : cls.left < p ∧ p ≤ cls.right := by
  have hright := classBody_spec hcls
  have hlt := lt_close hright
  -- the brackets of the constructor are inside those of the class
  have hin : ∀ {m : Members} {c : Constructor}, members s cls = .ok m → m.ctor = some c →
      cls.left < c.left ∧ c.right < cls.right ∧ cls.left < c.bodyLeft ∧ c.bodyRight < cls.right := by
    intro m c hm hc
    have hbrs := members_ctor hm hc
    obtain ⟨-, hleft, hbody, hbodyInside⟩ := members_named hm hc
    have hparams := lt_close hbrs.parameters
    have := close_lt_of_inside hright (show cls.left < c.bodyLeft by omega) hbodyInside hbrs.body
    exact ⟨hleft, by omega, by omega, by omega⟩
  cases h with
  | top hcls' =>
    rw [hcls] at hcls'
    cases hcls'
    exact ⟨Nat.lt_succ_self _, hlt.1⟩
  | parameter hcls' hm hc =>
    rw [hcls] at hcls'
    cases hcls'
    have := hin hm hc
    have := parameterPlace_bounds (members_ctor hm hc)
    omega
  | assignment hcls' hm hc =>
    rw [hcls] at hcls'
    cases hcls'
    have := hin hm hc
    have := spot_bounds (members_ctor hm hc)
    omega

/-! ## §4. Files with one class. -/

/-- **Collaborators are injected where they are used.** Let the double colons behind `Mage` all stand between the braces
of the first class that the file declares. Then every converted call that needs a collaborator stands there too, outside
static functions, and asks for a variable of that name; and the class whose constructor receives the variables is that
class: the injector finds it by the same brace in the converted stream, and inserts between its braces only. -/
theorem migrate_injects_where_used {m : Migrator} {file : String} {s out : TokenStream} {report : FileReport}
    {cls : ClassBody} (htable : m.table.Reachable) (hrun : m.migrate file s = .ok (.converted out report))
    (hcls : classBody s = .ok cls)
    (hcolons : ∀ i t colons, s.get? i = some t → isMage t = true → s.followedBy? i .doubleColon = some colons →
      cls.left < colons ∧ colons < cls.right) :
    (∀ inv ∈ scan m.table s, ∀ v, inv.collaborator = some v → cls.left < inv.span.start ∧ inv.span.start < cls.right
        ∧ inv.isInside (staticBodies s) = false ∧ ∃ w ∈ report.requirements, w.name = v.name)
      ∧ ∃ inner, classBody (convertedStream m.table s) = .ok inner ∧ inner.left = cls.left
        ∧ inner.right = Edit.placeOf s.tokens.toList (callEdits m.table s) cls.right
        ∧ ∀ e ∈ m.insertions s, inner.left < e.span.start ∧ e.span.start ≤ inner.right := by
  obtain ⟨r, inserts, hcollect, hinject, -, hreport⟩ := migrate_cases hrun
  have hinside : ∀ inv ∈ scan m.table s, cls.left < inv.span.start ∧ inv.span.start < cls.right := fun inv hinv =>
    call_inside_class hcls hcolons ((scan_callsInOrder m.table s).isCall inv hinv)
  constructor
  · intro inv hinv v hv
    obtain ⟨hleft, hright⟩ := hinside inv hinv
    refine ⟨hleft, hright, ?_, ?_⟩
    · obtain ⟨-, -, hconvertible⟩ := mem_scanFrom hinv
      rw [Invocation.isConvertible, hv, Option.isSome_some, Bool.and_true, Bool.not_eq_true'] at hconvertible
      exact hconvertible
    · rw [hreport]
      exact collect_names hcollect inv hinv v hv
  · obtain ⟨inner, hinner, hleft, hright⟩ :=
      classBody_convert htable.wellFormed hcls fun inv hinv => (hinside inv hinv).1
    refine ⟨inner, hinner, hleft, hright, fun e he => ?_⟩
    rw [m.insertions_eq hcollect hinject] at he
    obtain ⟨p, items, rfl, hpoint⟩ := inject_points hinject e he
    exact injectionPoint_inside hinner hpoint

/-- A class with one call, between other code. -/
def logsOnce : TokenStream :=
  .ofSource "<?php X::y(); class A extends B\x7bfunction f()\x7bMage::log(1);\x7d\x7d class C\x7bfunction g()\x7bX::z();\x7d\x7d"

theorem migrate_injects_where_used_logsOnce :
    ∃ out report cls, defaultMigrator.migrate "A.php" logsOnce = .ok (.converted out report)
      ∧ classBody logsOnce = .ok cls ∧ (scan .builtin logsOnce).map (·.collaborator) = [some logger]
      ∧ (∀ inv ∈ scan .builtin logsOnce, ∀ v, inv.collaborator = some v → cls.left < inv.span.start
        ∧ inv.span.start < cls.right ∧ inv.isInside (staticBodies logsOnce) = false
        ∧ ∃ w ∈ report.requirements, w.name = v.name)
      ∧ ∃ inner, classBody (convertedStream .builtin logsOnce) = .ok inner ∧ inner.left = cls.left
        ∧ inner.right = Edit.placeOf logsOnce.tokens.toList (callEdits .builtin logsOnce) cls.right
        ∧ ∀ e ∈ defaultMigrator.insertions logsOnce, inner.left < e.span.start ∧ e.span.start ≤ inner.right := by
  have hrun : convertsTo (fun _ _ => true) (defaultMigrator.migrate "A.php" logsOnce) = true := by
    rw [migrate_eq, show logsOnce = .ofTokens _ from ofSource_ofList _]
    decide +kernel
  have hscan : (scan .builtin logsOnce).map (·.collaborator) = [some logger] := by
    rw [show logsOnce = .ofTokens _ from ofSource_ofList _]
    decide +kernel
  have hclass : ((classBody logsOnce).toOption.any fun cls => (List.range logsOnce.size).all fun i =>
      !(logsOnce.get? i).any isMage || (logsOnce.followedBy? i .doubleColon).all fun colons =>
        decide (cls.left < colons) && decide (colons < cls.right)) = true := by
    rw [show logsOnce = .ofTokens _ from ofSource_ofList _]
    decide +kernel
  obtain ⟨out, report, hout, -⟩ := of_convertsTo hrun
  obtain ⟨cls, hcls, hclass⟩ := of_any_ok hclass
  refine ⟨out, report, cls, hout, hcls, hscan,
    migrate_injects_where_used .builtin hout hcls fun i t colons ht hmage hfollows => ?_⟩
  have hall := List.all_eq_true.mp hclass i (List.mem_range.mpr (lt_get? ht))
  rw [ht, hfollows] at hall
  simpa [hmage] using hall

def logsBeforeClass : TokenStream := .ofSource "<?php function f()\x7bMage::log(1);\x7d class A\x7b\x7d"

/-- A call outside every class is converted, and its collaborator goes to a class that does not hold the call. -/
theorem migrate_converts_outside_class :
    ∃ out report cls inv, defaultMigrator.migrate "A.php" logsBeforeClass = .ok (.converted out report)
      ∧ classBody logsBeforeClass = .ok cls ∧ scan .builtin logsBeforeClass = [inv]
      ∧ inv.collaborator = some logger ∧ report.requirements = [logger] ∧ inv.span.stop ≤ cls.left := by
  have hrun : convertsTo (fun _ report => report.requirements == [logger])
      (defaultMigrator.migrate "A.php" logsBeforeClass) = true := by
    rw [migrate_eq, show logsBeforeClass = .ofTokens _ from ofSource_ofList _]
    decide +kernel
  have hscan : ((scan .builtin logsBeforeClass).length == 1 && (scan .builtin logsBeforeClass).all fun inv =>
      inv.collaborator == some logger
        && (classBody logsBeforeClass).toOption.any fun cls => decide (inv.span.stop ≤ cls.left)) = true := by
    rw [show logsBeforeClass = .ofTokens _ from ofSource_ofList _]
    decide +kernel
  obtain ⟨out, report, hout, hrun⟩ := of_convertsTo hrun
  obtain ⟨inv, hinv, hscan⟩ := exists_eq_singleton hscan
  rw [Bool.and_eq_true, beq_iff_eq] at hscan
  obtain ⟨cls, hcls, hstop⟩ := of_any_ok hscan.2
  exact ⟨out, report, cls, inv, hout, hcls, hinv, hscan.1, beq_iff_eq.mp hrun, of_decide_eq_true hstop⟩

end MageUplift
