import MageUplift.Proofs.CallsLeftBehind

/-!
# Calls in static functions

There is no `$this` in a static function, so a call that needs a collaborator stays as it is there. The scan finds
static functions by walking back over the modifiers in front of `function`, and their bodies by walking over the
signature behind it. Here both walks are told by what they find: a `static` among the modifiers (`StaticBefore`), and
the braces behind the signature (`FunctionBraces`).

A static arrow function has no `$this` either, but `fn` is not looked at: a call in its expression is converted
(`migrate_converts_in_static_arrow`).
-/

namespace MageUplift

open Php TokenStream Call Magento List Option

variable {k : Kind} {body : Span}

/-! ## §1. The modifiers of a function. -/

def StaticBefore (s : TokenStream) (i : Nat) : Prop :=
  ∃ j, j < i ∧ s.kind? j = some (.keyword .staticKw)
    ∧ ∀ m, j < m → m < i → ∃ k, s.kind? m = some k ∧ (k.isTrivia = true ∨ k.isModifier = true)

section

variable {s : TokenStream} {i : Nat}

theorem not_staticBefore_of_none (hi : i ≤ s.size) (h : s.prevSignificant? i = none) : ¬ StaticBefore s i := by
  rintro ⟨j, hji, hj, -⟩
  obtain ⟨t, ht, hkind⟩ := map_eq_some_iff.mp hj
  obtain ⟨n, hn, -⟩ := exists_prev hji hi ht (by rw [Token.isTrivia, hkind]; rfl)
  rw [h] at hn
  cases hn

theorem staticBefore_iff {prev : Nat} (hi : i ≤ s.size) (hprev : s.prevSignificant? i = some prev)
    (hk : s.kind? prev = some k) : StaticBefore s i ↔
      k = .keyword .staticKw ∨ (k.isModifier ∧ StaticBefore s prev) := by
  have hlt := lt_of_prev hprev
  have htrivia := triviaIn_of_prev hi hprev
  obtain ⟨t, ht, hsig⟩ := prev_token hprev
  have hkt : t.kind = k := by
    rw [kind?_get? ht, some.injEq] at hk
    exact hk
  constructor
  · rintro ⟨j, hji, hj, hbtw⟩
    rcases Nat.lt_trichotomy j prev with hjp | rfl | hpj
    · obtain ⟨k', hk', hcase⟩ := hbtw prev hjp hlt
      rw [hk, some.injEq] at hk'
      rw [← hk', ← hkt] at hcase
      rcases hcase with htriv | hmod
      · rw [Token.isTrivia] at hsig
        rw [hsig] at htriv
        cases htriv
      · exact .inr ⟨hkt ▸ hmod, j, hjp, hj, fun m hm hmp => hbtw m hm (by omega)⟩
    · rw [hk, some.injEq] at hj
      exact .inl hj
    · -- between the two there is only trivia
      obtain ⟨u, hu, hkind⟩ := map_eq_some_iff.mp hj
      have := htrivia.isTrivia (show prev + 1 ≤ j by omega) hji hu
      rw [Token.isTrivia, hkind] at this
      cases this
  · have hgap : ∀ m, prev < m → m < i → ∃ k, s.kind? m = some k ∧ (k.isTrivia ∨ k.isModifier) := by
      intro m hm hmi
      obtain ⟨u, hu, huTrivia⟩ := htrivia m hm hmi
      exact ⟨u.kind, kind?_get? hu, .inl huTrivia⟩
    rintro (rfl | ⟨hmod, j, hjp, hj, hbtw⟩)
    · exact ⟨prev, hlt, hk, hgap⟩
    · refine ⟨j, by omega, hj, fun m hm hmi => ?_⟩
      rcases Nat.lt_trichotomy m prev with hmp | rfl | hpm
      · exact hbtw m hm hmp
      · exact ⟨k, hk, .inr hmod⟩
      · exact hgap m hpm hmi

/-- **The walk back over the modifiers** finds a `static` wherever there is one. -/
theorem isStaticBefore_iff (hi : i ≤ s.size) : isStaticBefore s i ↔ StaticBefore s i := by
  fun_induction isStaticBefore s i with
  | case1 i hnone => simp [not_staticBefore_of_none hi hnone]
  | case2 i prev hprev hk => simp [staticBefore_iff hi hprev hk]
  | case3 i prev hprev k hstatic hk hmod ih =>
    have hlt := lt_of_prev hprev
    rw [staticBefore_iff hi hprev hk, ih (by omega)]
    exact ⟨fun h => .inr ⟨hmod, h⟩, fun h => h.elim (fun heq => (hstatic heq).elim) And.right⟩
  | case4 i prev hprev k hstatic hk hmod =>
    rw [staticBefore_iff hi hprev hk]
    refine ⟨nofun, ?_⟩
    rintro (heq | ⟨h, -⟩)
    · exact (hstatic heq).elim
    · exact (hmod h).elim
  | case5 i prev hprev hk =>
    obtain ⟨t, ht, -⟩ := prev_token hprev
    rw [kind?_get? ht] at hk
    cases hk

end

/-! ## §2. The body of a function. -/

/-- A signature goes on from `i` up to `stop`: parentheses are passed as a whole, and outside of them nothing has one of
the kinds `ends`. -/
inductive SignatureRun (s : TokenStream) (ends : List Kind) : Nat → Nat → Prop where
  | nil (i : Nat) : SignatureRun s ends i i
  | token {i stop : Nat} {k : Kind} (kind : s.kind? i = some k) (plain : k ∉ .leftParen :: ends)
      (rest : SignatureRun s ends (i + 1) stop) : SignatureRun s ends i stop
  | parens {i close stop : Nat} (kind : s.kind? i = some .leftParen) (closes : s.matchingClose? i = some close)
      (rest : SignatureRun s ends (close + 1) stop) : SignatureRun s ends i stop

/-- Behind the word at `f` there is a parameter list, and the signature goes on up to `stop`. -/
def SignatureTo (s : TokenStream) (ends : List Kind) (f stop : Nat) : Prop :=
  ∃ left right, f ≤ left ∧ s.kind? left = some .leftParen ∧ (∀ m, f ≤ m → m < left → s.kind? m ≠ some .leftParen)
    ∧ s.matchingClose? left = some right ∧ SignatureRun s ends (right + 1) stop

/-- The kinds that end the signature of a `function`: what follows is its body, or it has none. -/
def functionEnds : List Kind := [.leftBrace, .semicolon]

/-- The body of the function whose `function` stands at `f` is what stands between the braces at `left` and `right`. -/
structure FunctionBraces (s : TokenStream) (f left right : Nat) : Prop where
  isFunction : s.kind? f = some (.keyword .functionKw)
  signature : SignatureTo s functionEnds f left
  brace : s.kind? left = some .leftBrace
  closes : s.matchingClose? left = some right

section

variable {s : TokenStream} {i f left right : Nat}

theorem functionBodyFrom?_iff :
    functionBodyFrom? s i = some left ↔ SignatureRun s functionEnds i left ∧ s.kind? left = some .leftBrace := by
  constructor
  · intro h
    fun_induction functionBodyFrom? s i with
    | case1 i hi hk =>
      cases h
      exact ⟨.nil _, (kind?_eq_getElem hi).trans (congrArg some hk)⟩
    | case2 | case3 | case6 => cases h
    | case4 i hi hk close hclose ih =>
      obtain ⟨hrun, hbrace⟩ := ih h
      exact ⟨.parens ((kind?_eq_getElem hi).trans (congrArg some hk)) hclose hrun, hbrace⟩
    | case5 i hi hbrace hsemi hparen ih =>
      obtain ⟨hrun, hleft⟩ := ih h
      have hplain : s.tokens[i].kind ∉ .leftParen :: functionEnds := by
        simp only [functionEnds, mem_cons, not_mem_nil, or_false, not_or]
        exact ⟨hparen, hbrace, hsemi⟩
      exact ⟨.token (kind?_eq_getElem hi) hplain hrun, hleft⟩
  · rintro ⟨hrun, hbrace⟩
    induction hrun with
    | nil i =>
      have hi : i < s.tokens.size := lt_kind? hbrace
      rw [kind?_eq_getElem hi, some.injEq] at hbrace
      unfold functionBodyFrom?
      rw [dif_pos hi, hbrace]
    | @token i stop k kind plain rest ih =>
      have hi : i < s.tokens.size := lt_kind? kind
      rw [kind?_eq_getElem hi, some.injEq] at kind
      rw [← kind] at plain
      unfold functionBodyFrom?
      rw [dif_pos hi]
      split
      · simp_all [functionEnds]
      · simp_all [functionEnds]
      · simp_all
      · exact ih hbrace
    | @parens i close stop kind closes rest ih =>
      have hi : i < s.tokens.size := lt_kind? kind
      rw [kind?_eq_getElem hi, some.injEq] at kind
      unfold functionBodyFrom?
      rw [dif_pos hi, kind]
      dsimp only
      split
      · rename_i hnone
        rw [hnone] at closes
        cases closes
      · rename_i close' hclose'
        rw [hclose', some.injEq] at closes
        rw [closes]
        exact ih hbrace

theorem nextOfKind?_iff {j : Nat} : s.nextOfKind? i k = some j ↔
    i ≤ j ∧ s.kind? j = some k ∧ ∀ m, i ≤ m → m < j → s.kind? m ≠ some k := by
  constructor
  · intro h
    obtain ⟨hle, ⟨t, ht, hp⟩, hbef⟩ := findFrom?_spec h
    refine ⟨hle, by rw [kind?_get? ht, eq_of_beq hp], fun m him hmj hkind => ?_⟩
    obtain ⟨u, hu, hne⟩ := hbef m him hmj
    rw [kind?_get? hu, some.injEq] at hkind
    rw [hkind, beq_self_eq_true] at hne
    cases hne
  · rintro ⟨hle, hk, hbef⟩
    obtain ⟨t, ht, hkind⟩ := map_eq_some_iff.mp hk
    refine findFrom?_eq_some hle ht (beq_iff_eq.mpr hkind) fun m him hmj => ?_
    obtain ⟨u, hu⟩ := get?_of_lt (hmj.trans (lt_get? ht))
    refine ⟨u, hu, beq_eq_false_iff_ne.mpr fun heq => hbef m him hmj ?_⟩
    rw [kind?_get? hu, heq]

theorem functionBody?_iff (hf : s.kind? f = some (.keyword .functionKw)) :
    functionBody? s f = some body ↔ ∃ left right, FunctionBraces s f left right ∧ body = ⟨left, right + 1⟩ := by
  simp only [functionBody?, bind_eq_bind, bind_eq_some_iff, Option.pure_def, some.injEq]
  constructor
  · rintro ⟨open_, hopen, close, hclose, left, hleft, right, hright, rfl⟩
    obtain ⟨hle, hkind, hfst⟩ := nextOfKind?_iff.mp hopen
    obtain ⟨hrun, hbrace⟩ := functionBodyFrom?_iff.mp hleft
    exact ⟨left, right, ⟨hf, ⟨open_, close, hle, hkind, hfst, hclose, hrun⟩, hbrace, hright⟩, rfl⟩
  · rintro ⟨left, right, ⟨-, ⟨open_, close, hle, hkind, hfst, hclose, hrun⟩, hbrace, hright⟩, rfl⟩
    exact ⟨open_, nextOfKind?_iff.mpr ⟨hle, hkind, hfst⟩, close, hclose, left,
      functionBodyFrom?_iff.mpr ⟨hrun, hbrace⟩, right, hright, rfl⟩

/-- The function at `f` is static, and its body is what stands between the braces at `left` and `right`. -/
structure StaticFunction (s : TokenStream) (f left right : Nat) : Prop extends FunctionBraces s f left right where
  isStatic : StaticBefore s f

theorem mem_staticBodies_iff :
    body ∈ staticBodies s ↔ ∃ f left right, StaticFunction s f left right ∧ body = ⟨left, right + 1⟩ := by
  simp only [staticBodies, mem_filterMap, mem_range]
  constructor
  · rintro ⟨f, hf, hbody⟩
    split at hbody
    · rename_i hcond
      rw [Bool.and_eq_true, hasKind, beq_iff_eq] at hcond
      obtain ⟨left, right, hbraces, rfl⟩ := (functionBody?_iff hcond.1).mp hbody
      exact ⟨f, left, right, ⟨hbraces, (isStaticBefore_iff hf.le).mp hcond.2⟩, rfl⟩
    · cases hbody
  · rintro ⟨f, left, right, hstatic, rfl⟩
    have hf := lt_kind? hstatic.isFunction
    refine ⟨f, hf, ?_⟩
    rw [if_pos (by
      rw [Bool.and_eq_true, hasKind, beq_iff_eq]
      exact ⟨hstatic.isFunction, (isStaticBefore_iff hf.le).mpr hstatic.isStatic⟩)]
    exact (functionBody?_iff hstatic.isFunction).mpr ⟨left, right, hstatic.toFunctionBraces, rfl⟩

end

/-! ## §3. Calls between braces. -/

section

variable {table : AliasTable} {s : TokenStream} {inv : Invocation} {left right : Nat}

theorem Call.Anatomy.brace_outside (h : Anatomy s inv) {p : Nat} (hp : s.kind? p = some .rightBrace)
    (hstart : inv.span.start < p) : inv.headEnd ≤ p := by
  by_contra hin
  obtain ⟨path, last, hpath, follows, headEnd⟩ := h.head_path
  have hpaths : ∀ path ∈ headPaths, ¬ (Kind.rightBrace.isTrivia ∨ Kind.rightBrace ∈ path) := by decide
  exact hpaths path hpath (follows.kind_mem hstart (by omega) hp)

theorem IsCallOf.stop_le_of_between (h : IsCallOf table s inv) (hbrace : s.kind? left = some .leftBrace)
    (hclose : s.matchingClose? left = some right) (hleft : left < inv.span.start) (hright : inv.span.start < right) :
    inv.span.stop ≤ right := by
  obtain ⟨k, hopen, hk⟩ := opener_close hclose
  rw [hbrace] at hopen
  cases hopen
  have hhead := h.anatomy.brace_outside hk hright
  cases h.anatomy with
  | closed _ _ headEnd stop => omega
  | @opened paren close _ _ closes _ headEnd stop =>
    -- the argument list opens between the braces, so it is closed between them
    obtain ⟨k', hparen, -⟩ := opener_close closes
    have hstart := h.anatomy.start_lt_headEnd
    obtain ⟨d, hd, hdr⟩ := close_inside hclose (show left < paren by omega) (by omega) hparen
    rw [closes, some.injEq] at hd
    omega

/-- The token at `i` stands between the braces of a static function. -/
def InStaticFunction (s : TokenStream) (i : Nat) : Prop :=
  ∃ f left right, StaticFunction s f left right ∧ left < i ∧ i < right

theorem inside_static_iff (h : IsCallOf table s inv) :
    inv.isInside (staticBodies s) ↔ InStaticFunction s inv.span.start := by
  simp only [Invocation.isInside, List.any_eq_true, Bool.and_eq_true, decide_eq_true_eq]
  constructor
  · rintro ⟨body, hbody, hstart, hstop⟩
    obtain ⟨f, left, right, hstatic, rfl⟩ := mem_staticBodies_iff.mp hbody
    have hhead := h.anatomy.start_lt_headEnd
    have hend := h.anatomy.headEnd_le_stop
    refine ⟨f, left, right, hstatic, hstart, Nat.lt_of_le_of_ne (by dsimp only at hstop; omega) fun heq => ?_⟩
    -- the closing brace is no `Mage`
    obtain ⟨k, hopen, hk⟩ := opener_close hstatic.closes
    rw [hstatic.brace] at hopen
    cases hopen
    obtain ⟨t, ht, hmage⟩ := h.isMage
    rw [← heq, kind?_get? ht, some.injEq] at hk
    rcases isMage_kind hmage with hkind | hkind <;> rw [hkind] at hk <;> cases hk
  · rintro ⟨f, left, right, hstatic, hleft, hright⟩
    refine ⟨⟨left, right + 1⟩, mem_staticBodies_iff.mpr ⟨f, left, right, hstatic, rfl⟩, hleft, ?_⟩
    exact Nat.le_succ_of_le (h.stop_le_of_between hstatic.brace hstatic.closes hleft hright)

end

/-! ## §4. The calls of a migrated file. -/

/-- **Which calls are converted.** The report of a migrated file lists the calls of its scan, and of all recognised
calls these are those that need no collaborator and those that stand in the body of no static function, whatever
the order of its modifiers, however deep the call is nested in it. -/
theorem migrate_spares_static_functions {m : Migrator} {file : String} {s out : TokenStream} {report : FileReport}
    (hrun : m.migrate file s = .ok (.converted out report)) :
    (∃ r, report = .of file s (scan m.table s) r)
      ∧ ∀ inv i, matchAt? m.table s i = some inv →
        (inv ∈ scan m.table s ↔ (inv.collaborator.isSome = true → ¬ InStaticFunction s i)) := by
  obtain ⟨r, -, -, -, -, hreport⟩ := migrate_cases hrun
  refine ⟨⟨r, hreport⟩, fun inv i hmatch => ?_⟩
  have hcall := IsCallOf.of_matchAt? hmatch
  have hiff := inside_static_iff hcall
  rw [(matchAt?_anatomy hmatch).1] at hiff
  have hconv : inv.isConvertible (staticBodies s) ↔
      (inv.collaborator.isSome → ¬ InStaticFunction s i) := by
    rw [Invocation.isConvertible, ← hiff]
    cases inv.isInside (staticBodies s) <;> cases inv.collaborator.isSome <;> simp
  rw [← hconv]
  exact ⟨fun hmem => (mem_scanFrom hmem).2.2, mem_scan hmatch⟩

/-- A static function around another one, and a function that is not static. -/
def logsInClosure : TokenStream :=
  .ofSource "<?php class A\x7bstatic final function f()\x7bfunction()\x7bMage::log();\x7d;\x7dfunction g()\x7bMage::log();\x7d\x7d"

theorem migrate_spares_static_functions_logsInClosure :
    ∃ out report, defaultMigrator.migrate "A.php" logsInClosure = .ok (.converted out report)
      ∧ report.calls.map (·.pattern) = [.log]
      ∧ ∃ i j spared converted, matchAt? .builtin logsInClosure i = some spared
        ∧ matchAt? .builtin logsInClosure j = some converted ∧ InStaticFunction logsInClosure i
        ∧ ¬ InStaticFunction logsInClosure j ∧ spared ∉ scan .builtin logsInClosure
        ∧ converted ∈ scan .builtin logsInClosure := by
  have hrun : convertsTo (fun _ report => report.calls.map (·.pattern) == [.log])
      (defaultMigrator.migrate "A.php" logsInClosure) = true := by
    rw [migrate_eq, show logsInClosure = .ofTokens _ from ofSource_ofList _]
    decide +kernel
  have hscan : ((scan .builtin logsInClosure).length == 1 && (scan .builtin logsInClosure).all fun inv =>
      inv.span.start == 34 && inv.collaborator.isSome) = true := by
    rw [show logsInClosure = .ofTokens _ from ofSource_ofList _]
    decide +kernel
  have hspared : ((matchAt? .builtin logsInClosure 19).any fun inv => inv.collaborator.isSome) = true := by
    rw [show logsInClosure = .ofTokens _ from ofSource_ofList _]
    decide +kernel
  obtain ⟨out, report, hout, hrun⟩ := of_convertsTo hrun
  obtain ⟨converted, hcalls, hscan⟩ := exists_eq_singleton hscan
  rw [Bool.and_eq_true, beq_iff_eq] at hscan
  obtain ⟨spared, hmatch, -⟩ := (Option.any_eq_true _ _).mp hspared
  have hiff := (migrate_spares_static_functions hout).2
  have hin₂ : converted ∈ scan .builtin logsInClosure := by simp [hcalls]
  have hconv : matchAt? .builtin logsInClosure 34 = some converted :=
    hscan.1 ▸ (scan_callsInOrder .builtin logsInClosure).isCall converted hin₂
  have hout₁ : spared ∉ scan .builtin logsInClosure := by
    rw [hcalls, List.mem_singleton]
    rintro rfl
    have := (matchAt?_anatomy hmatch).1
    omega
  refine ⟨out, report, hout, beq_iff_eq.mp hrun, 19, 34, spared, converted, hmatch, hconv, ?_, ?_, hout₁, hin₂⟩
  · exact Classical.byContradiction fun hnot => hout₁ ((hiff spared 19 hmatch).mpr fun _ => hnot)
  · exact (hiff converted 34 hconv).mp hin₂ hscan.2

/-! ## §5. Static arrow functions. -/

/-- An expression goes on from `i` up to `stop`, the first comma, semicolon or closing bracket outside its own brackets.
-/
inductive ExpressionRun (s : TokenStream) : Nat → Nat → Prop where
  | ends {i : Nat} {k : Kind} (kind : s.kind? i = some k) (mark : k = .comma ∨ k = .semicolon ∨ k.isCloser = true) :
      ExpressionRun s i i
  | token {i stop : Nat} {k : Kind} (kind : s.kind? i = some k) (plain : k ≠ .comma ∧ k ≠ .semicolon ∧ k.isPlain = true)
      (rest : ExpressionRun s (i + 1) stop) : ExpressionRun s i stop
  | brackets {i close stop : Nat} (closes : s.matchingClose? i = some close) (rest : ExpressionRun s (close + 1) stop) :
      ExpressionRun s i stop

/-- The arrow function whose `fn` stands at `f` is static; its expression stands between its arrow and `stop`. -/
structure StaticArrow (s : TokenStream) (f arrow stop : Nat) : Prop where
  isArrow : s.kind? f = some (.keyword .fnKw)
  isStatic : StaticBefore s f
  signature : SignatureTo s [.fatArrow] f arrow
  fatArrow : s.kind? arrow = some .fatArrow
  expression : ExpressionRun s (arrow + 1) stop

def logsInArrow : TokenStream := .ofSource "<?php class A\x7bfunction f()\x7breturn static fn()=>Mage::log(1);\x7d\x7d"

/-- A call in the expression of a static arrow function is converted: it reads its collaborator from a `$this` that is
not there. -/
theorem migrate_converts_in_static_arrow :
    ∃ out report inv f arrow stop, defaultMigrator.migrate "A.php" logsInArrow = .ok (.converted out report)
      ∧ scan .builtin logsInArrow = [inv] ∧ report.calls.map (·.modern) = ["$this->logger->debug"]
      ∧ inv.collaborator = some logger ∧ StaticArrow logsInArrow f arrow stop
      ∧ arrow < inv.span.start ∧ inv.span.start < stop := by
  have hrun : convertsTo (fun _ report => report.calls.map (·.modern) == ["$this->logger->debug"])
      (defaultMigrator.migrate "A.php" logsInArrow) = true := by
    rw [migrate_eq, show logsInArrow = .ofTokens _ from ofSource_ofList _]
    decide +kernel
  have hscan : ((scan .builtin logsInArrow).length == 1 && (scan .builtin logsInArrow).all fun inv =>
      inv.collaborator == some logger && inv.span.start == 19) = true := by
    rw [show logsInArrow = .ofTokens _ from ofSource_ofList _]
    decide +kernel
  have hkinds : logsInArrow.kinds.drop 13 = [.keyword .staticKw, .whitespace, .keyword .fnKw, .leftParen, .rightParen,
      .fatArrow, .identifier, .doubleColon, .identifier, .leftParen, .number, .rightParen, .semicolon, .rightBrace,
      .rightBrace] := by
    rw [show logsInArrow = .ofTokens _ from ofSource_ofList _]
    decide +kernel
  have hkind : ∀ n, logsInArrow.kind? (13 + n) = (logsInArrow.kinds.drop 13)[n]? := fun n => by
    rw [kind?_eq, List.getElem?_drop]
  rw [hkinds] at hkind
  have hbrs : logsInArrow.matchingClose? 16 = some 17 ∧ logsInArrow.matchingClose? 22 = some 24 := by
    rw [show logsInArrow = .ofTokens _ from ofSource_ofList _]
    decide +kernel
  have harrow : StaticArrow logsInArrow 15 18 25 :=
    { isArrow := hkind 2
      isStatic := ⟨13, by decide, hkind 0, fun m h₁ h₂ => by
        obtain rfl : m = 14 := by omega
        exact ⟨_, hkind 1, .inl rfl⟩⟩
      signature := ⟨16, 17, by decide, hkind 3, fun m h₁ h₂ => by
        obtain rfl : m = 15 := by omega
        rw [show logsInArrow.kind? 15 = some (.keyword .fnKw) from hkind 2]
        decide, hbrs.1, .nil 18⟩
      fatArrow := hkind 5
      expression := .token (hkind 6) (by decide) <| .token (hkind 7) (by decide) <| .token (hkind 8) (by decide) <|
        .brackets hbrs.2 <| .ends (hkind 12) (by decide) }
  obtain ⟨out, report, hout, hrun⟩ := of_convertsTo hrun
  obtain ⟨inv, hinv, hscan⟩ := exists_eq_singleton hscan
  rw [Bool.and_eq_true, beq_iff_eq, beq_iff_eq] at hscan
  exact ⟨out, report, inv, 15, 18, 25, hout, hinv, beq_iff_eq.mp hrun, hscan.1, harrow, by omega, by omega⟩

end MageUplift
