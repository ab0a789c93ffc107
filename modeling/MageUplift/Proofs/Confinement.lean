import MageUplift.Proofs.InjectionPoints
import MageUplift.Proofs.ScannedCalls

/-!
# Edits neither conflict nor spill over

A file is migrated in two batches: the edits of all its legacy calls, and then the insertions into the
class. Both batches always fit the stream they are meant for, so a file is never refused because of
them, and the pass is two weaves and a fresh reading (`migrate_cases`).

From this form one reads off, token by token, what happens to a file: a token is dropped only when it
stands in the head of a converted call or is the comma that a read of the store configuration replaces,
and new text stands only at the places that calls and injections edit.
-/

namespace MageUplift

open Php TokenStream Call Wiring Magento List Edit

variable {m : Migrator} {s : TokenStream} {r r' : Requirements} {inv : Invocation} {file : String}
  {report : FileReport} {calls : List Invocation} {i : Nat} {inserts : List (Edit Token)}

/-! ## §1. The pass as two weaves. -/

def callEdits (table : AliasTable) (s : TokenStream) : List (Edit Token) :=
  (scan table s).flatMap Invocation.edits

def convertedStream (table : AliasTable) (s : TokenStream) : TokenStream :=
  .ofTokens (weave s.tokens.toList (callEdits table s))

theorem callEdits_fit (table : AliasTable) (s : TokenStream) : Fits s.size (callEdits table s) :=
  (scan_callsInOrder table s).edits_fit

theorem callEdits_distinct (table : AliasTable) (s : TokenStream) :
    (callEdits table s).Pairwise fun a b => a.span.start ≠ b.span.start :=
  (scan_callsInOrder table s).edits_distinct

theorem apply_eq_weave {edits : List (Edit Token)} (h : Fits s.size edits) :
    s.apply edits = .ok (.ofTokens (weave s.tokens.toList edits)) := by
  unfold TokenStream.apply
  rw [applyAll_eq_weave (by rwa [Array.length_toList])]
  rfl

theorem convertCalls_scan (table : AliasTable) (s : TokenStream) :
    Migrator.convertCalls s (scan table s) = .ok (convertedStream table s) := by
  show (s.apply (callEdits table s)).mapError MigrationError.edit = _
  rw [apply_eq_weave (callEdits_fit table s)]
  rfl

theorem wire_eq (m : Migrator) (s : TokenStream) (r : Requirements) :
    m.wire s r = ((inject s m.indent r).mapError MigrationError.inject).map fun edits =>
      .ofTokens (weave s.tokens.toList edits) := by
  unfold Migrator.wire
  by_cases hr : r.isEmpty
  · rw [if_pos hr, inject_of_isEmpty hr]
    show Except.ok s = Except.ok (ofTokens (weave s.tokens.toList []))
    rw [weave, weaveFrom_nil]
    rfl
  · rw [if_neg hr]
    cases hinj : inject s m.indent r with
    | error e => rfl
    | ok edits =>
      show (s.apply edits).mapError MigrationError.edit = Except.ok _
      rw [apply_eq_weave (inject_fits hinj)]
      rfl

/-- **The whole pass**: the calls of a file that declares a class are converted, the insertions of the
injector are woven in, and the text is read anew. -/
theorem migrate_eq (m : Migrator) (file : String) (s : TokenStream) :
    m.migrate file s = if (classKeyword? s).isNone then .ok .skipped else
      (m.collect (scan m.table s)).bind fun r =>
        ((inject (convertedStream m.table s) m.indent r).mapError MigrationError.inject).map fun edits =>
          .converted
            (TokenStream.ofTokens (weave (convertedStream m.table s).tokens.toList edits)).refresh
            (.of file s (scan m.table s) r) := by
  unfold Migrator.migrate
  split
  · rfl
  · show (m.collect (scan m.table s) >>= fun r => Migrator.convertCalls s (scan m.table s) >>= fun converted =>
      m.wire converted r >>= fun wired => pure _) = _
    rw [convertCalls_scan]
    show ((m.collect (scan m.table s)).bind fun r => m.wire (convertedStream m.table s) r >>= _) = _
    congr 1
    funext r
    rw [wire_eq]
    cases inject (convertedStream m.table s) m.indent r <;> rfl

theorem migrate_cases {out : TokenStream} (h : m.migrate file s = .ok (.converted out report)) :
    ∃ r edits, m.collect (scan m.table s) = .ok r
      ∧ inject (convertedStream m.table s) m.indent r = .ok edits
      ∧ out = (TokenStream.ofTokens (weave (convertedStream m.table s).tokens.toList edits)).refresh
      ∧ report = .of file s (scan m.table s) r := by
  rw [migrate_eq] at h
  split at h
  · cases h
  · obtain ⟨r, hr, h⟩ := exists_of_bind_ok h
    cases hinj : inject (convertedStream m.table s) m.indent r with
    | error e =>
      rw [hinj] at h
      cases h
    | ok edits =>
      rw [hinj] at h
      cases h
      exact ⟨r, edits, hr, hinj, rfl, rfl⟩

/-- A migration ends with a file and a report that pass a test. -/
def convertsTo (p : TokenStream → FileReport → Bool) : Except MigrationError Outcome → Bool
  | .ok (.converted out report) => p out report
  | _ => false

theorem of_convertsTo {p : TokenStream → FileReport → Bool} {x : Except MigrationError Outcome}
    (h : convertsTo p x) : ∃ out report, x = .ok (.converted out report) ∧ p out report := by
  unfold convertsTo at h
  split at h
  · exact ⟨_, _, rfl, h⟩
  · cases h

/-! ## §2. No conflicts. -/

def Migrator.ask (m : Migrator) (r : Requirements) (inv : Invocation) : Except MigrationError Requirements :=
  match inv.collaborator with
  | none => .ok r
  | some v =>
    match r.record m.policy v with
    | .ok recorded => .ok recorded.2
    | .error c => .error (.conflict c inv.pattern inv.span)

theorem collect_eq_foldlM (m : Migrator) (calls : List Invocation) : m.collect calls = calls.foldlM m.ask .empty := rfl

theorem Migrator.ask_eq_ok (h : m.ask r inv = .ok r') : inv.collaborator = none ∧ r' = r
      ∨ ∃ v recorded, inv.collaborator = some v ∧ r.record m.policy v = .ok recorded ∧ r' = recorded.2 := by
  unfold Migrator.ask at h
  split at h
  · exact .inl ⟨‹_›, (Except.ok.inj h).symm⟩
  · split at h
    · exact .inr ⟨_, _, ‹_›, ‹_›, (Except.ok.inj h).symm⟩
    · cases h

theorem foldlM_ask_induction {P : Requirements → Prop}
    (hstep : ∀ inv ∈ calls, ∀ v, inv.collaborator = some v → ∀ r recorded, P r → r.record m.policy v = .ok recorded →
      P recorded.2) (hr : P r) (h : calls.foldlM m.ask r = .ok r') : P r' := by
  induction calls generalizing r with
  | nil =>
    cases h
    exact hr
  | cons inv calls ih =>
    rw [foldlM_cons] at h
    obtain ⟨r₁, hask, h⟩ := exists_of_bind_ok h
    refine ih (forall_mem_cons.mp hstep).2 ?_ h
    obtain ⟨-, rfl⟩ | ⟨v, recorded, hv, hrec, rfl⟩ := Migrator.ask_eq_ok hask
    · exact hr
    · exact hstep inv mem_cons_self v hv _ _ hr hrec

theorem collect_error {e : MigrationError}
    (h : m.collect calls = .error e) : ∃ c pattern span, e = .conflict c pattern span := by
  rw [collect_eq_foldlM] at h
  generalize Requirements.empty = r at h
  induction calls generalizing r with
  | nil => cases h
  | cons inv calls ih =>
    rw [foldlM_cons] at h
    cases hask : m.ask r inv with
    | ok r' =>
      rw [hask] at h
      exact ih r' h
    | error cause =>
      rw [hask] at h
      cases h
      unfold Migrator.ask at hask
      split at hask
      · cases hask
      · split at hask
        · cases hask
        · cases hask
          exact ⟨_, _, _, rfl⟩

theorem migrate_ne_edit (m : Migrator) (file : String) (s : TokenStream) (e : Error) :
    m.migrate file s ≠ .error (.edit e) := by
  intro h
  rw [migrate_eq] at h
  split at h
  · cases h
  · cases hcoll : m.collect (scan m.table s) with
    | error cause =>
      rw [hcoll] at h
      obtain ⟨c, pattern, span, rfl⟩ := collect_error hcoll
      cases h
    | ok r =>
      rw [hcoll] at h
      cases hinj : inject (convertedStream m.table s) m.indent r with
      | error cause =>
        simp only [Except.bind, hinj] at h
        cases h
      | ok edits =>
        simp only [Except.bind, hinj] at h
        cases h

/-- **Edits never conflict.** Whatever the stream, no migration fails over its edits: the edits of all
calls that a scan finds are in bounds and apart, however the calls are nested; every edit of a recognised call
stays inside the call; and the insertions of the injector are in bounds and apart on the converted stream. -/
theorem migrate_edits_fit (m : Migrator) (file : String) (s : TokenStream) :
    (∀ e, m.migrate file s ≠ .error (.edit e))
      ∧ Edit.Fits s.size ((scan m.table s).flatMap Invocation.edits)
      ∧ (∀ i inv, matchAt? m.table s i = some inv → ∀ e ∈ inv.codeEdits,
          inv.span.start ≤ e.span.start ∧ e.span.start ≤ e.span.stop ∧ e.span.stop ≤ inv.span.stop)
      ∧ ∃ converted, Migrator.convertCalls s (scan m.table s) = .ok converted
        ∧ ∀ indent r edits, inject converted indent r = .ok edits → Edit.Fits converted.size edits := by
  refine ⟨migrate_ne_edit m file s, callEdits_fit m.table s, fun i inv hinv e he => ?_,
    convertedStream m.table s, convertCalls_scan m.table s, fun indent r edits h => inject_fits h⟩
  exact (matchAt?_anatomy hinv).2.2.2.codeEdits_inside he

/-- Reading a text that is given by its characters; evaluation need not decode it. -/
theorem ofSource_ofList (chars : List Char) :
    TokenStream.ofSource (String.ofList chars) = .ofTokens ((steps .html none 0 chars).map LexStep.token) := by
  rw [TokenStream.ofSource, Php.lex, lexSteps, String.toList_ofList]

/-- A file whose calls are nested in each other's arguments, up to the comma that the outer one replaces. -/
def nestedCalls : TokenStream :=
  .ofSource "<?php class A \x7b function f() \x7b Mage::log(Mage::getStoreConfig('a', Mage::app()->getStore())); \x7d \x7d"

theorem migrate_edits_fit_nestedCalls :
    (scan .builtin nestedCalls).map (·.pattern) = [.log, .getStoreConfig, .appStore]
      ∧ Edit.Fits nestedCalls.size ((scan .builtin nestedCalls).flatMap Invocation.edits) :=
  ⟨by rw [show nestedCalls = .ofTokens _ from ofSource_ofList _]; decide +kernel,
    (migrate_edits_fit ⟨.builtin, "    ", .lastWins⟩ "A.php" nestedCalls).2.1⟩

/-! ## §3. What a call drops, and where it writes. -/

/-- The comma that a read of the store configuration replaces: the only one at the top level of its
arguments. -/
def Call.Invocation.storeComma? (s : TokenStream) (inv : Invocation) : Option Nat :=
  if inv.pattern.readsStore then
    match topCommas? s (inv.span.stop - 1) inv.headEnd with
    | some [comma] => some comma
    | _ => none
  else none

/-- The token at `i` goes away with the call: it belongs to the head or is the replaced comma. -/
def Call.Invocation.drops (s : TokenStream) (inv : Invocation) (i : Nat) : Bool :=
  (inv.span.start ≤ i && i < inv.headEnd) || inv.storeComma? s == some i

/-- A call writes in front of the token at `i`: in the place of its head, in the place of the replaced
comma, or before the parenthesis that closes its arguments. -/
def Call.Invocation.WritesAt (s : TokenStream) (inv : Invocation) (i : Nat) : Prop :=
  i = inv.span.start ∨ inv.storeComma? s = some i
    ∨ (inv.headEnd ≤ i ∧ i + 1 = inv.span.stop ∧ s.kind? i = some .rightParen)

theorem Call.Anatomy.storeComma?_iff (h : Anatomy s inv)
    {p : Nat} : inv.storeComma? s = some p ↔ ∃ e, inv.tail = some e ∧ e.span = ⟨p, p + 1⟩ := by
  unfold Invocation.storeComma?
  cases h with
  | closed _ _ _ _ pattern tail => simp [pattern, tail]
  | opened follows closes top headEnd stop tail =>
    rw [stop, Nat.add_sub_cancel, headEnd, top]
    cases tail with
    | untouched pattern tail => simp [pattern, tail]
    | atClose code noComma tail =>
      have hne : ∀ a, Span.empty a ≠ ⟨p, p + 1⟩ := by
        intro a h
        unfold Span.empty at h
        rw [Span.mk.injEq] at h
        omega
      by_cases hpat : inv.pattern.readsStore
      · simp [hpat, noComma hpat, tail, hne]
      · simp [hpat, tail, hne]
    | atComma comma code pattern only tail => simp [pattern, only, tail]

theorem Call.Anatomy.drops_iff (h : Anatomy s inv) :
    inv.drops s i ↔ ∃ e ∈ inv.codeEdits, e.span.start ≤ i ∧ i < e.span.stop := by
  have hcomma := h.storeComma?_iff (p := i)
  simp only [Invocation.drops, Bool.or_eq_true, Bool.and_eq_true, decide_eq_true_eq, beq_iff_eq,
    Invocation.codeEdits, mem_cons, Option.mem_toList, exists_eq_or_imp, hcomma]
  refine or_congr_right (exists_congr fun e => and_congr_right fun he => ⟨fun hspan => ?_, fun hi => ?_⟩)
  · rw [hspan]
    exact ⟨Nat.le_refl _, Nat.lt_succ_self _⟩
  · obtain ⟨_, _, _, _, _, _, _, _, hspan | ⟨comma, _, hspan⟩⟩ := h.tail_cases he
    · rw [hspan] at hi
      exact absurd hi.1 (Nat.not_le.mpr hi.2)
    · rw [hspan] at hi ⊢
      have : comma = i := Nat.le_antisymm hi.1 (Nat.le_of_lt_succ hi.2)
      rw [this]

theorem Call.Anatomy.writesAt (h : Anatomy s inv) {e : CodeEdit}
    (he : e ∈ inv.codeEdits) : inv.WritesAt s e.span.start := by
  rcases Invocation.mem_codeEdits.mp he with rfl | he
  · exact .inl rfl
  · obtain ⟨left, close, commas, hheadEnd, hstop, hclose, -, hkind, hspan | ⟨comma, -, hspan⟩⟩ :=
      h.tail_cases he
    · have := lt_close hclose
      rw [hspan]
      exact .inr (.inr ⟨by show _ ≤ close; omega, hstop.symm, hkind⟩)
    · refine .inr (.inl (h.storeComma?_iff.mpr ⟨e, he, ?_⟩))
      rw [hspan]

/-! ## §4. The edits of all calls. -/

/-- The token at `i` goes away with one of the calls of the file. -/
def isDropped (table : AliasTable) (s : TokenStream) (i : Nat) : Bool :=
  (scan table s).any fun inv => inv.drops s i

theorem covers_callEdits (table : AliasTable) (s : TokenStream) (i : Nat) :
    covers (callEdits table s) i = isDropped table s i := by
  have hcalls := scan_callsInOrder table s
  rw [Bool.eq_iff_iff, covers_iff, isDropped, any_eq_true]
  simp only [callEdits, mem_flatMap]
  constructor
  · rintro ⟨e, ⟨inv, hinv, he⟩, hi⟩
    obtain ⟨c, hc, rfl⟩ := mem_map.mp he
    exact ⟨inv, hinv, (hcalls.isCall inv hinv).anatomy.drops_iff.mpr ⟨c, hc, hi⟩⟩
  · rintro ⟨inv, hinv, hdrops⟩
    obtain ⟨c, hc, hi⟩ := (hcalls.isCall inv hinv).anatomy.drops_iff.mp hdrops
    exact ⟨c.toEdit, ⟨inv, hinv, mem_map.mpr ⟨c, hc, rfl⟩⟩, hi⟩

theorem generatedAt_callEdits {table : AliasTable}
    (h : generatedAt (callEdits table s) i ≠ []) : ∃ inv ∈ scan table s, inv.WritesAt s i := by
  obtain ⟨e, he, rfl⟩ := exists_generatedAt h
  obtain ⟨inv, hinv, he⟩ := mem_flatMap.mp he
  obtain ⟨c, hc, rfl⟩ := mem_map.mp he
  exact ⟨inv, hinv, (isCall_mem hinv).anatomy.writesAt hc⟩

/-- How many tokens of the converted stream the tokens before `i` have become. -/
def convertedOffset (table : AliasTable) (s : TokenStream) (i : Nat) : Nat :=
  offsetOf s.tokens.toList (callEdits table s) i

/-- New text may stand in front of the token at `i`: a call writes there, or the place is an injection
point of the converted stream. -/
def EditPosition (table : AliasTable) (s : TokenStream) (i : Nat) : Prop :=
  (∃ inv ∈ scan table s, inv.WritesAt s i)
    ∨ InjectionPoint (convertedStream table s) (convertedOffset table s i)

/-! ## §5. The text of a migrated file. -/

theorem joinTexts_append (a b : List Token) : joinTexts (a ++ b) = joinTexts a ++ joinTexts b := by
  unfold joinTexts
  rw [map_append, String.join_append]

theorem joinTexts_flatMap {α : Type} (l : List α) (f : α → List Token) :
    joinTexts (l.flatMap f) = String.join (l.map fun x => joinTexts (f x)) := by
  induction l with
  | nil => rfl
  | cons x l ih => rw [flatMap_cons, joinTexts_append, ih, map_cons, String.join_cons]

theorem text_eq_joinTexts (s : TokenStream) (i : Nat) : s.text i = joinTexts s.tokens.toList[i]?.toList := by
  unfold TokenStream.text TokenStream.get?
  rw [Array.getElem?_toList]
  cases s.tokens[i]? <;> simp [joinTexts]

theorem render_refresh (s : TokenStream) : s.refresh.render = s.render := by
  have hsteps := flatMap_steps_text .html none 0 s.render.toList
  apply String.toList_injective
  rw [← hsteps]
  show (String.join _).toList = _
  rw [String.toList_join]
  simp [TokenStream.refresh, ofSource, ofTokens, Php.lex, lexSteps, flatMap_map]

theorem render_ofTokens (tokens : List Token) : (ofTokens tokens).render = joinTexts tokens := by
  unfold TokenStream.render ofTokens
  rw [toList_toArray]

theorem editPosition_of_generated (hinj : inject (convertedStream m.table s) m.indent r = .ok inserts)
    (h : generatedByBoth s.tokens.toList (callEdits m.table s) inserts i ≠ []) : EditPosition m.table s i := by
  by_cases hfst : generatedAt (callEdits m.table s) i = []
  · right
    have hsecond : generatedAt inserts (convertedOffset m.table s i) ≠ [] := by
      intro hnil
      apply h
      unfold convertedOffset at hnil
      simp [generatedByBoth, hfst, stretch, hnil]
    obtain ⟨e, he, hstart⟩ := exists_generatedAt hsecond
    obtain ⟨p, items, rfl, hpoint⟩ := inject_points hinj e he
    rw [← hstart]
    exact hpoint
  · exact .inl (generatedAt_callEdits hfst)

theorem render_migrated (hinj : inject (convertedStream m.table s) m.indent r = .ok inserts) :
    (ofTokens (weave (convertedStream m.table s).tokens.toList inserts)).render
      = String.join ((List.range (s.size + 1)).map fun i =>
          joinTexts (generatedByBoth s.tokens.toList (callEdits m.table s) inserts i)
            ++ if isDropped m.table s i then "" else s.text i) := by
  have hend : covers (callEdits m.table s) s.tokens.toList.length = false := by
    refine covers_eq_false_iff.mpr fun e he _ => ?_
    rw [Array.length_toList]
    exact (Span.fits_iff.mp ((callEdits_fit m.table s).inBounds e he)).2
  rw [render_ofTokens]
  show joinTexts (weave (weave s.tokens.toList (callEdits m.table s)) inserts) = _
  rw [weave_weave (inject_insertions hinj) hend, joinTexts_flatMap, Array.length_toList]
  congr 1
  apply map_congr_left
  intro i _
  rw [joinTexts_append, covers_callEdits, text_eq_joinTexts]
  congr 1
  split <;> rfl

theorem render_of_no_calls {out : TokenStream}
    (h : m.migrate file s = .ok (.converted out report)) (hnone : report.calls = []) : out.render = s.render := by
  obtain ⟨r, edits, hcoll, hinj, rfl, rfl⟩ := migrate_cases h
  have hscan : scan m.table s = [] := map_eq_nil_iff.mp hnone
  rw [hscan] at hcoll
  cases hcoll
  rw [inject_of_isEmpty rfl] at hinj
  cases hinj
  have hedits : callEdits m.table s = [] := by rw [callEdits, hscan, flatMap_nil]
  rw [render_refresh, weave, weaveFrom_nil, convertedStream, hedits, weave,
    weaveFrom_nil]
  rfl

/-- **Nothing is lost and nothing spills over.** The text of a migrated file is the text of its tokens in
order, without those in the head of a reported call and without the comma that a read of the store
configuration replaces; new text stands in front of a token only at an edit position; and a file without
a reported call keeps its text. -/
theorem migrate_confined {m : Migrator} {file : String} {s out : TokenStream} {report : FileReport}
    (h : m.migrate file s = .ok (.converted out report)) :
    (∃ r, report = .of file s (scan m.table s) r)
      ∧ (∃ gap : Nat → String,
        out.render = String.join ((List.range (s.size + 1)).map fun i =>
          gap i ++ if isDropped m.table s i then "" else s.text i)
        ∧ ∀ i, gap i ≠ "" → EditPosition m.table s i)
      ∧ (report.calls = [] → out.render = s.render) := by
  obtain ⟨r, inserts, -, hinj, hout, hreport⟩ := migrate_cases h
  refine ⟨⟨r, hreport⟩,
    ⟨fun i => joinTexts (Edit.generatedByBoth s.tokens.toList (callEdits m.table s) inserts i), ?_,
      fun i hgap => ?_⟩, render_of_no_calls h⟩
  · rw [hout, render_refresh]
    exact render_migrated hinj
  · apply editPosition_of_generated hinj
    intro hnil
    apply hgap
    dsimp only
    rw [hnil]
    rfl

theorem migrate_confined_nestedCalls :
    ∃ out report, Migrator.migrate ⟨.builtin, "    ", .lastWins⟩ "A.php" nestedCalls = .ok (.converted out report)
      ∧ report.calls.map (·.pattern) = [.log, .getStoreConfig, .appStore]
      ∧ ∃ gap : Nat → String,
        out.render = String.join ((List.range (nestedCalls.size + 1)).map fun i =>
          gap i ++ if isDropped .builtin nestedCalls i then "" else nestedCalls.text i)
        ∧ ∀ i, gap i ≠ "" → EditPosition .builtin nestedCalls i := by
  have hrun : convertsTo (fun _ report => report.calls.map (·.pattern) == [.log, .getStoreConfig, .appStore])
      (Migrator.migrate ⟨.builtin, "    ", .lastWins⟩ "A.php" nestedCalls) = true := by
    rw [migrate_eq, show nestedCalls = .ofTokens _ from ofSource_ofList _]
    decide +kernel
  obtain ⟨out, report, hout, hcalls⟩ := of_convertsTo hrun
  exact ⟨out, report, hout, beq_iff_eq.mp hcalls, (migrate_confined hout).2.1⟩

end MageUplift
