import MageUplift.Proofs.FormattingIndependence
import MageUplift.Proofs.LegibleCalls
import MageUplift.Proofs.PlainSignatures

/-!
# Migrating a migrated file

A second migration finds nothing to do. A call in a migrated file was one before, on a token that was kept, and it was
left because it needs a collaborator in a static function. Now it still needs one: the patterns that need none are
recognised by their own tokens. And it is still in a static function, if the signatures of static functions are plain.
Both are known of the tokens that the two batches put together, and the file is read anew to these tokens.

With a signature that holds a call the second migration goes on (`migrate_goes_on`): the first one takes the
parenthesis away by which the function was recognised.
-/

namespace MageUplift

open Php TokenStream Call Wiring Magento List Option

variable {s : TokenStream} {head : Head} {p : Pattern} {m : Migrator} {file : String}

/-! ## §1. Calls that need no collaborator. -/

namespace Call

variable {table : AliasTable}

theorem eq_throwException_of_method {method method' : String}
    (hthrow : Pattern.throwException.methods.find? (sameWord · (s.text head.method)) = some method)
    (hp : p.methods.find? (sameWord · (s.text head.method)) = some method') : p = .throwException := by
  have hmethods : ∀ p ∈ Pattern.catalog, ∀ a ∈ Pattern.throwException.methods, ∀ b ∈ p.methods,
      a.toLower = b.toLower → p = .throwException := by decide +kernel
  have hsame := find?_some hthrow
  have hsame' := find?_some hp
  rw [sameWord, beq_iff_eq] at hsame hsame'
  exact hmethods p p.mem_catalog method (mem_of_find?_eq_some hthrow) method' (mem_of_find?_eq_some hp)
    (hsame.trans hsame'.symm)

/-- A translation or an exception is recognised as such: translations are tried first, and nothing else begins with the
method of an exception. -/
theorem collaborator_of_bare {i : Nat} {inv : Invocation}
    (hhead : head? s i = some head) (hbare : p = .helperTranslate ∨ p = .throwException)
    (hp : (p.match? table s head).isSome) (hinv : matchAt? table s i = some inv) : inv.collaborator = none := by
  rcases hbare with rfl | rfl
  · obtain ⟨found, hfound⟩ := isSome_iff_exists.mp hp
    have hfst : matchAt? table s i = some found := by
      rw [matchAt?, hhead, bind_some, Pattern.catalog, findSome?_cons, hfound]
    rw [hinv, some.injEq] at hfst
    subst hfst
    obtain ⟨method, -, hmatch⟩ := bind_eq_some_iff.mp hfound
    exact (matchHead?_pattern hmatch).2.mpr (.inl rfl)
  · obtain ⟨head', q, method, hhead', hmeth, hmatch⟩ := matchAt?_cases hinv
    rw [hhead, some.injEq] at hhead'
    subst hhead'
    obtain ⟨found, hfound⟩ := isSome_iff_exists.mp hp
    obtain ⟨throwing, hthrow, -⟩ := bind_eq_some_iff.mp hfound
    exact (matchHead?_pattern hmatch).2.mpr (.inr (eq_throwException_of_method hthrow hmeth))

theorem KeepsCalls.collaborator_isSome {v u : TokenStream} {carried : Nat → Nat → Prop} (h : KeepsCalls v u carried)
    {i j : Nat} {inv call : Invocation} (hij : carried i j) (hinv : matchAt? table v i = some inv)
    (hcall : matchAt? table u j = some call) (hsome : inv.collaborator.isSome) : call.collaborator.isSome := by
  rw [isSome_iff_ne_none] at hsome ⊢
  intro hnone
  obtain ⟨head', p, method, hhead', hmeth, hmatch⟩ := matchAt?_cases hcall
  have hbare := (matchHead?_pattern hmatch).2.mp hnone
  have hfits : (p.match? table u head').isSome := by
    rw [Pattern.match?, hmeth, bind_some, hmatch]
    rfl
  obtain ⟨head, hhead, hp⟩ := h.match?_isSome hij hhead' hfits
  exact hsome (collaborator_of_bare hhead hbare hp hinv)

end Call

/-! ## §2. Nothing is left to convert. -/

/-- **Among the tokens that the two batches put together there is nothing to convert.** A call there stands on a token
of the file. It was left because it needs a collaborator in a static function, and both are still so. -/
theorem scan_edited {out : TokenStream} {report : FileReport}
    (htab : m.table.Reachable) (hind : IsIndentText m.indent.toList) (hplain : hasPlainStatics s)
    (hrun : m.migrate file s = .ok (.converted out report))
    (hnames : ∀ v ∈ report.requirements, isIdentifier v.name.toList) :
    scan m.table (.ofTokens (m.edited s)) = [] := by
  obtain ⟨r, hcoll, hreport, hinj, hedited⟩ := m.run_cases htab hind hrun
  rw [hreport] at hnames
  have hquiet := quietCalls_of_names hcoll hnames
  rw [hedited, eq_nil_iff_forall_not_mem]
  intro call hmem
  obtain ⟨hcall, -, hconvertible⟩ := mem_scanFrom hmem
  obtain ⟨i, k, hi, hk, hmatch⟩ := matchAt?_edited htab.wellFormed hquiet hinj hcall
  obtain ⟨inv, hinv⟩ := isSome_iff_exists.mp hmatch
  -- why it was left
  have hleft := not_convertible_of_kept hi hinv
  rw [Invocation.isConvertible, Bool.not_eq_false', Bool.and_eq_true,
    inside_static_iff (.of_matchAt? hinv), (matchAt?_anatomy hinv).1] at hleft
  obtain ⟨hstatic, hsome⟩ := hleft
  -- both batches leave it so
  obtain ⟨middle, hmid⟩ := isSome_iff_exists.mp
    (hinj.keepsCalls.matchAt?_isSome hk (by rw [hcall]; rfl))
  have hsome' : middle.collaborator.isSome :=
    (keepsCalls_convert htab.wellFormed hquiet).collaborator_isSome hi hinv hmid hsome
  have hcollab : call.collaborator.isSome :=
    hinj.keepsCalls.collaborator_isSome hk hmid hcall hsome'
  have hin : InPlainStatic ((convertedStream m.table s).woven (m.insertions s)) call.span.start := by
    have hconv := (callEdits_spareSignatures htab.wellFormed).inPlainStatic hi
      (inPlainStatic_of_inStatic hplain hstatic)
    exact hinj.spareSignatures.inPlainStatic hk hconv
  rw [Invocation.isConvertible, (inside_static_iff hcall).mpr hin.inStaticFunction, hcollab] at hconvertible
  cases hconvertible

/-! ## §3. The second migration. -/

theorem migrate_of_scan_nil (h : scan m.table s = []) :
    m.migrate file s = if (classKeyword? s).isNone then .ok .skipped else .ok (.converted s.refresh ⟨file, [], []⟩) := by
  have hconv : convertedStream m.table s = s := by
    rw [convertedStream, callEdits, h, flatMap_nil, Edit.weave, Edit.weaveFrom_nil]
    rfl
  rw [migrate_eq, hconv, h]
  show (if _ then _ else Except.ok (Outcome.converted (ofTokens (Edit.weave s.tokens.toList [])).refresh _)) = _
  rw [Edit.weave, Edit.weaveFrom_nil]
  rfl

theorem scan_eq_nil_of_significant {table : AliasTable} {v u : TokenStream}
    (h : significant v.tokens.toList = significant u.tokens.toList) (hu : scan table u = []) : scan table v = [] := by
  have hcompact := scan_compact table v
  rw [compact_eq h, scan_compact table u, hu, map_nil] at hcompact
  exact map_eq_nil_iff.mp hcompact.symm

/-- **Migrating a migrated file changes nothing.** In the file no token waits for the text behind it, its calls stand
apart, what they ask for has names that can be names, and its static functions have plain signatures. Then the text
of the migrated file is migrated to itself, and nothing is reported; if the first migration has replaced the name of
the only class, the file is skipped. -/
theorem migrate_idempotent {m : Migrator} {file source : String} {out : TokenStream} {report : FileReport}
    (htable : m.table.Reachable) (hindent : IsIndentText m.indent.toList) (hsettled : areSettled none (lex source) = true)
    (hapart : ∀ inv ∈ scan m.table (.ofSource source), inv.standsApart (.ofSource source) = true)
    (hplain : hasPlainStatics (.ofSource source) = true)
    (hrun : m.migrate file (.ofSource source) = .ok (.converted out report))
    (hnames : ∀ v ∈ report.requirements, isIdentifier v.name.toList = true) :
    m.migrate file (.ofSource out.render) = .ok .skipped
      ∨ m.migrate file (.ofSource out.render) = .ok (.converted out ⟨file, [], []⟩) := by
  have hedited := scan_edited htable hindent hplain hrun hnames
  have hsame := significant_migrated htable hindent hsettled hapart hrun hnames
  have hscan : scan m.table out = [] := scan_eq_nil_of_significant hsame hedited
  -- the migrated file was read from its text
  have hread : ofSource out.render = out := by
    rw [migrate_edited hrun, render_ofSource]
  have hrefresh : out.refresh = out := hread
  rw [hread, migrate_of_scan_nil hscan, hrefresh]
  split
  · exact .inl rfl
  · exact .inr rfl

def logsInStatic : String :=
  "<?php class A\x7bstatic function f()\x7bMage::log(1);\x7dfunction g()\x7bMage::log(2);\x7d\x7d"

/-- One call is converted and one is left; then nothing happens any more. -/
theorem migrate_idempotent_logsInStatic :
    ∃ out report, defaultMigrator.migrate "A.php" (.ofSource logsInStatic) = .ok (.converted out report)
      ∧ report.calls.map (·.pattern) = [.log]
      ∧ (defaultMigrator.migrate "A.php" (.ofSource out.render) = .ok .skipped
        ∨ defaultMigrator.migrate "A.php" (.ofSource out.render) = .ok (.converted out ⟨"A.php", [], []⟩)) := by
  have hrun : convertsTo (fun _ report => report.calls.map (·.pattern) == [.log]
        && report.requirements.all fun v => isIdentifier v.name.toList)
      (defaultMigrator.migrate "A.php" (.ofSource logsInStatic)) = true := by
    rw [migrate_eq, show ofSource logsInStatic = .ofTokens _ from ofSource_ofList _]
    decide +kernel
  have hsource : ((scan defaultMigrator.table (.ofSource logsInStatic)).all (·.standsApart (.ofSource logsInStatic))
      && hasPlainStatics (.ofSource logsInStatic)) = true := by
    rw [show ofSource logsInStatic = .ofTokens _ from ofSource_ofList _]
    decide +kernel
  rw [Bool.and_eq_true, List.all_eq_true] at hsource
  obtain ⟨out, report, hout, hrun⟩ := of_convertsTo hrun
  rw [Bool.and_eq_true, beq_iff_eq, List.all_eq_true] at hrun
  exact ⟨out, report, hout, hrun.1,
    migrate_idempotent .builtin (by decide) (by decide +kernel) hsource.1 hsource.2 hout hrun.2⟩

/-! ## §4. Signatures that hold calls. -/

/-- A static function whose only parentheses belong to a call. -/
def helperAsSignature : String :=
  "<?php class A\x7bfunction __construct(public $taxHelper)\x7b\x7dstatic function Mage::helper('tax')\x7bMage::helper('tax');\x7d\x7d"

set_option maxRecDepth 1000 in
/-- If the call in a signature takes its parentheses away, the function is no longer seen, and a second migration
converts the calls in its body. -/
theorem migrate_goes_on :
    ∃ out report out' report', defaultMigrator.migrate "A.php" (.ofSource helperAsSignature) = .ok (.converted out report)
      ∧ defaultMigrator.migrate "A.php" (.ofSource out.render) = .ok (.converted out' report')
      ∧ report'.calls.map (·.modern) = ["$this->taxHelper"] := by
  have hrun : convertsTo (fun out _ =>
        convertsTo (fun _ report' => report'.calls.map (·.modern) == ["$this->taxHelper"])
          (defaultMigrator.migrate "A.php" (.ofSource out.render)))
      (defaultMigrator.migrate "A.php" (.ofSource helperAsSignature)) = true := by
    rw [migrate_eq]
    simp only [refresh_ofTokens]
    rw [show ofSource helperAsSignature = .ofTokens _ from ofSource_ofList _]
    decide +kernel
  obtain ⟨out, report, hout, hrun⟩ := of_convertsTo hrun
  obtain ⟨out', report', hout', hcalls⟩ := of_convertsTo hrun
  exact ⟨out, report, out', report', hout, hout', beq_iff_eq.mp hcalls⟩

end MageUplift
