import MageUplift.Proofs.CompactCalls
import MageUplift.Proofs.CompactClasses

/-!
# Formatting does not change what is converted

A file is migrated in the same way however it is laid out: white space and comments decide neither whether it has a
class, nor which calls are converted, nor what is injected, nor why it fails. Each half is known from the compact
stream: the calls (`scan_compact`) and the class (`classBody_compact`, `members_compact`). Between them stands the
converted stream, whose significant tokens do not depend on trivia either (`significant_convertedStream`).
-/

namespace MageUplift

open Php TokenStream Call Wiring Magento

/-! ## §1. Results without places. -/

def MigrationError.relocate (f : Nat → Nat) : MigrationError → MigrationError
  | .inject cause => .inject (cause.relocate f)
  | .conflict cause pattern span => .conflict cause pattern (span.relocate f)
  | .edit (.outOfBounds span size) => .edit (.outOfBounds (span.relocate f) (f size))
  | .edit (.overlapping first second) => .edit (.overlapping (first.relocate f) (second.relocate f))

def MigrationError.unplaced (e : MigrationError) : MigrationError := e.relocate fun _ => 0

def FileReport.unplaced (report : FileReport) : FileReport :=
  { report with calls := report.calls.map fun call => { call with line := 0 } }

/-- What a result says apart from layout: the error without its places, or else, unless the file was skipped, the
report without its lines. -/
def summary : Except MigrationError Outcome → Except MigrationError (Option FileReport)
  | .error e => .error e.unplaced
  | .ok .skipped => .ok none
  | .ok (.converted _ report) => .ok (some report.unplaced)

theorem MigrationError.unplaced_relocate (f : Nat → Nat) (e : MigrationError) : (e.relocate f).unplaced = e.unplaced := by
  match e with
  | .inject .classBodyNotFound | .inject (.unbalancedClassBody _) | .inject (.malformedConstructor _ _) => rfl
  | .conflict _ _ _ => rfl
  | .edit (.outOfBounds _ _) | .edit (.overlapping _ _) => rfl

/-! ## §2. Collaborators and reports. -/

theorem collect_relocate (m : Migrator) (f : Nat → Nat) (calls : List Invocation) :
    m.collect (calls.map (Invocation.relocate f)) = (m.collect calls).mapError (MigrationError.relocate f) := by
  unfold Migrator.collect
  generalize Requirements.empty = r
  induction calls generalizing r with
  | nil => rfl
  | cons inv calls ih =>
    rw [List.map_cons, List.foldlM_cons, List.foldlM_cons]
    rw [show (inv.relocate f).collaborator = inv.collaborator from rfl]
    cases inv.collaborator with
    | none => exact ih r
    | some v =>
      cases hrec : r.record m.policy v with
      | ok recorded =>
        simp only [hrec]
        exact ih recorded.2
      | error c =>
        simp only [hrec]
        rfl

theorem report_relocate (file : String) (s : TokenStream) (calls : List Invocation) (r : Requirements) :
    (FileReport.of file s.compact (calls.map (Invocation.relocate s.rank)) r).unplaced
      = (FileReport.of file s calls r).unplaced := by
  simp [FileReport.of, FileReport.unplaced, Invocation.relocate]

/-! ## §3. Injection. -/

theorem inject_compact (s : TokenStream) (indent : String) (r : Requirements) :
    Agree s.rank (fun _ _ => True) (inject s indent r) (inject s.compact indent r) := by
  by_cases hr : r.isEmpty
  · rw [inject_of_isEmpty hr, inject_of_isEmpty hr]
    trivial
  · unfold inject
    rw [if_neg hr, if_neg hr]
    refine (classBody_compact s).bind fun cls cls' hcls hmoved => ?_
    have hbraces := classBody_spec hcls
    refine (members_compact hmoved (isCode_brackets hbraces).1 (lt_close hbraces).2.le).bind ?_
    intros
    trivial

theorem Wiring.Agree.unplaced {α β γ : Type} {f : Nat → Nat} {r : α → β → Prop} {x : Except InjectError α}
    {y : Except InjectError β} (h : Agree f r x y) (c : γ) :
    ((x.mapError MigrationError.inject).map fun _ => c).mapError MigrationError.unplaced
      = ((y.mapError MigrationError.inject).map fun _ => c).mapError MigrationError.unplaced := by
  match x, y with
  | .ok a, .ok b => rfl
  | .error e, .error e' =>
    have he : e' = e.relocate f := h
    rw [he]
    exact congrArg Except.error (MigrationError.unplaced_relocate f (.inject e)).symm

/-! ## §4. The whole pass. -/

theorem summary_migrate (m : Migrator) (file : String) (s : TokenStream) :
    summary (m.migrate file s)
      = if (classKeyword? s).isNone then .ok none
        else ((m.collect (scan m.table s)).mapError MigrationError.unplaced).bind fun r =>
          ((inject (convertedStream m.table s) m.indent r).mapError MigrationError.inject
            |>.map fun _ => some (FileReport.of file s (scan m.table s) r).unplaced).mapError
              MigrationError.unplaced := by
  rw [migrate_eq]
  split
  · rfl
  · cases m.collect (scan m.table s) with
    | error e => rfl
    | ok r =>
      show summary (Except.map _ _) = Except.mapError _ (Except.map _ _)
      cases inject (convertedStream m.table s) m.indent r <;> rfl

theorem compact_eq {v u : TokenStream} (h : significant v.tokens.toList = significant u.tokens.toList) :
    v.compact = u.compact := by
  rw [compact, h, compact]

theorem summary_compact (m : Migrator) (file : String) (s : TokenStream) :
    summary (m.migrate file s.compact) = summary (m.migrate file s) := by
  -- the two converted streams have one compact stream
  have hinj : ∀ r (c : Option FileReport),
      ((inject (convertedStream m.table s.compact) m.indent r).mapError MigrationError.inject |>.map fun _ => c).mapError
          MigrationError.unplaced
        = ((inject (convertedStream m.table s) m.indent r).mapError MigrationError.inject |>.map fun _ => c).mapError
          MigrationError.unplaced := by
    intro r c
    rw [(inject_compact (convertedStream m.table s) m.indent r).unplaced,
      compact_eq (significant_convertedStream m.table s), ← (inject_compact _ m.indent r).unplaced]
  rw [summary_migrate, summary_migrate, classKeyword?_compact, Option.isNone_map, scan_compact, collect_relocate]
  split
  · rfl
  · cases m.collect (scan m.table s) with
    | error e => exact congrArg Except.error (MigrationError.unplaced_relocate s.rank e)
    | ok r =>
      show Except.mapError _ (Except.map _ (Except.mapError _ (inject _ m.indent r))) = _
      rw [report_relocate, hinj]
      rfl

/-- **Formatting does not change what is converted.** Streams with the same significant tokens, in order, are both
skipped, both fail for the same reason, or are both converted with the same calls and the same collaborators. -/
theorem migrate_ignores_trivia (m : Migrator) (file : String) {v u : TokenStream}
    (h : significant v.tokens.toList = significant u.tokens.toList) :
    summary (m.migrate file v) = summary (m.migrate file u) := by
  rw [← summary_compact m file v, compact_eq h, summary_compact]

def tightLog : TokenStream := .ofSource "<?php class A\x7bfunction f()\x7bMage::log(1);\x7d\x7d"

/-- The same call, spread over lines with comments in between. -/
def spreadLog : TokenStream := .ofSource "<?php class A\x7bfunction f()\x7bMage/**/:: #x\n log (1);\x7d\x7d"

/-- The two files differ, but the same call is reported for both. -/
theorem migrate_ignores_trivia_spreadLog :
    tightLog ≠ spreadLog ∧ significant tightLog.tokens.toList = significant spreadLog.tokens.toList
      ∧ summary (defaultMigrator.migrate "A.php" tightLog) = summary (defaultMigrator.migrate "A.php" spreadLog)
      ∧ (match summary (defaultMigrator.migrate "A.php" spreadLog) with
        | .ok (some report) => report.calls.map CallReport.legacy
        | _ => []) = ["Mage::log"] := by
  have hcode : significant tightLog.tokens.toList = significant spreadLog.tokens.toList := by
    rw [show tightLog = .ofTokens _ from ofSource_ofList _, show spreadLog = .ofTokens _ from ofSource_ofList _]
    decide +kernel
  have hsame := migrate_ignores_trivia defaultMigrator "A.php" hcode
  refine ⟨by decide +kernel, hcode, hsame, ?_⟩
  rw [← hsame, summary_migrate, show tightLog = .ofTokens _ from ofSource_ofList _]
  decide +kernel

end MageUplift
