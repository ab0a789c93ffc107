import MageUplift.Proofs.BalancedEdits

/-!
# The text of a migrated file can be read

A migrated file is read anew from its text, and new text may be read together with what it touches. For a
source in which nothing is wrong and whose brackets are balanced, the migrated text has both properties again,
with one exception. A heredoc ends at its label only if the label is not the start of a longer name, and a
shift in front of certain text opens a heredoc. Where new text stands right behind one of them, the rest of
the file may become part of a heredoc (`migrate_heredoc_swallows`).
-/

namespace MageUplift

open Php TokenStream Call Wiring Magento

variable {m : Migrator} {s : TokenStream} {file : String} {report : FileReport}

/-! ## §1. The tokens that are put together. -/

/-- The tokens that a migration puts together before it reads their text anew; none if it fails. -/
def Migrator.edited (m : Migrator) (s : TokenStream) : List Token :=
  let wired := do
    let r ← m.collect (scan m.table s)
    let converted ← Migrator.convertCalls s (scan m.table s)
    m.wire converted r
  (wired.toOption.map (·.tokens.toList)).getD []

theorem Migrator.edited_weave (m : Migrator) (s : TokenStream) :
    m.edited s = ((m.collect (scan m.table s)).toOption.bind fun r =>
      (inject (convertedStream m.table s) m.indent r).toOption.map (editedTokens m.table s)).getD [] := by
  unfold Migrator.edited
  rw [convertCalls_scan]
  cases m.collect (scan m.table s) with
  | error e => rfl
  | ok r =>
    show ((m.wire (convertedStream m.table s) r).toOption.map _).getD [] = _
    rw [wire_eq]
    dsimp only [Except.toOption, Option.bind]
    cases inject (convertedStream m.table s) m.indent r <;> rfl

theorem Migrator.edited_eq {r : Requirements} {inserts : List (Edit Token)}
    (hcoll : m.collect (scan m.table s) = .ok r)
    (hinj : inject (convertedStream m.table s) m.indent r = .ok inserts) :
    m.edited s = editedTokens m.table s inserts := by
  rw [m.edited_weave, hcoll]
  show ((inject _ _ r).toOption.map _).getD [] = _
  rw [hinj]
  rfl

theorem migrate_edited {out : TokenStream}
    (h : m.migrate file s = .ok (.converted out report)) : out = .ofSource (joinTexts (m.edited s)) := by
  obtain ⟨r, inserts, hcoll, hinj, hout, -⟩ := migrate_cases h
  rw [m.edited_eq hcoll hinj, hout]
  rfl

theorem migrate_wired {out : TokenStream}
    (h : m.migrate file s = .ok (.converted out report)) : ∃ r, m.collect (scan m.table s) = .ok r
      ∧ m.wire (convertedStream m.table s) r = .ok (.ofTokens (m.edited s))
      ∧ out = (ofTokens (m.edited s)).refresh := by
  obtain ⟨r, inserts, hcoll, hinj, hout, -⟩ := migrate_cases h
  rw [m.edited_eq hcoll hinj]
  refine ⟨r, hcoll, ?_, hout⟩
  rw [wire_eq, hinj]
  rfl

theorem mem_weave {items : List Token} {edits : List (Edit Token)} {t : Token} (h : t ∈ Edit.weave items edits) :
    t ∈ items ∨ ∃ e ∈ edits, t ∈ e.replacement := by
  rw [Edit.weave_eq_flatMap, List.mem_flatMap] at h
  obtain ⟨i, -, h⟩ := h
  rw [Edit.pieceAt, List.mem_append] at h
  rcases h with h | h
  · obtain ⟨e, he, -, ht⟩ := Edit.mem_generatedAt h
    exact .inr ⟨e, he, ht⟩
  · split at h
    · cases h
    · exact .inl (List.mem_of_getElem? (Option.mem_toList.mp h))

/-! ## §2. The migrated text. -/

theorem lexical_ofSource {source : String} (h : lexErrors source = []) :
    Lexical .html (ofSource source).tokens.toList := by
  rw [lexErrors, List.flatMap_eq_nil_iff] at h
  show Lexical .html (lex source)
  exact steps_lexical h

theorem render_ofSource (source : String) : (ofSource source).render = source := by
  apply String.toList_injective
  show (joinTexts (lex source)).toList = source.toList
  rw [toList_joinTexts]
  exact charsOf_steps .html none 0 source.toList

theorem refresh_ofTokens (tokens : List Token) :
    (ofTokens tokens).refresh = .ofTokens ((steps .html none 0 (charsOf tokens)).map LexStep.token) := by
  rw [refresh, render_ofTokens, ofSource, lex, lexSteps, toList_joinTexts]

/-- **The migrated text can be read, and its brackets are balanced**, if nothing is wrong with the source, its brackets
are balanced, and no heredoc is opened or goes on because of new text. -/
theorem migrate_render_valid {m : Migrator} {file source : String} {out : TokenStream} {report : FileReport}
    (htab : m.table.Reachable) (hind : IsIndentText m.indent.toList) (herrors : lexErrors source = [])
    (hbal : (ofSource source).isBalanced = true) (hstands : heredocsStand (m.edited (.ofSource source)) = true)
    (h : m.migrate file (.ofSource source) = .ok (.converted out report)) :
    out.isBalanced = true ∧ lexErrors out.render = [] := by
  have hlex := lexical_ofSource herrors
  have hout := migrate_edited h
  obtain ⟨r, inserts, hcoll, hinj, -, -⟩ := migrate_cases h
  rw [m.edited_eq hcoll hinj] at hstands hout
  have hedited := editedTokens_balanced htab.wellFormed hind hbal hcoll hinj
  -- reading the tokens that were put together finds nothing wrong and the same brackets
  have houtline := outline_of_spliced
    (migrated_spliced htab.wellFormed hind hlex hcoll hinj) hlex hstands
  rw [← toList_joinTexts, outline_iff] at houtline
  rw [hout, render_ofSource]
  refine ⟨?_, houtline.1⟩
  rw [isBalanced_iff, ← balanced_marks_iff, ← marksOf_eq]
  show Balanced (marksOf (lex _))
  rw [houtline.2]
  exact hedited

def defaultMigrator : Migrator := ⟨.builtin, "    ", .lastWins⟩

def heredocArgument : String :=
  "<?php class A\x7bfunction f()\x7bMage::throwException(<<<X\n\nX\n);\x7d\x7d"

theorem migrate_render_valid_heredocArgument :
    ∃ out report, defaultMigrator.migrate "A.php" (.ofSource heredocArgument) = .ok (.converted out report)
      ∧ report.calls.map (·.pattern) = [.throwException] ∧ out.isBalanced = true ∧ lexErrors out.render = [] := by
  have hrun : convertsTo (fun _ report => report.calls.map (·.pattern) == [.throwException])
      (defaultMigrator.migrate "A.php" (.ofSource heredocArgument)) = true := by
    rw [migrate_eq, show ofSource heredocArgument = .ofTokens _ from ofSource_ofList _]
    decide +kernel
  obtain ⟨out, report, hout, hcalls⟩ := of_convertsTo hrun
  exact ⟨out, report, hout, beq_iff_eq.mp hcalls, migrate_render_valid .builtin (by decide) (by decide +kernel)
    (by decide +kernel) (by rw [Migrator.edited_weave]; decide +kernel) hout⟩

def heredocBeforeCall : String :=
  "<?php class A\x7bfunction f()\x7breturn <<<X\n\nX\\Mage::helper('a')->__(1);\x7d\x7d"

/-- New text may be swallowed by a heredoc: the translation function that replaces the call makes the closing
label a longer name, and the brackets behind it are gone. -/
theorem migrate_heredoc_swallows :
    lexErrors heredocBeforeCall = [] ∧ (ofSource heredocBeforeCall).isBalanced = true
      ∧ ∃ out report, defaultMigrator.migrate "A.php" (.ofSource heredocBeforeCall) = .ok (.converted out report)
        ∧ out.isBalanced = false ∧ lexErrors out.render ≠ [] := by
  refine ⟨by decide +kernel, by decide +kernel, ?_⟩
  have hrun : convertsTo (fun out _ => !out.isBalanced && !(lexErrors out.render).isEmpty)
      (defaultMigrator.migrate "A.php" (.ofSource heredocBeforeCall)) = true := by
    rw [migrate_eq]
    simp only [refresh_ofTokens]
    rw [show ofSource heredocBeforeCall = .ofTokens _ from ofSource_ofList _]
    decide +kernel
  obtain ⟨out, report, hout, hrun⟩ := of_convertsTo hrun
  rw [Bool.and_eq_true, Bool.not_eq_true', Bool.not_eq_true', List.isEmpty_eq_false_iff] at hrun
  exact ⟨out, report, hout, hrun⟩

end MageUplift
