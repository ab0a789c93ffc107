import MageUplift.Migration
import MageUplift.Proofs.QualifiedNames
import MageUplift.Settings.Load

/-!
# Valid settings give a migrator

Settings are checked twice. `Settings.problems` lists everything that is wrong with them; later an alias table is built,
which takes the modules before the classes and stops at the first target that it cannot use. The two agree: a table is
refused exactly for the targets that were reported. So settings without problems always give a migrator, although some
problems (an empty module name, a class alias without a slash) would not stop one from being built.
-/

namespace MageUplift

open Php Magento List

variable {s : Settings} {v : Toml.Value}

/-! ## §1. Adding aliases one by one. -/

def IsVendorModule (target : String) : Prop :=
  ∃ vendor module, isIdentifier vendor = true ∧ isIdentifier module = true ∧ target.toList = vendor ++ '\\' :: module

theorem isVendorModule_iff (target : String) : IsVendorModule target ↔ isModuleNamespace target := by
  unfold isModuleNamespace
  constructor
  · rintro ⟨vendor, module, hvendor, hmodule, htext⟩
    have hapart : ∀ part ∈ [vendor, module], '\\' ∉ part := by
      simpa using ⟨not_mem_backslash (nameText_identifier hvendor),
        not_mem_backslash (nameText_identifier hmodule)⟩
    have hsplit := Text.split_joinWith (cons_ne_nil vendor [module]) hapart
    rw [show Text.joinWith ['\\'] [vendor, module] = target.toList by simp [Text.joinWith, htext]] at hsplit
    rw [hsplit]
    simp [hvendor, hmodule]
  · intro h
    split at h
    · rename_i vendor module hsplit
      rw [Bool.and_eq_true] at h
      refine ⟨vendor, module, h.1, h.2, ?_⟩
      rw [← Text.joinWith_split '\\' target.toList, hsplit]
      simp [Text.joinWith]
    · cases h

section

variable {accepts : String → Bool} {aliases : List (String × String)}

def firstRefused? (accepts : String → Bool) (aliases : List (String × String)) : Option (String × String) :=
  aliases.find? fun a => !accepts a.2

theorem firstRefused?_none_iff : firstRefused? accepts aliases = none ↔ ∀ a ∈ aliases, accepts a.2 := by
  simp [firstRefused?]

/-- **The first alias that is refused, in the order of the keys.** -/
structure LeastRefused (accepts : String → Prop) (aliases : List (String × String)) (key target : String) : Prop where
  mem : (key, target) ∈ aliases
  refused : ¬ accepts target
  least : ∀ a ∈ aliases, ¬ accepts a.2 → key ≤ a.1

theorem leastRefused_of_first {P : String → Prop} (hP : ∀ target, P target ↔ accepts target) {a : String × String}
    (h : firstRefused? accepts aliases = some a) (horder : aliases.Pairwise fun a b => a.1 ≤ b.1) :
    LeastRefused P aliases a.1 a.2 := by
  obtain ⟨href, before, after, rfl, hbef⟩ := find?_eq_some_iff_append.mp h
  refine ⟨mem_append_right before mem_cons_self, by simpa [hP] using href, fun b hb href => ?_⟩
  rcases mem_append.mp hb with hmem | hmem
  · have := hbef b hmem
    simp_all
  · rcases mem_cons.mp hmem with rfl | hafter
    · exact String.le_refl _
    · exact (pairwise_cons.mp (pairwise_append.mp horder).2.1).1 b hafter

/-- **Aliases are added until one is refused.** `add` stands for either way to extend a table. -/
theorem foldlM_add_error_iff {add : AliasTable → String → String → Except AliasError AliasTable}
    {extend : AliasTable → String → String → AliasTable} {refusal : String → String → AliasError}
    (hadd : ∀ t key target, add t key target = if accepts target then .ok (extend t key target)
    else .error (refusal key target))
    (t : AliasTable) (e : AliasError) : aliases.foldlM (fun t a => add t a.1 a.2) t = .error e
      ↔ ∃ a, firstRefused? accepts aliases = some a ∧ e = refusal a.1 a.2 := by
  induction aliases generalizing t with
  | nil => exact iff_of_false nofun nofun
  | cons a rest ih =>
    rw [foldlM_cons, hadd, firstRefused?, find?_cons]
    cases accepts a.2 with
    | true => exact ih (extend t a.1 a.2)
    | false =>
      constructor
      · exact fun h => ⟨a, rfl, (Except.error.inj h).symm⟩
      · rintro ⟨_, ⟨⟩, rfl⟩
        rfl

end

namespace Magento

/-- **What a table cannot be built for**: the first module whose target is no namespace, or else the first class alias
whose target is no class. -/
theorem AliasTable.ofSettings_error_iff (s : Settings.Migrate) (e : AliasError) : AliasTable.ofSettings s = .error e
    ↔ (∃ a, firstRefused? isModuleNamespace s.moduleAliases = some a ∧ e = .invalidModuleTarget a.1 a.2)
      ∨ firstRefused? isModuleNamespace s.moduleAliases = none
        ∧ ∃ a, firstRefused? isQualifiedClassName s.classAliases = some a ∧ e = .invalidClassTarget a.1 a.2 := by
  have hmodules := @foldlM_add_error_iff isModuleNamespace s.moduleAliases AliasTable.addModule _ .invalidModuleTarget
    (fun _ _ _ => rfl) .builtin
  have hclasses := @foldlM_add_error_iff isQualifiedClassName s.classAliases AliasTable.addClass _ .invalidClassTarget
    fun _ _ _ => rfl
  unfold AliasTable.ofSettings
  cases hfold : s.moduleAliases.foldlM (fun t a => t.addModule a.1 a.2) AliasTable.builtin with
  | error cause =>
    obtain ⟨a, ha, rfl⟩ := (hmodules cause).mp hfold
    simp only [ha, Option.some.injEq, exists_eq_left', reduceCtorEq, false_and, or_false]
    exact ⟨fun h => (Except.error.inj h).symm, fun h => h ▸ rfl⟩
  | ok t =>
    have hnone : firstRefused? isModuleNamespace s.moduleAliases = none := Option.eq_none_iff_forall_ne_some.mpr
      fun a ha => absurd (hfold.symm.trans ((hmodules _).mpr ⟨a, ha, rfl⟩)) nofun
    simp only [hnone, reduceCtorEq, false_and, exists_false, false_or, true_and]
    exact hclasses t e

theorem AliasTable.exists_ofSettings_error_iff (s : Settings.Migrate) : (∃ e, AliasTable.ofSettings s = .error e)
    ↔ (∃ a ∈ s.classAliases, ¬ IsFullName a.2) ∨ ∃ a ∈ s.moduleAliases, ¬ IsVendorModule a.2 := by
  have href : ∀ accepts aliases, (∃ a ∈ aliases, ¬ accepts a.2) ↔ firstRefused? accepts aliases ≠ none := by
    intro accepts aliases
    rw [Ne, firstRefused?_none_iff]
    push Not
    rfl
  simp only [AliasTable.ofSettings_error_iff, isFullName_iff, isVendorModule_iff, href]
  cases firstRefused? isModuleNamespace s.moduleAliases <;>
    cases firstRefused? isQualifiedClassName s.classAliases <;> simp

/-- **The error that names the first alias in the order of the keys**: a module if one is refused, else a class alias. -/
inductive LeastRefusal (s : Settings.Migrate) : AliasError → Prop where
  | module {key target : String} (first : LeastRefused IsVendorModule s.moduleAliases key target) :
    LeastRefusal s (.invalidModuleTarget key target)
  | cls {key target : String} (modules : ∀ a ∈ s.moduleAliases, IsVendorModule a.2)
    (first : LeastRefused IsFullName s.classAliases key target) : LeastRefusal s (.invalidClassTarget key target)

end Magento

/-! ## §2. What is reported. -/

theorem moduleAlias_mem_problems {m : Settings.Migrate} {key target : String} :
    .moduleAliasInvalid key target ∈ m.problems
      ↔ (key, target) ∈ m.moduleAliases ∧ (key = "" ∨ isModuleNamespace target = false) := by
  simp [Settings.Migrate.problems, ← or_iff_not_imp_left]

theorem Settings.mem_problems_iff {p : Settings.Problem} :
    p ∈ s.problems ↔ p ∈ s.migrate.problems ∨ ∃ area, (area, []) ∈ s.layout.areas ∧ .emptyArea area = p := by
  simp [Settings.problems, Settings.Layout.problems]

theorem classAlias_iff (s : Settings) : (∃ key target, .classAliasNotQualified key target ∈ s.problems)
    ↔ ∃ a ∈ s.migrate.classAliases, ¬ IsFullName a.2 := by
  simp [Settings.mem_problems_iff, classAlias_mem_problems, isFullName_iff]

theorem moduleAlias_iff (s : Settings) :
    (∃ key target, .moduleAliasInvalid key target ∈ s.problems ∧ ¬ IsVendorModule target)
      ↔ ∃ a ∈ s.migrate.moduleAliases, ¬ IsVendorModule a.2 := by
  simp only [Settings.mem_problems_iff, moduleAlias_mem_problems, reduceCtorEq, and_false, exists_false, or_false,
    isVendorModule_iff, Bool.not_eq_true]
  grind

/-! ## §3. Aliases in the order of their keys. -/

namespace Settings

/-- The aliases of a table are kept in the order of their keys. -/
structure Migrate.InKeyOrder (m : Migrate) : Prop where
  classes : m.classAliases.Pairwise fun a b => a.1 ≤ b.1
  modules : m.moduleAliases.Pairwise fun a b => a.1 ≤ b.1

theorem decodeTable_inKeyOrder {α : Type} {item : Toml.Value → Decoded α} {entries : List (String × α)}
    (h : decodeTable item v = .ok entries) : entries.Pairwise fun a b => a.1 ≤ b.1 := by
  unfold decodeTable at h
  split at h
  · cases h
  · obtain ⟨decoded, -, h⟩ := exists_of_bind_ok h
    cases h
    refine (pairwise_mergeSort ?_ ?_ decoded).imp of_decide_eq_true
    · intro a b c hab hbc
      exact decide_eq_true (String.le_trans (of_decide_eq_true hab) (of_decide_eq_true hbc))
    · intro a b
      simpa using String.le_total a.1 b.1

theorem foldlM_ok_induction {ε α β : Type} {P : α → Prop} {step : α → β → Except ε α} {items : List β}
    (hstep : ∀ b ∈ items, ∀ a a', P a → step a b = .ok a' → P a') {a a' : α} (ha : P a)
    (h : items.foldlM step a = .ok a') : P a' := by
  induction items generalizing a with
  | nil =>
    cases h
    exact ha
  | cons b items ih =>
    rw [foldlM_cons] at h
    obtain ⟨a₁, hb, h⟩ := exists_of_bind_ok h
    exact ih (forall_mem_cons.mp hstep).2 (hstep b mem_cons_self a a₁ ha hb) h

theorem decodeGroup_induction {α : Type} {P : α → Prop} {what : String} {fields : List (Field α)} {default g : α}
    (hset : ∀ field ∈ fields, ∀ g v g', P g → field.set g v = .ok g' → P g') (hdefault : P default)
    (h : decodeGroup what fields default v = .ok g) : P g := by
  have hitems : ∀ items : List Toml.Value,
      (fields.zip items).foldlM (fun group entry => entry.1.set group entry.2) default = .ok g → P g := by
    intro items h
    refine foldlM_ok_induction (fun entry hentry a a' ha hset' => ?_) hdefault h
    exact hset entry.1 (of_mem_zip hentry).1 a entry.2 a' ha hset'
  unfold decodeGroup at h
  split at h
  · exact hitems _ h
  · exact hitems _ h
  · split at h
    · cases h
    · refine foldlM_ok_induction (fun entry _ a a' ha hset' => ?_) hdefault h
      dsimp only at hset'
      split at hset'
      · exact hset _ (mem_of_find?_eq_some ‹_›) a entry.2 a' ha hset'
      · cases hset'

theorem inKeyOrder_default : ({} : Migrate).InKeyOrder := ⟨.nil, .nil⟩

theorem migrateFields_inKeyOrder : ∀ field ∈ migrateFields, ∀ g v g', g.InKeyOrder → field.set g v = .ok g' →
    g'.InKeyOrder := by
  intro field hfield g v g' hg hset
  simp only [migrateFields, mem_cons, not_mem_nil, or_false] at hfield
  -- each field decodes its value and stores it
  rcases hfield with rfl | rfl | rfl | rfl | rfl <;> obtain ⟨value, hvalue, h⟩ := exists_of_bind_ok hset <;> cases h
  · exact ⟨hg.classes, hg.modules⟩
  · exact ⟨hg.classes, hg.modules⟩
  · exact ⟨decodeTable_inKeyOrder hvalue, hg.modules⟩
  · exact ⟨hg.classes, decodeTable_inKeyOrder hvalue⟩
  · exact ⟨hg.classes, hg.modules⟩

theorem decode_inKeyOrder {document : Toml.Value} (h : decode document = .ok s) : s.migrate.InKeyOrder := by
  refine decodeGroup_induction (P := fun s => s.migrate.InKeyOrder) (fun field hfield g v g' hg hset => ?_)
    inKeyOrder_default h
  simp only [settingsFields, mem_cons, not_mem_nil, or_false] at hfield
  rcases hfield with rfl | rfl | rfl <;> obtain ⟨group, hgroup, h⟩ := exists_of_bind_ok hset <;> cases h
  · exact hg
  · exact decodeGroup_induction migrateFields_inKeyOrder inKeyOrder_default hgroup
  · exact hg

theorem ofToml_ok {text : String} (h : ofToml text = .ok s) : s.migrate.InKeyOrder ∧ s.problems = [] := by
  unfold ofToml at h
  split at h
  · cases h
  · split at h
    · cases h
    · split at h
      · cases h
        exact ⟨decode_inKeyOrder ‹_›, ‹_›⟩
      · cases h

end Settings

/-! ## §4. Reported and refused. -/

theorem Migrator.ofSettings_eq (s : Settings.Migrate) :
    Migrator.ofSettings s = (AliasTable.ofSettings s).map fun table => ⟨table, s.indent, s.collisionPolicy⟩ := by
  unfold Migrator.ofSettings
  cases AliasTable.ofSettings s <;> rfl

/-- **Valid settings always give a migrator.** For all settings, an alias table cannot be built exactly if a class alias
is reported for its target, or a module alias whose target is not of the form `Vendor\Module`. The error names the first
such module in the order of the keys if there is one, and otherwise the first such class alias. Settings that are loaded
from a text have their aliases in this order, and give a migrator. -/
theorem valid_settings_build :
    (∀ s : Settings, (∃ e, AliasTable.ofSettings s.migrate = .error e)
      ↔ (∃ key target, .classAliasNotQualified key target ∈ s.problems)
        ∨ ∃ key target, .moduleAliasInvalid key target ∈ s.problems ∧ ¬ IsVendorModule target)
    ∧ (∀ s : Settings, s.migrate.InKeyOrder → ∀ e, AliasTable.ofSettings s.migrate = .error e → LeastRefusal s.migrate e)
    ∧ ∀ text s, Settings.ofToml text = .ok s → s.migrate.InKeyOrder ∧ ∃ m, Migrator.ofSettings s.migrate = .ok m := by
  refine ⟨fun s => ?_, fun s horder e he => ?_, fun text s h => ?_⟩
  · rw [AliasTable.exists_ofSettings_error_iff, classAlias_iff, moduleAlias_iff]
  · rcases (AliasTable.ofSettings_error_iff s.migrate e).mp he with
      ⟨a, ha, rfl⟩ | ⟨hnone, a, ha, rfl⟩
    · exact .module (leastRefused_of_first isVendorModule_iff ha horder.modules)
    · refine .cls (fun b hb => ?_) (leastRefused_of_first isFullName_iff ha horder.classes)
      exact (isVendorModule_iff b.2).mpr (firstRefused?_none_iff.mp hnone b hb)
  · obtain ⟨horder, hproblems⟩ := Settings.ofToml_ok h
    refine ⟨horder, ?_⟩
    rw [Migrator.ofSettings_eq]
    cases htab : AliasTable.ofSettings s.migrate with
    | ok table => exact ⟨_, rfl⟩
    | error e =>
      -- a refusal would have been reported
      have href := (AliasTable.exists_ofSettings_error_iff s.migrate).mp ⟨e, htab⟩
      rw [← classAlias_iff, ← moduleAlias_iff, hproblems] at href
      simp at href

/-- Three module aliases, of which the first is reported for its key alone, and a class alias that is refused as well. -/
def refusedAliases : Settings where
  migrate :=
    { classAliases := [("a/b", "B")], moduleAliases := [("", "Acme\\Shop"), ("shop", "Shop"), ("tax", "")] }

/-- The module `shop` is the first that a table is refused for; a text with a good module gives a migrator. -/
theorem valid_settings_build_refusedAliases :
    (AliasTable.ofSettings refusedAliases.migrate = .error (.invalidModuleTarget "shop" "Shop")
      ∧ LeastRefusal refusedAliases.migrate (.invalidModuleTarget "shop" "Shop"))
    ∧ ∃ s, Settings.ofToml "[migrate.module_aliases]\nshop = 'Ä\\Shop'" = .ok s
      ∧ ∃ m, Migrator.ofSettings s.migrate = .ok m := by
  have herror : AliasTable.ofSettings refusedAliases.migrate = .error (.invalidModuleTarget "shop" "Shop") := by
    decide +kernel
  refine ⟨⟨herror, valid_settings_build.2.1 refusedAliases ⟨by decide, by decide⟩ _ herror⟩, ?_⟩
  cases hload : Settings.ofToml "[migrate.module_aliases]\nshop = 'Ä\\Shop'" with
  | error e =>
    have hsome : (Settings.ofToml "[migrate.module_aliases]\nshop = 'Ä\\Shop'").toOption.isSome
      = true := by decide +kernel
    rw [hload] at hsome
    cases hsome
  | ok s => exact ⟨s, rfl, (valid_settings_build.2.2 _ s hload).2⟩

end MageUplift
