import MageUplift.Magento.ClassAlias
import MageUplift.Magento.VariableName
import MageUplift.Proofs.Outline

/-!
# The names that alias tables answer

Generated code spells classes and variables whose names come from an alias table. A table is built from
the built-in one by additions that succeed (`AliasTable.Reachable`); every class that such a table answers
is written with a leading separator and otherwise with name characters and separators, and every variable
that is named after it consists of name characters.
-/

namespace MageUplift

open Php List Option

variable {cs : List Char} {c : Char} {cls key name : String} {t : AliasTable} {kind : AliasKind}

/-! ## §1. Cutting at a separator. -/

theorem Text.mem_split {s x : Char} (h : x ∈ cs) : x = s ∨ ∃ piece ∈ Text.split s cs, x ∈ piece := by
  induction cs with
  | nil => cases h
  | cons c cs ih =>
    rw [Text.split]
    split
    · rename_i hc
      rcases mem_cons.mp h with rfl | h
      · exact .inl (eq_of_beq hc)
      · refine (ih h).imp_right ?_
        rintro ⟨piece, hpiece, hx⟩
        exact ⟨piece, mem_cons_of_mem _ hpiece, hx⟩
    · split
      · rename_i hnil
        rcases mem_cons.mp h with rfl | h
        · exact .inr ⟨[x], mem_singleton_self _, mem_singleton_self x⟩
        · refine (ih h).imp_right ?_
          rintro ⟨piece, hpiece, -⟩
          rw [hnil] at hpiece
          cases hpiece
      · rename_i first pieces hsplit
        rcases mem_cons.mp h with rfl | h
        · exact .inr ⟨x :: first, mem_cons_self, mem_cons_self⟩
        · refine (ih h).imp_right ?_
          rintro ⟨piece, hpiece, hx⟩
          rw [hsplit] at hpiece
          rcases mem_cons.mp hpiece with rfl | hpiece
          · exact ⟨c :: piece, mem_cons_self, mem_cons_of_mem c hx⟩
          · exact ⟨piece, mem_cons_of_mem _ hpiece, hx⟩

theorem Text.mem_of_mem_split {sep x : Char} {piece : List Char} (hpiece : piece ∈ Text.split sep cs)
    (hx : x ∈ piece) : x ∈ cs ∧ x ≠ sep := by
  induction cs generalizing piece with
  | nil =>
    rw [Text.split, mem_singleton] at hpiece
    subst hpiece
    cases hx
  | cons c cs ih =>
    rw [Text.split] at hpiece
    split at hpiece
    · rcases mem_cons.mp hpiece with rfl | hpiece
      · cases hx
      · exact (ih hpiece hx).imp_left (mem_cons_of_mem c)
    · rename_i hc
      have hne : c ≠ sep := by simpa using hc
      split at hpiece
      · rw [mem_singleton] at hpiece
        subst hpiece
        rw [mem_singleton] at hx
        exact ⟨hx ▸ mem_cons_self, hx ▸ hne⟩
      · rename_i first pieces hsplit
        rcases mem_cons.mp hpiece with rfl | hpiece
        · rcases mem_cons.mp hx with rfl | hx
          · exact ⟨mem_cons_self, hne⟩
          · exact (ih (hsplit ▸ mem_cons_self) hx).imp_left (mem_cons_of_mem c)
        · exact (ih (hsplit ▸ mem_cons_of_mem _ hpiece) hx).imp_left (mem_cons_of_mem c)

/-! ## §2. Texts of names. -/

def IsPathText (cs : List Char) : Prop := ∀ x ∈ cs, isNamePart x = true ∨ x = '\\'

instance (cs : List Char) : Decidable (IsPathText cs) :=
  inferInstanceAs (Decidable (∀ x ∈ cs, isNamePart x = true ∨ x = '\\'))

/-- The text is a separator, and then name characters and separators. -/
def IsClassText (cs : List Char) : Prop := ∃ path, cs = '\\' :: path ∧ IsPathText path

theorem IsPathText.append {a b : List Char} (ha : IsPathText a) (hb : IsPathText b) : IsPathText (a ++ b) := by
  intro x hx
  rcases mem_append.mp hx with hx | hx
  · exact ha x hx
  · exact hb x hx

theorem isPathText_of_split (h : ∀ piece ∈ Text.split '\\' cs, IsNameText piece) : IsPathText cs := by
  intro x hx
  rcases Text.mem_split (s := '\\') hx with rfl | ⟨piece, hpiece, hx⟩
  · exact .inr rfl
  · exact .inl (h piece hpiece x hx)

theorem isClassText_qualified (h : isQualifiedClassName name) : IsClassText name.toList := by
  unfold isQualifiedClassName at h
  split at h
  · rename_i cs hcs
    rw [List.all_eq_true] at h
    exact ⟨cs, hcs, isPathText_of_split fun piece hpiece => nameText_identifier (h piece hpiece)⟩
  · cases h

theorem isPathText_namespace (h : isModuleNamespace name) : IsPathText name.toList := by
  unfold isModuleNamespace at h
  split at h
  · rename_i vendor module hsplit
    rw [Bool.and_eq_true] at h
    refine isPathText_of_split fun piece hpiece => ?_
    rw [hsplit] at hpiece
    simp only [mem_cons, not_mem_nil, or_false] at hpiece
    rcases hpiece with rfl | rfl
    · exact nameText_identifier h.1
    · exact nameText_identifier h.2
  · cases h

/-! ## §3. Alias tables. -/

namespace Magento

/-- The built-in table and every table that additions make of it. -/
inductive AliasTable.Reachable : AliasTable → Prop where
  | builtin : Reachable .builtin
  | addClass {t added : AliasTable} {key target : String} (table : t.Reachable)
      (ok : t.addClass key target = .ok added) : Reachable added
  | addModule {t added : AliasTable} {key target : String} (table : t.Reachable)
      (ok : t.addModule key target = .ok added) : Reachable added

structure AliasTable.WellFormed (t : AliasTable) : Prop where
  classes : ∀ e ∈ t.classes, isQualifiedClassName e.2 = true
  modules : ∀ e ∈ t.modules, isModuleNamespace e.2 = true

theorem qualified_ofList (cs : List Char) :
    isQualifiedClassName (String.ofList ('\\' :: cs)) = (Text.split '\\' cs).all isIdentifier := by
  simp [isQualifiedClassName]

theorem isModuleNamespace_ofList {vendor module : List Char} (h : Text.split '\\' cs = [vendor, module]) :
    isModuleNamespace (String.ofList cs) = (isIdentifier vendor && isIdentifier module) := by
  simp [isModuleNamespace, h]

/-- Every class that is named outright has a full name; entry by entry, so that no text has to be decoded. -/
theorem builtinClasses_qualified : ∀ e ∈ builtinClasses, isQualifiedClassName e.2 := by
  unfold builtinClasses
  repeat' first
    | exact forall_mem_nil _
    | refine forall_mem_cons.mpr ⟨(qualified_ofList _).trans (by decide), ?_⟩

theorem builtinModules_namespaces : ∀ e ∈ builtinModules, isModuleNamespace e.2 := by
  unfold builtinModules
  repeat' first
    | exact forall_mem_nil _
    | refine forall_mem_cons.mpr ⟨(isModuleNamespace_ofList rfl).trans (by decide), ?_⟩

theorem AliasTable.Reachable.wellFormed (h : t.Reachable) : t.WellFormed := by
  induction h with
  | builtin => exact ⟨builtinClasses_qualified, builtinModules_namespaces⟩
  | @addClass t added key target table ok ih =>
    unfold AliasTable.addClass at ok
    split at ok
    · rename_i htarget
      cases ok
      refine ⟨fun e he => ?_, ih.modules⟩
      rcases mem_cons.mp he with rfl | he
      · exact htarget
      · exact ih.classes e he
    · cases ok
  | @addModule t added key target table ok ih =>
    unfold AliasTable.addModule at ok
    split at ok
    · rename_i htarget
      cases ok
      refine ⟨ih.classes, fun e he => ?_⟩
      rcases mem_cons.mp he with rfl | he
      · exact htarget
      · exact ih.modules e he
    · cases ok

theorem mem_of_lookup {table : List (String × String)} {target : String}
    (h : table.lookup key = some target) : ∃ e ∈ table, e.2 = target := by
  obtain ⟨before, after, rfl, -⟩ := lookup_eq_some_iff.mp h
  exact ⟨(key, target), by simp, rfl⟩

theorem builtinHelpers_qualified : ∀ e ∈ builtinHelpers, isQualifiedClassName e.2 := by
  unfold builtinHelpers
  repeat' first
    | exact forall_mem_nil _
    | refine forall_mem_cons.mpr ⟨(qualified_ofList _).trans (by decide), ?_⟩

theorem isAlphanum_toUpper (h : c.isAlphanum) : c.toUpper.isAlphanum := by
  unfold Char.toUpper
  split
  · grind [Char.isAlphanum, isAlpha_eq, Char.isDigit, Char.le_def]
  · exact h

theorem isNameText_capitalised (h : (c :: cs).all Char.isAlphanum) : IsNameText (c.toUpper :: cs) := by
  have hname : ∀ x : Char, x.isAlphanum → isNamePart x := by
    intro x hx
    simp [isNamePart, hx]
  rw [List.all_eq_true] at h
  intro x hx
  rcases mem_cons.mp hx with rfl | hx
  · exact hname _ (isAlphanum_toUpper (h c mem_cons_self))
  · exact hname x (h x (mem_cons_of_mem c hx))

theorem isPathText_intercalate {pieces : List (List Char)} (h : ∀ piece ∈ pieces, IsPathText piece) :
    IsPathText (['\\'].intercalate pieces) := by
  induction pieces with
  | nil =>
    intro x hx
    cases hx
  | cons piece pieces ih =>
    have hpiece := h piece mem_cons_self
    cases pieces with
    | nil => simpa using hpiece
    | cons next pieces =>
      rw [intercalate_cons_cons]
      refine (hpiece.append ?_).append (ih (forall_mem_cons.mp h).2)
      intro x hx
      exact .inr (mem_singleton.mp hx)

theorem isPathText_conventionPath? {path joined : List Char} (h : AliasTable.conventionPath? path = some joined) :
    IsPathText joined := by
  unfold AliasTable.conventionPath? at h
  dsimp only at h
  split at h
  · rename_i hparts
    rw [List.all_eq_true] at hparts
    split at h
    · cases h
    · cases h
      apply isPathText_intercalate
      intro piece hpiece
      obtain ⟨part, hpart, rfl⟩ := List.mem_map.mp hpiece
      have hall := hparts part hpart
      rw [Bool.and_eq_true] at hall
      cases part with
      | nil =>
        intro x hx
        cases hx
      | cons c cs => exact fun x hx => .inl (isNameText_capitalised hall.2 x hx)
  · cases h

theorem isPathText_layer (kind : AliasKind) : IsPathText kind.layer.toList := by
  cases kind <;> decide

theorem AliasTable.byConvention?_isClassText (ht : t.WellFormed)
    (h : t.byConvention? kind key = some cls) : IsClassText cls.toList := by
  unfold AliasTable.byConvention? at h
  obtain ⟨⟨module, path⟩, -, h⟩ := bind_eq_some_iff.mp h
  obtain ⟨ns, hns, h⟩ := bind_eq_some_iff.mp h
  obtain ⟨joined, hpath, h⟩ := bind_eq_some_iff.mp h
  cases h
  obtain ⟨e, he, rfl⟩ := mem_of_lookup hns
  have hsep : IsPathText "\\".toList := by decide
  refine ⟨e.2.toList ++ "\\".toList ++ kind.layer.toList ++ "\\".toList ++ joined, ?_, ?_⟩
  · simp [String.toList_append]
  · exact ((((isPathText_namespace (ht.modules e he)).append hsep).append
      (isPathText_layer kind)).append hsep).append (isPathText_conventionPath? hpath)

theorem AliasTable.named?_qualified (ht : t.WellFormed) (h : t.named? kind key = some cls) :
    isQualifiedClassName cls := by
  cases kind with
  | model =>
    obtain ⟨e, he, rfl⟩ := mem_of_lookup h
    exact ht.classes e he
  | helper =>
    obtain ⟨e, he, rfl⟩ := mem_of_lookup h
    exact builtinHelpers_qualified e he
  | resourceModel => cases h

theorem AliasTable.resolve?_isClassText (ht : t.WellFormed)
    (h : t.resolve? kind key = some cls) : IsClassText cls.toList := by
  unfold AliasTable.resolve? at h
  dsimp only at h
  cases hnamed : t.named? kind (aliasKey key) with
  | none =>
    rw [hnamed] at h
    exact AliasTable.byConvention?_isClassText ht h
  | some named =>
    rw [hnamed] at h
    cases h
    exact isClassText_qualified (AliasTable.named?_qualified ht hnamed)

/-! ## §4. Variables. -/

/-- The shifts beyond ASCII lead beyond ASCII again and never to a surrogate; the Kelvin sign alone
becomes a letter of ASCII. -/
theorem lowercaseShifts_range : ∀ s ∈ Text.lowercaseShifts, s.last < 128
    ∨ (s.first = 8490 ∧ s.last = 8490 ∧ s.offset = -8383)
    ∨ (128 ≤ (s.first : Int) + s.offset ∧ ((s.last : Int) + s.offset < 0xD800
      ∨ (0xDFFF < (s.first : Int) + s.offset ∧ (s.last : Int) + s.offset < 0x110000))) := by
  decide +kernel

theorem isNameStart_shifted? {d : Char} (hc : 128 ≤ c.toNat) (h : Text.shifted? Text.lowercaseShifts c = some d) :
    isNameStart d := by
  unfold Text.shifted? at h
  obtain ⟨s, hs, rfl⟩ := map_eq_some_iff.mp h
  have hin := find?_some hs
  simp only [Bool.and_eq_true, decide_eq_true_eq] at hin
  rcases lowercaseShifts_range s (mem_of_find?_eq_some hs) with hlast | ⟨hfst, hlast, hoff⟩ | ⟨hlow, hhigh⟩
  · omega
  · have hcode : c.toNat = 8490 := by omega
    rw [hcode, hoff]
    decide
  · generalize hn : ((c.toNat : Int) + s.offset).toNat = n
    have hvalid : n.isValidChar := by
      unfold Nat.isValidChar
      omega
    have hnat : (Char.ofNat n).toNat = n := by
      rw [Char.ofNat, dif_pos hvalid]
      rfl
    have : 128 ≤ n := by omega
    simp [isNameStart, hnat, this]

theorem isNamePart_toLower (h : isNamePart c) : isNamePart c.toLower := by
  unfold Char.toLower
  split
  · grind [isNamePart, Char.isAlphanum, isAlpha_eq, Char.isDigit, Char.le_def]
  · exact h

theorem isNameText_lowercaseChar (h : isNamePart c) : IsNameText (Text.lowercaseChar c) := by
  intro x hx
  unfold Text.lowercaseChar at hx
  split at hx
  · rw [mem_singleton] at hx
    subst hx
    exact isNamePart_toLower h
  · split at hx
    · have hdot : ∀ y ∈ ['i', '\u0307'], isNamePart y := by decide
      exact hdot x hx
    · rw [mem_singleton] at hx
      subst hx
      cases hshift : Text.shifted? Text.lowercaseShifts c with
      | none => exact h
      | some d => exact namePart_of_start (isNameStart_shifted? (by omega) hshift)

theorem isNameText_classSegments (h : IsClassText cls.toList) : ∀ segment ∈ classSegments cls, IsNameText segment := by
  have hpcs : ∀ piece ∈ (Text.split '\\' cls.toList).filter fun s => !s.isEmpty, IsNameText piece := by
    intro piece hpiece x hx
    obtain ⟨hmem, hne⟩ := Text.mem_of_mem_split (mem_filter.mp hpiece).1 hx
    obtain ⟨path, hcls, hpath⟩ := h
    rw [hcls] at hmem
    rcases mem_cons.mp hmem with rfl | hmem
    · exact absurd rfl hne
    · exact (hpath x hmem).resolve_right hne
  intro segment hseg
  unfold classSegments at hseg
  split at hseg
  · rename_i vendor first rest hsplit
    exact hpcs segment (hsplit ▸ mem_cons_of_mem vendor hseg)
  · exact hpcs segment hseg

theorem isNameText_lowerCamel {segments : List (List Char)} (h : ∀ segment ∈ segments, IsNameText segment) :
    IsNameText (lowerCamel segments).toList := by
  have hall : IsNameText segments.flatten := by
    intro x hx
    obtain ⟨segment, hseg, hx⟩ := mem_flatten.mp hx
    exact h segment hseg x hx
  unfold lowerCamel
  split
  · intro x hx
    cases hx
  · rename_i c cs hcs
    rw [hcs] at hall
    rw [String.toList_ofList]
    intro x hx
    rcases mem_append.mp hx with hx | hx
    · exact isNameText_lowercaseChar (hall c mem_cons_self) x hx
    · exact hall x (mem_cons_of_mem c hx)

theorem variableName_isNameText (h : IsClassText cls.toList) : IsNameText (variableName cls).toList := by
  have hsegments := isNameText_classSegments h
  unfold variableName
  dsimp only
  split
  · apply isNameText_lowerCamel
    intro segment hseg
    exact hsegments segment (mem_of_getLast? (mem_toList.mp hseg))
  · apply isNameText_lowerCamel
    intro segment hseg
    exact hsegments segment (mem_filter.mp hseg).1

theorem helperVariableName_isNameText (h : IsClassText cls.toList) : IsNameText (helperVariableName cls).toList := by
  have hkept : ∀ segment ∈ (classSegments cls).filter (· ≠ "Helper".toList), IsNameText segment :=
    fun segment hseg => isNameText_classSegments h segment (mem_filter.mp hseg).1
  unfold helperVariableName
  dsimp only
  apply isNameText_lowerCamel
  intro segment hseg
  rcases mem_append.mp hseg with hseg | hseg
  · split at hseg
    · exact hkept segment ((dropLast_sublist _).subset hseg)
    · exact hkept segment hseg
  · rw [mem_singleton] at hseg
    subst hseg
    decide

end Magento

end MageUplift
