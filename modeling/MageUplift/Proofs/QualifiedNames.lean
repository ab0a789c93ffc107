import MageUplift.Proofs.GeneratedTokens
import MageUplift.Settings.Problem
import Mathlib.Data.List.Basic
import Mathlib.Data.List.TFAE

/-!
# Qualified names

Whether a text is the name of a class or a namespace is decided in two ways. The settings and the alias tables cut it at
its separators and look at the pieces; the lexer goes through it character by character, with a look at what follows each
separator. Both come to the same answer for every text.

What an alias table answers should be such a name. The naming convention asks of every part of an alias that it consists
of letters and digits, but of the first part only that it begins with a letter: a later part that begins with a digit
becomes a segment that no name can have.
-/

namespace MageUplift

open Php List Option

variable {cs p : List Char} {c : Char} {key target : String} {ps : List (List Char)}

/-! ## §1. Cutting at a separator. -/

theorem Text.joinWith_split (sep : Char) (cs : List Char) : Text.joinWith [sep] (Text.split sep cs) = cs := by
  rw [Text.split_eq_splitOn, Text.joinWith, intercalate_splitOn]

theorem Text.length_split (sep : Char) (cs : List Char) : (Text.split sep cs).length = cs.count sep + 1 := by
  induction cs with
  | nil => rfl
  | cons c cs ih =>
    rw [Text.split, count_cons]
    split
    · rw [length_cons, ih]
    · cases hsplit : Text.split sep cs with
      | nil => exact absurd hsplit (Text.split_ne_nil sep cs)
      | cons piece pieces => simpa [hsplit] using ih

/-! ## §2. Identifiers between separators. -/

theorem isIdentifier_first_iff (h : Text.split '\\' cs = p :: ps) :
    isIdentifier p ↔ nextIs isNameStart cs ∧ IsNameText p := by
  refine ⟨fun hp => ⟨Wiring.nextIs_of_split h hp, nameText_identifier hp⟩, fun ⟨hstart, hp⟩ => ?_⟩
  cases cs with
  | nil => cases hstart
  | cons c cs =>
    have hc : isNameStart c := hstart
    have hne : (c == '\\') = false := beq_false_of_ne fun heq => by
      rw [heq] at hc
      cases hc
    rw [Text.split, hne, if_neg Bool.false_ne_true] at h
    refine isIdentifier_iff.mpr ⟨?_, hp⟩
    split at h
    all_goals
      cases h
      exact hc

theorem nameRun_eq_length_iff (h : Text.split '\\' cs = p :: ps) :
    nameRun cs = cs.length ↔ IsNameText p ∧ ∀ q ∈ ps, isIdentifier q := by
  constructor
  · intro hrun
    induction cs generalizing p ps with
    | nil =>
      cases h
      exact ⟨nofun, nofun⟩
    | cons c cs ih =>
      rw [nameRun, length_cons] at hrun
      split at hrun
      · rename_i hc
        cases hsplit : Text.split '\\' cs with
        | nil => exact absurd hsplit (Text.split_ne_nil _ cs)
        | cons q qs =>
          obtain ⟨hq, hqs⟩ := ih hsplit (Nat.succ.inj hrun)
          rw [Text.split, hsplit] at h
          split at h
          · -- the character is a separator, so an identifier begins behind it
            rename_i hsep
            obtain ⟨rfl, rfl⟩ := cons.inj h
            rw [eq_of_beq hsep] at hc
            have hstart : nextIs isNameStart cs := by simpa [show isNamePart '\\' = false from rfl] using hc
            exact ⟨nofun, forall_mem_cons.mpr ⟨(isIdentifier_first_iff hsplit).mpr ⟨hstart, hq⟩, hqs⟩⟩
          · rename_i hsep
            obtain ⟨rfl, rfl⟩ := cons.inj h
            have hname : isNamePart c := by simpa [hsep] using hc
            exact ⟨forall_mem_cons.mpr ⟨hname, hq⟩, hqs⟩
      · cases hrun
  · rintro ⟨hp, hps⟩
    have hrun := Wiring.nameRun_pieces h hp hps (show nameRun [] = 0 from rfl)
    rwa [append_nil] at hrun

theorem all_split_iff : (Text.split '\\' cs).all isIdentifier
    ↔ nextIs isNameStart cs ∧ nameRun cs = cs.length := by
  cases hsplit : Text.split '\\' cs with
  | nil => exact absurd hsplit (Text.split_ne_nil _ cs)
  | cons p ps =>
    rw [all_cons, Bool.and_eq_true, List.all_eq_true, isIdentifier_first_iff hsplit, nameRun_eq_length_iff hsplit,
      and_assoc]

theorem nameRun_append {w : List Char} (hcs : nameRun cs = cs.length) (hw : IsNameText w) :
    nameRun (cs ++ w) = (cs ++ w).length := by
  induction cs with
  | nil => simpa using nameRun_of_all hw (show nameRun [] = 0 from rfl)
  | cons c cs ih =>
    rw [nameRun, length_cons] at hcs
    split at hcs
    · rename_i hc
      have hstays : (isNamePart c || (c == '\\' && nextIs isNameStart (cs ++ w))) := by
        cases cs with
        | nil =>
          rw [show nextIs isNameStart [] = false from rfl, Bool.and_false, Bool.or_false] at hc
          rw [hc, Bool.true_or]
        | cons d cs => exact hc
      rw [cons_append, nameRun, if_pos hstays, ih (Nat.succ.inj hcs), length_cons]
    · cases hcs

/-! ## §3. One name as the lexer reads it. -/

theorem lexFragment_eq_singleton_iff {t : String} (h : t.toList = c :: cs) {k : Kind} :
    lexFragment t = [⟨k, t⟩] ↔ (phpLexeme none c cs).kind = k ∧ (phpLexeme none c cs).length = 1 + cs.length := by
  rw [lexFragment, h, tokens_steps_cons, show lexeme .php none c cs = phpLexeme none c cs from rfl]
  constructor
  · intro htoks
    obtain ⟨htoken, -⟩ := cons.inj htoks
    obtain ⟨hkind, htext⟩ := Token.mk.inj htoken
    refine ⟨hkind, Nat.le_antisymm (lexeme_length_le .php none c cs) ?_⟩
    rw [← String.toList_inj, String.toList_ofList, h] at htext
    have := congrArg List.length htext
    rw [length_take, length_cons] at this
    omega
  · rintro ⟨rfl, hlen⟩
    have hall : (c :: cs).length = (phpLexeme none c cs).length := by rw [hlen, length_cons, Nat.add_comm]
    rw [← hall, take_length, drop_length, ← h, String.ofList_toList, steps_nil]
    rfl

theorem operators_ne_qualified : ∀ o ∈ operators, o.kind ≠ .qualifiedName := by decide

/-- **Where a qualified name is read**: at a separator in front of an identifier, or at an identifier that a separator
belongs to. -/
theorem phpLexeme_qualifiedName {last : Option Kind} (h : (phpLexeme last c cs).kind = .qualifiedName) :
    (phpLexeme last c cs).length = 1 + nameRun cs
      ∧ (c = '\\' ∧ nextIs isNameStart cs ∨ isNameStart c ∧ '\\' ∈ cs.take (nameRun cs)) := by
  have hc : isNameStart c ∨ c = '\\' := by
    have hspec := phpLexeme_spec last c cs
    generalize phpLexeme last c cs = l at hspec h
    cases hspec with
    | name _ hc => exact hc
    | blockComment hkind => rcases hkind with rfl | rfl <;> cases h
    | openComment hkind => rcases hkind with rfl | rfl <;> cases h
    | operator ho => exact absurd h (operators_ne_qualified _ ho)
    | _ => exact absurd h nofun
  rcases hc with hc | rfl
  · rw [phpLexeme_nameStart hc] at h ⊢
    refine ⟨rfl, .inr ⟨hc, ?_⟩⟩
    cases hcont : (c :: cs.take (nameRun cs)).contains '\\' with
    | true =>
      rw [contains_eq_mem, decide_eq_true_eq] at hcont
      refine (mem_cons.mp hcont).resolve_left fun heq => ?_
      rw [← heq] at hc
      cases hc
    | false =>
      rw [hcont, if_neg Bool.false_ne_true] at h
      rcases wordKind_cases last (.ofList (c :: cs.take (nameRun cs))) with hword | ⟨k, hword⟩ <;>
        rw [hword] at h <;> cases h
  · cases hstart : nextIs isNameStart cs with
    | true =>
      rw [phpLexeme_separator last hstart]
      exact ⟨rfl, .inl ⟨rfl, rfl⟩⟩
    | false =>
      rw [phpLexeme_loneSeparator last hstart] at h
      cases h

theorem qualifiedName_iff (t : String) : lexFragment t = [⟨.qualifiedName, t⟩]
    ↔ (∃ cs, t.toList = '\\' :: cs ∧ (Text.split '\\' cs).all isIdentifier)
      ∨ '\\' ∈ t.toList ∧ (Text.split '\\' t.toList).all isIdentifier := by
  cases ht : t.toList with
  | nil =>
    have hnil : lexFragment t = [] := by rw [lexFragment, ht, steps_nil]; rfl
    simp [hnil]
  | cons c cs =>
    rw [lexFragment_eq_singleton_iff ht]
    constructor
    · rintro ⟨hkind, hlen⟩
      obtain ⟨hrun, hstarts⟩ := phpLexeme_qualifiedName hkind
      have hall : nameRun cs = cs.length := by omega
      rcases hstarts with ⟨rfl, hstart⟩ | ⟨hstart, hmem⟩
      · exact .inl ⟨cs, rfl, all_split_iff.mpr ⟨hstart, hall⟩⟩
      · refine .inr ⟨mem_cons_of_mem c (mem_of_mem_take hmem), all_split_iff.mpr ⟨hstart, ?_⟩⟩
        rw [nameRun, if_pos (by rw [namePart_of_start hstart, Bool.true_or]), hall, length_cons]
    · rintro (⟨_, heq, hsplit⟩ | ⟨hmem, hsplit⟩)
      · obtain ⟨rfl, rfl⟩ := cons.inj heq
        obtain ⟨hstart, hrun⟩ := all_split_iff.mp hsplit
        rw [phpLexeme_separator none hstart, hrun]
        exact ⟨rfl, rfl⟩
      · obtain ⟨hstart, hrun⟩ := all_split_iff.mp hsplit
        have hc : isNameStart c := hstart
        rw [nameRun, if_pos (by rw [namePart_of_start hc, Bool.true_or]), length_cons] at hrun
        have hcont : (c :: cs).contains '\\' := by rwa [contains_eq_mem, decide_eq_true_eq]
        rw [phpLexeme_nameStart hc, Nat.succ.inj hrun, take_length, if_pos hcont]
        exact ⟨rfl, rfl⟩

/-! ## §4. Three checks of one text. -/

theorem all_split_separator (cs : List Char) : (Text.split '\\' ('\\' :: cs)).all isIdentifier = false := by
  rw [Text.split, if_pos (beq_self_eq_true _)]
  rfl

theorem qualified_iff_read (t : String) :
    isQualifiedClassName t ↔ lexFragment t = [⟨.qualifiedName, t⟩] ∧ t.toList.head? = some '\\' := by
  rw [qualifiedName_iff]
  constructor
  · intro h
    unfold isQualifiedClassName at h
    split at h
    · rename_i cs ht
      exact ⟨.inl ⟨cs, ht, h⟩, by rw [ht]; rfl⟩
    · cases h
  · rintro ⟨hread, hhead⟩
    obtain ⟨cs, ht⟩ := head?_eq_some_iff.mp hhead
    simp only [isQualifiedClassName, ht]
    rcases hread with ⟨cs', ht', hall⟩ | ⟨-, hall⟩
    · rw [ht] at ht'
      rwa [(cons.inj ht').2]
    · rw [ht, all_split_separator] at hall
      cases hall

theorem isModuleNamespace_iff (t : String) : isModuleNamespace t
    ↔ (Text.split '\\' t.toList).length = 2 ∧ (Text.split '\\' t.toList).all isIdentifier := by
  unfold isModuleNamespace
  split
  · rename_i vendor module hsplit
    simp [hsplit]
  · rename_i hnot
    refine ⟨nofun, fun ⟨hlen, _⟩ => ?_⟩
    obtain ⟨vendor, module, hsplit⟩ := length_eq_two.mp hlen
    exact absurd hsplit (hnot vendor module)

theorem isModuleNamespace_iff_read (t : String) : isModuleNamespace t
    ↔ lexFragment t = [⟨.qualifiedName, t⟩] ∧ t.toList.count '\\' = 1 ∧ t.toList.head? ≠ some '\\' := by
  rw [isModuleNamespace_iff, Text.length_split, qualifiedName_iff]
  constructor
  · rintro ⟨hlen, hall⟩
    have hcount : t.toList.count '\\' = 1 := Nat.succ.inj hlen
    refine ⟨.inr ⟨count_pos_iff.mp (by omega), hall⟩, hcount, fun hhead => ?_⟩
    obtain ⟨cs, ht⟩ := head?_eq_some_iff.mp hhead
    rw [ht, all_split_separator] at hall
    cases hall
  · rintro ⟨⟨cs, ht, -⟩ | ⟨-, hall⟩, hcount, hhead⟩
    · exact absurd (by rw [ht]; rfl) hhead
    · exact ⟨by rw [hcount], hall⟩

namespace Magento

theorem AliasTable.addClass_ok_iff (table : AliasTable) (key target : String) :
    (∃ added, table.addClass key target = .ok added) ↔ isQualifiedClassName target := by
  unfold AliasTable.addClass
  split
  · exact ⟨fun _ => ‹_›, fun _ => ⟨_, rfl⟩⟩
  · exact ⟨nofun, fun h => absurd h ‹_›⟩

theorem AliasTable.addModule_ok_iff (table : AliasTable) (key target : String) :
    (∃ added, table.addModule key target = .ok added) ↔ isModuleNamespace target := by
  unfold AliasTable.addModule
  split
  · exact ⟨fun _ => ‹_›, fun _ => ⟨_, rfl⟩⟩
  · exact ⟨nofun, fun h => absurd h ‹_›⟩

end Magento

theorem classAlias_mem_problems {m : Settings.Migrate} :
    .classAliasNotQualified key target ∈ m.problems
      ↔ (key, target) ∈ m.classAliases ∧ isQualifiedClassName target = false := by
  simp [Settings.Migrate.problems]

theorem no_classAliasNotQualified_iff :
    (∀ m : Settings.Migrate, (key, target) ∈ m.classAliases → .classAliasNotQualified key target ∉ m.problems)
      ↔ isQualifiedClassName target := by
  constructor
  · intro h
    have hone := h { classAliases := [(key, target)] } mem_cons_self
    rw [classAlias_mem_problems, not_and] at hone
    exact Bool.of_not_eq_false (hone mem_cons_self)
  · intro h m _ hmem
    rw [classAlias_mem_problems, h] at hmem
    cases hmem.2

/-- **The checks of names agree.** For every text these are the same: it is the name of a class by its pieces; no
settings in which it is the target of a class alias are reported for it; every alias table takes it as the class of an
alias; and the lexer reads it, as a fragment of code, as one qualified name that begins with a separator. An alias table
takes it as the namespace of a module exactly if the lexer reads it as one qualified name with one separator, not in
front. -/
theorem name_checks_agree (name key : String) (table : Magento.AliasTable) :
    List.TFAE [isQualifiedClassName name = true,
      ∀ m : Settings.Migrate, (key, name) ∈ m.classAliases → .classAliasNotQualified key name ∉ m.problems,
      ∃ added, table.addClass key name = .ok added,
      lexFragment name = [⟨.qualifiedName, name⟩] ∧ name.toList.head? = some '\\']
    ∧ ((∃ added, table.addModule key name = .ok added)
      ↔ lexFragment name = [⟨.qualifiedName, name⟩] ∧ name.toList.count '\\' = 1 ∧ name.toList.head? ≠ some '\\') := by
  refine ⟨List.tfae_of_forall (isQualifiedClassName name) _ ?_, ?_⟩
  · simp only [List.forall_mem_cons]
    exact ⟨trivial, no_classAliasNotQualified_iff, table.addClass_ok_iff key name, (qualified_iff_read name).symm,
      nofun⟩
  · rw [table.addModule_ok_iff, isModuleNamespace_iff_read]

/-! ## §5. The names that tables answer. -/

/-- **The full name of a class**: a separator, and identifiers with separators between them. -/
def IsFullName (name : String) : Prop :=
  ∃ segments, segments ≠ [] ∧ (∀ s ∈ segments, isIdentifier s = true)
    ∧ name.toList = '\\' :: Text.joinWith ['\\'] segments

theorem isFullName_iff (name : String) : IsFullName name ↔ isQualifiedClassName name := by
  constructor
  · rintro ⟨segments, hne, hall, htext⟩
    simp only [isQualifiedClassName, htext]
    rw [Text.split_joinWith hne fun s hs => not_mem_backslash (nameText_identifier (hall s hs)), List.all_eq_true]
    exact hall
  · intro h
    unfold isQualifiedClassName at h
    split at h
    · rename_i cs htext
      exact ⟨Text.split '\\' cs, Text.split_ne_nil _ cs, List.all_eq_true.mp h, by rw [Text.joinWith_split, htext]⟩
    · cases h

theorem isQualifiedClassName_append {cls more : String} (h : isQualifiedClassName cls)
    (hmore : IsNameText more.toList) : isQualifiedClassName (cls ++ more) := by
  unfold isQualifiedClassName at h
  split at h
  · rename_i cs htext
    obtain ⟨hstart, hrun⟩ := all_split_iff.mp h
    have hne : cs ≠ [] := by
      rintro rfl
      cases hstart
    simp only [isQualifiedClassName, String.toList_append, htext, cons_append]
    exact all_split_iff.mpr ⟨by rwa [nextIs_append hne], nameRun_append hrun hmore⟩
  · cases h

namespace Magento

/-- **A class that generated code can name**: it has a full name, alias tables take it, and the lexer reads it, and the
name of its factory, as one name. -/
structure IsUsableClass (cls : String) : Prop where
  fullName : IsFullName cls
  taken : ∀ (table : AliasTable) (key : String), ∃ added, table.addClass key cls = .ok added
  read : lexFragment cls = [⟨.qualifiedName, cls⟩]
  readFactory : lexFragment (cls ++ "Factory") = [⟨.qualifiedName, cls ++ "Factory"⟩]

theorem isUsableClass_iff (cls : String) : IsUsableClass cls ↔ isQualifiedClassName cls := by
  refine ⟨fun h => (isFullName_iff cls).mp h.fullName, fun h => ?_⟩
  have hfactory : isQualifiedClassName (cls ++ "Factory") := isQualifiedClassName_append h (by decide)
  exact ⟨(isFullName_iff cls).mpr h, fun table key => (table.addClass_ok_iff key cls).mpr h,
    ((qualified_iff_read cls).mp h).1, ((qualified_iff_read _).mp hfactory).1⟩

/-- A part of the path that a normalised alias names begins with a digit. -/
def HasNumberedPart (kind : AliasKind) (key : String) : Prop :=
  ∃ parts ∈ AliasTable.aliasParts? kind key.toList, ∃ part ∈ Text.split '_' parts.2, nextIs Char.isDigit part = true

instance (kind : AliasKind) (key : String) : Decidable (HasNumberedPart kind key) :=
  inferInstanceAs (Decidable (∃ parts ∈ AliasTable.aliasParts? kind key.toList, ∃ part ∈ Text.split '_' parts.2, _))

theorem isNameStart_toUpper (h : c.isAlphanum) : isNameStart c.toUpper = !c.isDigit := by
  cases hdigit : c.isDigit with
  | true =>
    have hall : ∀ d ∈ ['0', '1', '2', '3', '4', '5', '6', '7', '8', '9'], isNameStart d.toUpper = false := by decide
    exact hall c (mem_digits hdigit)
  | false =>
    have halpha : c.isAlpha := by simpa [Char.isAlphanum, hdigit] using h
    have hupper : c.toUpper.isAlpha := by
      unfold Char.toUpper
      split
      · grind [isAlpha_eq, Char.le_def]
      · exact halpha
    rw [isNameStart, hupper]
    rfl

theorem isIdentifier_capitalised (h : (c :: cs).all Char.isAlphanum) :
    isIdentifier (c.toUpper :: cs) = !c.isDigit := by
  have hrest : cs.all isNamePart :=
    List.all_eq_true.mpr fun x hx => isNameText_capitalised h x (mem_cons_of_mem _ hx)
  rw [all_cons, Bool.and_eq_true] at h
  rw [isIdentifier, isNameStart_toUpper h.1, hrest, Bool.and_true]

/-- **The convention gives identifiers** exactly if no part of the path begins with a digit. -/
theorem conventionPath?_identifiers {path joined : List Char} (h : AliasTable.conventionPath? path = some joined) :
    (Text.split '\\' joined).all isIdentifier ↔ ∀ part ∈ Text.split '_' path, nextIs Char.isDigit part = false := by
  unfold AliasTable.conventionPath? at h
  dsimp only at h
  split at h
  · rename_i hparts
    rw [List.all_eq_true] at hparts
    split at h
    · cases h
    · cases h
      rw [Text.split_joinWith, List.all_map, List.all_eq_true]
      · refine forall₂_congr fun part hpart => ?_
        have hpart := hparts part hpart
        cases part with
        | nil => cases hpart
        | cons c cs =>
          show isIdentifier (c.toUpper :: cs) = true ↔ c.isDigit = false
          rw [isIdentifier_capitalised hpart, Bool.not_eq_true']
      · simpa using Text.split_ne_nil '_' path
      · intro segment hseg
        obtain ⟨part, hpart, rfl⟩ := List.mem_map.mp hseg
        have hpart := hparts part hpart
        cases part with
        | nil => cases hpart
        | cons c cs => exact not_mem_backslash (isNameText_capitalised hpart)
  · cases h

theorem all_split_layer (kind : AliasKind) : (Text.split '\\' kind.layer.toList).all isIdentifier := by
  cases kind <;> decide

theorem AliasTable.byConvention?_qualified_iff {t : AliasTable} (ht : t.WellFormed) {kind : AliasKind} {cls : String}
    (h : t.byConvention? kind key = some cls) : isQualifiedClassName cls ↔ ¬ HasNumberedPart kind key := by
  unfold AliasTable.byConvention? at h
  obtain ⟨⟨module, path⟩, hparts, h⟩ := bind_eq_some_iff.mp h
  obtain ⟨ns, hns, h⟩ := bind_eq_some_iff.mp h
  obtain ⟨joined, hpath, h⟩ := bind_eq_some_iff.mp h
  cases h
  obtain ⟨e, he, rfl⟩ := mem_of_lookup hns
  have hnamespace := ((isModuleNamespace_iff e.2).mp (ht.modules e he)).2
  have htext : ("\\" ++ e.2 ++ "\\" ++ kind.layer ++ "\\" ++ String.ofList joined).toList
      = '\\' :: (e.2.toList ++ '\\' :: (kind.layer.toList ++ '\\' :: joined)) := by
    simp [String.toList_append]
  simp only [isQualifiedClassName, htext]
  rw [Text.split_append, Text.split_append, all_append, all_append, hnamespace, all_split_layer, Bool.true_and,
    Bool.true_and, conventionPath?_identifiers hpath]
  constructor
  · rintro hall ⟨parts, hparts', part, hpart, hdigit⟩
    cases some.inj (hparts.symm.trans hparts')
    rw [hall part hpart] at hdigit
    cases hdigit
  · intro hnot part hpart
    exact Bool.eq_false_iff.mpr fun hdigit => hnot ⟨(module, path), hparts, part, hpart, hdigit⟩

/-- **What a table answers can be named**, unless the naming convention meets a part that begins with a digit. Every table
that is made of the built-in one by additions that succeed answers a class that generated code can name exactly if the
class is named outright for the alias or no part of the alias begins with a digit. -/
theorem resolve?_usable_iff {t : AliasTable} (ht : t.Reachable) {kind : AliasKind} {key cls : String}
    (h : t.resolve? kind key = some cls) :
    IsUsableClass cls ↔ (t.named? kind (aliasKey key)).isSome ∨ ¬ HasNumberedPart kind (aliasKey key) := by
  rw [isUsableClass_iff]
  unfold AliasTable.resolve? at h
  dsimp only at h
  cases hnamed : t.named? kind (aliasKey key) with
  | none =>
    rw [hnamed] at h
    rw [AliasTable.byConvention?_qualified_iff ht.wellFormed h]
    simp
  | some named =>
    rw [hnamed] at h
    cases h
    simp [AliasTable.named?_qualified ht.wellFormed hnamed]

/-- The convention finds the view of a product in the namespace that was added for its module, and digits behind the first
letter of a part do no harm. -/
theorem resolve?_usable_added :
    ∃ t : AliasTable, AliasTable.builtin.addModule "shop" "Ä\\Shop" = .ok t
      ∧ t.resolve? .helper " Shop/Product_View2" = some "\\Ä\\Shop\\Helper\\Product\\View2"
      ∧ IsUsableClass "\\Ä\\Shop\\Helper\\Product\\View2" := by
  let t := { AliasTable.builtin with modules := (aliasKey "shop", "Ä\\Shop") :: AliasTable.builtin.modules }
  have hadd : AliasTable.builtin.addModule "shop" "Ä\\Shop" = .ok t := if_pos (by decide)
  have hanswer : t.resolve? .helper " Shop/Product_View2" = some "\\Ä\\Shop\\Helper\\Product\\View2" := by decide +kernel
  exact ⟨t, hadd, hanswer, (resolve?_usable_iff (.addModule .builtin hadd) hanswer).mpr (.inr (by decide +kernel))⟩

/-- A part that begins with a digit becomes a segment that begins with one. -/
theorem resolve?_answers_number :
    AliasTable.builtin.resolve? .model "catalog/product_2x" = some "\\Magento\\Catalog\\Model\\Product\\2x"
      ∧ ¬ IsFullName "\\Magento\\Catalog\\Model\\Product\\2x"
      ∧ lexFragment "\\Magento\\Catalog\\Model\\Product\\2x"
        = [⟨.qualifiedName, "\\Magento\\Catalog\\Model\\Product"⟩, ⟨.operator, "\\"⟩, ⟨.number, "2"⟩,
          ⟨.identifier, "x"⟩] := by
  refine ⟨by decide +kernel, ?_, by decide +kernel⟩
  rw [isFullName_iff]
  decide +kernel

end Magento

end MageUplift
