import Mathlib.Data.List.Nodup
import Mathlib.Data.String.Basic
import MageUplift.Proofs.HandleRules

/-!
# Handles in either case

Names are matched without regard to case, but the front part that the rules of an area replace (`areaFront`) is looked
for as it is written. So two handles that differ in case only stand for the same names if both begin with the front
part of the area or neither does (`mapHandle_small`).

A table has one entry for all spellings of a handle, made from the first. What it says is described without any order
(`Tabulates`), so that the order of the handles makes no difference where their spellings stand for the same names.
-/

namespace MageUplift.Layout

open Text (foldCase sameLetter)
open List Piece

/-! ## §1. Letters. -/

theorem apply_toLower {α : Type} {f : Char → α} (h : ∀ c ∈ (range' 65 26).map Char.ofNat, f c.toLower = f c) (c : Char) :
    f c.toLower = f c := by
  -- nothing but the capital letters of ASCII is changed
  by_cases hc : c ∈ (range' 65 26).map Char.ofNat
  · exact h c hc
  · refine congrArg f (dif_neg ?_)
    rintro ⟨hlow, hhigh⟩
    have hlow : 65 ≤ c.toNat := UInt32.le_iff_toNat_le.mp hlow
    have hhigh : c.toNat ≤ 90 := UInt32.le_iff_toNat_le.mp hhigh
    exact hc (mem_map.mpr ⟨c.toNat, mem_range'_1.mpr ⟨hlow, by omega⟩, Char.ofNat_toNat c⟩)

theorem foldCase_toLower (c : Char) : foldCase c.toLower = foldCase c := apply_toLower (by decide) c

/-! ## §2. Pieces in lower case. -/

namespace Piece

def small : Piece → Piece
  | .letter c => .letter c.toLower
  | p => p

theorem texts_small (ps : List Piece) : texts (ps.map small) = (texts ps).map Char.toLower := by
  rw [texts, texts, flatMap_map, map_flatMap]
  refine flatMap_congr fun p _ => ?_
  cases p with
  | letter c =>
    rw [small, text, text, apply_toLower (f := isMeta) (by decide)]
    split <;> rfl
  | filler | word => rfl

theorem literal_small (cs : List Char) : (literal cs).map small = literal (cs.map Char.toLower) := by
  simp [literal, small]

theorem replaced_small {underscore : List Piece} (h : underscore.map small = underscore) (cs : List Char) :
    (replaced underscore cs).map small = replaced underscore (cs.map Char.toLower) := by
  rw [replaced, replaced, map_flatMap, flatMap_map]
  refine flatMap_congr fun c _ => ?_
  rw [apply_toLower (f := (· == '_')) (by decide)]
  split
  · exact h
  · rfl

end Piece

theorem sequence_small {α : Type} {f : PatternTree → α} {g : α → α → α} (hseq : ∀ a b, f (.seq a b) = g (f a) (f b))
    (hf : ∀ p : Piece, f p.small.tree = f p.tree) (ps : List Piece) :
    f (.sequence ((ps.map small).map tree)) = f (.sequence (ps.map tree)) := by
  match ps with
  | [] => rfl
  | [p] => exact hf p
  | p :: q :: ps =>
    show f (.seq p.small.tree (.sequence (((q :: ps).map small).map tree)))
      = f (.seq p.tree (.sequence ((q :: ps).map tree)))
    rw [hseq, hseq, hf, sequence_small hseq hf (q :: ps)]

theorem machineSize_small (ps : List Piece) : (framed (ps.map small)).machineSize = (framed ps).machineSize := by
  have hpiece : ∀ p : Piece, p.small.tree.blueprints = p.tree.blueprints := by
    rintro (c | _ | _)
    · show [Blueprint.ofCodes (.ofChars (Text.caseVariants c.toLower))]
        = [Blueprint.ofCodes (.ofChars (Text.caseVariants c))]
      rw [Text.caseVariants, Text.caseVariants, foldCase_toLower]
    · rfl
    · rfl
  have hsequence := sequence_small (g := fun a b => [(Blueprint.choice a).append (.choice b)]) (fun _ _ => rfl) hpiece ps
  simp only [framed, PatternTree.machineSize, PatternTree.blueprint, PatternTree.blueprints, hsequence]

theorem occursIn_small (ps : List Piece) : (framed (ps.map small)).pattern.occursIn = (framed ps).pattern.occursIn := by
  funext name
  have hpiece : ∀ p : Piece, p.small.tree.pattern.locate name.toList = p.tree.pattern.locate name.toList := by
    rintro (c | _ | _)
    · have haccepts : (CharClass.letter c.toLower).accepts = (CharClass.letter c).accepts := by
        funext d
        show sameLetter c.toLower d = sameLetter c d
        rw [sameLetter, sameLetter, foldCase_toLower]
      show LocatedPattern.step (.passing (CharClass.letter c.toLower).accepts _)
        = .step (.passing (CharClass.letter c).accepts _)
      rw [haccepts]
    · rfl
    · rfl
  have hsequence := sequence_small (f := fun a => a.pattern.locate name.toList) (g := .seq) (fun _ _ => rfl) hpiece ps
  simp only [Pattern.occursIn, Pattern.ends, framed, PatternTree.pattern, Pattern.locate, hsequence]

/-! ## §3. Handles that differ in case only. -/

def PatternError.small (e : PatternError) : PatternError := ⟨e.pattern.toLower⟩

theorem mapBy_small (catalog : Catalog) (pieces : List (List Piece)) :
    mapBy catalog ((pieces.map (map small)).map texts)
      = (mapBy catalog (pieces.map texts)).mapError PatternError.small := by
  induction pieces with
  | nil => rfl
  | cons ps pieces ih =>
    rw [map_cons, mapBy_cons, mapBy_cons, machineSize_small, occursIn_small, texts_small]
    split
    · cases catalog.names.find? (framed ps).pattern.occursIn with
      | some name => rfl
      | none => exact ih
    · refine congrArg Except.error (congrArg PatternError.mk ?_)
      rw [← String.toList_inj, String.toList_ofList]
      exact (String.toList_map.trans (by rw [String.toList_ofList])).symm

/-- The front part that the rules of an area take off or replace. -/
def areaFront (area : String) : String := if area = "adminhtml" then "adminhtml_" else "enterprise_"

/-- Both handles begin with the front part of the area, or neither does. -/
def SameFront (area h₁ h₂ : String) : Prop := (areaFront area).toList <+: h₁.toList
    ↔ (areaFront area).toList <+: h₂.toList

instance (area h₁ h₂ : String) : Decidable (SameFront area h₁ h₂) := inferInstanceAs (Decidable (_ ↔ _))

theorem toLower_eq_iff {a b : String} : a.toLower = b.toLower
    ↔ a.toList.map Char.toLower = b.toList.map Char.toLower := by
  rw [← String.toList_inj, ← String.toList_map, ← String.toList_map]
  rfl

variable {area h₁ h₂ : String}

theorem afterFront?_small (hcase : h₁.toLower = h₂.toLower) (hfront : SameFront area h₁ h₂) :
    (afterFront? (areaFront area) h₁.toList).map (map Char.toLower)
      = (afterFront? (areaFront area) h₂.toList).map (map Char.toLower) := by
  rw [SameFront, ← List.isPrefixOf_iff_prefix, ← List.isPrefixOf_iff_prefix, ← Bool.eq_iff_iff] at hfront
  rw [afterFront?, afterFront?, hfront]
  split
  · rw [Option.map_some, Option.map_some, map_drop, map_drop, toLower_eq_iff.mp hcase]
  · rfl

theorem candidatePieces_small (hcase : h₁.toLower = h₂.toLower) (hfront : SameFront area h₁ h₂) :
    (candidatePieces h₁ area).map (map small) = (candidatePieces h₂ area).map (map small) := by
  have hrest := afterFront?_small hcase hfront
  have hplural : ∀ cs, (plural cs).map small = plural (cs.map Char.toLower) := replaced_small rfl
  have hspread : ∀ cs, (replaced [.letter '_', .word, .letter '_'] cs).map small = replaced _ (cs.map Char.toLower) :=
    replaced_small rfl
  rw [candidatePieces, candidatePieces]
  by_cases harea : area = "adminhtml"
  · rw [areaFront, if_pos harea] at hrest
    simp only [harea, map_cons, map_nil, beq_self_eq_true, if_true, literal_small, hplural, hspread,
      ← Option.getD_map (map Char.toLower), hrest, toLower_eq_iff.mp hcase]
  · rw [areaFront, if_neg harea] at hrest
    generalize afterFront? "enterprise_" h₁.toList = o₁, afterFront? "enterprise_" h₂.toList = o₂ at hrest
    -- there is one more rule for a handle with the front part, so the two must agree in having it
    rcases o₁ with _ | r₁ <;> rcases o₂ with _ | r₂
    · simp [harea, literal_small, hplural, toLower_eq_iff.mp hcase]
    · cases hrest
    · cases hrest
    · simp [harea, literal_small, hplural, toLower_eq_iff.mp hcase, Option.some.inj hrest]

/-- **Handles that differ in case only stand for the same names**, if both or neither begin with the front part. -/
theorem mapHandle_small (hcase : h₁.toLower = h₂.toLower) (hfront : SameFront area h₁ h₂) (catalog : Catalog) :
    (mapHandle catalog h₁ area).mapError PatternError.small
      = (mapHandle catalog h₂ area).mapError PatternError.small := by
  rw [mapHandle, mapHandle, candidates_eq, candidates_eq, ← mapBy_small, ← mapBy_small,
    candidatePieces_small hcase hfront]

/-! ## §4. Tables. -/

section

variable (catalog : Catalog) (area : String)

/-- What the table of an area says of a handle; nothing if a pattern for it is too large. -/
def row? (handle : String) : Option (String × String) :=
  (mapHandle catalog handle area).toOption.map fun r => (Text.lowercase handle, r.text)

/-- A table says of each handle what it stands for, and nothing else. -/
structure Tabulates (handles : List String) (table : List (String × String)) : Prop where
  nodup : (table.map Prod.fst).Nodup
  mem_iff : ∀ o, o ∈ handles.map (row? catalog area) ↔ o ∈ table.map some

/-- All spellings of a handle have the same entry. -/
def Consistent (handles : List String) : Prop :=
  ∀ h ∈ handles, ∀ h' ∈ handles, Text.lowercase h = Text.lowercase h' → row? catalog area h = row? catalog area h'

/-- A table with one more handle. -/
def addHandle (table : List (String × String)) (handle : String) : Except PatternError (List (String × String)) := do
  let key := Text.lowercase handle
  if (table.lookup key).isSome then return table
  return table ++ [(key, (← mapHandle catalog handle area).text)]

variable {catalog area} {handles others : List String} {handle : String} {table more : List (String × String)}
  {e : String × String}

theorem fst_of_row? (h : row? catalog area handle = some e) : e.1 = Text.lowercase handle := by
  obtain ⟨r, -, rfl⟩ := Option.map_eq_some_iff.mp h
  rfl

theorem Tabulates.exists_handle (h : Tabulates catalog area handles table) (he : e ∈ table) :
    ∃ h ∈ handles, row? catalog area h = some e :=
  mem_map.mp ((h.mem_iff _).mpr (mem_map_of_mem he))

theorem Tabulates.addHandle (hsame : Consistent catalog area (handles ++ [handle]))
    (h : Tabulates catalog area handles table) :
    (∃ more, addHandle catalog area table handle = .ok more ∧ Tabulates catalog area (handles ++ [handle]) more)
      ∨ row? catalog area handle = none ∧ ∃ e, Layout.addHandle catalog area table handle = .error e := by
  have hlookup : (table.lookup (Text.lowercase handle)).isSome ↔ Text.lowercase handle ∈ table.map Prod.fst := by
    simp only [lookup_isSome_iff, mem_map, beq_iff_eq, @eq_comm _ (Text.lowercase handle)]
  rw [Layout.addHandle]
  by_cases hkey : Text.lowercase handle ∈ table.map Prod.fst
  · -- another spelling has been seen, which has the same entry
    obtain ⟨e, hmem, hfst⟩ := mem_map.mp hkey
    obtain ⟨h', hh', he⟩ := h.exists_handle hmem
    have heq : row? catalog area handle = some e :=
      he ▸ hsame _ (by simp) _ (by simp [hh']) (by rw [← hfst, fst_of_row? he])
    refine .inl ⟨table, if_pos (hlookup.mpr hkey), h.nodup, fun o => ?_⟩
    rw [map_append, mem_append, h.mem_iff, map_singleton, mem_singleton, heq]
    exact or_iff_left_of_imp fun ho => ho ▸ mem_map_of_mem hmem
  · simp only [mt hlookup.mp hkey]
    cases hmap : mapHandle catalog handle area with
    | error e => exact .inr ⟨by rw [row?, hmap]; rfl, e, rfl⟩
    | ok r =>
      have he : row? catalog area handle = some (Text.lowercase handle, r.text) := by rw [row?, hmap]; rfl
      refine .inl ⟨_, rfl, ?_, fun o => by simp only [map_append, mem_append, h.mem_iff, map_singleton, he]⟩
      rw [map_append, map_singleton]
      exact nodup_append.mpr ⟨h.nodup, nodup_singleton _,
        by rintro a ha b hb rfl; cases mem_singleton.mp hb; exact hkey ha⟩

theorem tabulates_foldlM (hsame : Consistent catalog area handles) :
    (∃ table, handles.foldlM (addHandle catalog area) [] = .ok table ∧ Tabulates catalog area handles table)
      ∨ none ∈ handles.map (row? catalog area) ∧ ∃ e, handles.foldlM (addHandle catalog area) [] = .error e := by
  -- induction from the end, since the table of the handles in front decides on the last one
  induction handles using List.reverseRecOn with
  | nil => exact .inl ⟨[], rfl, nodup_nil, fun _ => .rfl⟩
  | append_singleton handles handle ih =>
    simp only [foldlM_append, foldlM_cons, foldlM_nil, bind_pure, map_append, mem_append]
    have hfront : Consistent catalog area handles :=
      fun a ha b hb => hsame a (mem_append_left _ ha) b (mem_append_left _ hb)
    rcases ih hfront with ⟨table, htable, htab⟩ | ⟨hnone, e, he⟩
    · rw [htable]
      rcases htab.addHandle hsame with hmore | ⟨hnone, herror⟩
      · exact .inl hmore
      · exact .inr ⟨.inr (by simp [hnone]), herror⟩
    · rw [he]
      exact .inr ⟨.inl hnone, e, rfl⟩

theorem Tabulates.perm (h : Tabulates catalog area handles table) (hhandles : others ~ handles) (htab : more ~ table) :
    Tabulates catalog area others more where
  nodup := (htab.map Prod.fst).nodup_iff.mpr h.nodup
  mem_iff := fun o => by rw [(hhandles.map _).mem_iff, h.mem_iff, (htab.map some).mem_iff]

theorem Tabulates.eq (h : Tabulates catalog area handles table) (h' : Tabulates catalog area handles more)
    (hsorted : table.Pairwise fun a b => a.1 ≤ b.1) (hsorted' : more.Pairwise fun a b => a.1 ≤ b.1) : table = more := by
  have hmem : ∀ e, e ∈ table ↔ e ∈ more := fun e => by simpa using (h.mem_iff (some e)).symm.trans (h'.mem_iff _)
  refine Perm.eq_of_pairwise ?_ hsorted hsorted' ((perm_ext_iff_of_nodup h.nodup.of_map h'.nodup.of_map).mpr hmem)
  intro a b ha hb hab hba
  exact inj_on_of_nodup_map h.nodup ha ((hmem b).mpr hb) (le_antisymm hab hba)

/-- **The table of an area is the one in the order of its keys that tabulates the handles.** -/
theorem mapArea_eq_ok_iff (hsame : Consistent catalog area handles) : mapArea catalog area handles = .ok table
    ↔ Tabulates catalog area handles table ∧ table.Pairwise fun a b => a.1 ≤ b.1 := by
  have hsorted : ∀ t : List (String × String),
      (t.mergeSort fun a b => decide (a.1 ≤ b.1)).Pairwise fun a b => a.1 ≤ b.1 := by
    intro t
    have := @pairwise_mergeSort _ (fun a b : String × String => decide (a.1 ≤ b.1))
      (fun a b c hab hbc => by simp only [decide_eq_true_eq] at *; exact hab.trans hbc)
      (fun a b => by simpa using le_total a.1 b.1) t
    simpa only [decide_eq_true_eq] using this
  show (handles.foldlM (addHandle catalog area) []).map (mergeSort · fun a b => decide (a.1 ≤ b.1)) = _ ↔ _
  rcases tabulates_foldlM hsame with ⟨t, ht, htab⟩ | ⟨hnone, e, he⟩
  · have hsort := htab.perm (.refl _) (mergeSort_perm t fun a b => decide (a.1 ≤ b.1))
    rw [ht]
    constructor
    · rintro ⟨⟩
      exact ⟨hsort, hsorted t⟩
    · rintro ⟨htable, hpair⟩
      exact congrArg Except.ok (hsort.eq htable (hsorted t) hpair)
  · rw [he]
    refine iff_of_false (by rintro ⟨⟩) fun h => ?_
    simpa using (h.1.mem_iff none).mp hnone

end

theorem lowercase_eq_toLower {handle : String} (h : ∀ c ∈ handle.toList, c.toNat < 128) :
    Text.lowercase handle = handle.toLower := by
  have hfrom : ∀ cs before : List Char, (∀ c ∈ cs, c.toNat < 128) →
    Text.lowercaseFrom before cs = cs.map Char.toLower := by
    intro cs
    induction cs with
    | nil => exact fun _ _ => rfl
    | cons c cs ih =>
      intro before hcs
      rw [forall_mem_cons] at hcs
      have hsigma : (c == '\u03a3') = false := beq_eq_false_iff_ne.mpr fun hc => absurd hcs.1 (by rw [hc]; decide)
      simp [Text.lowercaseFrom, Text.lowercaseChar, hsigma, hcs.1, ih _ hcs.2]
  rw [← String.toList_inj, Text.lowercase, String.toList_ofList, hfrom _ _ h]
  exact String.toList_map.symm

theorem consistent_of_sameFront {handles : List String} (hascii : ∀ h ∈ handles, ∀ c ∈ h.toList, c.toNat < 128)
    (hfront : ∀ h ∈ handles, ∀ h' ∈ handles, h.toLower = h'.toLower → SameFront area h h') (catalog : Catalog) :
    Consistent catalog area handles := by
  intro h hh h' hh' hkey
  have hcase : h.toLower = h'.toLower := by
    rwa [lowercase_eq_toLower (hascii h hh), lowercase_eq_toLower (hascii h' hh')] at hkey
  have hsame := congrArg Except.toOption (mapHandle_small hcase (hfront h hh h' hh' hcase) catalog)
  have hforget : ∀ x : Except PatternError HandleMapping, (x.mapError PatternError.small).toOption = x.toOption := by
    rintro (_ | _) <;> rfl
  rw [hforget, hforget] at hsame
  rw [row?, row?, hsame, hkey]

/-- **The case of a handle makes no difference but in the front part of the area.** Handles that differ in case only
stand for the same names if both or neither begin with it. A table of ASCII handles in which all spellings of a handle
agree in that does not depend on their order, and its keys are the handles in lower case. -/
theorem mapHandle_ignores_case (area : String) :
    (∀ h₁ h₂ : String, h₁.toLower = h₂.toLower → SameFront area h₁ h₂ → ∀ catalog,
      (mapHandle catalog h₁ area).mapError PatternError.small = (mapHandle catalog h₂ area).mapError PatternError.small)
    ∧ ∀ hs₁ hs₂ : List String, hs₁ ~ hs₂ → (∀ h ∈ hs₁, ∀ c ∈ h.toList, c.toNat < 128) →
      (∀ h ∈ hs₁, ∀ h' ∈ hs₁, h.toLower = h'.toLower → SameFront area h h') →
      ∀ catalog table, (mapArea catalog area hs₁ = .ok table ↔ mapArea catalog area hs₂ = .ok table)
        ∧ (mapArea catalog area hs₁ = .ok table → ∀ key, key ∈ table.map Prod.fst ↔ ∃ h ∈ hs₁, h.toLower = key) := by
  refine ⟨fun h₁ h₂ hcase hfront => mapHandle_small hcase hfront, ?_⟩
  intro hs₁ hs₂ hperm hascii hfront catalog table
  have hsame₁ := consistent_of_sameFront hascii hfront catalog
  have hsame₂ : Consistent catalog area hs₂ := fun a ha b hb => hsame₁ a (hperm.mem_iff.mpr ha) b (hperm.mem_iff.mpr hb)
  rw [mapArea_eq_ok_iff hsame₁, mapArea_eq_ok_iff hsame₂]
  constructor
  · exact and_congr_left fun _ => ⟨fun h => h.perm hperm.symm (.refl _), fun h => h.perm hperm (.refl _)⟩
  · rintro ⟨htab, -⟩ key
    constructor
    · intro hkey
      obtain ⟨e, he, rfl⟩ := mem_map.mp hkey
      obtain ⟨h, hh, he⟩ := htab.exists_handle he
      exact ⟨h, hh, by rw [fst_of_row? he, lowercase_eq_toLower (hascii h hh)]⟩
    · rintro ⟨h, hh, rfl⟩
      obtain ⟨e, hmem, he⟩ := mem_map.mp ((htab.mem_iff _).mp (mem_map_of_mem hh))
      rw [← lowercase_eq_toLower (hascii h hh), ← fst_of_row? he.symm]
      exact mem_map_of_mem hmem

/-- Behind the front part, case makes no difference. -/
theorem mapHandle_ignores_case_behind : "enterprise_A".toLower = "enterprise_a".toLower
    ∧ (∀ catalog, (mapHandle catalog "enterprise_A" "frontend").mapError PatternError.small
      = (mapHandle catalog "enterprise_a" "frontend").mapError PatternError.small)
    ∧ mapArea (.ofNames ["magento_a"]) "frontend" ["enterprise_A", "enterprise_a"] = .ok [("enterprise_a", "magento_a")]
    ∧ mapArea (.ofNames ["magento_a"]) "frontend" ["enterprise_a", "enterprise_A"]
      = .ok [("enterprise_a", "magento_a")] := by
  obtain ⟨hhandle, htab⟩ := mapHandle_ignores_case "frontend"
  have hcase : "enterprise_A".toLower = "enterprise_a".toLower := toLower_eq_iff.mpr (by decide +kernel)
  have hfront : ∀ h ∈ ["enterprise_A", "enterprise_a"], (areaFront "frontend").toList <+: h.toList := by decide +kernel
  have harea : mapArea (.ofNames ["magento_a"]) "frontend" ["enterprise_A", "enterprise_a"]
      = .ok [("enterprise_a", "magento_a")] := by decide +kernel
  refine ⟨hcase, hhandle _ _ hcase ?_, harea, (htab _ _ (.swap ..) (by decide +kernel) ?_ _ _).1.mp harea⟩
  · exact iff_of_true (hfront _ (by simp)) (hfront _ (by simp))
  · exact fun h hh h' hh' _ => iff_of_true (hfront h hh) (hfront h' hh')

/-- The front part is looked for as it is written, and the first of two spellings decides. -/
theorem mapHandle_heeds_front : "Enterprise_a".toLower = "enterprise_a".toLower
    ∧ mapHandle (.ofNames ["magento_a"]) "Enterprise_a" "frontend" = .ok .obsolete
    ∧ mapHandle (.ofNames ["magento_a"]) "enterprise_a" "frontend" = .ok (.found "magento_a")
    ∧ mapArea (.ofNames ["magento_a"]) "frontend" ["Enterprise_a", "enterprise_a"] = .ok [("enterprise_a", "obsolete")]
    ∧ mapArea (.ofNames ["magento_a"]) "frontend" ["enterprise_a", "Enterprise_a"]
      = .ok [("enterprise_a", "magento_a")] := by
  decide +kernel

end MageUplift.Layout
