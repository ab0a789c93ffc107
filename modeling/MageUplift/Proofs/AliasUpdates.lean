import MageUplift.Proofs.QualifiedNames

/-!
# Updates of alias tables

An addition to an alias table changes what the table answers for the aliases that it is about, and for no others. Keys are
normalised when they are added and aliases when they are resolved, so that white space around either and ASCII case do not
count. A class alias decides the model with its key. A module decides every alias that belongs to it, by the naming
convention, unless the alias has a class of its own.
-/

namespace MageUplift

open Php List Option String

variable {u : Addition}

namespace Magento

variable {t t' : AliasTable} {kind : AliasKind} {b key target ns : String}

/-! ## §1. The parts of an alias. -/

/-- The module that a normalised alias belongs to: what stands before the first slash. A helper may be named by its module
alone. -/
def modulePart? (kind : AliasKind) (key : List Char) : Option (List Char) :=
  if '/' ∈ key then some (key.takeWhile (· != '/')) else if kind = .helper then some key else none

/-- What stands behind the first slash of a normalised alias; the data helper where there is none. -/
def pathPart (key : List Char) : List Char :=
  if '/' ∈ key then (key.dropWhile (· != '/')).tail else "data".toList

theorem splitOnce?_eq (sep : Char) (cs : List Char) : Text.splitOnce? sep cs
    = if sep ∈ cs then some (cs.takeWhile (· != sep), (cs.dropWhile (· != sep)).tail) else none := by
  induction cs with
  | nil => rfl
  | cons c cs ih =>
    rw [Text.splitOnce?]
    by_cases hc : c = sep
    · simp [hc]
    · by_cases hmem : sep ∈ cs <;> simp [hc, Ne.symm hc, ih, hmem]

theorem aliasParts?_eq (kind : AliasKind) (key : List Char) :
    AliasTable.aliasParts? kind key = (modulePart? kind key).map fun module => (module, pathPart key) := by
  unfold AliasTable.aliasParts? modulePart? pathPart
  rw [splitOnce?_eq]
  by_cases hslash : '/' ∈ key
  · simp [hslash]
  · cases kind <;> simp [hslash]

theorem mem_of_modulePart? {cs module : List Char} {c : Char} (h : modulePart? kind cs = some module) (hc : c ∈ module) :
    c ∈ cs := by
  unfold modulePart? at h
  split at h
  · cases h
    exact (takeWhile_sublist _).subset hc
  · split at h
    · cases h
      exact hc
    · cases h

theorem toLower_toLower (c : Char) : c.toLower.toLower = c.toLower := by
  unfold Char.toLower
  grind [Char.le_def]

theorem toLower_modulePart? {module : List Char} (h : modulePart? kind (aliasKey b).toList = some module) :
    (ofList module).toLower = ofList module := by
  have hmodule : module.map Char.toLower = module.map id := by
    refine map_congr_left fun c hc => ?_
    have hmem := mem_of_modulePart? h hc
    rw [aliasKey, toList_toLower] at hmem
    obtain ⟨d, -, rfl⟩ := List.mem_map.mp hmem
    exact toLower_toLower d
  rw [← toList_inj, toList_toLower, toList_ofList, hmodule, List.map_id]

/-! ## §2. The naming convention. -/

/-- A path that the naming convention has a class for: letters and digits with underscores between them, and no digit in
front. -/
structure IsClassPath (path : List Char) : Prop where
  parts : ∀ part ∈ Text.split '_' path, part ≠ [] ∧ ∀ c ∈ part, c.isAlphanum = true
  front : nextIs Char.isDigit path = false

def capitalised : List Char → List Char
  | [] => []
  | c :: cs => c.toUpper :: cs

/-- The class of a path in the namespace of its module. -/
def conventionName (ns : String) (kind : AliasKind) (path : List Char) : String :=
  "\\" ++ ns ++ "\\" ++ kind.layer ++ "\\"
    ++ ofList (Text.joinWith ['\\'] ((Text.split '_' path).map capitalised))

/-- **What the naming convention answers under a namespace**: a class, or nothing when the path is malformed. -/
inductive ConventionAnswer (ns : String) (kind : AliasKind) (path : List Char) : Option String → Prop where
  | named (wellFormed : IsClassPath path) : ConventionAnswer ns kind path (some (conventionName ns kind path))
  | malformed (malformed : ¬ IsClassPath path) : ConventionAnswer ns kind path none

theorem isDigit_toUpper (c : Char) : c.toUpper.isDigit = c.isDigit := by
  unfold Char.toUpper
  grind [Char.isDigit, Char.le_def]

theorem head?_joinWith_capitalised {path : List Char} (h : ∀ part ∈ Text.split '_' path, part ≠ []) :
    (Text.joinWith ['\\'] ((Text.split '_' path).map capitalised)).head?.any Char.isDigit = nextIs Char.isDigit path := by
  cases path with
  | nil => rfl
  | cons c cs =>
    by_cases hc : c = '_'
    · subst hc
      exact absurd rfl (h [] (by simp [Text.split]))
    · cases hsplit : Text.split '_' cs with
      | nil => exact absurd hsplit (Text.split_ne_nil '_' cs)
      | cons piece pieces =>
        have hsplit' : Text.split '_' (c :: cs) = (c :: piece) :: pieces := by simp [Text.split, hc, hsplit]
        rw [hsplit', map_cons, capitalised, Text.joinWith]
        cases pieces <;> simp [List.intercalate, nextIs, isDigit_toUpper]

/-- **The naming convention** has a class for exactly the paths that are well formed. -/
theorem conventionAnswer_conventionPath? (ns : String) (kind : AliasKind) (path : List Char) :
    ConventionAnswer ns kind path ((AliasTable.conventionPath? path).map fun p =>
      "\\" ++ ns ++ "\\" ++ kind.layer ++ "\\" ++ ofList p) := by
  have hpath : AliasTable.conventionPath? path
      = if (Text.split '_' path).all fun part => !part.isEmpty && part.all Char.isAlphanum then
          if (Text.joinWith ['\\'] ((Text.split '_' path).map capitalised)).head?.any Char.isDigit then none
          else some (Text.joinWith ['\\'] ((Text.split '_' path).map capitalised))
        else none := rfl
  rw [hpath]
  split
  · rename_i hparts
    have hparts : ∀ part ∈ Text.split '_' path, part ≠ [] ∧ ∀ c ∈ part, c.isAlphanum := by
      simpa using hparts
    rw [head?_joinWith_capitalised fun part hpart => (hparts part hpart).1]
    split
    · rename_i hdigit
      exact .malformed fun hpath => by rw [hpath.front] at hdigit; cases hdigit
    · rename_i hdigit
      exact .named ⟨hparts, Bool.eq_false_iff.mpr hdigit⟩
  · rename_i hparts
    exact .malformed fun hpath => hparts (by simpa using hpath.parts)

theorem convention_key (t : AliasTable) (kind : AliasKind) (b : String) : t.byConvention? kind (aliasKey b)
    = (modulePart? kind (aliasKey b).toList).bind fun module => (t.modules.lookup (ofList module)).bind fun ns =>
      (AliasTable.conventionPath? (pathPart (aliasKey b).toList)).map fun p =>
        "\\" ++ ns ++ "\\" ++ kind.layer ++ "\\" ++ ofList p := by
  unfold AliasTable.byConvention?
  rw [aliasParts?_eq]
  cases hmodule : modulePart? kind (aliasKey b).toList with
  | none => rfl
  | some module =>
    simp only [map_some, bind_eq_bind, bind_some, AliasTable.moduleNamespace?,
      toLower_modulePart? hmodule]
    refine congrArg _ (funext fun ns => ?_)
    rw [map_eq_bind]
    rfl

/-! ## §3. One addition. -/

theorem AliasTable.eq_of_addClass (h : t.addClass key target = .ok t') :
    t' = { t with classes := (aliasKey key, target) :: t.classes } := by
  unfold AliasTable.addClass at h
  split at h
  · exact (Except.ok.inj h).symm
  · cases h

theorem AliasTable.eq_of_addModule (h : t.addModule key ns = .ok t') :
    t' = { t with modules := (aliasKey key, ns) :: t.modules } := by
  unfold AliasTable.addModule at h
  split at h
  · exact (Except.ok.inj h).symm
  · cases h

/-- **A class alias** decides the model with its key, and nothing else. -/
theorem addClass_resolve? (h : t.addClass key target = .ok t') (kind : AliasKind) (b : String) :
    t'.resolve? kind b = if kind = .model ∧ aliasKey b = aliasKey key then some target else t.resolve? kind b := by
  rw [AliasTable.eq_of_addClass h]
  cases kind with
  | model =>
    by_cases hb : aliasKey b = aliasKey key
    · simp [AliasTable.resolve?, AliasTable.named?, hb]
    · have hlookup : ((aliasKey key, target) :: t.classes).lookup (aliasKey b) = t.classes.lookup (aliasKey b) := by
        rw [lookup_cons, beq_eq_false_iff_ne.mpr hb]
      rw [if_neg fun h => hb h.2]
      unfold AliasTable.resolve? AliasTable.named?
      dsimp only
      rw [hlookup]
      rfl
  | resourceModel => rw [if_neg (by simp)]; rfl
  | helper => rw [if_neg (by simp)]; rfl

/-- The alias belongs to a module, and no class is named outright for it. -/
structure AliasTable.Decides (t : AliasTable) (key : String) (kind : AliasKind) (b : String) : Prop where
  module : modulePart? kind (aliasKey b).toList = some (aliasKey key).toList
  unnamed : t.named? kind (aliasKey b) = none

/-- **A module** decides the aliases that belong to it, by the naming convention under its namespace. -/
theorem addModule_resolve?_of_decides (h : t.addModule key ns = .ok t') (hb : t.Decides key kind b) :
    ConventionAnswer ns kind (pathPart (aliasKey b).toList) (t'.resolve? kind b) := by
  rw [AliasTable.eq_of_addModule h]
  unfold AliasTable.resolve?
  dsimp only
  rw [show AliasTable.named? { t with modules := (aliasKey key, ns) :: t.modules } kind (aliasKey b)
    = none from hb.unnamed,
    orElse_none, convention_key, hb.module, bind_some, ofList_toList, lookup_cons_self,
    bind_some]
  exact conventionAnswer_conventionPath? ns kind _

theorem addModule_resolve?_of_not_decides (h : t.addModule key ns = .ok t') (hb : ¬ t.Decides key kind b) :
    t'.resolve? kind b = t.resolve? kind b := by
  rw [AliasTable.eq_of_addModule h]
  unfold AliasTable.resolve?
  dsimp only
  rw [show AliasTable.named? { t with modules := (aliasKey key, ns) :: t.modules } kind (aliasKey b)
    = t.named? kind (aliasKey b) from rfl]
  cases hnamed : t.named? kind (aliasKey b) with
  | some cls => rfl
  | none =>
    rw [orElse_none, orElse_none, convention_key, convention_key]
    cases hmodule : modulePart? kind (aliasKey b).toList with
    | none => rfl
    | some module =>
      -- another module: the new entry is passed over
      have hne : (ofList module == aliasKey key) = false := by
        rw [beq_eq_false_iff_ne]
        rintro heq
        exact hb ⟨by rw [hmodule, ← heq, toList_ofList], hnamed⟩
      rw [bind_some, bind_some, lookup_cons, hne]

/-! ## §4. Two additions. -/

inductive Addition where
  | cls (key target : String)
  | module (key ns : String)

def Addition.entryKey : Addition → String
  | .cls key _ => aliasKey key
  | .module key _ => aliasKey key

def AliasTable.add (t : AliasTable) : Addition → Except AliasError AliasTable
  | .cls key target => t.addClass key target
  | .module key ns => t.addModule key ns

def Addition.extend (t : AliasTable) : Addition → AliasTable
  | .cls key target => { t with classes := (aliasKey key, target) :: t.classes }
  | .module key ns => { t with modules := (aliasKey key, ns) :: t.modules }

theorem AliasTable.eq_of_add (h : t.add u = .ok t') : t' = u.extend t := by
  cases u with
  | cls key target => exact AliasTable.eq_of_addClass h
  | module key ns => exact AliasTable.eq_of_addModule h

/-- **Tables with the same entries**, in whatever order they were added. -/
structure AliasTable.SameEntries (t t' : AliasTable) : Prop where
  classes : ∀ key, t.classes.lookup key = t'.classes.lookup key
  modules : ∀ key, t.modules.lookup key = t'.modules.lookup key

theorem AliasTable.SameEntries.resolve? (h : t.SameEntries t') (kind : AliasKind) (b : String) :
    t.resolve? kind b = t'.resolve? kind b := by
  have hnamed : t.named? kind (aliasKey b) = t'.named? kind (aliasKey b) := by
    cases kind with
    | model => exact h.classes _
    | resourceModel => rfl
    | helper => rfl
  unfold AliasTable.resolve?
  dsimp only
  rw [hnamed, convention_key, convention_key]
  simp only [h.modules]

theorem lookup_cons_comm {k k' : String} (hne : k ≠ k') (v v' : String) (table : List (String × String)) (key : String) :
    ((k', v') :: (k, v) :: table).lookup key = ((k, v) :: (k', v') :: table).lookup key := by
  by_cases hk : key = k
  · subst hk
    rw [lookup_cons, beq_eq_false_iff_ne.mpr hne, lookup_cons_self, lookup_cons_self]
  · rw [lookup_cons, lookup_cons, lookup_cons, lookup_cons, beq_eq_false_iff_ne.mpr hk]

theorem AliasTable.add_ok_of_ok (h : t.add u = .ok t') (s : AliasTable) : ∃ s', s.add u = .ok s' := by
  cases u with
  | cls key target => exact (s.addClass_ok_iff key target).mpr ((t.addClass_ok_iff key target).mp ⟨t', h⟩)
  | module key ns => exact (s.addModule_ok_iff key ns).mpr ((t.addModule_ok_iff key ns).mp ⟨t', h⟩)

theorem add_comm {v : Addition} {tu tv : AliasTable} (hu : t.add u = .ok tu) (hv : t.add v = .ok tv)
    (hne : u.entryKey ≠ v.entryKey) : ∃ tuv tvu, tu.add v = .ok tuv ∧ tv.add u = .ok tvu ∧ tuv.SameEntries tvu := by
  obtain ⟨tuv, huv⟩ := AliasTable.add_ok_of_ok hv tu
  obtain ⟨tvu, hvu⟩ := AliasTable.add_ok_of_ok hu tv
  refine ⟨tuv, tvu, huv, hvu, ?_⟩
  rw [AliasTable.eq_of_add huv, AliasTable.eq_of_add hvu, AliasTable.eq_of_add hu, AliasTable.eq_of_add hv]
  -- additions of two kinds go to different lists, so only those of one kind meet
  cases u with
  | cls key target =>
    cases v with
    | cls key' target' =>
      dsimp only [Addition.entryKey] at hne
      dsimp only [Addition.extend]
      exact ⟨lookup_cons_comm hne target target' t.classes, fun _ => rfl⟩
    | module key' ns => exact ⟨fun _ => rfl, fun _ => rfl⟩
  | module key ns =>
    cases v with
    | cls key' target => exact ⟨fun _ => rfl, fun _ => rfl⟩
    | module key' ns' =>
      dsimp only [Addition.entryKey] at hne
      dsimp only [Addition.extend]
      exact ⟨fun _ => rfl, lookup_cons_comm hne ns ns' t.modules⟩

/-- **Updates are exact.** For every table, a class alias that is added decides the models with its key and leaves every
other answer. A module that is added decides the aliases that belong to it and have no class of their own: there the
answer is the class of the naming convention under its namespace, or none when the path is malformed; every other answer
stays. Two additions whose keys differ give tables with the same entries in either order, and so the same answers. -/
theorem updates_exact (t : AliasTable) :
    (∀ key target t', t.addClass key target = .ok t' → ∀ kind b,
      t'.resolve? kind b = if kind = .model ∧ aliasKey b = aliasKey key then some target else t.resolve? kind b)
    ∧ (∀ key ns t', t.addModule key ns = .ok t' → ∀ kind b,
      (t.Decides key kind b → ConventionAnswer ns kind (pathPart (aliasKey b).toList) (t'.resolve? kind b))
      ∧ (¬ t.Decides key kind b → t'.resolve? kind b = t.resolve? kind b))
    ∧ ∀ u v tu tv, t.add u = .ok tu → t.add v = .ok tv → u.entryKey ≠ v.entryKey →
      ∃ tuv tvu, tu.add v = .ok tuv ∧ tv.add u = .ok tvu ∧ tuv.SameEntries tvu
        ∧ ∀ kind b, tuv.resolve? kind b = tvu.resolve? kind b := by
  refine ⟨fun key target t' h => addClass_resolve? h, fun key ns t' h kind b => ⟨?_, ?_⟩, ?_⟩
  · exact addModule_resolve?_of_decides h
  · exact addModule_resolve?_of_not_decides h
  · intro u v tu tv hu hv hne
    obtain ⟨tuv, tvu, huv, hvu, hsame⟩ := add_comm hu hv hne
    exact ⟨tuv, tvu, huv, hvu, hsame, hsame.resolve?⟩

/-- A module and a class of another one are added: the module decides its data helper, the class its model, and the two
additions commute. -/
theorem updates_exact_builtin :
    ∃ shop product, AliasTable.builtin.addModule " Shop" "Acme\\Shop" = .ok shop
      ∧ AliasTable.builtin.addClass "CATALOG/product " "\\Acme\\Product" = .ok product
      ∧ ConventionAnswer "Acme\\Shop" .helper "data".toList (shop.resolve? .helper "SHOP")
      ∧ product.resolve? .model "catalog/Product" = some "\\Acme\\Product"
      ∧ ∃ a b, shop.addClass "CATALOG/product " "\\Acme\\Product" = .ok a
        ∧ product.addModule " Shop" "Acme\\Shop" = .ok b ∧ a.SameEntries b := by
  obtain ⟨hcls, hmodule, hcomm⟩ := updates_exact AliasTable.builtin
  obtain ⟨shop, hshop⟩ := (AliasTable.builtin.addModule_ok_iff " Shop" "Acme\\Shop").mpr (by decide +kernel)
  obtain ⟨product, hproduct⟩ :=
    (AliasTable.builtin.addClass_ok_iff "CATALOG/product " "\\Acme\\Product").mpr (by decide +kernel)
  have hpath : pathPart (aliasKey "SHOP").toList = "data".toList := by decide +kernel
  have hkey : aliasKey "catalog/Product" = aliasKey "CATALOG/product " := String.toList_inj.mp (by decide +kernel)
  have hdata := (hmodule " Shop" "Acme\\Shop" shop hshop .helper "SHOP").1 ⟨by decide +kernel, by decide +kernel⟩
  rw [hpath] at hdata
  have hmodel := hcls "CATALOG/product " "\\Acme\\Product" product hproduct .model "catalog/Product"
  rw [if_pos ⟨rfl, hkey⟩] at hmodel
  obtain ⟨a, b, ha, hb, hsame, -⟩ := hcomm (.module " Shop" "Acme\\Shop") (.cls "CATALOG/product " "\\Acme\\Product")
    shop product hshop hproduct (by decide +kernel)
  exact ⟨shop, product, hshop, hproduct, hdata, hmodel, a, b, ha, hb, hsame⟩

end Magento

end MageUplift
