import MageUplift.Files.Tree

/-!
# Files by their places

A path is followed part by part, so two paths may lead to one file. The place of a file is the list of names that
lead to it from the root of the tree. Writing to a file that is there changes what stands at its place and nothing
else; in particular every path leads where it led before.
-/

namespace MageUplift.Files

open List

variable {w : World} {path name : String} {place p names : List String} {found : Survey} {data : FileData}

theorem bind_eq_ok_iff {ε α β : Type} {x : Except ε α} {f : α → Except ε β} {b : β} :
    x.bind f = .ok b ↔ ∃ a, x = .ok a ∧ f a = .ok b := by
  cases x with
  | error e => exact iff_of_false nofun nofun
  | ok a => simp [Except.bind]

/-! ## §1. What stands at a place. -/

namespace Node

variable {α : Type} {root : Node α}

def isFolder : Node α → Bool
  | .file _ => false
  | .folder _ => true

def dataAt? (root : Node α) (place : List String) : Option α :=
  match root.get? place with
  | some (.file data) => some data
  | _ => none

/-- Whether there is a folder at a place, or a file, or nothing. -/
def kindAt? (root : Node α) (place : List String) : Option Bool := (root.get? place).map isFolder

theorem get?_nil (root : Node α) : root.get? [] = some root := by
  cases root <;> rfl

theorem get?_folder (es : List (String × Node α)) (name : String) (path : List String) :
    (folder es).get? (name :: path) = (es.lookup name).bind fun node => node.get? path := rfl

theorem get?_append (p q : List String) : ∀ root : Node α, root.get? (p ++ q)
    = (root.get? p).bind fun node => node.get? q := by
  induction p with
  | nil =>
    intro root
    rw [get?_nil]
    rfl
  | cons name p ih =>
    intro root
    cases root with
    | file data => rfl
    | folder es =>
      rw [cons_append, get?_folder, get?_folder]
      cases es.lookup name with
      | none => rfl
      | some node => exact ih node

theorem get?_child {es : List (String × Node α)}
    (h : root.get? place = some (.folder es)) (name : String) : root.get? (place ++ [name]) = es.lookup name := by
  rw [get?_append, h]
  show (es.lookup name).bind _ = _
  cases es.lookup name with
  | none => rfl
  | some node => exact get?_nil node

theorem get?_dropLast {es : List (String × Node α)}
    (h : root.get? place = some (.folder es)) : ∃ es', root.get? place.dropLast = some (.folder es') := by
  rcases eq_nil_or_concat place with rfl | ⟨front, name, rfl⟩
  · exact ⟨es, h⟩
  · rw [concat_eq_append] at h ⊢
    rw [get?_append] at h
    obtain ⟨node, hnode, hchild⟩ := Option.bind_eq_some_iff.mp h
    rw [dropLast_concat]
    cases node with
    | file data => cases hchild
    | folder es' => exact ⟨es', hnode⟩

theorem dataAt?_iff {data : α} : root.dataAt? place = some data ↔ root.get? place = some (.file data) := by
  unfold dataAt?
  split
  · rename_i d hd
    rw [hd, Option.some.injEq, Option.some.injEq, Node.file.injEq]
  · rename_i hnot
    constructor
    · intro h
      cases h
    · intro h
      exact absurd h (hnot data)

/-! ## §2. The frame of a write. -/

theorem lookup_insertEntry (name : String) (node : Node α) (es : List (String × Node α)) (x : String) :
    (insertEntry name node es).lookup x = if x = name then some node else es.lookup x := by
  induction es with
  | nil =>
    show ([(name, node)] : List (String × Node α)).lookup x = _
    rw [lookup_cons]
    by_cases hx : x = name
    · simp [hx]
    · simp [hx, beq_eq_false_iff_ne.mpr hx]
  | cons entry es ih =>
    obtain ⟨k, n⟩ := entry
    by_cases hx : x = name
    · rw [if_pos hx] at ih ⊢
      rw [insertEntry]
      split
      · simp [hx]
      · rename_i hk
        rw [beq_iff_eq] at hk
        split
        · simp [hx]
        · rw [lookup_cons, ih, hx, beq_eq_false_iff_ne.mpr hk]
    · rw [if_neg hx] at ih ⊢
      rw [insertEntry]
      split
      · rename_i hk
        rw [beq_iff_eq] at hk
        rw [lookup_cons, lookup_cons, ← hk, beq_eq_false_iff_ne.mpr hx]
      · split
        · rw [lookup_cons, beq_eq_false_iff_ne.mpr hx]
        · rw [lookup_cons, ih, lookup_cons]

theorem put_cons (target : Node α) (name : String) (path : List String) (node : Node α) :
    target.put (name :: path) node
      = .folder (insertEntry name (((target.entries.lookup name).getD (.folder [])).put path node) target.entries) := rfl

theorem get?_put {d : α} (d' : α) : ∀ {root : Node α}, root.get? p = some (.file d) → ∀ q,
    (root.put p (.file d')).get? q = some (.file d') ∧ q = p ∨ q ≠ p ∧ ((root.put p (.file d')).get? q = root.get? q
        ∨ ∃ es es', (root.put p (.file d')).get? q = some (.folder es) ∧ root.get? q = some (.folder es')) := by
  induction p with
  | nil =>
    intro root h q
    rw [get?_nil] at h
    cases h
    cases q with
    | nil => exact .inl ⟨rfl, rfl⟩
    | cons x q => exact .inr ⟨cons_ne_nil x q, .inl rfl⟩
  | cons name p ih =>
    intro root h q
    cases root with
    | file data => cases h
    | folder es =>
      rw [get?_folder] at h
      obtain ⟨child, hchild, hfile⟩ := Option.bind_eq_some_iff.mp h
      rw [put_cons]
      show _ ∨ _
      rw [show (folder es).entries = es from rfl, hchild, Option.getD_some]
      cases q with
      | nil => exact .inr ⟨(cons_ne_nil name p).symm, .inr ⟨_, _, rfl, rfl⟩⟩
      | cons x q =>
        rw [get?_folder, lookup_insertEntry, get?_folder]
        by_cases hx : x = name
        · rw [if_pos hx, hx, hchild]
          show (child.put p (.file d')).get? q = _ ∧ _ ∨ _ ∧ ((child.put p (.file d')).get? q = child.get? q ∨ _)
          rcases ih hfile q with ⟨hget, rfl⟩ | ⟨hne, hget⟩
          · exact .inl ⟨hget, rfl⟩
          · exact .inr ⟨fun heq => hne (cons.inj heq).2, hget⟩
        · rw [if_neg hx]
          exact .inr ⟨fun heq => hx (cons.inj heq).1, .inl rfl⟩

theorem dataAt?_put {d : α} (h : root.get? p = some (.file d)) (d' : α)
    (q : List String) : (root.put p (.file d')).dataAt? q = if q = p then some d' else root.dataAt? q := by
  rcases get?_put d' h q with ⟨hget, rfl⟩ | ⟨hne, hget | ⟨es, es', hget, hget'⟩⟩
  · rw [if_pos rfl, dataAt?, hget]
  · rw [if_neg hne, dataAt?, dataAt?, hget]
  · rw [if_neg hne, dataAt?, dataAt?, hget, hget']

theorem kindAt?_put {d : α} (h : root.get? p = some (.file d)) (d' : α)
    (q : List String) : (root.put p (.file d')).kindAt? q = root.kindAt? q := by
  rcases get?_put d' h q with ⟨hget, rfl⟩ | ⟨-, hget | ⟨es, es', hget, hget'⟩⟩
  · rw [kindAt?, kindAt?, hget, h]
    rfl
  · rw [kindAt?, kindAt?, hget]
  · rw [kindAt?, kindAt?, hget, hget']
    rfl

/-! ## §3. Following a path. -/

theorem follow_cons (root : Node α) (place : List String) (part : String) (parts : List String) :
    root.follow place (part :: parts)
      = match root.kindAt? place with
        | none => .error .notFound
        | some false => .error .notAFolder
        | some true =>
          if part == "" || part == "." then root.follow place parts
          else if part == ".." then root.follow place.dropLast parts
          else if nameLimit < part.utf8ByteSize then .error .nameTooLong
          else if (root.kindAt? (place ++ [part])).isSome then root.follow (place ++ [part]) parts
          else .error .notFound := by
  rw [follow, kindAt?]
  cases hget : root.get? place with
  | none => rfl
  | some node =>
    cases node with
    | file data => rfl
    | folder es =>
      rw [kindAt?, get?_child hget, Option.isSome_map]
      rfl

/-- Trees with the same files and folders, whatever the files hold. -/
def SameShape (a b : Node α) : Prop := ∀ place, a.kindAt? place = b.kindAt? place

theorem SameShape.follow {a b : Node α} (h : SameShape a b) (parts : List String) :
    ∀ place, a.follow place parts = b.follow place parts := by
  induction parts with
  | nil =>
    intro place
    rfl
  | cons part parts ih =>
    intro place
    rw [follow_cons, follow_cons, h place, h (place ++ [part])]
    simp only [ih]

theorem follow_append (root : Node α) (ps qs : List String) : ∀ place,
    root.follow place (ps ++ qs) = (root.follow place ps).bind fun p => root.follow p qs := by
  induction ps with
  | nil =>
    intro place
    rfl
  | cons part ps ih =>
    intro place
    rw [cons_append, follow_cons, follow_cons]
    split
    · rfl
    · rfl
    · split
      · exact ih place
      · split
        · exact ih _
        · split
          · rfl
          · split
            · exact ih _
            · rfl

/-- A name that an entry of a folder can have. -/
def isEntryName (name : String) : Bool := name != "" && name != "." && name != ".." && !name.toList.contains '/'

theorem follow_names (hnames : ∀ name ∈ names, isEntryName name) :
    ∀ {place p : List String}, root.follow place names = .ok p → p = place ++ names := by
  induction names with
  | nil =>
    intro place p h
    cases h
    rw [append_nil]
  | cons name names ih =>
    intro place p h
    have hname := hnames name mem_cons_self
    simp only [isEntryName, Bool.and_eq_true, bne_iff_ne, ne_eq] at hname
    obtain ⟨⟨⟨hempty, hdot⟩, hup⟩, -⟩ := hname
    rw [follow_cons] at h
    simp only [beq_iff_eq, Bool.or_eq_true, hempty, hdot, hup, or_self, if_false] at h
    split at h
    · cases h
    · cases h
    · split at h
      · cases h
      · split at h
        · have hp := ih (forall_mem_cons.mp hnames).2 h
          rw [hp, append_assoc]
          rfl
        · cases h

theorem follow_last {q : List String} {last : String} {data : α}
    (h : root.follow q [last] = .ok p) (hfile : root.get? p = some (.file data)) :
    (last == "" || last == "." || last == "..") = false ∧ ¬ nameLimit < last.utf8ByteSize ∧ p = q ++ [last]
      ∧ ∃ es, root.get? q = some (.folder es) ∧ es.lookup last = some (.file data) := by
  rw [follow] at h
  cases hget : root.get? q with
  | none =>
    rw [hget] at h
    cases h
  | some node =>
    cases node with
    | file d =>
      rw [hget] at h
      cases h
    | folder es =>
      rw [hget] at h
      dsimp only at h
      split at h
      · -- the folder itself is no file
        cases h
        rw [hget] at hfile
        cases hfile
      · rename_i hdot
        split at h
        · cases h
          obtain ⟨es', habove⟩ := get?_dropLast hget
          rw [habove] at hfile
          cases hfile
        · rename_i hup
          split at h
          · cases h
          · rename_i hlimit
            split at h
            · cases h
              rw [get?_child hget] at hfile
              refine ⟨?_, hlimit, rfl, es, rfl, hfile⟩
              rw [Bool.or_eq_false_iff]
              exact ⟨Bool.eq_false_iff.mpr hdot, Bool.eq_false_iff.mpr hup⟩
            · cases h

end Node

/-! ## §4. The parts of a path. -/

theorem pathParts_ne_nil (path : String) : pathParts path ≠ [] := by
  rw [pathParts, ne_eq, map_eq_nil_iff]
  exact Text.split_ne_nil _ _

theorem pathParts_append (a b : String) : pathParts (a ++ "/" ++ b) = pathParts a ++ pathParts b := by
  rw [pathParts, String.toList_append, String.toList_append, append_assoc, show "/".toList = ['/'] from rfl,
    singleton_append, Text.split_append, map_append]
  rfl

theorem pathParts_intercalate (hne : names ≠ [])
    (hnames : ∀ name ∈ names, Node.isEntryName name) : pathParts ("/".intercalate names) = names := by
  have hslash : ∀ piece ∈ names.map String.toList, '/' ∉ piece := by
    intro piece hpiece
    obtain ⟨name, hname, rfl⟩ := List.mem_map.mp hpiece
    have hentry := hnames name hname
    simp only [Node.isEntryName, Bool.and_eq_true, Bool.not_eq_true', contains_eq_mem,
      decide_eq_false_iff_not] at hentry
    exact hentry.2
  have hsplit := Text.split_joinWith (by simpa using hne) hslash
  rw [Text.joinWith] at hsplit
  rw [pathParts, String.toList_intercalate, show "/".toList = ['/'] from rfl, hsplit, map_map]
  simp

theorem startsWith_append (h : path.isEmpty = false) (rest : String) :
    (path ++ rest).startsWith "/" = path.startsWith "/" := by
  rw [Bool.eq_false_iff, ne_eq, String.isEmpty_iff, ← String.toList_eq_nil_iff] at h
  obtain ⟨c, cs, hcs⟩ := exists_cons_of_ne_nil h
  rw [Bool.eq_iff_iff, String.startsWith_string_iff, String.startsWith_string_iff, String.toList_append, hcs,
    show "/".toList = ['/'] from rfl, cons_append, cons_prefix_cons, cons_prefix_cons]
  simp

theorem startsWith_intercalate (hne : names ≠ [])
    (hnames : ∀ name ∈ names, Node.isEntryName name) : ("/".intercalate names).startsWith "/" = false := by
  rw [Bool.eq_false_iff, ne_eq, String.startsWith_string_iff]
  intro hslash
  obtain ⟨rest, hrest⟩ := hslash
  -- otherwise the first name would be empty
  have hfst : pathParts ("/".intercalate names) = "" :: (Text.split '/' rest).map String.ofList := by
    rw [pathParts, ← hrest, show "/".toList = ['/'] from rfl, singleton_append, Text.split]
    rfl
  rw [pathParts_intercalate hne hnames] at hfst
  have hentry := hnames "" (by rw [hfst]; exact mem_cons_self)
  exact absurd hentry (by decide)

/-! ## §5. Paths in a world. -/

def FileData.read (data : FileData) : Except FileError String :=
  match data.text? with
  | some text => .ok text
  | none => .error .notText

namespace World

def placeOf (w : World) (path : String) : Except FileError (List String) :=
  (w.start path).bind fun s => w.root.follow s.1 s.2

def fileAt (w : World) (path : String) : Except FileError FileData :=
  (w.placeOf path).bind fun p =>
    match w.root.get? p with
    | none => .error .notFound
    | some (.folder _) => .error .isAFolder
    | some (.file data) => .ok data

theorem start_eq {s : List String × List String} (h : w.start path = .ok s) :
    path.isEmpty = false ∧ s = (if path.startsWith "/" then [] else w.place, pathParts path) := by
  unfold start at h
  split at h
  · cases h
  · split at h
    · cases h
    · rename_i hempty
      split at h
      · cases h
      · cases h
        exact ⟨Bool.eq_false_iff.mpr hempty, rfl⟩

theorem follow_of_placeOf (h : w.placeOf path = .ok p) :
    path.isEmpty = false ∧ w.root.follow (if path.startsWith "/" then [] else w.place) (pathParts path) = .ok p := by
  obtain ⟨s, hstart, h⟩ := bind_eq_ok_iff.mp h
  obtain ⟨hnonempty, rfl⟩ := start_eq hstart
  exact ⟨hnonempty, h⟩

theorem node_eq (w : World) (path : String) :
    w.node path = (w.placeOf path).bind fun p =>
      match w.root.get? p with
      | some node => .ok node
      | none => .error .notFound := by
  unfold node placeOf
  cases w.start path with
  | error e => rfl
  | ok s =>
    show (w.root.follow s.1 s.2 >>= _) = Except.bind (w.root.follow s.1 s.2) _
    cases w.root.follow s.1 s.2 with
    | error e => rfl
    | ok p => rfl

theorem node_of_survey (h : w.survey path = .ok found) :
    ∃ base node before, w.placeOf path = .ok base ∧ w.root.get? base = some node ∧ found = node.survey before := by
  obtain ⟨node, hnode, h⟩ := bind_eq_ok_iff.mp h
  cases h
  rw [node_eq] at hnode
  obtain ⟨base, hplace, hnode⟩ := bind_eq_ok_iff.mp hnode
  split at hnode
  · rename_i hget
    cases hnode
    exact ⟨base, node, _, hplace, hget, rfl⟩
  · cases hnode

theorem readText_eq (w : World) (path : String) : w.readText path = (w.fileAt path).bind FileData.read := by
  unfold readText fileAt
  rw [node_eq]
  cases w.placeOf path with
  | error e => rfl
  | ok p =>
    show (Except.bind _ _ : Except FileError String) = _
    dsimp only [Except.bind]
    cases w.root.get? p with
    | none => rfl
    | some node =>
      cases node with
      | folder es => rfl
      | file data => rfl

theorem fileAt_eq_ok_iff :
    w.fileAt path = .ok data ↔ ∃ p, w.placeOf path = .ok p ∧ w.root.get? p = some (.file data) := by
  unfold fileAt
  rw [bind_eq_ok_iff]
  refine exists_congr fun p => and_congr_right fun _ => ⟨fun h => ?_, fun h => by rw [h]⟩
  split at h
  · cases h
  · cases h
  · rename_i hget
    cases h
    exact hget

theorem placeOf_congr {v : World} (hshape : v.root.SameShape w.root) (hplace : v.place = w.place) (path : String) :
    v.placeOf path = w.placeOf path := by
  unfold placeOf start
  rw [hplace]
  congr 1
  funext s
  exact hshape.follow s.2 s.1

theorem fileAt_congr {v : World} (hshape : v.root.SameShape w.root) (hplace : v.place = w.place) {path : String}
    (hdata : ∀ p, w.placeOf path = .ok p → v.root.dataAt? p = w.root.dataAt? p) : v.fileAt path = w.fileAt path := by
  unfold fileAt
  rw [placeOf_congr hshape hplace]
  cases hp : w.placeOf path with
  | error e => rfl
  | ok p =>
    have hkind := hshape p
    have hsame := hdata p hp
    unfold Node.kindAt? at hkind
    unfold Node.dataAt? at hsame
    dsimp only [Except.bind]
    cases hv : v.root.get? p with
    | none =>
      rw [hv, Option.map_none] at hkind
      rw [Option.map_eq_none_iff.mp hkind.symm]
    | some a =>
      rw [hv, Option.map_some] at hkind
      obtain ⟨b, hb, hab⟩ := Option.map_eq_some_iff.mp hkind.symm
      rw [hv, hb] at hsame
      rw [hb]
      cases a with
      | file d =>
        cases b with
        | folder es => cases hab
        | file d' =>
          cases hsame
          rfl
      | folder es =>
        cases b with
        | folder es' => rfl
        | file d' => cases hab

theorem openFile_of_file (hplace : w.placeOf path = .ok p) (hfile : w.root.get? p = some (.file data)) :
    w.openFile path = if data.readOnly then .error .denied else .ok (p, data) := by
  obtain ⟨s, hstart, hplace⟩ := bind_eq_ok_iff.mp hplace
  -- a path has a last part
  have hparts : s.2 ≠ [] := by
    rw [(start_eq hstart).2]
    exact pathParts_ne_nil path
  obtain ⟨init, last, hsplit⟩ := eq_nil_or_concat s.2 |>.resolve_left hparts
  rw [concat_eq_append] at hsplit
  rw [hsplit, Node.follow_append] at hplace
  obtain ⟨q, hinit, hplace⟩ := bind_eq_ok_iff.mp hplace
  obtain ⟨hname, hlimit, rfl, es, hes, hlookup⟩ := Node.follow_last hplace hfile
  unfold openFile
  rw [hstart]
  show (w.root.follow s.1 s.2.dropLast >>= _) = _
  rw [hsplit, dropLast_concat, hinit]
  dsimp only [bind, Except.bind]
  rw [hes]
  dsimp only
  rw [getLast?_concat, Option.getD_some, hname, if_neg Bool.false_ne_true, if_neg hlimit, hlookup]

theorem placeOf_joinPath {root : String} {base : List String} (hroot : w.placeOf root = .ok base)
    (hne : names ≠ []) (hnames : ∀ name ∈ names, Node.isEntryName name)
    (hp : w.placeOf (joinPath root ("/".intercalate names)) = .ok p) : p = base ++ names := by
  obtain ⟨hnonempty, hroot⟩ := follow_of_placeOf hroot
  rw [joinPath, startsWith_intercalate hne hnames, hnonempty, Bool.or_self, if_neg Bool.false_ne_true] at hp
  have hparts := pathParts_intercalate hne hnames
  suffices hfollow : w.root.follow base names = .ok p from Node.follow_names hnames hfollow
  split at hp
  · rename_i hends
    rw [String.endsWith_eq_endsWith_toSlice, String.Slice.endsWith_string_iff, String.copy_toSlice] at hends
    obtain ⟨front, hfront⟩ := hends
    have hsplit : root = String.ofList front ++ "/" := by
      rw [← String.toList_inj, ← hfront]
      simp
    obtain ⟨-, hp⟩ := follow_of_placeOf hp
    rw [startsWith_append hnonempty, hsplit, pathParts_append, hparts, Node.follow_append] at hp
    rw [hsplit, ← String.append_empty (s := String.ofList front ++ "/"), pathParts_append, Node.follow_append,
      String.append_empty] at hroot
    obtain ⟨q, hmid, hroot⟩ := bind_eq_ok_iff.mp hroot
    rw [hmid] at hp
    -- the empty last part of the folder's path stays where it is
    change w.root.follow q [""] = .ok base at hroot
    rw [Node.follow_cons] at hroot
    split at hroot
    · cases hroot
    · cases hroot
    · cases hroot
      exact hp
  · obtain ⟨-, hp⟩ := follow_of_placeOf hp
    rw [pathParts_append, hparts, String.append_assoc, startsWith_append hnonempty, Node.follow_append, hroot] at hp
    exact hp

end World

/-! ## §6. What a walk finds. -/

namespace Node

variable {α : Type} {es : List (String × Node α)} {node : Node α}

mutual

/-- Entries of one folder have names of their own, which are names. -/
def isTidy : Node α → Bool
  | .file _ => true
  | .folder es => decide (es.map Prod.fst).Nodup && areTidy es

def areTidy : List (String × Node α) → Bool
  | [] => true
  | (name, node) :: es => isEntryName name && node.isTidy && areTidy es

end

theorem tidy_of_mem (h : areTidy es) (hmem : (name, node) ∈ es) : isEntryName name ∧ node.isTidy := by
  induction es with
  | nil => cases hmem
  | cons entry es ih =>
    obtain ⟨k, n⟩ := entry
    rw [areTidy, Bool.and_eq_true, Bool.and_eq_true] at h
    rcases mem_cons.mp hmem with heq | hmem
    · cases heq
      exact h.1
    · exact ih h.2 hmem

theorem lookup_of_mem (h : (es.map Prod.fst).Nodup) (hmem : (name, node) ∈ es) : es.lookup name = some node := by
  obtain ⟨front, behind, rfl⟩ := append_of_mem hmem
  rw [map_append, nodup_append] at h
  refine lookup_eq_some_iff.mpr ⟨front, behind, rfl, fun entry hentry => bne_iff_ne.mpr fun heq => ?_⟩
  exact h.2.2 entry.1 (mem_map_of_mem hentry) name mem_cons_self heq.symm

theorem mem_of_lookup (h : es.lookup name = some node) : (name, node) ∈ es := by
  obtain ⟨front, behind, rfl, -⟩ := lookup_eq_some_iff.mp h
  exact mem_append_right front mem_cons_self

theorem mem_entryFiles {path : List String} {data : α} :
    (path, data) ∈ entryFiles es ↔ ∃ name node rest, (name, node) ∈ es ∧ path = name :: rest
      ∧ (rest, data) ∈ node.files := by
  induction es with
  | nil => simp [entryFiles]
  | cons entry es ih =>
    obtain ⟨k, n⟩ := entry
    rw [entryFiles, mem_append, ih, mem_map]
    constructor
    · rintro (⟨⟨rest, d⟩, hmem, heq⟩ | ⟨name, node, rest, hmem, hpath, hfile⟩)
      · cases heq
        exact ⟨k, n, rest, mem_cons_self, rfl, hmem⟩
      · exact ⟨name, node, rest, mem_cons_of_mem _ hmem, hpath, hfile⟩
    · rintro ⟨name, node, rest, hmem, hpath, hfile⟩
      rcases mem_cons.mp hmem with heq | hmem
      · cases heq
        exact .inl ⟨(rest, data), hfile, by rw [hpath]⟩
      · exact .inr ⟨name, node, rest, hmem, hpath, hfile⟩

theorem mem_entrySurveys {before : Nat} :
    (name, found) ∈ entrySurveys before es
      ↔ ∃ node, (name, node) ∈ es ∧ found = node.survey (before + name.utf8ByteSize + 1) := by
  induction es with
  | nil => simp [entrySurveys]
  | cons entry es ih =>
    obtain ⟨k, n⟩ := entry
    rw [entrySurveys, mem_cons, ih]
    constructor
    · rintro (heq | ⟨node, hmem, hfound⟩)
      · cases heq
        exact ⟨n, mem_cons_self, rfl⟩
      · exact ⟨node, mem_cons_of_mem _ hmem, hfound⟩
    · rintro ⟨node, hmem, hfound⟩
      rcases mem_cons.mp hmem with heq | hmem
      · cases heq
        exact .inl (by rw [hfound])
      · exact .inr ⟨node, hmem, hfound⟩

theorem isTidy_of_get? : ∀ {root : Node α}, root.isTidy →
    root.get? place = some node → node.isTidy := by
  induction place with
  | nil =>
    intro root h hget
    rw [get?_nil] at hget
    cases hget
    exact h
  | cons name place ih =>
    intro root h hget
    cases root with
    | file data => cases hget
    | folder es =>
      rw [get?_folder] at hget
      obtain ⟨child, hchild, hget⟩ := Option.bind_eq_some_iff.mp hget
      rw [isTidy, Bool.and_eq_true] at h
      exact ih (tidy_of_mem h.2 (mem_of_lookup hchild)).2 hget

theorem get?_of_mem_survey : ∀ {node : Node α} {before : Nat}, node.isTidy →
    (names, Leaf.file) ∈ (node.survey before).files →
      (∃ data, node.get? names = some (.file data)) ∧ ∀ name ∈ names, isEntryName name := by
  induction names with
  | nil =>
    intro node before htidy hmem
    cases node with
    | file data => exact ⟨⟨data, rfl⟩, fun _ h => absurd h not_mem_nil⟩
    | folder es =>
      rw [survey] at hmem
      split at hmem
      · rw [files, mem_singleton] at hmem
        cases hmem
      · rw [files, mem_entryFiles] at hmem
        obtain ⟨_, _, _, _, hnil, _⟩ := hmem
        cases hnil
  | cons name names ih =>
    intro node before htidy hmem
    cases node with
    | file data =>
      rw [survey, files, mem_singleton] at hmem
      cases hmem
    | folder es =>
      rw [survey] at hmem
      split at hmem
      · rw [files, mem_singleton] at hmem
        cases hmem
      · rw [files, mem_entryFiles] at hmem
        obtain ⟨k, found, rest, hentry, hnames, hfile⟩ := hmem
        cases hnames
        obtain ⟨child, hchild, rfl⟩ := mem_entrySurveys.mp hentry
        rw [isTidy, Bool.and_eq_true, decide_eq_true_eq] at htidy
        obtain ⟨hname, hchildTidy⟩ := tidy_of_mem htidy.2 hchild
        obtain ⟨hget, hnames⟩ := ih hchildTidy hfile
        refine ⟨?_, ?_⟩
        · rw [get?_folder, lookup_of_mem htidy.1 hchild]
          exact hget
        · intro n hn
          rcases mem_cons.mp hn with rfl | hn
          · exact hname
          · exact hnames n hn

mutual

theorem paths_nodup (before : Nat) : ∀ node : Node α, node.isTidy → ((node.survey before).files.map Prod.fst).Nodup
  | .file _, _ => by
    rw [survey, files]
    exact pairwise_singleton _ _
  | .folder es, h => by
    rw [isTidy, Bool.and_eq_true, decide_eq_true_eq] at h
    rw [survey]
    split
    · rw [files]
      exact pairwise_singleton _ _
    · rw [files]
      exact entryPaths_nodup before es h.2 h.1

theorem entryPaths_nodup (before : Nat) : ∀ es : List (String × Node α), areTidy es → (es.map Prod.fst).Nodup →
    ((entryFiles (entrySurveys before es)).map Prod.fst).Nodup
  | [], _, _ => by
    rw [entrySurveys, entryFiles]
    exact nodup_nil
  | (name, node) :: es, h, hnames => by
    rw [areTidy, Bool.and_eq_true, Bool.and_eq_true] at h
    rw [map_cons, nodup_cons] at hnames
    have hfst := paths_nodup (before + name.utf8ByteSize + 1) node h.1.2
    have hrest := entryPaths_nodup before es h.2 hnames.2
    rw [entrySurveys, entryFiles, map_append, map_map]
    refine nodup_append.mpr ⟨?_, hrest, ?_⟩
    · rw [show (Prod.fst ∘ fun x : List String × Leaf => (name :: x.1, x.2)) = (name :: ·) ∘ Prod.fst from rfl,
        ← map_map]
      exact pairwise_map.mpr (hfst.imp fun hne heq => hne (cons.inj heq).2)
    · -- paths through another entry begin with another name
      intro a ha b hb heq
      obtain ⟨x, -, rfl⟩ := List.mem_map.mp ha
      obtain ⟨⟨path, leaf⟩, hmem, rfl⟩ := List.mem_map.mp hb
      obtain ⟨k, found, rest, hentry, hpath, -⟩ := mem_entryFiles.mp hmem
      obtain ⟨child, hchild, -⟩ := mem_entrySurveys.mp hentry
      rw [hpath] at heq
      exact hnames.1 ((cons.inj heq).1 ▸ List.mem_map.mpr ⟨(k, child), hchild, rfl⟩)

end

end Node

end MageUplift.Files
