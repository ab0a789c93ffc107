import Mathlib
import MageUplift.CommandLine.MigrateFiles
import MageUplift.Proofs.FileTrees
import MageUplift.Proofs.RenderValidity

/-!
# A batch touches what it reports

A batch goes through its files one by one, on one world that each file may change. Still every file is treated as if
it were alone: the files of a batch stand at places of their own (`filesToMigrate_apart`), a step changes one place at
most, and so every file is found as it was in the beginning.
-/

namespace MageUplift.CommandLine

open MageUplift.Files MageUplift.Php List

variable {migrator : Migrator} {file : String} {w : World} {f : String × String} {settings : Settings.Migrate}
  {folder : Survey}

/-! ## §1. One file. -/

def writeFailure (path : String) (e : FileError) : FileStatus :=
  .failed ("failed to write " ++ path ++ ": " ++ e.message)

/-- What becomes of the file at a path and what is put in its place, from what the file holds. -/
def outcome (migrator : Migrator) (dryRun : Bool) (path file : String) (found : Except FileError FileData) :
    FileStatus × Option FileData :=
  match found with
  | .error e => (.failed ("failed to read " ++ path ++ ": " ++ e.message), none)
  | .ok data =>
    match data.read with
    | .error e => (.failed ("failed to read " ++ path ++ ": " ++ e.message), none)
    | .ok text =>
      match convert migrator file text with
      | (status, none) => (status, none)
      | (status, some output) =>
        if dryRun then (status, none)
        else if data.readOnly then (writeFailure path .denied, none)
        else (if data.hasRoom output then status else writeFailure path .full, some (data.written output))

def rewritten (w : World) (path : String) : Option FileData → World
  | none => w
  | some data =>
    match w.placeOf path with
    | .error _ => w
    | .ok p => { w with root := w.root.put p (.file data) }

theorem run_readText {α : Type} (path : String) (k : Except FileError String → StateM World α) (w : World) :
    (Storage.readText path >>= k).run w = (k (w.readText path)).run w := rfl

theorem run_writeText {α : Type} (path text : String) (k : Except FileError Unit → StateM World α) (w : World) :
    (Storage.writeText path text >>= k).run w = (k (w.writeText path text).1).run (w.writeText path text).2 := rfl

theorem run_survey {α : Type} (path : String) (k : Except FileError Survey → StateM World α) (w : World) :
    (Storage.survey path >>= k).run w = (k (w.survey path)).run w := rfl

theorem migrateFile_run (migrator : Migrator) (dryRun : Bool) (path file : String) (w : World) :
    (migrateFile migrator dryRun path file : StateM World FileStatus).run w
      = ((outcome migrator dryRun path file (w.fileAt path)).1,
          rewritten w path (outcome migrator dryRun path file (w.fileAt path)).2) := by
  unfold migrateFile outcome
  rw [run_readText, World.readText_eq]
  cases hfile : w.fileAt path with
  | error e => rfl
  | ok data =>
    dsimp only [Except.bind]
    cases data.read with
    | error e => rfl
    | ok text =>
      dsimp only
      rcases convert migrator file text with ⟨status, _ | output⟩
      · rfl
      · dsimp only
        cases dryRun with
        | true => rfl
        | false =>
          obtain ⟨p, hplace, hget⟩ := World.fileAt_eq_ok_iff.mp hfile
          rw [if_neg Bool.false_ne_true, if_neg Bool.false_ne_true, run_writeText, World.writeText,
            World.openFile_of_file hplace hget]
          cases data.readOnly with
          | true => rfl
          | false =>
            dsimp only [rewritten]
            rw [if_neg Bool.false_ne_true, if_neg Bool.false_ne_true, hplace]
            dsimp only
            cases data.hasRoom output with
            | true => rfl
            | false => rfl

theorem rewritten_frame {path : String} {data? : Option FileData}
    (h : data? ≠ none → ∃ old, w.fileAt path = .ok old) :
    (rewritten w path data?).root.SameShape w.root ∧ (rewritten w path data?).place = w.place
      ∧ (∀ q, data? = none ∨ w.placeOf path ≠ .ok q → (rewritten w path data?).root.dataAt? q = w.root.dataAt? q)
      ∧ ∀ q data, data? = some data → w.placeOf path = .ok q →
          (rewritten w path data?).root.dataAt? q = some data := by
  cases data? with
  | none =>
    refine ⟨fun _ => rfl, rfl, fun _ _ => rfl, ?_⟩
    intro q data hnone
    cases hnone
  | some data =>
    obtain ⟨old, hfile⟩ := h (Option.some_ne_none data)
    obtain ⟨p, hplace, hget⟩ := World.fileAt_eq_ok_iff.mp hfile
    have hworld : rewritten w path (some data) = { w with root := w.root.put p (.file data) } := by
      rw [rewritten, hplace]
    rw [hworld]
    refine ⟨Node.kindAt?_put hget _, rfl, ?_, ?_⟩
    · intro q hq
      show (w.root.put p _).dataAt? q = _
      rw [Node.dataAt?_put hget, if_neg]
      rintro rfl
      rcases hq with hq | hq
      · cases hq
      · exact hq hplace
    · intro q data' hdata hq
      cases hdata
      rw [hplace, Except.ok.injEq] at hq
      show (w.root.put p _).dataAt? q = _
      rw [Node.dataAt?_put hget, if_pos hq.symm]

theorem convert_cases (migrator : Migrator) (file text : String) :
    (∃ tokens report, migrator.migrate file (.ofSource text) = .ok (.converted tokens report)
        ∧ convert migrator file text = (.converted report, some tokens.render) ∧ tokens.render ≠ text)
      ∨ ∃ status, convert migrator file text = (status, none) ∧ ∀ report, status ≠ .converted report := by
  unfold convert
  split
  · exact .inr ⟨_, rfl, fun _ => FileStatus.noConfusion⟩
  · exact .inr ⟨_, rfl, fun _ => FileStatus.noConfusion⟩
  · rename_i tokens report hmig
    split
    · exact .inr ⟨_, rfl, fun _ => FileStatus.noConfusion⟩
    · rename_i hne
      exact .inl ⟨tokens, report, hmig, rfl, by simpa using hne⟩

/-! ## §2. One file after the other. -/

def statusOf (migrator : Migrator) (dryRun : Bool) (w : World) (f : String × String) : FileStatus :=
  (outcome migrator dryRun f.1 (reportName f.2) (w.fileAt f.1)).1

def writtenTo (migrator : Migrator) (dryRun : Bool) (w : World) (f : String × String) : Option FileData :=
  (outcome migrator dryRun f.1 (reportName f.2) (w.fileAt f.1)).2

/-- A file holds this data, and its text is to be converted. -/
def Converts (migrator : Migrator) (w : World) (f : String × String) (data : FileData) (tokens : TokenStream)
    (report : FileReport) : Prop :=
  w.fileAt f.1 = .ok data ∧ ∃ text, data.read = .ok text ∧ tokens.render ≠ text
    ∧ migrator.migrate (reportName f.2) (.ofSource text) = .ok (.converted tokens report)

theorem Converts.outcome_eq {data : FileData} {tokens : TokenStream}
    {report : FileReport} (h : Converts migrator w f data tokens report) (dryRun : Bool) :
    outcome migrator dryRun f.1 (reportName f.2) (w.fileAt f.1)
      = if dryRun then (.converted report, none)
        else if data.readOnly then (writeFailure f.1 .denied, none)
        else (if data.hasRoom tokens.render then .converted report else writeFailure f.1 .full,
          some (data.written tokens.render)) := by
  obtain ⟨hfile, text, hread, hne, hmig⟩ := h
  have hconvert : convert migrator (reportName f.2) text = (.converted report, some tokens.render) := by
    rw [convert, hmig]
    exact if_neg (by simpa using hne)
  rw [hfile]
  simp only [outcome, hread, hconvert]

/-- **What becomes of a file.** One that is not converted has the same status in every run and is not written to. -/
theorem outcome_cases (migrator : Migrator) (w : World) (f : String × String) :
    (∃ data tokens report, Converts migrator w f data tokens report)
      ∨ ∃ status, (∀ report, status ≠ .converted report)
          ∧ ∀ dryRun, outcome migrator dryRun f.1 (reportName f.2) (w.fileAt f.1) = (status, none) := by
  cases hfile : w.fileAt f.1 with
  | error e => exact .inr ⟨_, fun _ => FileStatus.noConfusion, fun _ => rfl⟩
  | ok data =>
    cases hread : data.read with
    | error e => exact .inr ⟨_, fun _ => FileStatus.noConfusion, fun _ => by rw [outcome]; simp only [hread]; rfl⟩
    | ok text =>
      rcases convert_cases migrator (reportName f.2) text with
        ⟨tokens, report, hmig, -, hne⟩ | ⟨status, hconvert, hstatus⟩
      · exact .inl ⟨data, tokens, report, hfile, text, hread, hne, hmig⟩
      · exact .inr ⟨status, hstatus, fun _ => by simp only [outcome, hread, hconvert]⟩

/-- The paths lead to places of their own. -/
def Apart (w : World) (files : List (String × String)) : Prop :=
  files.Pairwise fun f g => ∀ p, w.placeOf f.1 = .ok p → w.placeOf g.1 ≠ .ok p

theorem migrateEach_cons (migrator : Migrator) (dryRun : Bool) (f : String × String) (files : List (String × String))
    (w : World) :
    (migrateEach migrator dryRun (f :: files) : StateM World _).run w
      = let step := (migrateFile migrator dryRun f.1 (reportName f.2) : StateM World FileStatus).run w
        let rest := (migrateEach migrator dryRun files : StateM World _).run step.2
        (⟨reportName f.2, step.1⟩ :: rest.1, rest.2) := by
  unfold migrateEach
  rw [mapM_cons]
  rfl

/-- **A whole run, by the world that it begins with.** `v` is the world on the way; of the files still to come it holds
what `w` holds. -/
theorem migrateEach_run (migrator : Migrator) (dryRun : Bool) (w : World) (files : List (String × String)) :
    ∀ v : World, v.root.SameShape w.root → v.place = w.place →
      (∀ f ∈ files, ∀ p, w.placeOf f.1 = .ok p → v.root.dataAt? p = w.root.dataAt? p) → Apart w files →
      ∃ v', (migrateEach migrator dryRun files : StateM World _).run v
          = (files.map fun f => ⟨reportName f.2, statusOf migrator dryRun w f⟩, v')
        ∧ v'.root.SameShape w.root ∧ v'.place = w.place
        ∧ (∀ p, (∀ f ∈ files, w.placeOf f.1 = .ok p → writtenTo migrator dryRun w f = none) →
            v'.root.dataAt? p = v.root.dataAt? p)
        ∧ ∀ f ∈ files, ∀ p data, w.placeOf f.1 = .ok p → writtenTo migrator dryRun w f = some data →
            v'.root.dataAt? p = some data := by
  induction files with
  | nil =>
    intro v hshape hplace _ _
    exact ⟨v, rfl, hshape, hplace, fun _ _ => rfl, fun f hf => absurd hf not_mem_nil⟩
  | cons f files ih =>
    intro v hshape hplace hdata hapart
    obtain ⟨hfst, hapart⟩ := pairwise_cons.mp hapart
    -- the first file is found as it was
    have hfound : v.fileAt f.1 = w.fileAt f.1 := World.fileAt_congr hshape hplace (hdata f mem_cons_self)
    have hplaces : ∀ path, v.placeOf path = w.placeOf path := World.placeOf_congr hshape hplace
    have hstep := migrateFile_run migrator dryRun f.1 (reportName f.2) v
    rw [hfound] at hstep
    change _ = (statusOf migrator dryRun w f, rewritten v f.1 (writtenTo migrator dryRun w f)) at hstep
    have hwrit : writtenTo migrator dryRun w f ≠ none → ∃ data, v.fileAt f.1 = .ok data := by
      intro hsome
      rcases outcome_cases migrator w f with ⟨data, _, _, hdata, -⟩ | ⟨_, -, hnone⟩
      · exact ⟨data, hfound.trans hdata⟩
      · exact absurd (congrArg Prod.snd (hnone dryRun)) hsome
    obtain ⟨hshape', hplace', hkept, hnew⟩ := rewritten_frame hwrit
    rw [hplaces] at hkept hnew
    obtain ⟨v', hrun, hshape'', hplace'', hkept', hnew'⟩ := ih (rewritten v f.1 (writtenTo migrator dryRun w f))
      (fun p => (hshape' p).trans (hshape p)) (hplace'.trans hplace)
      (fun g hg p hp => (hkept p (.inr fun hf => hfst g hg p hf hp)).trans
        (hdata g (mem_cons_of_mem _ hg) p hp)) hapart
    refine ⟨v', ?_, hshape'', hplace'', ?_, ?_⟩
    · rw [migrateEach_cons, hstep]
      dsimp only
      rw [hrun]
      rfl
    · intro p hp
      rw [hkept' p (forall_mem_cons.mp hp).2]
      refine hkept p ?_
      by_cases hf : w.placeOf f.1 = .ok p
      · exact .inl (hp f mem_cons_self hf)
      · exact .inr hf
    · intro g hg p data hgp hgdata
      rcases mem_cons.mp hg with rfl | hg
      · -- what comes later is written elsewhere
        rw [hkept' p fun h hh hhp => absurd hhp (hfst h hh p hgp)]
        exact hnew p data hgdata hgp
      · exact hnew' g hg p data hgp hgdata

/-! ## §3. The files of a batch. -/

theorem mem_selectFiles {names : List String}
    (h : names ∈ selectFiles settings folder) : (names, Leaf.file) ∈ folder.files := by
  obtain ⟨hmem, -⟩ := mem_filter.mp h
  obtain ⟨⟨path, leaf⟩, hleaf, rfl⟩ := List.mem_map.mp hmem
  obtain ⟨hvis, hfile⟩ := mem_filter.mp hleaf
  rw [beq_iff_eq] at hfile
  dsimp only at hfile
  rw [← hfile]
  exact (mem_filter.mp hvis).1

theorem selectFiles_nodup (h : (folder.files.map Prod.fst).Nodup) : (selectFiles settings folder).Nodup := by
  have hsub : (((visibleLeaves folder).filter (·.2 == .file)).map (·.1)).Sublist (folder.files.map Prod.fst) :=
    (filter_sublist.trans filter_sublist).map Prod.fst
  exact (filter_sublist.trans hsub).nodup h

theorem filesToMigrate_apart (hw : w.root.isTidy) {root : String} {found : Survey}
    (hfound : w.survey root = .ok found) (settings : Settings.Migrate) :
    Apart w (filesToMigrate settings root found) := by
  obtain ⟨base, node, before, hroot, hnode, hsurvey⟩ := World.node_of_survey hfound
  have htidy := Node.isTidy_of_get? hw hnode
  have hnodup := Node.paths_nodup before node htidy
  rw [← hsurvey] at hnodup
  cases found with
  | file leaf => exact pairwise_singleton _ _
  | folder entries =>
    -- a path that leads anywhere leads to the file that was found
    have hplace : ∀ {names p : List String}, names ∈ selectFiles settings (.folder entries) →
        w.placeOf (joinPath root ("/".intercalate names)) = .ok p → p = base ++ names := by
      intro names p hnames hp
      have hmem := mem_selectFiles hnames
      have hne : names ≠ [] := by
        rw [Node.files, Node.mem_entryFiles] at hmem
        obtain ⟨name, _, rest, _, hcons, _⟩ := hmem
        rw [hcons]
        exact cons_ne_nil name rest
      rw [hsurvey] at hmem
      exact World.placeOf_joinPath hroot hne (Node.get?_of_mem_survey htidy hmem).2 hp
    refine pairwise_map.mpr (List.Pairwise.imp_of_mem ?_ (selectFiles_nodup hnodup))
    intro names names' hnames hnames' hne p hp hp'
    exact hne (append_cancel_left ((hplace hnames hp).symm.trans (hplace hnames' hp')))

/-! ## §4. The batch. -/

/-- The write to a converted file fails. -/
def WriteFails (migrator : Migrator) (w : World) (f : String × String) : Prop :=
  ∃ data tokens report, Converts migrator w f data tokens report
    ∧ (data.readOnly = true ∨ data.hasRoom tokens.render = false)

/-- What a batch with these files leaves behind of a world. -/
structure TouchesReported (migrator : Migrator) (files : List (String × String)) (w w' : World) : Prop where
  /-- Files stay files and folders stay folders. -/
  kinds : ∀ p, w'.root.kindAt? p = w.root.kindAt? p
  place : w'.place = w.place
  /-- What changes is a file that is reported as converted, or one to which the write broke off. -/
  changed : ∀ p, w'.root.dataAt? p ≠ w.root.dataAt? p → ∃ f ∈ files, w.placeOf f.1 = .ok p
    ∧ ((∃ report, statusOf migrator false w f = .converted report)
      ∨ WriteFails migrator w f ∧ statusOf migrator false w f = writeFailure f.1 .full)
  /-- A file that is reported as converted holds its old text, migrated, which is another one. -/
  converted : ∀ f ∈ files, ∀ report, statusOf migrator false w f = .converted report →
    ∃ text tokens, w.readText f.1 = .ok text ∧ tokens.render ≠ text
      ∧ migrator.migrate (reportName f.2) (.ofSource text) = .ok (.converted tokens report)
      ∧ w'.readText f.1 = .ok tokens.render
  /-- One to which the write broke off holds the front of what was to be written. -/
  brokenOff : ∀ f ∈ files, ∀ data tokens report, Converts migrator w f data tokens report → data.readOnly = false →
    data.hasRoom tokens.render = false → statusOf migrator false w f = writeFailure f.1 .full
      ∧ w'.fileAt f.1 = .ok { data with
          text? := data.room?.bind fun room => String.fromUTF8? (tokens.render.toUTF8.extract 0 room) }

theorem Converts.of_status {data : FileData} {tokens : TokenStream} {report report' : FileReport}
    (h : Converts migrator w f data tokens report) (hstatus : statusOf migrator false w f = .converted report') :
    data.readOnly = false ∧ data.hasRoom tokens.render ∧ report = report' := by
  rw [statusOf, h.outcome_eq, if_neg Bool.false_ne_true] at hstatus
  cases hreadOnly : data.readOnly <;> rw [hreadOnly] at hstatus
  · cases hroom : data.hasRoom tokens.render <;> rw [hroom] at hstatus <;> cases hstatus
    exact ⟨rfl, rfl, rfl⟩
  · cases hstatus

theorem migrateEach_touches_reported (migrator : Migrator) {files : List (String × String)}
    (hapart : Apart w files) :
    ∃ w', (migrateEach migrator false files : StateM World _).run w
        = (files.map fun f => ⟨reportName f.2, statusOf migrator false w f⟩, w')
      ∧ TouchesReported migrator files w w' := by
  obtain ⟨w', hrun, hshape, hplace, hkept, hnew⟩ :=
    migrateEach_run migrator false w files w (fun _ => rfl) rfl (fun _ _ _ _ => rfl) hapart
  -- a file that is opened holds what is written to it
  have hafter : ∀ f ∈ files, ∀ {data tokens report}, Converts migrator w f data tokens report →
      data.readOnly = false → w'.fileAt f.1 = .ok (data.written tokens.render) := by
    intro f hf data tokens report h hwritable
    obtain ⟨p, hp, -⟩ := World.fileAt_eq_ok_iff.mp h.1
    refine World.fileAt_eq_ok_iff.mpr ⟨p, ?_, Node.dataAt?_iff.mp (hnew f hf p _ hp ?_)⟩
    · rw [World.placeOf_congr hshape hplace, hp]
    · rw [writtenTo, h.outcome_eq, hwritable]
      rfl
  refine ⟨w', hrun, hshape, hplace, ?_, ?_, ?_⟩
  · intro p hchanged
    refine Classical.byContradiction fun hnone => ?_
    refine hchanged (hkept p fun f hf hp => ?_)
    rcases outcome_cases migrator w f with ⟨data, tokens, report, h⟩ | ⟨_, -, h⟩
    · have hout := h.outcome_eq false
      rw [if_neg Bool.false_ne_true] at hout
      rw [writtenTo, hout]
      cases hreadOnly : data.readOnly with
      | true => rfl
      | false =>
        rw [hreadOnly, if_neg Bool.false_ne_true] at hout
        refine absurd ⟨f, hf, hp, ?_⟩ hnone
        rw [statusOf, hout]
        cases hroom : data.hasRoom tokens.render with
        | true => exact .inl ⟨report, rfl⟩
        | false => exact .inr ⟨⟨data, tokens, report, h, .inr hroom⟩, rfl⟩
    · rw [writtenTo, h]
  · intro f hf report hstatus
    rcases outcome_cases migrator w f with ⟨data, tokens, report', h⟩ | ⟨status, hne, h⟩
    · obtain ⟨hwritable, hroom, rfl⟩ := h.of_status hstatus
      have hheld := hafter f hf h hwritable
      obtain ⟨hfile, text, hread, hne, hmig⟩ := h
      refine ⟨text, tokens, ?_, hne, hmig, ?_⟩
      · rw [World.readText_eq, hfile]
        exact hread
      · rw [World.readText_eq, hheld, FileData.written, hroom]
        rfl
    · rw [statusOf, h] at hstatus
      exact absurd hstatus (hne report)
  · intro f hf data tokens report h hwritable hroom
    constructor
    · rw [statusOf, h.outcome_eq, hwritable, hroom]
      rfl
    · rw [hafter f hf h hwritable, FileData.written, hroom]
      rfl

/-! ## §5. Dry runs. -/

theorem migrateEach_dry (migrator : Migrator) (files : List (String × String)) (w : World) :
    (migrateEach migrator true files : StateM World _).run w
      = (files.map fun f => ⟨reportName f.2, statusOf migrator true w f⟩, w) := by
  induction files with
  | nil => rfl
  | cons f files ih =>
    have hnone : (outcome migrator true f.1 (reportName f.2) (w.fileAt f.1)).2 = none := by
      rcases outcome_cases migrator w f with ⟨_, _, _, h⟩ | ⟨_, -, h⟩
      · rw [h.outcome_eq, if_pos rfl]
      · rw [h]
    have hstep := migrateFile_run migrator true f.1 (reportName f.2) w
    rw [hnone] at hstep
    rw [migrateEach_cons, hstep]
    show (_ :: ((migrateEach migrator true files : StateM World _).run w).1, _) = _
    rw [show rewritten w f.1 none = w from rfl, ih]
    rfl

theorem WriteFails.statuses (h : WriteFails migrator w f) :
    ∃ report e, statusOf migrator true w f = .converted report ∧ statusOf migrator false w f = writeFailure f.1 e := by
  obtain ⟨data, tokens, report, h, hfails⟩ := h
  unfold statusOf
  rw [h.outcome_eq, h.outcome_eq, if_pos rfl, if_neg Bool.false_ne_true]
  cases hreadOnly : data.readOnly with
  | true => exact ⟨report, .denied, rfl, rfl⟩
  | false =>
    rcases hfails with hfails | hroom
    · rw [hreadOnly] at hfails
      cases hfails
    · rw [hroom]
      exact ⟨report, .full, rfl, rfl⟩

theorem statusOf_dry_iff (migrator : Migrator) (w : World) (f : String × String) :
    statusOf migrator true w f = statusOf migrator false w f ↔ ¬WriteFails migrator w f := by
  constructor
  · intro hsame hfails
    obtain ⟨report, e, hdry, hwet⟩ := hfails.statuses
    rw [hdry, hwet] at hsame
    cases hsame
  · intro hfails
    rcases outcome_cases migrator w f with ⟨data, tokens, report, h⟩ | ⟨_, -, h⟩
    · have hwritable : data.readOnly = false :=
        Bool.eq_false_iff.mpr fun hro => hfails ⟨data, tokens, report, h, .inl hro⟩
      have hroom : data.hasRoom tokens.render :=
        Bool.of_not_eq_false fun hfull => hfails ⟨data, tokens, report, h, .inr hfull⟩
      unfold statusOf
      rw [h.outcome_eq, h.outcome_eq, hwritable, hroom]
      rfl
    · unfold statusOf
      rw [h, h]

/-! ## §6. The command. -/

theorem migrateBatch_run (settings : Settings.Migrate) (root : String) (dryRun : Bool) (w : World) :
    (migrateBatch settings root dryRun : StateM World _).run w
      = match Migrator.ofSettings settings with
        | .error e => (.error ("invalid [migrate] configuration: " ++ e.message), w)
        | .ok migrator =>
          match w.survey root with
          | .error _ => (.error (root ++ " does not exist or is not a directory"), w)
          | .ok found =>
            match closedFolder? found with
            | some (path, reason) => (.error (walkFailure root path reason), w)
            | none =>
              let run := (migrateEach migrator dryRun (filesToMigrate settings root found)
                : StateM World _).run w
              (.ok ⟨root, dryRun, run.1⟩, run.2) := by
  unfold migrateBatch
  cases Migrator.ofSettings settings with
  | error e => rfl
  | ok migrator =>
    dsimp only
    rw [run_survey]
    cases w.survey root with
    | error e => rfl
    | ok found =>
      dsimp only
      cases closedFolder? found with
      | some closed => rfl
      | none => rfl

theorem runMigrate_run (settings : Settings.Migrate) (root : String) (dryRun json : Bool) (w : World) :
    (runMigrate settings root dryRun json : StateM World Output).run w
      = match (migrateBatch settings root dryRun : StateM World _).run w with
        | (.error reason, w') => (.failed "" reason, w')
        | (.ok report, w') =>
          (⟨report.exitCode, if json then report.toJson.pretty ++ "\n" else report.text, none⟩, w') := by
  unfold runMigrate
  rw [StateT.run_bind]
  show (_ : Id _) >>= _ = _
  cases (migrateBatch settings root dryRun : StateM World _).run w with
  | mk result w' =>
    cases result with
    | error reason => rfl
    | ok report => rfl

/-- The counts of a report are those of its files, and the exit code tells whether one of them failed. -/
structure BatchReport.SumsUp (r : BatchReport) : Prop where
  converted : countOf "converted" r.files = r.files.countP fun f => f.status matches .converted _
  unchanged : countOf "unchanged" r.files = r.files.countP fun f => f.status matches .unchanged
  skipped : countOf "skipped" r.files = r.files.countP fun f => f.status matches .skipped
  failed : countOf "failed" r.files = r.files.countP fun f => f.status matches .failed _
  exitCode_eq_one_iff : r.exitCode = 1 ↔ ∃ f ∈ r.files, ∃ reason, f.status = .failed reason
  exitCode_le_one : r.exitCode ≤ 1

theorem BatchReport.sumsUp (r : BatchReport) : r.SumsUp := by
  have hcount : ∀ (name : String) (p : FileStatus → Bool), (∀ status, (status.name == name) = p status) →
      countOf name r.files = r.files.countP fun f => p f.status := by
    intro name p hp
    rw [countOf, countP_eq_length_filter]
    congr 2
    funext f
    exact hp f.status
  refine ⟨hcount _ (· matches .converted _) fun status => ?_, hcount _ (· matches .unchanged) fun status => ?_,
    hcount _ (· matches .skipped) fun status => ?_, hcount _ (· matches .failed _) fun status => ?_, ?_, ?_⟩
  iterate 4 cases status <;> rfl
  · have hany : r.files.any (·.status.isFailed) ↔ ∃ f ∈ r.files, ∃ reason, f.status = .failed reason := by
      rw [List.any_eq_true]
      refine exists_congr fun f => and_congr_right fun _ => ?_
      cases f.status with
      | failed reason => exact ⟨fun _ => ⟨reason, rfl⟩, fun _ => rfl⟩
      | converted report => simp [FileStatus.isFailed]
      | unchanged => simp [FileStatus.isFailed]
      | skipped => simp [FileStatus.isFailed]
    rw [← hany, BatchReport.exitCode]
    split
    · rename_i h
      simp [h]
    · rename_i h
      simp [h]
  · rw [BatchReport.exitCode]
    split
    · exact Nat.le_refl 1
    · exact Nat.zero_le 1

/-- What keeps a batch from beginning, and what is said of it. -/
inductive CannotBegin (settings : Settings.Migrate) (root : String) (w : World) : String → Prop where
  | settings {e : Magento.AliasError} (h : Migrator.ofSettings settings = .error e) :
    CannotBegin settings root w ("invalid [migrate] configuration: " ++ e.message)
  | root {e : FileError} (h : w.survey root = .error e) :
    CannotBegin settings root w (root ++ " does not exist or is not a directory")
  | folder {found : Survey} {path : List String} {e : FileError} (h : w.survey root = .ok found)
    (hclosed : closedFolder? found = some (path, e)) : CannotBegin settings root w (walkFailure root path e)

/-- **A batch touches what it reports.** Either it cannot begin, and then nothing changes; or every file has the status
that what it holds asks for, and the files that change are those reported as converted and those to which a write broke
off. A dry run changes nothing and reports the same exactly if no write fails. -/
theorem migrateBatch_touches_reported {w : World} (hw : w.root.isTidy = true) (settings : Settings.Migrate)
    (root : String) :
    (∃ reason, CannotBegin settings root w reason
        ∧ ∀ dryRun json, (migrateBatch settings root dryRun : StateM World _).run w = (.error reason, w)
          ∧ (runMigrate settings root dryRun json : StateM World Output).run w = (.failed "" reason, w))
      ∨ ∃ migrator found w' report preview, Migrator.ofSettings settings = .ok migrator ∧ w.survey root = .ok found
        ∧ closedFolder? found = none
        ∧ (migrateBatch settings root false : StateM World _).run w = (.ok report, w')
        ∧ (migrateBatch settings root true : StateM World _).run w = (.ok preview, w)
        ∧ report = ⟨root, false, (filesToMigrate settings root found).map fun f =>
            ⟨reportName f.2, (outcome migrator false f.1 (reportName f.2) (w.fileAt f.1)).1⟩⟩
        ∧ TouchesReported migrator (filesToMigrate settings root found) w w'
        ∧ report.SumsUp ∧ preview.SumsUp
        ∧ (∀ json, ((runMigrate settings root false json : StateM World Output).run w).1.exit = report.exitCode
            ∧ ((runMigrate settings root true json : StateM World Output).run w).1.exit = preview.exitCode)
        ∧ (∀ f ∈ filesToMigrate settings root found, WriteFails migrator w f → ∃ report e,
            statusOf migrator true w f = .converted report ∧ statusOf migrator false w f = writeFailure f.1 e)
        ∧ (preview = { report with dryRun := true }
            ↔ ∀ f ∈ filesToMigrate settings root found, ¬WriteFails migrator w f) := by
  have hbatch := fun dryRun => migrateBatch_run settings root dryRun w
  have hcommand := fun dryRun json => runMigrate_run settings root dryRun json w
  -- what keeps a batch from beginning does not depend on the kind of run
  have href : ∀ reason, (∀ dryRun, (migrateBatch settings root dryRun : StateM World _).run w = (.error reason, w)) →
      ∀ dryRun json, (migrateBatch settings root dryRun : StateM World _).run w = (.error reason, w)
        ∧ (runMigrate settings root dryRun json : StateM World Output).run w = (.failed "" reason, w) := by
    intro reason h dryRun json
    refine ⟨h dryRun, ?_⟩
    rw [hcommand, h dryRun]
  cases hmgr : Migrator.ofSettings settings with
  | error e =>
    simp only [hmgr] at hbatch
    exact .inl ⟨_, .settings hmgr, href _ hbatch⟩
  | ok migrator =>
    simp only [hmgr] at hbatch
    cases hfound : w.survey root with
    | error e =>
      simp only [hfound] at hbatch
      exact .inl ⟨_, .root hfound, href _ hbatch⟩
    | ok found =>
      simp only [hfound] at hbatch
      cases hclosed : closedFolder? found with
      | some closed =>
        simp only [hclosed] at hbatch
        exact .inl ⟨_, .folder hfound hclosed, href _ hbatch⟩
      | none =>
        simp only [hclosed] at hbatch
        right
        have hapart := filesToMigrate_apart hw hfound settings
        obtain ⟨w', hrun, htouches⟩ := migrateEach_touches_reported migrator hapart
        have hwet := hbatch false
        have hdry := hbatch true
        rw [hrun] at hwet
        rw [migrateEach_dry] at hdry
        refine ⟨migrator, found, w', _, _, rfl, rfl, hclosed, hwet, hdry, rfl, htouches, BatchReport.sumsUp _,
          BatchReport.sumsUp _, ?_, fun f _ hfails => hfails.statuses, ?_⟩
        · intro json
          rw [hcommand, hcommand, hwet, hdry]
          exact ⟨rfl, rfl⟩
        · simp only [BatchReport.mk.injEq, true_and, ← statusOf_dry_iff]
          rw [List.map_inj_left]
          simp only [FileResult.mk.injEq, true_and]

def throwsInClass : String := "<?php class A\x7bfunction f()\x7bMage::throwException(1);\x7d\x7d"

def throwsNew : String :=
  "<?php class A\x7bfunction f()\x7bthrow new \\Magento\\Framework\\Exception\\LocalizedException(__(1));\x7d\x7d"

/-- A shop with one class to convert, in a file with so much room, and one file that is none of its business. -/
def smallShop (room? : Option Nat) : World where
  root := .folder [("shop", .folder [("A.php", .file { text? := some throwsInClass, room? }),
    ("notes.txt", .file { text? := some "Mage::log(1);" })])]
  place := []

theorem smallShop_converts (room? : Option Nat) : ∃ tokens report, tokens.render = throwsNew
    ∧ Converts defaultMigrator (smallShop room?) ("shop/A.php", "A.php") { text? := some throwsInClass, room? } tokens
        report := by
  have hrun : convertsTo (fun out _ => out.render == throwsNew)
      (defaultMigrator.migrate (reportName "A.php") (.ofSource throwsInClass)) = true := by
    rw [migrate_eq, show TokenStream.ofSource throwsInClass = .ofTokens _ from ofSource_ofList _]
    decide +kernel
  obtain ⟨tokens, report, hmig, hrender⟩ := of_convertsTo hrun
  rw [beq_iff_eq] at hrender
  have hfile : (smallShop room?).fileAt "shop/A.php" = .ok { text? := some throwsInClass, room? } := by cbv
  refine ⟨tokens, report, hrender, hfile, _, rfl, ?_, hmig⟩
  rw [hrender]
  decide

theorem smallShop_survey (room? : Option Nat) : ∃ found, (smallShop room?).survey "shop" = .ok found
    ∧ closedFolder? found = none ∧ filesToMigrate {} "shop" found = [("shop/A.php", "A.php")] :=
  ⟨.folder [("A.php", .file .file), ("notes.txt", .file .file)], by cbv, by decide +kernel, by decide +kernel⟩

theorem reportName_class : reportName "A.php" = "A.php" := by decide +kernel

theorem migrateBatch_touches_reported_smallShop :
    (smallShop none).root.isTidy = true ∧ ∃ report w',
      (migrateBatch {} "shop" false : StateM World _).run (smallShop none)
          = (.ok ⟨"shop", false, [⟨"A.php", .converted report⟩]⟩, w')
        ∧ (migrateBatch {} "shop" true : StateM World _).run (smallShop none)
          = (.ok ⟨"shop", true, [⟨"A.php", .converted report⟩]⟩, smallShop none)
        ∧ w'.readText "shop/A.php" = .ok throwsNew := by
  have htidy : (smallShop none).root.isTidy := by decide +kernel
  obtain ⟨tokens, report, hrender, hconverts⟩ := smallShop_converts none
  obtain ⟨found, hfound, hclosed, hfiles⟩ := smallShop_survey none
  have hmgr : Migrator.ofSettings {} = .ok defaultMigrator := rfl
  refine ⟨htidy, report, ?_⟩
  rcases migrateBatch_touches_reported htidy {} "shop" with
    ⟨_, hcannot, -⟩ | ⟨_, _, w', _, _, hm, hf, -, hwet, hdry, rfl, htouches, -, -, -, -, hsame⟩
  · -- nothing keeps it from beginning
    cases hcannot with
    | settings h => cases hmgr.symm.trans h
    | root h => cases hfound.symm.trans h
    | folder h h' =>
      cases hfound.symm.trans h
      cases hclosed.symm.trans h'
  · cases hmgr.symm.trans hm
    cases hfound.symm.trans hf
    rw [hfiles] at hwet htouches hsame
    have hstatus : statusOf defaultMigrator false (smallShop none) ("shop/A.php", "A.php") = .converted report := by
      rw [statusOf, hconverts.outcome_eq]
      rfl
    have hwrites : ∀ f ∈ [("shop/A.php", "A.php")], ¬WriteFails defaultMigrator (smallShop none) f := by
      intro f hmem hfails
      cases mem_singleton.mp hmem
      obtain ⟨report, e, -, hfailed⟩ := hfails.statuses
      cases hstatus.symm.trans hfailed
    rw [hsame.mpr hwrites] at hdry
    rw [map_singleton] at hwet hdry
    change (outcome _ _ _ _ _).1 = _ at hstatus
    rw [hstatus, reportName_class] at hwet hdry
    obtain ⟨text, tokens', htext, -, hmig, hafter⟩ := htouches.converted _ mem_cons_self report hstatus
    obtain ⟨hfile, _, hread, -, hmigrate'⟩ := hconverts
    rw [World.readText_eq, hfile] at htext
    cases hread.symm.trans htext
    cases hmig.symm.trans hmigrate'
    exact ⟨w', hwet, hdry, hafter.trans (congrArg _ hrender)⟩

/-- So many folders inside each other, with names as long as can be. -/
def nested : Nat → Node FileData
  | 0 => .folder []
  | n + 1 => .folder [(String.ofList (replicate nameLimit 'a'), nested n)]

def withFolder (w : World) (folder : Node FileData) : World := { w with root := w.root.put ["shop", "b"] folder }

/-- **What a batch does not do.** A write that runs out of room is not foretold by a dry run, and the file is left with a
part of its new text; and a folder that cannot be listed keeps the files beside it from being migrated. -/
theorem migrateBatch_breaks_off : ∃ report w',
    (migrateBatch {} "shop" true : StateM World _).run (smallShop (some 9))
        = (.ok ⟨"shop", true, [⟨"A.php", .converted report⟩]⟩, smallShop (some 9))
      ∧ (migrateBatch {} "shop" false : StateM World _).run (smallShop (some 9))
        = (.ok ⟨"shop", false, [⟨"A.php", writeFailure "shop/A.php" .full⟩]⟩, w')
      ∧ w'.readText "shop/A.php" = .ok "<?php cla"
      ∧ ∀ dryRun, ∃ reason, ((migrateBatch {} "shop" dryRun : StateM World _).run
          (withFolder (smallShop none) (nested 16))).1 = .error reason := by
  obtain ⟨tokens, report, hrender, hconverts⟩ := smallShop_converts (some 9)
  obtain ⟨found, hfound, hclosed, hfiles⟩ := smallShop_survey (some 9)
  have hapart : Apart (smallShop (some 9)) [("shop/A.php", "A.php")] := pairwise_singleton _ _
  obtain ⟨w', hwet, htouches⟩ := migrateEach_touches_reported defaultMigrator hapart
  have hfull : (FileData.mk (some throwsInClass) false (some 9)).hasRoom tokens.render = false := by
    rw [hrender]
    decide +kernel
  obtain ⟨hfailed, hafter⟩ := htouches.brokenOff _ mem_cons_self _ _ _ hconverts rfl hfull
  have hpreview : statusOf defaultMigrator true (smallShop (some 9)) ("shop/A.php", "A.php") = .converted report := by
    rw [statusOf, hconverts.outcome_eq]
    rfl
  have hbatch := fun dryRun => migrateBatch_run {} "shop" dryRun (smallShop (some 9))
  simp only [show Migrator.ofSettings {} = .ok defaultMigrator from rfl, hfound, hclosed, hfiles] at hbatch
  refine ⟨report, w', ?_, ?_, ?_, ?_⟩
  · rw [hbatch, migrateEach_dry, map_singleton, hpreview, reportName_class]
  · rw [hbatch, hwet, map_singleton, hfailed, reportName_class]
  · rw [World.readText_eq, hafter, hrender]
    cbv
  · intro dryRun
    have hfound : ∀ folder, World.survey (withFolder (smallShop none) folder) "shop" = .ok (.folder
        [("A.php", .file .file), ("b", folder.survey 7), ("notes.txt", .file .file)]) := by
      intro folder
      cbv
    obtain ⟨⟨path, e⟩, hclosed⟩ := Option.isSome_iff_exists.mp (show (closedFolder? (.folder
        [("A.php", .file .file), ("b", (nested 16).survey 7), ("notes.txt", .file .file)])).isSome
          = true by decide +kernel)
    rw [migrateBatch_run]
    simp only [show Migrator.ofSettings {} = .ok defaultMigrator from rfl, hfound, hclosed]
    exact ⟨_, rfl⟩

end MageUplift.CommandLine
