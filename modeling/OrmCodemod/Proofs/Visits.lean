import OrmCodemod.Proofs.Extraction
import OrmCodemod.Proofs.FileTree

/-! A migration visits one file after the other. What comes of a file depends on its own bytes alone, so
that the visit of one file has no part in the visit of another, and a dry run reports what a real run
does. -/

namespace OrmCodemod

open Text Schema

/-- What a pass over a file comes to. -/
def FileResult.of : Except Fault Outcome → FileResult
  | .ok outcome => .done outcome
  | .error (.pattern e) => .fatal e
  | .error fault => .failed fault.message

def FileResult.ofText (settings : Settings) (file : Path) : Except String String → FileResult
  | .error message => .failed message
  | .ok source =>
    match Dialect.ofPath file with
    | .error e => .failed e.message
    | .ok dialect => .of (Outcome.ofSource dialect settings source (some file.toString)).1

theorem transformFile_fst (d : Disk) (folder : List String) (settings : Settings) (file : Path) :
    (transformFile d folder settings file).1 = .ofText settings file (readText d folder file) := by
  unfold transformFile FileResult.ofText
  cases readText d folder file with
  | error message => rfl
  | ok source =>
    dsimp only
    cases Dialect.ofPath file with
    | error e => rfl
    | ok dialect =>
      dsimp only
      rcases Outcome.ofSource dialect settings source (some file.toString) with ⟨fault | outcome, said⟩
      · cases fault <;> rfl
      · rfl

def textOf (bytes : Bytes) : Except String String :=
  match decodeChars bytes with
  | .ok chars => .ok (String.ofList (unifyNewlines chars))
  | .error e => .error e.message

def resultOf (settings : Settings) (file : Path) (bytes : Bytes) : FileResult :=
  .ofText settings file (textOf bytes)

def Disk.bytesAt (d : Disk) (folder : List String) (file : Path) : Bytes :=
  ((d.locate folder file).bind d.content?).getD []

def Disk.resultAt (d : Disk) (folder : List String) (settings : Settings) (file : Path) : FileResult :=
  resultOf settings file (d.bytesAt folder file)

theorem transformFile_eq {d : Disk} {folder : List String} {settings : Settings} {file : Path}
    {place : List String} {bytes : Bytes} (hplace : d.locate folder file = some place) (hbytes : d.content? place = some bytes) :
    (transformFile d folder settings file).1 = resultOf settings file bytes := by
  rw [transformFile_fst, resultOf, readText, hplace, Option.bind_some, hbytes]
  rfl

/-- Where the pattern of the settings can be read, every file is done or failed. -/
theorem FileResult.ofText_ends {settings : Settings} {members : Pattern.Regex}
    (hm : Pattern.parse settings.memberPattern = .ok members) (file : Path)
    (text : Except String String) (e : Pattern.PatternError) :
    ofText settings file text ≠ .fatal e := by
  unfold ofText
  cases text with
  | error _ => exact nofun
  | ok source =>
    dsimp only
    cases Dialect.ofPath file with
    | error _ => exact nofun
    | ok dialect =>
      dsimp only
      cases hrun : (Outcome.ofSource dialect settings source (some file.toString)).1 with
      | ok outcome => exact nofun
      | error fault =>
        rcases Outcome.ofParsed_fault hm hrun with ⟨o, rfl⟩ | ⟨d, rfl⟩ <;> exact nofun

theorem FileResult.ofText_undone {settings : Settings} {e : Pattern.PatternError}
    (he : Pattern.parse settings.memberPattern = .error e) (file : Path)
    (text : Except String String) (o : Outcome) : ofText settings file text ≠ .done o := by
  unfold ofText
  cases text with
  | error _ => exact nofun
  | ok source =>
    dsimp only
    cases Dialect.ofPath file with
    | error _ => exact nofun
    | ok dialect =>
      dsimp only
      cases hrun : (Outcome.ofSource dialect settings source (some file.toString)).1 with
      | error fault => cases fault <;> exact nofun
      | ok outcome =>
        obtain ⟨members, hm⟩ := Outcome.ofParsed_pattern hrun
        rw [he] at hm
        cases hm

namespace FileResult

def output? : FileResult → Option String
  | .done outcome => if outcome.changed then some outcome.output else none
  | _ => none

def failure? : FileResult → Option String
  | .failed message => some message
  | _ => none

def left (r : FileResult) (bytes : Bytes) : Bytes := (r.output?.map encode).getD bytes

end FileResult

def Report.note (report : Report) (file : Path) (r : FileResult) : Report :=
  { report with
    scanned := report.scanned + 1
    changed := report.changed ++ (r.output?.map fun _ => file.toString).toList
    failures := match r.failure? with
      | some message => Settings.putPair file.toString message report.failures
      | none => report.failures }

def Schema.Collection.note (c : Collection) (file : Path) : FileResult → Collection
  | .done o => (c.add o.models o.enums (some file.toString)).1
  | _ => c

def Disk.note (d : Disk) (folder : List String) (file : Path) (r : FileResult) : Disk :=
  match r.output?, d.locate folder file with
  | some output, some place => d.put place (encode output)
  | _, _ => d

namespace Disk

variable {d : Disk} {file : Path} {folder place : List String} {bytes : Bytes}

theorem bytesAt_eq (hplace : d.locate folder file = some place) (hbytes : d.content? place = some bytes) :
    d.bytesAt folder file = bytes := by
  simp [bytesAt, hplace, hbytes]

/-- A visit rewrites the file it is of and leaves the rest of the tree as it is. -/
theorem note_spec (r : FileResult) (hplace : d.locate folder file = some place)
    (hbytes : d.content? place = some bytes) :
    SameShape d (d.note folder file r) ∧ (d.note folder file r).content? place = some (r.left bytes) ∧
      ∀ other, other ≠ place → (d.note folder file r).content? other = d.content? other := by
  have hfile : d.isFile place = true := Option.isSome_iff_exists.2 ⟨bytes, hbytes⟩
  unfold note FileResult.left
  rw [hplace]
  cases r.output? with
  | none => exact ⟨.refl d, hbytes, fun _ _ => rfl⟩
  | some output =>
    exact ⟨put_sameShape hfile _, content?_put d place _, fun _ h => content?_put_other d _ h⟩

end Disk

namespace Report

variable (result : Path → FileResult)

def notes (r : Report) (files : List Path) : Report := files.foldl (fun r f => r.note f (result f)) r

theorem notes_scanned (files : List Path) :
    ∀ r : Report, (r.notes result files).scanned = r.scanned + files.length := by
  induction files with
  | nil => exact fun r => rfl
  | cons file rest ih =>
    intro r
    rw [notes, List.foldl_cons, ← notes, ih]
    simp only [note, List.length_cons]
    omega

theorem notes_changed (files : List Path) : ∀ r : Report, (r.notes result files).changed =
    r.changed ++ (files.filter fun f => (result f).output?.isSome).map Path.toString := by
  induction files with
  | nil => exact fun r => (List.append_nil _).symm
  | cons file rest ih =>
    intro r
    rw [notes, List.foldl_cons, ← notes, ih]
    cases houtput : (result file).output? <;> simp [note, houtput]

theorem putPair_fresh {key : String} (value : String) {pairs : List (String × String)}
    (h : key ∉ pairs.map Prod.fst) : Settings.putPair key value pairs = pairs ++ [(key, value)] := by
  induction pairs with
  | nil => rfl
  | cons pair rest ih =>
    obtain ⟨hne, hrest⟩ : key ≠ pair.1 ∧ key ∉ rest.map Prod.fst := by simpa using h
    rw [Settings.putPair, if_neg (by simpa using hne.symm), ih hrest, List.cons_append]

theorem notes_failures (files : List Path) : ∀ r : Report, (files.map Path.toString).Nodup →
    (∀ f ∈ files, f.toString ∉ r.failures.map Prod.fst) →
    (r.notes result files).failures = r.failures ++
      files.filterMap fun f => (result f).failure?.map fun message => (f.toString, message) := by
  induction files with
  | nil => exact fun r _ _ => (List.append_nil _).symm
  | cons file rest ih =>
    intro r hnodup hfresh
    obtain ⟨hnew, hnodup⟩ := List.nodup_cons.1 (List.map_cons ▸ hnodup)
    rw [notes, List.foldl_cons, ← notes]
    have hothers : ∀ f ∈ rest, f.toString ≠ file.toString := fun f hf he =>
      hnew (he ▸ List.mem_map_of_mem hf)
    have hknown : ∀ f ∈ rest, f.toString ∉ r.failures.map Prod.fst := fun f hf =>
      hfresh f (List.mem_cons_of_mem _ hf)
    cases hfailure : (result file).failure? with
    | none =>
      rw [ih _ hnodup (by simpa [note, hfailure] using hknown)]
      simp [note, hfailure]
    | some message =>
      have hput : (r.note file (result file)).failures = r.failures ++ [(file.toString, message)] := by
        simp only [note, hfailure]
        exact putPair_fresh message (hfresh file List.mem_cons_self)
      rw [ih _ hnodup (fun f hf => by rw [hput]; simpa using ⟨by simpa using hknown f hf, hothers f hf⟩),
        hput]
      simp [hfailure]

end Report

def Schema.Collection.notes (result : Path → FileResult) (c : Collection) (files : List Path) :
    Collection :=
  files.foldl (fun c f => c.note f (result f)) c

namespace Migration

variable {folder : List String} {settings : Settings} {dryRun : Bool} {m : Migration} {file : Path}

theorem step_ok (dryRun : Bool) {r : FileResult} (hr : (transformFile m.disk folder settings file).1 = r)
    (hends : ∀ e, r ≠ .fatal e) : ∃ m', m.step folder settings dryRun file = .ok m' ∧
      m'.report = m.report.note file r ∧ m'.collection = m.collection.note file r ∧
      m'.disk = if dryRun then m.disk else m.disk.note folder file r := by
  unfold step
  rcases htransform : transformFile m.disk folder settings file with ⟨result, said⟩
  obtain rfl : result = r := by rw [← hr, htransform]
  cases result with
  | fatal e => exact absurd rfl (hends e)
  | failed message =>
    refine ⟨_, rfl, ?_, rfl, ?_⟩
    · simp [Report.note, FileResult.output?, FileResult.failure?, say]
    · cases dryRun <;> rfl
  | done o =>
    cases hchanged : o.changed with
    | false =>
      simp only [hchanged]
      refine ⟨_, rfl, ?_, rfl, ?_⟩
      · simp [Report.note, FileResult.output?, FileResult.failure?, hchanged]
      · cases dryRun <;> simp [Disk.note, FileResult.output?, hchanged]
    | true =>
      simp only [hchanged]
      refine ⟨_, rfl, ?_, rfl, ?_⟩
      · simp [Report.note, FileResult.output?, FileResult.failure?, hchanged, say]
      · cases dryRun <;> cases hplace : m.disk.locate folder file <;>
          simp [Disk.note, FileResult.output?, hchanged, say, hplace]

/-- Between two visits: the tree has its first shape, and what is still to be visited is as it was. -/
structure Ahead (disk : Disk) (folder : List String) (files : List Path) (d : Disk) : Prop where
  shape : disk.SameShape d
  fresh : ∀ f ∈ files, ∀ place, disk.locate folder f = some place → d.content? place = disk.content? place

/-- What the visits of some files leave: the report and the collection of their results, each file with
what came of its own bytes, and the rest of the tree. -/
structure Visited (disk : Disk) (folder : List String) (settings : Settings) (dryRun : Bool)
    (files : List Path) (m m' : Migration) : Prop where
  report : m'.report = m.report.notes (disk.resultAt folder settings) files
  collection : m'.collection = m.collection.notes (disk.resultAt folder settings) files
  shape : disk.SameShape m'.disk
  visited : ∀ f ∈ files, ∀ place, disk.locate folder f = some place → m'.disk.content? place =
    some (if dryRun then disk.bytesAt folder f else (disk.resultAt folder settings f).left (disk.bytesAt folder f))
  others : ∀ place, (∀ f ∈ files, disk.locate folder f ≠ some place) →
    m'.disk.content? place = m.disk.content? place

variable {disk : Disk} {members : Pattern.Regex}

theorem step_visits (dryRun : Bool) (hm : Pattern.parse settings.memberPattern = .ok members)
    {rest : List Path} (hahead : Ahead disk folder (file :: rest) m.disk) (hreached : Reached disk folder file)
    (hother : ∀ f ∈ rest, disk.locate folder f ≠ disk.locate folder file) :
    ∃ m', m.step folder settings dryRun file = .ok m' ∧ Visited disk folder settings dryRun [file] m m' ∧
      Ahead disk folder rest m'.disk := by
  obtain ⟨place, hplace, hfile⟩ := hreached.found
  obtain ⟨bytes, hbytes⟩ := Disk.exists_content hfile
  have hplace' : m.disk.locate folder file = some place := (hahead.shape.locate file).trans hplace
  have hbytes' : m.disk.content? place = some bytes :=
    (hahead.fresh file List.mem_cons_self place hplace).trans hbytes
  have hbytesAt : disk.bytesAt folder file = bytes := Disk.bytesAt_eq hplace hbytes
  have hresult : (transformFile m.disk folder settings file).1 = disk.resultAt folder settings file := by
    rw [transformFile_eq hplace' hbytes', Disk.resultAt, hbytesAt]
  obtain ⟨m', hstep, hreport, hcollection, hdisk⟩ :=
    step_ok dryRun hresult fun e => FileResult.ofText_ends hm file _ e
  obtain ⟨hshape, hat, helse⟩ : m.disk.SameShape m'.disk ∧
      m'.disk.content? place = some (if dryRun then bytes else
        (disk.resultAt folder settings file).left bytes) ∧
      ∀ other, other ≠ place → m'.disk.content? other = m.disk.content? other := by
    rw [hdisk]
    cases dryRun with
    | true => exact ⟨.refl _, hbytes', fun _ _ => rfl⟩
    | false => exact Disk.note_spec _ hplace' hbytes'
  refine ⟨m', hstep, ⟨hreport, hcollection, hahead.shape.trans hshape, ?_, ?_⟩,
    hahead.shape.trans hshape, ?_⟩
  · intro f hf other hfound
    obtain rfl := List.mem_singleton.1 hf
    obtain rfl : place = other := Option.some.inj (hplace.symm.trans hfound)
    rw [hbytesAt]
    exact hat
  · intro other hnot
    exact helse other fun he => hnot file List.mem_cons_self (he ▸ hplace)
  · intro f hf other hfound
    have hne : other ≠ place := by
      rintro rfl
      exact hother f hf (hfound.trans hplace.symm)
    rw [helse other hne]
    exact hahead.fresh f (List.mem_cons_of_mem _ hf) other hfound

theorem steps_visit (dryRun : Bool) (hm : Pattern.parse settings.memberPattern = .ok members)
    (files : List Path) :
    ∀ m : Migration, Ahead disk folder files m.disk → (∀ f ∈ files, Reached disk folder f) →
      (files.map (disk.locate folder)).Nodup →
      ∃ m', m.steps folder settings dryRun files = .ok m' ∧ Visited disk folder settings dryRun files m m' := by
  induction files with
  | nil =>
    intro m hahead _ _
    exact ⟨m, rfl, rfl, rfl, hahead.shape, nofun, fun _ _ => rfl⟩
  | cons file rest ih =>
    intro m hahead hreached hdistinct
    obtain ⟨hnew, hdistinct⟩ := List.nodup_cons.1 (List.map_cons ▸ hdistinct)
    have hother : ∀ f ∈ rest, disk.locate folder f ≠ disk.locate folder file := fun f hf he =>
      hnew (he ▸ List.mem_map_of_mem hf)
    obtain ⟨m1, hstep, hfirst, hahead1⟩ :=
      step_visits dryRun hm hahead (hreached file List.mem_cons_self) hother
    obtain ⟨m2, hsteps, hlater⟩ :=
      ih m1 hahead1 (fun f hf => hreached f (List.mem_cons_of_mem _ hf)) hdistinct
    refine ⟨m2, by rw [steps, hstep]; exact hsteps, ?_, ?_, hlater.shape, ?_, ?_⟩
    · rw [hlater.report, hfirst.report]
      rfl
    · rw [hlater.collection, hfirst.collection]
      rfl
    · intro f hf place hplace
      rcases List.mem_cons.1 hf with rfl | hf
      · rw [hlater.others place fun g hg he => hother g hg (he.trans hplace.symm)]
        exact hfirst.visited f List.mem_cons_self place hplace
      · exact hlater.visited f hf place hplace
    · intro place hnot
      rw [hlater.others place fun g hg => hnot g (List.mem_cons_of_mem _ hg)]
      exact hfirst.others place fun g hg => hnot g (List.mem_singleton.1 hg ▸ List.mem_cons_self)

def first (disk : Disk) (settings : Settings) : Migration :=
  { disk, collection := { provider := settings.provider } }

def listed (m : Migration) : Migration :=
  { m with report := { m.report with models := m.collection.modelNames } }

theorem run_eq (disk : Disk) (paths : List Path) (settings : Settings) (dryRun : Bool)
    (schemaOut : Option Path) (folder : List String) : run disk paths settings dryRun schemaOut folder =
      match (first disk settings).steps folder settings dryRun (sourceFiles disk paths folder) with
      | .error failure => .error failure
      | .ok m =>
        match schemaOut with
        | none => .ok m.listed
        | some target => m.listed.writeSchema folder target :=
  rfl

theorem writeSchema_none {target : Path} (h : m.collection.render = none) :
    m.writeSchema folder target = .ok m := by
  rw [writeSchema, h]

theorem writeSchema_some {target : Path} {document : String} {place : List String}
    (h : m.collection.render = some document) (hplace : m.disk.landing folder target = .ok place) :
    ∃ m', m.writeSchema folder target = .ok m' ∧ m'.disk = m.disk.put place (encode document) ∧
      m'.report = { m.report with schemaPath := some target.toString } := by
  rw [writeSchema, h]
  dsimp only
  rw [Disk.writeNew_eq, hplace]
  exact ⟨_, rfl, rfl, rfl⟩

def collected (disk : Disk) (folder : List String) (settings : Settings) (files : List Path) :
    Collection :=
  Collection.notes (disk.resultAt folder settings) { provider := settings.provider } files

def reported (disk : Disk) (folder : List String) (settings : Settings) (files : List Path)
    (schemaOut : Option Path) : Report :=
  { Report.notes (disk.resultAt folder settings) {} files with
    models := (collected disk folder settings files).modelNames
    schemaPath := (collected disk folder settings files).render.bind fun _ => schemaOut.map Path.toString }

theorem notes_schemaPath (result : Path → FileResult) (files : List Path) :
    ∀ r : Report, (r.notes result files).schemaPath = r.schemaPath := by
  induction files with
  | nil => exact fun r => rfl
  | cons file rest ih => exact fun r => ih _

variable {paths : List Path} {schemaOut : Option Path}

theorem Visited.run_ok {visited : Migration}
    (hsteps : (first disk settings).steps folder settings dryRun (sourceFiles disk paths folder) = .ok visited)
    (h : Visited disk folder settings dryRun (sourceFiles disk paths folder) (first disk settings) visited)
    (hwritable : ∀ target ∈ schemaOut, ∃ place, disk.landing folder target = .ok place) :
    ∃ m, run disk paths settings dryRun schemaOut folder = .ok m ∧
      m.report = reported disk folder settings (sourceFiles disk paths folder) schemaOut ∧
      ∀ place, (∀ target ∈ schemaOut, disk.landing folder target ≠ .ok place) →
        m.disk.content? place = visited.disk.content? place := by
  have hcollection : visited.collection = collected disk folder settings (sourceFiles disk paths folder) :=
    h.collection
  have hreport : visited.report = Report.notes (disk.resultAt folder settings) {} (sourceFiles disk paths folder) :=
    h.report
  have hnone := notes_schemaPath (disk.resultAt folder settings) (sourceFiles disk paths folder) {}
  have hlisted : visited.listed.report =
      { reported disk folder settings (sourceFiles disk paths folder) schemaOut with schemaPath := none } := by
    simp only [listed, reported, hcollection, hreport, hnone]
  rw [run_eq, hsteps]
  cases schemaOut with
  | none =>
    refine ⟨_, rfl, ?_, fun _ _ => rfl⟩
    simp only [hlisted, reported, Option.map_none, Option.bind_fun_none]
  | some target =>
    cases hrender : visited.collection.render with
    | none =>
      refine ⟨_, writeSchema_none hrender, ?_, fun _ _ => rfl⟩
      simp only [hlisted, reported, ← hcollection, hrender, Option.bind_none]
    | some document =>
      obtain ⟨place, hplace⟩ := hwritable target rfl
      obtain ⟨m, hwrite, hdisk, hreport'⟩ := writeSchema_some (m := visited.listed) hrender
        ((h.shape.landing target).trans hplace)
      refine ⟨m, hwrite, ?_, fun other hother => ?_⟩
      · simp only [hreport', hlisted, reported, ← hcollection, hrender, Option.bind_some, Option.map_some]
      · rw [hdisk]
        refine Disk.content?_put_other _ _ fun he => hother target rfl ?_
        rw [hplace, he]

/-- A migration over files in places of their own comes to its end. But for the schema it leaves what its
visits leave. -/
theorem run_visits (hm : Pattern.parse settings.memberPattern = .ok members)
    (hreached : ∀ f ∈ sourceFiles disk paths folder, Reached disk folder f)
    (hdistinct : ((sourceFiles disk paths folder).map (disk.locate folder)).Nodup)
    (hwritable : ∀ target ∈ schemaOut, ∃ place, disk.landing folder target = .ok place) (dryRun : Bool) :
    ∃ visited m, Visited disk folder settings dryRun (sourceFiles disk paths folder) (first disk settings) visited ∧
      run disk paths settings dryRun schemaOut folder = .ok m ∧
      m.report = reported disk folder settings (sourceFiles disk paths folder) schemaOut ∧
      ∀ place, (∀ target ∈ schemaOut, disk.landing folder target ≠ .ok place) →
        m.disk.content? place = visited.disk.content? place := by
  obtain ⟨visited, hsteps, hvisited⟩ := steps_visit dryRun hm (sourceFiles disk paths folder)
    (first disk settings) ⟨.refl disk, fun _ _ _ _ => rfl⟩ hreached hdistinct
  obtain ⟨m, hrun, hreport, hcontent⟩ := hvisited.run_ok hsteps hwritable
  exact ⟨visited, m, hvisited, hrun, hreport, hcontent⟩

theorem Visited.kept {files : List Path} {visited : Migration}
    (h : Visited disk folder settings true files (first disk settings) visited)
    (hreached : ∀ f ∈ files, Reached disk folder f) (place : List String) :
    visited.disk.content? place = disk.content? place := by
  by_cases hplace : ∃ file ∈ files, disk.locate folder file = some place
  · obtain ⟨file, hfile, hplace⟩ := hplace
    obtain ⟨place', hplace', hisFile⟩ := (hreached file hfile).found
    obtain rfl : place' = place := Option.some.inj (hplace'.symm.trans hplace)
    obtain ⟨bytes, hbytes⟩ := Disk.exists_content hisFile
    rw [h.visited file hfile place' hplace, if_pos rfl, hbytes, Disk.bytesAt_eq hplace hbytes]
  · exact h.others place fun file hfile heq => hplace ⟨file, hfile, heq⟩

def reach : Except (Migration × MigrationError) Migration → Migration
  | .ok m => m
  | .error (m, _) => m

theorem step_undone (folder : List String) {e : Pattern.PatternError}
    (he : Pattern.parse settings.memberPattern = .error e) (dryRun : Bool) (m : Migration)
    (file : Path) : (reach (m.step folder settings dryRun file)).disk = m.disk ∧
      (reach (m.step folder settings dryRun file)).collection = m.collection := by
  unfold step
  rcases htransform : transformFile m.disk folder settings file with ⟨result, said⟩
  cases result with
  | fatal e => exact ⟨rfl, rfl⟩
  | failed message => exact ⟨rfl, rfl⟩
  | done o =>
    refine absurd ?_ (FileResult.ofText_undone he file (readText m.disk folder file) o)
    rw [← transformFile_fst, htransform]

theorem steps_undone (folder : List String) {e : Pattern.PatternError}
    (he : Pattern.parse settings.memberPattern = .error e) (dryRun : Bool) (files : List Path) :
    ∀ m : Migration, (reach (m.steps folder settings dryRun files)).disk = m.disk ∧
      (reach (m.steps folder settings dryRun files)).collection = m.collection := by
  induction files with
  | nil => exact fun m => ⟨rfl, rfl⟩
  | cons file rest ih =>
    intro m
    have hstep := step_undone folder he dryRun m file
    rw [steps]
    cases hrun : m.step folder settings dryRun file with
    | error failure =>
      rw [hrun] at hstep
      exact hstep
    | ok m1 =>
      rw [hrun] at hstep
      obtain ⟨hdisk, hcollection⟩ := ih m1
      exact ⟨hdisk.trans hstep.1, hcollection.trans hstep.2⟩

/-- Where the pattern of the settings cannot be read, no file is written, and no schema. -/
theorem run_undone {e : Pattern.PatternError}
    (he : Pattern.parse settings.memberPattern = .error e) (disk : Disk) (paths : List Path)
    (dryRun : Bool) (schemaOut : Option Path) (folder : List String) :
    (reach (run disk paths settings dryRun schemaOut folder)).disk = disk := by
  obtain ⟨hdisk, hcollection⟩ :=
    steps_undone folder he dryRun (sourceFiles disk paths folder) (first disk settings)
  cases hsteps : (first disk settings).steps folder settings dryRun (sourceFiles disk paths folder) with
  | error failure =>
    rw [hsteps] at hdisk
    rw [run_eq, hsteps]
    exact hdisk
  | ok m =>
    rw [hsteps] at hdisk hcollection
    rw [run_eq, hsteps]
    cases schemaOut with
    | none => exact hdisk
    | some target =>
      have hrender : m.listed.collection.render = none := by
        rw [show m.listed.collection = (first disk settings).collection from hcollection]
        rfl
      dsimp only
      rw [writeSchema_none hrender]
      exact hdisk

/-- What a real run and a dry run of one migration come to, file by file. Places are those where the
schema is not written. -/
structure Independent (disk : Disk) (folder : List String) (settings : Settings) (files : List Path)
    (schemaOut : Option Path) (real dry : Migration) : Prop where
  /-- A file that is reached holds what came of its own bytes. -/
  reached : ∀ file ∈ files, ∃ place, disk.locate folder file = some place ∧
    disk.content? place = some (disk.bytesAt folder file) ∧
    ((∀ target ∈ schemaOut, disk.landing folder target ≠ .ok place) → real.disk.content? place =
      some ((resultOf settings file (disk.bytesAt folder file)).left (disk.bytesAt folder file)))
  /-- Every other file is as it was. -/
  others : ∀ place, (∀ file ∈ files, disk.locate folder file ≠ some place) →
    (∀ target ∈ schemaOut, disk.landing folder target ≠ .ok place) →
    real.disk.content? place = disk.content? place
  /-- A dry run leaves every file as it was. -/
  kept : ∀ place, (∀ target ∈ schemaOut, disk.landing folder target ≠ .ok place) →
    dry.disk.content? place = disk.content? place
  report : dry.report = real.report
  scanned : real.report.scanned = files.length
  /-- The files that have changed, in the order of their visits. -/
  changed : real.report.changed = (files.filter fun file =>
    (resultOf settings file (disk.bytesAt folder file)).output?.isSome).map Path.toString
  /-- The files that have failed, each with its own message. -/
  failures : real.report.failures = files.filterMap fun file =>
    (resultOf settings file (disk.bytesAt folder file)).failure?.map fun message => (file.toString, message)
  /-- A file is done and not among the failures, or else it failed and is not among the changed. -/
  either : ∀ file ∈ files,
    (∃ outcome, resultOf settings file (disk.bytesAt folder file) = .done outcome ∧
      file.toString ∉ real.report.failures.map Prod.fst) ∨
    ∃ message, resultOf settings file (disk.bytesAt folder file) = .failed message ∧
      (file.toString, message) ∈ real.report.failures ∧ file.toString ∉ real.report.changed

theorem names_nodup {files : List Path} (hreached : ∀ f ∈ files, Reached disk folder f)
    (hdistinct : (files.map (disk.locate folder)).Nodup) : (files.map Path.toString).Nodup :=
  hdistinct.of_map.map_on fun f hf g hg h => (hreached f hf).toString_inj (hreached g hg) h

/-- A file that is done is listed under no failure, and one that failed under no change, since no other
file has its name. -/
theorem listed_either (hm : Pattern.parse settings.memberPattern = .ok members) {files : List Path}
    (hreached : ∀ f ∈ files, Reached disk folder f) {report : Report}
    (hfailures : report.failures = files.filterMap fun f =>
      (resultOf settings f (disk.bytesAt folder f)).failure?.map fun message => (f.toString, message))
    (hchanged : report.changed = (files.filter fun f =>
      (resultOf settings f (disk.bytesAt folder f)).output?.isSome).map Path.toString)
    (hfile : file ∈ files) :
    (∃ outcome, resultOf settings file (disk.bytesAt folder file) = .done outcome ∧
      file.toString ∉ report.failures.map Prod.fst) ∨
    ∃ message, resultOf settings file (disk.bytesAt folder file) = .failed message ∧
      (file.toString, message) ∈ report.failures ∧ file.toString ∉ report.changed := by
  have hname : ∀ f ∈ files, f.toString = file.toString → f = file := fun f hf h =>
    (hreached f hf).toString_inj (hreached file hfile) h
  cases hresult : resultOf settings file (disk.bytesAt folder file) with
  | fatal e => exact absurd hresult (FileResult.ofText_ends hm file _ e)
  | done outcome =>
    refine .inl ⟨outcome, rfl, fun hmem => ?_⟩
    obtain ⟨pair, hpair, hfst⟩ := List.mem_map.1 hmem
    rw [hfailures] at hpair
    obtain ⟨f, hf, hpair⟩ := List.mem_filterMap.1 hpair
    obtain ⟨message, hmessage, rfl⟩ := Option.map_eq_some_iff.1 hpair
    obtain rfl := hname f hf hfst
    simp [hresult, FileResult.failure?] at hmessage
  | failed message =>
    refine .inr ⟨message, rfl, ?_, fun hmem => ?_⟩
    · rw [hfailures]
      exact List.mem_filterMap.2 ⟨file, hfile, by simp [hresult, FileResult.failure?]⟩
    · rw [hchanged] at hmem
      obtain ⟨f, hf, hfst⟩ := List.mem_map.1 hmem
      obtain ⟨hf, houtput⟩ := List.mem_filter.1 hf
      obtain rfl := hname f hf hfst
      simp [hresult, FileResult.output?] at houtput

/-- A migration handles each file by itself. It leaves every file that is reached, and only those, with
what came of that file's own bytes; a file that fails has no part in any other entry of the report; and
a dry run writes no source file and gives the same report. -/
theorem migration_independent (disk : Disk) (folder : List String) (paths : List Path)
    (settings : Settings) (schemaOut : Option Path) (members : Pattern.Regex)
    (hm : Pattern.parse settings.memberPattern = .ok members) (hdisk : disk.Proper)
    (hpaths : ∀ p ∈ paths, p.Proper)
    (hdistinct : ((sourceFiles disk paths folder).map (disk.locate folder)).Nodup)
    (hwritable : ∀ target ∈ schemaOut, ∃ place, disk.landing folder target = .ok place) :
    ∃ real dry, run disk paths settings false schemaOut folder = .ok real ∧
      run disk paths settings true schemaOut folder = .ok dry ∧
      Independent disk folder settings (sourceFiles disk paths folder) schemaOut real dry := by
  have hreached : ∀ f ∈ sourceFiles disk paths folder, Reached disk folder f :=
    fun f hf => sourceFiles_reached hdisk hpaths hf
  have hrun := run_visits hm hreached hdistinct hwritable
  obtain ⟨visited, real, hvisited, hreal, hreport, hcontent⟩ := hrun false
  obtain ⟨visited', dry, hvisited', hdry, hreport', hcontent'⟩ := hrun true
  set files := sourceFiles disk paths folder
  have hfailures : real.report.failures = files.filterMap fun file =>
      (resultOf settings file (disk.bytesAt folder file)).failure?.map fun message =>
        (file.toString, message) := by
    rw [hreport]
    exact Report.notes_failures _ files {} (names_nodup hreached hdistinct) (by simp)
  have hchanged : real.report.changed = (files.filter fun file =>
      (resultOf settings file (disk.bytesAt folder file)).output?.isSome).map Path.toString := by
    rw [hreport]
    exact Report.notes_changed _ files {}
  refine ⟨real, dry, hreal, hdry, ?_⟩
  constructor
  case reached =>
    intro file hfile
    obtain ⟨place, hplace, hisFile⟩ := (hreached file hfile).found
    obtain ⟨bytes, hbytes⟩ := Disk.exists_content hisFile
    refine ⟨place, hplace, by rw [hbytes, Disk.bytesAt_eq hplace hbytes], fun hnot => ?_⟩
    rw [hcontent place hnot]
    exact hvisited.visited file hfile place hplace
  case others =>
    intro place hplace hnot
    rw [hcontent place hnot]
    exact hvisited.others place hplace
  case kept =>
    intro place hnot
    rw [hcontent' place hnot, hvisited'.kept hreached]
  case report => rw [hreport, hreport']
  case scanned =>
    rw [hreport]
    exact (Report.notes_scanned _ files {}).trans (Nat.zero_add _)
  case changed => exact hchanged
  case failures => exact hfailures
  case either => exact fun file hfile => listed_either hm hreached hfailures hchanged hfile

/-- A folder with a file that has a call to convert, one that is no text and one that is no source, and a
source outside it. -/
def visitedSample : Disk :=
  { entries := [(["w", "a.ts"], some (encode "a.repository.findBy(b)")), (["w", "b.ts"], some [255]),
      (["w", "c.md"], some [65]), (["d.ts"], some (encode "let d;"))] }

def visitedPaths : List Path := [Path.ofString ".", Path.ofString "/d.ts"]

theorem visitedSample_results :
    sourceFiles visitedSample visitedPaths ["w"] =
      [⟨"", ["a.ts"]⟩, ⟨"", ["b.ts"]⟩, ⟨"/", ["d.ts"]⟩] ∧
    ((sourceFiles visitedSample visitedPaths ["w"]).map (visitedSample.locate ["w"])).Nodup ∧
    (resultOf {} ⟨"", ["a.ts"]⟩ (visitedSample.bytesAt ["w"] ⟨"", ["a.ts"]⟩)).output? =
      some "a.prisma.model.findMany(\x7bwhere: b\x7d)" ∧
    (resultOf {} ⟨"", ["b.ts"]⟩ (visitedSample.bytesAt ["w"] ⟨"", ["b.ts"]⟩)).output? = none ∧
    (resultOf {} ⟨"/", ["d.ts"]⟩ (visitedSample.bytesAt ["w"] ⟨"/", ["d.ts"]⟩)).output? = none := by
  decide +kernel

theorem migration_independent_sample : ∃ real dry,
    run visitedSample visitedPaths {} false (some ⟨"/", ["s", "t"]⟩) ["w"] = .ok real ∧
    run visitedSample visitedPaths {} true (some ⟨"/", ["s", "t"]⟩) ["w"] = .ok dry ∧
    dry.report = real.report ∧ real.report.scanned = 3 ∧ real.report.changed = ["a.ts"] ∧
    real.disk.content? ["w", "c.md"] = some [65] := by
  obtain ⟨hfiles, hdistinct, hfirst, hsecond, hthird⟩ := visitedSample_results
  obtain ⟨real, dry, hreal, hdry, h⟩ := migration_independent visitedSample ["w"] visitedPaths {}
    (some ⟨"/", ["s", "t"]⟩) _ Settings.exists_members.choose_spec (by unfold Disk.Proper Path.IsPart; decide)
    (fun p hp => by
      rcases List.mem_cons.1 hp with rfl | hp
      · exact Path.ofString_proper "."
      · exact List.mem_singleton.1 hp ▸ Path.ofString_proper "/d.ts") hdistinct
    (fun target htarget => ⟨["s", "t"], by cases htarget; decide⟩)
  refine ⟨real, dry, hreal, hdry, h.report, ?_, ?_, ?_⟩
  · rw [h.scanned, hfiles]
    rfl
  · rw [h.changed, hfiles, List.filter_cons_of_pos (by rw [hfirst]; rfl),
      List.filter_cons_of_neg (by rw [hsecond]; decide),
      List.filter_cons_of_neg (by rw [hthird]; decide)]
    decide
  · rw [h.others ["w", "c.md"] (by rw [hfiles]; decide) (by decide)]
    decide

def refusedSample : Disk := { entries := [(["a.ts"], some (encode "let x;"))] }

/-- With a pattern that is none, a migration over a good file has no report: it fails as a whole, and so
does its dry run. -/
theorem refused_pattern_sample :
    sourceFiles refusedSample [⟨"", ["a.ts"]⟩] [] = [⟨"", ["a.ts"]⟩] ∧
    ∀ dryRun, (match run refusedSample [⟨"", ["a.ts"]⟩] { memberPattern := "(" } dryRun none [] with
      | .error (_, .pattern e) => some e.message
      | _ => none) = some "missing ), unterminated subpattern at position 0" := by
  decide +kernel

end Migration

end OrmCodemod
