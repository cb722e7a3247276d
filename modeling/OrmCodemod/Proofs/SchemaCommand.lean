import OrmCodemod.Command.Execute
import OrmCodemod.Proofs.Visits

/-! The two ways to a schema. `schema` prints it, and a dry run writes it; each has a loop of its own
over the files. Both collect the same models, since what a source describes does not hang on the
settings that only a run takes. -/

namespace OrmCodemod

open Syntax Text Schema Pass

namespace Settings

variable {key name : String} {es base : List (String × Data)} {d : Data}

theorem lookup_cons_eq (name : String) (d : Data) (es : List (String × Data)) (key : String) :
    ((name, d) :: es).lookup key = if key = name then some d else es.lookup key := by
  by_cases h : key = name
  · simp [h]
  · simp [List.lookup_cons, beq_false_of_ne h, h]

theorem lookup_putEntry (name : String) (d : Data) (es : List (String × Data)) (key : String) :
    (putEntry name d es).lookup key = if key = name then some d else es.lookup key := by
  induction es with
  | nil => exact lookup_cons_eq name d [] key
  | cons e es ih =>
    obtain ⟨n, d'⟩ := e
    unfold putEntry
    split
    · rename_i hname
      rw [lookup_cons_eq, lookup_cons_eq, beq_iff_eq.1 hname]
      split <;> rfl
    · rename_i hname
      rw [lookup_cons_eq, lookup_cons_eq, ih]
      split
      · rename_i hkey
        rw [if_neg (by simpa [hkey] using hname)]
      · rfl

def overlay (base overrides : List (String × Data)) : List (String × Data) :=
  overrides.foldl (fun acc (name, d) =>
    match d with
    | .null => acc
    | d => putEntry name d acc) base

theorem lookup_overlay {overrides : List (String × Data)} (h : ∀ o ∈ overrides, key ≠ o.1) :
    ∀ base, (overlay base overrides).lookup key = base.lookup key := by
  induction overrides with
  | nil => exact fun base => rfl
  | cons o os ih =>
    intro base
    rw [overlay, List.foldl_cons, ← overlay, ih fun o ho => h o (List.mem_cons_of_mem _ ho)]
    obtain ⟨name, d⟩ := o
    have hne : key ≠ name := h (name, d) List.mem_cons_self
    cases d <;> simp [lookup_putEntry, hne]

def textAt (es : List (String × Data)) (name dflt : String) : String :=
  match es.lookup name with
  | some (.text s) => s
  | some _ => ""
  | none => dflt

theorem run_given_text (dflt name : String) (path : List Step) (es : List (String × Data))
    (issues : List Issue) :
    ((Reading.given .text dflt name path es).run issues).1 = textAt es name dflt := by
  unfold Reading.given textAt
  cases es.lookup name with
  | none => rfl
  | some d => cases d <;> rfl

theorem read_texts {s : Settings} (h : (read [] (.record es)).result = .ok s) :
    s.memberPattern = textAt es "repository_member_pattern" ({} : Settings).memberPattern ∧
      s.provider = textAt es "datasource_provider" ({} : Settings).provider := by
  have hvalue : s = ((read [] (.record es)).run []).1 := by
    unfold Reading.result at h
    split at h
    · rename_i hrun
      cases h
      rw [hrun]
    · cases h
  rw [hvalue]
  exact ⟨run_given_text _ _ _ _ _, run_given_text _ _ _ _ _⟩

theorem load_eq_ok {env : List (String × String)} {overrides : List (String × Data)} {s : Settings}
    (h : load env overrides = .ok s) : ∃ base, ofEnvironment env = .ok base ∧
      (read [] (.record (overlay base overrides))).result = .ok s := by
  unfold load at h
  split at h
  · cases h
  · rename_i base hbase
    refine ⟨base, hbase, ?_⟩
    dsimp only at h
    split at h
    · rename_i hread
      cases h
      exact hread
    · cases h

end Settings

namespace Command

open Settings

variable {env : List (String × String)} {clientMember modelCase provider : Option String}
  {models : List String} {s : Settings}

def option (name : String) (value : Option String) : List (String × Data) :=
  match value with
  | some v => [(name, .text v)]
  | none => []

theorem settingsOf_eq_ok (h : settingsOf env clientMember modelCase provider models = .ok s) :
    ∃ mapping, (∀ o ∈ mapping, o.1 = "model_mapping") ∧
      load env (option "client_member" clientMember ++ option "model_case" modelCase ++
        option "datasource_provider" provider ++ mapping) = .ok s := by
  unfold settingsOf at h
  dsimp only at h
  split at h
  · exact ⟨[], nofun, h⟩
  · split at h
    · exact ⟨_, by simp, h⟩
    · cases h

/-- Neither the pattern of the members nor the provider hangs on the other options. -/
theorem settingsOf_texts (h : settingsOf env clientMember modelCase provider models = .ok s) :
    ∃ base, ofEnvironment env = .ok base ∧
      s.memberPattern = textAt base "repository_member_pattern" ({} : Settings).memberPattern ∧
      s.provider = provider.getD (textAt base "datasource_provider" ({} : Settings).provider) := by
  obtain ⟨mapping, hmapping, hload⟩ := settingsOf_eq_ok h
  obtain ⟨base, hbase, hread⟩ := load_eq_ok hload
  obtain ⟨hpattern, hprovider⟩ := read_texts hread
  have hname : ∀ {name : String} {value : Option String}, ∀ o ∈ option name value, o.1 = name := by
    intro name value o ho
    cases value <;> simp_all [option]
  refine ⟨base, hbase, ?_, ?_⟩
  · rw [hpattern, textAt, lookup_overlay fun o ho => ?_, ← textAt]
    simp only [List.mem_append] at ho
    rcases ho with ((ho | ho) | ho) | ho
    · rw [hname o ho]; decide
    · rw [hname o ho]; decide
    · rw [hname o ho]; decide
    · rw [hmapping o ho]; decide
  · have hfront : ∀ o ∈ option "client_member" clientMember ++ option "model_case" modelCase,
        "datasource_provider" ≠ o.1 := by
      intro o ho
      rcases List.mem_append.1 ho with ho | ho
      · rw [hname o ho]; decide
      · rw [hname o ho]; decide
    have hback : ∀ o ∈ mapping, "datasource_provider" ≠ o.1 := fun o ho => by
      rw [hmapping o ho]; decide
    rw [hprovider, textAt, overlay, List.foldl_append, ← overlay, lookup_overlay hback,
      List.foldl_append, ← overlay, ← overlay]
    cases provider with
    | none => rw [option, overlay, List.foldl_nil, lookup_overlay hfront]; rfl
    | some v => simp [option, overlay, lookup_putEntry]

end Command

/-- Two results with the same schema. -/
inductive FileResult.Agrees : FileResult → FileResult → Prop where
  | done (o o' : Outcome) (models : o.models = o'.models) (enums : o.enums = o'.enums) :
    Agrees (.done o) (.done o')
  | failed (message message' : String) : Agrees (.failed message) (.failed message')
  | fatal (e : Pattern.PatternError) : Agrees (.fatal e) (.fatal e)

theorem FileResult.Agrees.refl (r : FileResult) : r.Agrees r := by
  cases r with
  | done o => exact .done o o rfl rfl
  | failed message => exact .failed message message
  | fatal e => exact .fatal e

variable {dialect : Dialect} {source : String} {path : Option String} {t t' : Settings}

/-- Where the pattern of the members cannot be read, a pass fails once the schema is read off. -/
theorem Outcome.ofSource_unread {e : Pattern.PatternError}
    (he : Pattern.parse t.memberPattern = .error e) :
    (ofSource dialect t source path).1 =
      .error (match (Entities.extract ⟨encode source, (parse dialect source).root, t⟩).result
          (start (encode source) (parse dialect source) path) with
        | (.ok (), _) => .pattern e
        | (.error fault, _) => fault) := by
  have hcalls : ∀ s, (Calls.convert ⟨encode source, (parse dialect source).root, t⟩).result s =
      (.error (.pattern e), s) := by
    intro s
    unfold Calls.convert
    rw [he]
    rfl
  rw [ofSource_eq]
  unfold stages
  rw [result_bind]
  rcases (Entities.extract ⟨encode source, (parse dialect source).root, t⟩).result
    (start (encode source) (parse dialect source) path) with ⟨fault | _, s⟩
  · rfl
  · dsimp only
    rw [result_bind, hcalls]

theorem FileResult.of_agrees (hp : t.memberPattern = t'.memberPattern) :
    Agrees (.of (Outcome.ofSource dialect t source path).1)
      (.of (Outcome.ofSource dialect t' source path).1) := by
  have hextract := Entities.extract_under (encode source) (parse dialect source).root t t'
  cases hm : Pattern.parse t.memberPattern with
  | ok members =>
    obtain ⟨o, ho⟩ := Outcome.ofSource_completes dialect t source path ⟨members, hm⟩
    obtain ⟨o', ho'⟩ := Outcome.ofSource_completes dialect t' source path ⟨members, hp ▸ hm⟩
    obtain ⟨s, hs, hmodels, henums⟩ := Outcome.ofParsed_schema ho
    obtain ⟨s', hs', hmodels', henums'⟩ := Outcome.ofParsed_schema ho'
    rw [hextract, hs', Prod.mk.injEq] at hs
    obtain ⟨-, rfl⟩ := hs
    rw [ho, ho']
    exact .done o o' (hmodels.trans hmodels'.symm) (henums.trans henums'.symm)
  | error e =>
    rw [Outcome.ofSource_unread hm, Outcome.ofSource_unread (hp ▸ hm), hextract]
    exact .refl _

theorem transformFile_agrees {d : Disk} {folder : List String} {file : Path}
    (hp : t.memberPattern = t'.memberPattern) :
    (transformFile d folder t file).1.Agrees (transformFile d folder t' file).1 := by
  rw [transformFile_fst, transformFile_fst]
  unfold FileResult.ofText
  cases htext : readText d folder file with
  | error message => exact .failed _ _
  | ok source =>
    cases hdialect : Dialect.ofPath file with
    | error e => exact .failed _ _
    | ok dialect => exact FileResult.of_agrees hp

namespace Migration

variable {m : Migration} {file : Path} {disk : Disk} {folder : List String}

theorem step_fatal (dryRun : Bool) {e : Pattern.PatternError}
    (h : (transformFile m.disk folder t file).1 = .fatal e) :
    ∃ m', m.step folder t dryRun file = .error (m', .pattern e) ∧ m'.disk = m.disk := by
  unfold step
  rcases htransform : transformFile m.disk folder t file with ⟨result, said⟩
  rw [htransform] at h
  cases h
  exact ⟨_, rfl, rfl⟩

theorem steps_collect (folder : List String) (hp : t.memberPattern = t'.memberPattern)
    (files : List Path) :
    ∀ (m : Migration) (log : List LogEntry), m.disk = disk →
      match Command.collect disk folder t m.collection log files with
      | .ok (c, _) => ∃ m', m.steps folder t' true files = .ok m' ∧ m'.collection = c ∧ m'.disk = disk ∧
          m'.report.schemaPath = m.report.schemaPath
      | .error (e, _) => ∃ m', m.steps folder t' true files = .error (m', .pattern e) ∧ m'.disk = disk := by
  induction files with
  | nil => exact fun m log hdisk => ⟨m, rfl, rfl, hdisk, rfl⟩
  | cons file rest ih =>
    intro m log hdisk
    have hagrees : (transformFile disk folder t file).1.Agrees (transformFile disk folder t' file).1 :=
      transformFile_agrees hp
    rcases htransform : transformFile disk folder t file with ⟨r, said⟩
    rw [htransform] at hagrees
    generalize hr' : (transformFile disk folder t' file).1 = r' at hagrees
    rw [← hdisk] at hr'
    rw [Command.collect, htransform, steps]
    -- A file that ends neither loop leaves both with the same collection.
    have hgoes : (∀ e, r' ≠ .fatal e) → ∃ m1, m.step folder t' true file = .ok m1 ∧
        m1.collection = m.collection.note file r' ∧ m1.disk = disk ∧
        m1.report.schemaPath = m.report.schemaPath := by
      intro hends
      obtain ⟨m1, hstep, hreport, hcollection, hdisk'⟩ := step_ok true hr' hends
      exact ⟨m1, hstep, hcollection, hdisk'.trans hdisk, by rw [hreport]; rfl⟩
    cases hagrees with
    | fatal e =>
      obtain ⟨m', hstep, hdisk'⟩ := step_fatal true hr'
      rw [hstep]
      exact ⟨m', rfl, hdisk'.trans hdisk⟩
    | failed message message' =>
      obtain ⟨m1, hstep, hcollection, hdisk1, hpath⟩ := hgoes fun e h => by cases h
      rw [hstep]
      have hlater := ih m1 (log ++ said ++
        [⟨.error, s!"Failed to read entities from {file.toString}: {message}"⟩]) hdisk1
      rw [hcollection, hpath] at hlater
      exact hlater
    | done o o' hmodels henums =>
      obtain ⟨m1, hstep, hcollection, hdisk1, hpath⟩ := hgoes fun e h => by cases h
      rw [hstep]
      have hlater := ih m1 (log ++ said ++
        (m.collection.add o.models o.enums (some file.toString)).2) hdisk1
      rw [hcollection, hpath, Collection.note, ← hmodels, ← henums] at hlater
      exact hlater

end Migration

theorem Schema.document_head (models : List Model) (enums : List EnumType) (provider : String) :
    (document models enums provider).toList.head? = some '/' := by
  have hfirst : ∃ rest, preamble provider =
      "// Prisma schema generated from TypeORM entities." ++ rest :=
    ⟨_, String.append_assoc⟩
  obtain ⟨rest, hrest⟩ := hfirst
  have hhead : "// Prisma schema generated from TypeORM entities.".toList.head? = some '/' := by
    decide
  simp only [document, hrest, String.toList_append, List.head?_append, hhead, Option.some_or]

/-- No document reads as the line about a schema without models. -/
theorem Schema.Collection.render_ne {c : Collection} {document : String}
    (h : c.render = some document) : document ≠ "No entity classes found.\n" := by
  rintro rfl
  unfold render at h
  split at h
  · cases h
  · have hhead := document_head c.models c.enums c.provider
    rw [Option.some.inj h] at hhead
    exact absurd hhead (by decide)

namespace Command

variable {disk : Disk} {folder : List String} {paths : List Path} {target : Path}
  {place : List String}

/-- A dry run writes the schema that the loop of `schema` collects, and fails where that loop fails. -/
theorem run_collect (hp : t.memberPattern = t'.memberPattern) (hprovider : t.provider = t'.provider)
    (hplace : disk.landing folder target = .ok place) :
    match collect disk folder t { provider := t.provider } [] (sourceFiles disk paths folder) with
    | .error (e, _) => ∃ m, Migration.run disk paths t' true (some target) folder = .error (m, .pattern e) ∧
        m.disk = disk
    | .ok (c, _) => ∃ m, Migration.run disk paths t' true (some target) folder = .ok m ∧
        m.report.schemaPath = c.render.map (fun _ => target.toString) ∧
        m.disk = (c.render.map fun document => disk.put place (encode document)).getD disk := by
  have hdisk : (Migration.first disk t').disk = disk := rfl
  have hloops := Migration.steps_collect folder hp (sourceFiles disk paths folder) (Migration.first disk t') [] hdisk
  rw [show (Migration.first disk t').collection = { provider := t.provider } by
    rw [hprovider]; rfl] at hloops
  rcases hcollect : collect disk folder t { provider := t.provider } [] (sourceFiles disk paths folder) with
    ⟨e, log⟩ | ⟨c, log⟩ <;> rw [hcollect] at hloops
  · obtain ⟨m, hsteps, hdisk⟩ := hloops
    exact ⟨m, by rw [Migration.run_eq, hsteps], hdisk⟩
  · obtain ⟨m, hsteps, rfl, hdisk, hpath⟩ := hloops
    have hrun : Migration.run disk paths t' true (some target) folder = m.listed.writeSchema folder target := by
      rw [Migration.run_eq, hsteps]
    dsimp only
    rw [hrun]
    cases hrender : m.collection.render with
    | none => exact ⟨m.listed, Migration.writeSchema_none hrender, hpath, hdisk⟩
    | some document =>
      obtain ⟨m', hwrite, hdisk', hreport⟩ := Migration.writeSchema_some (m := m.listed) hrender
        (hdisk ▸ hplace)
      refine ⟨m', hwrite, by rw [hreport]; rfl, ?_⟩
      rw [hdisk', show m.listed.disk = disk from hdisk]
      rfl

/-- Without a path that is there, or with a name that cannot be printed, both commands fail and write
nothing. -/
theorem commands_fail (t t' : Settings) (target : Path) (h : paths.filter (disk.holds folder) = [] ∨
      ∃ e, printLines (missingLines disk folder paths) = .error e) :
    (schemaCommand disk folder t paths).exitCode = 1 ∧
      (runCommand disk folder t' paths true (some target)).disk = disk := by
  by_cases hempty : paths.filter (disk.holds folder) = []
  · simp only [schemaCommand, runCommand, hempty, List.isEmpty_nil, if_true]
    cases printLines (missingLines disk folder paths ++ ["[red]No input files found.[/red]"]) with
    | error e => exact ⟨rfl, rfl⟩
    | ok printed => exact ⟨rfl, rfl⟩
  · obtain ⟨e, he⟩ := h.resolve_left hempty
    have hsome : (paths.filter (disk.holds folder)).isEmpty = false := by simpa using hempty
    simp only [schemaCommand, runCommand, hsome, Bool.false_eq_true, if_false, he, and_self]

variable {before : String} (hexisting : paths.filter (disk.holds folder) ≠ [])
  (hbefore : printLines (missingLines disk folder paths) = .ok before)

include hexisting hbefore

theorem schemaCommand_eq : schemaCommand disk folder t paths =
    match collect disk folder t { provider := t.provider } []
      (sourceFiles disk (paths.filter (disk.holds folder)) folder) with
    | .error (e, log) =>
      { exitCode := 1, opening := before, disk, failure := some (.migration (.pattern e)), log }
    | .ok (c, log) =>
      { exitCode := 0, opening := before, closing := c.render.getD "No entity classes found.\n", disk,
        log } := by
  have hsome : (paths.filter (disk.holds folder)).isEmpty = false := by simpa using hexisting
  simp only [schemaCommand, hsome, Bool.false_eq_true, if_false, hbefore]
  rcases collect disk folder t { provider := t.provider } []
    (sourceFiles disk (paths.filter (disk.holds folder)) folder) with ⟨e, log⟩ | ⟨c, log⟩
  · rfl
  · dsimp only
    cases c.render <;> rfl

theorem runCommand_disk : (runCommand disk folder t' paths true (some target)).disk =
    (Migration.reach (Migration.run disk (paths.filter (disk.holds folder)) t' true (some target) folder)).disk := by
  have hsome : (paths.filter (disk.holds folder)).isEmpty = false := by simpa using hexisting
  simp only [runCommand, hsome, Bool.false_eq_true, if_false, hbefore]
  rcases Migration.run disk (paths.filter (disk.holds folder)) t' true (some target) folder with ⟨m, e⟩ | m
  · rfl
  · dsimp only
    cases reportText m.report true <;> rfl

omit hexisting hbefore

theorem schemaCommand_agrees (hp : t.memberPattern = t'.memberPattern)
    (hprovider : t.provider = t'.provider) (hplace : disk.landing folder target = .ok place) :
    ((schemaCommand disk folder t paths).exitCode = 0 → ∃ before m,
      printLines (missingLines disk folder paths) = .ok before ∧
      (schemaCommand disk folder t paths).opening = before ∧
      Migration.run disk (paths.filter (disk.holds folder)) t' true (some target) folder = .ok m ∧
      (runCommand disk folder t' paths true (some target)).disk = m.disk ∧
      (match m.report.schemaPath with
      | none => (schemaCommand disk folder t paths).closing = "No entity classes found.\n" ∧
          m.disk = disk
      | some path => path = target.toString ∧
          (schemaCommand disk folder t paths).closing ≠ "No entity classes found.\n" ∧
          m.disk = disk.put place (encode (schemaCommand disk folder t paths).closing))) ∧
    ((schemaCommand disk folder t paths).exitCode ≠ 0 →
      (runCommand disk folder t' paths true (some target)).disk = disk) := by
  by_cases hfails : paths.filter (disk.holds folder) = [] ∨
      ∃ e, printLines (missingLines disk folder paths) = .error e
  · obtain ⟨hexit, hdisk⟩ := commands_fail t t' target hfails
    rw [hexit]
    exact ⟨nofun, fun _ => hdisk⟩
  obtain ⟨hexisting, hlines⟩ := not_or.1 hfails
  obtain ⟨before, hbefore⟩ : ∃ before, printLines (missingLines disk folder paths) = .ok before := by
    cases hp : printLines (missingLines disk folder paths) with
    | error e => exact absurd ⟨e, hp⟩ hlines
    | ok before => exact ⟨before, rfl⟩
  have hcollect := @run_collect t t' disk folder (paths.filter (disk.holds folder)) target place hp
    hprovider hplace
  rw [schemaCommand_eq hexisting hbefore, runCommand_disk hexisting hbefore]
  rcases hloop : collect disk folder t { provider := t.provider } []
    (sourceFiles disk (paths.filter (disk.holds folder)) folder) with ⟨e, log⟩ | ⟨c, log⟩ <;>
      rw [hloop] at hcollect
  · obtain ⟨m, hrun, hdisk⟩ := hcollect
    rw [hrun]
    exact ⟨nofun, fun _ => hdisk⟩
  · obtain ⟨m, hrun, hpath, hdisk⟩ := hcollect
    refine ⟨fun _ => ⟨before, m, hbefore, rfl, hrun, by rw [hrun]; rfl, ?_⟩, fun h => absurd rfl h⟩
    dsimp only
    rw [hpath, hdisk]
    cases hrender : c.render with
    | none => exact ⟨rfl, rfl⟩
    | some document => exact ⟨rfl, Collection.render_ne hrender, rfl⟩

/-- The two ways to a schema agree. Whenever `schema` ends well, it prints the lines about missing paths
and the messages of its log, and then what a dry run writes over the same paths, with the same provider
and whatever other options it is given; it says that there are no entity classes exactly if the run
writes no schema. Where `schema` fails with these settings, the run writes nothing. -/
theorem schema_commands_agree (disk : Disk) (folder : List String) (env : List (String × String))
    (args args' : List String) (paths : List Path) (provider clientMember modelCase : Option String)
    (models : List String) (target : Path) (place : List String) (t t' : Settings)
    (hargs : request args = some (.schema paths provider))
    (hargs' : request args' =
      some (.run paths true (some target) clientMember modelCase provider models))
    (ht : settingsOf env none none provider [] = .ok t)
    (ht' : settingsOf env clientMember modelCase provider models = .ok t')
    (hplace : disk.landing folder target = .ok place) :
    ((execute disk env args folder).exitCode = 0 → ∃ before m,
      printLines (missingLines disk folder paths) = .ok before ∧
      (∀ handler verbose, (execute disk env args folder).stdout handler verbose =
        before ++ handler ((execute disk env args folder).shown verbose) ++
          (execute disk env args folder).closing) ∧
      Migration.run disk (paths.filter (disk.holds folder)) t' true (some target) folder = .ok m ∧
      (execute disk env args' folder).disk = m.disk ∧
      (m.report.schemaPath = none ↔
        (execute disk env args folder).closing = "No entity classes found.\n") ∧
      (m.report.schemaPath = none → m.disk = disk) ∧
      (m.report.schemaPath ≠ none → m.report.schemaPath = some target.toString ∧
        m.disk = disk.put place (encode (execute disk env args folder).closing))) ∧
    ((execute disk env args folder).exitCode ≠ 0 → (execute disk env args' folder).disk = disk) := by
  have hschema : execute disk env args folder = schemaCommand disk folder t paths := by
    rw [execute, hargs]
    dsimp only
    rw [ht]
  have hrun : execute disk env args' folder = runCommand disk folder t' paths true (some target) := by
    rw [execute, hargs']
    dsimp only
    rw [ht']
  obtain ⟨base, hbase, hpattern, hprovider⟩ := settingsOf_texts ht
  obtain ⟨base', hbase', hpattern', hprovider'⟩ := settingsOf_texts ht'
  obtain rfl : base = base' := Except.ok.inj (hbase.symm.trans hbase')
  obtain ⟨hends, hfails⟩ := @schemaCommand_agrees t t' disk folder paths target place
    (hpattern.trans hpattern'.symm) (hprovider.trans hprovider'.symm) hplace
  rw [hschema, hrun]
  refine ⟨fun hexit => ?_, hfails⟩
  obtain ⟨before, m, hbefore, hopening, hm, hdisk, hpath⟩ := hends hexit
  refine ⟨before, m, hbefore, fun handler verbose => by rw [Result.stdout, hopening], hm, hdisk, ?_⟩
  cases hschemaPath : m.report.schemaPath with
  | none =>
    rw [hschemaPath] at hpath
    obtain ⟨hprinted, hsame⟩ := hpath
    exact ⟨⟨fun _ => hprinted, fun _ => rfl⟩, fun _ => hsame, fun h => absurd rfl h⟩
  | some path =>
    rw [hschemaPath] at hpath
    obtain ⟨rfl, hne, hsame⟩ := hpath
    exact ⟨⟨nofun, fun h => absurd h hne⟩, nofun, fun _ => ⟨rfl, hsame⟩⟩

deriving instance DecidableEq for Request

def entitySource : String := "@Entity() class A \x7b\x7d"

def entitySample : Disk := { entries := [(["w", "a.ts"], some (encode entitySource))] }

theorem entitySample_commands :
    (execute entitySample [] ["schema", "a.ts"] ["w"]).exitCode = 0 ∧
    (execute entitySample [] ["schema", "a.ts"] ["w"]).closing ≠ "No entity classes found.\n" ∧
    ((execute entitySample [] ["schema", "a.ts"] ["w"]).shown false).length = 1 ∧
    printLines (missingLines entitySample ["w"] [Path.ofString "a.ts"]) = .ok "" := by
  decide +kernel

/-- What `schema` prints for an entity, behind the one message of its log, is what a dry run with another
case of the models writes. -/
theorem schema_commands_agree_sample : ∃ entry document,
    (∀ handler, (execute entitySample [] ["schema", "a.ts"] ["w"]).stdout handler false =
      handler [entry] ++ document) ∧
    (execute entitySample [] ["run", "--dry-run", "--schema-out", "/s", "--model-case", "camel",
      "a.ts"] ["w"]).disk.content? ["s"] = some (encode document) := by
  obtain ⟨hexit, hne, hlog, hbefore⟩ := entitySample_commands
  obtain ⟨before, m, hbefore', hstdout, -, hdisk, hnone, -, hsome⟩ :=
    (schema_commands_agree entitySample ["w"] [] ["schema", "a.ts"]
      ["run", "--dry-run", "--schema-out", "/s", "--model-case", "camel", "a.ts"]
      [Path.ofString "a.ts"] none none (some "camel") [] (Path.ofString "/s") ["s"] {}
      { modelCase := .camel } (by decide +kernel) (by decide +kernel) (by decide +kernel)
      (by decide +kernel) (by decide +kernel)).1 hexit
  obtain rfl : "" = before := Except.ok.inj (hbefore.symm.trans hbefore')
  obtain ⟨entry, hentry⟩ := List.length_eq_one_iff.1 hlog
  refine ⟨entry, (execute entitySample [] ["schema", "a.ts"] ["w"]).closing, fun handler => ?_, ?_⟩
  · rw [hstdout, hentry, String.empty_append]
  · rw [hdisk, (hsome fun h => hne (hnone.1 h)).2]
    exact Disk.content?_put _ _ _

/-- Where the two part. Over a path that is not there a run writes no schema, and `schema` does not say
that there are no entity classes. With a case of models in the environment that is none, `schema` prints
nothing, while a run that is given another case writes a schema. And a run that cannot write its schema
writes none of what `schema` prints. -/
theorem schema_commands_part_sample :
    ((execute {} [] ["run", "--dry-run", "--schema-out", "s", "a.ts"] []).disk.entries = [] ∧
      (execute {} [] ["schema", "a.ts"] []).printed =
        "Skipping missing path a.ts\nNo input files found.\n") ∧
    ((execute entitySample [("MODEL_CASE", "x")] ["schema", "a.ts"] ["w"]).printed = "" ∧
      ((execute entitySample [("MODEL_CASE", "x")] ["run", "--dry-run", "--schema-out", "s",
        "--model-case", "camel", "a.ts"] ["w"]).disk.content? ["w", "s"]).isSome = true) ∧
    ((execute entitySample [] ["run", "--dry-run", "--schema-out", "a.ts/s", "a.ts"] ["w"]).disk.entries =
        entitySample.entries ∧
      (execute entitySample [] ["schema", "a.ts"] ["w"]).exitCode = 0 ∧
      (execute entitySample [] ["schema", "a.ts"] ["w"]).closing ≠ "No entity classes found.\n") := by
  obtain ⟨hexit, hne, -⟩ := entitySample_commands
  exact ⟨by decide +kernel, by decide +kernel, by decide +kernel, hexit, hne⟩

end Command

end OrmCodemod
