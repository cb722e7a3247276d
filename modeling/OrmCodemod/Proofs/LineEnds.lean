import OrmCodemod.Proofs.Ranges
import OrmCodemod.Proofs.SchemaCommand

/-! The lines of a file that is rewritten. A file is read with its line ends unified and written as its
editor prints it. So a line that no edit reaches into comes back with its content and with a line feed
in the place of whatever ended it: byte for byte exactly if there was no carriage return. -/

namespace OrmCodemod

open Syntax Text

/-- How a line of a file ends: with a line feed, a carriage return or both, or with the file. -/
inductive LineEnd where
  | feed
  | carriage
  | both
  | ofFile
  deriving DecidableEq, Repr

namespace LineEnd

def chars : LineEnd → List Char
  | .feed => ['\n']
  | .carriage => ['\r']
  | .both => ['\r', '\n']
  | .ofFile => []

def unified : LineEnd → List Char
  | .ofFile => []
  | _ => ['\n']

theorem unified_eq_iff (e : LineEnd) : e.unified = e.chars ↔ '\r' ∉ e.chars := by
  cases e <;> decide

end LineEnd

structure Line where
  content : List Char
  ending : LineEnd
  deriving DecidableEq, Repr

namespace Line

def chars (l : Line) : List Char := l.content ++ l.ending.chars

def unified (l : Line) : List Char := l.content ++ l.ending.unified

end Line

/-- Cut at every line end, at the longest one that stands there; `line` holds the current line
backwards. -/
def cutLines (line : List Char) : List Char → List Line
  | [] => [⟨line.reverse, .ofFile⟩]
  | '\r' :: '\n' :: rest => ⟨line.reverse, .both⟩ :: cutLines [] rest
  | c :: rest =>
    if c = '\r' then ⟨line.reverse, .carriage⟩ :: cutLines [] rest
    else if c = '\n' then ⟨line.reverse, .feed⟩ :: cutLines [] rest
    else cutLines (c :: line) rest

section Cut

variable {line cs : List Char}

theorem cutLines_unified (line cs : List Char) :
    (cutLines line cs).flatMap Line.unified = line.reverse ++ unifyNewlines cs := by
  fun_induction cutLines line cs <;> simp_all [Line.unified, LineEnd.unified, unifyNewlines]

theorem cutLines_content {line : List Char} (hline : '\r' ∉ line) :
    ∀ l ∈ cutLines line cs, '\r' ∉ l.content := by
  fun_induction cutLines line cs with
  | case5 line c rest _ hne _ ih => exact ih (by simpa [hline] using Ne.symm hne)
  | _ => simp_all

end Cut

def lineOffset (ls : List Line) : Nat := (encodeChars (ls.flatMap Line.unified)).length

theorem encodeChars_injective : Function.Injective encodeChars := by
  intro l r h
  have hl := decodeFrom_encodeChars l _ 0 le_rfl
  rw [h] at hl
  exact Except.ok.inj (hl.symm.trans (decodeFrom_encodeChars r _ 0 le_rfl))

namespace Editor

variable {ed : Editor} {a b : Nat} {chars : List Char}

theorem PrintsAs.unique {l r : Bytes} (h : ed.PrintsAs a b l) : ed.PrintsAs a b r ↔ l = r := by
  refine ⟨fun h' => ?_, fun heq => heq ▸ h⟩
  have hboth := h.symm.trans h'
  rwa [List.append_left_inj, List.append_right_inj] at hboth

/-- A line into which no edit reaches is printed as it was read, and so as it stands in the file exactly
if it has no carriage return. -/
def KeepsLines (ed : Editor) (chars : List Char) : Prop :=
  ∀ before l after, cutLines [] chars = before ++ l :: after →
    ed.reaching (lineOffset before) (lineOffset (before ++ [l])) = [] →
    ed.PrintsAs (lineOffset before) (lineOffset (before ++ [l])) (encodeChars l.unified) ∧
    (ed.PrintsAs (lineOffset before) (lineOffset (before ++ [l])) (encodeChars l.chars) ↔
      '\r' ∉ l.chars)

theorem keepsLines (hs : ed.Sound) (hsource : ed.source = encodeChars (unifyNewlines chars)) :
    ed.KeepsLines chars := by
  intro before l after hcut hfree
  have htext := cutLines_unified [] chars
  rw [hcut, List.flatMap_append, List.flatMap_cons, List.reverse_nil, List.nil_append] at htext
  have hparts : ed.source = encodeChars (before.flatMap Line.unified) ++
      (encodeChars l.unified ++ encodeChars (after.flatMap Line.unified)) := by
    rw [hsource, ← htext, encodeChars_append, encodeChars_append]
  have hnext : lineOffset (before ++ [l]) = lineOffset before + (encodeChars l.unified).length := by
    simp [lineOffset, List.flatMap_append]
  have hslice : slice ed.source (lineOffset before) (lineOffset (before ++ [l])) =
      encodeChars l.unified := by
    rw [hnext, slice, hparts, lineOffset, List.drop_left, Nat.add_sub_cancel_left, List.take_left]
  have hbound : lineOffset (before ++ [l]) ≤ ed.source.length := by
    rw [hnext, hparts, lineOffset, List.length_append, List.length_append]
    omega
  have hprints := printsAs_free hs (by omega) hbound hfree
  rw [hslice] at hprints
  refine ⟨hprints, ?_⟩
  have hmem : l ∈ cutLines [] chars := by simp [hcut]
  have hcontent : '\r' ∉ l.content := cutLines_content List.not_mem_nil l hmem
  rw [hprints.unique, encodeChars_injective.eq_iff, Line.unified, Line.chars, List.append_right_inj,
    LineEnd.unified_eq_iff, List.mem_append, not_or, and_iff_right hcontent]

end Editor

/-- Only a pass that is over and has changed its text gives an output. -/
theorem FileResult.of_output {result : Except Fault Outcome} {output : String}
    (h : (FileResult.of result).output? = some output) :
    ∃ outcome, result = .ok outcome ∧ outcome.changed = true ∧ outcome.output = output := by
  unfold FileResult.of output? at h
  split at h
  · rename_i outcome hdone
    split at hdone
    · cases hdone
      split at h
      · exact ⟨_, rfl, ‹_›, Option.some.inj h⟩
      · cases h
    · cases hdone
    · cases hdone
  · cases h

theorem FileResult.ofText_output {settings : Settings} {file : Path} {text : Except String String}
    {output : String} (h : (FileResult.ofText settings file text).output? = some output) :
    ∃ source dialect outcome, text = .ok source ∧ Dialect.ofPath file = .ok dialect ∧
      (Outcome.ofSource dialect settings source (some file.toString)).1 = .ok outcome ∧
      outcome.changed = true ∧ outcome.output = output := by
  unfold FileResult.ofText at h
  cases text with
  | error message => cases h
  | ok source =>
    dsimp only at h
    cases hdialect : Dialect.ofPath file with
    | error e =>
      rw [hdialect] at h
      cases h
    | ok dialect =>
      rw [hdialect] at h
      obtain ⟨outcome, hrun, hchanged⟩ := FileResult.of_output h
      exact ⟨source, dialect, outcome, rfl, rfl, hrun, hchanged⟩

theorem Outcome.ofSource_printed {dialect : Dialect} {settings : Settings} {source : String}
    {path : Option String} {o : Outcome} (h : (ofSource dialect settings source path).1 = .ok o)
    (hchanged : o.changed = true) :
    ∃ s, (stages ⟨encode source, (parse dialect source).root, settings⟩).result
        (start (encode source) (parse dialect source) path) = (.ok (), s) ∧
      encode o.output = s.editor.printBytes := by
  rw [ofSource_eq] at h
  split at h
  · cases h
  · rename_i s hrun
    refine ⟨s, hrun, ?_⟩
    rcases output_eq h with ⟨-, hprint⟩ | ⟨hidle, -⟩
    · exact hprint
    · unfold ofSession at h
      simp only [hidle, Bool.false_eq_true, if_false, pure_bind] at h
      cases h
      simp at hchanged

namespace Migration

variable {folder : List String} {settings : Settings} {dryRun : Bool} {m m' : Migration} {file : Path}
  {place : List String}

theorem step_left (h : m.step folder settings dryRun file = .ok m') :
    m'.report = m.report.note file (transformFile m.disk folder settings file).1 ∧
      m'.disk = if dryRun then m.disk else m.disk.note folder file (transformFile m.disk folder settings file).1 := by
  have hends : ∀ e, (transformFile m.disk folder settings file).1 ≠ .fatal e := by
    intro e hfatal
    unfold step at h
    rcases htransform : transformFile m.disk folder settings file with ⟨result, said⟩
    rw [htransform] at h hfatal
    cases hfatal
    cases h
  obtain ⟨m1, hstep, hreport, -, hdisk⟩ := step_ok dryRun rfl hends
  obtain rfl := Except.ok.inj (hstep.symm.trans h)
  exact ⟨hreport, hdisk⟩

def readable (chars : List Char) : String := String.ofList (unifyNewlines chars)

theorem readText_ok {d : Disk} {source : String} (h : readText d folder file = .ok source) :
    ∃ place bytes chars, d.locate folder file = some place ∧ d.content? place = some bytes ∧
      decodeChars bytes = .ok chars ∧ source = readable chars := by
  unfold readText at h
  split at h
  · cases h
  · rename_i bytes hbytes
    obtain ⟨place, hplace, hcontent⟩ := Option.bind_eq_some_iff.1 hbytes
    split at h
    · rename_i chars hchars
      exact ⟨place, bytes, chars, hplace, hcontent, hchars, (Except.ok.inj h).symm⟩
    · cases h

/-- A visit rewrites the file in a place: what the file held, the pass over its text, and what the pass
has left in the editor, which is written. -/
structure Rewrites (folder : List String) (settings : Settings) (m m' : Migration) (file : Path)
    (place : List String) (chars : List Char) (dialect : Dialect) (ed : Editor) : Prop where
  found : m.disk.locate folder file = some place
  held : ∃ bytes, m.disk.content? place = some bytes ∧ decodeChars bytes = .ok chars
  known : Dialect.ofPath file = .ok dialect
  pass : ∃ s, (Outcome.stages ⟨encode (readable chars), (parse dialect (readable chars)).root,
    settings⟩).result (Outcome.start (encode (readable chars)) (parse dialect (readable chars))
      (some file.toString)) = (.ok (), s) ∧ s.editor = ed
  written : m'.disk.content? place = some ed.printBytes

theorem exists_rewrites (h : m.step folder settings false file = .ok m')
    (hchanged : m'.report.changed ≠ m.report.changed) :
    ∃ place chars dialect ed, Rewrites folder settings m m' file place chars dialect ed := by
  obtain ⟨hreport, hdisk⟩ := step_left h
  rw [transformFile_fst] at hreport hdisk
  obtain ⟨output, houtput⟩ : ∃ output,
      (FileResult.ofText settings file (readText m.disk folder file)).output? = some output := by
    refine Option.ne_none_iff_exists'.1 fun hnone => hchanged ?_
    simp [hreport, Report.note, hnone]
  obtain ⟨source, dialect, outcome, hread, hdialect, hrun, hnew, rfl⟩ :=
    FileResult.ofText_output houtput
  obtain ⟨place, bytes, chars, hplace, hbytes, hchars, rfl⟩ := readText_ok hread
  obtain ⟨s, hstages, hprint⟩ := Outcome.ofSource_printed hrun hnew
  refine ⟨place, chars, dialect, s.editor, hplace, ⟨bytes, hbytes, hchars⟩, hdialect,
    ⟨s, hstages, rfl⟩, ?_⟩
  rw [hdisk, ← hprint]
  simp only [Bool.false_eq_true, if_false]
  rw [(Disk.note_spec _ hplace hbytes).2.1, FileResult.left, houtput]
  rfl

theorem step_others (h : m.step folder settings dryRun file = .ok m') :
    Disk.SameShape m.disk m'.disk ∧ ∀ place, m.disk.locate folder file ≠ some place →
      m'.disk.content? place = m.disk.content? place := by
  obtain ⟨-, hdisk⟩ := step_left h
  rw [hdisk]
  cases dryRun with
  | true => exact ⟨.refl _, fun _ _ => rfl⟩
  | false =>
    simp only [Bool.false_eq_true, if_false]
    cases hread : readText m.disk folder file with
    | error message =>
      have hsame : m.disk.note folder file (transformFile m.disk folder settings file).1 = m.disk := by
        rw [transformFile_fst, hread]
        rfl
      rw [hsame]
      exact ⟨.refl _, fun _ _ => rfl⟩
    | ok source =>
      obtain ⟨place, bytes, chars, hplace, hbytes, -⟩ := readText_ok hread
      obtain ⟨hshape, -, hothers⟩ :=
        Disk.note_spec (transformFile m.disk folder settings file).1 hplace hbytes
      exact ⟨hshape, fun other hne => hothers other fun heq => hne (heq ▸ hplace)⟩

theorem steps_others (files : List Path) : ∀ m : Migration,
    m.steps folder settings dryRun files = .ok m' → Disk.SameShape m.disk m'.disk ∧
      ∀ place, (∀ f ∈ files, m.disk.locate folder f ≠ some place) →
        m'.disk.content? place = m.disk.content? place := by
  induction files with
  | nil =>
    intro m h
    obtain rfl := Except.ok.inj h
    exact ⟨.refl _, fun _ _ => rfl⟩
  | cons file rest ih =>
    intro m h
    rw [steps] at h
    cases hstep : m.step folder settings dryRun file with
    | error failure =>
      rw [hstep] at h
      cases h
    | ok m1 =>
      rw [hstep] at h
      obtain ⟨hshape, hothers⟩ := step_others hstep
      obtain ⟨hshape', hothers'⟩ := ih m1 h
      refine ⟨hshape.trans hshape', fun place hplace => ?_⟩
      rw [hothers' place fun f hf => by
        rw [hshape.locate]
        exact hplace f (List.mem_cons_of_mem _ hf)]
      exact hothers place (hplace file List.mem_cons_self)

theorem steps_append (earlier : List Path) (later : List Path) : ∀ m : Migration,
    m.steps folder settings dryRun (earlier ++ later) = .ok m' →
      ∃ m1, m.steps folder settings dryRun earlier = .ok m1 ∧ m1.steps folder settings dryRun later = .ok m' := by
  induction earlier with
  | nil => exact fun m h => ⟨m, rfl, h⟩
  | cons file rest ih =>
    intro m h
    rw [List.cons_append, steps] at h
    cases hstep : m.step folder settings dryRun file with
    | error failure =>
      rw [hstep] at h
      cases h
    | ok m1 =>
      rw [hstep] at h
      obtain ⟨m2, hearlier, hlater⟩ := ih m1 h
      exact ⟨m2, by rw [steps, hstep]; exact hearlier, hlater⟩

variable {disk : Disk} {paths : List Path} {schemaOut : Option Path}

theorem run_others (h : run disk paths settings dryRun schemaOut folder = .ok m') :
    ∃ m, (first disk settings).steps folder settings dryRun (sourceFiles disk paths folder) = .ok m ∧
      ∀ place, (∀ target ∈ schemaOut, m.disk.landing folder target ≠ .ok place) →
        m'.disk.content? place = m.disk.content? place := by
  rw [run_eq] at h
  cases hsteps : (first disk settings).steps folder settings dryRun (sourceFiles disk paths folder) with
  | error failure =>
    rw [hsteps] at h
    cases h
  | ok m =>
    refine ⟨m, rfl, fun place hplace => ?_⟩
    rw [hsteps] at h
    cases schemaOut with
    | none =>
      obtain rfl := Except.ok.inj h
      rfl
    | some target =>
      dsimp only at h
      rw [writeSchema] at h
      split at h
      · obtain rfl := Except.ok.inj h
        rfl
      · rename_i document hrender
        rw [Disk.writeNew_eq] at h
        cases hlanding : m.listed.disk.landing folder target with
        | error e =>
          rw [hlanding] at h
          cases h
        | ok landing =>
          rw [hlanding] at h
          obtain rfl := Except.ok.inj h
          refine Disk.content?_put_other _ _ fun heq => hplace target rfl ?_
          rw [heq]
          exact hlanding

/-- In every run, the visit that rewrites a file writes every line that no edit reaches into with its
content, and byte for byte exactly if the line has no carriage return; and if no later visit and no
schema comes to the same place, that is what the file holds in the end. -/
theorem untouched_lines_written (disk : Disk) (folder : List String) (paths : List Path)
    (settings : Settings) (schemaOut : Option Path) (real : Migration)
    (hrun : run disk paths settings false schemaOut folder = .ok real) (earlier later : List Path)
    (file : Path) (hfiles : sourceFiles disk paths folder = earlier ++ file :: later) :
    ∃ m m', (first disk settings).steps folder settings false earlier = .ok m ∧
      m.step folder settings false file = .ok m' ∧
      (m'.report.changed ≠ m.report.changed → ∃ place chars dialect ed,
        Rewrites folder settings m m' file place chars dialect ed ∧
        ((∀ f ∈ later, disk.locate folder f ≠ some place) →
          (∀ target ∈ schemaOut, disk.landing folder target ≠ .ok place) →
          real.disk.content? place = some ed.printBytes) ∧
        ed.KeepsLines chars) := by
  obtain ⟨visited, hsteps, hreal⟩ := run_others hrun
  rw [hfiles] at hsteps
  obtain ⟨m, hearlier, hsteps⟩ := steps_append earlier _ _ hsteps
  rw [steps] at hsteps
  cases hstep : m.step folder settings false file with
  | error failure =>
    rw [hstep] at hsteps
    cases hsteps
  | ok m' =>
    rw [hstep] at hsteps
    refine ⟨m, m', hearlier, hstep, fun hchanged => ?_⟩
    obtain ⟨place, chars, dialect, ed, h⟩ := exists_rewrites hstep hchanged
    have hbefore := (steps_others earlier _ hearlier).1
    have hbefore' := hbefore.trans (step_others hstep).1
    obtain ⟨hshape, hothers⟩ := steps_others later _ hsteps
    refine ⟨place, chars, dialect, ed, h, fun hlater hschema => ?_, ?_⟩
    · rw [hreal place, hothers place, h.written]
      · exact fun f hf => by
          rw [hbefore'.locate]
          exact hlater f hf
      · exact fun target htarget => by
          rw [(hbefore'.trans hshape).landing]
          exact hschema target htarget
    · obtain ⟨s, hstages, rfl⟩ := h.pass
      obtain ⟨members, hm⟩ := pattern_of_stages hstages
      have hu := (parse_sheltered dialect (readable chars) settings).toRegular
      obtain ⟨s', hstages', hrecorded⟩ := stages_complete hu.toTopLevel rfl hu.aligned hm
        (s := Outcome.start (encode (readable chars)) (parse dialect (readable chars))
          (some file.toString)) rfl
      obtain rfl : s = s' := by
        rw [hstages] at hstages'
        exact (Prod.mk.inj hstages').2
      refine Editor.keepsLines hrecorded.sound ?_
      rw [hrecorded.source, readable, encode_ofList]

/-- A file with a call to convert, in which every line ends in its own way. -/
def endingsSample : Disk :=
  { entries := [(["w", "a.ts"], some (encode "let x = 1;\r\nlet y;\ra.repository.find();\nlet z;"))] }

def endingsText : String := "let x = 1;\nlet y;\na.repository.find();\nlet z;"

theorem endingsSample_run :
    sourceFiles endingsSample [⟨"", ["a.ts"]⟩] ["w"] = [⟨"", ["a.ts"]⟩] ∧
    ((run endingsSample [⟨"", ["a.ts"]⟩] {} false none ["w"]).toOption.map fun m =>
      (m.report.changed, m.disk.content? ["w", "a.ts"])) = some (["a.ts"],
        some (encode "let x = 1;\nlet y;\na.prisma.model.findMany();\nlet z;")) ∧
    (((first endingsSample {}).step ["w"] {} false ⟨"", ["a.ts"]⟩).toOption.map (·.report.changed)) =
      some ["a.ts"] := by
  decide +kernel

theorem untouched_lines_written_sample : ∃ (real : Migration) (chars : List Char) (ed : Editor),
    run endingsSample [⟨"", ["a.ts"]⟩] {} false none ["w"] = .ok real ∧
    cutLines [] chars = [⟨"let x = 1;".toList, .both⟩, ⟨"let y;".toList, .carriage⟩,
      ⟨"a.repository.find();".toList, .feed⟩, ⟨"let z;".toList, .ofFile⟩] ∧
    real.disk.content? ["w", "a.ts"] = some ed.printBytes ∧ ed.KeepsLines chars := by
  obtain ⟨hfiles, hrun, hchanged⟩ := endingsSample_run
  obtain ⟨real, hrun, -⟩ := exists_ok_of_map hrun
  obtain ⟨m, m', hearlier, hstep, h⟩ := untouched_lines_written endingsSample ["w"] [⟨"", ["a.ts"]⟩] {} none
    real hrun [] [] ⟨"", ["a.ts"]⟩ (by rw [hfiles, List.nil_append])
  obtain rfl := Except.ok.inj hearlier
  obtain ⟨m1, hstep1, hchanged⟩ := exists_ok_of_map hchanged
  obtain rfl := Except.ok.inj (hstep1.symm.trans hstep)
  obtain ⟨place, chars, dialect, ed, hrewrites, hwritten, hlines⟩ := h (by
    rw [hchanged]
    exact List.cons_ne_nil _ _)
  obtain rfl : ["w", "a.ts"] = place := Option.some.inj hrewrites.found
  obtain ⟨bytes, hbytes, hchars⟩ := hrewrites.held
  refine ⟨real, chars, ed, hrun, ?_, hwritten nofun nofun, hlines⟩
  obtain rfl := Option.some.inj hbytes
  obtain rfl := Except.ok.inj ((decodeFrom_encodeChars _ _ 0 le_rfl).symm.trans hchars)
  decide +kernel

/-- Nothing reaches into the first line, and it is written without its carriage return. -/
theorem carriage_return_lost_sample :
    (((Outcome.stages ⟨encode endingsText, (parse .typescript endingsText).root, {}⟩).result
      (Outcome.start (encode endingsText) (parse .typescript endingsText) (some "a.ts"))).2.editor.reaching
        0 (encode "let x = 1;\n").length) = [] ∧
    ∃ real bytes, run endingsSample [⟨"", ["a.ts"]⟩] {} false none ["w"] = .ok real ∧
      real.report.changed = ["a.ts"] ∧ real.disk.content? ["w", "a.ts"] = some bytes ∧
      encode "let x = 1;\r\n" <:+: endingsSample.bytesAt ["w"] ⟨"", ["a.ts"]⟩ ∧
      ¬encode "let x = 1;\r\n" <:+: bytes := by
  obtain ⟨-, hrun, -⟩ := endingsSample_run
  obtain ⟨real, hrun, hleft⟩ := exists_ok_of_map hrun
  obtain ⟨hchanged, hbytes⟩ := Prod.mk.inj hleft
  refine ⟨by decide +kernel, real, _, hrun, hchanged, hbytes, by decide +kernel, by decide +kernel⟩

end Migration

end OrmCodemod
