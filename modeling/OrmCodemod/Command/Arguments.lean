import OrmCodemod.Path

/-!
The words of a command line. Options stand anywhere before or after the paths; two dashes alone end
them.
-/

namespace OrmCodemod.Command

/-- What a user asks for. -/
inductive Request where
  | help
  | run (paths : List Path) (dryRun : Bool) (schemaOut : Option Path) (clientMember : Option String)
      (modelCase : Option String) (provider : Option String) (models : List String)
  | schema (paths : List Path) (provider : Option String)
  deriving Repr

/-- The words of a command, sorted out: switches set, options with their values, and the rest. -/
structure Words where
  switches : List String := []
  values : List (String × String) := []
  plain : List String := []

def splitOption (w : String) : String × Option String :=
  let cs := w.toList
  let name := cs.takeWhile (· != '=')
  if name.length < cs.length then
    (String.ofList name, some (String.ofList (cs.drop (name.length + 1))))
  else (w, none)

def isOption (w : String) : Bool := w.startsWith "-" && w != "-"

/-- Sort out words, given the switches and the options that take a value. None if a word is not
understood. -/
def sortWords (switches options : List String) : Words → List String → Option Words
  | acc, [] => some acc
  | acc, "--" :: rest => some { acc with plain := acc.plain ++ rest }
  | acc, w :: rest =>
    if !isOption w then sortWords switches options { acc with plain := acc.plain ++ [w] } rest
    else
      let (name, given) := splitOption w
      if switches.contains name then
        if given.isSome then none
        else sortWords switches options { acc with switches := acc.switches ++ [name] } rest
      else if options.contains name then
        match given, rest with
        | some value, rest =>
          sortWords switches options { acc with values := acc.values ++ [(name, value)] } rest
        | none, value :: rest =>
          sortWords switches options { acc with values := acc.values ++ [(name, value)] } rest
        | none, [] => none
      else none

def Words.last? (ws : Words) (name : String) : Option String :=
  ((ws.values.filter fun v => v.1 == name).map (·.2)).getLast?

def Words.every (ws : Words) (name : String) : List String :=
  (ws.values.filter fun v => v.1 == name).map (·.2)

def helpSwitches : List String := ["-h", "--help"]

def runRequest (args : List String) : Option Request := do
  let ws ← sortWords ("--dry-run" :: helpSwitches)
    ["--schema-out", "--client-member", "--model-case", "--provider", "--model"] {} args
  if ws.switches.any helpSwitches.contains then return .help
  if ws.plain.isEmpty then none
  return .run (ws.plain.map Path.ofString) (ws.switches.contains "--dry-run")
    ((ws.last? "--schema-out").map Path.ofString) (ws.last? "--client-member")
    (ws.last? "--model-case") (ws.last? "--provider") (ws.every "--model")

def schemaRequest (args : List String) : Option Request := do
  let ws ← sortWords helpSwitches ["--provider"] {} args
  if ws.switches.any helpSwitches.contains then return .help
  if ws.plain.isEmpty then none
  return .schema (ws.plain.map Path.ofString) (ws.last? "--provider")

def usage : String := Text.joinWith "\n" [
  "Usage: typeorm-to-prisma [-v] run [OPTIONS] PATHS...",
  "       typeorm-to-prisma [-v] schema [--provider TEXT] PATHS...",
  "",
  "Options of run: --dry-run, --schema-out PATH, --client-member TEXT, --model-case TEXT,",
  "--provider TEXT, --model NAME=MODEL (repeatable).",
  ""]

/-- Whether the words before the command ask for every message. -/
def verbose (args : List String) : Bool :=
  (args.takeWhile fun w => w != "run" && w != "schema").any fun w => w == "-v" || w == "--verbose"

def request : List String → Option Request
  | [] => none
  | "run" :: rest => runRequest rest
  | "schema" :: rest => schemaRequest rest
  | w :: rest =>
    if w == "-v" || w == "--verbose" then request rest
    else if helpSwitches.contains w then some .help
    else none

end OrmCodemod.Command
