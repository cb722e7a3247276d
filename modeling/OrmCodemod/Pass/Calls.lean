import OrmCodemod.Pass.Session
import OrmCodemod.Pass.Resolver
import OrmCodemod.Pass.Rules

/-!
Repository calls become client calls, and repository parameters of a constructor become one client
parameter. Inner calls are converted first, so that a call around them is composed from their new
text.
-/

namespace OrmCodemod.Calls

open Syntax Text Resolver

def injectionDecorator : String := "InjectRepository"

/-- `owner.client.Model`: the shape a converted call already has. -/
def isClientAccess (u : SourceUnit) (receiver : Tree) : Bool :=
  match receiver.child? .object with
  | some owner =>
    owner.is .memberExpression &&
      (owner.child? .property).any fun p => p.text u.source == u.settings.clientMember
  | none => false

/-- The current text of a node; edits lie between characters. -/
def renderText (ed : Editor) (t : Tree) : String := (ed.render t).toOption.getD ""

def modelOf (u : SourceUnit) (call : Place) : Pass String := do
  let (model, said) := resolve u.settings.modelMapping call u.source
  said.forM fun e => Pass.say e.level e.message
  match model with
  | some model => return Settings.accessor u.settings.modelCase model
  | none =>
    let line := lineNumber u.source call.start
    Pass.say .warning
      s!"Could not infer the model for the call at line {line}; using '{u.settings.placeholderModel}'"
    return u.settings.placeholderModel

/-- Replace the callee of a call and, where its row says so, its arguments. -/
def apply (u : SourceUnit) (site : Place.RepositoryCall) (owner : Tree) (rule : Rules.Rule) :
    Pass Unit := do
  let args := site.call.tree.callArguments
  let keyOf : Rules.KeyOf := fun m => m.memberKey u.source
  let model ← modelOf u site.call
  let editor := (← get).editor
  let method := rule.method args keyOf
  let reshaped := rule.reshape args (renderText editor) keyOf
  let client := renderText editor owner ++ s!".{u.settings.clientMember}.{model}"
  Pass.edit (·.replace site.callee s!"{client}.{method}")
  match reshaped with
  | some texts => Pass.edit (·.replace site.arguments ("(" ++ joinWith ", " texts ++ ")"))
  | none => return

def convertCall (u : SourceUnit) (site : Place.RepositoryCall) : Pass Unit := do
  match Rules.rule? (site.method.text u.source) with
  | none => return
  | some rule =>
    if !rule.supported then
      let put ← rule.advisories.mapM (Pass.advise site.call)
      if put.any id then Pass.setFlags fun f => { f with services := true }
    else
      match site.receiver.child? .object with
      | none => return
      | some owner =>
        apply u site owner rule
        rule.advisories.forM fun advisory => do let _ ← Pass.advise site.call advisory
        Pass.setFlags fun f => { f with services := true }

/-- Inner calls first: by their ends, and from the right where the ends agree. -/
def runsBefore (a b : Place.RepositoryCall) : Bool :=
  if a.call.stop != b.call.stop then a.call.stop < b.call.stop else b.call.start < a.call.start

def insertSite (s : Place.RepositoryCall) : List Place.RepositoryCall → List Place.RepositoryCall
  | [] => [s]
  | t :: ts => if runsBefore s t then s :: t :: ts else t :: insertSite s ts

def sortSites (sites : List Place.RepositoryCall) : List Place.RepositoryCall :=
  sites.foldl (fun acc s => insertSite s acc) []

def callSites (u : SourceUnit) (members : Pattern.Regex) : List Place.RepositoryCall :=
  u.place.repositoryCalls.filter fun site =>
    members.matchesStart (site.member.text u.source) && !isClientAccess u site.receiver

/-- A parameter that holds a repository: by its type, or by its decorator. -/
def isRepositoryParameter (u : SourceUnit) (param : Tree) : Bool :=
  (param.annotatedType.bind fun t => t.genericArgument repositoryType u.source).isSome ||
    param.children.any fun c =>
      c.is .decorator && c.decoratorName u.source == some injectionDecorator

/-- The client parameter in the place of a repository parameter, with that one's modifiers. -/
def clientParameter (u : SourceUnit) (param : Tree) : String :=
  let own := (param.children.filter fun c =>
    c.is .accessibilityModifier || c.isToken "readonly").map (·.text u.source)
  let modifiers := if own.isEmpty || own.head? == some "readonly" then "private" :: own else own
  joinWith " " modifiers ++ s!" {u.settings.clientMember}: {u.settings.clientService}"

def convertConstructor (u : SourceUnit) (method : Place) : Pass Unit := do
  match method.tree.child? .name, method.child? .parameters with
  | some name, some params =>
    if name.text u.source != "constructor" then return
    let repositories := params.namedChildren.filter fun p =>
      p.tree.isAny [.requiredParameter, .optionalParameter] && isRepositoryParameter u p.tree
    match repositories with
    | [] => return
    | first :: others =>
      Pass.orOnOverlap (do
        Pass.edit (·.replace first.tree (clientParameter u first.tree))
        others.forM fun p => Pass.edit (·.removeListItem p)
        Pass.setFlags fun f => { f with repositories := true }) fun o =>
          let line := lineNumber u.source method.start
          Pass.say .warning s!"Skipping constructor at line {line}: {o.message}"
  | _, _ => return

def convertConstructors (u : SourceUnit) : Pass Unit :=
  (u.place.find [.methodDefinition]).forM (convertConstructor u)

/-- Convert the given calls, inner ones first; one whose edits overlap others is passed over. -/
def convertCalls (u : SourceUnit) (sites : List Place.RepositoryCall) : Pass Unit :=
  (sortSites sites).forM fun site =>
    Pass.orOnOverlap (convertCall u site) fun o =>
      let line := lineNumber u.source site.call.start
      Pass.say .warning s!"Skipping call at line {line}: {o.message}"

def convert (u : SourceUnit) : Pass Unit := do
  match Pattern.parse u.settings.memberPattern with
  | .error e => throw (.pattern e)
  | .ok members =>
    convertConstructors u
    convertCalls u (callSites u members)

end OrmCodemod.Calls
