import OrmCodemod.Command.Arguments
import OrmCodemod.Command.Execute
import OrmCodemod.Console.Markup
import OrmCodemod.Console.Table
import OrmCodemod.Dialect
import OrmCodemod.Editor
import OrmCodemod.Files.Disk
import OrmCodemod.Files.Migration
import OrmCodemod.Files.Reading
import OrmCodemod.Log
import OrmCodemod.Main
import OrmCodemod.Pass.Calls
import OrmCodemod.Pass.Entities
import OrmCodemod.Pass.Imports
import OrmCodemod.Pass.Outcome
import OrmCodemod.Pass.Resolver
import OrmCodemod.Pass.Rules
import OrmCodemod.Pass.Session
import OrmCodemod.Path
import OrmCodemod.Pattern.CaseTwins
import OrmCodemod.Pattern.Parse
import OrmCodemod.Pattern.Regex
import OrmCodemod.Proofs.Alignment
import OrmCodemod.Proofs.Alike
import OrmCodemod.Proofs.Along
import OrmCodemod.Proofs.ArgumentGrammar
import OrmCodemod.Proofs.Attached
import OrmCodemod.Proofs.Between
import OrmCodemod.Proofs.CallShape
import OrmCodemod.Proofs.CallText
import OrmCodemod.Proofs.ClauseGrammar
import OrmCodemod.Proofs.ColumnFields
import OrmCodemod.Proofs.CommentLayout
import OrmCodemod.Proofs.Commuting
import OrmCodemod.Proofs.Completion
import OrmCodemod.Proofs.Decoding
import OrmCodemod.Proofs.Compose
import OrmCodemod.Proofs.Composition
import OrmCodemod.Proofs.Content
import OrmCodemod.Proofs.Converting
import OrmCodemod.Proofs.Described
import OrmCodemod.Proofs.EnumRequests
import OrmCodemod.Proofs.Extraction
import OrmCodemod.Proofs.FieldNames
import OrmCodemod.Proofs.FieldTypes
import OrmCodemod.Proofs.FileTree
import OrmCodemod.Proofs.Follows
import OrmCodemod.Proofs.ForeignKeys
import OrmCodemod.Proofs.Frame
import OrmCodemod.Proofs.Grammar.Elements
import OrmCodemod.Proofs.Grammar.Endings
import OrmCodemod.Proofs.Grammar.Expressions
import OrmCodemod.Proofs.Grammar.Grades
import OrmCodemod.Proofs.Grammar.Literals
import OrmCodemod.Proofs.Grammar.Members
import OrmCodemod.Proofs.Grammar.Parsed
import OrmCodemod.Proofs.Grammar.Productions
import OrmCodemod.Proofs.Grammar.Statements
import OrmCodemod.Proofs.Grammar.Tiling
import OrmCodemod.Proofs.Grammar.Tokens
import OrmCodemod.Proofs.Grammar.Types
import OrmCodemod.Proofs.History
import OrmCodemod.Proofs.Idle
import OrmCodemod.Proofs.ImportClauses
import OrmCodemod.Proofs.ImportEdits
import OrmCodemod.Proofs.ImportPaths
import OrmCodemod.Proofs.ImportSteps
import OrmCodemod.Proofs.Independence
import OrmCodemod.Proofs.Injection
import OrmCodemod.Proofs.Introduced
import OrmCodemod.Proofs.Lasting
import OrmCodemod.Proofs.Licence
import OrmCodemod.Proofs.LineEnds
import OrmCodemod.Proofs.ListItems
import OrmCodemod.Proofs.Literals
import OrmCodemod.Proofs.LostNames
import OrmCodemod.Proofs.MatchOrder
import OrmCodemod.Proofs.Members
import OrmCodemod.Proofs.Merging
import OrmCodemod.Proofs.Mirror
import OrmCodemod.Proofs.ModelScope
import OrmCodemod.Proofs.Nesting
import OrmCodemod.Proofs.NewArguments
import OrmCodemod.Proofs.Notices
import OrmCodemod.Proofs.OptionOrder
import OrmCodemod.Proofs.OptionalAccess
import OrmCodemod.Proofs.ParameterList
import OrmCodemod.Proofs.Pieces
import OrmCodemod.Proofs.Places
import OrmCodemod.Proofs.PostOrder
import OrmCodemod.Proofs.Quiet
import OrmCodemod.Proofs.Ranges
import OrmCodemod.Proofs.Registrations
import OrmCodemod.Proofs.Removal
import OrmCodemod.Proofs.Requests
import OrmCodemod.Proofs.Rest
import OrmCodemod.Proofs.SchemaCommand
import OrmCodemod.Proofs.SecondPass
import OrmCodemod.Proofs.Settled
import OrmCodemod.Proofs.Shows
import OrmCodemod.Proofs.Sorting
import OrmCodemod.Proofs.Standing
import OrmCodemod.Proofs.Steps
import OrmCodemod.Proofs.Strands
import OrmCodemod.Proofs.TargetImports
import OrmCodemod.Proofs.Traversal
import OrmCodemod.Proofs.TreeShape
import OrmCodemod.Proofs.Turns
import OrmCodemod.Proofs.TypeMarks
import OrmCodemod.Proofs.TypeNames
import OrmCodemod.Proofs.Utf8
import OrmCodemod.Proofs.View
import OrmCodemod.Proofs.Visits
import OrmCodemod.Proofs.Walk
import OrmCodemod.Proofs.Weaving
import OrmCodemod.Proofs.WholeCalls
import OrmCodemod.Proofs.Wrapping
import OrmCodemod.Reading
import OrmCodemod.Schema.Collection
import OrmCodemod.Schema.Columns
import OrmCodemod.Schema.Model
import OrmCodemod.Schema.Reading
import OrmCodemod.Schema.Render
import OrmCodemod.Settings
import OrmCodemod.Syntax.Cursor
import OrmCodemod.Syntax.Grammar.Basic
import OrmCodemod.Syntax.Grammar.Elements
import OrmCodemod.Syntax.Grammar.Expressions
import OrmCodemod.Syntax.Grammar.Literal
import OrmCodemod.Syntax.Grammar.Members
import OrmCodemod.Syntax.Grammar.Statements
import OrmCodemod.Syntax.Grammar.Types
import OrmCodemod.Syntax.Kind
import OrmCodemod.Syntax.Parse
import OrmCodemod.Syntax.Place
import OrmCodemod.Syntax.Query
import OrmCodemod.Syntax.Tree
import OrmCodemod.Text.Blank
import OrmCodemod.Text.Case
import OrmCodemod.Text.CaseTable
import OrmCodemod.Text.Search
import OrmCodemod.Text.Utf8
import OrmCodemod.Text.Width
import OrmCodemod.Text.WordTable
import OrmCodemod.Tools
