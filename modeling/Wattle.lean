import Wattle.Check.Error
import Wattle.Check.Expr
import Wattle.Check.Program
import Wattle.Check.Stmt
import Wattle.Command
import Wattle.Compile
import Wattle.Diagnostic
import Wattle.Files
import Wattle.Json.Basic
import Wattle.Json.Dump
import Wattle.Lower.Error
import Wattle.Lower.Expr
import Wattle.Lower.Program
import Wattle.Lower.Select
import Wattle.Lower.Slots
import Wattle.Lower.Stmt
import Wattle.Main
import Wattle.Parse.Cursor
import Wattle.Parse.Cursor.Action
import Wattle.Parse.Error
import Wattle.Parse.Expr
import Wattle.Parse.Parser
import Wattle.Parse.Program
import Wattle.Parse.Stmt
import Wattle.Parse.Ty
import Wattle.Program.Basic
import Wattle.Program.Expr
import Wattle.Program.Node
import Wattle.Program.Operator
import Wattle.Program.Stmt
import Wattle.Scope
import Wattle.Scope.Action
import Wattle.Source.Lines
import Wattle.Source.Location
import Wattle.Text.Blank
import Wattle.Text.CharLiteral
import Wattle.Text.CodeRange
import Wattle.Text.Decimal
import Wattle.Text.Extending
import Wattle.Text.Ignorable
import Wattle.Text.Printable
import Wattle.Token.Basic
import Wattle.Token.Lexer
import Wattle.Token.Mark
import Wattle.Token.Word
import Wattle.Ty
import Wattle.Wasm.Instr
import Wattle.Wasm.Module
import Wattle.Wasm.SExpr
import Wattle.Wasm.ValueType
import Wattle.Proofs.Success
import Wattle.Proofs.Typing
import Wattle.Proofs.CheckerSound
import Wattle.Proofs.Accepted
import Wattle.Proofs.SlotAllocation
import Wattle.Proofs.LoweringErrors
import Wattle.Proofs.BodiesTyped
import Wattle.Proofs.EmittedModule
import Wattle.Proofs.MemoryUse
import Wattle.Proofs.Meaning
import Wattle.Proofs.Machine
import Wattle.Proofs.Simulation
import Wattle.Proofs.ControlFlow
import Wattle.Proofs.BodyRuns
import Wattle.Proofs.Preservation
import Wattle.Proofs.LexicalStructure
import Wattle.Proofs.LayoutIndependence
import Wattle.Proofs.TypeDecision
import Wattle.Proofs.ParserComplete
import Wattle.Proofs.OperandForm
import Wattle.Proofs.PostOrder
import Wattle.Proofs.Numbering
import Wattle.Proofs.DenseNumbers
import Wattle.Proofs.BlamedPlaces
import Wattle.Proofs.ErrorPlaces
import Wattle.Proofs.Immutability
import Wattle.Proofs.Prediction
import Wattle.Proofs.SharedTokens
import Wattle.Proofs.Lookahead
import Wattle.Proofs.OneTokenAhead
import Wattle.Proofs.Completion
import Wattle.Proofs.CorrectPrefix
import Wattle.Proofs.Renaming
import Wattle.Proofs.RenamedCode
import Wattle.Proofs.LocalNames
import Wattle.Proofs.DeclarationOrder
import Wattle.Proofs.Assembly
import Wattle.Proofs.OperandChains
import Wattle.Proofs.Precedence
import Wattle.Proofs.IntegerWords
import Wattle.Proofs.IntegerArithmetic
import Wattle.Proofs.DeclarationSlots
import Wattle.Proofs.DefiniteInitialization
import Wattle.Proofs.TokenSpans
import Wattle.Proofs.NestedSpans
import Wattle.Proofs.NearestValue
import Wattle.Proofs.NumericLiterals
import Wattle.Proofs.JoinedTexts
import Wattle.Proofs.SpelledTokens
import Wattle.Proofs.Rewrapping
import Wattle.Proofs.RewrappedCode
import Wattle.Proofs.PrintedTrees
import Wattle.Proofs.PrintedLines
import Wattle.Proofs.PlainModules
import Wattle.Proofs.PrintedTypes
import Wattle.Proofs.BalancedScopes
import Wattle.Proofs.ScopesInStep
import Wattle.Proofs.OpenFrames
import Wattle.Proofs.CursorRuns
import Wattle.Proofs.SourcePlaces
