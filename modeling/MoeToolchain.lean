import MoeToolchain.Lib.Exec
import MoeToolchain.Lib.Calls
import MoeToolchain.Lib.Heap
import MoeToolchain.Lib.References
import MoeToolchain.Lib.Readers
import MoeToolchain.Lib.Ring
import MoeToolchain.Lib.Digits
import MoeToolchain.Lib.Json
import MoeToolchain.Lib.Keyed
import MoeToolchain.Common.Base
import MoeToolchain.Common.MoeList
import MoeToolchain.Common.MoeListRuns
import MoeToolchain.Common.MoeListTraversals
import MoeToolchain.Common.MoeAlloc
import MoeToolchain.Common.MoeString
import MoeToolchain.Common.MoeStringRuns
import MoeToolchain.Common.AllocLog
import MoeToolchain.ProcMacro.Lexer
import MoeToolchain.ProcMacro.Types
import MoeToolchain.ProcMacro.TypesOwnership
import MoeToolchain.ProcMacro.Parser
import MoeToolchain.ProcMacro.Values
import MoeToolchain.ProcMacro.Grammar
import MoeToolchain.ProcMacro.ParserSound
import MoeToolchain.ProcMacro.ParserComplete
import MoeToolchain.ProcMacro.Ownership
import MoeToolchain.ProcMacro.Blocks
import MoeToolchain.ProcMacro.Accepted
import MoeToolchain.ProcMacro.TokenLoop
import MoeToolchain.ProcMacro.Files
import MoeToolchain.ProcMacro.Ndebug
import MoeToolchain.ProcMacro.EnumBlocks
import MoeToolchain.ProcMacro.LexicalErrors
import MoeToolchain.ProcMacro.Termination
import MoeToolchain.ProcMacro.Generate
import MoeToolchain.ProcMacro.NestedBodies
import MoeToolchain.ProcMacro.TokenArray
import MoeToolchain.ProcMacro.Main
import MoeToolchain.ProcMacro.StringLengths
import MoeToolchain.ProcMacro.StbCLexer
import MoeToolchain.ProcMacro.StringStore
import MoeToolchain.ProcMacro.LexerStream
import MoeToolchain.ProcMacro.Scan
import MoeToolchain.ProcMacro.ScanBounds
import MoeToolchain.ProcMacro.ErrorTexts
import MoeToolchain.ProcMacro.FreshStore
import MoeToolchain.ProcMacro.Configurations
import MoeToolchain.ProcMacro.Lexemes
import MoeToolchain.ProcMacro.LexemesSound
import MoeToolchain.ProcMacro.Complete
import MoeToolchain.ProcMacro.SharedArray
import MoeToolchain.ProcMacro.FileStructs
import MoeToolchain.ProcMacro.Outcomes
import MoeToolchain.ProcMacro.JsReferences
import MoeToolchain.ProcMacro.JsReferenceRuns
import MoeToolchain.Scripts.CText
import MoeToolchain.Scripts.Debug
import MoeToolchain.Scripts.Signatures
import MoeToolchain.Scripts.GeneratedCalls
import MoeToolchain.Scripts.Headers
import MoeToolchain.Scripts.Pipeline
import MoeToolchain.Scripts.CRun
import MoeToolchain.Scripts.Declarations
import MoeToolchain.Scripts.MemberText
import MoeToolchain.Scripts.Layout
import MoeToolchain.Scripts.FieldScan
import MoeToolchain.Scripts.NamedTypes
import MoeToolchain.Scripts.Members
import MoeToolchain.Scripts.Typing
import MoeToolchain.Scripts.NullSafety
import MoeToolchain.Scripts.CSpelling
import MoeToolchain.Scripts.Enumerators
import MoeToolchain.Scripts.CTokens
import MoeToolchain.Scripts.CReader
import MoeToolchain.Scripts.ReadBack
import MoeToolchain.Tool.Memleak
import MoeToolchain.Tool.LeakDetectors
import MoeToolchain.Tool.LeakReport
import MoeToolchain.Tool.Interleavings
