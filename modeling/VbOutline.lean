import VbOutline.Editor.Entry
import VbOutline.Editor.Query
import VbOutline.Files.Folder
import VbOutline.Files.Path
import VbOutline.Files.Script
import VbOutline.Files.Utf8
import VbOutline.Grammar.Cursor
import VbOutline.Grammar.Declaration
import VbOutline.Grammar.Header
import VbOutline.Grammar.Keyword
import VbOutline.Grammar.Parameters
import VbOutline.Outline.Blocks
import VbOutline.Outline.Closing
import VbOutline.Outline.Declared
import VbOutline.Outline.Opening
import VbOutline.Outline.Parse
import VbOutline.Outline.Reading
import VbOutline.Outline.Rule
import VbOutline.Position
import VbOutline.Problem
import VbOutline.Proofs.ArrayMarks
import VbOutline.Proofs.BlockForms
import VbOutline.Proofs.Composition
import VbOutline.Proofs.Documents
import VbOutline.Proofs.Enclosure
import VbOutline.Proofs.FolderIndex
import VbOutline.Proofs.FolderPaths
import VbOutline.Proofs.Forms
import VbOutline.Proofs.HeaderForms
import VbOutline.Proofs.LetterCase
import VbOutline.Proofs.Lexemes
import VbOutline.Proofs.LineShift
import VbOutline.Proofs.Lines
import VbOutline.Proofs.LiteralPattern
import VbOutline.Proofs.MethodEnds
import VbOutline.Proofs.NameRanges
import VbOutline.Proofs.Nesting
import VbOutline.Proofs.Offsets
import VbOutline.Proofs.Ownership
import VbOutline.Proofs.Pairing
import VbOutline.Proofs.ParameterLists
import VbOutline.Proofs.Parameters
import VbOutline.Proofs.Parents
import VbOutline.Proofs.Partition
import VbOutline.Proofs.QuoteParity
import VbOutline.Proofs.Ranges
import VbOutline.Proofs.Readers
import VbOutline.Proofs.ReportLines
import VbOutline.Proofs.Reports
import VbOutline.Proofs.RuleOrder
import VbOutline.Proofs.ScopeStack
import VbOutline.Proofs.ScopeTree
import VbOutline.Proofs.ScriptText
import VbOutline.Proofs.Segments
import VbOutline.Proofs.Sessions
import VbOutline.Proofs.SlotRules
import VbOutline.Proofs.Slots
import VbOutline.Proofs.Spelling
import VbOutline.Proofs.Standing
import VbOutline.Proofs.Statements
import VbOutline.Proofs.Steps
import VbOutline.Proofs.StoreTables
import VbOutline.Proofs.SymbolOrder
import VbOutline.Proofs.Turns
import VbOutline.Proofs.Uncased
import VbOutline.Proofs.Unread
import VbOutline.Proofs.ValidRanges
import VbOutline.Proofs.VariableLists
import VbOutline.Scope
import VbOutline.Server
import VbOutline.Source.Line
import VbOutline.Source.Location
import VbOutline.Source.LogicalLine
import VbOutline.Source.Statement
import VbOutline.Store
import VbOutline.Symbol
import VbOutline.Text.Blank
import VbOutline.Text.Fold
import VbOutline.Text.Lexeme
import VbOutline.Text.Occurs
