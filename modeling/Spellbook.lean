import Spellbook.Text.Alphabetic
import Spellbook.Text.Numeric
import Spellbook.Text.Blank
import Spellbook.Text.Quoted
import Spellbook.Text.Lines
import Spellbook.Number.Layout
import Spellbook.Number.Reader
import Spellbook.Token.Lexer
import Spellbook.Program.Stmt
import Spellbook.Program.Printer
import Spellbook.Program.Parser
import Spellbook.Report.Render
import Spellbook.Store.Lineage
import Spellbook.Store.Equality
import Spellbook.Store.Printer
import Spellbook.Builtin
import Spellbook.Path
import Spellbook.Files
import Spellbook.Files.Tree
import Spellbook.Settings
import Spellbook.Import
import Spellbook.Machine
import Spellbook.Eval
import Spellbook.Session
import Spellbook.Command
import Spellbook.Files.Snapshot
import Spellbook.Main
import Spellbook.Proofs.Activation
import Spellbook.Proofs.Termination
import Spellbook.Proofs.RoundTrip
import Spellbook.Proofs.Token.Layout
import Spellbook.Proofs.Program.Parser.Chains
import Spellbook.Proofs.Located
import Spellbook.Proofs.Origins
import Spellbook.Proofs.Ensnared
import Spellbook.Proofs.Positions
import Spellbook.Proofs.Import.Once
import Spellbook.Proofs.Signals.Stray
import Spellbook.Proofs.Locality
import Spellbook.Proofs.Token.Lossless
import Spellbook.Proofs.Completion
import Spellbook.Proofs.Nesting
import Spellbook.Proofs.Recovery
import Spellbook.Proofs.ReadBack
import Spellbook.Proofs.Holes
import Spellbook.Proofs.Interpolation
import Spellbook.Proofs.BodyLayout
import Spellbook.Proofs.CommentLines
import Spellbook.Proofs.Instances
import Spellbook.Proofs.Methods
import Spellbook.Proofs.ScopeChain
import Spellbook.Proofs.Keys
import Spellbook.Proofs.Value.Equality
import Spellbook.Proofs.Globals
import Spellbook.Proofs.Privacy
import Spellbook.Proofs.Slices
import Spellbook.Proofs.Maps
import Spellbook.Proofs.Indexing
import Spellbook.Proofs.Ranges
import Spellbook.Proofs.Repetition
import Spellbook.Proofs.Conversion
import Spellbook.Proofs.Assignment.Atomic
import Spellbook.Proofs.Hints
import Spellbook.Proofs.LexicalErrors
import Spellbook.Proofs.Token.LineEnds
import Spellbook.Proofs.Carets
import Spellbook.Proofs.Inheritance
