import Declass.Range
import Declass.Id
import Declass.Text.Template
import Declass.Text.Alphanumeric
import Declass.Text.Blank
import Declass.Text.Bytes
import Declass.Text.Decimal
import Declass.Diagnostic.Message
import Declass.Diagnostic.Bag
import Declass.Fault
import Declass.Code.Shape
import Declass.Code.Store
import Declass.Code.Edit
import Declass.Code.Build
import Declass.Code.Text
import Declass.Temps
import Declass.Pattern.CharSet
import Declass.Pattern.Basic
import Declass.Pattern.Build
import Declass.Pattern.Match
import Declass.Pattern.Reader
import Declass.Log.Basic
import Declass.Log.Directive
import Declass.Log.Filter
import Declass.Log.Settings
import Declass.Journal
import Declass.Lowering.Basic
import Declass.Lowering.Super
import Declass.Lowering.Class
import Declass.Scope.Table
import Declass.Scope.Globals
import Declass.Scope.Check
import Declass.Passes
import Declass.Json.Reader
import Declass.Config
import Declass.Compile
import Declass.Proofs.Leaves
import Declass.Proofs.Compilation
import Declass.Proofs.ClassFree
import Declass.Proofs.Grouping
import Declass.Proofs.Placement
import Declass.Proofs.Capture
import Declass.Proofs.Misuses
import Declass.Proofs.SelfUses
import Declass.Proofs.Temporaries
import Declass.Proofs.Legality
import Declass.Proofs.Reuse
import Declass.Proofs.Collisions
import Declass.Proofs.TempHistory
import Declass.Proofs.ScopeHistory
import Declass.Proofs.Bounds
import Declass.Proofs.CheckLayout
import Declass.Proofs.Keywords
import Declass.Proofs.ClassBinding
import Declass.Proofs.Dangling
import Declass.Proofs.Prologues
import Declass.Proofs.Synthetic
import Declass.Proofs.Leftovers
import Declass.Proofs.MemberTable
import Declass.Proofs.Shelter
import Declass.Proofs.Walks
import Declass.Proofs.Filling
import Declass.Proofs.Quoting
import Declass.Proofs.Lexing
import Declass.Proofs.Pieces
import Declass.Proofs.Outline
import Declass.Proofs.Fusion
