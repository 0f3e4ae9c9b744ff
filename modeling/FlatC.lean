import FlatC.Text.Numeral
import FlatC.Text.Blank
import FlatC.Text.Lead
import FlatC.Text.Utf8
import FlatC.Token.Basic
import FlatC.Token.Class
import FlatC.Chain.Basic
import FlatC.Chain.Cells
import FlatC.Chain.Search
import FlatC.Pattern.Basic
import FlatC.Bindings
import FlatC.Files.Name
import FlatC.Files.Table
import FlatC.Macros
import FlatC.TypeSizes
import FlatC.Source.Cursor
import FlatC.Source.Deletion
import FlatC.Source.Directive
import FlatC.Source.Lexeme
import FlatC.Source.Store
import FlatC.Workspace.Basic
import FlatC.Workspace.Reading
import FlatC.Edit.Basic
import FlatC.Edit.Fusion
import FlatC.Edit.Typedef
import FlatC.Edit.Unsigned
import FlatC.Edit.Constant
import FlatC.Target
import FlatC.Edit.Sizeof
import FlatC.Edit.ArraySizeof
import FlatC.Edit.Arithmetic
import FlatC.Edit.Subscript
import FlatC.Edit.Declaration
import FlatC.Workspace.Tokenizing
import FlatC.Workspace.Simplifying
import FlatC.Workspace.Listing
import FlatC.CommandLine.Options
import FlatC.CommandLine.Run
import FlatC.FileTree
import FlatC.Main
import FlatC.Proofs.Chain.Laid
import FlatC.Proofs.Chain.Insertion
import FlatC.Proofs.Chain.Removal
import FlatC.Proofs.Chain.Copying
import FlatC.Proofs.Chain.Row
import FlatC.Proofs.Chain.Numbers
import FlatC.Proofs.Chain.Runs
import FlatC.Proofs.Chain.Stock
import FlatC.Proofs.Chain.Relay
import FlatC.Proofs.Chain.Cyclic
import FlatC.Proofs.Edit.Basic
import FlatC.Proofs.Edit.Fusion
import FlatC.Proofs.Edit.Unsigned
import FlatC.Proofs.Edit.Typedef
import FlatC.Proofs.Edit.Arithmetic
import FlatC.Proofs.Edit.ArraySizeof
import FlatC.Proofs.Edit.Constant
import FlatC.Proofs.Edit.Declaration
import FlatC.Proofs.Edit.Sizeof
import FlatC.Proofs.Edit.Subscript
import FlatC.Proofs.Workspace.Layout
import FlatC.Proofs.Edit.Everywhere
import FlatC.Proofs.Edit.Splitting
import FlatC.Proofs.Workspace.Settled
import FlatC.Proofs.Edit.Nesting
import FlatC.Proofs.Edit.Brackets
import FlatC.Proofs.Workspace.Brackets
import FlatC.Proofs.Source.Lexemes
import FlatC.Proofs.Workspace.Scanning
import FlatC.Proofs.Workspace.Growth
import FlatC.Proofs.Workspace.Lines
import FlatC.Proofs.Source.Spacing
import FlatC.Proofs.Workspace.Spacing
import FlatC.Proofs.Workspace.Reader
import FlatC.Proofs.Workspace.Once
import FlatC.Proofs.Workspace.Depth
import FlatC.Proofs.Source.Ahead
import FlatC.Proofs.Workspace.Joining
import FlatC.Proofs.Edit.Fused
import FlatC.Proofs.Source.Plain
import FlatC.Proofs.Edit.Expanded
import FlatC.Proofs.Workspace.Arranged
import FlatC.Proofs.Workspace.Flat
import FlatC.Proofs.Workspace.Further
import FlatC.Proofs.Text.Numeral
import FlatC.Proofs.Edit.Rewriting
import FlatC.Proofs.Expression.Grammar
import FlatC.Proofs.Expression.Parsing
import FlatC.Proofs.Expression.Alike
import FlatC.Proofs.Expression.Folding
import FlatC.Proofs.Workspace.Markers
import FlatC.Proofs.Text.Size
import FlatC.Proofs.Workspace.Marks
import FlatC.Proofs.Workspace.Capped
import FlatC.Proofs.Edit.Initializer
import FlatC.Proofs.Edit.Declarators
import FlatC.Proofs.Edit.Braces
import FlatC.Proofs.Edit.Walking
import FlatC.Proofs.Edit.Environment
import FlatC.Proofs.Edit.Windows
import FlatC.Proofs.Edit.Replacing
import FlatC.Proofs.Edit.Substitution
import FlatC.Proofs.Pointer.Grammar
import FlatC.Proofs.Pointer.Rewriting
import FlatC.Proofs.Edit.Greedy
import FlatC.Proofs.Edit.Scope
import FlatC.Proofs.Edit.Arrays
import FlatC.Proofs.Edit.Elements
import FlatC.Proofs.Source.Quotes
import FlatC.Proofs.Workspace.Literals
import FlatC.Proofs.Edit.Dropping
import FlatC.Proofs.Macros.Definitions
import FlatC.Proofs.Workspace.Places
import FlatC.Proofs.Chain.Earliest
import FlatC.Proofs.Text.Words
import FlatC.Proofs.Pattern.Matching
import FlatC.Proofs.Source.Searching
import FlatC.Proofs.Source.Buffer
import FlatC.Proofs.Workspace.ByPlace
import FlatC.Proofs.Files.Naming
import FlatC.Proofs.Files.Numbering
import FlatC.Proofs.CommandLine.Reading
import FlatC.Proofs.Chain.InPlace
import FlatC.Proofs.Links.Program
import FlatC.Proofs.Links.Rules
import FlatC.Proofs.Links.Names
import FlatC.Proofs.Links.Sizes
import FlatC.Proofs.Links.Rewrites
import FlatC.Proofs.Links.Declarations
import FlatC.Proofs.Links.Stages
