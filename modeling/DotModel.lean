import DotModel.Attributes
import DotModel.Document.Lexer
import DotModel.Document.Text
import DotModel.Document.Token
import DotModel.Document.Tree
import DotModel.Error
import DotModel.Graph.Basic
import DotModel.Graph.Command
import DotModel.Graph.Edge
import DotModel.Graph.Event
import DotModel.Graph.Member
import DotModel.Graph.Relations
import DotModel.Graph.Replay
import DotModel.Graph.Writing
import DotModel.Json.DocumentForm
import DotModel.Json.GraphForm
import DotModel.Json.ReadBack
import DotModel.Json.Token
import DotModel.Json.Value
import DotModel.Literal.Form
import DotModel.Literal.Quote
import DotModel.Ordered.Buckets
import DotModel.Ordered.Map
import DotModel.Ordered.Set
import DotModel.Proofs.Document.Lexing
import DotModel.Proofs.Document.Printing
import DotModel.Proofs.Document.Quoting
import DotModel.Proofs.Document.SafeName
import DotModel.Proofs.Graph.Coherence
import DotModel.Proofs.Nesting.Basic
import DotModel.Proofs.Ordered.Entries
import DotModel.Proofs.Ordered.Linking
import DotModel.Proofs.Outcome
import DotModel.Proofs.Replay.Copy
import DotModel.Proofs.Replay.EmptyPorts
import DotModel.Proofs.Replay.FixedPoint
import DotModel.Proofs.Replay.Growth
import DotModel.Proofs.Replay.RoundTrip
import DotModel.Proofs.Writing.Course
import DotModel.Proofs.Writing.Cycles
import DotModel.Proofs.Writing.Depth
import DotModel.Proofs.Writing.Exactness
import DotModel.Proofs.Writing.Finished
import DotModel.Proofs.Writing.OrphanPlacement
import DotModel.Proofs.Writing.Orphans
import DotModel.Proofs.Writing.Place
import DotModel.Proofs.Writing.Placement
import DotModel.Proofs.Writing.Recursion
import DotModel.Proofs.Writing.Steps
import DotModel.Proofs.Writing.Trail
import DotModel.Proofs.Writing.Walk
import DotModel.Proofs.Writing.Written
import DotModel.Settings.Basic
import DotModel.Settings.Environment
import DotModel.Settings.Layers
import DotModel.Settings.Toml.Reader
import DotModel.Settings.Toml.Text
import DotModel.Settings.Toml.Tree
import DotModel.Settings.Toml.Wrapped
import DotModel.Settings.Value
import DotModel.Text.Numeral
import DotModel.Text.Pieces
import DotModel.Text.Quoted
import DotModel.Proofs.Json.Lexing
import DotModel.Proofs.Json.Parts
import DotModel.Proofs.Json.StoredGraph
import DotModel.Document.Grammar
import DotModel.Proofs.Document.Derivation
import DotModel.Proofs.Json.StoredDocument
import DotModel.Proofs.Writing.Distinctness
import DotModel.Graph.History
import DotModel.Proofs.Graph.Consistency
import DotModel.Proofs.Writing.Shape
import DotModel.Proofs.Json.Nesting
import DotModel.Document.Wording
import DotModel.Proofs.Document.Wording
import DotModel.Proofs.Document.Unambiguous
import DotModel.Proofs.Writing.Agreement
import DotModel.Proofs.Writing.Removal
import DotModel.Proofs.Graph.Pairs
import DotModel.Proofs.Writing.Limit
import DotModel.Proofs.Writing.Size
import DotModel.Proofs.Writing.Relevance
import DotModel.Graph.InPlace
import DotModel.Proofs.Graph.Incidence
import DotModel.Proofs.Graph.Undoing
import DotModel.Proofs.Graph.Scope
import DotModel.Proofs.Graph.Registration
import DotModel.Proofs.Graph.Clearing
import DotModel.Proofs.Graph.Merging
import DotModel.Graph.Source
import DotModel.Proofs.Graph.EdgeIndex
import DotModel.Proofs.Writing.EdgesLast
import DotModel.Proofs.Document.Escaping
import DotModel.Literal.Language
import DotModel.Literal.Scan
import DotModel.Proofs.Literal.Scanning
import DotModel.Proofs.Literal.Recognition
import DotModel.Proofs.Literal.Classification
import DotModel.Settings.Merge
import DotModel.Proofs.Settings.Merging
import DotModel.Proofs.Settings.Variables
import DotModel.Proofs.Settings.Unwrapping
import DotModel.Proofs.Settings.Loading
