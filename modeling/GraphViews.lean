import GraphViews.Graph.PropertyMap
import GraphViews.Main
import GraphViews.Proofs.Graph.Stack
import GraphViews.Proofs.Command.Show
import GraphViews.Proofs.Filter.Acceptance
import GraphViews.Proofs.Record.Loading
import GraphViews.Proofs.Record.Selection
import GraphViews.Proofs.Filter.Preservation
import GraphViews.Proofs.Graph.Enumeration
import GraphViews.Proofs.Graph.Symmetry
import GraphViews.Proofs.Record.Handshake
import GraphViews.Proofs.Filter.Grammar
import GraphViews.Proofs.Filter.Lexemes
import GraphViews.Proofs.Filter.Literals
import GraphViews.Proofs.Filter.ParserResults
import GraphViews.Proofs.Filter.ParserSoundness
import GraphViews.Proofs.Filter.Parts
import GraphViews.Proofs.Filter.ParserCompleteness
import GraphViews.Proofs.Filter.Classification
import GraphViews.Proofs.Filter.Rendering
import GraphViews.Proofs.Record.Refusal
import GraphViews.Proofs.Record.Reloading
import GraphViews.Proofs.Graph.Calls
import GraphViews.Proofs.Graph.Store
import GraphViews.Proofs.Graph.Shape
import GraphViews.Proofs.Graph.Faithful
import GraphViews.Proofs.Command.Printing
import GraphViews.Proofs.Filter.Rejection
import GraphViews.Proofs.Command.Completion
import GraphViews.Proofs.Command.Agreement
import GraphViews.Proofs.Graph.Slots
import GraphViews.Proofs.Graph.Ownership
import GraphViews.Proofs.Filter.Blame
import GraphViews.Proofs.Command.Directions
import GraphViews.Proofs.Filter.NormalForm
import GraphViews.Proofs.Graph.BothEnds
import GraphViews.Proofs.Filter.Continuation
import GraphViews.Proofs.Record.Reading
import GraphViews.Proofs.Filter.ExactMeaning
import GraphViews.Proofs.Graph.OneMap
import GraphViews.Proofs.Command.MissingIds
import GraphViews.Proofs.Record.ReadBack
