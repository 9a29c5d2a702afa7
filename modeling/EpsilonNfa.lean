import EpsilonNfa.Automaton.Text
import EpsilonNfa.Graph.Path
import EpsilonNfa.Main
import EpsilonNfa.Proofs.Concatenation
import EpsilonNfa.Proofs.Independence
import EpsilonNfa.Session.Walk
import EpsilonNfa.Proofs.Operation
import EpsilonNfa.Proofs.SharedCursor
import EpsilonNfa.Proofs.Line
import EpsilonNfa.Proofs.Reading
import EpsilonNfa.Proofs.Word
import EpsilonNfa.Proofs.Expression
import EpsilonNfa.Proofs.CommandLine
import EpsilonNfa.Proofs.OneSource
import EpsilonNfa.Proofs.WholeSession
import EpsilonNfa.Proofs.Listing
import EpsilonNfa.Proofs.Associativity
import EpsilonNfa.Proofs.Apartness
import EpsilonNfa.Proofs.Refusal
import EpsilonNfa.Proofs.Resolution
import EpsilonNfa.Proofs.SharedImages
import EpsilonNfa.Proofs.LiveTraversal
import EpsilonNfa.Proofs.EdgeTrace
import EpsilonNfa.Proofs.LiveEdges
import EpsilonNfa.Proofs.Preorder
import EpsilonNfa.Proofs.CopyOrder
import EpsilonNfa.Proofs.Distance
import EpsilonNfa.Proofs.Prefixes
import EpsilonNfa.Proofs.WellFormedListing
import EpsilonNfa.Proofs.Drawing
import EpsilonNfa.Proofs.DefaultIds
import EpsilonNfa.Proofs.Inspection
import EpsilonNfa.Proofs.Undisturbed
import EpsilonNfa.Proofs.FailingLetter
import EpsilonNfa.Proofs.TransitionHistory
import EpsilonNfa.Proofs.CopyAll
import EpsilonNfa.Proofs.WordIds
import EpsilonNfa.Proofs.ClosureLaws
import EpsilonNfa.Proofs.FaithfulDrawing
import EpsilonNfa.Proofs.Turns
