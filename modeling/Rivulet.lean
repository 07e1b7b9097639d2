import Rivulet.Project.Interned
import Rivulet.Main
import Rivulet.Reactor
import Rivulet.Proofs.Host.Snapshots
import Rivulet.Proofs.Interference.Noninterference
import Rivulet.Proofs.Lexical.Agreement
import Rivulet.Proofs.Project.Borrowing
import Rivulet.Proofs.Project.Detection
import Rivulet.Proofs.Streams.Trace
import Rivulet.Proofs.Typing.Programs
import Rivulet.Proofs.Streams.Delivery
import Rivulet.Proofs.Saved.Loading
import Rivulet.Proofs.Line.Parentheses
import Rivulet.Proofs.Iteration.HigherOrder
import Rivulet.Proofs.Analysis.Arity
import Rivulet.Proofs.Segments.Literals
import Rivulet.Proofs.Segments.Defaults
import Rivulet.Proofs.Analysis.Edges
import Rivulet.Proofs.Host.Observation
import Rivulet.Proofs.Typing.Order
import Rivulet.Proofs.Analysis.Locality
import Rivulet.Proofs.Measure.Group
import Rivulet.Proofs.Value.Membership
import Rivulet.Proofs.Typing.Consistency
import Rivulet.Proofs.Line.Lenience
import Rivulet.Proofs.Quantity.Arithmetic
import Rivulet.Proofs.Quantity.Display
import Rivulet.Proofs.Tree.Orders
import Rivulet.Proofs.Line.Nesting
import Rivulet.Proofs.Typing.Queries
import Rivulet.Proofs.Line.Culprits
