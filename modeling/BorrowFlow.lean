import BorrowFlow.Main
import BorrowFlow.SubsetGraph.Indexed
import BorrowFlow.Sample
import BorrowFlow.Proofs.Arena
import BorrowFlow.Proofs.Reach
import BorrowFlow.Proofs.Sweep
import BorrowFlow.Proofs.Fact
import BorrowFlow.Proofs.Except
import BorrowFlow.Proofs.Flow
import BorrowFlow.Proofs.Checked
import BorrowFlow.Proofs.Liveness
import BorrowFlow.Proofs.SubsetGraph
import BorrowFlow.Proofs.ActiveLoans
import BorrowFlow.Proofs.Settling
import BorrowFlow.Proofs.Analysis
import BorrowFlow.Proofs.RegionValue
import BorrowFlow.Proofs.Widening
import BorrowFlow.Proofs.Budget
import BorrowFlow.Proofs.CommandLine.Verdict
import BorrowFlow.Proofs.Layout
import BorrowFlow.Proofs.Builder.Change
import BorrowFlow.Proofs.Ty
import BorrowFlow.Proofs.Builder.Step
import BorrowFlow.Proofs.Builder.Statement
import BorrowFlow.Proofs.Builder.Finish
import BorrowFlow.Proofs.Builder.Origin
import BorrowFlow.Proofs.Builder.Outcome
import BorrowFlow.Proofs.Builder.Alike
import BorrowFlow.Proofs.Builder.Run
import BorrowFlow.Proofs.Overwrite
import BorrowFlow.Proofs.Lending
import BorrowFlow.Proofs.Carrying
import BorrowFlow.Proofs.Source
import BorrowFlow.Proofs.Source.Spelling
import BorrowFlow.Proofs.Source.Grammar
import BorrowFlow.Proofs.Source.Completeness
import BorrowFlow.Proofs.Source.Proper
import BorrowFlow.Proofs.Source.Written
import BorrowFlow.Proofs.Source.Listing
import BorrowFlow.Proofs.Source.Elaboration
import BorrowFlow.Proofs.Source.Replay
import BorrowFlow.Proofs.Source.RoundTrip
import BorrowFlow.Proofs.Source.Cutting
import BorrowFlow.Proofs.Source.Viability
import BorrowFlow.Proofs.Source.Lookahead
import BorrowFlow.Proofs.Source.Recognition
import BorrowFlow.Proofs.CommandLine.Reading
import BorrowFlow.Proofs.Exactness
import BorrowFlow.Proofs.Trace
import BorrowFlow.Proofs.Restart
import BorrowFlow.Proofs.LeastValue
import BorrowFlow.Proofs.Reported
import BorrowFlow.Proofs.SubsetGraph.Indexed
import BorrowFlow.Proofs.Ty.Position
import BorrowFlow.Proofs.Ty.Relate
import BorrowFlow.Proofs.Place
import BorrowFlow.Proofs.Storage
import BorrowFlow.Proofs.Conflict
import BorrowFlow.Proofs.Escaping
import BorrowFlow.Proofs.SubsetGraph.Edges
import BorrowFlow.Proofs.Builder.Request
import BorrowFlow.Proofs.Precision
import BorrowFlow.Proofs.Coherence
import BorrowFlow.Proofs.Builder.Recovery
import BorrowFlow.Proofs.Source.Placement
import BorrowFlow.Proofs.Postorder
import BorrowFlow.Proofs.PointIndex
import BorrowFlow.Proofs.Lookup
import BorrowFlow.Proofs.Ty.Listing
