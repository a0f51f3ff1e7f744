import Jagged.Layout.Build
import Jagged.Layout.Select
import Jagged.Layout.Sort
import Jagged.Proofs.Picking
import Jagged.Proofs.Views
import Jagged.Proofs.Lanes
import Jagged.Proofs.LeafSort
import Jagged.Proofs.SortInvariant
import Jagged.Proofs.Reachable
import Jagged.Proofs.Nested
import Jagged.Proofs.LeafValues
import Jagged.Proofs.SortValues
import Jagged.Proofs.Values
import Jagged.Proofs.Reordering
import Jagged.Proofs.LineOrders
import Jagged.Proofs.NestedLines
import Jagged.Proofs.Outcomes
import Jagged.Proofs.Structure
import Jagged.Proofs.SortErrors
import Jagged.Proofs.FieldChoice
import Jagged.Proofs.Shuffling
import Jagged.Proofs.Gathering
import Jagged.Proofs.IndexChain
import Jagged.Proofs.RowByRow
import Jagged.Proofs.EvenRows
import Jagged.Proofs.LeafLines
import Jagged.Proofs.RankOrder
import Jagged.Proofs.SortedTwice
import Jagged.Proofs.Descending
import Jagged.Proofs.DisjointLanes
import Jagged.Proofs.Boundaries
import Jagged.Proofs.FloatOrder
import Jagged.Proofs.ShapeProducts
import Jagged.Proofs.Rounds
import Jagged.Proofs.Tiling
