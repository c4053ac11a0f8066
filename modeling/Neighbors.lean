import Neighbors.Settings
import Neighbors.Index.Sum
import Neighbors.Demo.Run
import Neighbors.Main
import Neighbors.Proofs.SortedAxis.Nearest
import Neighbors.Proofs.Refined.Recall
import Neighbors.Proofs.Removal
import Neighbors.Proofs.Tracked
import Neighbors.Proofs.Tower.Alike
import Neighbors.Proofs.Tower.Aligned
import Neighbors.Proofs.RowList
import Neighbors.Proofs.NotNumbers
import Neighbors.Proofs.Survivors
import Neighbors.Proofs.Tower.InRange
import Neighbors.Proofs.Tower.Rowwise
import Neighbors.Proofs.WithinRadius
import Neighbors.Proofs.RowRange
import Neighbors.Proofs.StaleShift
import Neighbors.Proofs.Tower.Reconstructed
import Neighbors.Proofs.RescoredSearch
import Neighbors.Proofs.Tower.SelfFound
import Neighbors.Proofs.DemoOutcome
