import LocallyEuclidean.Server.Retention
import LocallyEuclidean.Server.Maintenance
import LocallyEuclidean.Server.Correspondence
import LocallyEuclidean.Server.Uploads
import LocallyEuclidean.Server.Rollback
import LocallyEuclidean.Server.Limits
import LocallyEuclidean.Server.Downloads
import LocallyEuclidean.Server.Expiry
import LocallyEuclidean.Server.Handles
import LocallyEuclidean.Storage.Abandon
import LocallyEuclidean.Server.Modified
import LocallyEuclidean.Interact.Serial
import LocallyEuclidean.Server.Appends
import LocallyEuclidean.Server.Creation
import LocallyEuclidean.Server.Main
import LocallyEuclidean.Interact.Liveness
import LocallyEuclidean.Interact.Protocol
import LocallyEuclidean.Server.Connection
import LocallyEuclidean.Server.Operation
import LocallyEuclidean.Server.Errand
import LocallyEuclidean.Server.Progress
import LocallyEuclidean.Server.Tasks
import LocallyEuclidean.Server.Tending
import LocallyEuclidean.Interact.Faulty
import LocallyEuclidean.Server.Halting
import LocallyEuclidean.Server.Durability
import LocallyEuclidean.Server.Lasting
import LocallyEuclidean.Server.Provenance
