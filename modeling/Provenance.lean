import Provenance.Main
import Provenance.Exchange.Asset
import Provenance.Exchange.Drawing
import Provenance.Exchange.Fault
import Provenance.Exchange.Forecast
import Provenance.Exchange.Graph
import Provenance.Exchange.Run
import Provenance.Exchange.Settings
import Provenance.Exchange.Task
import Provenance.Store.Connection.Storage
import Provenance.Store.Folder
import Provenance.Proofs.Catalog
import Provenance.Proofs.Graph.Values
import Provenance.Proofs.Order
import Provenance.Proofs.Lineage
import Provenance.Proofs.Run.Queue
import Provenance.Proofs.Run.Trace
import Provenance.Proofs.Run.Values
import Provenance.Proofs.Runs
import Provenance.Proofs.Survey
import Provenance.Proofs.Walk
import Provenance.Proofs.Endings
import Provenance.Proofs.OneWorker
import Provenance.Proofs.Boundaries
import Provenance.Proofs.Aliases
import Provenance.Proofs.Producers
import Provenance.Proofs.Unaliased
import Provenance.Proofs.Grants
import Provenance.Proofs.Folder
import Provenance.Proofs.Disk.Components
import Provenance.Proofs.Folder.Files
import Provenance.Proofs.Disk.Directories
import Provenance.Proofs.Folder.Cuts
import Provenance.Proofs.Folder.Ragged
import Provenance.Proofs.Disk.Tree
import Provenance.Proofs.Folder.Isolation
import Provenance.Proofs.Infra.Accept
import Provenance.Proofs.Infra.Alike
import Provenance.Proofs.Recompiled
import Provenance.Proofs.Provision
import Provenance.Proofs.Reruns
import Provenance.Proofs.Forecast
import Provenance.Proofs.Queries
import Provenance.Proofs.Extension
import Provenance.Proofs.Terminals
import Provenance.Proofs.Features
import Provenance.Proofs.Customized
import Provenance.Proofs.Database
import Provenance.Proofs.Names
import Provenance.Proofs.Handles
import Provenance.Proofs.Weekdays
import Provenance.Proofs.Permits
import Provenance.Proofs.Joins
import Provenance.Proofs.Identities
import Provenance.Proofs.Volumes
import Provenance.Proofs.Written
import Provenance.Proofs.Insertions
import Provenance.Proofs.Drawings
import Provenance.Proofs.Units
import Provenance.Proofs.Flowcharts
import Provenance.Proofs.Turns
