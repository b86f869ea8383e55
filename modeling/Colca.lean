import Colca.Repl.ParentRestore
import Colca.Engine.DeliverOrder
import Colca.Repl.DefinitionsConverge
import Colca.Repl.DownlinkMount
import Colca.Engine.QueuedFate
import Colca.Mqtt.Door
import Colca.Mqtt.HumanCurrent
import Colca.Engine.BusAgrees
import Colca.Store.ByteCount
import Colca.Retention.PruneOverride
import Colca.Retention.EntityAgrees
import Colca.Repl.ChildRestored
import Colca.Repl.Drained
import Colca.Repl.RehandedOnce
import Colca.Edit.Stale
import Colca.Edit.Once
import Colca.Registry.Bound
import Colca.Uns.Authorize
import Colca.Http.SignalPages
import Colca.Engine.ReplayEnds
import Colca.Store.PruneJournal
import Colca.Engine.FetchLogs
import Colca.Store.ValueInForce
import Colca.Store.AppendGroup
import Colca.Store.CompactReaders
import Colca.Uns.RelationshipsHold
import Colca.GrantSync.Converge
import Colca.Engine.Ledger
import Colca.Repl.Blobs
import Colca.Uns.ElementRebuild
import Colca.Historian.IntegerSamples
import Colca.Secrets.Revisions
