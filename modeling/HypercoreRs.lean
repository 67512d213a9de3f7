import HypercoreRs.Autobase.Cooperative
import HypercoreRs.Autobase.Degree
import HypercoreRs.Hyperbee.Failure
import HypercoreRs.Hypercore.Blame
import HypercoreRs.Hypercore.ManifestCore
import HypercoreRs.Hypercore.Migrate
import HypercoreRs.Hypercore.Purge
import HypercoreRs.Hypercore.Stream
import HypercoreRs.Hypercore.Tamper
import HypercoreRs.Hypercore.Unsaved
import HypercoreRs.Merkle.Overflow
import HypercoreRs.Room.Deltas
import HypercoreRs.Room.Failure
import HypercoreRs.Room.Resume
import HypercoreRs.Room.Strangers
import HypercoreRs.Room.Wire
import HypercoreRs.Storage.Failure
import HypercoreRs.Storage.Tee
