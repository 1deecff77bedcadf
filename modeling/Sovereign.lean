import Sovereign.Wal.FailedAppend
import Sovereign.Wal.BitRot
import Sovereign.Durability.CrashRecovery
import Sovereign.Sync.Grace
import Sovereign.Sync.HamtMap
import Sovereign.Durability.Checkpoint
import Sovereign.Receive.Trace
import Sovereign.Mesh.Control
import Sovereign.Mesh.Delivery
import Sovereign.Mesh.Relay
import Sovereign.Sync.Watermark
import Sovereign.Database.ArenaAlloc
import Sovereign.Database.SkipList
import Sovereign.Database.Coalesce
import Sovereign.Sync.Hazards
import Sovereign.Sync.StrataWire
import Sovereign.Database.Horizon
import Sovereign.Receive.RootEquality
import Sovereign.Durability.Fingerprint
import Sovereign.Wal.Framing
import Sovereign.Attribution.Custody
import Sovereign.Receive.RelayCodec
import Sovereign.Receive.Downgrade
import Sovereign.Network.Backoff
import Sovereign.Identity.EddsaHedge
import Sovereign.Transport.Revocation
