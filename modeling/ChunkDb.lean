import ChunkDb.Wal.Damage
import ChunkDb.Alter
import ChunkDb.Feed.Retention
import ChunkDb.Snapshot.Session
import ChunkDb.Intent.Recovery
import ChunkDb.ArchiveVerify
import ChunkDb.Txn.Serial
import ChunkDb.SchemaCodecSpec
import ChunkDb.ManifestOptions
import ChunkDb.Users.FileSpec
import ChunkDb.Users.Session
import ChunkDb.AdmissionSpec
import ChunkDb.Feed.WatchRightsSpec
import ChunkDb.ScanChunks
import ChunkDb.Feed.Registry
import ChunkDb.BitCodec
import ChunkDb.TypeConversion
import ChunkDb.BlockWrites
import ChunkDb.Crc32Kernels
import ChunkDb.Feed.FrameReplay
import ChunkDb.Crypto.Base64
import ChunkDb.Expr.Int128
import ChunkDb.Feed.Wakeups
import ChunkDb.EvictionRing
