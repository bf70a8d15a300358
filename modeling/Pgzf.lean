import Pgzf.Library.LittleEndian
import Pgzf.Library.Chunks
import Pgzf.Library.Program
import Pgzf.Library.Lru
import Pgzf.Library.UseOrder
import Pgzf.Library.BlockCursor
import Pgzf.Error
import Pgzf.Device
import Pgzf.Constants
import Pgzf.Format
import Pgzf.Compress
import Pgzf.BlockCache
import Pgzf.Writer
import Pgzf.Index
import Pgzf.Decompress
import Pgzf.Reader
import Pgzf.Stored
import Pgzf.Layout
import Pgzf.Batch
import Pgzf.Emit
import Pgzf.Sequential
import Pgzf.Written
import Pgzf.Append
import Pgzf.BufferBound
import Pgzf.Crash
import Pgzf.Cuts
import Pgzf.Damage
import Pgzf.Drift
import Pgzf.Hostile
import Pgzf.FailedReads
import Pgzf.GzipOutput
import Pgzf.MemoryLimit
import Pgzf.RandomAccess
import Pgzf.PlainGzip
import Pgzf.RawIteration
import Pgzf.Decoders
import Pgzf.ScanEnds
import Pgzf.SinkFailures
import Pgzf.TableOffsets
import Pgzf.ByteLookup
import Pgzf.CacheContents
import Pgzf.CacheOrder
import Pgzf.CacheLimit
import Pgzf.CacheUse
import Pgzf.HeaderCodec
import Pgzf.RangeGrouping
import Pgzf.Representable
import Pgzf.RoundTrip
import Pgzf.FailedRanges
import Pgzf.Overflow
import Pgzf.Truncation
import Pgzf.WriterState
import Pgzf.TakenBack
import Pgzf.OneOutput
import Pgzf.ParallelBatches
import Pgzf.Pipes
import Pgzf.Reports
import Pgzf.Lossless
import Pgzf.AnyArchive
