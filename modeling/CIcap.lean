import CIcap.Auth.Decision
import CIcap.Template.Path
import CIcap.Request.PreviewBuf
import CIcap.Header.Store
import CIcap.Client.EndToEnd
import CIcap.Lookup.KeyValues
import CIcap.Body.CachedFile
import CIcap.Cache.LocalLinks
import CIcap.Cache.SharedLookup
import CIcap.Codec.UncompressStatus
import CIcap.Request.Delivery
import CIcap.Stats.Segment
import CIcap.Stats.Updates
import CIcap.Stats.Reports
import CIcap.Threads.Connections
import CIcap.Threads.OptionHandlers
import CIcap.Threads.QueueWait
import CIcap.Acl.TimeSpec
import CIcap.Acl.Definitions
import CIcap.Config.LinesHanded
import CIcap.Config.SplitArgs
import CIcap.Filetype.Detected
import CIcap.Chunk.Counted
import CIcap.Chunk.Accepted
import CIcap.Chunk.Memory
import CIcap.Request.EncapsHeaders
import CIcap.Request.IcapHeader
import CIcap.Request.SendRest
import CIcap.Header.Search
import CIcap.Body.FileLocks
import CIcap.Mem.ObjectPools
import CIcap.Mem.PackAllocator
