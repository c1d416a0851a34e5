import RunCache.Bucket.Memory
import RunCache.Bucket.Paged
import RunCache.Main
import RunCache.Proofs.Cache.Apart
import RunCache.Proofs.Cache.CleanUp
import RunCache.Proofs.Cache.InTurn
import RunCache.Proofs.Cache.Reopen
import RunCache.Proofs.Scan.Grouping
import RunCache.Proofs.Cache.Kept
import RunCache.Proofs.Cache.Newest
import RunCache.Proofs.Cache.Resume
import RunCache.Proofs.Cache.FixedPoint
import RunCache.Proofs.Cache.Confined
import RunCache.Proofs.Cache.OwnJob
import RunCache.Proofs.Descriptor.RoundTrip
import RunCache.Proofs.Script.Basic
import RunCache.Proofs.Script.Cancelled
import RunCache.Proofs.Script.Memo
import RunCache.Proofs.Script.Session
import RunCache.Proofs.Cache.RunOrder
import RunCache.Proofs.Scan.OwnDescriptor
import RunCache.Proofs.Bucket.Mirror
import RunCache.Proofs.Cache.Reindex
import RunCache.Proofs.Bucket.Paged
import RunCache.Proofs.Scan.AnyOrder
import RunCache.Proofs.Descriptor.Retained
import RunCache.Proofs.Cache.Commute
import RunCache.Proofs.Cache.Unreadable
import RunCache.Proofs.Cache.LeftOut
import RunCache.Proofs.Cache.Greatest
import RunCache.Proofs.Bucket.Pages
import RunCache.Proofs.Cache.Rewriting
import RunCache.Proofs.Cache.Footprint
import RunCache.Proofs.Cache.IndexTree
import RunCache.Proofs.Cache.IndexEntry
import RunCache.Proofs.Bucket.Offset
import RunCache.Proofs.Bucket.Kinds
import RunCache.Proofs.Cache.Inside
import RunCache.Proofs.Cache.Opening
import RunCache.Proofs.Cache.NewDirs
