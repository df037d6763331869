import SourceIndex.Coordinator.Session
import SourceIndex.Datum.Records
import SourceIndex.Folder
import SourceIndex.Logging
import SourceIndex.Pool.Session
import SourceIndex.Proofs.Agreement
import SourceIndex.Proofs.Batch
import SourceIndex.Proofs.Failure
import SourceIndex.Proofs.Matching
import SourceIndex.Proofs.Rebuild
import SourceIndex.Proofs.Roster
import SourceIndex.Proofs.Serial
import SourceIndex.Settings.Loading
import SourceIndex.Settings.Printing
import SourceIndex.Proofs.Ledger
import SourceIndex.Proofs.Sharing
import SourceIndex.Proofs.Parties
import SourceIndex.Proofs.Settled
import SourceIndex.Proofs.Threads
import SourceIndex.Proofs.Stranded
import SourceIndex.Proofs.Late
import SourceIndex.Proofs.Provenance
import SourceIndex.Proofs.Permanence
import SourceIndex.Proofs.Erasure
import SourceIndex.Proofs.Cache
import SourceIndex.Proofs.Classification
import SourceIndex.Proofs.Tiling
import SourceIndex.Proofs.Words
import SourceIndex.Proofs.Frame
import SourceIndex.Proofs.AnyStore
import SourceIndex.Proofs.Outstanding
import SourceIndex.Proofs.Leases
import SourceIndex.Proofs.Recorded
import SourceIndex.Proofs.Reports
import SourceIndex.Proofs.Moments
import SourceIndex.Proofs.Fifo
import SourceIndex.Proofs.Capacity
import SourceIndex.Proofs.Accounting
import SourceIndex.Proofs.Accuracy
import SourceIndex.Proofs.Fulfilment
import SourceIndex.Proofs.Shutdown
import SourceIndex.Proofs.Lookup
import SourceIndex.Proofs.Inclusion
import SourceIndex.Proofs.Rejection
import SourceIndex.Proofs.Savepoints
import SourceIndex.Proofs.Reordering
import SourceIndex.Proofs.Extent
import SourceIndex.Proofs.Deeds
import SourceIndex.Proofs.Retries
import SourceIndex.Proofs.Freshness
import SourceIndex.Proofs.Excerpts
import SourceIndex.Proofs.Handouts
import SourceIndex.Proofs.Remembering
import SourceIndex.Proofs.Reindexing
import SourceIndex.Proofs.Counts
