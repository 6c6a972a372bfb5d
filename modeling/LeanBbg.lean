import LeanBbg.AxonOverflow
import LeanBbg.BalanceCheck
import LeanBbg.Balances
import LeanBbg.ChainRuns
import LeanBbg.Cli
import LeanBbg.Delta
import LeanBbg.Diameter
import LeanBbg.DoubleSpend
import LeanBbg.History
import LeanBbg.Overlay
import LeanBbg.Pools
import LeanBbg.ProofChecks
import LeanBbg.Pruning
import LeanBbg.RecordStream
import LeanBbg.Reordering
import LeanBbg.RootBinding
import LeanBbg.Scans
import LeanBbg.Snapshots
import LeanBbg.TieredFailures
import LeanBbg.Topology
import LeanBbg.Certificates
import LeanBbg.TransferRuns
import LeanBbg.Migration
import LeanBbg.QueryProofs
import LeanBbg.Accounting
import LeanBbg.BufferRuns
import LeanBbg.ChangeIds
import LeanBbg.Paging
import LeanBbg.Looks
import LeanBbg.ChainChecks
import LeanBbg.LinkRuns
import LeanBbg.ChainVerdict
import LeanBbg.Inspection
import LeanBbg.NativeNodeRuns
import LeanBbg.JournalRecovery
import LeanBbg.Openings
import LeanBbg.CertificateCells
import LeanBbg.FjallStore
