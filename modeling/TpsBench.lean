import TpsBench.Lib.Scan
import TpsBench.Chain
import TpsBench.U64
import TpsBench.Net
import TpsBench.Net.CommonPrefix
import TpsBench.Net.ConfirmedTip
import TpsBench.Net.Settled
import TpsBench.NetMonitor.Metrics
import TpsBench.NetMonitor.Waits
import TpsBench.NetMonitor.Nearly
import TpsBench.NetMonitor.Covered
import TpsBench.NetMonitor.NearlySafe
import TpsBench.NetMonitor.Arithmetic
import TpsBench.NetMonitor.Ranges
import TpsBench.NetMonitor.Stabled
import TpsBench.NetMonitor.Ends
import TpsBench.NetMonitor.TxPool
import TpsBench.Transfer
import TpsBench.Benchmark.FindBest
import TpsBench.Benchmark.Samples
import TpsBench.Benchmark.Bench
import TpsBench.Benchmark.Inputs
import TpsBench.Benchmark.Shapes
import TpsBench.Benchmark.Emitters
import TpsBench.Benchmark.Steps
import TpsBench.Benchmark.Progress
import TpsBench.Benchmark.Value
import TpsBench.Benchmark.Runs
import TpsBench.Benchmark.Returns
import TpsBench.Benchmark.EmittersEnd
import TpsBench.Benchmark.Collects
import TpsBench.Threads.Pipeline
import TpsBench.Threads.ClosedLoop
import TpsBench.Account.PullFrom
import TpsBench.Account.PullForever
import TpsBench.Account.Reorg
import TpsBench.Account.Resent
import TpsBench.Account.CatchesUp
import TpsBench.Account.TransferForever
import TpsBench.Account.Steady
import TpsBench.Account.Queued
import TpsBench.Account.Spends
import TpsBench.Account.Again
import TpsBench.Threads.Spawn
import TpsBench.Threads.TopUp
import TpsBench.Threads.TopUpEnds
import TpsBench.Threads.SpawnMiner
import TpsBench.Threads.SentOnce
import TpsBench.Threads.Sorted
import TpsBench.Threads.TransferUtxos
import TpsBench.Lib.Ledger
import TpsBench.Lib.CommonPrefix
import TpsBench.Lib.Differences
import TpsBench.Lib.Drain
import TpsBench.Lib.Bisect
import TpsBench.Lib.Worker
import TpsBench.Lib.RoundRobin
import TpsBench.Lib.Shares
import TpsBench.Lib.Batches
import TpsBench.Lib.Sweep
