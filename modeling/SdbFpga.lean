import SdbFpga.Api.JobWrapper
import SdbFpga.Data.Column
import SdbFpga.Data.Compressor
import SdbFpga.Data.Partition
import SdbFpga.Exec.WorkQueueInvariant
import SdbFpga.Fpga.ScanWrites
import SdbFpga.Host.ScanLoopRuns
import SdbFpga.Api.ScanApi
import SdbFpga.Api.ScanPipeline
import SdbFpga.Api.EncodedWidth
import SdbFpga.Exec.DrainLoop
import SdbFpga.Sched.WorkItems
import SdbFpga.Sched.ColumnScan
import SdbFpga.Data.PackedColumn
import SdbFpga.Api.SimdScan
import SdbFpga.Lib.Popcount
import SdbFpga.Sched.ScanCount
import SdbFpga.Sched.SemiJoin
import SdbFpga.Sched.Barriers
import SdbFpga.Sched.CoreWorkers
import SdbFpga.Fpga.ScanReset
import SdbFpga.Fpga.JoinAfu
import SdbFpga.Fpga.JoinSystem
import SdbFpga.Fpga.JoinInvariant
import SdbFpga.Fpga.JoinRuns
import SdbFpga.Api.ResultCopy
import SdbFpga.Data.Decoding
import SdbFpga.Data.Pages
import SdbFpga.Api.ScanMemory
import SdbFpga.Data.Metadata
import SdbFpga.Api.JoinCopy
import SdbFpga.Fpga.BlockRead
import SdbFpga.Fpga.BlockSystem
import SdbFpga.Fpga.BlockInvariant
import SdbFpga.Host.BlockLoop
import SdbFpga.Fpga.BaseAfu
import SdbFpga.Api.RawScan
import SdbFpga.Host.ReadBuffers
import SdbFpga.Sched.PThreadBarrier
import SdbFpga.Fpga.DpScanAfu
import SdbFpga.Fpga.DpScanFilter
import SdbFpga.Fpga.DpScanInvariant
import SdbFpga.Fpga.DpScanRuns
import SdbFpga.Exec.LockFree
import SdbFpga.Fpga.HostMemory
import SdbFpga.Fpga.JoinMemory
import SdbFpga.Fpga.DpScanMemory
import SdbFpga.Api.ScanOnFpga
import SdbFpga.Api.JoinOnFpga
import SdbFpga.Host.ScanLoopMemory
import SdbFpga.Sched.ScanOnFpga
import SdbFpga.Data.Table
import SdbFpga.Sched.QuantityQuery
import SdbFpga.Sched.DateJoin
import SdbFpga.Fpga.CommonCsrs
import SdbFpga.Fpga.MmioReads
import SdbFpga.Sched.CoreScan
import SdbFpga.Api.PrintBlock
import SdbFpga.Sched.BufferCounts
