import FostWright.Theorems.Net
import FostWright.Theorems.Jobs
import FostWright.Theorems.NextJob
import FostWright.Theorems.Completions
import FostWright.Theorems.Words
import FostWright.Theorems.Recovery
import FostWright.Theorems.BackChannel
import FostWright.ChildStdin
import FostWright.Theorems.ChildStdin
import FostWright.Theorems.StdinLoop
import FostWright.Theorems.ChildStdout
import FostWright.Theorems.Roundtrip
import FostWright.Theorems.Crash
import FostWright.Theorems.Construction
import FostWright.Theorems.ChildPool
import FostWright.Theorems.JobTimes
import FostWright.Theorems.Connections
import FostWright.Theorems.Supervisor
import FostWright.Theorems.Pipe
import FostWright.Theorems.Processes
import FostWright.Theorems.Progress
import FostWright.Theorems.Netvisor
import FostWright.Theorems.Handshake
import FostWright.Theorems.Network
import FostWright.Theorems.Cluster
import FostWright.Theorems.Draining
import FostWright.Theorems.Filter
import FostWright.Theorems.Watchdog
import FostWright.Theorems.Echo
import FostWright.Theorems.Simulation
import FostWright.Theorems.Rotation
import FostWright.Theorems.Resubmission
import FostWright.Theorems.Backpressure
import FostWright.Theorems.Resending
import FostWright.Theorems.Workers
import FostWright.Theorems.Fleet
