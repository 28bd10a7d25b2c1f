import Parallax.Client.Linear
import Parallax.Client.Service
import Parallax.Cluster.Backtrack
import Parallax.Cluster.Pace
import Parallax.Cluster.PreVote
import Parallax.Cluster.Stream
import Parallax.Cluster.Width
import Parallax.Disk.Interrupted
import Parallax.Disk.ReadBack
import Parallax.Disk.Retry
import Parallax.Drive.Channels
import Parallax.Drive.Durable
import Parallax.Raft.Commit
import Parallax.Raft.LogRun
import Parallax.Raft.ReadQueue
import Parallax.Sim.Caching
import Parallax.Sim.Checker
import Parallax.Sim.Scenario
