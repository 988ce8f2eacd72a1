import Daccord.Runs
import Daccord.RaftCluster
import Daccord.RaftDurability
import Daccord.RaftDecisions
import Daccord.RaftSafety
import Daccord.RaftFifo
import Daccord.RaftProposals
import Daccord.RaftAnswers
import Daccord.RaftCommit
import Daccord.RaftBounds
import Daccord.RaftCatchUp
import Daccord.Framing
import Daccord.RaftBackends
import Daccord.ClientWatch
import Daccord.Pages
import Daccord.PaxosFencing
import Daccord.PaxosRestart
import Daccord.PaxosCandidacy
import Daccord.PaxosRetries
import Daccord.PaxosSlots
import Daccord.PaxosAgreement
import Daccord.PaxosAcceptors
import Daccord.PaxosTallies
import Daccord.PaxosProposals
import Daccord.PaxosSubmissions
import Daccord.Counters
import Daccord.Validity
import Daccord.Broadcast
import Daccord.RaftBroadcast
import Daccord.RaftPermanence
import Daccord.RaftHandouts
import Daccord.RaftCalm
import Daccord.RaftElection
import Daccord.RaftProgress
import Daccord.EventLoop
import Daccord.EventLoopRuns
import Daccord.NodeLoop
import Daccord.Deployment
import Daccord.RaftIdentity
import Daccord.DeploymentRuns
import Daccord.Json
import Daccord.Serde
import Daccord.WireJson
import Daccord.Watching
