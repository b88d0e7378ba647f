import HeypAgents.Alg.HashRingAsserts
import HeypAgents.Alg.NthElementBuffers
import HeypAgents.Alg.MaxMinFairnessDistPartialSort
import HeypAgents.Alg.GreedyAssign
import HeypAgents.Alg.SamplerUnbiased
import HeypAgents.Alg.DiffDowngradeSelector
import HeypAgents.Flows.UsageHistory
import HeypAgents.Alg.DowngradeFracExit
import HeypAgents.ClusterAgent.AdmissionRespected
import HeypAgents.ClusterAgent.LopriAdmissionRuns
import HeypAgents.ClusterAgent.FixedHostPattern
import HeypAgents.ClusterAgent.FastAggregatorUsage
import HeypAgents.ClusterAgent.FastAggregatorProtocol
import HeypAgents.ClusterAgent.FastControllerAgreement
import HeypAgents.ClusterAgent.FastControllerGenerations
import HeypAgents.ClusterAgent.ListenerLifetime
import HeypAgents.ClusterAgent.HostReactor
import HeypAgents.Stats.Recorder
import HeypAgents.Threads.ParIndexedMapForEach
import HeypAgents.HostAgent.ClusterAgentChannel
import HeypAgents.HostAgent.ParseSSAux
import HeypAgents.HostAgent.FlowReports
import HeypAgents.HostAgent.CollectStats
import HeypAgents.HostAgent.LinuxEnforcerRates
import HeypAgents.HostAgent.LinuxEnforcerFailures
import HeypAgents.FeedbackSim.MultiIterState
import HeypAgents.FeedbackSim.UsageCollector
import HeypAgents.EvalLoss.Replay
import HeypAgents.EvalLoss.EventHeap
import HeypAgents.Proc.LogReaders
import HeypAgents.Proc.HistCombiner
import HeypAgents.HostAgentSim.SimHost
import HeypAgents.HostAgentSim.UsageGen
import HeypAgents.TestLopri.Server
import HeypAgents.TestLopri.SemiOpen
import HeypAgents.Proc.SortedPrint
