import Di.GuardedRun
import Di.GoStrings
import Di.GoNet
import Di.KeyedTable
import Di.Join
import Di.KeyJoin
import Di.Database
import Di.Elector
import Di.Reconcile
import Di.JoinStability
import Di.JoinOwners
import Di.ReconcileStability
import Di.Mirror
import Di.GoFloat
import Di.GoFloatText
import Di.DslAst
import Di.DslQuery
import Di.Engine
import Di.EnginePolicy
import Di.EngineIdempotence
import Di.EngineSizes
import Di.ClusterSync
import Di.ClusterMatch
import Di.ClusterLoop
import Di.ClusterConvergence
import Di.MinionEngine
import Di.NetworkStore
import Di.AddressSync
import Di.Procedure
import Di.Fuelled
import Di.DslPrint
import Di.NumberText
import Di.DslRuntime
import Di.DslBuiltins
import Di.DslEval
import Di.DslCalls
import Di.DslRange
import Di.DslInvariant
import Di.DslLabels
import Di.DslSafety
import Di.DslControl
import Di.DslSoundness
import Di.DslCongruence
import Di.DslAlike
import Di.DslDeepEqual
import Di.DslFollows
import Di.Brackets
import Di.GoScanner
import Di.GoScannerTokens
import Di.DslParse
import Di.DslRead
import Di.DslImports
import Di.DslShips
import Di.DslCompiled
import Di.DslEquality
import Di.DslAssignment
import Di.DslRoundTrip
import Di.DslReprint
import Di.DslTokens
import Di.DslLiterals
import Di.DslCrash
import Di.DslValues
import Di.DslFuel
import Di.DslHalts
import Di.MinionPolicy
import Di.MinionServer
import Di.Foreman
import Di.ForemanClients
import Di.Swarm
import Di.Scheduler
import Di.SchedulerBoot
import Di.Supervisor
import Di.NetworkAcl
import Di.LabelStore
import Di.LabelFixedPoint
import Di.StoreFailures
import Di.LogicalPorts
import Di.TextRuns
import Di.OpenFlowRule
import Di.OpenFlowText
import Di.OpenFlowNormal
import Di.OpenFlow
import Di.OpenFlowBalance
import Di.IpTables
import Di.FlowTable
import Di.NatTable
import Di.OvsdbClient
import Di.OvsdbStore
import Di.Northbound
import Di.NorthboundStore
import Di.NorthboundPass
import Di.BridgePorts
import Di.BridgePortRows
import Di.BridgePortStore
import Di.BridgePortsPass
import Di.TableOrder
import Di.RowOrder
import Di.MirroredTables
import Di.Triggers
