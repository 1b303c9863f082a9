import FuncWarble.Machine.Loop
import FuncWarble.Machine.Walk
import FuncWarble.Machine.Program
import FuncWarble.Machine.Interleaving
import FuncWarble.Machine.Histories
import FuncWarble.Machine.Guarantee
import FuncWarble.Machine.Linearization
import FuncWarble.Machine.Embedding
import FuncWarble.Machine.Hosting
import FuncWarble.Machine.Progress
import FuncWarble.Machine.Resets
import FuncWarble.Machine.Successors
import FuncWarble.Machine.Relational
import FuncWarble.Text.Decimal
import FuncWarble.Text.Stream
import FuncWarble.Text.SignedDecimal
import FuncWarble.Text.OutStream
import FuncWarble.Text.Wire
import FuncWarble.Text.PrefixCode
import FuncWarble.Model.Messages
import FuncWarble.Model.Storage
import FuncWarble.Model.KeyValueService
import FuncWarble.Model.FaultyLog
import FuncWarble.Model.KeyValueClient
import FuncWarble.Model.GetCall
import FuncWarble.Model.WarbleService
import FuncWarble.Model.WarbleMessage
import FuncWarble.Model.CommandLine
import FuncWarble.Model.FuncService
import FuncWarble.Model.FuncClient
import FuncWarble.Model.PackedMessages
import FuncWarble.Model.CommandLineClient
import FuncWarble.Proofs.LogFraming
import FuncWarble.Proofs.DurableStore
import FuncWarble.Proofs.TornLog
import FuncWarble.Proofs.CrashRecovery
import FuncWarble.Proofs.CrashDurability
import FuncWarble.Proofs.ConcurrentLog
import FuncWarble.Proofs.KeySpace
import FuncWarble.Proofs.SequentialCalls
import FuncWarble.Proofs.SocialGraph
import FuncWarble.Proofs.ThreadOrder
import FuncWarble.Proofs.ReadThread
import FuncWarble.Proofs.ReplyIntegrity
import FuncWarble.Proofs.ConcurrentService
import FuncWarble.Proofs.AcyclicThreads
import FuncWarble.Proofs.UniqueRegistration
import FuncWarble.Proofs.FollowSymmetry
import FuncWarble.Proofs.StoreTyping
import FuncWarble.Proofs.AncestorChain
import FuncWarble.Proofs.WarbleIds
import FuncWarble.Proofs.FailedRpcs
import FuncWarble.Proofs.HookTable
import FuncWarble.Proofs.FuncStages
import FuncWarble.Proofs.TableRaces
import FuncWarble.Proofs.Refusals
import FuncWarble.Proofs.IllTypedEvents
import FuncWarble.Proofs.TransparentFunc
import FuncWarble.Proofs.ClientIntent
import FuncWarble.Proofs.DisplayedTime
import FuncWarble.Proofs.FailedLogWrites
import FuncWarble.Proofs.ReportedRemoves
import FuncWarble.Proofs.MultiKeyGet
import FuncWarble.Proofs.RepeatedFollows
import FuncWarble.Proofs.LinearizableStore
import FuncWarble.Proofs.LogCompleteness
import FuncWarble.Proofs.GetAmongUpdates
import FuncWarble.Proofs.RealTimeOrder
import FuncWarble.Proofs.FuncRefinement
import FuncWarble.Proofs.CommandLineUsage
import FuncWarble.Proofs.CommandLineRuns
import FuncWarble.Proofs.UnnoticedRestarts
import FuncWarble.Proofs.CallsReturn
import FuncWarble.Proofs.ConcurrentThreads
import FuncWarble.Proofs.LogDeterminesWrites
import FuncWarble.Proofs.FuncRestarts
