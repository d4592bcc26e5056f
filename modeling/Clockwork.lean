import Clockwork.EvaluatorAgreement
import Clockwork.ConditionHistory
import Clockwork.MessageCompletion
import Clockwork.LookupCache
import Clockwork.ListLinks
import Clockwork.ChannelHandshake
import Clockwork.HardwareImage
import Clockwork.OutputRounds
import Clockwork.PropertyMessage
import Clockwork.PersistentRoundTrip
import Clockwork.ModbusWrites
import Clockwork.ListState
import Clockwork.StableStateCheck
import Clockwork.CheckQueue
import Clockwork.ActionRuns
import Clockwork.ModbusView
import Clockwork.ModbusRegisters
import Clockwork.Locks
import Clockwork.StateTimer
import Clockwork.Enabling
import Clockwork.Dispatcher
import Clockwork.StackEvaluation
import Clockwork.CommandPairing
import Clockwork.ChannelFilters
import Clockwork.ShadowEcho
import Clockwork.StateMessage
import Clockwork.ValueMembers
import Clockwork.EarliestEvent
import Clockwork.SubconditionTriggers
import Clockwork.Copying
import Clockwork.CExportMeaning
import Clockwork.IfCommand
import Clockwork.Waiting
import Clockwork.ExpressionAction
import Clockwork.ReadYourWrites
import Clockwork.ValueCache
import Clockwork.SetDifference
import Clockwork.IntersectScopes
import Clockwork.SdoRequests
import Clockwork.SyncRemoteStates
import Clockwork.ListAggregates
import Clockwork.ListBits
import Clockwork.ListSearch
import Clockwork.ListStates
import Clockwork.ReferenceAssign
import Clockwork.SortList
import Clockwork.ArrayText
import Clockwork.ModbusStrings
import Clockwork.PlcInterface
import Clockwork.ModbusUpdates
import Clockwork.BufferMonitor
import Clockwork.DeviceConnector
import Clockwork.MaskedMerge
import Clockwork.MessageLog
import Clockwork.CircularBuffer
