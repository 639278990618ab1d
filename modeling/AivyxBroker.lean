import AivyxBroker.GpuLockLease
import AivyxBroker.SchedulerQueues
import AivyxBroker.SchedulerWake
import AivyxBroker.SchedulerHistory
import AivyxBroker.SchedulerPreference
import AivyxBroker.SlotSeeding
import AivyxBroker.ForwardRelease
import AivyxBroker.ForwardTerminal
import AivyxBroker.ChatBody
import AivyxBroker.RelayStream
import AivyxBroker.BrokerResidency
import AivyxBroker.BrokerStore
import AivyxBroker.BrokerRequests
import AivyxBroker.HostGuard
import AivyxBroker.VramSpacing
import AivyxBroker.NvidiaSmi
import AivyxBroker.SchedulerBoard
import AivyxBroker.GpuLockBoard
import AivyxBroker.GpuLockReaper
import AivyxBroker.GpuLockPatience
import AivyxBroker.GpuLockRoutes
import AivyxBroker.ForwardProgress
import AivyxBroker.ForwardBudget
import AivyxBroker.BrokerRestart
import AivyxBroker.ChildProcess
import AivyxBroker.ProbeThreads
import AivyxBroker.StatusRoutes
import AivyxBroker.HostNames
import AivyxBroker.GpuProbe
