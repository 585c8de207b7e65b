import MqttServerTest.Machine.Basic
import MqttServerTest.Server.Registry
import MqttServerTest.Server.Database
import MqttServerTest.Server.Flush
import MqttServerTest.Server.System
import MqttServerTest.Server.History
import MqttServerTest.Server.Conservation
import MqttServerTest.Server.Attribution
import MqttServerTest.Server.Timer
import MqttServerTest.Server.Counters
import MqttServerTest.Server.Resets
import MqttServerTest.Server.Pubacks
import MqttServerTest.Server.Guard
import MqttServerTest.Firmware.Reconnect
import MqttServerTest.Machine.Simulation
import MqttServerTest.Machine.Writers
import MqttServerTest.Server.Reduction
import MqttServerTest.Spec.Recorder
import MqttServerTest.Server.Acceptance
import MqttServerTest.Server.Keys
import MqttServerTest.Server.References
import MqttServerTest.Data.StableSort
import MqttServerTest.Server.Order
import MqttServerTest.Data.Consecutive
import MqttServerTest.Server.Gaps
import MqttServerTest.Firmware.Loop
import MqttServerTest.Firmware.Report
import MqttServerTest.Firmware.Subscription
import MqttServerTest.Data.Window
import MqttServerTest.Data.Rounding
import MqttServerTest.Dashboard.Page
import MqttServerTest.Dashboard.LastPackets
import MqttServerTest.Dashboard.Clients
import MqttServerTest.Client.Helpers
import MqttServerTest.Data.Chunks
import MqttServerTest.Client.Parser
import MqttServerTest.Client.Stream
import MqttServerTest.Client.Wire
import MqttServerTest.Client.Overlong
import MqttServerTest.Client.Session
import MqttServerTest.Data.EverySecond
import MqttServerTest.Client.Acks
import MqttServerTest.Client.ExactlyOnce
import MqttServerTest.Client.KeepAlive
import MqttServerTest.Client.Outgoing
import MqttServerTest.Client.Tasks
import MqttServerTest.Client.Roundtrip
import MqttServerTest.Tcp.EventQueue
import MqttServerTest.Client.Delivery
import MqttServerTest.Firmware.Board
import MqttServerTest.Dashboard.Loss
