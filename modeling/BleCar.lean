import BleCar.Lib.Runs
import BleCar.Lib.Mailbox
import BleCar.Lib.Clock
import BleCar.Lib.Line
import BleCar.Lib.ByteSum
import BleCar.Lib.WhileLoop
import BleCar.Lib.Ticks
import BleCar.Lib.Transducer
import BleCar.Lib.Ring
import BleCar.Lib.Requests
import BleCar.Motion.Hardware
import BleCar.Motion.Routines
import BleCar.Motion.RoutineSpecs
import BleCar.Motion.Deceleration
import BleCar.Lib.Approach
import BleCar.Motion.SpeedRamp
import BleCar.Motion.TurnRamp
import BleCar.Protocol.Frames
import BleCar.Protocol.Checksum
import BleCar.Protocol.Control
import BleCar.Protocol.Buffer
import BleCar.Motion.TaskSpecs
import BleCar.Motion.Delays
import BleCar.F103.Firmware
import BleCar.F103.System
import BleCar.F103.Interleaving
import BleCar.F103.Receive
import BleCar.F103.Delivery
import BleCar.F103.Transmit
import BleCar.F103.Direction
import BleCar.F103.Stopping
import BleCar.F103.SpeedChange
import BleCar.F103.Turning
import BleCar.F103.TableBounds
import BleCar.F103.ReadBounds
import BleCar.F103.Refusal
import BleCar.F103.Grammar
import BleCar.F103.Report
import BleCar.F103.Replies
import BleCar.F103.Serial
import BleCar.F103.Leftover
import BleCar.F103.Grouping
import BleCar.F103.Pairing
import BleCar.F103.Capture
import BleCar.F103.Ultrasonic
import BleCar.F103.Debounce
import BleCar.F103.Echo
import BleCar.L151.Firmware
import BleCar.Comparison
import BleCar.L151.Wheels
import BleCar.L151.System
import BleCar.L151.Reset
import BleCar.L151.Copies
import BleCar.MyBle.Uart
import BleCar.MyBle.Decoding
import BleCar.MyBle.Resync
import BleCar.MyBle.Genuine
import BleCar.MyBle.Pack
import BleCar.MyBle.Link
import BleCar.MyBle.Notification
import BleCar.MyBle.Supervision
import BleCar.MyBle.Bridge
import BleCar.MyBle.Reassembly
import BleCar.MyBle.Bounds
import BleCar.MyBle.Relay
import BleCar.MyBle.Duplex
import BleCar.MyBle.Flash
import BleCar.MyBle.Waits
import BleCar.MyBle.Storage
import BleCar.MyBle.Reload
import BleCar.F103.Answers
import BleCar.Motion.Driving
import BleCar.Obedience
import BleCar.Commands
import BleCar.Interruption
import BleCar.Exchange
