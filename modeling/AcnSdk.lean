import AcnSdk.Lib.Bytes
import AcnSdk.Lib.Decimal
import AcnSdk.Lib.Fuel
import AcnSdk.Lib.Producer
import AcnSdk.Lib.Heap
import AcnSdk.Data.LinkedList
import AcnSdk.Json.Node
import AcnSdk.Json.Lexical
import AcnSdk.Json.Emit
import AcnSdk.Json.Parse
import AcnSdk.Json.Grammar
import AcnSdk.Json.Decode
import AcnSdk.Json.DecodeStack
import AcnSdk.Json.DecodeChain
import AcnSdk.Json.DecodeInvariant
import AcnSdk.Json.DecodeRun
import AcnSdk.Json.DecodeSync
import AcnSdk.Json.DecodePlain
import AcnSdk.Json.Encode
import AcnSdk.Json.EncodeText
import AcnSdk.Json.EncodeStep
import AcnSdk.Json.EncodeStream
import AcnSdk.Json.EncodeAgree
import AcnSdk.Json.EncodeProgress
import AcnSdk.Json.RoundTrip
import AcnSdk.Json.DecodeComplete
import AcnSdk.Json.DecodeSound
import AcnSdk.Json.DecodeExact
import AcnSdk.Mqtt.Publish
import AcnSdk.Arrow.Events
import AcnSdk.Arrow.EventsFailure
import AcnSdk.Lib.Prog
import AcnSdk.Lib.Memory
import AcnSdk.Lib.Cyclic
import AcnSdk.Lib.Fifo
import AcnSdk.Lib.CString
import AcnSdk.Lib.Simulation
import AcnSdk.Lib.Steps
import AcnSdk.Data.RingBuffer
import AcnSdk.Arrow.CopyTill
import AcnSdk.Http.Client
import AcnSdk.Http.Stream
import AcnSdk.Http.Refine
import AcnSdk.Http.Reading
import AcnSdk.Http.Outcome
import AcnSdk.Http.Safety
import AcnSdk.Http.Message
import AcnSdk.Http.Framing
import AcnSdk.Http.Receive
import AcnSdk.Lib.Strings
import AcnSdk.Lib.Bitmap
import AcnSdk.Lib.FirstFit
import AcnSdk.Lib.Spans
import AcnSdk.Lib.Rotation
import AcnSdk.Lib.BubbleSort
import AcnSdk.Lib.Varint
import AcnSdk.Data.Property
import AcnSdk.Http.Response
import AcnSdk.Data.StaticBuf
import AcnSdk.Data.PoolSteps
import AcnSdk.Data.PoolRun
import AcnSdk.Data.PoolCorrect
import AcnSdk.Data.PoolBounds
import AcnSdk.Data.PoolAdmission
import AcnSdk.Arrow.Canonical
import AcnSdk.Arrow.CanonicalStatic
import AcnSdk.Arrow.CanonicalEntries
import AcnSdk.Arrow.CanonicalBuffer
import AcnSdk.Arrow.CanonicalBlocks
import AcnSdk.Arrow.CanonicalBounds
import AcnSdk.Arrow.CanonicalAgree
import AcnSdk.Mqtt.Packet
import AcnSdk.Mqtt.Client
import AcnSdk.Mqtt.Send
import AcnSdk.Mqtt.Payload
import AcnSdk.Mqtt.Receive
import AcnSdk.Mqtt.RoundTrip
import AcnSdk.Lib.BitField
import AcnSdk.Lib.LastWriter
import AcnSdk.Time.Timestamp
import AcnSdk.Arrow.State
import AcnSdk.Arrow.StateNewest
import AcnSdk.Arrow.ApiClient
import AcnSdk.Arrow.ApiEvents
import AcnSdk.Arrow.EventBase
import AcnSdk.Arrow.EventQueue
import AcnSdk.Arrow.EventDispatch
import AcnSdk.Arrow.MqttChannel
import AcnSdk.Lib.Retry
import AcnSdk.Arrow.Routine
import AcnSdk.Lib.Hex
import AcnSdk.Lib.Blocks
import AcnSdk.Ssl.Md5
import AcnSdk.Http.Routine
import AcnSdk.Arrow.SoftwareRelease
import AcnSdk.Arrow.ReleaseDigest
import AcnSdk.Arrow.DeviceCommand
import AcnSdk.Lib.Avoids
import AcnSdk.Arrow.MessageReads
import AcnSdk.Arrow.EventReceivers
import AcnSdk.Arrow.StateRequest
import AcnSdk.Arrow.Subscription
import AcnSdk.Mqtt.Beside
import AcnSdk.Mqtt.Stream
import AcnSdk.Lib.Within
import AcnSdk.Mqtt.Sync
import AcnSdk.Mqtt.Frame
import AcnSdk.Mqtt.Handshake
import AcnSdk.Mqtt.Acknowledged
import AcnSdk.Mqtt.Wire
import AcnSdk.Mqtt.Keepalive
import AcnSdk.Mqtt.Subscribe
import AcnSdk.Mqtt.Redelivery
import AcnSdk.Lib.CBuffer
import AcnSdk.Lib.Slices
import AcnSdk.Http.Send
import AcnSdk.Http.RequestLine
import AcnSdk.Http.SendBody
import AcnSdk.Http.ChunkedBody
import AcnSdk.Mqtt.Header
import AcnSdk.Mqtt.Bounds
import AcnSdk.Mqtt.Delivery
import AcnSdk.Lib.FirstMatch
import AcnSdk.Arrow.EventMutex
import AcnSdk.Arrow.ApiDrain
import AcnSdk.Arrow.StateTags
import AcnSdk.Arrow.StateNames
import AcnSdk.Json.StringRoundTrip
import AcnSdk.Json.TextRoundTrip
import AcnSdk.Http.ErrorDiscipline
import AcnSdk.Arrow.TimestampText
import AcnSdk.Arrow.Utf8Check
import AcnSdk.Arrow.StateUnparsable
import AcnSdk.Data.PoolRealloc
import AcnSdk.Json.IntegerText
import AcnSdk.Http.StatusLine
import AcnSdk.Http.RequestInit
import AcnSdk.Arrow.ResponseLists
import AcnSdk.Arrow.TelemetryList
import AcnSdk.Json.Pointers
import AcnSdk.Lib.DoublyLinked
import AcnSdk.Lib.Forest
import AcnSdk.Json.Values
import AcnSdk.Json.PointerLinks
import AcnSdk.Json.PointerKeys
import AcnSdk.Json.PointerRuns
import AcnSdk.Json.DecodedTexts
import AcnSdk.Json.PointerCheck
import AcnSdk.Json.PointerTrees
import AcnSdk.Json.PointerDecode
import AcnSdk.Arrow.TelemetryBatch
import AcnSdk.Ntp.Client
import AcnSdk.Arrow.EntrySort
import AcnSdk.Data.LinkedListMacros
import AcnSdk.Data.LinkedListRuns
import AcnSdk.Data.DoublyLinkedList
import AcnSdk.Data.DoublyLinkedRuns
import AcnSdk.Data.PropertyContents
import AcnSdk.Json.PointerEncode
import AcnSdk.Json.PointerScratch
import AcnSdk.Arrow.DeviceSerialize
import AcnSdk.Lib.Pointer
import AcnSdk.Lib.Runs
import AcnSdk.Json.StringBuilder
import AcnSdk.Json.StringBuilderRuns
import AcnSdk.Json.StringBuilderEmit
import AcnSdk.Lib.Cursor
import AcnSdk.Mqtt.Serialize
import AcnSdk.Mqtt.Deserialize
import AcnSdk.Mqtt.PacketRoundTrip
import AcnSdk.Lib.Polling
import AcnSdk.Mqtt.Nonblocking
import AcnSdk.Lib.SlotTable
import AcnSdk.Mqtt.Handlers
import AcnSdk.Mqtt.BufferedCycle
import AcnSdk.Data.PropertyMap
import AcnSdk.Data.PropertyMapRuns
import AcnSdk.Json.PointerOwned
import AcnSdk.Json.PointerParse
import AcnSdk.Json.PointerRestore
import AcnSdk.Ssl.Sessions
import AcnSdk.Ssl.SessionRuns
import AcnSdk.Data.PropertyMapFrame
import AcnSdk.Http.RequestMemory
import AcnSdk.Http.RequestRuns
import AcnSdk.Mqtt.FailedReads
import AcnSdk.Json.EncodeReach
import AcnSdk.Json.EncodeStuck
