import MetricMQ.ByteString
import MetricMQ.SortedCursor
import MetricMQ.StreamFraming
import MetricMQ.Machine
import MetricMQ.SetTable
import MetricMQ.BigEndian
import MetricMQ.TextFormat
import MetricMQ.BinaryProtocol
import MetricMQ.BinaryCodec
import MetricMQ.RespParser
import MetricMQ.RespCodec
import MetricMQ.RespGrammar
import MetricMQ.RespDepth
import MetricMQ.ParserSafety
import MetricMQ.LmdbStorage
import MetricMQ.StoreSchema
import MetricMQ.StoreRange
import MetricMQ.StoreAcks
import MetricMQ.Storage
import MetricMQ.BoundedAckSet
import MetricMQ.Broker
import MetricMQ.Publishing
import MetricMQ.Methods
import MetricMQ.Subscriptions
import MetricMQ.Gauges
import MetricMQ.MetricsExport
import MetricMQ.AckMarks
import MetricMQ.Retention
import MetricMQ.AckRestart
import MetricMQ.AcceptLoop
import MetricMQ.KeyStore
import MetricMQ.KeyIds
import MetricMQ.Session
import MetricMQ.Segmentation
import MetricMQ.Rejection
import MetricMQ.SocketWrites
import MetricMQ.Handlers
import MetricMQ.Clients
import MetricMQ.Signatures
import MetricMQ.FrameLimits
import MetricMQ.RespReplies
import MetricMQ.World
import MetricMQ.Uninterrupted
import MetricMQ.SecureTopics
import MetricMQ.Delivery
import MetricMQ.Durability
import MetricMQ.AckNumbers
import MetricMQ.Replay
import MetricMQ.SubscribeRace
import MetricMQ.FullReplay
import MetricMQ.Routing
import MetricMQ.ReplayRange
import MetricMQ.RejectedRequests
import MetricMQ.ClientRegistry
import MetricMQ.Provenance
import MetricMQ.StoredReplay
import MetricMQ.TaskOrder
import MetricMQ.Answers
import MetricMQ.PublishOrder
import MetricMQ.Authenticity
import MetricMQ.LiveDelivery
import MetricMQ.Consumers
import MetricMQ.PubSub
import MetricMQ.PubSubRefinement
import MetricMQ.Resources
import MetricMQ.Counters
import MetricMQ.Histogram
import MetricMQ.Latencies
import MetricMQ.FairRuns
import MetricMQ.Progress
import MetricMQ.IdleTimeout
import MetricMQ.SlowReader
import MetricMQ.Turns
import MetricMQ.SocketProgress
import MetricMQ.Revocation
import MetricMQ.Streams
