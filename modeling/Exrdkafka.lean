import Exrdkafka.Api.Create
import Exrdkafka.Api.Produce
import Exrdkafka.Api.ProduceBatch
import Exrdkafka.Boot
import Exrdkafka.ClientManager.Topics
import Exrdkafka.Config
import Exrdkafka.Consumer.AtLeastOnce
import Exrdkafka.Consumer.CommitSafety
import Exrdkafka.Consumer.Interruption
import Exrdkafka.Consumer.Reference
import Exrdkafka.Consumer.Schedule
import Exrdkafka.Consumer.Stop
import Exrdkafka.ConsumerGroup.Eager
import Exrdkafka.ConsumerGroup.Exits
import Exrdkafka.ConsumerGroup.FailedAssign
import Exrdkafka.ConsumerGroup.Rebalance
import Exrdkafka.NativeClients.Manages
import Exrdkafka.Nif.Config
import Exrdkafka.Nif.Conversion
import Exrdkafka.Nif.DispatcherLifetime
import Exrdkafka.Nif.Metadata
import Exrdkafka.Nif.OneHandle
import Exrdkafka.Nif.PartitionQueue
import Exrdkafka.Nif.PathIndependence
import Exrdkafka.Nif.PollDeadline
import Exrdkafka.Nif.QueueManager
import Exrdkafka.Nif.RoundTrip
import Exrdkafka.Nif.Unload
import Exrdkafka.Producer.Drain
import Exrdkafka.Producer.NoLoss
import Exrdkafka.Producer.Shutdown
import Exrdkafka.Registry
import Exrdkafka.Registry.Lasting
import Exrdkafka.Statistics
