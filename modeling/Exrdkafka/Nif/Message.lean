import Exrdkafka.Nif.Utils

/-!
# Messages on their way to Elixir

`make_message_nif` turns an `rd_kafka_message_t` into an `exrdkafka_msg` tuple. A null key or
payload becomes `:undefined`, and header names are read as C strings.
-/

namespace Exrdkafka.Nif

/-- `rd_kafka_timestamp_type_t` -/
inductive TimestampType where
  | notAvailable
  | createTime
  | logAppendTime
  deriving DecidableEq

/-- An `rd_kafka_message_t`. The key and the payload may be null; the headers are absent when
`rd_kafka_message_headers` returns none. -/
structure RdMessage where
  topicName : List UInt8
  partition : ℤ
  offset : ℤ
  key : Option (List UInt8)
  payload : Option (List UInt8)
  headers : Option (List (List UInt8 × List UInt8))
  timestamp : ℤ
  timestampType : TimestampType
  deriving DecidableEq

/-- The tuple `{:exrdkafka_msg, topic, partition, offset, key, value, headers, {ts, type}}`; an
absent key, value or header list is `:undefined`. -/
structure Message where
  topic : List UInt8
  partition : ℤ
  offset : ℤ
  key : Option (List UInt8)
  value : Option (List UInt8)
  headers : Option (List (List UInt8 × List UInt8))
  timestamp : ℤ × TimestampType
  deriving DecidableEq

/-- `get_headers`: the name is measured with `strlen`, the value has an explicit size. -/
def messageHeaders (msg : RdMessage) : Option (List (List UInt8 × List UInt8)) :=
  msg.headers.map fun hs => hs.map fun (name, value) => (cStr name, value)

/-- `make_message_nif` with the topic and partition terms given. -/
def makeMessageNif (topic : List UInt8) (partition : ℤ) (msg : RdMessage) : Message where
  topic := topic
  partition := partition
  offset := msg.offset
  key := msg.key
  value := msg.payload
  headers := messageHeaders msg
  timestamp := (msg.timestamp, msg.timestampType)

@[simp] theorem makeMessageNif_offset (topic : List UInt8) (partition : ℤ) (msg : RdMessage) :
    (makeMessageNif topic partition msg).offset = msg.offset := rfl

end Exrdkafka.Nif
