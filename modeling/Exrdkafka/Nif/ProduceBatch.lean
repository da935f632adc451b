import Exrdkafka.Nif.Produce

/-!
# Offering a batch of messages

`enif_produce_batch` takes one topic and a list of `{key, value, partition}` tuples and calls
`rd_kafka_producev` for one after the other. A malformed tuple ends the loop with `badarg`, after
the messages before it have been offered. What the produce calls return is not looked at.
-/

namespace Exrdkafka.Nif

open Term

/-- A message of a batch, with the topic it goes to. -/
structure BatchMessage where
  topic : Term
  key : Term
  value : Term
  partition : Term
  deriving DecidableEq

/-- The tuple that `Exrdkafka.produce_batch` makes of a message. -/
def BatchMessage.tuple (m : BatchMessage) : Term := .tuple [m.key, m.value, m.partition]

/-- One call of `rd_kafka_producev`: what librdkafka is handed, and the code it returns, `0` when it
accepts the message. -/
structure Submission where
  record : Record
  code : ℤ
  deriving DecidableEq

/-- A message that the NIF can read, for this client. -/
structure WellFormed (clientRef : Term) (m : BatchMessage) : Prop where
  client : (getResource clientRef).isSome
  topic : (getString m.topic).isSome
  key : (getString m.key).isSome
  value : (getString m.value).isSome
  partition : (getInt m.partition).isSome

end Exrdkafka.Nif
