import Exrdkafka.ClientSupervisor
import Exrdkafka.Config

/-!
# The client manager

`Exrdkafka.ClientManager` starts the clients, one at a time. A start looks the id up in the cache,
and each of its later steps can fail: the conversion of the configuration, the check of the topics,
the client of librdkafka, the start of the process. The check of the topics can also raise: then the
manager, which is a child of the supervisor as well, crashes in the middle of the call.
-/

namespace Exrdkafka.ClientManager

open ClientSupervisor

/-- What a start returns to its caller. -/
inductive Reply where
  /-- `:ok` -/
  | ok
  /-- `{:error, :err_already_existing_client}` -/
  | errAlreadyExistingClient
  /-- what a conversion has caught -/
  | badConfig (reason : Config.Caught)
  /-- `{:error, {:invalid_topic, topic}}` -/
  | invalidTopic (topic : Term)
  /-- what `producer_new` returned -/
  | newFailed (error : Term)
  /-- the error of the supervisor -/
  | notStarted (result : StartChild)
  /-- the manager has raised, and the call exits -/
  | exit
  deriving DecidableEq

/-- `{:ok, _pid}` is turned into `:ok`. -/
def Reply.ofStartChild : StartChild → Reply
  | .ok _ => .ok
  | result => .notStarted result

/-- The pairs among the elements of a list. -/
def pairs (l : List Term) : List (Term × Term) :=
  l.filterMap fun
    | .tuple [k, v] => some (k, v)
    | _ => none

/-! ## Producers -/

/-- `start_new_producer` -/
def startNewProducer (c : Clients) (clientId : String) (exrdkafkaConfig : List (Term × Term))
    (env : Env) : Clients × Reply :=
  let deliveryReportCallback := Utils.lookup (.atom "delivery_report_callback") exrdkafkaConfig
  match env.new with
  | .error error => (c, .newFailed error)
  | .ok producerRef =>
    let (c, result) :=
      addClient c clientId (.producer deliveryReportCallback exrdkafkaConfig producerRef) env
    (c, .ofStartChild result)

/-- `internal_start_producer` -/
def internalStartProducer (c : Clients) (clientId : String) (exrdkafkaConfig : List (Term × Term))
    (env : Env) : Clients × Reply :=
  match CacheClient.get c.cache clientId with
  | none => startNewProducer c clientId exrdkafkaConfig env
  | some _ => (c, .errAlreadyExistingClient)

/-- `Exrdkafka.create_producer`, with the global options appended to `config`. -/
def createProducer (c : Clients) (clientId : String) (config : Term) (env : Env) :
    Clients × Reply :=
  match Config.convertKafkaConfig config with
  | .caught reason => (c, .badConfig reason)
  | .ok exrdkafkaConfig _ => internalStartProducer c clientId (pairs exrdkafkaConfig) env

/-! ## Consumer groups -/

/-- `is_list` -/
def isList : Term → Bool
  | .nil | .cons _ _ => true
  | _ => false

/-- `is_atom` -/
def isAtom : Term → Bool
  | .atom _ => true
  | _ => false

/-- `valid_consumer_topics`: the invalid topic, if there is one; `none` when it raises. -/
def validConsumerTopics : Term → Option (Option Term)
  | .nil => some none
  | .cons (.tuple [.binary k, v]) t =>
    if isList v then
      match Utils.lookupIn (.atom "callback_module") v with
      | none => none
      | some mod =>
        if mod ≠ .undefined ∧ isAtom mod then validConsumerTopics t
        else some (some (.tuple [.binary k, v]))
    else some (some (.tuple [.binary k, v]))
  | .cons h _ => some (some h)
  | _ => none

/-- The settings of each topic. -/
def topicsOf (topics : Term) : List (List UInt8 × ConsumerGroup.Settings) :=
  (topics.toList?.getD []).filterMap fun
    | .tuple [.binary name, settings] => some (name, pairs (settings.toList?.getD []))
    | _ => none

/-- `internal_start_consumer` -/
def internalStartConsumer (c : Clients) (clientId : String)
    (topics clientConfig defaultTopicsConfig : Term) (env : Env) : Clients × Reply :=
  match CacheClient.get c.cache clientId with
  | some _ => (c, .errAlreadyExistingClient)
  | none =>
    match validConsumerTopics topics with
    | none => (managerCrashed c env, .exit)
    | some (some topic) => (c, .invalidTopic topic)
    | some none =>
      match Config.convertKafkaConfig clientConfig with
      | .caught reason => (c, .badConfig reason)
      | .ok ekClientConfig _ =>
        match Config.convertTopicConfig defaultTopicsConfig with
        | .caught reason => (c, .badConfig reason)
        | .ok _ _ =>
          let (c, result) :=
            addClient c clientId (.consumerGroup (topicsOf topics) (pairs ekClientConfig)) env
          (c, .ofStartChild result)

end Exrdkafka.ClientManager
