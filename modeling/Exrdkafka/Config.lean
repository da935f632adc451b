import Exrdkafka.Utils

/-!
# Configuration

`Exrdkafka.Config` splits a configuration into the library's own options and those for librdkafka,
whose names are atoms with underscores where librdkafka has dots. Names outside the two lists are
refused by a throw, which the conversion catches and returns.
-/

namespace Exrdkafka.Config

/-! ## The known options -/

/-- `@kafka_config_keys` -/
def kafkaConfigKeys : List String :=
  ["builtin_features", "debug", "connections_max_idle_ms", "delivery_report_only_error",
    "client_id", "bootstrap_servers", "message_max_bytes", "message_copy_max_bytes",
    "receive_message_max_bytes", "max_in_flight", "metadata_request_timeout_ms",
    "statistics_interval_ms", "socket_keepalive_enable", "metadata_max_age_ms",
    "topic_metadata_refresh_interval_ms", "topic_metadata_refresh_fast_interval_ms",
    "topic_metadata_refresh_sparse", "topic_metadata_propagation_max_ms", "topic_blacklist",
    "socket_timeout_ms", "socket_send_buffer_bytes", "socket_receive_buffer_bytes",
    "socket_nagle_disable", "socket_max_fails", "broker_address_ttl", "broker_address_family",
    "reconnect_backoff_ms", "enabled_events", "log_level", "log_queue", "log_thread_name",
    "enable_random_seed", "log_connection_close", "api_version_request",
    "api_version_request_timeout_ms", "api_version_fallback_ms", "broker_version_fallback",
    "security_protocol", "ssl_cipher_suites", "ssl_curves_list", "ssl_sigalgs_list",
    "ssl_key_location", "ssl_key_password", "ssl_key_pem", "ssl_certificate_location",
    "ssl_certificate_pem", "ssl_ca_location", "ssl_crl_location", "ssl_keystore_location",
    "ssl_keystore_password", "enable_ssl_certificate_verification",
    "ssl_endpoint_identification_algorithm", "sasl_mechanisms", "sasl_kerberos_service_name",
    "sasl_kerberos_principal", "sasl_kerberos_kinit_cmd", "sasl_kerberos_keytab",
    "sasl_kerberos_min_time_before_relogin", "sasl_username", "sasl_password",
    "sasl_oauthbearer_config", "enable_sasl_oauthbearer_unsecure_jwt", "group_instance_id",
    "session_timeout_ms", "partition_assignment_strategy", "heartbeat_interval_ms",
    "group_protocol_type", "coordinator_query_interval_ms", "max_poll_interval_ms",
    "auto_commit_interval_ms", "queued_min_messages", "queued_max_messages_kbytes",
    "fetch_wait_max_ms", "fetch_message_max_bytes", "fetch_max_bytes", "fetch_min_bytes",
    "fetch_error_backoff_ms", "allow_auto_create_topics", "client_rack", "transactional_id",
    "transaction_timeout_ms", "check_crcs", "isolation_level", "enable_idempotence",
    "enable_gapless_guarantee", "queue_buffering_max_messages", "queue_buffering_max_kbytes",
    "queue_buffering_max_ms", "message_send_max_retries", "retry_backoff_ms",
    "queue_buffering_backpressure_threshold", "compression_codec", "batch_num_messages",
    "batch_size", "plugin_library_paths", "sticky_partitioning_linger_ms"]

/-- `@topic_config_keys` -/
def topicConfigKeys : List String :=
  ["request_required_acks", "request_timeout_ms", "message_timeout_ms", "partitioner",
    "compression_codec", "compression_level", "auto_commit_interval_ms", "auto_offset_reset",
    "offset_store_path", "offset_store_sync_interval_ms", "consume_callback_max_messages"]

/-! ## Converting an option -/

/-- What the conversion catches: a term thrown by the module, or an exception of a function it
calls. -/
inductive Caught where
  | thrown (t : Term)
  | raised
  deriving DecidableEq

/-- `throw({:error, {:options, t}})` -/
def badOptions (t : Term) : Caught := .thrown (Term.error (.tuple [.atom "options", t]))

/-- `String.replace(key_string, "_", ".")`, on the bytes of the string. -/
def kafkaKey (key : String) : List UInt8 := (Term.utf8 key).map fun b => if b = 95 then 46 else b

/-- `String.to_charlist`. The names are ASCII, so the characters are the bytes. -/
def toCharlist (s : List UInt8) : Term := Term.ofList (s.map fun b => .int b.toNat)

example : kafkaKey "auto_commit_interval_ms" = Term.utf8 "auto.commit.interval.ms" := by decide

/-- The clauses of `to_librdkafka_config` and `to_librdkafka_topic_config` for a list of keys. -/
def toLibrdkafka (keys : List String) (k v : Term) : Except Caught Term :=
  match k with
  | .atom key =>
    if key ∈ keys then
      match Utils.toBinary v with
      | some b => .ok (.tuple [toCharlist (kafkaKey key), .binary b])
      | none => .error .raised
    else .error (badOptions (.tuple [k, v]))
  | _ => .error (badOptions (.tuple [k, v]))

/-- `to_librdkafka_config` -/
def toLibrdkafkaConfig : Term → Term → Except Caught Term := toLibrdkafka kafkaConfigKeys

/-- `to_librdkafka_topic_config` -/
def toLibrdkafkaTopicConfig : Term → Term → Except Caught Term := toLibrdkafka topicConfigKeys

/-- `check_callback` -/
def checkCallback (k v : Term) (arity : ℕ) : Except Caught Bool :=
  match v with
  | .func n _ => if n = arity then .ok true else .error (badOptions (.tuple [k, v]))
  | .atom _ => .ok true
  | _ => .error (badOptions (.tuple [k, v]))

/-- `is_exrdkafka_config?` -/
def isExrdkafkaConfig (k v : Term) : Except Caught Bool :=
  if k = .atom "delivery_report_callback" then checkCallback k v 2
  else if k = .atom "stats_callback" then checkCallback k v 2
  else if k = .atom "queue_buffering_overflow_strategy" then
    if v = .atom "local_disk_queue" then .ok true
    else if v = .atom "block_calling_process" then .ok true
    else if v = .atom "drop_records" then .ok true
    else .error (badOptions v)
  else .ok false

/-- `is_exrdkafka_topic_config` -/
def isExrdkafkaTopicConfig (_ _ : Term) : Except Caught Bool := .ok false

/-! ## Converting a configuration -/

/-- What a conversion returns: the library's own options and the entries for librdkafka, both in
reverse order, or what was caught. -/
inductive Converted where
  | ok (own rdk : List Term)
  | caught (reason : Caught)

/-- The loop of `filter_kafka_config` and `filter_topic_config`. -/
def filterConfig (isOwn : Term → Term → Except Caught Bool)
    (toRdk : Term → Term → Except Caught Term) : Term → List Term → List Term → Converted
  | .nil, own, rdk => .ok own rdk
  | .cons (.tuple [k, v]) t, own, rdk =>
    match isOwn k v with
    | .error e => .caught e
    | .ok true => filterConfig isOwn toRdk t (.tuple [k, v] :: own) rdk
    | .ok false =>
      match toRdk k v with
      | .error e => .caught e
      | .ok entry => filterConfig isOwn toRdk t own (entry :: rdk)
  -- no clause matches
  | _, _, _ => .caught .raised

/-- `convert_kafka_config` -/
def convertKafkaConfig (conf : Term) : Converted :=
  filterConfig isExrdkafkaConfig toLibrdkafkaConfig conf [] []

/-- `convert_topic_config` -/
def convertTopicConfig (conf : Term) : Converted :=
  filterConfig isExrdkafkaTopicConfig toLibrdkafkaTopicConfig conf [] []

/-- An entry for librdkafka made from a key of the list. -/
def EntryOf (keys : List String) (entry : Term) : Prop :=
  ∃ key ∈ keys, ∃ b, entry = .tuple [toCharlist (kafkaKey key), .binary b]

theorem entryOf_toLibrdkafka {keys : List String} {k v entry : Term}
    (h : toLibrdkafka keys k v = .ok entry) : EntryOf keys entry := by
  unfold toLibrdkafka at h
  split at h
  · rename_i key
    split_ifs at h with hkey
    split at h
    · rename_i b _
      exact ⟨key, hkey, b, (Except.ok.inj h).symm⟩
    · cases h
  · cases h

/-- Every converted entry comes from a known key. -/
theorem entryOf_filterConfig {isOwn : Term → Term → Except Caught Bool} {keys : List String}
    {conf : Term} {own rdk own' rdk' : List Term} (hrdk : ∀ e ∈ rdk, EntryOf keys e)
    (h : filterConfig isOwn (toLibrdkafka keys) conf own rdk = .ok own' rdk') :
    ∀ e ∈ rdk', EntryOf keys e := by
  fun_induction filterConfig isOwn (toLibrdkafka keys) conf own rdk with
  | case1 own rdk =>
    cases h
    exact hrdk
  | case2 => cases h
  | case3 k v t own rdk _ ih => exact ih hrdk h
  | case4 => cases h
  | case5 k v t own rdk _ entry hentry ih =>
    exact ih (List.forall_mem_cons.2 ⟨entryOf_toLibrdkafka hentry, hrdk⟩) h
  | case6 => cases h

end Exrdkafka.Config
