import Exrdkafka.ClientManager

/-!
# Creating clients with global options

`create_producer` and `create_consumer_group` append the options of the application environment to
the options of the client. `Merged` says what the options of the two lists come to.

`append_props` walks the second list and has no clause for its end. Every list of global options,
the empty one included, makes the call raise; only when none are set does a client get its options.
-/

namespace Exrdkafka.Api

open ClientSupervisor Utils

/-! ## The calls -/

/-- The value of `:global_client_options` in the application environment: the list that is set,
`nil` when none is. -/
def globalClientOptions : Option (List (Term × Term)) → Term
  | none => .atom "nil"
  | some l => props l

/-- `Exrdkafka.create_producer`; `none` when it raises. -/
def createProducer (c : Clients) (globals : Term) (clientId : String)
    (clientConfig : List (Term × Term)) (env : Env) : Option (Clients × ClientManager.Reply) :=
  (appendProps clientConfig (getEnv globals (props []))).map fun config =>
    ClientManager.createProducer c clientId (props config) env

/-- `Exrdkafka.create_consumer_group`; `none` when it raises. -/
def createConsumerGroup (c : Clients) (globals : Term) (clientId : String) (topics : Term)
    (baseClientConfig : List (Term × Term)) (defaultTopicsConfig : Term) (env : Env) :
    Option (Clients × ClientManager.Reply) :=
  (appendProps baseClientConfig (getEnv globals (props []))).map fun clientConfig =>
    ClientManager.internalStartConsumer c clientId topics (props clientConfig)
      defaultTopicsConfig env

/-! ## Merged options -/

/-- `l` has the options of `l1`, completed by those of `l2`. -/
structure Merged (l1 l2 l : List (Term × Term)) : Prop where
  /-- An option that `l1` sets keeps its value. -/
  set : ∀ k, lookup k l1 ≠ .undefined → lookup k l = lookup k l1
  /-- Any other option has the value of its first occurrence in `l2`. -/
  unset : ∀ k, lookup k l1 = .undefined → lookup k l = lookup k l2
  /-- The entries of `l1` are kept in order, and the entries added are of `l2`, no key twice. -/
  added : l1.Sublist l ∧
    ∃ added, l.Perm (added ++ l1) ∧ added ⊆ l2 ∧ (added.map Prod.fst).Nodup

theorem merged_nil (l1 : List (Term × Term)) : Merged l1 [] l1 where
  set _ _ := rfl
  unset _ hk := hk
  added := ⟨List.Sublist.refl l1, [], List.Perm.refl _, List.nil_subset _, List.nodup_nil⟩

/-- **Merging client and global options.** What the calls are to do with the options `l1` of a
client and the global options `l2`. -/
structure Merges (l1 : List (Term × Term)) (l2 : Option (List (Term × Term))) : Prop where
  /-- `append_props` returns the merged options. -/
  returns : ∃ l, appendProps l1 (globalClientOptions l2) = some l ∧ Merged l1 (l2.getD []) l
  /-- A producer is started with the merged options. -/
  producer : ∀ c clientId env, ∃ l, Merged l1 (l2.getD []) l ∧
    createProducer c (globalClientOptions l2) clientId l1 env =
      some (ClientManager.createProducer c clientId (props l) env)
  /-- A consumer group is started with the merged options. -/
  consumerGroup : ∀ c clientId topics defaultTopicsConfig env, ∃ l, Merged l1 (l2.getD []) l ∧
    createConsumerGroup c (globalClientOptions l2) clientId topics l1 defaultTopicsConfig env =
      some (ClientManager.internalStartConsumer c clientId topics (props l) defaultTopicsConfig
        env)

/-- Every list is walked to its end, where no clause matches. -/
theorem appendProps_props (l1 l2 : List (Term × Term)) : appendProps l1 (props l2) = none := by
  induction l2 generalizing l1 with
  | nil => simp [props, Term.ofList, appendProps]
  | cons p l2 ih =>
    show appendProps l1 (.cons (.tuple [p.1, p.2]) (props l2)) = none
    rw [appendProps]
    split
    · exact ih _
    · exact ih _

theorem getEnv_globalClientOptions (l2 : Option (List (Term × Term))) :
    getEnv (globalClientOptions l2) (props []) = globalClientOptions l2 := by
  apply if_neg
  rcases l2 with _ | _ | ⟨p, l⟩
  · decide
  · decide
  · simp [globalClientOptions, props, Term.ofList, Term.undefined]

theorem appendProps_nil (l1 : List (Term × Term)) :
    appendProps l1 (globalClientOptions none) = some l1 := by
  simp [globalClientOptions, appendProps]

/-- **The merge, exactly.** The options of a client and the global options are merged exactly when
no global options are set. -/
theorem merges_iff (l1 : List (Term × Term)) (l2 : Option (List (Term × Term))) :
    Merges l1 l2 ↔ l2 = none := by
  refine ⟨fun h => ?_, ?_⟩
  · cases l2 with
    | none => rfl
    | some l2 =>
      obtain ⟨l, hl, -⟩ := h.returns
      have hnone : appendProps l1 (globalClientOptions (some l2)) = none := appendProps_props l1 l2
      rw [hnone] at hl
      cases hl
  · rintro rfl
    have happend : appendProps l1 (getEnv (globalClientOptions none) (props [])) = some l1 := by
      rw [getEnv_globalClientOptions, appendProps_nil]
    refine ⟨⟨l1, appendProps_nil l1, merged_nil l1⟩, fun c clientId env => ?_,
      fun c clientId topics defaultTopicsConfig env => ?_⟩
    · exact ⟨l1, merged_nil l1, by rw [createProducer, happend]; rfl⟩
    · exact ⟨l1, merged_nil l1, by rw [createConsumerGroup, happend]; rfl⟩

/-- A producer with the option `socket_keepalive_enable`, under global options with a broker. -/
theorem globalOptions_raise : ¬ Merges [(.atom "socket_keepalive_enable", .atom "true")]
    (some [(.atom "bootstrap_servers", .str "localhost:9092")]) := by
  intro h
  obtain ⟨l, hl, -⟩ := h.returns
  have hnone : appendProps [(.atom "socket_keepalive_enable", .atom "true")]
      (globalClientOptions (some [(.atom "bootstrap_servers", .str "localhost:9092")])) = none := by
    decide
  rw [hnone] at hl
  cases hl

end Exrdkafka.Api
