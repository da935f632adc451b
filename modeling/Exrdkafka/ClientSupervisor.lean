import Exrdkafka.CacheClient
import Exrdkafka.ConsumerGroup.Server
import Exrdkafka.Producer.Server

/-!
# The client supervisor

`Exrdkafka.ClientSupervisor` runs every client as a transient child under its client id: a client
that crashes is started again with the same arguments, one that ends normally is not, and its child
specification stays. A client writes itself into the cache when it starts.

A supervisor that has to restart its children too often ends with all of them. After that
`Exrdkafka.Supervisor` starts `Exrdkafka.ClientSupervisor` again, with `Exrdkafka.ClientManager`
only, unless it has restarted too often itself: then the application ends.

What a start meets outside (the NIF, the local queue, the time) comes with it as an `Env`. What only
the NIF reads of the arguments is left out.
-/

namespace Exrdkafka.ClientSupervisor

/-- The arguments of `start_link`. -/
inductive ChildSpec where
  | producer (drCallback : Term) (exrdkafkaConfig : List (Term × Term)) (producerRef : Term)
  | consumerGroup (topics : List (List UInt8 × ConsumerGroup.Settings))
      (ekClientConfig : List (Term × Term))

/-- What a start meets. -/
structure Env where
  /-- the reference that `producer_new` or `consumer_new` returns, or what it returns instead -/
  new : Except Term Term
  /-- the content of the queue that `LocalQueue.new` opens, if it does -/
  localQueue : Option (List Producer.Payload)
  /-- the time, in seconds, when it is a restart -/
  time : ℕ := 0
  /-- the time at which the supervisor has ended, when it is a restart too many -/
  later : ℕ := 0

/-- A child: its process, unless it has ended. -/
structure Child where
  spec : ChildSpec
  pid : Option ℕ

/-- The supervisor's children under their ids, the cache, and the next process identifier. -/
structure Clients where
  cache : CacheClient.Table
  children : String → Option Child
  nextPid : ℕ
  /-- the restarts that `Exrdkafka.ClientSupervisor` counts, the latest first -/
  restarts : List ℕ
  /-- those that `Exrdkafka.Supervisor` counts -/
  appRestarts : List ℕ
  /-- the application runs; the cache ends with it -/
  up : Bool

namespace Clients

/-- No clients. -/
def empty : Clients := ⟨CacheClient.create, fun _ => none, 0, [], [], true⟩

/-- The process that runs under an id. -/
def pidOf (c : Clients) (clientId : String) : Option ℕ := (c.children clientId).bind Child.pid

/-- The child of an id becomes `child`. -/
def setChild (c : Clients) (clientId : String) (child : Option Child) : Clients :=
  { c with children := Function.update c.children clientId child }

@[simp] theorem setChild_cache (c : Clients) (clientId : String) (child : Option Child) :
    (c.setChild clientId child).cache = c.cache := rfl

theorem pidOf_setChild_self (c : Clients) (clientId : String) (child : Option Child) :
    (c.setChild clientId child).pidOf clientId = child.bind Child.pid := by
  simp only [pidOf, setChild, Function.update_self]

theorem pidOf_setChild_of_ne (c : Clients) {clientId other : String} (child : Option Child)
    (h : other ≠ clientId) : (c.setChild clientId child).pidOf other = c.pidOf other := by
  simp only [pidOf, setChild, Function.update_of_ne h]

theorem children_setChild_self (c : Clients) (clientId : String) (child : Option Child) :
    (c.setChild clientId child).children clientId = child := Function.update_self ..

theorem children_setChild_of_ne (c : Clients) {clientId other : String} (child : Option Child)
    (h : other ≠ clientId) : (c.setChild clientId child).children other = c.children other :=
  Function.update_of_ne h ..

/-- A new process writes itself into the cache. -/
def register (c : Clients) (clientId : String) (ref : Term) : Clients :=
  { c with cache := CacheClient.set c.cache clientId ref c.nextPid, nextPid := c.nextPid + 1 }

/-- A new process that leaves the cache alone. -/
def spawn (c : Clients) : Clients := { c with nextPid := c.nextPid + 1 }

end Clients

/-! ## Starting a client -/

/-- The effect of a starting producer on the cache, when its process is `pid`. -/
def producerEffect (pid : ℕ) (cache : CacheClient.Table) : Producer.Effect → CacheClient.Table
  | .cacheSet clientId ref => CacheClient.set cache clientId ref pid
  | _ => cache

/-- The effect of a starting consumer group on the cache, when its process is `pid`. -/
def consumerGroupEffect (pid : ℕ) (cache : CacheClient.Table) :
    ConsumerGroup.InitEffect → CacheClient.Table
  | .cacheSet clientId ref => CacheClient.set cache clientId ref pid

/-- `start_link` of the client's module: the process, unless its `init` fails. -/
def startLink (c : Clients) (clientId : String) (env : Env) : ChildSpec → Clients × Option ℕ
  | .producer drCallback exrdkafkaConfig producerRef =>
    let h := Producer.init clientId drCallback exrdkafkaConfig producerRef env.localQueue
    ({ c with
        cache := h.effects.foldl (producerEffect c.nextPid) c.cache
        nextPid := c.nextPid + 1 },
      h.next.map fun _ => c.nextPid)
  | .consumerGroup topics ekClientConfig =>
    match ConsumerGroup.init clientId topics ekClientConfig env.new with
    | .error _ => ({ c with nextPid := c.nextPid + 1 }, none)
    | .ok (_, effects) =>
      ({ c with
          cache := effects.foldl (consumerGroupEffect c.nextPid) c.cache
          nextPid := c.nextPid + 1 },
        some c.nextPid)

/-- The start succeeds: a producer opens its local queue, a consumer group gets a consumer. -/
def ChildSpec.Starts (env : Env) : ChildSpec → Prop
  | .producer _ _ _ => env.localQueue.isSome
  | .consumerGroup _ _ => env.new.isOk

instance (env : Env) (spec : ChildSpec) : Decidable (spec.Starts env) := by
  cases spec <;> exact inferInstanceAs (Decidable (_ = true))

/-- The reference a client is in the cache with. -/
def ChildSpec.ref : ChildSpec → Term
  | .producer _ _ producerRef => producerRef
  | .consumerGroup _ _ => .undefined

theorem startLink_of_starts {env : Env} {spec : ChildSpec} (h : spec.Starts env) (c : Clients)
    (clientId : String) :
    startLink c clientId env spec = (c.register clientId spec.ref, some c.nextPid) := by
  obtain ⟨new, localQueue⟩ := env
  cases spec with
  | producer drCallback config ref =>
    obtain ⟨q, rfl⟩ := Option.isSome_iff_exists.1 h
    by_cases hs : Utils.lookup (.atom "queue_buffering_overflow_strategy") config
        Producer.localDiskQueue = Producer.localDiskQueue <;>
      simp [startLink, Producer.init, hs, producerEffect, Clients.register, ChildSpec.ref,
        GenServer.Handled.effects, GenServer.Handled.next]
  | consumerGroup topics config =>
    cases new with
    | error e => cases h
    | ok ref => rfl

/-- A producer that fails to start is in the cache already. -/
theorem startLink_producer {env : Env} (h : env.localQueue = none) (c : Clients) (clientId : String)
    (drCallback : Term) (config : List (Term × Term)) (ref : Term) :
    startLink c clientId env (.producer drCallback config ref) =
      (c.register clientId ref, none) := by
  obtain ⟨new, localQueue⟩ := env
  obtain rfl : localQueue = none := h
  rfl

/-- A consumer group that fails to start has not touched the cache. -/
theorem startLink_consumerGroup {env : Env} {topics : List (List UInt8 × ConsumerGroup.Settings)}
    {config : List (Term × Term)} (h : ¬ (ChildSpec.consumerGroup topics config).Starts env)
    (c : Clients) (clientId : String) :
    startLink c clientId env (.consumerGroup topics config) = (c.spawn, none) := by
  obtain ⟨new, localQueue⟩ := env
  cases new with
  | error e => rfl
  | ok ref => exact absurd rfl h

/-- A start that fails leaves an entry of its dead process in the cache, or no trace. -/
theorem startLink_of_not_starts {env : Env} {spec : ChildSpec} (h : ¬ spec.Starts env) (c : Clients)
    (clientId : String) :
    startLink c clientId env spec = (c.register clientId spec.ref, none) ∨
      startLink c clientId env spec = (c.spawn, none) := by
  cases spec with
  | producer drCallback config ref =>
    exact Or.inl (startLink_producer (Option.not_isSome_iff_eq_none.1 h) c clientId ..)
  | consumerGroup topics config => exact Or.inr (startLink_consumerGroup h c clientId)

/-! ## The supervisor -/

/-- What `Supervisor.start_child` returns. -/
inductive StartChild where
  | ok (pid : ℕ)
  | alreadyStarted (pid : ℕ)
  | alreadyPresent
  | failed
  deriving DecidableEq

/-- `add_client`. A specification that is there already is not started. -/
def addClient (c : Clients) (clientId : String) (spec : ChildSpec) (env : Env) :
    Clients × StartChild :=
  match c.children clientId with
  | some ⟨_, some pid⟩ => (c, .alreadyStarted pid)
  | some ⟨_, none⟩ => (c, .alreadyPresent)
  | none =>
    match startLink c clientId env spec with
    | (c', some pid) => (c'.setChild clientId (some ⟨spec, some pid⟩), .ok pid)
    | (c', none) => (c', .failed)

/-- `remove_client`: the child is terminated and its specification deleted. Returns whether there
was one. -/
def removeClient (c : Clients) (clientId : String) : Clients × Bool :=
  (c.setChild clientId none, (c.children clientId).isSome)

/-- A client has ended normally: its specification stays. -/
def clientEnded (c : Clients) (clientId : String) (spec : ChildSpec) : Clients :=
  c.setChild clientId (some ⟨spec, none⟩)

/-! ## Restarts -/

/-- `max_restarts`, where `Supervisor.init` is not given another -/
def maxRestarts : ℕ := 3

/-- `max_seconds`, where `Supervisor.init` is not given another -/
def maxSeconds : ℕ := 5

/-- The restarts that a supervisor counts when it restarts a child at the time `now`. -/
def addRestart (now : ℕ) (restarts : List ℕ) : List ℕ :=
  now :: restarts.takeWhile fun time => now ≤ time + maxSeconds

/-- A restart at the time `now` is one too many. -/
def Exceeds (now : ℕ) (restarts : List ℕ) : Prop := maxRestarts < (addRestart now restarts).length

instance (now : ℕ) (restarts : List ℕ) : Decidable (Exceeds now restarts) :=
  inferInstanceAs (Decidable (_ < _))

-- a fourth restart within five seconds
example : Exceeds 5 [3, 1, 0] ∧ ¬ Exceeds 6 [3, 1, 0] := by decide

/-- The supervisor has ended with all its clients, and is started again without any. -/
def stopAll (c : Clients) : Clients := { c with children := fun _ => none, restarts := [] }

/-- The supervisor has restarted too often, and has ended at the time `later`: the supervisor of the
application starts it again, unless it has restarted too often itself. -/
def giveUp (c : Clients) (later : ℕ) : Clients :=
  { stopAll c with
    appRestarts := addRestart later c.appRestarts
    up := decide (¬ Exceeds later c.appRestarts) }

theorem up_giveUp (c : Clients) (later : ℕ) :
    (giveUp c later).up = true ↔ ¬ Exceeds later c.appRestarts := decide_eq_true_iff

/-- The supervisor counts a restart. -/
def countRestart (c : Clients) (now : ℕ) : Clients :=
  { c with restarts := addRestart now c.restarts }

/-- `Exrdkafka.ClientManager` has crashed, and is restarted. -/
def managerCrashed (c : Clients) (env : Env) : Clients :=
  if Exceeds env.time c.restarts then giveUp c env.later else countRestart c env.time

/-- One attempt to start a child again. -/
def attempt (clientId : String) (spec : ChildSpec) (c : Clients) (env : Env) : Clients :=
  match startLink c clientId env spec with
  | (c', some pid) => c'.setChild clientId (some ⟨spec, some pid⟩)
  | (c', none) => c'

/-- The restarts of a client that has crashed, by what each attempt meets: the first that succeeds
is the last, and so is one too many. It is not over when there is none of them. -/
def restartClient (clientId : String) (spec : ChildSpec) : Clients → List Env → Option Clients
  | _, [] => none
  | c, env :: attempts =>
    if Exceeds env.time c.restarts then some (giveUp c env.later)
    else
      let c' := attempt clientId spec (countRestart c env.time) env
      if spec.Starts env then some c' else restartClient clientId spec c' attempts

/-- The attempt that is one too many, if the restarts come to it. -/
def oneTooMany (spec : ChildSpec) : List ℕ → List Env → Option Env
  | _, [] => none
  | restarts, env :: attempts =>
    if Exceeds env.time restarts then some env
    else if spec.Starts env then none
    else oneTooMany spec (addRestart env.time restarts) attempts

theorem attempt_of_starts {env : Env} {spec : ChildSpec} (h : spec.Starts env) (c : Clients)
    (clientId : String) : attempt clientId spec c env =
      (c.register clientId spec.ref).setChild clientId (some ⟨spec, some c.nextPid⟩) := by
  simp only [attempt, startLink_of_starts h]

/-- An attempt that fails leaves an entry of its dead process in the cache, or no trace. -/
theorem attempt_of_not_starts {env : Env} {spec : ChildSpec} (h : ¬ spec.Starts env) (c : Clients)
    (clientId : String) :
    attempt clientId spec c env = c.register clientId spec.ref ∨
      attempt clientId spec c env = c.spawn := by
  rcases startLink_of_not_starts h c clientId with hlink | hlink
  · exact Or.inl (by simp only [attempt, hlink])
  · exact Or.inr (by simp only [attempt, hlink])

theorem restarts_attempt {env : Env} {spec : ChildSpec} (h : ¬ spec.Starts env) (c : Clients)
    (clientId : String) : (attempt clientId spec c env).restarts = c.restarts := by
  rcases attempt_of_not_starts h c clientId with hfailed | hfailed <;> rw [hfailed] <;> rfl

/-- What attempts to restart the client of an id have done that have all failed. -/
structure Tried (clientId : String) (c d : Clients) : Prop where
  children : d.children = c.children
  appRestarts : d.appRestarts = c.appRestarts
  up : d.up = c.up
  /-- Another id has the entry that it had. -/
  others : ∀ other, other ≠ clientId →
    CacheClient.get d.cache other = CacheClient.get c.cache other
  /-- An entry of the id is not taken out. -/
  kept : (CacheClient.get c.cache clientId).isSome → (CacheClient.get d.cache clientId).isSome

theorem Tried.refl (clientId : String) (c : Clients) : Tried clientId c c :=
  ⟨rfl, rfl, rfl, fun _ _ => rfl, id⟩

/-- One attempt more. -/
theorem Tried.cons {clientId : String} {spec : ChildSpec} {env : Env} {c d : Clients}
    (h : Tried clientId (attempt clientId spec (countRestart c env.time) env) d)
    (hstarts : ¬ spec.Starts env) : Tried clientId c d := by
  rcases attempt_of_not_starts hstarts (countRestart c env.time) clientId with hfailed | hfailed <;>
    rw [hfailed] at h
  · refine ⟨h.children, h.appRestarts, h.up, fun other hne => ?_, fun _ => h.kept ?_⟩
    · exact (h.others other hne).trans (CacheClient.get_set_of_ne _ _ _ hne)
    · simp [Clients.register]
  · exact ⟨h.children, h.appRestarts, h.up, h.others, h.kept⟩

/-- What the restarts of a client come to, when `exceeded` is the attempt that is one too many. -/
inductive Restarted (clientId : String) (spec : ChildSpec) (c : Clients) :
    Option Env → Clients → Prop
  | started {d : Clients} (htried : Tried clientId c d) : Restarted clientId spec c none
      ((d.register clientId spec.ref).setChild clientId (some ⟨spec, some d.nextPid⟩))
  | gaveUp {d : Clients} (htried : Tried clientId c d) (env : Env) :
      Restarted clientId spec c (some env) (giveUp d env.later)

theorem Restarted.cons {clientId : String} {spec : ChildSpec} {env : Env} {c c' : Clients}
    {exceeded : Option Env}
    (h : Restarted clientId spec (attempt clientId spec (countRestart c env.time) env) exceeded c')
    (hstarts : ¬ spec.Starts env) : Restarted clientId spec c exceeded c' := by
  cases h with
  | started htried => exact .started (htried.cons hstarts)
  | gaveUp htried env => exact .gaveUp (htried.cons hstarts) env

theorem restarted_of_restartClient {clientId : String} {spec : ChildSpec} {attempts : List Env}
    {c c' : Clients} (h : restartClient clientId spec c attempts = some c') :
    Restarted clientId spec c (oneTooMany spec c.restarts attempts) c' := by
  induction attempts generalizing c with
  | nil => cases h
  | cons env attempts ih =>
    rw [restartClient] at h
    rw [oneTooMany]
    split_ifs at h ⊢ with hexceeds hstarts
    · obtain rfl := Option.some.inj h
      exact .gaveUp (.refl clientId c) env
    · obtain rfl := Option.some.inj h
      rw [attempt_of_starts hstarts]
      exact .started ⟨rfl, rfl, rfl, fun _ _ => rfl, id⟩
    · have hrest := ih h
      rw [restarts_attempt hstarts] at hrest
      exact hrest.cons hstarts

end Exrdkafka.ClientSupervisor
