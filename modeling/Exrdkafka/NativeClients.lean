import Exrdkafka.ClientManager
import Exrdkafka.Nif.Stopped

/-!
# The native clients of the application

A producer gets its native client from the manager, which hands it over with the other arguments of
`start_link`: it is the same one when the process is restarted. A consumer group makes one each time
it starts. A process cleans its client up when it terminates: a consumer group always, a producer
only with the reason `:shutdown`.

`App` is the supervisor with its processes, the native clients that they have made, and the native
side of each (`Nif.Owned.Life`): its references, its topics and the thread of its cleanup, which
go on in any interleaving with the processes.

* `Healthy`: nothing native is misused, and every process that runs has a client of its own, which
  has not been cleaned up and knows the process as its owner.
* `healthy_of_run`: it holds in every run. No client is cleaned up twice.
* `Answered`: a client sends `client_stopped` once, to the process that has cleaned it up, and its
  thread can always send it by itself; `answered_of_run`.
-/

namespace Exrdkafka.NativeClients

open ClientManager ClientSupervisor Config Machine Nif Nif.Owned

variable {κ τ : Type}

/-! ## The application -/

/-- The supervisor, the native clients by number, and who uses them. -/
structure App where
  clients : Clients
  lives : ℕ → Life
  /-- `owner_pid` of a native client -/
  owner : ℕ → Option ℕ
  nextRef : ℕ
  /-- the native client of the process that runs under an id -/
  clientRef : String → Option ℕ
  /-- the id whose process or child specification holds the reference to a native client -/
  holder : ℕ → Option String
  /-- the process that has cleaned a native client up, and waits for `client_stopped` -/
  cleanedBy : ℕ → Option ℕ
  /-- the children that the supervisor has to restart -/
  crashed : List String

/-- What the start of a process meets: the arguments of `consumer_new`, the answers to
`producer_new` or `consumer_new`, and what `LocalQueue.new` opens. -/
structure Meets where
  args : ConsumerArgs
  replies : NewReplies
  localQueue : Option (List Producer.Payload)

namespace App

/-- Before the first client. -/
def start : App where
  clients := .empty
  lives _ := .start
  owner _ := none
  nextRef := 0
  clientRef _ := none
  holder _ := none
  cleanedBy _ := none
  crashed := []

/-- The native side of a client goes on. -/
def setLife (a : App) (r : ℕ) (l : Life) : App := { a with lives := Function.update a.lives r l }

theorem lives_setLife_self (a : App) (r : ℕ) (l : Life) : (a.setLife r l).lives r = l :=
  Function.update_self ..

theorem lives_setLife_of_ne (a : App) {r r' : ℕ} (l : Life) (h : r' ≠ r) :
    (a.setLife r l).lives r' = a.lives r' := Function.update_of_ne h ..

/-- `producer_new` or `consumer_new`: the native client, if it is created. -/
def create (a : App) (new : NewReplies → NewResult × List Owned.Call) (replies : NewReplies) :
    App × Option ℕ :=
  let (result, calls) := new { replies with ref := a.nextRef }
  ({ a.setLife a.nextRef ((a.lives a.nextRef).make result.2 calls) with nextRef := a.nextRef + 1 },
    result.2.map fun _ => a.nextRef)

/-- `init` with the native client `r`, of which the process makes itself the owner. -/
def link (a : App) (clientId : String) (spec : ChildSpec) (env : Env) (r : ℕ) :
    App × Option (ℕ × ℕ) :=
  let (clients, pid) := ClientSupervisor.startLink a.clients clientId env spec
  ({ a with clients, owner := Function.update a.owner r (some a.clients.nextPid) },
    pid.map fun pid => (pid, r))

/-- `start_link` of the client's module: the process with its native client, unless its `init`
fails. -/
def startLink (lib : Librdkafka κ τ) (a : App) (clientId : String) (spec : ChildSpec) (m : Meets) :
    App × Option (ℕ × ℕ) :=
  match spec with
  | .producer _ _ producerRef =>
    match getResource producerRef with
    -- `producer_set_owner` returns `badarg`
    | none => ({ a with clients := a.clients.spawn }, none)
    | some r => a.link clientId spec { new := .error .undefined, localQueue := m.localQueue } r
  | .consumerGroup _ _ =>
    match a.create (enifConsumerNew lib m.args) m.replies with
    | (a, none) => ({ a with clients := a.clients.spawn }, none)
    | (a, some r) => a.link clientId spec { new := .ok (.ref r), localQueue := m.localQueue } r

/-- A process runs with its native client. -/
def runs (a : App) (clientId : String) (spec : ChildSpec) (p : ℕ × ℕ) : App :=
  { a with
    clients := a.clients.setChild clientId (some ⟨spec, some p.1⟩)
    clientRef := Function.update a.clientRef clientId (some p.2)
    holder := Function.update a.holder p.2 (some clientId)
    crashed := a.crashed.filter (· ≠ clientId) }

/-- `add_client` -/
def addClient (lib : Librdkafka κ τ) (a : App) (clientId : String) (spec : ChildSpec) (m : Meets) :
    App :=
  match a.clients.children clientId with
  | some _ => a
  | none =>
    match a.startLink lib clientId spec m with
    | (a, some p) => a.runs clientId spec p
    | (a, none) => a

/-- `delivery_report_callback` -/
def deliveryReportCallback (own : List Term) : Term :=
  Utils.lookup (.atom "delivery_report_callback") (pairs own)

/-- `has_dr_callback` -/
def hasDrCallback (own : List Term) : Term :=
  .atom (if deliveryReportCallback own = .undefined then "false" else "true")

/-- `create_producer`, with the global options appended to `config`. -/
def createProducer (lib : Librdkafka κ τ) (a : App) (clientId : String) (config : Term)
    (m : Meets) : App :=
  match convertKafkaConfig config with
  | .caught _ => a
  | .ok own rdk =>
    match CacheClient.get a.clients.cache clientId with
    | some _ => a
    | none =>
      match a.create (enifProducerNew lib (hasDrCallback own) (Term.ofList rdk)) m.replies with
      | (a, none) => a
      | (a, some r) =>
        a.addClient lib clientId (.producer (deliveryReportCallback own) (pairs own) (.ref r)) m

/-- `create_consumer_group` -/
def createConsumerGroup (lib : Librdkafka κ τ) (a : App) (clientId : String)
    (topics clientConfig defaultTopicsConfig : Term) (m : Meets) : App :=
  match CacheClient.get a.clients.cache clientId, validConsumerTopics topics,
    convertKafkaConfig clientConfig, convertTopicConfig defaultTopicsConfig with
  | none, some none, .ok ek _, .ok _ _ =>
    a.addClient lib clientId (.consumerGroup (topicsOf topics) (pairs ek)) m
  | _, _, _, _ => a

end App

/-! ## The end of a process -/

/-- Why a process ends: `{:shutdown, _}` counts as `normal`, and any other reason as a crash. A
process that is killed does not run `terminate`; one whose `terminate` raises before the cleanup
counts as killed. -/
inductive ExitReason where
  | normal
  | shutdown
  | crash
  | killed
  /-- it is killed while `terminate` waits for `client_stopped` -/
  | killedWaiting
  deriving DecidableEq

/-- A transient child that ends so is restarted. -/
def restarts : ChildSpec → ExitReason → Bool
  | _, .normal | _, .shutdown => false
  | _, .crash | _, .killed => true
  -- a producer waits only when the supervisor has shut it down
  | .producer .., .killedWaiting => false
  | .consumerGroup .., .killedWaiting => true

/-- `terminate` cleans the native client up. -/
def cleansUp : ChildSpec → ExitReason → Bool
  | .producer .., reason => reason = .shutdown ∨ reason = .killedWaiting
  | .consumerGroup .., reason => reason ≠ .killed

/-- The child specification keeps the reference of the process. -/
def keepsRef : ChildSpec → Bool
  | .producer .. => true
  | .consumerGroup .. => false

namespace App

/-- `producer_cleanup` or `consumer_cleanup` of the native client `r` -/
def cleanup (a : App) (r : ℕ) : ℕ → Life :=
  match (a.lives r).res with
  | some i => Function.update a.lives r ((a.lives r).cleanup i)
  | none => a.lives

/-- The process `pid` of a child ends, which has the native client `r`. -/
def ends (a : App) (clientId : String) (spec : ChildSpec) (pid r : ℕ) (reason : ExitReason) : App :=
  { a with
    clients := a.clients.setChild clientId (some ⟨spec, none⟩)
    lives := if cleansUp spec reason then a.cleanup r else a.lives
    cleanedBy := if cleansUp spec reason then Function.update a.cleanedBy r (some pid)
      else a.cleanedBy
    holder := if keepsRef spec then a.holder else Function.update a.holder r none
    crashed := if restarts spec reason then clientId :: a.crashed else a.crashed }

/-- The child of an id is deleted, with the reference in its specification. -/
def delete (a : App) (clientId : String) : App :=
  { a with
    clients := a.clients.setChild clientId none
    holder := fun r => if a.holder r = some clientId then none else a.holder r
    crashed := a.crashed.filter (· ≠ clientId) }

/-- The supervisor has ended, and whatever was left of its children, and is started again. -/
def restarted (a : App) : App :=
  { a with
    clients := stopAll a.clients
    holder := fun _ => none
    crashed := [] }

/-- A native event that is no call of a process: what the other modules cover is a creation or a
cleanup, and the last reference does not end while a process or a child specification has it. -/
def Native (a : App) (r : ℕ) : LifeEvent → Prop
  | .producerNew .. | .consumerNew .. | .cleanup => False
  | .drop => a.holder r = none ∨ ∀ i ∈ (a.lives r).res, i.refs ≠ 1
  | _ => True

instance (a : App) (r : ℕ) (e : LifeEvent) : Decidable (a.Native r e) := by
  cases e <;> unfold Native <;> infer_instance

end App

/-- What can happen. -/
inductive AppEvent where
  | createProducer (clientId : String) (config : Term) (m : Meets)
  | createConsumerGroup (clientId : String) (topics clientConfig defaultTopicsConfig : Term)
      (m : Meets)
  /-- a process ends, by itself or because the supervisor has terminated it -/
  | exits (clientId : String) (reason : ExitReason)
  /-- the supervisor tries to restart a crashed child -/
  | restart (clientId : String) (m : Meets)
  /-- the supervisor deletes a child that does not run -/
  | delete (clientId : String)
  /-- the supervisor itself is started again -/
  | restarted
  | native (r : ℕ) (e : LifeEvent)

/-- One event. -/
def App.step (lib : Librdkafka κ τ) (a : App) : AppEvent → Option App
  | .createProducer clientId config m => some (a.createProducer lib clientId config m)
  | .createConsumerGroup clientId topics clientConfig defaultTopicsConfig m =>
    some (a.createConsumerGroup lib clientId topics clientConfig defaultTopicsConfig m)
  | .exits clientId reason =>
    match a.clients.children clientId, a.clientRef clientId with
    | some ⟨spec, some pid⟩, some r => some (a.ends clientId spec pid r reason)
    | _, _ => none
  | .restart clientId m =>
    match a.clients.children clientId with
    | some ⟨spec, none⟩ =>
      if clientId ∈ a.crashed then
        match a.startLink lib clientId spec m with
        | (a, some p) => some (a.runs clientId spec p)
        | (a, none) => some a
      else none
    | _ => none
  | .delete clientId =>
    match a.clients.children clientId with
    | some ⟨_, none⟩ => some (a.delete clientId)
    | _ => none
  | .restarted => some a.restarted
  | .native r e =>
    if a.Native r e then ((a.lives r).step lib e).map (a.setLife r) else none

/-! ## What holds of the application -/

namespace App

/-- **Nothing native is misused.** -/
structure Healthy (a : App) : Prop where
  /-- No call has misused an object, and the objects that there are have an owner. -/
  allOwned : ∀ r, (a.lives r).AllOwned
  /-- A process that runs has a client, which has not been cleaned up and tells the process. -/
  running : ∀ clientId pid, a.clients.pidOf clientId = some pid →
    ∃ r i, a.clientRef clientId = some r ∧ (a.lives r).res = some i ∧ i.kf = true ∧
      i.closedFuture = none ∧ a.owner r = some pid
  /-- No two processes share a client. -/
  own : ∀ clientId other, (a.clients.pidOf clientId).isSome → (a.clients.pidOf other).isSome →
    a.clientRef clientId = a.clientRef other → clientId = other

/-- What a native client has said. -/
def said (a : App) (r : ℕ) : Option Talk := run Talk.step .idle (a.lives r).calls

/-- **Whoever cleans up is told.** -/
structure Answered (lib : Librdkafka κ τ) (a : App) : Prop where
  /-- A client sends `client_stopped` once at most, and only after it has been cleaned up. -/
  inTurn : ∀ r, ∃ t, a.said r = some t ∧ (t = .idle ↔ a.cleanedBy r = none)
  /-- It is sent to the process that waits for it. -/
  owner : ∀ r pid, a.cleanedBy r = some pid → a.owner r = some pid
  /-- It has been sent, or the thread of the cleanup sends it by itself. -/
  told : ∀ r, (a.cleanedBy r).isSome → ∃ n k b, k ≤ 4 ∧
    run (App.step lib) a (List.replicate k (.native r (.thread n))) = some b ∧
    b.said r = some (.told n)

/-- The native client `r` is for the id, and can be used. -/
structure Fit (a : App) (clientId : String) (r : ℕ) : Prop where
  holder : a.holder r = some clientId
  usable : ∃ i, (a.lives r).res = some i ∧ i.closedFuture = none

/-- A producer has the client of its child specification. -/
def NamesRef (r : ℕ) : ChildSpec → Prop
  | .producer _ _ producerRef => producerRef = .ref r
  | .consumerGroup .. => True

/-- A producer has a native client in its child specification, with the property `P`. -/
def Brings (P : ℕ → Prop) : ChildSpec → Prop
  | .producer _ _ producerRef => ∃ r, producerRef = .ref r ∧ P r
  | .consumerGroup .. => True

theorem Brings.imp {P Q : ℕ → Prop} {spec : ChildSpec} (h : Brings P spec) (hPQ : ∀ r, P r → Q r) :
    Brings Q spec := by
  cases spec with
  | producer =>
    obtain ⟨r, hr, hP⟩ := h
    exact ⟨r, hr, hPQ r hP⟩
  | consumerGroup => trivial

/-- The native client `r` can be used, and no other id holds it. -/
structure Available (a : App) (clientId : String) (r : ℕ) : Prop where
  created : r < a.nextRef
  alone : ∀ other, a.holder r = some other → other = clientId
  usable : ∃ i, (a.lives r).res = some i ∧ i.closedFuture = none

/-- A client that nobody holds is available. -/
theorem available_of_none {a : App} {clientId : String} {r : ℕ} (hr : r < a.nextRef)
    (hholder : a.holder r = none)
    (husable : ∃ i, (a.lives r).res = some i ∧ i.closedFuture = none) : a.Available clientId r := by
  refine ⟨hr, fun other hother => ?_, husable⟩
  rw [hholder] at hother
  cases hother

/-- The process `p.1` is about to run with the native client `p.2`. -/
structure Launched (a : App) (clientId : String) (spec : ChildSpec) (p : ℕ × ℕ) : Prop where
  available : a.Available clientId p.2
  owner : a.owner p.2 = some p.1
  names : NamesRef p.2 spec

/-- What holds of one native client. -/
structure Client (l : Life) (owner cleanedBy : Option ℕ) : Prop where
  sound : l.Sound
  /-- It has been spoken to by the process that has cleaned it up, and by no other. -/
  speaks : ∃ t, Speaks l t ∧ (t = .idle ↔ cleanedBy = none)
  owner : ∀ pid ∈ cleanedBy, owner = some pid

section Client

variable {l : Life} {owner cleanedBy : Option ℕ} {i : Resource}

/-- Nobody has cleaned up a client that can be used. -/
theorem Client.unasked (h : Client l owner cleanedBy) (hres : l.res = some i)
    (hclosed : i.closedFuture = none) : cleanedBy = none := by
  obtain ⟨t, hspeaks, hidle⟩ := h.speaks
  refine hidle.1 ?_
  rw [hspeaks.talk i hres, Resource.talk, hclosed]

/-- Such a client gets another owner. -/
theorem Client.setOwner (h : Client l owner cleanedBy) (hres : l.res = some i)
    (hclosed : i.closedFuture = none) (owner' : Option ℕ) : Client l owner' cleanedBy := by
  refine ⟨h.sound, h.speaks, fun pid hpid => ?_⟩
  rw [h.unasked hres hclosed] at hpid
  cases hpid

theorem Client.create (h : Client l owner none) (hres : l.res = none) {isConsumer : Bool}
    {b : Scoped.Body NewResult Owned.Call NewResult}
    (hmeets : Scoped.Meets Owned.Call.step Ownership.empty [] b (Leaves isConsumer))
    (hsilent : ∀ c ∈ (Scoped.finish b).2, Silent c) :
    Client (l.make (Scoped.finish b).1.2 (Scoped.finish b).2) owner none := by
  obtain ⟨t, hspeaks, hidle⟩ := h.speaks
  obtain rfl := hidle.2 rfl
  obtain ⟨_, _, _, hleaves⟩ := hmeets.finish
  refine ⟨h.sound.create hres hmeets, ⟨.idle, hspeaks.create hsilent fun i hi => ?_,
    iff_of_true rfl rfl⟩, h.owner⟩
  rw [hleaves i hi]
  rfl

theorem Client.cleanup {pid : ℕ} (h : Client l (some pid) cleanedBy) (hres : l.res = some i)
    (hclosed : i.closedFuture = none) : Client (l.cleanup i) (some pid) (some pid) := by
  obtain ⟨t, hspeaks, -⟩ := h.speaks
  refine ⟨h.sound.cleanup hres hclosed, ⟨.asked l.next, hspeaks.cleanup hres hclosed, ?_⟩,
    fun p hp => hp⟩
  exact iff_of_false (by simp) (by simp)

theorem Client.step (lib : Librdkafka κ τ) (h : Client l owner cleanedBy) (hres : l.res = some i)
    {e : LifeEvent} (he : e ≠ .cleanup) {l' : Life} (hl : l.step lib e = some l') :
    Client l' owner cleanedBy := by
  have honce : CleanedOnce l e := by
    cases e with
    | cleanup => exact absurd rfl he
    | _ => trivial
  obtain ⟨t, hspeaks, hidle⟩ := h.speaks
  obtain ⟨t', hspeaks', hgoes⟩ := hspeaks.step lib h.sound hres he hl
  exact ⟨h.sound.step lib hl honce, ⟨t', hspeaks', hgoes.idle_iff.trans hidle⟩, h.owner⟩

end Client

/-- **The invariant.** -/
structure Inv (a : App) : Prop where
  client : ∀ r, Client (a.lives r) (a.owner r) (a.cleanedBy r)
  unused : ∀ r, a.nextRef ≤ r →
    (a.lives r).res = none ∧ a.holder r = none ∧ a.cleanedBy r = none
  running : ∀ clientId spec pid, a.clients.children clientId = some ⟨spec, some pid⟩ →
    ∃ r, a.clientRef clientId = some r ∧ a.Fit clientId r ∧ a.owner r = some pid ∧ NamesRef r spec
  crashed : ∀ clientId ∈ a.crashed, ∃ spec, a.clients.children clientId = some ⟨spec, none⟩ ∧
    Brings (a.Fit clientId) spec

theorem inv_start : Inv .start where
  client _ := ⟨sound_start, ⟨.idle, speaks_start, iff_of_true rfl rfl⟩, fun _ h => by cases h⟩
  unused _ _ := ⟨rfl, rfl, rfl⟩
  running _ _ _ h := by cases h
  crashed _ h := by cases h

variable {a : App} {clientId : String} {spec : ChildSpec} {r : ℕ}

/-- A client is available for the id that holds it. -/
theorem Inv.available (h : Inv a) (hfit : a.Fit clientId r) : a.Available clientId r := by
  refine ⟨?_, fun other hother => Option.some.inj (hother.symm.trans hfit.holder), hfit.usable⟩
  by_contra hle
  have hheld := hfit.holder
  rw [(h.unused r (not_lt.1 hle)).2.1] at hheld
  cases hheld

theorem Inv.healthy (h : Inv a) : a.Healthy := by
  have hrunning : ∀ clientId pid, a.clients.pidOf clientId = some pid →
      ∃ r, a.clientRef clientId = some r ∧ a.Fit clientId r ∧ a.owner r = some pid := by
    intro clientId pid hpid
    obtain ⟨⟨spec, pid'⟩, hchild, rfl⟩ := Option.bind_eq_some_iff.1 hpid
    obtain ⟨r, hr, hfit, howner, -⟩ := h.running clientId spec pid hchild
    exact ⟨r, hr, hfit, howner⟩
  refine ⟨fun r => (h.client r).sound.allOwned, fun clientId pid hpid => ?_,
    fun clientId other hid hother heq => ?_⟩
  · obtain ⟨r, hr, hfit, howner⟩ := hrunning clientId pid hpid
    obtain ⟨i, hi, hclosed⟩ := hfit.usable
    exact ⟨r, i, hr, hi, ((h.client r).sound.res i hi).running hclosed, hclosed, howner⟩
  · obtain ⟨pid, hpid⟩ := Option.isSome_iff_exists.1 hid
    obtain ⟨pid', hpid'⟩ := Option.isSome_iff_exists.1 hother
    obtain ⟨r, hr, hfit, -⟩ := hrunning clientId pid hpid
    obtain ⟨r', hr', hfit', -⟩ := hrunning other pid' hpid'
    obtain rfl : r = r' := by rw [hr, hr'] at heq; exact Option.some.inj heq
    exact Option.some.inj (hfit.holder.symm.trans hfit'.holder)

/-- The calls of a thread are events of the application. -/
theorem run_thread (lib : Librdkafka κ τ) (a : App) (r n k : ℕ) {l : Life}
    (hl : run (Life.step lib) (a.lives r) (List.replicate k (.thread n)) = some l) :
    run (App.step lib) a (List.replicate k (.native r (.thread n))) = some (a.setLife r l) := by
  induction k generalizing a with
  | zero =>
    obtain rfl := Option.some.inj hl
    simp [App.setLife]
  | succ k ih =>
    rw [List.replicate_succ, run_cons] at hl
    obtain ⟨l', hl', hrest⟩ := Option.bind_eq_some_iff.1 hl
    have hnative : a.Native r (.thread n) := trivial
    have hstep : App.step lib a (.native r (.thread n)) = some (a.setLife r l') := by
      simp only [App.step, if_pos hnative, hl', Option.map_some]
    rw [List.replicate_succ, run_cons, hstep, Option.bind_some, ih (a.setLife r l')]
    · simp [App.setLife]
    · rwa [lives_setLife_self]

theorem Inv.answered (h : Inv a) (lib : Librdkafka κ τ) : a.Answered lib := by
  refine ⟨fun r => ?_, fun r pid hpid => (h.client r).owner pid hpid, fun r hr => ?_⟩
  · obtain ⟨t, hspeaks, hidle⟩ := (h.client r).speaks
    exact ⟨t, hspeaks.run, hidle⟩
  · obtain ⟨t, hspeaks, hidle⟩ := (h.client r).speaks
    have hne : t ≠ .idle := by
      rintro rfl
      rw [hidle.1 rfl] at hr
      cases hr
    cases hres : (a.lives r).res with
    | none =>
      -- the client has been freed, after its thread
      cases t with
      | idle => exact absurd rfl hne
      | asked n => exact absurd rfl (hspeaks.freed hres n)
      | told n => exact ⟨n, 0, a, by omega, rfl, hspeaks.run⟩
    | some i =>
      cases hfuture : i.closedFuture with
      | none => exact absurd (by rw [hspeaks.talk i hres, Resource.talk, hfuture]) hne
      | some n =>
        have hsound := (h.client r).sound
        obtain ⟨l, hrun, htold⟩ := hspeaks.exists_told lib hsound hres hfuture
        refine ⟨n, _, _, (hsound.res i hres).length_thread hfuture, run_thread lib a r n _ hrun, ?_⟩
        rw [said, lives_setLife_self]
        exact htold.run

/-! ## One native client -/

/-- Only the native client `r` has gone on, or has been created. -/
structure Touches (a a' : App) (r : ℕ) : Prop where
  lives : ∀ r' ≠ r, a'.lives r' = a.lives r'
  owner : ∀ r' ≠ r, a'.owner r' = a.owner r'
  holder : a'.holder = a.holder
  children : a'.clients.children = a.clients.children
  clientRef : a'.clientRef = a.clientRef
  crashed : a'.crashed = a.crashed
  nextRef : a.nextRef ≤ a'.nextRef
  cleanedBy : a'.cleanedBy = a.cleanedBy
  client : Client (a'.lives r) (a'.owner r) (a'.cleanedBy r)
  created : r < a'.nextRef

/-- Whoever holds a client that has gone on can go on using it, and it still tells its process. -/
theorem Inv.touches {a' : App} (h : Inv a) (ht : Touches a a' r)
    (husable : ∀ clientId, a.Fit clientId r →
      ∃ i, (a'.lives r).res = some i ∧ i.closedFuture = none)
    (howner : ∀ clientId spec pid, a.clients.children clientId = some ⟨spec, some pid⟩ →
      a.Fit clientId r → a'.owner r = a.owner r) : Inv a' := by
  have hfit : ∀ {clientId r'}, a.Fit clientId r' → a'.Fit clientId r' := by
    intro clientId r' hr'
    refine ⟨by rw [ht.holder]; exact hr'.holder, ?_⟩
    by_cases hne : r' = r
    · subst hne
      exact husable clientId hr'
    · rw [ht.lives r' hne]
      exact hr'.usable
  refine ⟨fun r' => ?_, fun r' hr' => ?_, fun clientId spec pid hchild => ?_,
    fun clientId hid => ?_⟩
  · by_cases hne : r' = r
    · rw [hne]
      exact ht.client
    · rw [ht.lives r' hne, ht.owner r' hne, ht.cleanedBy]
      exact h.client r'
  · have hne : r' ≠ r := fun heq => absurd ht.created (by omega)
    rw [ht.lives r' hne, ht.holder, ht.cleanedBy]
    exact h.unused r' (ht.nextRef.trans hr')
  · rw [ht.children] at hchild
    obtain ⟨r', hr', hf, how, hnames⟩ := h.running clientId spec pid hchild
    refine ⟨r', by rw [ht.clientRef, hr'], hfit hf, ?_, hnames⟩
    by_cases hne : r' = r
    · subst hne
      rw [howner clientId spec pid hchild hf, how]
    · rw [ht.owner r' hne, how]
  · rw [ht.crashed] at hid
    obtain ⟨spec, hchild, hready⟩ := h.crashed clientId hid
    exact ⟨spec, by rw [ht.children, hchild], hready.imp fun _ hf => hfit hf⟩

theorem touches_setLife {l : Life} (hl : Client l (a.owner r) (a.cleanedBy r))
    (hr : r < a.nextRef) :
    Touches a (a.setLife r l) r where
  lives r' hne := lives_setLife_of_ne a l hne
  owner _ _ := rfl
  holder := rfl
  children := rfl
  clientRef := rfl
  crashed := rfl
  nextRef := le_rfl
  cleanedBy := rfl
  client := by rwa [lives_setLife_self]
  created := hr

/-! ## The child of one id -/

/-- Only the child of an id has changed, and the native clients that no other id holds. -/
structure Elsewhere (a a' : App) (clientId : String) : Prop where
  client : ∀ r, Client (a'.lives r) (a'.owner r) (a'.cleanedBy r)
  unused : ∀ r, a.nextRef ≤ r →
    (a'.lives r).res = none ∧ a'.holder r = none ∧ a'.cleanedBy r = none
  lives : ∀ r, ∀ other ≠ clientId, a.holder r = some other → a'.lives r = a.lives r
  holder : ∀ r, ∀ other ≠ clientId, a.holder r = some other → a'.holder r = some other
  children : ∀ other ≠ clientId, a'.clients.children other = a.clients.children other
  clientRef : ∀ other ≠ clientId, a'.clientRef other = a.clientRef other
  crashed : ∀ other ≠ clientId, other ∈ a'.crashed → other ∈ a.crashed
  owner : a'.owner = a.owner
  nextRef : a'.nextRef = a.nextRef

theorem Inv.elsewhere {a' : App} (h : Inv a) (he : Elsewhere a a' clientId)
    (hrunning : ∀ spec pid, a'.clients.children clientId = some ⟨spec, some pid⟩ →
      ∃ r, a'.clientRef clientId = some r ∧ a'.Fit clientId r ∧ a'.owner r = some pid ∧
        NamesRef r spec)
    (hcrashed : clientId ∈ a'.crashed → ∃ spec,
      a'.clients.children clientId = some ⟨spec, none⟩ ∧ Brings (a'.Fit clientId) spec) :
    Inv a' := by
  have hfit : ∀ {other r}, other ≠ clientId → a.Fit other r → a'.Fit other r := by
    intro other r hne hr
    refine ⟨he.holder r other hne hr.holder, ?_⟩
    rw [he.lives r other hne hr.holder]
    exact hr.usable
  refine ⟨he.client, fun r hr => he.unused r (he.nextRef ▸ hr), fun other spec pid hchild => ?_,
    fun other hid => ?_⟩
  · by_cases hne : other = clientId
    · subst hne
      exact hrunning spec pid hchild
    · rw [he.children other hne] at hchild
      obtain ⟨r, hr, hf, howner, hnames⟩ := h.running other spec pid hchild
      exact ⟨r, by rw [he.clientRef other hne, hr], hfit hne hf, by rw [he.owner, howner], hnames⟩
  · by_cases hne : other = clientId
    · subst hne
      exact hcrashed hid
    · obtain ⟨spec, hchild, hready⟩ := h.crashed other (he.crashed other hne hid)
      exact ⟨spec, by rw [he.children other hne, hchild], hready.imp fun _ hf => hfit hne hf⟩

/-- A process that has been launched runs. -/
theorem Inv.runs (h : Inv a) {p : ℕ × ℕ} (hp : Launched a clientId spec p) :
    Inv (a.runs clientId spec p) := by
  have hholder : ∀ r ≠ p.2, (a.runs clientId spec p).holder r = a.holder r := fun r hne =>
    Function.update_of_ne hne ..
  have hcreated := hp.available.created
  have he : Elsewhere a (a.runs clientId spec p) clientId := {
    client := h.client
    unused := fun r hr => by
      rw [hholder r (by omega)]
      exact h.unused r hr
    lives := fun _ _ _ _ => rfl
    holder := fun r other hne hr => by
      rw [hholder r fun heq => hne (hp.available.alone other (heq ▸ hr)), hr]
    children := fun other hne => Clients.children_setChild_of_ne _ _ hne
    clientRef := fun other hne => Function.update_of_ne hne ..
    crashed := fun other _ hmem => (List.mem_filter.1 hmem).1
    owner := rfl
    nextRef := rfl }
  refine h.elsewhere he (fun spec' pid hchild => ?_) fun hmem => ?_
  · have hself : (a.runs clientId spec p).clients.children clientId = some ⟨spec, some p.1⟩ :=
      Clients.children_setChild_self ..
    rw [hself] at hchild
    cases hchild
    have hfit : (a.runs clientId spec p).Fit clientId p.2 :=
      ⟨Function.update_self .., hp.available.usable⟩
    exact ⟨p.2, Function.update_self .., hfit, hp.owner, hp.names⟩
  · simp [App.runs] at hmem

/-! ## Starts -/

/-- The client that a function of the library creates. -/
def Creates (new : NewReplies → NewResult × List Owned.Call) : Prop :=
  ∀ replies, ∃ isConsumer b, new replies = Scoped.finish b ∧
    Scoped.Meets Owned.Call.step Ownership.empty [] b (Leaves isConsumer) ∧
    ∀ c ∈ (Scoped.finish b).2, Silent c

theorem creates_producer (lib : Librdkafka κ τ) (hasDrCallback config : Term) :
    Creates (enifProducerNew lib hasDrCallback config) :=
  fun replies => ⟨false, _, rfl, producerNew_meets lib hasDrCallback config replies,
    silent_enifProducerNew lib hasDrCallback config replies⟩

theorem creates_consumer (lib : Librdkafka κ τ) (args : ConsumerArgs) :
    Creates (enifConsumerNew lib args) :=
  fun replies => ⟨true, _, rfl, consumerNew_meets lib args replies,
    silent_enifConsumerNew lib args replies⟩

/-- A client is created under a new number, and can be used. -/
theorem Inv.create (h : Inv a) {new : NewReplies → NewResult × List Owned.Call} (hnew : Creates new)
    {replies : NewReplies} {a' : App} {x : Option ℕ} (heq : a.create new replies = (a', x)) :
    Inv a' ∧ Touches a a' a.nextRef ∧ ∀ r ∈ x, r = a.nextRef ∧ a'.holder r = none ∧
      ∃ i, (a'.lives r).res = some i ∧ i.closedFuture = none := by
  obtain rfl : (a.create new replies).1 = a' := congrArg Prod.fst heq
  obtain rfl : (a.create new replies).2 = x := congrArg Prod.snd heq
  obtain ⟨isConsumer, b, hb, hmeets, hsilent⟩ := hnew { replies with ref := a.nextRef }
  obtain ⟨hres, hholder, hcleaned⟩ := h.unused a.nextRef le_rfl
  have hclient := h.client a.nextRef
  rw [hcleaned] at hclient
  have hnew := hclient.create hres hmeets hsilent
  rw [← hb, ← hcleaned] at hnew
  have ht : Touches a (a.create new replies).1 a.nextRef := {
    lives := fun r' hne => lives_setLife_of_ne a _ hne
    owner := fun _ _ => rfl
    holder := rfl
    children := rfl
    clientRef := rfl
    crashed := rfl
    nextRef := Nat.le_succ _
    cleanedBy := rfl
    client := (lives_setLife_self a a.nextRef _).symm ▸ hnew
    created := Nat.lt_succ_self _ }
  refine ⟨h.touches ht (fun clientId hfit => ?_) fun _ _ _ _ _ => rfl, ht, fun r hr => ?_⟩
  · have hheld := hfit.holder
    rw [hholder] at hheld
    cases hheld
  · obtain ⟨i, hi, rfl⟩ := Option.map_eq_some_iff.1 hr
    refine ⟨rfl, hholder, i, ?_, ?_⟩
    · exact (congrArg Life.res (lives_setLife_self a a.nextRef _)).trans hi
    · obtain ⟨_, _, _, hleaves⟩ := hmeets.finish
      rw [← hb] at hleaves
      rw [hleaves i hi]
      rfl

theorem startLink_spec (c : Clients) (clientId : String) (env : Env) (spec : ChildSpec) :
    (ClientSupervisor.startLink c clientId env spec).1.children = c.children ∧
      ∀ pid ∈ (ClientSupervisor.startLink c clientId env spec).2, pid = c.nextPid := by
  by_cases hstarts : spec.Starts env
  · rw [startLink_of_starts hstarts]
    exact ⟨rfl, fun pid hpid => (Option.some.inj hpid).symm⟩
  · rcases startLink_of_not_starts hstarts c clientId with hlink | hlink <;> rw [hlink] <;>
      exact ⟨rfl, fun pid hpid => by cases hpid⟩

/-- No process that runs has the native client. -/
def Idle (a : App) (r : ℕ) : Prop :=
  ∀ clientId spec pid, a.clients.children clientId = some ⟨spec, some pid⟩ → ¬ a.Fit clientId r

theorem idle_of_none (h : a.holder r = none) : a.Idle r := by
  intro clientId spec pid _ hfit
  have hheld := hfit.holder
  rw [h] at hheld
  cases hheld

theorem touches_link (h : Inv a) {env : Env} (hr : a.Available clientId r) :
    Touches a (a.link clientId spec env r).1 r where
  lives _ _ := rfl
  owner _ hne := Function.update_of_ne hne ..
  holder := rfl
  children := (startLink_spec a.clients clientId env spec).1
  clientRef := rfl
  crashed := rfl
  nextRef := le_rfl
  cleanedBy := rfl
  client := by
    obtain ⟨i, hi, hclosed⟩ := hr.usable
    exact (h.client r).setOwner hi hclosed _
  created := hr.created

theorem Inv.spawn (h : Inv a) (hr : r < a.nextRef) :
    Inv { a with clients := a.clients.spawn } := by
  have ht : Touches a { a with clients := a.clients.spawn } r :=
    ⟨fun _ _ => rfl, fun _ _ => rfl, rfl, rfl, rfl, rfl, le_rfl, rfl, h.client r, hr⟩
  exact h.touches ht (fun _ hfit => hfit.usable) fun _ _ _ _ _ => rfl

theorem Inv.link (h : Inv a) {env : Env} (hr : a.Available clientId r) (hidle : a.Idle r) :
    Inv (a.link clientId spec env r).1 :=
  h.touches (touches_link h hr) (fun _ hfit => hfit.usable) fun other spec' pid hchild hfit =>
    absurd hfit (hidle other spec' pid hchild)

theorem launched_link {env : Env} (h : a.Available clientId r) (hnames : NamesRef r spec) :
    ∀ p ∈ (a.link clientId spec env r).2,
      Launched (a.link clientId spec env r).1 clientId spec p := by
  intro p hp
  obtain ⟨pid, hpid, rfl⟩ := Option.map_eq_some_iff.1 hp
  obtain rfl := (startLink_spec a.clients clientId env spec).2 pid hpid
  exact ⟨⟨h.created, h.alone, h.usable⟩, Function.update_self .., hnames⟩

/-- `start_link` keeps the invariant, and launches a process with a client of its own. -/
theorem Inv.startLink (h : Inv a) (lib : Librdkafka κ τ) (m : Meets)
    (hbrings : Brings (a.Available clientId) spec)
    (hdown : ∀ spec' pid, a.clients.children clientId ≠ some ⟨spec', some pid⟩) :
    Inv (a.startLink lib clientId spec m).1 ∧
      (a.startLink lib clientId spec m).1.clients.children = a.clients.children ∧
      ∀ p ∈ (a.startLink lib clientId spec m).2,
        Launched (a.startLink lib clientId spec m).1 clientId spec p := by
  cases spec with
  | producer drCallback config producerRef =>
    obtain ⟨r, rfl, hr⟩ := hbrings
    have hidle : a.Idle r := by
      intro other spec' pid hchild hfit
      obtain rfl := hr.alone other hfit.holder
      exact hdown spec' pid hchild
    simp only [App.startLink, getResource]
    exact ⟨h.link hr hidle, (touches_link h hr).children, launched_link hr rfl⟩
  | consumerGroup topics config =>
    simp only [App.startLink]
    split
    · next a' heq =>
      obtain ⟨hcreate, ht, -⟩ := h.create (creates_consumer lib m.args) heq
      exact ⟨hcreate.spawn ht.created, ht.children, fun p hp => by cases hp⟩
    · next a' r heq =>
      obtain ⟨hcreate, ht, hnew⟩ := h.create (creates_consumer lib m.args) heq
      obtain ⟨rfl, hholder, husable⟩ := hnew r rfl
      have hr : a'.Available clientId a.nextRef := available_of_none ht.created hholder husable
      exact ⟨hcreate.link hr (idle_of_none hholder),
        (touches_link hcreate hr).children.trans ht.children, launched_link hr trivial⟩

/-- `add_client` -/
theorem Inv.addClient (h : Inv a) (lib : Librdkafka κ τ) (m : Meets)
    (hbrings : Brings (a.Available clientId) spec) : Inv (a.addClient lib clientId spec m) := by
  unfold App.addClient
  split
  · exact h
  · next hchild =>
    have hlink := h.startLink lib m hbrings fun spec' pid hrun => by
      rw [hchild] at hrun
      cases hrun
    split
    · next a' p heq =>
      rw [heq] at hlink
      exact hlink.1.runs (hlink.2.2 p rfl)
    · next a' heq =>
      rw [heq] at hlink
      exact hlink.1

theorem Inv.createProducer (h : Inv a) (lib : Librdkafka κ τ) (config : Term) (m : Meets) :
    Inv (a.createProducer lib clientId config m) := by
  unfold App.createProducer
  split
  · exact h
  · split
    · exact h
    · split
      · next a' heq => exact (h.create (creates_producer lib _ _) heq).1
      · next a' r heq =>
        obtain ⟨hcreate, ht, hnew⟩ := h.create (creates_producer lib _ _) heq
        obtain ⟨rfl, hholder, husable⟩ := hnew r rfl
        exact hcreate.addClient lib m ⟨_, rfl, available_of_none ht.created hholder husable⟩

theorem Inv.createConsumerGroup (h : Inv a) (lib : Librdkafka κ τ)
    (topics clientConfig defaultTopicsConfig : Term) (m : Meets) :
    Inv (a.createConsumerGroup lib clientId topics clientConfig defaultTopicsConfig m) := by
  unfold App.createConsumerGroup
  split
  · exact h.addClient lib m trivial
  · exact h

/-! ## Ends -/

/-- A process cleans up its client, which has not been cleaned up. -/
theorem Inv.cleanup (h : Inv a) {pid : ℕ}
    (husable : ∃ i, (a.lives r).res = some i ∧ i.closedFuture = none)
    (howner : a.owner r = some pid) (r' : ℕ) :
    Client (a.cleanup r r') (a.owner r') (Function.update a.cleanedBy r (some pid) r') := by
  obtain ⟨i, hi, hclosed⟩ := husable
  simp only [App.cleanup, hi]
  by_cases hne : r' = r
  · have hclient := h.client r
    rw [howner] at hclient
    rw [hne, Function.update_self, Function.update_self, howner]
    exact hclient.cleanup hi hclosed
  · rw [Function.update_of_ne hne, Function.update_of_ne hne]
    exact h.client r'

/-- A cleanup works on one client. -/
theorem cleanup_of_ne (a : App) {r' : ℕ} (hne : r' ≠ r) : a.cleanup r r' = a.lives r' := by
  cases hres : (a.lives r).res with
  | none => simp only [App.cleanup, hres]
  | some i => simp only [App.cleanup, hres, Function.update_of_ne hne]

theorem lives_ends_of_ne {pid : ℕ} {reason : ExitReason} {r' : ℕ} (hne : r' ≠ r) :
    (a.ends clientId spec pid r reason).lives r' = a.lives r' := by
  show (if cleansUp spec reason then a.cleanup r else a.lives) r' = _
  split
  · exact cleanup_of_ne a hne
  · rfl

theorem cleanedBy_ends_of_ne {pid : ℕ} {reason : ExitReason} {r' : ℕ} (hne : r' ≠ r) :
    (a.ends clientId spec pid r reason).cleanedBy r' = a.cleanedBy r' := by
  show (if cleansUp spec reason then Function.update a.cleanedBy r (some pid)
    else a.cleanedBy) r' = _
  split
  · exact Function.update_of_ne hne ..
  · rfl

theorem holder_ends_of_ne {pid : ℕ} {reason : ExitReason} {r' : ℕ} (hne : r' ≠ r) :
    (a.ends clientId spec pid r reason).holder r' = a.holder r' := by
  show (if keepsRef spec then a.holder else Function.update a.holder r none) r' = _
  split
  · rfl
  · exact Function.update_of_ne hne ..

/-- A child that is to be restarted still has the client it brings. -/
theorem brings_ends {pid : ℕ} {reason : ExitReason} (hreason : restarts spec reason = true)
    (hfit : a.Fit clientId r) (hnames : NamesRef r spec) :
    Brings ((a.ends clientId spec pid r reason).Fit clientId) spec := by
  cases spec with
  | producer drCallback config producerRef =>
    refine ⟨r, hnames, hfit.holder, ?_⟩
    have hkept : cleansUp (.producer drCallback config producerRef) reason = false := by
      cases reason <;> first | rfl | cases hreason
    simp only [App.ends, hkept, Bool.false_eq_true, if_false]
    exact hfit.usable
  | consumerGroup => trivial

theorem Inv.ends (h : Inv a) {pid : ℕ}
    (hchild : a.clients.children clientId = some ⟨spec, some pid⟩)
    (hr : a.clientRef clientId = some r) (reason : ExitReason) :
    Inv (a.ends clientId spec pid r reason) := by
  obtain ⟨r', hr', hfit, howner, hnames⟩ := h.running clientId spec pid hchild
  obtain rfl : r = r' := Option.some.inj (hr.symm.trans hr')
  have hcreated := (h.available hfit).created
  have hheld : ∀ r', ∀ other ≠ clientId, a.holder r' = some other → r' ≠ r := by
    rintro r' other hne hother rfl
    exact hne (Option.some.inj (hother.symm.trans hfit.holder))
  have he : Elsewhere a (a.ends clientId spec pid r reason) clientId := {
    client := fun r' => by
      show Client ((if cleansUp spec reason then a.cleanup r else a.lives) r') (a.owner r')
        ((if cleansUp spec reason then Function.update a.cleanedBy r (some pid)
          else a.cleanedBy) r')
      split
      · exact h.cleanup hfit.usable howner r'
      · exact h.client r'
    unused := fun r' hr' => by
      have hne : r' ≠ r := by omega
      rw [lives_ends_of_ne hne, holder_ends_of_ne hne, cleanedBy_ends_of_ne hne]
      exact h.unused r' hr'
    lives := fun r' other hne hother => lives_ends_of_ne (hheld r' other hne hother)
    holder := fun r' other hne hother => by
      rw [holder_ends_of_ne (hheld r' other hne hother), hother]
    children := fun other hne => Clients.children_setChild_of_ne _ _ hne
    clientRef := fun _ _ => rfl
    crashed := fun other hne hmem => by
      have hmem : other ∈ if restarts spec reason then clientId :: a.crashed else a.crashed := hmem
      split at hmem
      · exact (List.mem_cons.1 hmem).resolve_left hne
      · exact hmem
    owner := rfl
    nextRef := rfl }
  have hself : (a.ends clientId spec pid r reason).clients.children clientId = some ⟨spec, none⟩ :=
    Clients.children_setChild_self ..
  refine h.elsewhere he (fun spec' pid' hrun => ?_) fun hmem => ⟨spec, hself, ?_⟩
  · rw [hself] at hrun
    cases hrun
  · refine brings_ends ?_ hfit hnames
    by_contra hreason
    have hmem : clientId ∈ if restarts spec reason then clientId :: a.crashed else a.crashed := hmem
    rw [if_neg hreason] at hmem
    -- a child that runs was not waiting for its restart
    obtain ⟨spec', hdown, -⟩ := h.crashed clientId hmem
    rw [hchild] at hdown
    cases hdown

theorem Inv.delete (h : Inv a) : Inv (a.delete clientId) := by
  have he : Elsewhere a (a.delete clientId) clientId := {
    client := h.client
    unused := fun r hr => by
      obtain ⟨hres, hholder, hcleaned⟩ := h.unused r hr
      exact ⟨hres, by simp [App.delete, hholder], hcleaned⟩
    lives := fun _ _ _ _ => rfl
    holder := fun r other hne hr => by simp [App.delete, hr, hne]
    children := fun other hne => Clients.children_setChild_of_ne _ _ hne
    clientRef := fun _ _ => rfl
    crashed := fun other _ hmem => (List.mem_filter.1 hmem).1
    owner := rfl
    nextRef := rfl }
  have hself : (a.delete clientId).clients.children clientId = none :=
    Clients.children_setChild_self ..
  refine h.elsewhere he (fun spec pid hchild => ?_) fun hmem => ?_
  · rw [hself] at hchild
    cases hchild
  · simp [App.delete] at hmem

theorem Inv.restarted (h : Inv a) : Inv a.restarted where
  client := h.client
  unused r hr := ⟨(h.unused r hr).1, rfl, (h.unused r hr).2.2⟩
  running _ _ _ hchild := by cases hchild
  crashed _ hmem := by cases hmem

/-! ## Native events -/

/-- A native event leaves a client that is held, and has not been cleaned up, as usable as it was.
-/
theorem usable_native (lib : Librdkafka κ τ) {e : LifeEvent} {l : Life} {i : Resource}
    (hres : (a.lives r).res = some i) (hheld : a.holder r ≠ none) (hnative : a.Native r e)
    (hl : (a.lives r).step lib e = some l) :
    ∃ i', l.res = some i' ∧ i'.closedFuture = i.closedFuture := by
  cases e with
  | producerNew | consumerNew | cleanup => exact hnative.elim
  | copy =>
    simp only [Life.step, hres, Option.map_some] at hl
    obtain rfl := Option.some.inj hl
    exact ⟨_, rfl, rfl⟩
  | drop =>
    have hrefs : i.refs ≠ 1 := (hnative.resolve_left hheld) i hres
    simp only [Life.step, hres, Option.map_some, if_neg hrefs] at hl
    obtain rfl := Option.some.inj hl
    exact ⟨_, rfl, rfl⟩
  | topicNew clientRef topicName config succeeds =>
    simp only [Life.step, hres, Option.bind_some] at hl
    split at hl
    · cases hl
    · obtain rfl := Option.some.inj hl
      exact ⟨_, rfl, rfl⟩
  | getOrCreateTopic name succeeds =>
    simp only [Life.step, hres, Option.bind_some] at hl
    split at hl
    · cases hl
    · obtain rfl := Option.some.inj hl
      exact ⟨_, rfl, rfl⟩
  | thread n =>
    simp only [Life.step, hres, Option.bind_some] at hl
    split at hl
    · cases hl
    · obtain rfl := Option.some.inj hl
      exact ⟨_, rfl, rfl⟩

/-- Without a client there is nothing to go on. -/
theorem native_none (lib : Librdkafka κ τ) {e : LifeEvent} {l : Life}
    (hres : (a.lives r).res = none) (hnative : a.Native r e) : (a.lives r).step lib e ≠ some l := by
  intro hl
  cases e with
  | producerNew | consumerNew | cleanup => exact hnative
  | _ =>
    simp only [Life.step, hres] at hl
    cases hl

theorem Inv.native (h : Inv a) (lib : Librdkafka κ τ) {e : LifeEvent} {l : Life}
    (hnative : a.Native r e) (hl : (a.lives r).step lib e = some l) : Inv (a.setLife r l) := by
  cases hres : (a.lives r).res with
  | none => exact absurd hl (native_none lib hres hnative)
  | some i =>
    have hcreated : r < a.nextRef := by
      by_contra hle
      rw [(h.unused r (not_lt.1 hle)).1] at hres
      cases hres
    have he : e ≠ .cleanup := by
      rintro rfl
      exact hnative
    refine h.touches (touches_setLife ((h.client r).step lib hres he hl) hcreated)
      (fun id hfit => ?_) fun _ _ _ _ _ => rfl
    obtain ⟨i, hi, hclosed⟩ := hfit.usable
    obtain ⟨i', hi', hclosed'⟩ := usable_native lib hi (by simp [hfit.holder]) hnative hl
    rw [lives_setLife_self]
    exact ⟨i', hi', hclosed'.trans hclosed⟩

/-! ## Runs -/

/-- **One event.** -/
theorem Inv.step (h : Inv a) (lib : Librdkafka κ τ) {e : AppEvent} {a' : App}
    (hstep : a.step lib e = some a') : Inv a' := by
  cases e with
  | createProducer clientId config m =>
    obtain rfl := Option.some.inj hstep
    exact h.createProducer lib config m
  | createConsumerGroup clientId topics clientConfig defaultTopicsConfig m =>
    obtain rfl := Option.some.inj hstep
    exact h.createConsumerGroup lib topics clientConfig defaultTopicsConfig m
  | exits clientId reason =>
    simp only [App.step] at hstep
    split at hstep
    · next spec pid r hchild hr =>
      obtain rfl := Option.some.inj hstep
      exact h.ends hchild hr reason
    · cases hstep
  | restart clientId m =>
    simp only [App.step] at hstep
    split at hstep
    · next spec hchild =>
      split at hstep
      · next hcrashed =>
        obtain ⟨spec', hchild', hbrings⟩ := h.crashed clientId hcrashed
        rw [hchild] at hchild'
        cases hchild'
        have hlink := h.startLink lib m (hbrings.imp fun r hfit => h.available hfit)
          (fun spec' pid hrun => by rw [hchild] at hrun; cases hrun)
        split at hstep
        · next a' p heq =>
          rw [heq] at hlink
          obtain rfl := Option.some.inj hstep
          exact hlink.1.runs (hlink.2.2 p rfl)
        · next a' heq =>
          rw [heq] at hlink
          obtain rfl := Option.some.inj hstep
          exact hlink.1
      · cases hstep
    · cases hstep
  | delete clientId =>
    simp only [App.step] at hstep
    split at hstep
    · obtain rfl := Option.some.inj hstep
      exact h.delete
    · cases hstep
  | restarted =>
    obtain rfl := Option.some.inj hstep
    exact h.restarted
  | native r e =>
    simp only [App.step] at hstep
    split at hstep
    · next hnative =>
      obtain ⟨l, hl, rfl⟩ := Option.map_eq_some_iff.1 hstep
      exact h.native lib hnative hl
    · cases hstep

end App

/-- **The native side of the application.** In every run of starts, ends, crashes, restarts and
deletions, with whatever arguments and answers, and in any interleaving with the references, the
topics and the cleanups of the native clients. -/
theorem healthy_of_run (lib : Librdkafka κ τ) {es : List AppEvent} {a : App}
    (hrun : run (App.step lib) .start es = some a) : a.Healthy :=
  (run_invariant (fun _ _ _ h hstep => h.step lib hstep) App.inv_start hrun).healthy

/-- A producer crashes, and is restarted with its client at the second attempt. A consumer group is
killed while it waits for its client to stop, and its restart makes a second one; the thread of the
first cleanup goes on, and its last reference ends. The producer is then shut down. -/
def sampleRun : List AppEvent :=
  let replies : NewReplies := ⟨true, true, .ok (), 0, 0⟩
  let args : ConsumerArgs := ⟨.binary [103], Term.ofList [.binary [116]], .nil, .nil⟩
  let meets : Meets := ⟨args, replies, some []⟩
  let topics := Term.ofList
    [.tuple [.binary [116], Term.ofList [.tuple [.atom "callback_module", .atom "m"]]]]
  [.createProducer "p" .nil meets, .createConsumerGroup "g" topics .nil .nil meets,
    .exits "p" .crash, .exits "g" .killedWaiting, .restart "p" { meets with localQueue := none },
    .native 1 (.thread 0), .restart "g" meets, .native 1 .drop, .restart "p" meets,
    .exits "p" .shutdown, .native 0 (.thread 0), .delete "p"]

theorem healthy_sampleRun : ∃ a, run (App.step sampleLibrary) .start sampleRun = some a ∧
    a.clientRef "g" = some 2 ∧ a.Healthy :=
  ⟨_, rfl, rfl, @healthy_of_run _ _ sampleLibrary sampleRun _ rfl⟩

/-- **No process waits in vain.** In every run, a process that has cleaned up its client is sent
`client_stopped` exactly once, whatever happens meanwhile, and the thread that sends it needs
nothing but itself. -/
theorem answered_of_run (lib : Librdkafka κ τ) {es : List AppEvent} {a : App}
    (hrun : run (App.step lib) .start es = some a) : a.Answered lib :=
  (run_invariant (fun _ _ _ h hstep => h.step lib hstep) App.inv_start hrun).answered lib

theorem answered_sampleRun : ∃ a, run (App.step sampleLibrary) .start sampleRun = some a ∧
    a.cleanedBy 0 = some 4 ∧ a.Answered sampleLibrary :=
  ⟨_, rfl, rfl, @answered_of_run _ _ sampleLibrary sampleRun _ rfl⟩

end Exrdkafka.NativeClients
