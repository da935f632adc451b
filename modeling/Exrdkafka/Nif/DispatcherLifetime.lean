import Exrdkafka.Nif.Lifetime

/-!
# The dispatcher polls only what it watches

The dispatcher keeps raw pointers, in its table and in its queue of signals, and other threads clean
up, free and destroy the instances at any time.

* `Inv`: the dispatcher watches only instances that are alive, and every thread that is to flush,
  close or destroy one of them has an erasure before that.
* `Lives`: a step of the system is a step of the life of each instance.
* `polledWhileWatched`: in every interleaving, the dispatcher polls an instance only between its
  insertion and its erasure, and never after its destruction.
-/

namespace Exrdkafka.Nif

open Machine QueueCallbacksDispatcher

/-! ## What the threads are to do -/

/-- The operation flushes, closes or destroys the client, or starts a thread that does. -/
def ClientOp.ends (c : ℕ) : ClientOp → Prop
  | .async c' | .flush c' | .close c' | .destroy c' | .clearKf c' => c' = c
  | _ => False

/-- Every operation that ends the client has an erasure of its instance before it. -/
def Guarded (c obj : ℕ) (ops : List ClientOp) : Prop :=
  ∀ pre op post, ops = pre ++ op :: post → op.ends c → .erase (some obj) ∈ pre

theorem guarded_of_not_ends {c obj : ℕ} {ops : List ClientOp} (h : ∀ op ∈ ops, ¬ op.ends c) :
    Guarded c obj ops := by
  intro pre op post hops hends
  exact absurd hends (h op (by simp [hops]))

theorem guarded_erase_cons (c obj : ℕ) (ops : List ClientOp) :
    Guarded c obj (.erase (some obj) :: ops) := by
  intro pre op post hops hends
  cases pre with
  | nil =>
    obtain ⟨rfl, -⟩ := List.cons.inj hops
    exact hends.elim
  | cons op' pre =>
    obtain ⟨rfl, -⟩ := List.cons.inj hops
    exact List.mem_cons_self

theorem Guarded.head {c obj : ℕ} {op : ClientOp} {ops : List ClientOp}
    (h : Guarded c obj (op :: ops)) : ¬ op.ends c := fun hends =>
  nomatch h [] op ops rfl hends

theorem Guarded.tail {c obj : ℕ} {op : ClientOp} {ops : List ClientOp}
    (h : Guarded c obj (op :: ops)) (hop : op ≠ .erase (some obj)) : Guarded c obj ops := by
  intro pre op' post hops hends
  rcases List.mem_cons.1 (h (op :: pre) op' post (by rw [hops]; rfl) hends) with heq | hmem
  · exact absurd heq.symm hop
  · exact hmem

theorem Guarded.cons {c obj : ℕ} {op : ClientOp} {ops : List ClientOp} (h : Guarded c obj ops)
    (hop : ¬ op.ends c) : Guarded c obj (op :: ops) := by
  intro pre op' post hops hends
  cases pre with
  | nil =>
    obtain ⟨rfl, -⟩ := List.cons.inj hops
    exact absurd hends hop
  | cons op'' pre =>
    obtain ⟨-, rfl⟩ := List.cons.inj hops
    exact List.mem_cons_of_mem _ (h pre op' post rfl hends)

/-! ## The invariant -/

/-- The kind with which the dispatcher watches an instance. -/
def System.kind (s : System) (obj : ℕ) : Option Bool :=
  (s.dispatcher.objects.lookup obj).map Item.isConsumer

/-- The instance of the client is alive, and no thread ends it without erasing it before. -/
structure Alive (s : System) (c : ℕ) (cl : Client) : Prop where
  client : s.clients c = some cl
  live : s.instances cl.obj = some c
  kf : cl.kf = true
  future : cl.closedFuture = none
  guarded : ∀ thread, Guarded c cl.obj (s.threads thread)

/-- The thread is about to have the instance of the client watched, and nothing ends it. -/
structure Pending (s : System) (thread c : ℕ) (cl : Client) : Prop where
  alive : Alive s c cl
  unwatched : s.kind cl.obj = none
  creator : cl.creator = thread
  ops : s.threads thread = watchOps c
  quiet : ∀ thread, ∀ op ∈ s.threads thread, ¬ op.ends c

/-- **The invariant.** -/
structure Inv (s : System) : Prop where
  /-- The dispatcher watches the instances of clients that are alive. -/
  watched : ∀ obj k, s.kind obj = some k → ∃ c cl, cl.obj = obj ∧ cl.isConsumer = k ∧ Alive s c cl
  pending : ∀ thread c, .insert c ∈ s.threads thread → ∃ cl, Pending s thread c cl
  known : ∀ thread, ∀ op ∈ s.threads thread, ∀ c, op.ends c → s.clients c ≠ none
  fresh : ∀ thread, s.nextThread ≤ thread → s.threads thread = []

theorem inv_start : Inv .start :=
  ⟨fun _ _ h => (nomatch h), fun _ _ h => (nomatch h), fun _ _ h => (nomatch h), fun _ _ => rfl⟩

/-- What the dispatcher watches is alive. -/
theorem Inv.kind_eq_none {s : System} (h : Inv s) {obj : ℕ} (habsent : s.instances obj = none) :
    s.kind obj = none := by
  by_contra hk
  obtain ⟨k, hk⟩ := Option.ne_none_iff_exists'.1 hk
  obtain ⟨c, cl, rfl, -, ha⟩ := h.watched obj k hk
  cases habsent.symm.trans ha.live

/-! ## What keeps the invariant -/

theorem Alive.keep {s t : System} {c : ℕ} {cl : Client} (h : Alive s c cl)
    (hclients : t.clients c = s.clients c) (hinstances : t.instances cl.obj = s.instances cl.obj)
    (hguarded : ∀ thread, Guarded c cl.obj (t.threads thread)) : Alive t c cl :=
  ⟨hclients.trans h.client, hinstances.trans h.live, h.kf, h.future, hguarded⟩

/-- A thread has other operations left, which have an erasure before they end the client. -/
theorem Alive.update {s t : System} {thread c : ℕ} {cl : Client} {ops : List ClientOp}
    (h : Alive s c cl) (hclients : t.clients c = s.clients c)
    (hinstances : t.instances cl.obj = s.instances cl.obj)
    (hthreads : t.threads = Function.update s.threads thread ops)
    (hops : Guarded c cl.obj ops) : Alive t c cl := by
  refine h.keep hclients hinstances ?_
  rw [hthreads]
  exact (Function.forall_update_iff _ _).2 ⟨hops, fun j _ => h.guarded j⟩

/-- Another thread has other operations left, which do not end the client. -/
theorem Pending.update {s t : System} {j thread c : ℕ} {cl : Client} {ops : List ClientOp}
    (h : Pending s j c cl) (hne : j ≠ thread) (hclients : t.clients c = s.clients c)
    (hinstances : t.instances cl.obj = s.instances cl.obj) (hkind : t.kind cl.obj = none)
    (hthreads : t.threads = Function.update s.threads thread ops)
    (hops : ∀ op ∈ ops, ¬ op.ends c) : Pending t j c cl := by
  refine ⟨h.alive.update hclients hinstances hthreads (guarded_of_not_ends hops), hkind,
    h.creator, ?_, ?_⟩
  · rw [hthreads, Function.update_of_ne hne]
    exact h.ops
  · rw [hthreads]
    exact (Function.forall_update_iff _ (fun _ ops => ∀ op ∈ ops, ¬ ClientOp.ends c op)).2
      ⟨hops, fun j _ => h.quiet j⟩

theorem mem_update {threads : ℕ → List ClientOp} {j thread : ℕ} {op : ClientOp}
    {ops : List ClientOp} (h : op ∈ Function.update threads thread ops j) :
    j = thread ∧ op ∈ ops ∨ j ≠ thread ∧ op ∈ threads j := by
  by_cases hj : j = thread
  · subst hj
    rw [Function.update_self] at h
    exact .inl ⟨rfl, h⟩
  · rw [Function.update_of_ne hj] at h
    exact .inr ⟨hj, h⟩

/-- The clients that the threads end are known when those of the new operations are. -/
theorem Inv.known_update {s t : System} {thread : ℕ} {ops : List ClientOp} (h : Inv s)
    (hthreads : t.threads = Function.update s.threads thread ops)
    (hknown : ∀ c, s.clients c ≠ none → t.clients c ≠ none)
    (hops : ∀ op ∈ ops, ∀ c, op.ends c → t.clients c ≠ none) :
    ∀ j, ∀ op ∈ t.threads j, ∀ c, op.ends c → t.clients c ≠ none := by
  rw [hthreads]
  intro j op hop c hends
  rcases mem_update hop with ⟨-, hop⟩ | ⟨-, hop⟩
  · exact hops op hop c hends
  · exact hknown c (h.known j op hop c hends)

theorem ne_none_update (clients : ℕ → Option Client) (c : ℕ) (cl : Client) :
    ∀ c', clients c' ≠ none → Function.update clients c (some cl) c' ≠ none :=
  (Function.forall_update_iff _ (fun c' o => clients c' ≠ none → o ≠ none)).2
    ⟨fun _ => Option.some_ne_none _, fun _ _ => id⟩

theorem Inv.lt_nextThread {s : System} (h : Inv s) {thread : ℕ} {op : ClientOp}
    {rest : List ClientOp} (hthread : s.threads thread = op :: rest) : thread < s.nextThread := by
  by_contra hle
  rw [h.fresh thread (Nat.le_of_not_lt hle)] at hthread
  cases hthread

theorem Inv.fresh_update {s t : System} {thread : ℕ} {ops : List ClientOp} (h : Inv s)
    (hthreads : t.threads = Function.update s.threads thread ops)
    (hnext : s.nextThread ≤ t.nextThread) (hlt : thread < t.nextThread) :
    ∀ j, t.nextThread ≤ j → t.threads j = [] := by
  intro j hj
  rw [hthreads, Function.update_of_ne (hlt.trans_le hj).ne']
  exact h.fresh j (hnext.trans hj)

/-- The table keeps its instances, and nothing else changes but the events and the history. -/
theorem Inv.frame {s t : System} (h : Inv s) (hkind : ∀ obj, t.kind obj = s.kind obj)
    (hinstances : t.instances = s.instances) (hclients : t.clients = s.clients)
    (hthreads : t.threads = s.threads) (hnext : t.nextThread = s.nextThread) : Inv t := by
  have halive {c : ℕ} {cl : Client} (ha : Alive s c cl) : Alive t c cl :=
    ha.keep (by rw [hclients]) (by rw [hinstances]) (by rw [hthreads]; exact ha.guarded)
  refine ⟨fun obj k hk => ?_, fun thread c hop => ?_, ?_, ?_⟩
  · rw [hkind] at hk
    obtain ⟨c, cl, hobj, hcl, ha⟩ := h.watched obj k hk
    exact ⟨c, cl, hobj, hcl, halive ha⟩
  · rw [hthreads] at hop
    obtain ⟨cl, hp⟩ := h.pending thread c hop
    refine ⟨cl, halive hp.alive, (hkind _).trans hp.unwatched, hp.creator, ?_, ?_⟩
    · rw [hthreads]
      exact hp.ops
    · rw [hthreads]
      exact hp.quiet
  · rw [hthreads, hclients]
    exact h.known
  · rw [hthreads, hnext]
    exact h.fresh

/-- A thread takes an operation that inserts nothing. What is still watched after it has not been
erased by it, and what is alive is touched only by an operation that ends it. -/
theorem Inv.advance {s t : System} {thread : ℕ} {op : ClientOp} {rest ops : List ClientOp}
    (h : Inv s) (hthread : s.threads thread = op :: rest) (hop : ∀ c, op ≠ .insert c)
    (hops : ops = rest ∨ ops = .enqueue none :: rest)
    (hkind : ∀ obj k, t.kind obj = some k → s.kind obj = some k ∧ op ≠ .erase (some obj))
    (hkeep : ∀ c cl, s.clients c = some cl → s.instances cl.obj = some c → ¬ op.ends c →
      t.clients c = s.clients c ∧ t.instances cl.obj = s.instances cl.obj)
    (hknown : ∀ c, s.clients c ≠ none → t.clients c ≠ none)
    (hthreads : t.threads = Function.update s.threads thread ops)
    (hnext : t.nextThread = s.nextThread) : Inv t := by
  have hmem {op' : ClientOp} (hop' : op' ∈ ops) : op' = .enqueue none ∨ op' ∈ s.threads thread := by
    rw [hthread]
    rcases hops with rfl | rfl
    · exact .inr (List.mem_cons_of_mem _ hop')
    · rcases List.mem_cons.1 hop' with rfl | hop'
      · exact .inl rfl
      · exact .inr (List.mem_cons_of_mem _ hop')
  have hguarded {c obj : ℕ} (hg : Guarded c obj (s.threads thread)) (hne : op ≠ .erase (some obj)) :
      Guarded c obj ops := by
    rw [hthread] at hg
    rcases hops with rfl | rfl
    · exact hg.tail hne
    · exact (hg.tail hne).cons id
  refine ⟨fun obj k hk => ?_, fun j c hj => ?_,
    h.known_update hthreads hknown fun op' hop' c hends => ?_,
    h.fresh_update hthreads hnext.ge (hnext ▸ h.lt_nextThread hthread)⟩
  · obtain ⟨hk, hne⟩ := hkind obj k hk
    obtain ⟨c, cl, rfl, hcl, ha⟩ := h.watched obj k hk
    have hg := ha.guarded thread
    have hends : ¬ op.ends c := by
      rw [hthread] at hg
      exact hg.head
    obtain ⟨hclients, hinstances⟩ := hkeep c cl ha.client ha.live hends
    exact ⟨c, cl, rfl, hcl, ha.update hclients hinstances hthreads (hguarded hg hne)⟩
  · rw [hthreads] at hj
    rcases mem_update hj with ⟨rfl, hnew⟩ | ⟨hne, hj⟩
    · -- an operation that is left would be the first one
      rcases hmem hnew with heq | hj
      · cases heq
      · obtain ⟨cl, hp⟩ := h.pending j c hj
        exact absurd (List.cons.inj (hthread.symm.trans hp.ops)).1 (hop c)
    · obtain ⟨cl, hp⟩ := h.pending j c hj
      have hends : ¬ op.ends c := hp.quiet thread op (by rw [hthread]; exact List.mem_cons_self)
      obtain ⟨hclients, hinstances⟩ := hkeep c cl hp.alive.client hp.alive.live hends
      have hunwatched : t.kind cl.obj = none := by
        by_contra hk
        obtain ⟨k, hk⟩ := Option.ne_none_iff_exists'.1 hk
        have hwatched := (hkind _ k hk).1
        rw [hp.unwatched] at hwatched
        cases hwatched
      refine ⟨cl, hp.update hne hclients hinstances hunwatched hthreads fun op' hop' => ?_⟩
      rcases hmem hop' with rfl | hop'
      · exact id
      · exact hp.quiet thread op' hop'
  · rcases hmem hop' with rfl | hop'
    · exact hends.elim
    · exact hknown c (h.known thread op' hop' c hends)

/-- A new thread, which inserts nothing and ends nothing that is alive without erasing it. -/
theorem Inv.spawn {s : System} (h : Inv s) {ops : List ClientOp}
    (hinsert : ∀ c, .insert c ∉ ops)
    (hguarded : ∀ c cl, Alive s c cl → Guarded c cl.obj ops)
    (hquiet : ∀ thread c cl, Pending s thread c cl → ∀ op ∈ ops, ¬ op.ends c)
    (hknown : ∀ op ∈ ops, ∀ c, op.ends c → s.clients c ≠ none) : Inv (s.spawn ops) := by
  have halive {c : ℕ} {cl : Client} (ha : Alive s c cl) : Alive (s.spawn ops) c cl :=
    ha.update rfl rfl rfl (hguarded c cl ha)
  refine ⟨fun obj k hk => ?_, fun j c hj => ?_, h.known_update rfl (fun _ => id) hknown,
    h.fresh_update rfl (Nat.le_succ _) (Nat.lt_succ_self _)⟩
  · obtain ⟨c, cl, hobj, hcl, ha⟩ := h.watched obj k hk
    exact ⟨c, cl, hobj, hcl, halive ha⟩
  · rcases mem_update hj with ⟨-, hj⟩ | ⟨hne, hj⟩
    · exact absurd hj (hinsert c)
    · obtain ⟨cl, hp⟩ := h.pending j c hj
      exact ⟨cl, hp.update hne rfl rfl hp.unwatched rfl (hquiet j c cl hp)⟩

/-- The operation inserts nothing and ends at most the client `c`. -/
def ClientOp.only (c : ℕ) (op : ClientOp) : Prop :=
  (∀ c', op ≠ .insert c') ∧ ∀ c', op.ends c' → c' = c

theorem only_cleanupOps (cl : Client) (c : ℕ) : ∀ op ∈ cl.cleanupOps c, op.only c := by
  simp [Client.cleanupOps, ClientOp.only, ClientOp.ends, eq_comm]

theorem only_asyncOps (cl : Client) (c : ℕ) : ∀ op ∈ cl.asyncOps c, op.only c := by
  unfold Client.asyncOps
  split_ifs <;>
    simp [cleanupConsumer, cleanupProducer, ClientOp.only, ClientOp.ends, eq_comm]

theorem only_freeOps (cl : Client) (c : ℕ) : ∀ op ∈ cl.freeOps c, op.only c := by
  unfold Client.freeOps Client.consumerFree Client.producerFree
  split_ifs <;> cases cl.closedFuture <;>
    simp [cleanupConsumer, cleanupProducer, ClientOp.only, ClientOp.ends, eq_comm]

/-- A new thread that works on one client. -/
theorem Inv.spawn_only {s : System} (h : Inv s) {c : ℕ} {ops : List ClientOp}
    (honly : ∀ op ∈ ops, op.only c) (hc : s.clients c ≠ none)
    (hguarded : ∀ cl, Alive s c cl → Guarded c cl.obj ops)
    (hpending : ∀ thread cl, ¬ Pending s thread c cl) : Inv (s.spawn ops) := by
  have hother {c' : ℕ} (hne : c' ≠ c) : ∀ op ∈ ops, ¬ op.ends c' :=
    fun op hop hends => hne ((honly op hop).2 c' hends)
  refine h.spawn (fun c' hop => (honly _ hop).1 c' rfl) (fun c' cl ha => ?_)
    (fun thread c' cl hp => ?_) (fun op hop c' hends => ?_)
  · by_cases heq : c' = c
    · subst heq
      exact hguarded cl ha
    · exact guarded_of_not_ends (hother heq)
  · refine hother ?_
    rintro rfl
    exact hpending thread cl hp
  · rwa [(honly op hop).2 c' hends]

/-- A client whose creation is over is not about to be watched. -/
theorem not_pending {s : System} {c : ℕ} {cl : Client} (hcl : s.clients c = some cl)
    (hover : s.threads cl.creator = []) (thread : ℕ) (cl' : Client) : ¬ Pending s thread c cl' := by
  intro hp
  obtain rfl := Option.some.inj (hcl.symm.trans hp.alive.client)
  have hops := hp.ops
  rw [← hp.creator, hover] at hops
  cases hops

theorem guarded_cleanupOps {s : System} {c : ℕ} {cl cl' : Client} (hcl : s.clients c = some cl)
    (ha : Alive s c cl') : Guarded c cl'.obj (cl.cleanupOps c) := by
  obtain rfl := Option.some.inj (hcl.symm.trans ha.client)
  rw [Client.cleanupOps, Client.pointer, if_pos ha.kf]
  exact guarded_erase_cons _ _ _

/-- The resource of a client that is alive has not been cleaned up, so that it is erased first. -/
theorem guarded_freeOps {s : System} {c : ℕ} {cl cl' : Client} (hcl : s.clients c = some cl)
    (ha : Alive s c cl') : Guarded c cl'.obj (cl.freeOps c) := by
  obtain rfl := Option.some.inj (hcl.symm.trans ha.client)
  have hfree : cl.freeOps c = .erase (some cl.obj) ::
      if cl.isConsumer then cleanupConsumer c else cleanupProducer c ++ [.destroy c] := by
    unfold Client.freeOps Client.consumerFree Client.producerFree Client.pointer
    rw [ha.future, ha.kf]
    cases cl.isConsumer <;> rfl
  rw [hfree]
  exact guarded_erase_cons _ _ _

theorem Inv.cleanup {s : System} (h : Inv s) {c : ℕ} {cl : Client} (hcl : s.clients c = some cl)
    (hover : s.threads cl.creator = []) : Inv (s.spawn (cl.cleanupOps c)) :=
  h.spawn_only (only_cleanupOps cl c) (by simp [hcl]) (fun _ => guarded_cleanupOps hcl)
    (not_pending hcl hover)

theorem Inv.free {s : System} (h : Inv s) {c : ℕ} {cl : Client} (hcl : s.clients c = some cl)
    (hover : s.threads cl.creator = []) : Inv (s.spawn (cl.freeOps c)) :=
  h.spawn_only (only_freeOps cl c) (by simp [hcl]) (fun _ => guarded_freeOps hcl)
    (not_pending hcl hover)

/-- Another call of `remove`. -/
theorem Inv.remove {s : System} (h : Inv s) (obj : ℕ) : Inv (s.spawn [.erase (some obj)]) := by
  have hends (c : ℕ) : ∀ op ∈ [ClientOp.erase (some obj)], ¬ op.ends c :=
    List.forall_mem_singleton.2 id
  exact h.spawn (by simp) (fun c cl _ => guarded_of_not_ends (hends c)) (fun _ c _ _ => hends c)
    (fun op hop c hop' => absurd hop' (hends c op hop))

/-- The critical section of `watch`. -/
theorem Inv.insert {s t : System} (h : Inv s) {thread c : ℕ} {cl : Client} {rest : List ClientOp}
    (hthread : s.threads thread = .insert c :: rest) (hcl : s.clients c = some cl)
    (hkind : ∀ obj, t.kind obj = if obj = cl.obj then some cl.isConsumer else s.kind obj)
    (hinstances : t.instances = s.instances) (hclients : t.clients = s.clients)
    (hthreads : t.threads = Function.update s.threads thread rest)
    (hnext : t.nextThread = s.nextThread) : Inv t := by
  have hmem : .insert c ∈ s.threads thread := by
    rw [hthread]
    exact List.mem_cons_self
  obtain ⟨cl', hp⟩ := h.pending thread c hmem
  obtain rfl := Option.some.inj (hcl.symm.trans hp.alive.client)
  have hrest : rest = [.enqueue none] := (List.cons.inj (hthread.symm.trans hp.ops)).2
  have halive {c' : ℕ} {cl' : Client} (ha : Alive s c' cl') : Alive t c' cl' := by
    have hg := ha.guarded thread
    rw [hthread] at hg
    exact ha.update (by rw [hclients]) (by rw [hinstances]) hthreads (hg.tail nofun)
  have hmem_rest {op : ClientOp} (hop : op ∈ rest) : op ∈ s.threads thread := by
    rw [hthread]
    exact List.mem_cons_of_mem _ hop
  refine ⟨fun obj k hk => ?_, fun j c' hj => ?_,
    h.known_update hthreads (by rw [hclients]; exact fun _ => id) fun op hop => ?_,
    h.fresh_update hthreads hnext.ge (hnext ▸ h.lt_nextThread hthread)⟩
  · rw [hkind] at hk
    split_ifs at hk with hobj
    · exact ⟨c, cl, hobj.symm, Option.some.inj hk, halive hp.alive⟩
    · obtain ⟨c', cl', hobj', hcl', ha⟩ := h.watched obj k hk
      exact ⟨c', cl', hobj', hcl', halive ha⟩
  · rw [hthreads] at hj
    rcases mem_update hj with ⟨-, hj⟩ | ⟨hne, hj⟩
    · rw [hrest] at hj
      cases List.mem_singleton.1 hj
    · obtain ⟨cl', hp'⟩ := h.pending j c' hj
      -- another client is at another address
      have hobj : cl'.obj ≠ cl.obj := by
        intro heq
        have hlive := hp'.alive.live
        rw [heq, hp.alive.live] at hlive
        obtain rfl := Option.some.inj hlive
        obtain rfl := Option.some.inj (hcl.symm.trans hp'.alive.client)
        exact hne (hp'.creator.symm.trans hp.creator)
      have hunwatched : t.kind cl'.obj = none := by
        rw [hkind, if_neg hobj]
        exact hp'.unwatched
      exact ⟨cl', hp'.update hne (by rw [hclients]) (by rw [hinstances]) hunwatched hthreads
        fun op hop => hp'.quiet thread op (hmem_rest hop)⟩
  · rw [hclients]
    exact h.known thread op (hmem_rest hop)

theorem ends_newOps {isConsumer subscribed : Bool} {c c' : ℕ} {op : ClientOp}
    (hop : op ∈ newOps isConsumer subscribed c) (hends : op.ends c') : c' = c := by
  unfold newOps watchOps at hop
  split_ifs at hop
  · obtain rfl := List.mem_singleton.1 hop
    exact hends.symm
  · rcases List.mem_pair.1 hop with rfl | rfl
    · exact hends.elim
    · exact hends.elim

/-- Only an instance that could subscribe is watched. -/
theorem insert_mem_newOps {isConsumer subscribed : Bool} {c c' : ℕ}
    (h : .insert c' ∈ newOps isConsumer subscribed c) :
    c' = c ∧ (!isConsumer || subscribed) = true ∧
      newOps isConsumer subscribed c = watchOps c := by
  unfold newOps at h ⊢
  split_ifs at h ⊢ with hfail
  · cases List.mem_singleton.1 h
  · refine ⟨?_, ?_, rfl⟩
    swap
    · revert hfail
      cases isConsumer <;> cases subscribed <;> decide
    rcases List.mem_pair.1 h with heq | heq
    · exact ClientOp.insert.inj heq
    · cases heq

/-- A new client. -/
theorem Inv.new {s t : System} (h : Inv s) {c obj : ℕ} {isConsumer subscribed : Bool} {cl : Client}
    (hc : s.clients c = none) (hobj : s.instances obj = none) (hclobj : cl.obj = obj)
    (hkf : cl.kf = (!isConsumer || subscribed)) (hfuture : cl.closedFuture = none)
    (hcreator : cl.creator = s.nextThread) (hkind : ∀ obj, t.kind obj = s.kind obj)
    (hinstances : t.instances = Function.update s.instances obj (some c))
    (hclients : t.clients = Function.update s.clients c (some cl))
    (hthreads : t.threads =
      Function.update s.threads s.nextThread (newOps isConsumer subscribed c))
    (hnext : t.nextThread = s.nextThread + 1) : Inv t := by
  have hquiet {c' : ℕ} (hne : c' ≠ c) : ∀ op ∈ newOps isConsumer subscribed c, ¬ op.ends c' :=
    fun op hop hends => hne (ends_newOps hop hends)
  have hne {c' : ℕ} {cl' : Client} (ha : Alive s c' cl') : c' ≠ c := by
    rintro rfl
    cases hc.symm.trans ha.client
  have halive {c' : ℕ} {cl' : Client} (ha : Alive s c' cl') : Alive t c' cl' := by
    have hobj' : cl'.obj ≠ obj := by
      intro heq
      have hlive := ha.live
      rw [heq, hobj] at hlive
      cases hlive
    refine ha.update ?_ ?_ hthreads (guarded_of_not_ends (hquiet (hne ha)))
    · rw [hclients, Function.update_of_ne (hne ha)]
    · rw [hinstances, Function.update_of_ne hobj']
  have hknown : ∀ c', s.clients c' ≠ none → t.clients c' ≠ none := by
    rw [hclients]
    exact ne_none_update s.clients c cl
  have hclient : t.clients c = some cl := by
    rw [hclients, Function.update_self]
  refine ⟨fun obj k hk => ?_, fun j c' hj => ?_,
    h.known_update hthreads hknown fun op hop c' hends => ?_,
    h.fresh_update hthreads (hnext ▸ Nat.le_succ _) (hnext ▸ Nat.lt_succ_self _)⟩
  · rw [hkind] at hk
    obtain ⟨c', cl', hobj', hcl', ha⟩ := h.watched obj k hk
    exact ⟨c', cl', hobj', hcl', halive ha⟩
  · rw [hthreads] at hj
    rcases mem_update hj with ⟨rfl, hnew⟩ | ⟨hji, hj⟩
    · -- the thread of the new client
      obtain ⟨rfl, hsubscribed, hops⟩ := insert_mem_newOps hnew
      have hends : ∀ j, ∀ op ∈ t.threads j, ¬ op.ends c' := by
        rw [hthreads, hops]
        refine (Function.forall_update_iff _ (fun _ ops => ∀ op ∈ ops, ¬ ClientOp.ends c' op)).2
          ⟨?_, fun j _ op hop hends => h.known j op hop c' hends hc⟩
        exact List.forall_mem_cons.2 ⟨id, List.forall_mem_singleton.2 id⟩
      refine ⟨cl, ⟨hclient, ?_, hkf.trans hsubscribed, hfuture,
        fun j => guarded_of_not_ends (hends j)⟩, ?_, hcreator, ?_, hends⟩
      · rw [hinstances, hclobj, Function.update_self]
      · rw [hkind, hclobj]
        exact h.kind_eq_none hobj
      · rw [hthreads, Function.update_self]
        exact hops
    · obtain ⟨cl', hp⟩ := h.pending j c' hj
      have hk := halive hp.alive
      exact ⟨cl', hp.update hji (hk.client.trans hp.alive.client.symm)
        (hk.live.trans hp.alive.live.symm) ((hkind _).trans hp.unwatched) hthreads
        (hquiet (hne hp.alive))⟩
  · rw [ends_newOps hop hends, hclient]
    exact Option.some_ne_none _

/-! ## The life of each instance -/

/-- The instance at an address, as the dispatcher and the clients have it. -/
def System.status (s : System) (obj : ℕ) : Status :=
  match s.kind obj with
  | some isConsumer => .watched isConsumer
  | none => if s.instances obj = none then .absent else .unwatched

/-- **A step of the life of each instance**, or several, is what has been noted from `s` to `t`. -/
def Lives (s t : System) : Prop :=
  ∃ notes, t.history = s.history ++ notes ∧
    ∀ obj, run (lifeStep obj) (s.status obj) notes = some (t.status obj)

theorem status_of_kind {s : System} {obj : ℕ} {k : Bool} (h : s.kind obj = some k) :
    s.status obj = .watched k := by
  rw [System.status, h]

theorem status_of_unwatched {s : System} {obj c : ℕ} (hkind : s.kind obj = none)
    (hlive : s.instances obj = some c) : s.status obj = .unwatched := by
  rw [System.status, hkind, hlive]
  rfl

theorem status_of_absent {s : System} {obj : ℕ} (hkind : s.kind obj = none)
    (habsent : s.instances obj = none) : s.status obj = .absent := by
  rw [System.status, hkind, habsent]
  rfl

theorem status_congr {s t : System} {obj : ℕ} (hkind : t.kind obj = s.kind obj)
    (hinstances : t.instances obj = s.instances obj) : t.status obj = s.status obj := by
  rw [System.status, System.status, hkind, hinstances]

theorem lives_silent {s t : System} (hhistory : t.history = s.history)
    (hstatus : ∀ obj, t.status obj = s.status obj) : Lives s t :=
  ⟨[], by rw [hhistory, List.append_nil], fun obj => by rw [hstatus]; rfl⟩

theorem lives_note {s t : System} {n : LifeNote} (hhistory : t.history = s.history ++ [n])
    (hnext : (s.status n.obj).next n = some (t.status n.obj))
    (hother : ∀ obj ≠ n.obj, t.status obj = s.status obj) : Lives s t := by
  refine ⟨[n], hhistory, fun obj => ?_⟩
  rw [run_cons]
  by_cases hobj : n.obj = obj
  · rw [lifeStep_of_eq hobj, ← hobj, hnext]
    rfl
  · rw [lifeStep_of_ne hobj, hother obj (Ne.symm hobj)]
    rfl

/-- The instance of a client that is being ended is alive and not watched. -/
theorem Inv.unwatched_of_ends {s : System} (h : Inv s) {thread c : ℕ} {op : ClientOp}
    {rest : List ClientOp} {obj : ℕ} (hthread : s.threads thread = op :: rest) (hends : op.ends c)
    (hlive : s.instances obj = some c) : s.kind obj = none := by
  by_contra hk
  obtain ⟨k, hk⟩ := Option.ne_none_iff_exists'.1 hk
  obtain ⟨c', cl, rfl, -, ha⟩ := h.watched obj k hk
  obtain rfl := Option.some.inj (hlive.symm.trans ha.live)
  have hguarded := ha.guarded thread
  rw [hthread] at hguarded
  exact hguarded.head hends

/-! ## The dispatcher -/

theorem kind_of_polls {objects objects' : Objects} {now : UInt64} {calls : List PollCall}
    (h : Polls objects now objects' calls) (obj : ℕ) :
    (objects'.lookup obj).map Item.isConsumer = (objects.lookup obj).map Item.isConsumer := by
  rw [h.lookup, Option.map_map]
  refine congrArg (Option.map · _) (funext fun it => ?_)
  simp only [Function.comp_apply]
  split <;> rfl

/-- An instance is polled with the call for its kind. -/
theorem doPoll_of_mem_processCallback {d : QueueCallbacksDispatcher} {now : UInt64}
    {event : Option ℕ} {call : PollCall} (h : call ∈ (d.processCallback now event).2) :
    ∃ k, (d.objects.lookup call.obj).map Item.isConsumer = some k ∧ call = doPoll call.obj k := by
  have hpolls := polls_pollSignalled d.objects now event
  have hmem : call ∈ (pollSignalled d.objects now event).2 ++
      (checkMaxPollIntervalMs (pollSignalled d.objects now event).1 now).polls := h
  rcases List.mem_append.1 hmem with hsignalled | hchecked
  · cases event with
    | none => cases hsignalled
    | some obj =>
      cases hit : d.objects.lookup obj with
      | none =>
        rw [pollSignalled_of_none hit] at hsignalled
        cases hsignalled
      | some it =>
        rw [pollSignalled_of_some hit] at hsignalled
        obtain rfl := List.mem_singleton.1 hsignalled
        exact ⟨it.isConsumer, by rw [doPoll_obj, hit]; rfl, by rw [doPoll_obj]⟩
  · rw [checkMaxPollIntervalMs, sweep_polls] at hchecked
    obtain ⟨⟨obj, it⟩, hentry, rfl⟩ := List.mem_map.1 hchecked
    have hit : (pollSignalled d.objects now event).1.lookup obj = some it :=
      AList.mem_lookup_iff.2 (List.mem_of_mem_filter hentry)
    refine ⟨it.isConsumer, ?_, by rw [doPoll_obj]⟩
    rw [doPoll_obj, ← kind_of_polls hpolls, hit]
    rfl

/-- Polls of an instance that is watched leave it watched. -/
theorem run_polled {obj : ℕ} {st : Status} {calls : List PollCall}
    (h : ∀ call ∈ calls, call.obj = obj → ∃ k, st = .watched k ∧ call = doPoll call.obj k) :
    run (lifeStep obj) st (calls.map .polled) = some st := by
  induction calls with
  | nil => rfl
  | cons call calls ih =>
    obtain ⟨hcall, hcalls⟩ := List.forall_mem_cons.1 h
    have hstep : lifeStep obj st (.polled call) = some st := by
      by_cases hobj : call.obj = obj
      · obtain ⟨k, rfl, hk⟩ := hcall hobj
        rw [lifeStep_of_eq (n := .polled call) hobj]
        exact if_pos hk
      · exact lifeStep_of_ne (n := .polled call) hobj st
    rw [List.map_cons, run_cons, hstep]
    exact ih hcalls

/-- The critical section of the loop of the dispatcher. -/
theorem inv_lives_process {s t : System} (h : Inv s) {now : UInt64}
    (hstep : s.step (.process now) = some t) : Inv t ∧ Lives s t := by
  obtain ⟨event, -, rfl⟩ := Option.map_eq_some_iff.1 hstep
  have hkind (obj : ℕ) := kind_of_polls (polls_processCallback s.dispatcher now event) obj
  refine ⟨h.frame hkind rfl rfl rfl rfl, _, rfl, fun obj => ?_⟩
  refine Eq.trans (run_polled fun call hcall hobj => ?_)
    (congrArg some (Eq.symm (status_congr (hkind obj) rfl)))
  obtain ⟨k, hk, hcall⟩ := doPoll_of_mem_processCallback hcall
  rw [hobj] at hk
  exact ⟨k, status_of_kind hk, hcall⟩

/-! ## The threads -/

/-- A thread takes an operation that inserts nothing and erases nothing. -/
theorem Inv.proceed {s t : System} {thread : ℕ} {op : ClientOp} {rest : List ClientOp}
    (h : Inv s) (hthread : s.threads thread = op :: rest) (hop : ∀ c, op ≠ .insert c)
    (herase : ∀ obj k, s.kind obj = some k → op ≠ .erase (some obj))
    (hkind : ∀ obj, t.kind obj = s.kind obj)
    (hkeep : ∀ c cl, s.clients c = some cl → s.instances cl.obj = some c → ¬ op.ends c →
      t.clients c = s.clients c ∧ t.instances cl.obj = s.instances cl.obj)
    (hknown : ∀ c, s.clients c ≠ none → t.clients c ≠ none)
    (hthreads : t.threads = Function.update s.threads thread rest)
    (hnext : t.nextThread = s.nextThread) : Inv t := by
  refine h.advance hthread hop (.inl rfl) (fun obj k hk => ?_) hkeep hknown hthreads hnext
  rw [hkind] at hk
  exact ⟨hk, herase obj k hk⟩

theorem inv_lives_insert {s t : System} (h : Inv s) {thread c : ℕ} {rest : List ClientOp}
    {now : UInt64} (hthread : s.threads thread = .insert c :: rest)
    (hrun : s.runOp thread rest now (.insert c) = some t) : Inv t ∧ Lives s t := by
  obtain ⟨cl, hcl, rfl⟩ := Option.map_eq_some_iff.1 hrun
  have hkind (obj : ℕ) : ((s.dispatcher.watchSection cl.obj cl.isConsumer cl.maxPollInterval
      now).objects.lookup obj).map Item.isConsumer =
      if obj = cl.obj then some cl.isConsumer else s.kind obj := by
    unfold watchSection
    split_ifs with hobj
    · rw [hobj, AList.lookup_insert]
      rfl
    · rw [AList.lookup_insert_ne hobj]
      rfl
  obtain ⟨cl', hp⟩ := h.pending thread c (by rw [hthread]; exact List.mem_cons_self)
  obtain rfl := Option.some.inj (hcl.symm.trans hp.alive.client)
  refine ⟨h.insert hthread hcl hkind rfl rfl rfl rfl, lives_note rfl ?_ fun obj hobj => ?_⟩
  · show (s.status cl.obj).next _ = some (System.status _ cl.obj)
    rw [status_of_unwatched hp.unwatched hp.alive.live]
    exact congrArg some (Eq.symm (status_of_kind ((hkind cl.obj).trans (if_pos rfl))))
  · exact status_congr ((hkind obj).trans (if_neg hobj)) rfl

theorem inv_lives_erase {s t : System} (h : Inv s) {thread obj : ℕ} {rest : List ClientOp}
    {now : UInt64} (hthread : s.threads thread = .erase (some obj) :: rest)
    (hrun : s.runOp thread rest now (.erase (some obj)) = some t) : Inv t ∧ Lives s t := by
  simp only [System.runOp] at hrun
  cases hit : s.dispatcher.objects.lookup obj with
  | none =>
    simp only [hit] at hrun
    cases hrun
    have hne (obj' : ℕ) (k : Bool) (hk : s.kind obj' = some k) :
        ClientOp.erase (some obj) ≠ .erase (some obj') := by
      rintro ⟨⟩
      rw [System.kind, hit] at hk
      cases hk
    exact ⟨h.proceed hthread nofun hne (fun _ => rfl) (fun _ _ _ _ _ => ⟨rfl, rfl⟩)
      (fun _ => id) rfl rfl, lives_silent rfl fun _ => rfl⟩
  | some it =>
    simp only [hit] at hrun
    cases hrun
    have hkind (obj' : ℕ) : ((s.dispatcher.removeSection obj).objects.lookup obj').map
        Item.isConsumer = if obj' = obj then none else s.kind obj' := by
      unfold removeSection
      split_ifs with hobj
      · rw [hobj, AList.lookup_erase]
        rfl
      · rw [AList.lookup_erase_ne hobj]
        rfl
    have hwatched : s.kind obj = some it.isConsumer := by
      rw [System.kind, hit]
      rfl
    obtain ⟨c, cl, rfl, -, ha⟩ := h.watched obj _ hwatched
    refine ⟨h.advance hthread nofun (.inr rfl) (fun obj' k hk => ?_)
      (fun _ _ _ _ _ => ⟨rfl, rfl⟩) (fun _ => id) rfl rfl, lives_note rfl ?_ fun obj' hobj => ?_⟩
    · have hk := (hkind obj').symm.trans hk
      split_ifs at hk with hobj
      exact ⟨hk, fun heq => hobj (Option.some.inj (ClientOp.erase.inj heq)).symm⟩
    · show (s.status cl.obj).next _ = some (System.status _ cl.obj)
      rw [status_of_kind hwatched]
      exact congrArg some
        (Eq.symm (status_of_unwatched ((hkind cl.obj).trans (if_pos rfl)) ha.live))
    · exact status_congr ((hkind obj').trans (if_neg hobj)) rfl

/-- A flush or a close. -/
theorem inv_lives_use {s t : System} (h : Inv s) {thread c : ℕ} {op : ClientOp}
    {rest : List ClientOp} {n : ℕ → LifeNote} (hthread : s.threads thread = op :: rest)
    (hop : ∀ c, op ≠ .insert c) (herase : ∀ obj, op ≠ .erase (some obj)) (hends : op.ends c)
    (hn : ∀ obj, (n obj).obj = obj) (hnext : ∀ obj, Status.unwatched.next (n obj) = some .unwatched)
    (hrun : (s.advance thread rest).use c n = some t) : Inv t ∧ Lives s t := by
  obtain ⟨cl, hcl, huse⟩ := Option.bind_eq_some_iff.1 hrun
  split_ifs at huse with hlive
  cases huse
  have hstatus : s.status cl.obj = .unwatched :=
    status_of_unwatched (h.unwatched_of_ends hthread hends hlive) hlive
  refine ⟨h.proceed hthread hop (fun _ _ _ => herase _) (fun _ => rfl)
    (fun _ _ _ _ _ => ⟨rfl, rfl⟩) (fun _ => id) rfl rfl, lives_note rfl ?_ fun _ _ => rfl⟩
  show (s.status (n cl.obj).obj).next _ = some (s.status (n cl.obj).obj)
  rw [hn, hstatus]
  exact hnext cl.obj

theorem inv_lives_destroy {s t : System} (h : Inv s) {thread c : ℕ} {rest : List ClientOp}
    (hthread : s.threads thread = .destroy c :: rest)
    (hrun : (s.advance thread rest).destroy c = some t) : Inv t ∧ Lives s t := by
  obtain ⟨cl, hcl, hdestroy⟩ := Option.bind_eq_some_iff.1 hrun
  split_ifs at hdestroy with hlive
  cases hdestroy
  have hlive : s.instances cl.obj = some c := hlive
  have hunwatched := h.unwatched_of_ends hthread rfl hlive
  refine ⟨h.proceed hthread nofun (fun _ _ _ => nofun) (fun _ => rfl)
    (fun c' cl' hcl' hlive' hends => ⟨rfl, ?_⟩) (fun _ => id) rfl rfl,
    lives_note rfl ?_ fun obj hobj => ?_⟩
  · refine Function.update_of_ne (fun heq => hends ?_) _ _
    rw [heq, hlive] at hlive'
    exact Option.some.inj hlive'
  · show (s.status cl.obj).next _ = some (System.status _ cl.obj)
    rw [status_of_unwatched hunwatched hlive]
    exact congrArg some (Eq.symm (status_of_absent hunwatched (Function.update_self _ _ _)))
  · exact status_congr rfl (Function.update_of_ne hobj _ _)

/-- An operation that ends a client may change its fields. -/
theorem Inv.edit {s : System} (h : Inv s) {thread c : ℕ} {op : ClientOp} {rest : List ClientOp}
    (hthread : s.threads thread = op :: rest) (hop : ∀ c, op ≠ .insert c)
    (herase : ∀ obj, op ≠ .erase (some obj)) (hends : op.ends c) (cl : Client) :
    Inv { s.advance thread rest with clients := Function.update s.clients c (some cl) } := by
  refine h.proceed hthread hop (fun _ _ _ => herase _) (fun _ => rfl)
    (fun c' cl' _ _ hends' => ⟨Function.update_of_ne ?_ _ _, rfl⟩)
    (ne_none_update s.clients c cl) rfl rfl
  rintro rfl
  exact hends' hends

theorem inv_lives_async {s t : System} (h : Inv s) {thread c : ℕ} {rest : List ClientOp}
    {now : UInt64} (hthread : s.threads thread = .async c :: rest)
    (hrun : s.runOp thread rest now (.async c) = some t) : Inv t ∧ Lives s t := by
  obtain ⟨cl, hcl, rfl⟩ := Option.map_eq_some_iff.1 hrun
  let u : System :=
    { s.advance thread rest with
      clients := Function.update s.clients c
        (some { cl with closedFuture := some s.nextThread }) }
  have hu : Inv u := h.edit hthread nofun nofun rfl _
  -- a client with a future is not alive any more
  have hnot (cl' : Client) : ¬ Alive u c cl' := by
    intro ha
    have hclient : u.clients c = some { cl with closedFuture := some s.nextThread } :=
      Function.update_self _ _ _
    obtain rfl := Option.some.inj (hclient.symm.trans ha.client)
    cases ha.future
  have hknown : u.clients c ≠ none := by
    rw [show u.clients c = some _ from Function.update_self _ _ _]
    exact Option.some_ne_none _
  exact ⟨hu.spawn_only (only_asyncOps cl c) hknown (fun cl' ha => absurd ha (hnot cl'))
    (fun _ cl' hp => hnot cl' hp.alive), lives_silent rfl fun _ => rfl⟩

/-- A thread takes an operation. -/
theorem inv_lives_runOp {s t : System} (h : Inv s) {thread : ℕ} {op : ClientOp}
    {rest : List ClientOp} {now : UInt64} (hthread : s.threads thread = op :: rest)
    (hrun : s.runOp thread rest now op = some t) : Inv t ∧ Lives s t := by
  -- what neither inserts nor erases, and leaves the clients and the instances as they are
  have hsilent {u : System} (hop : ∀ c, op ≠ .insert c) (herase : ∀ obj, op ≠ .erase (some obj))
      (hkind : ∀ obj, u.kind obj = s.kind obj) (hinstances : u.instances = s.instances)
      (hclients : u.clients = s.clients)
      (hthreads : u.threads = Function.update s.threads thread rest)
      (hnext : u.nextThread = s.nextThread) (hhistory : u.history = s.history) :
      Inv u ∧ Lives s u :=
    ⟨h.proceed hthread hop (fun _ _ _ => herase _) hkind
      (fun _ _ _ _ _ => ⟨by rw [hclients], by rw [hinstances]⟩)
      (fun _ => by rw [hclients]; exact id) hthreads hnext,
    lives_silent hhistory fun obj => status_congr (hkind obj) (by rw [hinstances])⟩
  cases op with
  | insert c => exact inv_lives_insert h hthread hrun
  | enqueue event =>
    cases hrun
    exact hsilent nofun nofun (fun _ => rfl) rfl rfl rfl rfl rfl
  | erase obj =>
    cases obj with
    | none =>
      cases hrun
      exact hsilent nofun nofun (fun _ => rfl) rfl rfl rfl rfl rfl
    | some obj => exact inv_lives_erase h hthread hrun
  | async c => exact inv_lives_async h hthread hrun
  | get t =>
    simp only [System.runOp] at hrun
    split_ifs at hrun
    cases hrun
    exact hsilent nofun nofun (fun _ => rfl) rfl rfl rfl rfl rfl
  | flush c => exact inv_lives_use h hthread nofun nofun rfl (fun _ => rfl) (fun _ => rfl) hrun
  | close c => exact inv_lives_use h hthread nofun nofun rfl (fun _ => rfl) (fun _ => rfl) hrun
  | destroy c => exact inv_lives_destroy h hthread hrun
  | clearKf c =>
    obtain ⟨cl, hcl, rfl⟩ := Option.map_eq_some_iff.1 hrun
    exact ⟨h.edit hthread nofun nofun rfl _, lives_silent rfl fun _ => rfl⟩

/-! ## Steps and runs -/

/-- **A step keeps the invariant, and is a step of the life of each instance.** -/
theorem inv_lives_step {s t : System} (h : Inv s) {e : SystemEvent} (hstep : s.step e = some t) :
    Inv t ∧ Lives s t := by
  cases e with
  | new c isConsumer obj maxPollInterval subscribed =>
    simp only [System.step] at hstep
    split_ifs at hstep with hguard
    obtain ⟨hc, hobj⟩ := hguard
    cases hstep
    have hkind := h.kind_eq_none hobj
    refine ⟨h.new hc hobj rfl rfl rfl rfl (fun _ => rfl) rfl rfl rfl rfl,
      lives_note rfl ?_ fun obj' hne => status_congr rfl (Function.update_of_ne hne _ _)⟩
    show (s.status obj).next _ = some (System.status _ obj)
    rw [status_of_absent hkind hobj]
    exact congrArg some (Eq.symm (status_of_unwatched hkind (Function.update_self _ _ _)))
  | cleanup c =>
    obtain ⟨cl, hcl, hspawn⟩ := Option.bind_eq_some_iff.1 hstep
    split_ifs at hspawn with hover
    cases hspawn
    exact ⟨h.cleanup hcl hover, lives_silent rfl fun _ => rfl⟩
  | free c =>
    obtain ⟨cl, hcl, hspawn⟩ := Option.bind_eq_some_iff.1 hstep
    split_ifs at hspawn with hover
    cases hspawn
    exact ⟨h.free hcl hover, lives_silent rfl fun _ => rfl⟩
  | signal obj =>
    cases hstep
    exact ⟨h.frame (fun _ => rfl) rfl rfl rfl rfl, lives_silent rfl fun _ => rfl⟩
  | remove obj =>
    cases hstep
    exact ⟨h.remove obj, lives_silent rfl fun _ => rfl⟩
  | run thread now =>
    simp only [System.step] at hstep
    split at hstep
    · cases hstep
    · next op rest hthread => exact inv_lives_runOp h hthread hstep
  | dequeue =>
    simp only [System.step] at hstep
    split at hstep
    · cases hstep
      exact ⟨h.frame (fun _ => rfl) rfl rfl rfl rfl, lives_silent rfl fun _ => rfl⟩
    · cases hstep
  | timeOut =>
    simp only [System.step] at hstep
    split_ifs at hstep
    cases hstep
    exact ⟨h.frame (fun _ => rfl) rfl rfl rfl rfl, lives_silent rfl fun _ => rfl⟩
  | process now => exact inv_lives_process h hstep

theorem inv_life_of_run {s : System} {es : List SystemEvent}
    (hrun : run System.step .start es = some s) :
    Inv s ∧ ∀ obj, run (lifeStep obj) .absent s.history = some (s.status obj) := by
  refine run_invariant (P := fun s => Inv s ∧
    ∀ obj, run (lifeStep obj) .absent s.history = some (s.status obj))
    (fun s e t h hstep => ?_) ⟨inv_start, fun _ => rfl⟩ hrun
  obtain ⟨hinv, hlife⟩ := h
  obtain ⟨hinv', notes, hhistory, hnotes⟩ := inv_lives_step hinv hstep
  refine ⟨hinv', fun obj => ?_⟩
  rw [hhistory, run_append, hlife obj]
  exact hnotes obj

/-- **The dispatcher never polls a removed client.** In every interleaving of the loop of the
dispatcher with any number of clients being created, cleaned up and freed, and any number of signals
and removals, only what is watched is polled. -/
theorem polledWhileWatched {s : System} {es : List SystemEvent}
    (hrun : run System.step .start es = some s) : PolledWhileWatched s.history :=
  polledWhileWatched_of_life fun obj => ⟨_, (inv_life_of_run hrun).2 obj⟩

/-- A producer that is signalled, cleaned up with another signal in the queue, and freed. -/
def producerRun : List SystemEvent :=
  [.new 0 false 8 300000 true, .run 0 0, .run 0 0, .signal 8, .dequeue, .process 0, .dequeue,
    .process 1, .signal 8, .cleanup 0, .run 1 1, .run 1 1, .run 1 1, .dequeue, .process 2,
    .run 2 2, .free 0, .run 3 2, .run 3 2]

theorem polledWhileWatched_sample : ∃ s, run System.step .start producerRun = some s ∧
    s.history = [.created 8, .inserted 8 false, .polled (.poll 8), .erased 8, .flushed 8,
      .destroyed 8] ∧ PolledWhileWatched s.history :=
  have hrun : run System.step .start producerRun = some _ := rfl
  ⟨_, hrun, rfl, polledWhileWatched hrun⟩

end Exrdkafka.Nif
