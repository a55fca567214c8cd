import PaymentApis.RabbitWorker

/-!
# Delivery status

The relay and the consumer both write the status of an outbox row by its id,
without looking at the value it has. What keeps the order of the statuses is
the way of the message: an event has one token, which is its place in a relay
tick's batch until it is published, then the message in a queue, then the
handler at work on it. As long as the consumer marks no event that a relay tick
still holds, and the reaper takes no row of a running tick, the tokens of an
event never number more than one, and an event that is delivered or failed has
none.
-/

namespace PaymentApis

open TxStore Processes

/-! ## What is stated -/

def WebhookEventStatus.terminal : WebhookEventStatus → Bool
  | .delivered => true
  | .failed => true
  | _ => false

def Op.isFetch : Op → Bool
  | .fetch _ _ => true
  | _ => false

/-- The action a step takes. -/
def Workers.action (s : Workers) : Turn → Option Op
  | .run i _ => s.nodes[i]?.bind Member.next
  | _ => none

/-- No crash, nothing refused by the broker, no failing statement; a request to
an endpoint may fail. -/
def Calm (s : Workers) (l : Turn) : Bool :=
  match l with
  | .crash _ => false
  | .run _ o => o == .done || (s.action l).any Op.isFetch
  | _ => true

/-- A relay tick has claimed the event, and neither marked nor reset it. -/
def Worker.holds (n : Worker) (id : Uuid) : Bool :=
  !did releases n.log && (claimed n.log).contains id

def Workers.held (s : Workers) (id : Uuid) : Bool := s.nodes.any (fun n => Worker.holds n id)

/-- The consumer marks no event that a relay tick holds, and the reaper takes no
row of one. -/
def Orderly (s : Workers) (l : Turn) : Bool :=
  match s.action l with
  | some (.eventMarkDelivered id) => !s.held id
  | some (.eventMarkFailed id _ _) => !s.held id
  | some (.eventReapStalePublishing n) =>
    s.world.events.all (fun r =>
      !(webhookEventRepository.stale s.world.now n r && s.held r.id))
  | _ => true

/-! ## Tokens -/

def carries (id : Uuid) (m : Message) : Bool := decide (m.content.outboxId = id)

/-- The messages of an event that are yet to be handled. -/
def World.waiting (w : World) (id : Uuid) : ℕ :=
  w.broker.count (carries id) .deliver + w.broker.count (carries id) .retry

/-- An expired message goes back to the main queue. -/
theorem World.waiting_expire {w : World} {b : MessageBroker}
    (h : w.broker.expire topology w.now Q_RETRY = some b) (id : Uuid) :
    World.waiting { w with broker := b } id = w.waiting id := by
  obtain ⟨x, rest, hready, rfl⟩ := Broker.State.expire_eq_some h
  have hdead : topology.deadLetter Q_RETRY = some (EXCHANGE, ROUTING_KEY) := rfl
  simp only [World.waiting, Broker.State.count_bury_some hdead, Broker.State.count_setReady,
    route_webhooks, List.mem_singleton, reduceCtorEq, if_true,
    if_false, true_and, false_and]
  simp only [Broker.State.count, hready, List.countP_cons]
  omega

/-- The event's tokens in a process: a place in the batch still to publish, or
the message being handled. -/
def Worker.tokens (id : Uuid) (n : Worker) : ℕ :=
  match n.job with
  | .relayTick => (claimed n.log).count id - (published n.log).count id
  | .handle _ msg => if carries id msg && !did marks n.log && !did retries n.log then 1 else 0

/-- How often a process holds the event. -/
def Worker.holding (id : Uuid) (n : Worker) : ℕ :=
  if did releases n.log then 0 else (claimed n.log).count id

def Workers.tokens (s : Workers) (id : Uuid) : ℕ :=
  s.world.waiting id + s.total (Worker.tokens id)

def Workers.holding (s : Workers) (id : Uuid) : ℕ := s.total (Worker.holding id)

/-- The tokens an event may have, and the ticks that hold it, by its status. -/
def WebhookEventStatus.Allows : WebhookEventStatus → ℕ → ℕ → Prop
  | .pending, tokens, holding => tokens = 0 ∧ holding = 0
  | .publishing, tokens, holding => tokens ≤ 1 ∧ holding = 1
  | .published, tokens, holding => tokens ≤ 1 ∧ holding = 0
  | .delivered, tokens, holding => tokens = 0 ∧ holding = 0
  | .failed, tokens, holding => tokens = 0 ∧ holding = 0

/-- Every event has the tokens its status allows. -/
structure OneToken (s : Workers) : Prop where
  nodup : (s.world.events.map (·.id)).Nodup
  rows : ∀ r ∈ s.world.events, r.status.Allows (s.tokens r.id) (s.holding r.id)
  unknown : ∀ id, id ∉ s.world.events.map (·.id) → s.tokens id = 0 ∧ s.holding id = 0
  queues : ∀ d ∈ s.world.broker.unacked, d.queue = Q_DELIVER
  smooth : ∀ n ∈ s.nodes, did unconfirms n.log = false

theorem Worker.holding_eq_zero {n : Worker} {id : Uuid} :
    Worker.holding id n = 0 ↔ Worker.holds n id = false := by
  unfold Worker.holding Worker.holds
  cases did releases n.log <;> simp [List.count_eq_zero]

theorem Workers.holding_eq_zero {s : Workers} {id : Uuid} (h : s.held id = false) :
    s.holding id = 0 := by
  unfold Workers.holding Pool.total
  rw [List.sum_eq_zero]
  intro x hx
  obtain ⟨n, hn, rfl⟩ := List.mem_map.mp hx
  rw [Worker.holding_eq_zero]
  simpa using List.any_eq_false.mp h n hn

/-- What an action of one process changes in the counts. -/
theorem Workers.counts_set {s : Workers} {i : ℕ} {n m : Worker} (h : s.nodes[i]? = some n)
    (w : World) (id : Uuid) :
    Workers.tokens ⟨w, s.nodes.set i m⟩ id + s.world.waiting id + Worker.tokens id n =
        s.tokens id + w.waiting id + Worker.tokens id m ∧
      Workers.holding ⟨w, s.nodes.set i m⟩ id + Worker.holding id n =
        s.holding id + Worker.holding id m := by
  have htokens := Pool.total_set (f := Worker.tokens id) h w m
  have hholding := Pool.total_set (f := Worker.holding id) h w m
  unfold Workers.tokens Workers.holding
  simp only at htokens hholding ⊢
  omega

/-- An entry that moves no token. -/
structure Quiet (d : Done) : Prop where
  claims : claims d = []
  publishes : publishes d = []
  releases : releases d = false
  marks : marks d = false
  retries : retries d = false
  unconfirms : unconfirms d = false

theorem Quiet.counts {d : Done} (h : Quiet d) (id : Uuid) (n : Worker) (c : Option (Script Unit)) :
    Worker.tokens id ⟨n.job, n.log ++ [d], c⟩ = Worker.tokens id n ∧
      Worker.holding id ⟨n.job, n.log ++ [d], c⟩ = Worker.holding id n := by
  constructor
  · cases hjob : n.job <;>
      simp [Worker.tokens, hjob, h.claims, h.publishes, h.marks, h.retries]
  · simp [Worker.holding, h.claims, h.releases]

section Step

variable {s : Workers} {i : ℕ} {n : Worker} {c : Option (Script Unit)} {d : Done} {w : World}

/-- The counts after an action of a process. -/
theorem OneToken.smooth_set (h : OneToken s) (hn : s.nodes[i]? = some n)
    (hd : unconfirms d = false) :
    ∀ m ∈ s.nodes.set i ⟨n.job, n.log ++ [d], c⟩, did unconfirms m.log = false := by
  intro m hm
  rcases List.mem_or_eq_of_mem_set hm with hm | rfl
  · exact h.smooth m hm
  · simp [h.smooth n (List.mem_of_getElem? hn), hd]

/-- An action that changes neither the counts nor a row. -/
theorem OneToken.keep (h : OneToken s) (hn : s.nodes[i]? = some n) (hd : unconfirms d = false)
    (hevents : w.events = s.world.events) (hqueues : ∀ d ∈ w.broker.unacked, d.queue = Q_DELIVER)
    (hcounts : ∀ id, w.waiting id + Worker.tokens id ⟨n.job, n.log ++ [d], c⟩ =
        s.world.waiting id + Worker.tokens id n ∧
      Worker.holding id ⟨n.job, n.log ++ [d], c⟩ = Worker.holding id n) :
    OneToken ⟨w, s.nodes.set i ⟨n.job, n.log ++ [d], c⟩⟩ := by
  have hsame : ∀ id, Workers.tokens ⟨w, s.nodes.set i ⟨n.job, n.log ++ [d], c⟩⟩ id = s.tokens id ∧
      Workers.holding ⟨w, s.nodes.set i ⟨n.job, n.log ++ [d], c⟩⟩ id = s.holding id := by
    intro id
    have hset := Workers.counts_set hn (m := ⟨n.job, n.log ++ [d], c⟩) w id
    have hid := hcounts id
    omega
  refine ⟨?_, ?_, ?_, hqueues, h.smooth_set hn hd⟩
  · simpa only [hevents] using h.nodup
  · intro r hr
    rw [(hsame r.id).1, (hsame r.id).2]
    exact h.rows r (hevents ▸ hr)
  · intro id hid
    rw [(hsame id).1, (hsame id).2]
    exact h.unknown id (by simpa only [hevents] using hid)

theorem OneToken.quiet (h : OneToken s) (hn : s.nodes[i]? = some n) (hd : Quiet d)
    (hevents : w.events = s.world.events) (hwaiting : ∀ id, w.waiting id = s.world.waiting id)
    (hqueues : ∀ d ∈ w.broker.unacked, d.queue = Q_DELIVER) :
    OneToken ⟨w, s.nodes.set i ⟨n.job, n.log ++ [d], c⟩⟩ := by
  refine h.keep hn hd.unconfirms hevents hqueues ?_
  intro id
  have hquiet := hd.counts id n c
  have hw := hwaiting id
  omega

/-- An action that updates rows. -/
theorem OneToken.update (h : OneToken s) (hn : s.nodes[i]? = some n) (hd : unconfirms d = false)
    {g : WebhookEventRow → WebhookEventRow} (hevents : w.events = s.world.events.map g)
    (hg : ∀ r, (g r).id = r.id) (hbroker : w.broker = s.world.broker)
    (hrows : ∀ r ∈ s.world.events, ∀ tokens holding,
      tokens + Worker.tokens r.id n = s.tokens r.id + Worker.tokens r.id ⟨n.job, n.log ++ [d], c⟩ →
      holding + Worker.holding r.id n =
        s.holding r.id + Worker.holding r.id ⟨n.job, n.log ++ [d], c⟩ →
      (g r).status.Allows tokens holding)
    (hunknown : ∀ id, id ∉ s.world.events.map (·.id) →
      Worker.tokens id ⟨n.job, n.log ++ [d], c⟩ = 0 ∧
        Worker.holding id ⟨n.job, n.log ++ [d], c⟩ = 0) :
    OneToken ⟨w, s.nodes.set i ⟨n.job, n.log ++ [d], c⟩⟩ := by
  have hids : w.events.map (·.id) = s.world.events.map (·.id) := by
    rw [hevents, List.map_map]
    exact List.map_congr_left (fun r _ => hg r)
  have hcounts : ∀ id,
      Workers.tokens ⟨w, s.nodes.set i ⟨n.job, n.log ++ [d], c⟩⟩ id + Worker.tokens id n =
        s.tokens id + Worker.tokens id ⟨n.job, n.log ++ [d], c⟩ ∧
      Workers.holding ⟨w, s.nodes.set i ⟨n.job, n.log ++ [d], c⟩⟩ id + Worker.holding id n =
        s.holding id + Worker.holding id ⟨n.job, n.log ++ [d], c⟩ := by
    intro id
    have hset := Workers.counts_set hn (m := ⟨n.job, n.log ++ [d], c⟩) w id
    have hwaiting : w.waiting id = s.world.waiting id := by simp only [World.waiting, hbroker]
    omega
  refine ⟨?_, ?_, ?_, ?_, h.smooth_set hn hd⟩
  · simpa only [hids] using h.nodup
  · intro r' hr'
    rw [hevents] at hr'
    obtain ⟨r, hr, rfl⟩ := List.mem_map.mp hr'
    rw [hg r]
    exact hrows r hr _ _ (hcounts r.id).1 (hcounts r.id).2
  · intro id hid
    simp only [hids] at hid
    have hzero := h.unknown id hid
    have hnew := hunknown id hid
    have hid := hcounts id
    omega
  · rw [hbroker]
    exact h.queues

/-- A process has no more tokens than there are. -/
theorem Workers.tokens_le (hn : s.nodes[i]? = some n) (id : Uuid) :
    Worker.tokens id n ≤ s.tokens id ∧ Worker.holding id n ≤ s.holding id := by
  have hset := Workers.counts_set hn (m := ⟨.relayTick, [], none⟩) s.world id
  have hzero : Worker.tokens id ⟨.relayTick, [], none⟩ = 0 ∧
      Worker.holding id ⟨.relayTick, [], none⟩ = 0 := by
    simp [Worker.tokens, Worker.holding]
  omega

/-! ### The relay -/

/-- A published message takes the place of its row in the batch. -/
theorem OneToken.confirmPublish (h : OneToken s) (hn : s.nodes[i]? = some n)
    (hjob : n.job = .relayTick) {x : Exchange} {key : String} {m : Message}
    (hmay : relayMay n.log (.confirmPublish x key m)) :
    OneToken ⟨{ s.world with broker := s.world.broker.publish topology x key m none },
      s.nodes.set i ⟨n.job, n.log ++ [⟨.confirmPublish x key m, .ok ()⟩], c⟩⟩ := by
  obtain ⟨rfl, rfl, ⟨rest, hrest⟩, -, -⟩ := hmay
  refine h.keep hn rfl rfl h.queues ?_
  intro id
  constructor
  · simp only [World.waiting, Broker.State.count_publish, Worker.tokens, hjob, route_webhooks,
      claimed_append, published_append, claims, publishes, hrest, List.append_nil,
      List.count_append, List.count_cons, List.count_nil, carries, decide_eq_true_eq,
      List.mem_singleton, reduceCtorEq, false_and, true_and, if_false, beq_iff_eq]
    split <;> omega
  · simp [Worker.holding, claims, releases]

theorem webhookEventRepository.mem_pendingIds {w : World} {limit : ℕ} {id : Uuid}
    (h : id ∈ pendingIds w limit) : ∃ r ∈ w.events, r.id = id ∧ r.status = .pending := by
  obtain ⟨r, hr, rfl⟩ := List.mem_map.mp h
  have hr := List.mem_of_mem_take hr
  rw [List.mem_insertionSort, List.mem_filter, decide_eq_true_eq] at hr
  exact ⟨r, hr.1, rfl, hr.2⟩

theorem row_unique {rows : List WebhookEventRow} (h : (rows.map (·.id)).Nodup)
    {r r' : WebhookEventRow} (hr : r ∈ rows) (hr' : r' ∈ rows) (hid : r.id = r'.id) : r = r' :=
  List.inj_on_of_nodup_map h hr hr' hid

/-- A claimed row gets its token. -/
theorem OneToken.claim (h : OneToken s) (hn : s.nodes[i]? = some n) (hjob : n.job = .relayTick)
    {limit : ℕ} (hmay : relayMay n.log (.eventClaimForPublishing limit)) :
    OneToken ⟨(webhookEventRepository.claimForPublishing limit s.world).2,
      s.nodes.set i ⟨n.job, n.log ++ [⟨.eventClaimForPublishing limit,
        .ok (webhookEventRepository.claimForPublishing limit s.world).1⟩], c⟩⟩ := by
  obtain ⟨hclaimed, hpublished, hreleased⟩ := hmay
  have hbefore : ∀ id, Worker.tokens id n = 0 ∧ Worker.holding id n = 0 := by
    intro id
    simp [Worker.tokens, Worker.holding, hclaimed, hjob]
  have hafter : ∀ id, Worker.tokens id ⟨n.job, n.log ++ [⟨.eventClaimForPublishing limit,
        .ok (webhookEventRepository.claimForPublishing limit s.world).1⟩], c⟩ =
      ((s.world.events.filter (fun r => decide (r.id ∈
        webhookEventRepository.pendingIds s.world limit))).map (·.id)).count id ∧
      Worker.holding id ⟨n.job, n.log ++ [⟨.eventClaimForPublishing limit,
        .ok (webhookEventRepository.claimForPublishing limit s.world).1⟩], c⟩ =
      ((s.world.events.filter (fun r => decide (r.id ∈
        webhookEventRepository.pendingIds s.world limit))).map (·.id)).count id := by
    intro id
    simp [Worker.tokens, Worker.holding, hclaimed, hpublished, hreleased, hjob, claims, publishes,
      releases, webhookEventRepository.claimForPublishing, webhookEventRepository.publishingFrom,
      Function.comp_def]
  have hsub : ((s.world.events.filter (fun r => decide (r.id ∈
      webhookEventRepository.pendingIds s.world limit))).map (·.id)).Sublist
      (s.world.events.map (·.id)) := List.filter_sublist.map _
  refine h.update hn rfl (g := fun r => if decide (r.id ∈
    webhookEventRepository.pendingIds s.world limit) then
    webhookEventRepository.publishingFrom s.world.now r else r) rfl ?_ rfl ?_ ?_
  · intro r
    split <;> rfl
  · intro r hr tokens holding htokens hholding
    rw [(hbefore r.id).1, (hafter r.id).1] at htokens
    rw [(hbefore r.id).2, (hafter r.id).2] at hholding
    have hrow := h.rows r hr
    by_cases hmem : r.id ∈ webhookEventRepository.pendingIds s.world limit
    · obtain ⟨r', hr', hid, hpending⟩ := webhookEventRepository.mem_pendingIds hmem
      rw [row_unique h.nodup hr' hr hid] at hpending
      rw [hpending] at hrow
      obtain ⟨hnone, hfree⟩ := hrow
      rw [List.count_eq_one_of_mem (h.nodup.sublist hsub)
        (List.mem_map_of_mem (List.mem_filter.mpr ⟨hr, by simpa using hmem⟩))] at htokens hholding
      simp only [hmem, decide_true, if_true, webhookEventRepository.publishingFrom]
      show tokens ≤ 1 ∧ holding = 1
      omega
    · have hnot : r.id ∉ (s.world.events.filter (fun r => decide (r.id ∈
          webhookEventRepository.pendingIds s.world limit))).map (·.id) := by
        intro hin
        obtain ⟨x, hx, hid⟩ := List.mem_map.mp hin
        rw [List.mem_filter, decide_eq_true_eq, hid] at hx
        exact hmem hx.2
      rw [List.count_eq_zero.mpr hnot] at htokens hholding
      simp only [hmem, decide_false, Bool.false_eq_true, if_false]
      have htokens : tokens = s.tokens r.id := by omega
      have hholding : holding = s.holding r.id := by omega
      rw [htokens, hholding]
      exact hrow
  · intro id hid
    rw [(hafter id).1, (hafter id).2]
    have hzero := List.count_eq_zero.mpr (fun hmem => hid (hsub.subset hmem))
    exact ⟨hzero, hzero⟩

/-- The tick that holds a row lets go of it. -/
theorem OneToken.markPublished (h : OneToken s) (hn : s.nodes[i]? = some n)
    (hjob : n.job = .relayTick) {ids : List Uuid}
    (hmay : relayMay n.log (.eventMarkPublished ids)) :
    OneToken ⟨webhookEventRepository.markPublished ids s.world,
      s.nodes.set i ⟨n.job, n.log ++ [⟨.eventMarkPublished ids, .ok ()⟩], c⟩⟩ := by
  obtain ⟨rfl, hpublished, -, hreleased⟩ := hmay
  have htokens : ∀ id, Worker.tokens id n = 0 ∧ Worker.tokens id ⟨n.job, n.log ++
      [⟨.eventMarkPublished (claimed n.log), .ok ()⟩], c⟩ = 0 := by
    intro id
    simp [Worker.tokens, hjob, hpublished, claims, publishes]
  have hholding : ∀ id, Worker.holding id n = (claimed n.log).count id ∧
      Worker.holding id ⟨n.job, n.log ++ [⟨.eventMarkPublished (claimed n.log), .ok ()⟩], c⟩ = 0 := by
    intro id
    simp [Worker.holding, hreleased, releases]
  refine h.update hn rfl (g := fun r => if decide (r.id ∈ claimed n.log) then
    { r with status := .published, updatedAt := s.world.now } else r) rfl ?_ rfl ?_ ?_
  · intro r
    split <;> rfl
  · intro r hr tokens holding ht hh
    rw [(htokens r.id).1, (htokens r.id).2] at ht
    rw [(hholding r.id).1, (hholding r.id).2] at hh
    have hrow := h.rows r hr
    by_cases hmem : r.id ∈ claimed n.log
    · have hpos := List.count_pos_iff.mpr hmem
      simp only [hmem, decide_true, if_true]
      show tokens ≤ 1 ∧ holding = 0
      cases hst : r.status <;> rw [hst] at hrow <;> obtain ⟨hle, hheld⟩ := hrow <;> omega
    · rw [List.count_eq_zero.mpr hmem] at hh
      simp only [hmem, decide_false, Bool.false_eq_true, if_false]
      have ht : tokens = s.tokens r.id := by omega
      have hh : holding = s.holding r.id := by omega
      rw [ht, hh]
      exact hrow
  · intro id _
    exact ⟨(htokens id).2, (hholding id).2⟩

/-! ### The consumer -/

/-- The mark of a handler ends its token. -/
theorem OneToken.mark (h : OneToken s) (hn : s.nodes[i]? = some n) {consumer : ℕ} {msg : Message}
    (hjob : n.job = .handle consumer msg) (hunmarked : did marks n.log = false)
    (hunsent : did retries n.log = false) (hheld : s.held msg.content.outboxId = false)
    (hmarks : marks d = true) (hclaims : claims d = []) (hreleases : releases d = false)
    (hunconfirms : unconfirms d = false) {g : WebhookEventRow → WebhookEventRow}
    (hg : ∀ r, (g r).id = r.id) (hterminal : ∀ r, (g r).status.terminal = true)
    (hevents : w.events = s.world.events.map
      (fun r => if decide (r.id = msg.content.outboxId) then g r else r))
    (hbroker : w.broker = s.world.broker) :
    OneToken ⟨w, s.nodes.set i ⟨n.job, n.log ++ [d], c⟩⟩ := by
  have htokens : ∀ id, Worker.tokens id n = (if msg.content.outboxId = id then 1 else 0) ∧
      Worker.tokens id ⟨n.job, n.log ++ [d], c⟩ = 0 := by
    intro id
    simp [Worker.tokens, hjob, hunmarked, hunsent, hmarks, carries]
  have hholding : ∀ id, Worker.holding id ⟨n.job, n.log ++ [d], c⟩ = Worker.holding id n := by
    intro id
    simp [Worker.holding, hclaims, hreleases]
  refine h.update hn hunconfirms hevents ?_ hbroker ?_ ?_
  · intro r
    split
    · exact hg r
    · rfl
  · intro r hr tokens holding ht hh
    rw [(htokens r.id).1, (htokens r.id).2] at ht
    rw [hholding r.id] at hh
    have hrow := h.rows r hr
    by_cases hid : r.id = msg.content.outboxId
    · -- nobody holds the event, and the message was its token
      have hfree := Workers.holding_eq_zero hheld
      have hone := (Workers.tokens_le hn r.id).1
      rw [← hid] at hfree
      rw [if_pos hid.symm] at ht
      rw [(htokens r.id).1, if_pos hid.symm] at hone
      simp only [hid, decide_true, if_true]
      have hzero : tokens = 0 ∧ holding = 0 := by
        cases hst : r.status <;> rw [hst] at hrow <;> obtain ⟨hle, hheld⟩ := hrow <;> omega
      have hend := hterminal r
      cases hst : (g r).status <;> rw [hst] at hend <;> first | exact hzero | cases hend
    · rw [if_neg (fun heq => hid heq.symm)] at ht
      simp only [hid, decide_false, Bool.false_eq_true, if_false]
      have ht : tokens = s.tokens r.id := by omega
      have hh : holding = s.holding r.id := by omega
      rw [ht, hh]
      exact hrow
  · intro id hid
    have hzero := h.unknown id hid
    have hle := (Workers.tokens_le hn id).2
    rw [(htokens id).2, hholding id]
    omega

/-- A message sent to the retry queue takes the place of the one handled. -/
theorem OneToken.retry (h : OneToken s) (hn : s.nodes[i]? = some n) {consumer : ℕ}
    {msg : Message} (hjob : n.job = .handle consumer msg) (hunmarked : did marks n.log = false)
    (hunsent : did retries n.log = false) {m : Message} (hm : m.content = msg.content)
    (expiration expiresAt : Option ℕ) (r : Except String Unit) :
    OneToken ⟨{ s.world with broker :=
        s.world.broker.publish topology EXCHANGE_RETRY ROUTING_KEY m expiresAt },
      s.nodes.set i ⟨n.job, n.log ++
        [⟨.publish EXCHANGE_RETRY ROUTING_KEY m expiration, r⟩], c⟩⟩ := by
  refine h.keep hn rfl rfl h.queues ?_
  intro id
  constructor
  · simp [World.waiting, Broker.State.count_publish, Worker.tokens, hjob, marks, retries,
      hunmarked, hunsent, carries, hm]
    omega
  · simp [Worker.holding, claims, releases]

end Step

/-! ## Every step -/

theorem OneToken.begin : OneToken (Pool.begin .empty) where
  nodup := List.nodup_nil
  rows := by simp [Pool.begin, World.empty]
  unknown := fun _ _ => ⟨rfl, rfl⟩
  queues := by simp [Pool.begin, World.empty, Broker.State.empty]
  smooth := by simp [Pool.begin]

/-- What happens outside the processes, and the birth of one. -/
theorem OneToken.world {s : Workers} (h : OneToken s) {w : World} {ns : List Worker}
    (hevents : w.events = s.world.events) (hqueues : ∀ d ∈ w.broker.unacked, d.queue = Q_DELIVER)
    (hsmooth : ∀ n ∈ ns, did unconfirms n.log = false)
    (hcounts : ∀ id, Workers.tokens ⟨w, ns⟩ id = s.tokens id ∧
      Workers.holding ⟨w, ns⟩ id = s.holding id) : OneToken ⟨w, ns⟩ where
  nodup := by simpa only [hevents] using h.nodup
  rows := by
    intro r hr
    rw [(hcounts r.id).1, (hcounts r.id).2]
    exact h.rows r (hevents ▸ hr)
  unknown := by
    intro id hid
    rw [(hcounts id).1, (hcounts id).2]
    exact h.unknown id (by simpa only [hevents] using hid)
  queues := hqueues
  smooth := hsmooth

theorem OneToken.start {s : Workers} (h : OneToken s) {j : WorkerJob} {w : World}
    {c : Option (Script Unit)} (hw : World.birth s.nodes.length j s.world = some w) :
    OneToken ⟨w, s.nodes ++ [⟨j, [], c⟩]⟩ := by
  have hsmooth : ∀ n ∈ s.nodes ++ [⟨j, [], c⟩], did unconfirms n.log = false := by
    intro n hn
    rcases List.mem_append.mp hn with hn | hn
    · exact h.smooth n hn
    · obtain rfl := List.mem_singleton.mp hn
      rfl
  have htokens := fun id => Pool.total_append (Worker.tokens id) s w ⟨j, [], c⟩
  have hholding := fun id => Pool.total_append (Worker.holding id) s w ⟨j, [], c⟩
  cases j with
  | relayTick =>
    obtain rfl := Option.some.inj hw
    refine h.world rfl h.queues hsmooth ?_
    intro id
    simp only [Workers.tokens, Workers.holding, htokens, hholding]
    simp [Worker.tokens, Worker.holding]
  | handle consumer msg =>
    simp only [World.birth] at hw
    split at hw
    · rename_i m b hdeliver
      split at hw
      · rename_i hm
        obtain rfl := Option.some.inj hw
        subst hm
        refine h.world rfl ?_ hsmooth ?_
        · obtain ⟨x, rest, -, -, rfl⟩ := Broker.State.deliver_eq_some hdeliver
          intro d hd
          rcases List.mem_append.mp hd with hd | hd
          · exact h.queues d hd
          · obtain rfl := List.mem_singleton.mp hd
            rfl
        · intro id
          have hmain := Broker.State.count_deliver (p := carries id) .deliver hdeliver
          have hretry := Broker.State.count_deliver (p := carries id) .retry hdeliver
          simp only [Workers.tokens, Workers.holding, htokens, hholding, World.waiting]
          simp only [Worker.tokens, Worker.holding, did_nil, claimed_nil, List.count_nil, ite_self,
            Bool.not_false, Bool.and_true, true_and, reduceCtorEq, false_and,
            if_false] at hmain hretry ⊢
          omega
      · simp at hw
    · simp at hw

theorem OneToken.event {s : Workers} (h : OneToken s) {e : Event} {w : World}
    (hw : World.event e s.world = some w) : OneToken ⟨w, s.nodes⟩ := by
  cases e with
  | tick k =>
    obtain rfl := Option.some.inj hw
    exact h.world rfl h.queues h.smooth (fun _ => ⟨rfl, rfl⟩)
  | enqueue id m e type payload since =>
    obtain ⟨-, hid, rfl⟩ := World.enqueue_eq_some hw
    refine ⟨?_, ?_, ?_, h.queues, h.smooth⟩
    · simpa using List.nodup_append.mpr ⟨h.nodup, List.nodup_singleton id, by
        intro a ha b hb heq
        rw [List.mem_singleton] at hb
        exact hid (hb ▸ heq ▸ ha)⟩
    · intro r hr
      rcases List.mem_append.mp hr with hr | hr
      · exact h.rows r hr
      · obtain rfl := List.mem_singleton.mp hr
        exact h.unknown id hid
    · intro id' hid'
      apply h.unknown id'
      intro hmem
      apply hid'
      rw [List.map_append]
      exact List.mem_append_left _ hmem
  | register row =>
    obtain rfl := Option.some.inj hw
    exact h.world rfl h.queues h.smooth (fun _ => ⟨rfl, rfl⟩)
  | expire =>
    obtain ⟨b, hb, rfl⟩ := Option.map_eq_some_iff.mp hw
    refine h.world rfl ?_ h.smooth ?_
    · obtain ⟨x, rest, -, rfl⟩ := Broker.State.expire_eq_some hb
      exact h.queues
    · intro id
      refine ⟨?_, rfl⟩
      have hwaiting : World.waiting { s.world with broker := b } id = s.world.waiting id :=
        World.waiting_expire hb id
      show World.waiting { s.world with broker := b } id + s.total (Worker.tokens id) = _
      rw [hwaiting]
      rfl

/-- A rejected message of the main queue is discarded. -/
theorem World.nack_broker {w : World} (h : ∀ d ∈ w.broker.unacked, d.queue = Q_DELIVER) (i : ℕ) :
    (w.broker.nack topology i).ready = w.broker.ready ∧
      ∀ d ∈ (w.broker.nack topology i).unacked, d.queue = Q_DELIVER := by
  unfold Broker.State.nack
  split
  · exact ⟨rfl, h⟩
  · rename_i d hd
    have hqueue := h d (List.mem_of_find?_eq_some hd)
    rw [Broker.State.bury, hqueue]
    exact ⟨rfl, fun d hd => h d (List.mem_filter.mp hd).1⟩

theorem OneToken.run {s : Workers} (h : OneToken s) {i : ℕ} {o : Outcome} {n : Worker} {st : Op}
    {r : Except String (Answer st)} {w : World} {c : Option (Script Unit)}
    (hn : s.nodes[i]? = some n) (hmay : may n.job n.log st)
    (hact : World.act i st o s.world = some (r, w)) (haction : s.action (.run i o) = some st)
    (hcalm : Calm s (.run i o) = true) (horderly : Orderly s (.run i o) = true) :
    OneToken ⟨w, s.nodes.set i ⟨n.job, n.log ++ [⟨st, r⟩], c⟩⟩ := by
  simp only [Calm, haction, Option.any_some, Bool.or_eq_true, beq_iff_eq] at hcalm
  simp only [Orderly, haction] at horderly
  cases st with
  | eventReapStalePublishing k =>
    obtain rfl := hcalm.resolve_right (by simp [Op.isFetch])
    cases hact
    refine h.quiet hn ⟨rfl, rfl, rfl, rfl, rfl, rfl⟩ ?_ (fun _ => rfl) h.queues
    -- a stale row would have a tick that holds it
    have hnone : ∀ x ∈ s.world.events,
        webhookEventRepository.stale s.world.now k x = false := by
      intro x hx
      by_contra hstale
      rw [Bool.not_eq_false] at hstale
      have hfree := List.all_eq_true.mp horderly x hx
      rw [hstale, Bool.true_and, Bool.not_eq_true'] at hfree
      have hzero := Workers.holding_eq_zero hfree
      have hrow := h.rows x hx
      rw [webhookEventRepository.stale, decide_eq_true_eq] at hstale
      rw [hstale.1] at hrow
      exact absurd (hrow.2.symm.trans hzero) (by decide)
    show s.world.events.map _ = s.world.events
    rw [List.map_congr_left (g := id) ?_, List.map_id]
    intro x hx
    simp [hnone x hx]
  | eventClaimForPublishing limit =>
    obtain rfl := hcalm.resolve_right (by simp [Op.isFetch])
    cases hjob : n.job with
    | relayTick =>
      rw [hjob] at hmay
      cases hact
      exact hjob ▸ h.claim hn hjob hmay
    | handle consumer msg =>
      rw [hjob] at hmay
      exact hmay.elim
  | eventMarkPublished ids =>
    obtain rfl := hcalm.resolve_right (by simp [Op.isFetch])
    cases hjob : n.job with
    | relayTick =>
      rw [hjob] at hmay
      cases hact
      exact hjob ▸ h.markPublished hn hjob hmay
    | handle consumer msg =>
      rw [hjob] at hmay
      exact hmay.elim
  | eventResetToPending ids =>
    cases hjob : n.job with
    | relayTick =>
      rw [hjob] at hmay
      have hsmooth := h.smooth n (List.mem_of_getElem? hn)
      rw [hmay.2.1] at hsmooth
      simp at hsmooth
    | handle consumer msg =>
      rw [hjob] at hmay
      exact hmay.elim
  | eventMarkDelivered id =>
    obtain rfl := hcalm.resolve_right (by simp [Op.isFetch])
    cases hjob : n.job with
    | relayTick =>
      rw [hjob] at hmay
      exact hmay.elim
    | handle consumer msg =>
      rw [hjob] at hmay
      obtain ⟨rfl, -, hunsent, hunmarked⟩ := hmay
      cases hact
      rw [Bool.not_eq_true'] at horderly
      exact hjob ▸ h.mark hn hjob hunmarked hunsent horderly rfl rfl rfl rfl
        (g := fun r => { r with status := .delivered, updatedAt := s.world.now })
        (fun _ => rfl) (fun _ => rfl) rfl rfl
  | eventMarkFailed id k e =>
    obtain rfl := hcalm.resolve_right (by simp [Op.isFetch])
    cases hjob : n.job with
    | relayTick =>
      rw [hjob] at hmay
      exact hmay.elim
    | handle consumer msg =>
      rw [hjob] at hmay
      obtain ⟨rfl, -, hunsent, hunmarked⟩ := hmay
      cases hact
      rw [Bool.not_eq_true'] at horderly
      exact hjob ▸ h.mark hn hjob hunmarked hunsent horderly rfl rfl rfl rfl
        (g := fun r => { r with
          status := .failed
          attempts := k
          lastError := some e
          updatedAt := s.world.now })
        (fun _ => rfl) (fun _ => rfl) rfl rfl
  | endpointFindById id =>
    obtain rfl := hcalm.resolve_right (by simp [Op.isFetch])
    cases hact
    exact h.quiet hn ⟨rfl, rfl, rfl, rfl, rfl, rfl⟩ rfl (fun _ => rfl) h.queues
  | confirmPublish x key m =>
    obtain rfl := hcalm.resolve_right (by simp [Op.isFetch])
    cases hjob : n.job with
    | relayTick =>
      rw [hjob] at hmay
      cases hact
      exact hjob ▸ h.confirmPublish hn hjob hmay
    | handle consumer msg =>
      rw [hjob] at hmay
      exact hmay.elim
  | waitForConfirms =>
    obtain rfl := hcalm.resolve_right (by simp [Op.isFetch])
    simp only [World.act] at hact
    split at hact
    · simp at hact
    · cases hact
      exact h.quiet hn ⟨rfl, rfl, rfl, rfl, rfl, rfl⟩ rfl (fun _ => rfl) h.queues
  | publish x key m expiration =>
    obtain rfl := hcalm.resolve_right (by simp [Op.isFetch])
    cases hjob : n.job with
    | relayTick =>
      rw [hjob] at hmay
      exact hmay.elim
    | handle consumer msg =>
      rw [hjob] at hmay
      obtain ⟨rfl, hm, hunsent, hunmarked, hexit⟩ := hmay
      cases hact
      rcases hexit with ⟨rfl, -⟩ | ⟨rfl, -, -, -⟩
      · refine hjob ▸ h.quiet hn ⟨rfl, rfl, rfl, rfl, rfl, rfl⟩ rfl ?_ h.queues
        intro id
        simp [World.waiting, Broker.State.count_publish]
      · exact hjob ▸ h.retry hn hjob hunmarked hunsent hm expiration _ _
  | fetch id post =>
    have hkeep : w.events = s.world.events ∧ w.broker = s.world.broker := by
      cases o <;> cases hact <;> exact ⟨rfl, rfl⟩
    refine h.quiet hn ⟨rfl, rfl, rfl, rfl, rfl, rfl⟩ hkeep.1 ?_ (hkeep.2 ▸ h.queues)
    intro id
    simp only [World.waiting, hkeep.2]
  | ack =>
    obtain rfl := hcalm.resolve_right (by simp [Op.isFetch])
    cases hact
    refine h.quiet hn ⟨rfl, rfl, rfl, rfl, rfl, rfl⟩ rfl (fun _ => rfl) ?_
    exact fun d hd => h.queues d (List.mem_filter.mp hd).1
  | nack =>
    obtain rfl := hcalm.resolve_right (by simp [Op.isFetch])
    cases hact
    obtain ⟨hready, hqueues⟩ := World.nack_broker h.queues i
    refine h.quiet hn ⟨rfl, rfl, rfl, rfl, rfl, rfl⟩ rfl ?_ hqueues
    intro id
    simp only [World.waiting, Broker.State.count, hready]

theorem Workers.action_run {s : Workers} {i : ℕ} {n : Worker} {st : Op}
    {k : Except String (Answer st) → Script Unit} (hn : s.nodes[i]? = some n)
    (hscript : n.script = some (.query st k)) (o : Outcome) : s.action (.run i o) = some st := by
  simp [Workers.action, hn, Member.next, hscript]

theorem OneToken.move {s t : Workers} {l : Turn} (h : OneToken s) (hmove : Move discipline s l t)
    (hcalm : Calm s l = true) (horderly : Orderly s l = true) : OneToken t := by
  cases hmove with
  | start hborn => exact h.start hborn
  | run hn hscript _ hmay hact =>
    exact h.run hn hmay hact (Workers.action_run hn hscript _) hcalm horderly
  | crash hn hlive => simp [Calm] at hcalm
  | event hhappens => exact h.event hhappens

/-! ## Terminal rows -/

theorem webhookEventRepository.mem_updateWhere {p : WebhookEventRow → Bool}
    {g : WebhookEventRow → WebhookEventRow} {w : World} {r : WebhookEventRow} (hr : r ∈ w.events)
    (hp : p r = false) : r ∈ (updateWhere p g w).events :=
  List.mem_map.mpr ⟨r, hr, by simp [hp]⟩

/-- A delivered or failed event has no token, and no tick holds it. -/
theorem OneToken.done {s : Workers} (h : OneToken s) {r : WebhookEventRow}
    (hr : r ∈ s.world.events) (hterminal : r.status.terminal = true) :
    s.tokens r.id = 0 ∧ s.holding r.id = 0 := by
  have hrow := h.rows r hr
  cases hst : r.status <;> rw [hst] at hrow hterminal <;> first | exact hrow | cases hterminal

/-- No action changes such a row. -/
theorem OneToken.row_stays {s : Workers} (h : OneToken s) {i : ℕ} {o : Outcome} {n : Worker}
    {st : Op} {x : Except String (Answer st)} {w : World} (hn : s.nodes[i]? = some n)
    (hmay : may n.job n.log st) (hact : World.act i st o s.world = some (x, w))
    {r : WebhookEventRow} (hr : r ∈ s.world.events) (hterminal : r.status.terminal = true) :
    r ∈ w.events := by
  have hdone := h.done hr hterminal
  have hle := Workers.tokens_le hn r.id
  have hstatement : ∀ {α : Type} {y : Except String α} {x : α × World},
      statement o s.world x = some (y, w) → r ∈ x.2.events → r ∈ w.events := by
    intro α y x hst hmem
    cases o <;> cases hst
    · exact hmem
    · exact hr
  -- a tick that still has to mark its batch holds every event of it
  have hbatch : did releases n.log = false → r.id ∉ claimed n.log := by
    intro hreleased hmem
    have hpos := List.count_pos_iff.mpr hmem
    have hholding : Worker.holding r.id n = (claimed n.log).count r.id := by
      simp [Worker.holding, hreleased]
    omega
  -- a handler that still has to mark its event has a token of it
  have hmark : ∀ {consumer msg}, n.job = .handle consumer msg → did marks n.log = false →
      did retries n.log = false → r.id ≠ msg.content.outboxId := by
    intro consumer msg hjob hunmarked hunsent hid
    have hone : Worker.tokens r.id n = 1 := by
      simp [Worker.tokens, hjob, hunmarked, hunsent, carries, hid]
    omega
  cases st with
  | eventReapStalePublishing k =>
    refine hstatement hact (webhookEventRepository.mem_updateWhere hr ?_)
    cases hst : r.status <;> rw [hst] at hterminal <;>
      simp [webhookEventRepository.stale, hst, WebhookEventStatus.terminal] at hterminal ⊢
  | eventClaimForPublishing limit =>
    refine hstatement hact (webhookEventRepository.mem_updateWhere hr ?_)
    rw [decide_eq_false_iff_not]
    intro hmem
    obtain ⟨r', hr', hid, hpending⟩ := webhookEventRepository.mem_pendingIds hmem
    rw [row_unique h.nodup hr' hr hid] at hpending
    rw [hpending] at hterminal
    cases hterminal
  | eventMarkPublished ids =>
    cases hjob : n.job <;> rw [hjob] at hmay
    · obtain ⟨rfl, -, -, hreleased⟩ := hmay
      exact hstatement hact (webhookEventRepository.mem_updateWhere hr
        (decide_eq_false (hbatch hreleased)))
    · exact hmay.elim
  | eventResetToPending ids =>
    cases hjob : n.job <;> rw [hjob] at hmay
    · obtain ⟨rfl, -, hreleased⟩ := hmay
      exact hstatement hact (webhookEventRepository.mem_updateWhere hr
        (decide_eq_false (hbatch hreleased)))
    · exact hmay.elim
  | eventMarkDelivered id =>
    cases hjob : n.job <;> rw [hjob] at hmay
    · exact hmay.elim
    · obtain ⟨rfl, -, hunsent, hunmarked⟩ := hmay
      exact hstatement hact (webhookEventRepository.mem_updateWhere hr
        (decide_eq_false (hmark hjob hunmarked hunsent)))
  | eventMarkFailed id k e =>
    cases hjob : n.job <;> rw [hjob] at hmay
    · exact hmay.elim
    · obtain ⟨rfl, -, hunsent, hunmarked⟩ := hmay
      exact hstatement hact (webhookEventRepository.mem_updateWhere hr
        (decide_eq_false (hmark hjob hunmarked hunsent)))
  | endpointFindById id => exact hstatement hact hr
  | confirmPublish x key m => cases o <;> cases hact <;> exact hr
  | waitForConfirms =>
    cases o with
    | done =>
      simp only [World.act] at hact
      split at hact <;> cases hact
      exact hr
    | failed message =>
      cases hact
      exact hr
    | status k => cases hact
  | publish x key m expiration =>
    cases o <;> cases hact
    exact hr
  | fetch id post => cases o <;> cases hact <;> exact hr
  | ack =>
    cases o <;> cases hact
    exact hr
  | nack =>
    cases o <;> cases hact
    exact hr

theorem OneToken.row_stays_move {s t : Workers} {l : Turn} (h : OneToken s)
    (hmove : Move discipline s l t) {r : WebhookEventRow} (hr : r ∈ s.world.events)
    (hterminal : r.status.terminal = true) : r ∈ t.world.events := by
  cases hmove with
  | @start j w c hborn =>
    cases j with
    | relayTick =>
      obtain rfl := Option.some.inj hborn
      exact hr
    | handle consumer msg =>
      simp only [device, World.birth] at hborn
      split at hborn
      · split at hborn <;> cases hborn
        exact hr
      · cases hborn
  | run hn _ _ hmay hact => exact h.row_stays hn hmay hact hr hterminal
  | @crash i n hn hlive =>
    cases hjob : n.job <;> exact hr
  | @event e w hhappens =>
    cases e with
    | tick k =>
      obtain rfl := Option.some.inj hhappens
      exact hr
    | enqueue id m e type payload since =>
      obtain ⟨-, -, rfl⟩ := World.enqueue_eq_some hhappens
      exact List.mem_append_left _ hr
    | register row =>
      obtain rfl := Option.some.inj hhappens
      exact hr
    | expire =>
      obtain ⟨b, -, rfl⟩ := Option.map_eq_some_iff.mp hhappens
      exact hr

/-! ## Every run -/

/-- The runs in which every step is calm and orderly. -/
abbrev Steady (s : Workers) (l : Turn) : Prop := Calm s l = true ∧ Orderly s l = true

theorem OneToken.reach {s : Workers} (h : Workers.Reach Steady s) : OneToken s := by
  refine Runs.invariant (K := discipline) ?_ (discipline.follows_begin _) h OneToken.begin
  intro s t l h hmove hok
  exact h.move hmove hok.1 hok.2

/-- Once an event is delivered or failed, its row never changes, as long as the
consumer marks no event that a relay tick still holds and the reaper takes no
row of a running tick. -/
theorem status_monotone {s t : Workers} (hs : Workers.Reach Steady s)
    (ht : Runs device workerProgram Steady s t) {r : WebhookEventRow} (hr : r ∈ s.world.events)
    (hterminal : r.status.terminal = true) :
    r ∈ t.world.events ∧ ∀ r' ∈ t.world.events, r'.id = r.id → r'.status = r.status := by
  have hmem : r ∈ t.world.events := by
    induction ht with
    | refl => exact hr
    | @tail u v l hrun hstep hok ih =>
      have hu := Runs.trans hs hrun
      have hmove := (((discipline.follows_begin _).runs hu).step hstep).1
      exact (OneToken.reach hu).row_stays_move hmove ih hterminal
  refine ⟨hmem, ?_⟩
  intro r' hr' hid
  rw [row_unique (OneToken.reach (Runs.trans hs ht)).nodup hr' hmem hid]

/-! ### Two runs -/

def endpointSeven : WebhookEndpointRow := ⟨7, 1, "https://merchant.test/hook", "whsec_00", true⟩

def payloadPaid : EventPayload := ⟨.payoutPaid, .payout 9 ⟨50, by decide, by decide⟩ .NGN none⟩

def messageOne : Message := ⟨⟨1, 7, .payoutPaid, payloadPaid⟩, some 1⟩

/-- An event is enqueued, claimed and published. -/
def publishOne : List Turn :=
  [.event (.register endpointSeven), .event (.enqueue 1 1 7 .payoutPaid payloadPaid 0),
    .start .relayTick, .run 0 .done, .run 0 .done, .run 0 .done]

/-- The broker confirms, and the tick marks it published. -/
def confirmOne : List Turn := [.run 0 .done, .run 0 .done]

/-- The consumer posts it, is answered 200, and marks it delivered. -/
def deliverOne : List Turn :=
  [.start (.handle 0 messageOne), .run 1 .done, .run 1 (.status 200), .run 1 .done]

/-- The status of an event. -/
def World.status (w : World) (id : Uuid) : Option WebhookEventStatus :=
  (w.events.find? (fun r => decide (r.id = id))).map (·.status)

theorem World.of_status {w : World} {id : Uuid} {st : WebhookEventStatus}
    (h : w.status id = some st) : ∃ r ∈ w.events, r.id = id ∧ r.status = st := by
  obtain ⟨r, hr, rfl⟩ := Option.map_eq_some_iff.mp h
  have hid := List.find?_some hr
  exact ⟨r, List.mem_of_find?_eq_some hr, by simpa using hid, rfl⟩

theorem status_monotone_delivered : ∃ s t : Workers, Runs device workerProgram Steady s t ∧
    ∃ r ∈ s.world.events, r.status = .delivered ∧ r ∈ t.world.events ∧
      ∀ r' ∈ t.world.events, r'.id = r.id → r'.status = r.status := by
  have hrun : (Pool.runWhile device workerProgram (fun s l => Calm s l && Orderly s l)
      (Pool.begin .empty) (publishOne ++ confirmOne ++ deliverOne)).any (fun s =>
        decide (s.world.status 1 = some .delivered) &&
          (s.runWhile device workerProgram (fun s l => Calm s l && Orderly s l)
            [.run 1 .done, .event (.tick 1), .start .relayTick, .run 2 .done]).any
            (fun _ => true)) = true := by decide +kernel
  obtain ⟨s, hs, hthen⟩ := Runs.exists_of_runWhile hrun
  rw [Bool.and_eq_true] at hthen
  obtain ⟨t, ht, -⟩ := Runs.exists_of_runWhile hthen.2
  obtain ⟨r, hr, -, hdelivered⟩ := World.of_status (of_decide_eq_true hthen.1)
  have hsteady : ∀ (s : Workers) l, (Calm s l && Orderly s l) = true → Steady s l := by
    intro s l h
    simpa using h
  refine ⟨s, t, ht.mono hsteady, r, hr, hdelivered, ?_⟩
  exact status_monotone (hs.mono hsteady) (ht.mono hsteady) hr (by rw [hdelivered]; rfl)

/-- The consumer delivers the event before the relay learns that it was
confirmed, and the tick then marks it published. -/
theorem delivered_then_published : ∃ s t : Workers,
    Workers.Reach (fun s l => Calm s l = true) s ∧
    Runs device workerProgram (fun s l => Calm s l = true) s t ∧
    (∃ r ∈ s.world.events, r.id = 1 ∧ r.status = .delivered) ∧
    ∃ r ∈ t.world.events, r.id = 1 ∧ r.status = .published := by
  have hrun : (Pool.runWhile device workerProgram Calm (Pool.begin .empty)
      (publishOne ++ deliverOne)).any (fun s => decide (s.world.status 1 = some .delivered) &&
        (s.runWhile device workerProgram Calm confirmOne).any
          (fun t => decide (t.world.status 1 = some .published))) = true := by decide +kernel
  obtain ⟨s, hs, hthen⟩ := Runs.exists_of_runWhile hrun
  rw [Bool.and_eq_true] at hthen
  obtain ⟨t, ht, hpublished⟩ := Runs.exists_of_runWhile hthen.2
  exact ⟨s, t, hs, ht, World.of_status (of_decide_eq_true hthen.1),
    World.of_status (of_decide_eq_true hpublished)⟩

end PaymentApis
