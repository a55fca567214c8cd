import PaymentApis.Schema
import PaymentApis.Lib.Broker
import PaymentApis.Lib.Processes

/-!
# What the webhook workers act on

The `webhook_events` and `webhook_endpoints` tables, the RabbitMQ topology of
`webhooks/rabbit/topology.ts`, and the merchants' servers. The workers use
single statements only, each of which commits by itself; a message is in its
queue from the moment the broker takes it, which may be before its publisher
learns that it was confirmed.

Signatures are symbolic: `signPayload` is the pair of the secret and the body.
-/

namespace PaymentApis

open TxStore

/-! ## `webhooks/rabbit/topology.ts` -/

inductive Exchange
  | webhooks
  | webhooksRetry
  | webhooksDead
deriving DecidableEq

inductive Queue
  | deliver
  | retry
  | dead
deriving DecidableEq

abbrev EXCHANGE : Exchange := .webhooks

abbrev EXCHANGE_RETRY : Exchange := .webhooksRetry

abbrev EXCHANGE_DEAD : Exchange := .webhooksDead

abbrev Q_DELIVER : Queue := .deliver

abbrev Q_RETRY : Queue := .retry

abbrev Q_DEAD : Queue := .dead

def ROUTING_KEY : String := "deliver"

/-- What `assertTopology` declares. -/
def topology : Broker.Topology Exchange Queue String where
  bindings := [(Q_DELIVER, EXCHANGE, ROUTING_KEY), (Q_RETRY, EXCHANGE_RETRY, ROUTING_KEY),
    (Q_DEAD, EXCHANGE_DEAD, ROUTING_KEY)]
  deadLetter
    | .deliver => none
    | .retry => some (EXCHANGE, ROUTING_KEY)
    | .dead => none

@[simp] theorem route_webhooks : topology.route EXCHANGE ROUTING_KEY = [.deliver] := rfl

@[simp] theorem route_webhooksRetry : topology.route EXCHANGE_RETRY ROUTING_KEY = [.retry] := rfl

@[simp] theorem route_webhooksDead : topology.route EXCHANGE_DEAD ROUTING_KEY = [.dead] := rfl

/-- The JSON content of a message. -/
structure MessageContent where
  outboxId : Uuid
  endpointId : Uuid
  eventType : EventType
  payload : EventPayload
deriving DecidableEq

/-- A message with its `x-attempts` header. -/
structure Message where
  content : MessageContent
  xAttempts : Option ℕ
deriving DecidableEq

abbrev MessageBroker := Broker.State Queue Message

/-! ## The world -/

structure Signature where
  secret : String
  body : EventPayload
deriving DecidableEq

def signPayload (secret : String) (body : EventPayload) : Signature := ⟨secret, body⟩

/-- What `fetch` is called with: the endpoint's URL, the headers and the body. -/
structure Post where
  url : String
  eventType : EventType
  signature : Signature
  body : EventPayload
deriving DecidableEq

/-- A call of `fetch` for an event, and the status that came back; the requests
that following a redirect adds to a call are not told apart. -/
structure Attempt where
  outboxId : Uuid
  post : Post
  status : Option ℕ
deriving DecidableEq

/-- `res.ok`. -/
def isOk (status : ℕ) : Bool := decide (200 ≤ status ∧ status < 300)

structure World where
  now : ℕ
  events : List WebhookEventRow
  endpoints : List WebhookEndpointRow
  broker : MessageBroker
  /-- Relay ticks some of whose publishes the broker has not kept. -/
  refused : List ℕ
  attempts : List Attempt
  /-- Processes whose channel is closed. -/
  closed : List ℕ

def World.empty : World := ⟨0, [], [], .empty, [], [], []⟩

/-! ## `webhooks/webhook-event.repository.ts` -/

namespace webhookEventRepository

/-- `UPDATE webhook_events SET ... WHERE ...`. -/
def updateWhere (p : WebhookEventRow → Bool) (g : WebhookEventRow → WebhookEventRow)
    (w : World) : World :=
  { w with events := w.events.map (fun r => if p r then g r else r) }

/-- The ids `claimForPublishing` selects: pending, oldest first. -/
def pendingIds (w : World) (limit : ℕ) : List Uuid :=
  (((w.events.filter (fun r => decide (r.status = .pending))).insertionSort
    (fun a b => a.createdAt ≤ b.createdAt)).take limit).map (·.id)

def publishingFrom (now : ℕ) (r : WebhookEventRow) : WebhookEventRow :=
  { r with status := .publishing, updatedAt := now }

def claimForPublishing (limit : ℕ) (w : World) : List WebhookEventRow × World :=
  ((w.events.filter (fun r => decide (r.id ∈ pendingIds w limit))).map (publishingFrom w.now),
    updateWhere (fun r => decide (r.id ∈ pendingIds w limit)) (publishingFrom w.now) w)

def markPublished (ids : List Uuid) (w : World) : World :=
  updateWhere (fun r => decide (r.id ∈ ids))
    (fun r => { r with status := .published, updatedAt := w.now }) w

def resetToPending (ids : List Uuid) (w : World) : World :=
  updateWhere (fun r => decide (r.id ∈ ids))
    (fun r => { r with status := .pending, updatedAt := w.now }) w

/-- `status = 'publishing' AND updated_at < now() - staleSeconds`. -/
def stale (now staleSeconds : ℕ) (r : WebhookEventRow) : Bool :=
  decide (r.status = .publishing ∧ r.updatedAt + seconds staleSeconds < now)

def reapStalePublishing (staleSeconds : ℕ) (w : World) : ℕ × World :=
  (w.events.countP (stale w.now staleSeconds),
    updateWhere (stale w.now staleSeconds)
      (fun r => { r with status := .pending, updatedAt := w.now }) w)

def markDelivered (id : Uuid) (w : World) : World :=
  updateWhere (fun r => decide (r.id = id))
    (fun r => { r with status := .delivered, updatedAt := w.now }) w

def markFailed (id : Uuid) (attempts : ℕ) (error : String) (w : World) : World :=
  updateWhere (fun r => decide (r.id = id))
    (fun r => { r with
      status := .failed
      attempts := attempts
      lastError := some error
      updatedAt := w.now }) w

end webhookEventRepository

/-! ## Actions -/

inductive Op
  | eventReapStalePublishing (staleSeconds : ℕ)
  | eventClaimForPublishing (limit : ℕ)
  | eventMarkPublished (ids : List Uuid)
  | eventResetToPending (ids : List Uuid)
  | eventMarkDelivered (id : Uuid)
  | eventMarkFailed (id : Uuid) (attempts : ℕ) (error : String)
  | endpointFindById (id : Uuid)
  /-- `pubChannel.publish`, on the relay's confirm channel. -/
  | confirmPublish (x : Exchange) (key : String) (m : Message)
  | waitForConfirms
  /-- `channel.publish`, with the `expiration` in milliseconds. -/
  | publish (x : Exchange) (key : String) (m : Message) (expiration : Option ℕ)
  | fetch (outboxId : Uuid) (post : Post)
  | ack
  | nack
deriving DecidableEq

@[reducible] def Answer : Op → Type
  | .eventReapStalePublishing _ => ℕ
  | .eventClaimForPublishing _ => List WebhookEventRow
  | .eventMarkPublished _ => Unit
  | .eventResetToPending _ => Unit
  | .eventMarkDelivered _ => Unit
  | .eventMarkFailed _ _ _ => Unit
  | .endpointFindById _ => Option WebhookEndpointRow
  | .confirmPublish _ _ _ => Unit
  | .waitForConfirms => Unit
  | .publish _ _ _ _ => Unit
  | .fetch _ _ => ℕ
  | .ack => Unit
  | .nack => Unit

/-- How an action turns out: it takes effect, it fails with a message, or a
request is answered with a status. -/
inductive Outcome
  | done
  | failed (message : String)
  | status (n : ℕ)
deriving DecidableEq

/-- What a worker process does: one relay tick, or one message handed to it as
consumer number `consumer`. -/
inductive WorkerJob
  | relayTick
  | handle (consumer : ℕ) (msg : Message)
deriving DecidableEq

/-- What happens around the workers. -/
inductive Event
  | tick (n : ℕ)
  /-- A transaction that began at `since` commits an event (`DEFAULT now()` is
  the time its transaction began). -/
  | enqueue (id merchantId endpointId : Uuid) (eventType : EventType) (payload : EventPayload)
      (since : ℕ)
  | register (row : WebhookEndpointRow)
  | expire
deriving DecidableEq

/-- A statement: it takes effect, or fails without taking effect. -/
def statement {α : Type} (o : Outcome) (w : World) (x : α × World) :
    Option (Except String α × World) :=
  match o with
  | .done => some (.ok x.1, x.2)
  | .failed message => some (.error message, w)
  | .status _ => none

def PREFETCH : ℕ := 10

def milliseconds (n : ℕ) : ℕ := 1000 * n

namespace World

/-- The action of process `i`, whose channel is open. A publish the broker does
not keep goes unnoticed until the confirms are awaited, and then they are not all
there. -/
def act (i : ℕ) : (s : Op) → Outcome → World → Option (Except String (Answer s) × World)
  | .eventReapStalePublishing n, o, w =>
    statement o w (webhookEventRepository.reapStalePublishing n w)
  | .eventClaimForPublishing n, o, w =>
    statement o w (webhookEventRepository.claimForPublishing n w)
  | .eventMarkPublished ids, o, w =>
    statement o w ((), webhookEventRepository.markPublished ids w)
  | .eventResetToPending ids, o, w =>
    statement o w ((), webhookEventRepository.resetToPending ids w)
  | .eventMarkDelivered id, o, w => statement o w ((), webhookEventRepository.markDelivered id w)
  | .eventMarkFailed id n e, o, w =>
    statement o w ((), webhookEventRepository.markFailed id n e w)
  | .endpointFindById id, o, w =>
    statement o w (w.endpoints.find? (fun r => decide (r.id = id)), w)
  | .confirmPublish x key m, o, w =>
    match o with
    | .done => some (.ok (), { w with broker := w.broker.publish topology x key m none })
    | .failed _ => some (.ok (), { w with refused := i :: w.refused })
    | .status _ => none
  | .waitForConfirms, o, w =>
    match o with
    | .done => if i ∈ w.refused then none else some (.ok (), w)
    | .failed message => some (.error message, w)
    | .status _ => none
  | .publish x key m expiration, o, w =>
    match o with
    | .done =>
      let expiresAt := expiration.map (fun n => w.now + milliseconds n)
      some (.ok (), { w with broker := w.broker.publish topology x key m expiresAt })
    | _ => none
  | .fetch id post, o, w =>
    match o with
    | .status n => some (.ok n, { w with attempts := w.attempts ++ [⟨id, post, some n⟩] })
    | .failed message =>
      some (.error message, { w with attempts := w.attempts ++ [⟨id, post, none⟩] })
    | .done => none
  | .ack, o, w =>
    match o with
    | .done => some (.ok (), { w with broker := w.broker.ack i })
    | _ => none
  | .nack, o, w =>
    match o with
    | .done => some (.ok (), { w with broker := w.broker.nack topology i })
    | _ => none

/-- A handler begins when the broker hands its message over. -/
def birth (i : ℕ) : WorkerJob → World → Option World
  | .relayTick, w => some w
  | .handle c msg, w =>
    match w.broker.deliver PREFETCH i c Q_DELIVER with
    | some (m, b) => if m = msg then some { w with broker := b } else none
    | none => none

/-- The message of a handler that is gone is handed out again. -/
def crash (i : ℕ) : WorkerJob → World → World
  | .relayTick, w => w
  | .handle _ _, w => { w with broker := w.broker.requeue i }

def event : Event → World → Option World
  | .tick n, w => some { w with now := w.now + n }
  | .enqueue id m e type payload since, w =>
    if since ≤ w.now ∧ w.events.all (fun r => decide (r.id ≠ id)) then
      some { w with events := w.events ++ [.enqueued id m e type payload since] }
    else none
  | .register row, w => some { w with endpoints := w.endpoints ++ [row] }
  | .expire, w => (w.broker.expire topology w.now Q_RETRY).map (fun b => { w with broker := b })

theorem enqueue_eq_some {id m e since : ℕ} {type : EventType} {payload : EventPayload}
    {w w' : World} (h : event (.enqueue id m e type payload since) w = some w') :
    since ≤ w.now ∧ id ∉ w.events.map (·.id) ∧
      w' = { w with events := w.events ++ [.enqueued id m e type payload since] } := by
  simp only [event] at h
  split at h
  · rename_i hnew
    obtain ⟨hsince, hfresh⟩ := hnew
    refine ⟨hsince, ?_, (Option.some.inj h).symm⟩
    simpa using hfresh
  · cases h

end World

def device : Processes.Device World Op Answer String Outcome WorkerJob Event where
  act := fun i _ => World.act i
  birth := World.birth
  crash := World.crash
  event := World.event

end PaymentApis
