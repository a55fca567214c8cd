import PaymentApis.Delivery

/-!
# `webhook-worker.ts`

The polling worker: a tick claims the events that are due, for 60 seconds, and
delivers each of them. The deliveries of a tick run concurrently, and the next
tick does not wait for one that is still under way when another has failed, so
each delivery is a process of its own. Any number of workers share the tables.
-/

namespace PaymentApis

open TxStore Processes

/-! ## `webhooks/webhook-event.repository.ts` -/

namespace webhookEventRepository

/-- `status = 'pending' AND next_attempt_at <= now()`, of the rows no other
transaction has locked. -/
def due (now : ℕ) (locked : List Uuid) (r : WebhookEventRow) : Bool :=
  decide (r.status = .pending ∧ r.nextAttemptAt ≤ now ∧ r.id ∉ locked)

/-- The ids `claimDue` selects: `SKIP LOCKED`, earliest first. -/
def dueIds (w : World) (limit : ℕ) (locked : List Uuid) : List Uuid :=
  (((w.events.filter (due w.now locked)).insertionSort
    (fun a b => a.nextAttemptAt ≤ b.nextAttemptAt)).take limit).map (·.id)

def leasedUntil (t now : ℕ) (r : WebhookEventRow) : WebhookEventRow :=
  { r with nextAttemptAt := t, updatedAt := now }

def claimDue (limit leaseSeconds : ℕ) (locked : List Uuid) (w : World) :
    List WebhookEventRow × World :=
  let lease := leasedUntil (w.now + seconds leaseSeconds) w.now
  ((w.events.filter (fun r => decide (r.id ∈ dueIds w limit locked))).map lease,
    updateWhere (fun r => decide (r.id ∈ dueIds w limit locked)) lease w)

def markRetry (id : Uuid) (attempts backoffSeconds : ℕ) (error : String) (w : World) : World :=
  updateWhere (fun r => decide (r.id = id))
    (fun r => { r with
      attempts := attempts
      nextAttemptAt := w.now + seconds backoffSeconds
      lastError := some error
      updatedAt := w.now }) w

end webhookEventRepository

namespace WebhookWorker

/-! ## What the workers share -/

/-- The tables and the endpoints' servers; the ids the database has given out;
and the claimed events whose delivery is about to begin. -/
structure Outbox extends World where
  ids : List Uuid
  batch : List WebhookEventRow

def Outbox.empty : Outbox := ⟨.empty, [], []⟩

inductive Op
  | eventClaimDue (limit leaseSeconds : ℕ)
  /-- `events.map(deliverOne)`. -/
  | deliverAll (events : List WebhookEventRow)
  | endpointFindById (id : Uuid)
  | fetch (eventId : Uuid) (post : Post)
  | eventMarkDelivered (id : Uuid)
  | eventMarkRetry (id : Uuid) (attempts backoffSeconds : ℕ) (error : String)
  | eventMarkFailed (id : Uuid) (attempts : ℕ) (error : String)
deriving DecidableEq

@[reducible] def Answer : Op → Type
  | .eventClaimDue _ _ => List WebhookEventRow
  | .deliverAll _ => Unit
  | .endpointFindById _ => Option WebhookEndpointRow
  | .fetch _ _ => ℕ
  | .eventMarkDelivered _ => Unit
  | .eventMarkRetry _ _ _ _ => Unit
  | .eventMarkFailed _ _ _ => Unit

/-- How an action turns out: it takes effect (a claim skips the rows that are
locked), it fails with a message and has no effect, or a call of `fetch` is
answered with a status. -/
inductive Outcome
  | done (locked : List Uuid)
  | failed (message : String)
  | status (n : ℕ)
deriving DecidableEq

inductive Job
  | tick
  | deliverOne (event : WebhookEventRow)
deriving DecidableEq

/-- What happens around the workers. A transaction that began at `since` commits an
event for an active endpoint (`DEFAULT now()` is the time its transaction began);
with an endpoint its events go (`ON DELETE CASCADE`). -/
inductive Event
  | tick (n : ℕ)
  | enqueue (id endpointId : Uuid) (eventType : EventType) (payload : EventPayload) (since : ℕ)
  | register (row : WebhookEndpointRow)
  | deleteEndpoint (id : Uuid)
deriving DecidableEq

namespace Outbox

/-- A statement: it takes effect, or fails without taking effect. -/
def statement {α : Type} (o : Outcome) (w : Outbox) (f : List Uuid → α × World) :
    Option (Except String α × Outbox) :=
  match o with
  | .done locked => some (.ok (f locked).1, { w with toWorld := (f locked).2 })
  | .failed message => some (.error message, w)
  | .status _ => none

def act : (s : Op) → Outcome → Outbox → Option (Except String (Answer s) × Outbox)
  | .eventClaimDue limit lease, o, w =>
    statement o w (fun locked => webhookEventRepository.claimDue limit lease locked w.toWorld)
  | .deliverAll events, o, w =>
    match o with
    | .done _ => some (.ok (), { w with batch := w.batch ++ events })
    | _ => none
  | .endpointFindById id, o, w =>
    statement o w (fun _ => (w.endpoints.find? (fun r => decide (r.id = id)), w.toWorld))
  | .fetch id post, o, w =>
    match o with
    | .status n => some (.ok n, { w with attempts := w.attempts ++ [⟨id, post, some n⟩] })
    | .failed message =>
      some (.error message, { w with attempts := w.attempts ++ [⟨id, post, none⟩] })
    | .done _ => none
  | .eventMarkDelivered id, o, w =>
    statement o w (fun _ => ((), webhookEventRepository.markDelivered id w.toWorld))
  | .eventMarkRetry id n backoff e, o, w =>
    statement o w (fun _ => ((), webhookEventRepository.markRetry id n backoff e w.toWorld))
  | .eventMarkFailed id n e, o, w =>
    statement o w (fun _ => ((), webhookEventRepository.markFailed id n e w.toWorld))

/-- A delivery begins for an event of the batch. -/
def birth : Job → Outbox → Option Outbox
  | .tick, w => some w
  | .deliverOne event, w =>
    if event ∈ w.batch then some { w with batch := w.batch.erase event } else none

def event : Event → Outbox → Option Outbox
  | .tick n, w => some { w with now := w.now + n }
  | .enqueue id endpointId type payload since, w =>
    match w.endpoints.find? (fun e => decide (e.id = endpointId) && e.isActive) with
    | none => none
    | some e =>
      if since ≤ w.now ∧ id ∉ w.ids then
        some { w with
          events := w.events ++ [.enqueued id e.merchantId endpointId type payload since]
          ids := id :: w.ids }
      else none
  | .register row, w =>
    if row.id ∈ w.ids then none
    else some { w with endpoints := w.endpoints ++ [row], ids := row.id :: w.ids }
  | .deleteEndpoint id, w =>
    some { w with
      endpoints := w.endpoints.filter (fun e => decide (e.id ≠ id))
      events := w.events.filter (fun r => decide (r.endpointId ≠ id)) }

end Outbox

/-- A worker that is gone takes its deliveries with it, one by one. -/
def device : Processes.Device Outbox Op Answer String Outcome Job Event where
  act := fun _ _ => Outbox.act
  birth := fun _ => Outbox.birth
  crash := fun _ _ w => w
  event := Outbox.event

abbrev Script := Processes.Script Op Answer String

abbrev Done := Processes.Did Op Answer String

abbrev Task := Processes.Member Op Answer String Job Unit

abbrev Tasks := Processes.Pool Outbox Op Answer String Job Unit

abbrev Turn := Processes.Label Outcome Job Event

abbrev act (s : Op) : Script (Answer s) := Client.exec s

/-! ## The worker -/

def BATCH_SIZE : ℕ := 10

def MAX_ATTEMPTS : ℕ := 5

def leaseSeconds : ℕ := 60

def backoffSeconds (attempt : ℕ) : ℕ := min (5 * 2 ^ (attempt - 1)) 300

/-- What `fetch` is called with for an event. -/
def request (event : WebhookEventRow) (endpoint : WebhookEndpointRow) : Post :=
  ⟨endpoint.url, event.eventType, signPayload endpoint.secret event.payload, event.payload⟩

/-- The `try` block. -/
def deliverTo (event : WebhookEventRow) (endpoint : WebhookEndpointRow) : Script Unit := do
  let status ← act (.fetch event.id (request event endpoint))
  if isOk status then act (.eventMarkDelivered event.id)
  else .throw ("non-2xx response: " ++ toString status)

/-- The `catch` block. -/
def retryOrFail (event : WebhookEventRow) (message : String) : Script Unit :=
  if MAX_ATTEMPTS ≤ event.attempts + 1 then
    act (.eventMarkFailed event.id (event.attempts + 1) message)
  else
    act (.eventMarkRetry event.id (event.attempts + 1) (backoffSeconds (event.attempts + 1))
      message)

def deliverOne (event : WebhookEventRow) : Script Unit := do
  let endpoint ← act (.endpointFindById event.endpointId)
  match endpoint with
  | none => act (.eventMarkFailed event.id (event.attempts + 1) "endpoint deleted")
  | some endpoint => (deliverTo event endpoint).tryCatch (retryOrFail event)

def tick : Script Unit := do
  let events ← act (.eventClaimDue BATCH_SIZE leaseSeconds)
  if 0 < events.length then act (.deliverAll events) else return ()

def program : Job → Script Unit
  | .tick => tick
  | .deliverOne event => deliverOne event

/-! ## What a record says -/

/-- The events a tick has claimed. -/
def claims : Done → List WebhookEventRow
  | ⟨.eventClaimDue _ _, .ok events⟩ => events
  | _ => []

/-- The deliveries of a tick have been started. -/
def starts : Done → Bool
  | ⟨.deliverAll _, _⟩ => true
  | _ => false

/-- The endpoint is gone. -/
def misses : Done → Bool
  | ⟨.endpointFindById _, .ok none⟩ => true
  | _ => false

/-- A call of `fetch`, also one that comes to nothing. -/
def posts : Done → Bool
  | ⟨.fetch _ _, _⟩ => true
  | _ => false

/-- The endpoint answers with a 2xx. -/
def answers : Done → Bool
  | ⟨.fetch _ _, .ok status⟩ => isOk status
  | _ => false

/-- The outcome is written down. -/
def marks : Done → Bool
  | ⟨.eventMarkDelivered _, .ok _⟩ => true
  | ⟨.eventMarkRetry _ _ _ _, .ok _⟩ => true
  | ⟨.eventMarkFailed _ _ _, .ok _⟩ => true
  | _ => false

/-- The delivery cannot be written down. -/
def slips : Done → Bool
  | ⟨.eventMarkDelivered _, .error _⟩ => true
  | _ => false

/-- What a tick does after what. -/
def tickMay (log : List Done) : Op → Prop
  | .eventClaimDue limit lease => limit = BATCH_SIZE ∧ lease = leaseSeconds ∧ log = []
  | .deliverAll events => events = log.flatMap claims ∧ log.any starts = false
  | _ => False

/-- What the delivery of an event does after what. -/
def deliverMay (event : WebhookEventRow) (log : List Done) : Op → Prop
  | .endpointFindById id => id = event.endpointId ∧ log = []
  | .fetch id post => id = event.id ∧ ∃ endpoint,
      log = [⟨.endpointFindById event.endpointId, .ok (some endpoint)⟩] ∧
        post = request event endpoint
  | .eventMarkDelivered id => id = event.id ∧ log.any answers = true ∧ log.any marks = false
  | .eventMarkRetry id n backoff _ => id = event.id ∧ n = event.attempts + 1 ∧
      n < MAX_ATTEMPTS ∧ backoff = backoffSeconds n ∧ log.any posts = true ∧
      (log.any answers = true → log.any slips = true) ∧ log.any marks = false
  | .eventMarkFailed id n _ => id = event.id ∧ n = event.attempts + 1 ∧
      (log.any misses = true ∨ MAX_ATTEMPTS ≤ n ∧ log.any posts = true) ∧
      (log.any answers = true → log.any slips = true) ∧ log.any marks = false
  | _ => False

def may : Job → List Done → Op → Prop
  | .tick => tickMay
  | .deliverOne event => deliverMay event

/-- Starting the deliveries does not fail. -/
def gives (_ : List Done) : (s : Op) → Except String (Answer s) → Prop
  | .deliverAll _, r => r.isOk = true
  | _, _ => True

theorem gives_act {s : Op} {o : Outcome} {w w' : Outbox} {r : Except String (Answer s)}
    (h : Outbox.act s o w = some (r, w')) (log : List Done) : gives log s r := by
  cases s with
  | deliverAll events =>
    cases o with
    | done locked =>
      obtain ⟨rfl, -⟩ := Prod.mk.inj (Option.some.inj h)
      rfl
    | failed message => cases h
    | status n => cases h
  | _ => trivial

section Scripts

variable {event : WebhookEventRow} {log : List Done}

/-- The record of a delivery whose outcome is still to be written down. -/
structure Unmarked (log : List Done) : Prop where
  posted : log.any posts = true
  unmarked : log.any marks = false

theorem tick_issues : Issues gives tickMay (fun _ _ => True) (fun _ _ => True) [] tick := by
  refine Issues.bind (Q := fun log events => log.flatMap claims = events ∧ log.any starts = false)
    ?_ (Issues.exec ⟨rfl, rfl, rfl⟩ ?_ (fun _ _ => trivial))
  · rintro log events ⟨hclaims, hstarts⟩
    split
    · exact Issues.exec ⟨hclaims.symm, hstarts⟩ (fun _ _ => trivial) (fun _ _ => trivial)
    · trivial
  · intro events _
    exact ⟨by simp [claims], rfl⟩

theorem retryOrFail_issues {message : String} (h : Unmarked log)
    (hslips : log.any answers = true → log.any slips = true) :
    Issues gives (deliverMay event) (fun _ _ => True) (fun _ _ => True) log
      (retryOrFail event message) := by
  unfold retryOrFail
  split
  · rename_i hlast
    exact Issues.exec ⟨rfl, rfl, .inr ⟨hlast, h.posted⟩, hslips, h.unmarked⟩
      (fun _ _ => trivial) (fun _ _ => trivial)
  · rename_i hlast
    exact Issues.exec ⟨rfl, rfl, not_le.mp hlast, rfl, h.posted, hslips, h.unmarked⟩
      (fun _ _ => trivial) (fun _ _ => trivial)

/-- Where the `try` block ends in an error, no 2xx has been written down. -/
theorem deliverTo_issues {endpoint : WebhookEndpointRow} :
    Issues gives (deliverMay event) (fun _ _ => True)
      (fun log _ => Unmarked log ∧ (log.any answers = true → log.any slips = true))
      [⟨.endpointFindById event.endpointId, .ok (some endpoint)⟩] (deliverTo event endpoint) := by
  refine Issues.bind (Q := fun log status => Unmarked log ∧ log.any slips = false ∧
    log.any answers = isOk status) ?_ (Issues.exec ⟨rfl, endpoint, rfl, rfl⟩ ?_ ?_)
  · rintro log status ⟨h, hslips, hanswers⟩
    split
    · rename_i hok
      refine Issues.exec ⟨rfl, by rw [hanswers, hok], h.unmarked⟩ (fun _ _ => trivial) ?_
      intro e _
      refine ⟨⟨?_, ?_⟩, ?_⟩
      · simp [h.posted]
      · simpa [marks] using h.unmarked
      · simp [slips]
    · rename_i hok
      exact ⟨h, fun hanswered => absurd (hanswers ▸ hanswered) hok⟩
  · intro status _
    exact ⟨⟨by simp [posts], by simp [marks]⟩, by simp [slips], by simp [answers]⟩
  · intro e _
    exact ⟨⟨by simp [posts], by simp [marks]⟩, by simp [answers]⟩

theorem deliverOne_issues (event : WebhookEventRow) :
    Issues gives (deliverMay event) (fun _ _ => True) (fun _ _ => True) [] (deliverOne event) := by
  refine Issues.bind (Q := fun log endpoint =>
    log = [⟨.endpointFindById event.endpointId, .ok endpoint⟩]) ?_
    (Issues.exec ⟨rfl, rfl⟩ (fun _ _ => rfl) (fun _ _ => trivial))
  rintro log endpoint rfl
  cases endpoint with
  | none =>
    refine Issues.exec ⟨rfl, rfl, .inl rfl, ?_, rfl⟩ (fun _ _ => trivial) (fun _ _ => trivial)
    intro hanswers
    cases hanswers
  | some endpoint =>
    refine Issues.tryCatch ?_ deliverTo_issues
    rintro log e ⟨h, hslips⟩
    exact retryOrFail_issues h hslips

end Scripts

/-- What is known of the workers' records. -/
def discipline : Discipline device program where
  Gives := gives
  May := may
  gives := fun _ hact => gives_act hact _
  issues := by
    intro j
    cases j with
    | tick => exact tick_issues
    | deliverOne event => exact deliverOne_issues event

/-! ## Runs -/

/-- The states reached from the empty tables by steps that satisfy `ok`. -/
abbrev Tasks.Reach (ok : Tasks → Turn → Prop) (s : Tasks) : Prop :=
  Runs device program ok (Pool.begin .empty) s

end WebhookWorker

end PaymentApis
