import PaymentApis.Delivery

/-!
# `rabbit-worker.ts`

The relay moves pending outbox rows to the broker: claim, publish, wait for the
confirms, mark. The consumer posts a message to its endpoint, and acknowledges
it after it was delivered, sent to the retry queue or dead-lettered.
-/

namespace PaymentApis

open TxStore Processes

abbrev Script := Processes.Script Op Answer String

abbrev Done := Processes.Did Op Answer String

abbrev Worker := Processes.Member Op Answer String WorkerJob Unit

abbrev Workers := Processes.Pool World Op Answer String WorkerJob Unit

abbrev Turn := Processes.Label Outcome WorkerJob Event

abbrev act (s : Op) : Script (Answer s) := Client.exec s

def RELAY_BATCH : ℕ := 20

def MAX_ATTEMPTS : ℕ := 5

def PUBLISHING_STALE_SECONDS : ℕ := 30

def backoffMs (attempt : ℕ) : ℕ := min (5000 * 2 ^ (attempt - 1)) 300000

/-! ## Relay -/

/-- The message of an outbox row. -/
def toMessage (row : WebhookEventRow) : Message :=
  ⟨⟨row.id, row.endpointId, row.eventType, row.payload⟩, some 1⟩

def publishAll : List WebhookEventRow → Script Unit
  | [] => return ()
  | row :: rows => do
    act (.confirmPublish EXCHANGE ROUTING_KEY (toMessage row))
    publishAll rows

/-- Phases 2 and 3. -/
def publishBatch (rows : List WebhookEventRow) : Script Unit := do
  publishAll rows
  act .waitForConfirms
  act (.eventMarkPublished (rows.map (·.id)))

def relayTick : Script Unit := do
  let _ ← act (.eventReapStalePublishing PUBLISHING_STALE_SECONDS)
  let rows ← act (.eventClaimForPublishing RELAY_BATCH)
  if rows = [] then return ()
  else (publishBatch rows).tryCatch (fun _ => act (.eventResetToPending (rows.map (·.id))))

/-- A tick that takes up to `batch` rows. -/
def relayTickOf (batch : ℕ) : Script Unit := do
  let _ ← act (.eventReapStalePublishing PUBLISHING_STALE_SECONDS)
  let rows ← act (.eventClaimForPublishing batch)
  if rows = [] then return ()
  else (publishBatch rows).tryCatch (fun _ => act (.eventResetToPending (rows.map (·.id))))

theorem relayTick_eq : relayTick = relayTickOf RELAY_BATCH := rfl

/-! ## Consumer -/

/-- The attempt a message carries. -/
def Message.attempt (msg : Message) : ℕ := msg.xAttempts.getD 1

/-- The endpoint is gone. -/
def endpointDeleted (msg : Message) : Script Unit := do
  act (.publish EXCHANGE_DEAD ROUTING_KEY ⟨msg.content, none⟩ none)
  act (.eventMarkFailed msg.content.outboxId msg.attempt "endpoint deleted")
  act .ack

/-- The inner `try` block. -/
def deliverTo (msg : Message) (endpoint : WebhookEndpointRow) : Script Unit := do
  let status ← act (.fetch msg.content.outboxId
    ⟨endpoint.url, msg.content.eventType, signPayload endpoint.secret msg.content.payload,
      msg.content.payload⟩)
  if isOk status then
    act (.eventMarkDelivered msg.content.outboxId)
    act .ack
  else .throw ("non-2xx response: " ++ toString status)

/-- The inner `catch` block. -/
def retryOrDeadLetter (msg : Message) (message : String) : Script Unit := do
  if MAX_ATTEMPTS ≤ msg.attempt then
    act (.publish EXCHANGE_DEAD ROUTING_KEY ⟨msg.content, some msg.attempt⟩ none)
    act (.eventMarkFailed msg.content.outboxId msg.attempt message)
  else
    act (.publish EXCHANGE_RETRY ROUTING_KEY ⟨msg.content, some (msg.attempt + 1)⟩
      (some (backoffMs msg.attempt)))
  act .ack

def handle (msg : Message) : Script Unit :=
  (do
    let endpoint ← act (.endpointFindById msg.content.endpointId)
    match endpoint with
    | none => endpointDeleted msg
    | some endpoint => (deliverTo msg endpoint).tryCatch (retryOrDeadLetter msg)).tryCatch
  (fun _ => act .nack)

def workerProgram : WorkerJob → Script Unit
  | .relayTick => relayTick
  | .handle _ msg => handle msg

/-! ## What a record says -/

/-- Some entry of the record satisfies `p`. -/
def did (p : Done → Bool) (log : List Done) : Bool := log.any p

@[simp] theorem did_nil (p : Done → Bool) : did p [] = false := rfl

@[simp] theorem did_append (p : Done → Bool) (log : List Done) (d : Done) :
    did p (log ++ [d]) = (did p log || p d) := by
  simp [did]

def claims : Done → List Uuid
  | ⟨.eventClaimForPublishing _, .ok rows⟩ => rows.map (·.id)
  | _ => []

/-- The events a relay tick has claimed. -/
def claimed (log : List Done) : List Uuid := log.flatMap claims

def publishes : Done → List Uuid
  | ⟨.confirmPublish _ _ m, .ok _⟩ => [m.content.outboxId]
  | _ => []

/-- The events it has published, in order. -/
def published (log : List Done) : List Uuid := log.flatMap publishes

@[simp] theorem claimed_nil : claimed [] = [] := rfl

@[simp] theorem published_nil : published [] = [] := rfl

@[simp] theorem claimed_append (log : List Done) (d : Done) :
    claimed (log ++ [d]) = claimed log ++ claims d := by
  simp [claimed]

@[simp] theorem published_append (log : List Done) (d : Done) :
    published (log ++ [d]) = published log ++ publishes d := by
  simp [published]

/-- The broker has confirmed the whole batch. -/
def confirms : Done → Bool
  | ⟨.waitForConfirms, .ok _⟩ => true
  | _ => false

/-- The batch cannot be published, is not confirmed, or cannot be marked. -/
def unconfirms : Done → Bool
  | ⟨.confirmPublish _ _ _, .error _⟩ => true
  | ⟨.waitForConfirms, .error _⟩ => true
  | ⟨.eventMarkPublished _, .error _⟩ => true
  | _ => false

/-- The batch is marked published, or reset. -/
def releases : Done → Bool
  | ⟨.eventMarkPublished _, .ok _⟩ => true
  | ⟨.eventResetToPending _, .ok _⟩ => true
  | _ => false

/-- The endpoint cannot be looked up. -/
def lookupFails : Done → Bool
  | ⟨.endpointFindById _, .error _⟩ => true
  | _ => false

/-- The endpoint answers with a 2xx. -/
def answers : Done → Bool
  | ⟨.fetch _ _, .ok status⟩ => isOk status
  | _ => false

def deadLetters : Done → Bool
  | ⟨.publish .webhooksDead _ _ _, _⟩ => true
  | _ => false

def retries : Done → Bool
  | ⟨.publish .webhooksRetry _ _ _, _⟩ => true
  | _ => false

/-- The event is marked delivered or failed. -/
def marks : Done → Bool
  | ⟨.eventMarkDelivered _, .ok _⟩ => true
  | ⟨.eventMarkFailed _ _ _, .ok _⟩ => true
  | _ => false

/-- The message is no longer the handler's to account for. -/
def handsOver (d : Done) : Bool := answers d || deadLetters d || retries d

theorem did_handsOver (log : List Done) :
    did handsOver log = (did answers log || did deadLetters log || did retries log) := by
  induction log with
  | nil => rfl
  | cons d log ih =>
    simp only [did, List.any_cons] at ih ⊢
    rw [ih, handsOver]
    cases answers d <;> cases deadLetters d <;> cases retries d <;> simp

/-- What a relay tick does after what. -/
def relayMay (log : List Done) : Op → Prop
  | .eventReapStalePublishing _ => log = []
  | .eventClaimForPublishing _ => claimed log = [] ∧ published log = [] ∧ did releases log = false
  | .confirmPublish x key m => x = EXCHANGE ∧ key = ROUTING_KEY ∧
      (∃ rest, claimed log = published log ++ m.content.outboxId :: rest) ∧
      did confirms log = false ∧ did releases log = false
  | .waitForConfirms => published log = claimed log ∧ did releases log = false
  | .eventMarkPublished ids => ids = claimed log ∧ published log = claimed log ∧
      did confirms log = true ∧ did releases log = false
  | .eventResetToPending ids => ids = claimed log ∧ did unconfirms log = true ∧
      did releases log = false
  | _ => False

/-- What the handler of a message does after what. -/
def handleMay (msg : Message) (log : List Done) : Op → Prop
  | .endpointFindById id => id = msg.content.endpointId ∧ log = []
  | .fetch id _ => id = msg.content.outboxId ∧ did handsOver log = false ∧ did marks log = false
  | .eventMarkDelivered id => id = msg.content.outboxId ∧ did answers log = true ∧
      did retries log = false ∧ did marks log = false
  | .publish x key m expiration => key = ROUTING_KEY ∧ m.content = msg.content ∧
      did retries log = false ∧ did marks log = false ∧
      (x = EXCHANGE_DEAD ∧ expiration = none ∨
        x = EXCHANGE_RETRY ∧ m.xAttempts = some (msg.attempt + 1) ∧ msg.attempt < MAX_ATTEMPTS ∧
          expiration = some (backoffMs msg.attempt))
  | .eventMarkFailed id _ _ => id = msg.content.outboxId ∧ did deadLetters log = true ∧
      did retries log = false ∧ did marks log = false
  | .ack => did handsOver log = true
  | .nack => did lookupFails log = true ∨ did deadLetters log = true
  | _ => False

def may : WorkerJob → List Done → Op → Prop
  | .relayTick => relayMay
  | .handle _ msg => handleMay msg

/-- Publishing on a channel that is open, and acknowledging, do not fail. -/
def gives (_ : List Done) : (s : Op) → Except String (Answer s) → Prop
  | .publish _ _ _ _, r => r.isOk = true
  | .ack, r => r.isOk = true
  | .nack, r => r.isOk = true
  | _, _ => True

theorem gives_act {i : ℕ} {s : Op} {o : Outcome} {w w' : World} {r : Except String (Answer s)}
    (h : World.act i s o w = some (r, w')) (log : List Done) : gives log s r := by
  cases s <;> cases o <;> simp_all [World.act, gives, Except.isOk, Except.toBool] <;> grind

/-! ## The scripts keep to it -/

section Scripts

variable {α : Type} {V : List Done → (s : Op) → Except String (Answer s) → Prop}
  {Q : List Done → α → Prop} {X : List Done → String → Prop}

/-- The record of a tick that has claimed `rows` and has `rest` still to publish. -/
structure Publishing (rows rest : List WebhookEventRow) (log : List Done) : Prop where
  batch : claimed log = rows.map (·.id)
  sent : claimed log = published log ++ rest.map (·.id)
  waiting : did confirms log = false
  unreleased : did releases log = false

/-- The record of a tick whose batch was not published, not confirmed, or not
marked. -/
def Failed (rows : List WebhookEventRow) (log : List Done) : Prop :=
  claimed log = rows.map (·.id) ∧ did unconfirms log = true ∧ did releases log = false

theorem publishAll_issues {rows : List WebhookEventRow} : ∀ {rest : List WebhookEventRow}
    {log : List Done}, Publishing rows rest log →
    Issues V relayMay (fun log _ => Publishing rows [] log) (fun log _ => Failed rows log) log
      (publishAll rest)
  | [], _, h => h
  | row :: rest, log, h => by
      refine Issues.bind (Q := fun log _ => Publishing rows rest log)
        (fun log _ h' => publishAll_issues h') (Issues.exec ?_ ?_ ?_)
      · exact ⟨rfl, rfl, by simpa [toMessage] using ⟨_, h.sent⟩, h.waiting, h.unreleased⟩
      · intro r _
        refine ⟨?_, ?_, ?_, ?_⟩
        · simp [claims, h.batch]
        · simp [claims, publishes, h.sent, toMessage]
        · simp [confirms, h.waiting]
        · simp [releases, h.unreleased]
      · intro e _
        refine ⟨?_, ?_, ?_⟩
        · simp [claims, h.batch]
        · simp [unconfirms]
        · simp [releases, h.unreleased]

theorem publishBatch_issues {rows : List WebhookEventRow} {log : List Done}
    (h : Publishing rows rows log) :
    Issues V relayMay (fun _ _ => True) (fun log _ => Failed rows log) log
      (publishBatch rows) := by
  refine Issues.bind ?_ (publishAll_issues h)
  intro log _ h
  refine Issues.bind (Q := fun log _ => claimed log = rows.map (·.id) ∧
    published log = claimed log ∧ did confirms log = true ∧ did releases log = false)
    ?_ (Issues.exec ?_ ?_ ?_)
  · rintro log - ⟨hbatch, hsent, hconfirmed, hunreleased⟩
    refine Issues.exec ⟨hbatch.symm, hsent, hconfirmed, hunreleased⟩ (fun _ _ => trivial) ?_
    intro e _
    refine ⟨?_, ?_, ?_⟩
    · simp [claims, hbatch]
    · simp [unconfirms]
    · simp [releases, hunreleased]
  · exact ⟨by simpa using h.sent.symm, h.unreleased⟩
  · intro _ _
    refine ⟨?_, ?_, ?_, ?_⟩
    · simp [claims, h.batch]
    · simp [claims, publishes, h.sent]
    · simp [confirms]
    · simp [releases, h.unreleased]
  · intro e _
    refine ⟨?_, ?_, ?_⟩
    · simp [claims, h.batch]
    · simp [unconfirms]
    · simp [releases, h.unreleased]

theorem relayTickOf_issues (batch : ℕ) :
    Issues V relayMay (fun _ _ => True) (fun _ _ => True) [] (relayTickOf batch) := by
  refine Issues.bind (Q := fun log _ => claimed log = [] ∧ published log = [] ∧
    did confirms log = false ∧ did releases log = false) ?_ (Issues.exec rfl ?_ (fun _ _ => trivial))
  · rintro log - ⟨hclaimed, hpublished, hconfirms, hreleases⟩
    refine Issues.bind (Q := fun log rows => Publishing rows rows log) ?_
      (Issues.exec ⟨hclaimed, hpublished, hreleases⟩ ?_ (fun _ _ => trivial))
    · intro log rows h
      split
      · trivial
      · refine Issues.tryCatch ?_ (publishBatch_issues h)
        intro log _ hfailed
        exact Issues.exec ⟨hfailed.1.symm, hfailed.2.1, hfailed.2.2⟩ (fun _ _ => trivial)
          (fun _ _ => trivial)
    · intro rows _
      refine ⟨?_, ?_, ?_, ?_⟩
      · simp [claims, hclaimed]
      · simp [claims, publishes, hclaimed, hpublished]
      · simp [confirms, hconfirms]
      · simp [releases, hreleases]
  · intro _ _
    exact ⟨rfl, rfl, rfl, rfl⟩

/-- The record of a handler whose message is still all its own. -/
structure Undelivered (log : List Done) : Prop where
  unsent : did retries log = false
  unmarked : did marks log = false

/-- What ends a handler with an error. -/
def Broken (log : List Done) : Prop := did lookupFails log = true ∨ did deadLetters log = true

theorem Undelivered.append {log : List Done} (h : Undelivered log) {d : Done}
    (hretries : retries d = false) (hmarks : marks d = false) : Undelivered (log ++ [d]) where
  unsent := by simp [h.unsent, hretries]
  unmarked := by simp [h.unmarked, hmarks]

/-- The dead-letter exit, once the message has been published. -/
theorem markFailed_issues {msg : Message} {log : List Done} {n : ℕ} {e : String}
    (h : Undelivered log) (hdead : did deadLetters log = true) :
    Issues gives (handleMay msg) (fun log _ => did deadLetters log = true)
      (fun log _ => Broken log) log (act (.eventMarkFailed msg.content.outboxId n e)) := by
  refine Issues.exec ⟨rfl, hdead, h.unsent, h.unmarked⟩ ?_ ?_
  · intro _ _
    simp [hdead]
  · intro e _
    right
    simp [hdead]

theorem ack_issues {msg : Message} {log : List Done}
    (h : did handsOver log = true) :
    Issues gives (handleMay msg) (fun _ _ => True) X log (act .ack) := by
  refine Issues.exec h (fun _ _ => trivial) ?_
  intro e he
  simp [gives, Except.isOk, Except.toBool] at he

theorem publish_issues {msg : Message} {log : List Done} {x : Exchange} {m : Message}
    {expiration : Option ℕ} {Q : List Done → Unit → Prop}
    (hmay : handleMay msg log (.publish x ROUTING_KEY m expiration))
    (hq : ∀ r, Q (log ++ [⟨.publish x ROUTING_KEY m expiration, r⟩]) ()) :
    Issues gives (handleMay msg) Q X log (act (.publish x ROUTING_KEY m expiration)) := by
  refine Issues.exec hmay (fun _ _ => hq _) ?_
  intro e he
  simp [gives, Except.isOk, Except.toBool] at he

theorem retryOrDeadLetter_issues {msg : Message} {e : String} {log : List Done}
    (h : Undelivered log) :
    Issues gives (handleMay msg) (fun _ _ => True) (fun log _ => Broken log) log
      (retryOrDeadLetter msg e) := by
  have hack : ∀ log, did handsOver log = true →
      Issues gives (handleMay msg) (fun _ _ => True) (fun log _ => Broken log) log (act .ack) :=
    fun _ h => ack_issues h
  unfold retryOrDeadLetter
  split
  · refine Issues.bind (Q := fun log _ => Undelivered log ∧ did deadLetters log = true) ?_
      (publish_issues ⟨rfl, rfl, h.unsent, h.unmarked, .inl ⟨rfl, rfl⟩⟩ ?_)
    · rintro log - ⟨h', hdead⟩
      refine Issues.bind ?_ (markFailed_issues h' hdead)
      intro log _ hdead
      apply hack
      simp [did_handsOver, hdead]
    · intro r
      exact ⟨h.append rfl rfl, by simp [deadLetters]⟩
  · rename_i hattempt
    refine Issues.bind (Q := fun log _ => did retries log = true) ?_
      (publish_issues ⟨rfl, rfl, h.unsent, h.unmarked, .inr ⟨rfl, rfl, by omega, rfl⟩⟩ ?_)
    · intro log _ hretried
      apply hack
      simp [did_handsOver, hretried]
    · intro r
      simp [retries]

theorem deliverTo_issues {msg : Message} {endpoint : WebhookEndpointRow} {log : List Done}
    (h : Undelivered log) (hkept : did handsOver log = false) :
    Issues gives (handleMay msg) (fun _ _ => True) (fun log _ => Undelivered log) log
      (deliverTo msg endpoint) := by
  refine Issues.bind (Q := fun log status => Undelivered log ∧
    (isOk status = true → did answers log = true)) ?_ (Issues.exec ⟨rfl, hkept, h.unmarked⟩ ?_ ?_)
  · rintro log status ⟨h', hanswered⟩
    split
    · rename_i hok
      refine Issues.bind (Q := fun log _ => did answers log = true) ?_
        (Issues.exec ⟨rfl, hanswered hok, h'.unsent, h'.unmarked⟩ ?_ ?_)
      · intro log _ hanswered
        apply ack_issues
        simp [did_handsOver, hanswered]
      · intro _ _
        simp [hanswered hok]
      · intro e _
        exact h'.append rfl rfl
    · exact h'
  · intro status _
    exact ⟨h.append rfl rfl, by simp +contextual [answers]⟩
  · intro e _
    exact h.append rfl rfl

theorem handle_issues (msg : Message) :
    Issues gives (handleMay msg) (fun _ _ => True) (fun _ _ => True) [] (handle msg) := by
  refine Issues.tryCatch (X := fun log _ => Broken log) ?_ (Issues.bind
    (Q := fun log _ => Undelivered log ∧ did handsOver log = false) ?_ (Issues.exec ⟨rfl, rfl⟩ ?_ ?_))
  · intro log _ hbroken
    exact Issues.exec hbroken (fun _ _ => trivial) (fun _ _ => trivial)
  · rintro log endpoint ⟨h, hkept⟩
    cases endpoint with
    | none =>
      refine Issues.bind (Q := fun log _ => Undelivered log ∧ did deadLetters log = true) ?_
        (publish_issues ⟨rfl, rfl, h.unsent, h.unmarked, .inl ⟨rfl, rfl⟩⟩ ?_)
      · rintro log - ⟨h', hdead⟩
        refine Issues.bind ?_ (markFailed_issues h' hdead)
        intro log _ hdead
        apply ack_issues
        simp [did_handsOver, hdead]
      · intro r
        exact ⟨h.append rfl rfl, by simp [deadLetters]⟩
    | some endpoint =>
      refine Issues.tryCatch ?_ (deliverTo_issues h hkept)
      intro log e h'
      exact retryOrDeadLetter_issues h'
  · intro _ _
    exact ⟨⟨rfl, rfl⟩, rfl⟩
  · intro _ _
    exact .inl rfl

end Scripts

/-- What is known of the workers' records. -/
def discipline : Discipline device workerProgram where
  Gives := gives
  May := may
  gives := fun _ hact => gives_act hact _
  issues := by
    intro j
    cases j with
    | relayTick => exact relayTickOf_issues RELAY_BATCH
    | handle c msg => exact handle_issues msg

/-! ## Runs -/

/-- The states reached from the empty world by steps that satisfy `ok`. -/
abbrev Workers.Reach (ok : Workers → Turn → Prop) (s : Workers) : Prop :=
  Runs device workerProgram ok (Pool.begin .empty) s

end PaymentApis
