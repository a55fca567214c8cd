import PaymentApis.Republication

/-!
# What becomes of a message

A handler has one message, and settles it once: by an acknowledgement after the
event was marked delivered or a copy of the message was published, or by a
rejection that discards it.
-/

namespace PaymentApis

open TxStore Processes

/-! ## Fates -/

/-- What a handler does with its message. -/
inductive Fate
  | delivered
  | copied (x : Exchange) (m : Message) (expiration : Option ℕ)
  | dropped
deriving DecidableEq

def fateOf : Done → List Fate
  | ⟨.eventMarkDelivered _, .ok _⟩ => [.delivered]
  | ⟨.publish x _ m expiration, .ok _⟩ => [.copied x m expiration]
  | ⟨.nack, .ok _⟩ => [.dropped]
  | _ => []

/-- What has been done with the message, in order. -/
def fates (log : List Done) : List Fate := log.flatMap fateOf

@[simp] theorem fates_nil : fates [] = [] := rfl

@[simp] theorem fates_append (log : List Done) (d : Done) :
    fates (log ++ [d]) = fates log ++ fateOf d := by
  simp [fates]

def posts : Done → Bool
  | ⟨.fetch _ _, _⟩ => true
  | _ => false

/-- The event cannot be marked delivered. -/
def unmarks : Done → Bool
  | ⟨.eventMarkDelivered _, .error _⟩ => true
  | _ => false

/-- No 2xx has come, or it could not be written down. -/
def Unheard (log : List Done) : Prop := log.any answers = true → log.any unmarks = true

/-- The message is acknowledged or rejected. -/
def settles : Done → Bool
  | ⟨.ack, .ok _⟩ => true
  | ⟨.nack, .ok _⟩ => true
  | _ => false

/-- The handler finds its channel closed. -/
def breaks : Done → Bool
  | ⟨.publish _ _ _ _, .error _⟩ => true
  | ⟨.ack, .error _⟩ => true
  | ⟨.nack, .error _⟩ => true
  | _ => false

/-- The copy that is to be tried again. -/
def retryCopy (msg : Message) : Fate :=
  .copied EXCHANGE_RETRY ⟨msg.content, some (msg.attempt + 1)⟩ (some (backoffMs msg.attempt))

/-- The copy of a message whose endpoint is gone. -/
def orphanCopy (msg : Message) : Fate := .copied EXCHANGE_DEAD ⟨msg.content, none⟩ none

/-- The copy of a message that has failed for the last time. -/
def deadCopy (msg : Message) : Fate :=
  .copied EXCHANGE_DEAD ⟨msg.content, some msg.attempt⟩ none

/-- A copy a handler with this record may publish. -/
inductive Copies (msg : Message) (log : List Done) : Fate → Prop
  | retry (posted : log.any posts = true) (unheard : Unheard log)
      (attempt : msg.attempt < MAX_ATTEMPTS) : Copies msg log (retryCopy msg)
  | orphan (gone : ⟨.endpointFindById msg.content.endpointId, .ok none⟩ ∈ log)
      (unposted : log.any posts = false) : Copies msg log (orphanCopy msg)
  | dead (posted : log.any posts = true) (unheard : Unheard log)
      (attempt : MAX_ATTEMPTS ≤ msg.attempt) : Copies msg log (deadCopy msg)

/-- How a message can end with its handler. A copy of an event that could not be
marked failed is in the dead-letter queue all the same, and the message itself
is rejected. -/
inductive Ending (msg : Message) (log : List Done) : List Fate → Prop
  | delivered (answered : log.any answers = true) : Ending msg log [.delivered]
  | copied {f} (copy : Copies msg log f) : Ending msg log [f]
  | dropped (unfound : log.any lookupFails = true) : Ending msg log [.dropped]
  | deadDropped {x m e} (copy : Copies msg log (.copied x m e)) (dead : x = EXCHANGE_DEAD) :
      Ending msg log [.copied x m e, .dropped]

theorem answers_of_posts {d : Done} (h : posts d = false) : answers d = false := by
  unfold answers
  split
  · cases h
  · rfl

theorem any_answers_of_posts {log : List Done} (h : log.any posts = false) :
    log.any answers = false := by
  rw [List.any_eq_false] at h ⊢
  intro d hd
  rw [answers_of_posts (by simpa using h d hd)]
  exact Bool.false_ne_true

theorem Unheard.append {log : List Done} (h : Unheard log) {d : Done} (hd : posts d = false) :
    Unheard (log ++ [d]) := by
  intro hanswered
  rw [List.any_append, List.any_cons, List.any_nil, answers_of_posts hd, Bool.or_false,
    Bool.or_false] at hanswered
  rw [List.any_append, h hanswered, Bool.true_or]

theorem Copies.append {msg : Message} {log : List Done} {f : Fate} (h : Copies msg log f)
    {d : Done} (hd : posts d = false) : Copies msg (log ++ [d]) f := by
  cases h with
  | retry posted unheard attempt => exact .retry (by simp [posted]) (unheard.append hd) attempt
  | orphan gone unposted => exact .orphan (List.mem_append_left _ gone) (by simp [unposted, hd])
  | dead posted unheard attempt => exact .dead (by simp [posted]) (unheard.append hd) attempt

/-- Whoever publishes a copy has not been answered, or could not write it down. -/
theorem Copies.unheard {msg : Message} {log : List Done} {f : Fate} (h : Copies msg log f) :
    Unheard log := by
  cases h with
  | retry posted unheard attempt => exact unheard
  | orphan gone unposted =>
    intro hanswered
    rw [any_answers_of_posts unposted] at hanswered
    cases hanswered
  | dead posted unheard attempt => exact unheard

theorem Ending.append {msg : Message} {log : List Done} {fs : List Fate} (h : Ending msg log fs)
    {d : Done} (hd : posts d = false) : Ending msg (log ++ [d]) fs := by
  cases h with
  | delivered answered => exact .delivered (by simp [answered])
  | copied copy => exact .copied (copy.append hd)
  | dropped unfound => exact .dropped (by simp [unfound])
  | deadDropped copy dead => exact .deadDropped (copy.append hd) dead

/-- The rows a relay tick has claimed. -/
def claimedRows : Done → List WebhookEventRow
  | ⟨.eventClaimForPublishing _, .ok rows⟩ => rows
  | _ => []

/-- The request for a message. -/
def Message.post (msg : Message) (endpoint : WebhookEndpointRow) : Post :=
  ⟨endpoint.url, msg.content.eventType, signPayload endpoint.secret msg.content.payload,
    msg.content.payload⟩

/-! ## What is done after what -/

def relayPassage (log : List Done) : Op → Prop
  | .eventReapStalePublishing _ => True
  | .eventClaimForPublishing _ => True
  | .eventMarkPublished _ => True
  | .eventResetToPending _ => True
  | .confirmPublish x key m => x = EXCHANGE ∧ key = ROUTING_KEY ∧
      ∃ row ∈ log.flatMap claimedRows, m = toMessage row
  | .waitForConfirms => True
  | _ => False

def handlePassage (msg : Message) (log : List Done) : Op → Prop
  | .endpointFindById id => id = msg.content.endpointId ∧ log = []
  | .fetch id post => id = msg.content.outboxId ∧ fates log = [] ∧ log.any posts = false ∧
      log.any settles = false ∧ ∃ endpoint,
        ⟨.endpointFindById msg.content.endpointId, .ok (some endpoint)⟩ ∈ log ∧
          post = msg.post endpoint
  | .eventMarkDelivered id => id = msg.content.outboxId ∧ fates log = [] ∧
      log.any answers = true ∧ log.any settles = false
  | .publish x key m expiration => key = ROUTING_KEY ∧ fates log = [] ∧
      log.any settles = false ∧ Copies msg log (.copied x m expiration)
  | .eventMarkFailed id _ _ => id = msg.content.outboxId ∧ log.any settles = false ∧
      ∃ x m e, x = EXCHANGE_DEAD ∧ Copies msg log (.copied x m e) ∧ fates log = [.copied x m e]
  | .ack => log.any settles = false ∧ Ending msg log (fates log)
  | .nack => log.any settles = false ∧ Ending msg log (fates log ++ [.dropped])
  | _ => False

/-- Once its channel is closed a handler tries nothing but the channel. -/
def passage : WorkerJob → List Done → Op → Prop
  | .relayTick, log, st => relayPassage log st
  | .handle _ msg, log, st =>
    handlePassage msg log st ∨ log.any breaks = true ∧ st.onChannel = true

/-- A channel that is closed stays closed. -/
def lossyGives (log : List Done) : (s : Op) → Except String (Answer s) → Prop
  | .publish _ _ _ _, r => log.any breaks = true → r.isOk = false
  | .ack, r => log.any breaks = true → r.isOk = false
  | .nack, r => log.any breaks = true → r.isOk = false
  | _, _ => True

/-- The handler has settled its message. -/
structure Settled (msg : Message) (log : List Done) : Prop where
  once : log.countP settles = 1
  fate : Ending msg log (fates log)

/-- The handler has found its channel closed before it could. -/
structure Severed (msg : Message) (log : List Done) : Prop where
  broken : log.any breaks = true
  unsettled : log.any settles = false
  fate : ∃ rest, Ending msg log (fates log ++ rest)

/-- How a process that returns ends, and one that throws. -/
def Concluded : WorkerJob → List Done → Prop
  | .relayTick, _ => True
  | .handle _ msg, log => Settled msg log

def Broke : WorkerJob → List Done → Prop
  | .relayTick, _ => True
  | .handle _ msg, log => Severed msg log

section Scripts

variable {c : ℕ} {msg : Message} {log : List Done}
  {V : List Done → (s : Op) → Except String (Answer s) → Prop}

theorem countP_settles {log : List Done} (h : log.any settles = false) {d : Done}
    (hd : settles d = true) : (log ++ [d]).countP settles = 1 := by
  have hzero : log.countP settles = 0 := by
    rw [List.countP_eq_zero]
    intro d' hd' hsettles
    rw [List.any_eq_false] at h
    exact h d' hd' hsettles
  rw [List.countP_append, hzero, List.countP_singleton, if_pos hd]

/-- The rows a tick has claimed, and still has to publish. -/
theorem publishAll_passes : ∀ {rest : List WebhookEventRow} {log : List Done},
    (∀ row ∈ rest, row ∈ log.flatMap claimedRows) →
    Issues V relayPassage (fun _ _ => True) (fun _ _ => True) log (publishAll rest)
  | [], _, _ => trivial
  | row :: rest, log, h => by
      refine Issues.bind (Q := fun log _ => ∀ row ∈ rest, row ∈ log.flatMap claimedRows)
        (fun log _ h' => publishAll_passes h') (Issues.exec ?_ ?_ ?_)
      · exact ⟨rfl, rfl, row, h row (by simp), rfl⟩
      · intro r _ row' hrow'
        rw [List.flatMap_append]
        exact List.mem_append_left _ (h row' (by simp [hrow']))
      · intro e _
        trivial

theorem publishBatch_passes {rows : List WebhookEventRow}
    (h : ∀ row ∈ rows, row ∈ log.flatMap claimedRows) :
    Issues V relayPassage (fun _ _ => True) (fun _ _ => True) log (publishBatch rows) := by
  refine Issues.bind ?_ (publishAll_passes h)
  intro log _ _
  refine Issues.bind (Q := fun _ _ => True) ?_
    (Issues.exec trivial (fun _ _ => trivial) (fun _ _ => trivial))
  intro log _ _
  exact Issues.exec trivial (fun _ _ => trivial) (fun _ _ => trivial)

theorem relayTickOf_passes (batch : ℕ) :
    Issues V relayPassage (fun _ _ => True) (fun _ _ => True) [] (relayTickOf batch) := by
  refine Issues.bind (Q := fun _ _ => True) ?_
    (Issues.exec trivial (fun _ _ => trivial) (fun _ _ => trivial))
  intro log _ _
  refine Issues.bind (Q := fun log rows => ∀ row ∈ rows, row ∈ log.flatMap claimedRows) ?_
    (Issues.exec trivial ?_ (fun _ _ => trivial))
  · intro log rows h
    split
    · trivial
    · refine Issues.tryCatch ?_ (publishBatch_passes h)
      intro log _ _
      exact Issues.exec trivial (fun _ _ => trivial) (fun _ _ => trivial)
  · intro rows _ row hrow
    simp [List.flatMap_append, claimedRows, hrow]

/-- The record of a handler that still has its message. -/
structure Undecided (log : List Done) : Prop where
  fate : fates log = []
  unsettled : log.any settles = false

/-- The record of a handler whose message will be rejected. -/
structure Rejected (msg : Message) (log : List Done) : Prop where
  fate : Ending msg log (fates log ++ [.dropped])
  unsettled : log.any settles = false

/-- The record of a handler that is done, but for the acknowledgement. -/
structure Decided (msg : Message) (log : List Done) : Prop where
  fate : Ending msg log (fates log)
  unsettled : log.any settles = false

theorem Undecided.append (h : Undecided log) {d : Done} (hfate : fateOf d = [])
    (hsettles : settles d = false) : Undecided (log ++ [d]) where
  fate := by rw [fates_append, h.fate, hfate, List.append_nil]
  unsettled := by simp [h.unsettled, hsettles]

theorem fateOf_breaks {d : Done} (h : breaks d = true) :
    fateOf d = [] ∧ settles d = false ∧ posts d = false := by
  unfold breaks at h
  split at h
  · exact ⟨rfl, rfl, rfl⟩
  · exact ⟨rfl, rfl, rfl⟩
  · exact ⟨rfl, rfl, rfl⟩
  · cases h

/-- An operation throws, where the message could still come to an end. -/
theorem Severed.of_breaks {d : Done} (hd : breaks d = true) (hunsettled : log.any settles = false)
    (rest : List Fate) (h : Ending msg log (fates log ++ rest)) : Severed msg (log ++ [d]) where
  broken := by simp [hd]
  unsettled := by simp [hunsettled, (fateOf_breaks hd).2.1]
  fate := by
    rw [fates_append, (fateOf_breaks hd).1, List.append_nil]
    exact ⟨rest, h.append (fateOf_breaks hd).2.2⟩

/-- On a closed channel nothing is done any more. -/
theorem Severed.append (h : Severed msg log) {d : Done} (hd : breaks d = true) :
    Severed msg (log ++ [d]) := by
  obtain ⟨rest, hfate⟩ := h.fate
  exact Severed.of_breaks hd h.unsettled rest hfate

theorem publish_severed {x : Exchange} {key : String} {m : Message} {expiration : Option ℕ}
    {Q : List Done → Unit → Prop} (h : Severed msg log) :
    Issues lossyGives (passage (.handle c msg)) Q (fun log _ => Severed msg log) log
      (act (.publish x key m expiration)) := by
  refine Issues.exec (.inr ⟨h.broken, rfl⟩) ?_ (fun _ _ => h.append rfl)
  intro r hr
  cases hr h.broken

theorem nack_passes (h : Rejected msg log ∨ Severed msg log) :
    Issues lossyGives (passage (.handle c msg)) (fun log _ => Settled msg log)
      (fun log _ => Severed msg log) log (act .nack) := by
  rcases h with h | h
  · refine Issues.exec (.inl ⟨h.unsettled, h.fate⟩) ?_ ?_
    · intro r _
      refine ⟨countP_settles h.unsettled rfl, ?_⟩
      rw [fates_append]
      exact h.fate.append rfl
    · intro e _
      exact Severed.of_breaks rfl h.unsettled _ h.fate
  · refine Issues.exec (.inr ⟨h.broken, rfl⟩) ?_ (fun _ _ => h.append rfl)
    intro r hr
    cases hr h.broken

theorem ack_passes (h : Decided msg log) :
    Issues lossyGives (passage (.handle c msg)) (fun log _ => Settled msg log)
      (fun log _ => Severed msg log) log (act .ack) := by
  refine Issues.exec (.inl ⟨h.unsettled, h.fate⟩) ?_ ?_
  · intro r _
    refine ⟨countP_settles h.unsettled rfl, ?_⟩
    rw [fates_append]
    simpa [fateOf] using h.fate.append rfl
  · intro e _
    refine Severed.of_breaks rfl h.unsettled [] ?_
    simpa using h.fate

/-- A copy is published. -/
theorem copy_passes {x : Exchange} {m : Message} {expiration : Option ℕ} (h : Undecided log)
    (hcopy : Copies msg log (.copied x m expiration)) :
    Issues lossyGives (passage (.handle c msg))
      (fun log _ => fates log = [.copied x m expiration] ∧ log.any settles = false ∧
        Copies msg log (.copied x m expiration)) (fun log _ => Severed msg log) log
      (act (.publish x ROUTING_KEY m expiration)) := by
  refine Issues.exec (.inl ⟨rfl, h.fate, h.unsettled, hcopy⟩) ?_ ?_
  · intro r _
    refine ⟨?_, ?_, hcopy.append rfl⟩
    · rw [fates_append, h.fate]
      rfl
    · simp [h.unsettled, settles]
  · intro e _
    refine Severed.of_breaks rfl h.unsettled [.copied x m expiration] ?_
    rw [h.fate]
    exact .copied hcopy

/-- A dead letter is written down, and acknowledged. -/
theorem markFailed_passes {m : Message} {expiration : Option ℕ} {n : ℕ} {e : String}
    (hfate : fates log = [.copied EXCHANGE_DEAD m expiration])
    (hunsettled : log.any settles = false)
    (hcopy : Copies msg log (.copied EXCHANGE_DEAD m expiration)) :
    Issues lossyGives (passage (.handle c msg)) (fun log _ => Decided msg log)
      (fun log _ => Rejected msg log) log (act (.eventMarkFailed msg.content.outboxId n e)) := by
  refine Issues.exec (.inl ⟨rfl, hunsettled, _, m, expiration, rfl, hcopy, hfate⟩) ?_ ?_
  · intro r _
    refine ⟨?_, by simp [hunsettled, settles]⟩
    rw [fates_append, hfate]
    exact .copied (hcopy.append rfl)
  · intro r _
    refine ⟨?_, by simp [hunsettled, settles]⟩
    rw [fates_append, hfate]
    exact .deadDropped (hcopy.append rfl) rfl

theorem endpointDeleted_passes (h : Undecided log) (hposts : log.any posts = false)
    (hgone : ⟨.endpointFindById msg.content.endpointId, .ok none⟩ ∈ log) :
    Issues lossyGives (passage (.handle c msg)) (fun log _ => Settled msg log)
      (fun log _ => Rejected msg log ∨ Severed msg log) log (endpointDeleted msg) := by
  refine Issues.bind ?_ ((copy_passes h (.orphan hgone hposts)).imp (fun _ _ h => h)
    (fun _ _ => .inr))
  rintro log - ⟨hfate, hunsettled, hcopy⟩
  refine Issues.bind ?_ ((markFailed_passes hfate hunsettled hcopy).imp (fun _ _ h => h)
    (fun _ _ => .inl))
  intro log _ hdecided
  exact (ack_passes hdecided).imp (fun _ _ h => h) (fun _ _ => .inr)

theorem retryOrDeadLetter_passes {e : String}
    (h : Undecided log ∧ log.any posts = true ∧ Unheard log ∨ Severed msg log) :
    Issues lossyGives (passage (.handle c msg)) (fun log _ => Settled msg log)
      (fun log _ => Rejected msg log ∨ Severed msg log) log (retryOrDeadLetter msg e) := by
  unfold retryOrDeadLetter
  rcases h with ⟨h, hposts, hunheard⟩ | h
  · split
    · rename_i hlast
      refine Issues.bind ?_ ((copy_passes h (.dead hposts hunheard hlast)).imp (fun _ _ h => h)
        (fun _ _ => .inr))
      rintro log - ⟨hfate, hunsettled, hcopy⟩
      refine Issues.bind ?_ ((markFailed_passes hfate hunsettled hcopy).imp (fun _ _ h => h)
        (fun _ _ => .inl))
      intro log _ hdecided
      exact (ack_passes hdecided).imp (fun _ _ h => h) (fun _ _ => .inr)
    · rename_i hmore
      have hcopy : Copies msg log (retryCopy msg) := .retry hposts hunheard (by omega)
      refine Issues.bind ?_ ((copy_passes h hcopy).imp (fun _ _ h => h) (fun _ _ => .inr))
      rintro log - ⟨hfate, hunsettled, hcopy⟩
      have hdecided : Decided msg log := ⟨hfate ▸ .copied hcopy, hunsettled⟩
      exact (ack_passes hdecided).imp (fun _ _ h => h) (fun _ _ => .inr)
  · -- the channel is closed, and the copy is not published
    split
    · exact Issues.bind (Q := fun _ _ => False) (fun _ _ h => h.elim)
        ((publish_severed h).imp (fun _ _ h => h) (fun _ _ => .inr))
    · exact Issues.bind (Q := fun _ _ => False) (fun _ _ h => h.elim)
        ((publish_severed h).imp (fun _ _ h => h) (fun _ _ => .inr))

theorem deliverTo_passes {endpoint : WebhookEndpointRow} (h : Undecided log)
    (hposts : log.any posts = false)
    (hfound : ⟨.endpointFindById msg.content.endpointId, .ok (some endpoint)⟩ ∈ log) :
    Issues lossyGives (passage (.handle c msg)) (fun log _ => Settled msg log)
      (fun log _ => Undecided log ∧ log.any posts = true ∧ Unheard log ∨ Severed msg log) log
      (deliverTo msg endpoint) := by
  have hfirst := any_answers_of_posts hposts
  refine Issues.bind (Q := fun log status => Undecided log ∧ log.any posts = true ∧
    log.any answers = isOk status) ?_
    (Issues.exec (.inl ⟨rfl, h.fate, hposts, h.unsettled, endpoint, hfound, rfl⟩) ?_ ?_)
  · rintro log status ⟨h', hposted, hanswered⟩
    split
    · rename_i hok
      refine Issues.bind (Q := fun log _ => Decided msg log) ?_
        (Issues.exec (.inl ⟨rfl, h'.fate, hanswered.trans hok, h'.unsettled⟩) ?_ ?_)
      · intro log _ hdecided
        exact (ack_passes hdecided).imp (fun _ _ h => h) (fun _ _ => .inr)
      · intro _ _
        refine ⟨?_, by simp [h'.unsettled, settles]⟩
        rw [fates_append, h'.fate]
        exact .delivered (by simp [hanswered, hok])
      · intro e _
        refine .inl ⟨h'.append rfl rfl, ?_, ?_⟩
        · simp [hposted]
        · intro _
          simp [unmarks]
    · rename_i hnot
      refine .inl ⟨h', hposted, ?_⟩
      intro hok
      exact absurd (hanswered.symm.trans hok) hnot
  · intro status _
    refine ⟨h.append rfl rfl, ?_, ?_⟩
    · simp [posts]
    · simp [answers, hfirst]
  · intro e _
    refine .inl ⟨h.append rfl rfl, ?_, ?_⟩
    · simp [posts]
    · intro hok
      simp [answers, hfirst] at hok

theorem handle_passes (msg : Message) (c : ℕ) :
    Issues lossyGives (passage (.handle c msg)) (fun log _ => Settled msg log)
      (fun log _ => Severed msg log) [] (handle msg) := by
  refine Issues.tryCatch (X := fun log _ => Rejected msg log ∨ Severed msg log) ?_ (Issues.bind
    (Q := fun log endpoint => Undecided log ∧ log.any posts = false ∧
      ⟨.endpointFindById msg.content.endpointId, .ok endpoint⟩ ∈ log) ?_
    (Issues.exec (.inl ⟨rfl, rfl⟩) ?_ ?_))
  · intro log _ h
    exact nack_passes h
  · rintro log endpoint ⟨h, hposts, hfound⟩
    cases endpoint with
    | none => exact endpointDeleted_passes h hposts hfound
    | some endpoint =>
      refine Issues.tryCatch ?_ (deliverTo_passes h hposts hfound)
      intro log e h'
      exact retryOrDeadLetter_passes h'
  · intro endpoint _
    exact ⟨⟨rfl, rfl⟩, rfl, by simp⟩
  · intro e _
    exact .inl ⟨.dropped rfl, rfl⟩

end Scripts

/-! ## Closed channels -/

/-- A handler that has found its channel closed is one whose channel is. -/
def KnowsClosed (i : ℕ) (log : List Done) (w : World) : Prop :=
  log.any breaks = true → i ∈ w.closed

theorem World.act_breaks {i : ℕ} {st : Op} {o : Outcome} {w w' : World}
    {r : Except String (Answer st)} (h : World.act i st o w = some (r, w')) :
    breaks ⟨st, r⟩ = false := by
  have hgives := gives_act h []
  cases st with
  | publish x key m expiration =>
    cases r with
    | ok a => rfl
    | error e => cases hgives
  | ack =>
    cases r with
    | ok a => rfl
    | error e => cases hgives
  | nack =>
    cases r with
    | ok a => rfl
    | error e => cases hgives
  | _ => rfl

theorem breaks_onChannel {d : Done} (h : breaks d = true) : d.act.onChannel = true := by
  unfold breaks at h
  split at h
  · rfl
  · rfl
  · rfl
  · cases h

theorem World.act_closed {i : ℕ} {st : Op} {o : Outcome} {w w' : World}
    {r : Except String (Answer st)} (h : World.act i st o w = some (r, w')) :
    w'.closed = w.closed := by
  have hstatement : ∀ {α : Type} {y : Except String α} {x : α} {v : List WebhookEventRow},
      statement o w (x, { w with events := v }) = some (y, w') → w'.closed = w.closed := by
    intro α y x v hst
    rcases statement_eq_some hst with ⟨-, rfl⟩ | ⟨e, -, rfl⟩
    · rfl
    · rfl
  cases st with
  | eventReapStalePublishing k => exact hstatement h
  | eventClaimForPublishing limit => exact hstatement h
  | eventMarkPublished ids => exact hstatement h
  | eventResetToPending ids => exact hstatement h
  | eventMarkDelivered id => exact hstatement h
  | eventMarkFailed id k e => exact hstatement h
  | endpointFindById id => exact hstatement (v := w.events) h
  | waitForConfirms =>
    cases o with
    | done =>
      simp only [World.act] at h
      split at h <;> cases h
      rfl
    | failed e =>
      cases h
      rfl
    | status k => cases h
  | _ => cases o <;> cases h <;> rfl

theorem World.birth_closed {i : ℕ} {j : WorkerJob} {w w' : World}
    (h : World.birth i j w = some w') : w'.closed = w.closed := by
  cases j with
  | relayTick =>
    obtain rfl := Option.some.inj h
    rfl
  | handle c msg =>
    simp only [World.birth] at h
    split at h
    · split at h <;> cases h
      rfl
    · cases h

theorem World.event_closed {e : Event} {w w' : World} (h : World.event e w = some w') :
    w'.closed = w.closed := by
  cases e with
  | tick n =>
    obtain rfl := Option.some.inj h
    rfl
  | enqueue id m e type payload since =>
    obtain ⟨-, -, rfl⟩ := World.enqueue_eq_some h
    rfl
  | register row =>
    obtain rfl := Option.some.inj h
    rfl
  | expire =>
    obtain ⟨b, -, rfl⟩ := Option.map_eq_some_iff.mp h
    rfl

theorem KnowsClosed.gives {i : ℕ} {log : List Done} {st : Op} {o : LossyOutcome} {w w' : World}
    {r : Except String (Answer st)} (h : KnowsClosed i log w)
    (hact : World.lossyAct i st o w = some (r, w')) : lossyGives log st r := by
  have herror : st.onChannel = true → log.any breaks = true → r.isOk = false := by
    intro hchannel hbroken
    rcases World.lossyAct_cases hact with
      ⟨o', -, hopen, -⟩ | ⟨e, -, -, -, rfl, -⟩ | ⟨e, -, -, -, -, rfl⟩
    · exact absurd (h hbroken) (hopen hchannel)
    · rfl
    · rfl
  cases st with
  | publish x key m expiration => exact herror rfl
  | ack => exact herror rfl
  | nack => exact herror rfl
  | _ => trivial

theorem KnowsClosed.learns {i : ℕ} {log : List Done} {st : Op} {o : LossyOutcome} {w w' : World}
    {r : Except String (Answer st)} (h : KnowsClosed i log w)
    (hact : World.lossyAct i st o w = some (r, w')) : KnowsClosed i (log ++ [⟨st, r⟩]) w' := by
  intro hbroken
  simp only [List.any_append, List.any_cons, List.any_nil, Bool.or_false, Bool.or_eq_true]
    at hbroken
  rcases World.lossyAct_cases hact with
    ⟨o', -, -, hopen⟩ | ⟨e, -, -, hclosed, -, rfl⟩ | ⟨e, r', -, hst, hdone, rfl⟩
  · rw [World.act_closed hopen]
    exact h (hbroken.resolve_right (by simp [World.act_breaks hopen]))
  · exact hclosed
  · rw [World.act_closed hdone]
    refine h (hbroken.resolve_right ?_)
    intro hbreaks
    have hchannel : st.onChannel = true := breaks_onChannel hbreaks
    rw [Op.onChannel_eq_false hst] at hchannel
    cases hchannel

theorem KnowsClosed.keeps {i : ℕ} {log : List Done} {w w' : World} (h : KnowsClosed i log w)
    (hshift : lossyDevice.Shifts i w w') : KnowsClosed i log w' := by
  intro hbroken
  have hclosed := h hbroken
  cases hshift with
  | birth other born =>
    obtain ⟨v, hv, rfl⟩ := World.lossyBirth_eq_some born
    rw [← World.birth_closed hv] at hclosed
    exact List.mem_filter.mpr ⟨hclosed, by simp [other.symm]⟩
  | act other acts =>
    rcases World.lossyAct_cases acts with
      ⟨o, -, -, hopen⟩ | ⟨e, -, -, -, -, rfl⟩ | ⟨e, r, -, -, hdone, -⟩
    · rw [World.act_closed hopen]
      exact hclosed
    · exact hclosed
    · rw [World.act_closed hdone]
      exact hclosed
  | @crash k j =>
    cases j with
    | relayTick => exact hclosed
    | handle c msg => exact hclosed
  | @event e _ happens =>
    cases e with
    | channelLost k =>
      obtain rfl := Option.some.inj happens
      exact List.mem_cons_of_mem _ hclosed
    | plain e =>
      rw [World.event_closed happens]
      exact hclosed

def passageDiscipline (batch : ℕ) : Discipline lossyDevice (workerProgramOf batch) where
  Knows := KnowsClosed
  Gives := lossyGives
  May := passage
  born := fun _ hbroken => absurd hbroken Bool.false_ne_true
  gives := KnowsClosed.gives
  learns := KnowsClosed.learns
  keeps := KnowsClosed.keeps
  issues := by
    intro j
    cases j with
    | relayTick => exact relayTickOf_passes batch
    | handle c msg => exact (handle_passes msg c).imp (fun _ _ _ => trivial) (fun _ _ _ => trivial)

/-! ## What an action does -/

/-- What an action of process `i`, with its channel open, does to the broker, and
to the requests sent. -/
inductive Worked (i : ℕ) (w : World) :
    (st : Op) → LossyOutcome → Except String (Answer st) → World → Prop
  | statement {st o r w'} (statement : st.isStatement = true) (broker : w'.broker = w.broker)
      (attempts : w'.attempts = w.attempts) (closed : w'.closed = w.closed) : Worked i w st o r w'
  | kept {x key m} : Worked i w (.confirmPublish x key m) (.plain .done) (.ok ())
      { w with broker := w.broker.publish topology x key m none }
  | refused {x key m e} : Worked i w (.confirmPublish x key m) (.plain (.failed e)) (.ok ())
      { w with refused := i :: w.refused }
  | awaited {o r} : Worked i w .waitForConfirms o r w
  | copied {x key m expiration} (expiresAt : Option ℕ) :
      Worked i w (.publish x key m expiration) (.plain .done) (.ok ())
        { w with broker := w.broker.publish topology x key m expiresAt }
  | fetched {id post o r} (status : Option ℕ) : Worked i w (.fetch id post) o r
      { w with attempts := w.attempts ++ [⟨id, post, status⟩] }
  | acked {o} : Worked i w .ack o (.ok ()) { w with broker := w.broker.ack i }
  | nacked {o} : Worked i w .nack o (.ok ()) { w with broker := w.broker.nack topology i }

theorem World.act_statement {i : ℕ} {st : Op} {o : Outcome} {w w' : World}
    {r : Except String (Answer st)} (hst : st.isStatement = true)
    (h : World.act i st o w = some (r, w')) :
    w'.broker = w.broker ∧ w'.attempts = w.attempts := by
  have hkeep : ∀ {α : Type} {x : α × World} {r : Except String α},
      x.2.broker = w.broker → x.2.attempts = w.attempts →
      PaymentApis.statement o w x = some (r, w') →
      w'.broker = w.broker ∧ w'.attempts = w.attempts := by
    intro α x r hbroker hattempts hx
    cases o with
    | done =>
      obtain ⟨-, rfl⟩ := Prod.mk.inj (Option.some.inj hx)
      exact ⟨hbroker, hattempts⟩
    | failed message =>
      obtain ⟨-, rfl⟩ := Prod.mk.inj (Option.some.inj hx)
      exact ⟨rfl, rfl⟩
    | status n => cases hx
  cases st with
  | confirmPublish x key m => cases hst
  | waitForConfirms => cases hst
  | publish x key m expiration => cases hst
  | fetch id post => cases hst
  | ack => cases hst
  | nack => cases hst
  | _ => exact hkeep rfl rfl h

theorem Worked.of_open {i : ℕ} {st : Op} {o : Outcome} {w w' : World}
    {r : Except String (Answer st)} (h : World.act i st o w = some (r, w')) :
    Worked i w st (.plain o) r w' := by
  by_cases hst : st.isStatement = true
  · obtain ⟨hbroker, hattempts⟩ := World.act_statement hst h
    exact .statement hst hbroker hattempts (World.act_closed h)
  cases st with
  | confirmPublish x key m =>
    cases o with
    | done =>
      cases h
      exact .kept
    | failed e =>
      cases h
      exact .refused
    | status n => cases h
  | waitForConfirms =>
    cases o with
    | done =>
      simp only [World.act] at h
      split at h
      · cases h
      · cases h
        exact .awaited
    | failed e =>
      cases h
      exact .awaited
    | status n => cases h
  | publish x key m expiration =>
    cases o with
    | done =>
      cases h
      exact .copied _
    | failed e => cases h
    | status n => cases h
  | fetch id post =>
    cases o with
    | done => cases h
    | failed e =>
      cases h
      exact .fetched none
    | status n =>
      cases h
      exact .fetched (some n)
  | ack =>
    cases o with
    | done =>
      cases h
      exact .acked
    | failed e => cases h
    | status n => cases h
  | nack =>
    cases o with
    | done =>
      cases h
      exact .nacked
    | failed e => cases h
    | status n => cases h
  | _ => exact absurd rfl hst

/-- Process `i` tries an operation on its channel, which is closed. -/
structure Barred (i : ℕ) (w : World) (st : Op) (o : LossyOutcome) (r : Except String (Answer st))
    (w' : World) : Prop where
  channel : st.onChannel = true
  closed : i ∈ w.closed
  failed : ∃ e, o = .plain (.failed e) ∧ r = .error e
  world : w' = w

/-- An action does its work, or it is an operation on a closed channel. -/
theorem Worked.of_act {i : ℕ} {st : Op} {o : LossyOutcome} {w w' : World}
    {r : Except String (Answer st)} (h : World.lossyAct i st o w = some (r, w')) :
    (st.onChannel = true → i ∉ w.closed) ∧ Worked i w st o r w' ∨ Barred i w st o r w' := by
  rcases World.lossyAct_cases h with
    ⟨o, rfl, hchannel, hopen⟩ | ⟨e, ho, hchannel, hclosed, hr, hw⟩ | ⟨e, r', -, hst, hdone, rfl⟩
  · exact .inl ⟨hchannel, Worked.of_open hopen⟩
  · exact .inr ⟨hchannel, hclosed, ⟨e, ho, hr⟩, hw⟩
  · obtain ⟨hbroker, hattempts⟩ := World.act_statement hst hdone
    refine .inl ⟨?_, .statement hst hbroker hattempts (World.act_closed hdone)⟩
    intro hchannel
    rw [Op.onChannel_eq_false hst] at hchannel
    cases hchannel

theorem Worked.closed_eq {i : ℕ} {st : Op} {o : LossyOutcome} {w w' : World}
    {r : Except String (Answer st)} (h : Worked i w st o r w') : w'.closed = w.closed := by
  cases h with
  | statement hst hbroker hattempts hclosed => exact hclosed
  | _ => rfl

/-- A handler's step: the action is one it may take, or its channel is closed. -/
theorem Worked.of_handle {i c : ℕ} {j : WorkerJob} {msg : Message} (hjob : j = .handle c msg)
    {log : List Done} {st : Op} {o : LossyOutcome} {w w' : World} {r : Except String (Answer st)}
    (hknows : KnowsClosed i log w) (hmay : passage j log st)
    (h : World.lossyAct i st o w = some (r, w')) :
    handlePassage msg log st ∧ Worked i w st o r w' ∨ Barred i w st o r w' := by
  subst hjob
  rcases Worked.of_act h with ⟨hopen, hworked⟩ | hclosed
  · rcases hmay with hmay | ⟨hbroken, hchannel⟩
    · exact .inl ⟨hmay, hworked⟩
    · exact absurd (hknows hbroken) (hopen hchannel)
  · exact .inr hclosed

/-! ## What a handler owes -/

/-- What is unacknowledged is a message of the main queue, with a handler that
has not settled it and whose channel is open. -/
structure Owed (s : Workers) (d : Broker.Delivery Queue Message) : Prop where
  queue : d.queue = Q_DELIVER
  handler : ∃ n, s.nodes[d.tag]? = some n ∧ n.job = .handle d.consumer d.message ∧
    n.log.any settles = false
  opened : d.tag ∉ s.world.closed

def AllOwed (s : Workers) : Prop := ∀ d ∈ s.world.broker.unacked, Owed s d

theorem unacked_nack {i : ℕ} {b : MessageBroker} {d : Broker.Delivery Queue Message}
    (h : d ∈ (b.nack topology i).unacked) : d ∈ b.unacked ∧ d.tag ≠ i := by
  unfold Broker.State.nack at h
  split at h
  · rename_i hnone
    exact ⟨h, by simpa using List.find?_eq_none.mp hnone d h⟩
  · rename_i d' hd'
    have hack : d ∈ (b.ack i).unacked := by
      unfold Broker.State.bury at h
      split at h
      · exact h
      · exact h
    obtain ⟨hd, htag⟩ := List.mem_filter.mp hack
    exact ⟨hd, of_decide_eq_true htag⟩

theorem unacked_requeue {i : ℕ} {b : MessageBroker} {d : Broker.Delivery Queue Message}
    (h : d ∈ (b.requeue i).unacked) : d ∈ b.unacked ∧ d.tag ≠ i := by
  unfold Broker.State.requeue at h
  split at h
  · rename_i hnone
    exact ⟨h, by simpa using List.find?_eq_none.mp hnone d h⟩
  · obtain ⟨hd, htag⟩ := List.mem_filter.mp h
    exact ⟨hd, of_decide_eq_true htag⟩

theorem unacked_expire {now : ℕ} {b b' : MessageBroker}
    (h : b.expire topology now Q_RETRY = some b') : b'.unacked = b.unacked := by
  obtain ⟨x, rest, -, rfl⟩ := Broker.State.expire_eq_some h
  rfl

/-- Nothing but a settled message leaves a handler's hands by an action. -/
theorem Worked.unacked {i : ℕ} {st : Op} {o : LossyOutcome} {w w' : World}
    {r : Except String (Answer st)} (h : Worked i w st o r w') {d : Broker.Delivery Queue Message}
    (hd : d ∈ w'.broker.unacked) :
    d ∈ w.broker.unacked ∧ (d.tag = i → settles ⟨st, r⟩ = false) := by
  cases h with
  | statement hst hbroker hattempts hclosed =>
    rw [hbroker] at hd
    refine ⟨hd, fun _ => ?_⟩
    cases st <;> first | rfl | cases hst
  | acked =>
    obtain ⟨hd, htag⟩ := List.mem_filter.mp hd
    exact ⟨hd, fun htag' => absurd htag' (of_decide_eq_true htag)⟩
  | nacked =>
    obtain ⟨hd, htag⟩ := unacked_nack hd
    exact ⟨hd, fun htag' => absurd htag' htag⟩
  | _ => exact ⟨hd, fun _ => rfl⟩

/-- What is owed stays so, where process `i` has done what settles nothing. -/
theorem Owed.set {s : Workers} {i : ℕ} {n m : Worker} {w : World}
    {d : Broker.Delivery Queue Message} (h : Owed s d) (here : s.nodes[i]? = some n)
    (hclosed : w.closed = s.world.closed) (hjob : m.job = n.job)
    (hsettles : d.tag = i → n.log.any settles = false → m.log.any settles = false) :
    Owed ⟨w, s.nodes.set i m⟩ d := by
  obtain ⟨hqueue, k, hk, hhandles, hunsettled⟩ := h.queue, h.handler
  refine ⟨hqueue, ?_, by simpa only [hclosed] using h.opened⟩
  by_cases htag : i = d.tag
  · subst htag
    rw [here, Option.some.injEq] at hk
    subst hk
    exact ⟨m, List.getElem?_set_self (List.getElem?_eq_some_iff.mp here).1, hjob.trans hhandles,
      hsettles rfl hunsettled⟩
  · refine ⟨k, ?_, hhandles, hunsettled⟩
    simp only
    rw [List.getElem?_set_ne htag, hk]

/-- A message is handed to a new handler. -/
theorem AllOwed.start {s : Workers} {j : WorkerJob} {w : World} {c : Script Unit}
    (h : AllOwed s) (hborn : World.lossyBirth s.nodes.length j s.world = some w) :
    AllOwed ⟨w, s.nodes ++ [⟨j, [], some c⟩]⟩ := by
  obtain ⟨v, hv, rfl⟩ := World.lossyBirth_eq_some hborn
  have hclosed := World.birth_closed hv
  have hold : ∀ d, Owed s d →
      Owed ⟨v.opening s.nodes.length, s.nodes ++ [⟨j, [], some c⟩]⟩ d := by
    rintro d ⟨hqueue, ⟨n, hn, hjob, hunsettled⟩, hopened⟩
    refine ⟨hqueue, ⟨n, ?_, hjob, hunsettled⟩, ?_⟩
    · simp only
      rw [List.getElem?_append_left (List.getElem?_eq_some_iff.mp hn).1]
      exact hn
    · intro hmem
      exact hopened (hclosed ▸ (List.mem_filter.mp hmem).1)
  cases j with
  | relayTick =>
    obtain rfl := Option.some.inj hv
    exact fun d hd => hold d (h d hd)
  | handle k msg =>
    simp only [World.birth] at hv
    split at hv
    · rename_i m b hdeliver
      split at hv
      · rename_i hm
        obtain rfl := Option.some.inj hv
        obtain ⟨x, rest, -, -, rfl⟩ := Broker.State.deliver_eq_some hdeliver
        intro d hd
        rcases List.mem_append.mp hd with hd | hd
        · exact hold d (h d hd)
        · obtain rfl := List.mem_singleton.mp hd
          refine ⟨rfl, ⟨⟨.handle k msg, [], some c⟩, by simp, by rw [hm], rfl⟩, ?_⟩
          simp [World.opening]
      · cases hv
    · cases hv

theorem AllOwed.move {batch : ℕ} {s t : Workers} {l : LossyTurn} (h : AllOwed s)
    (hmove : Move (passageDiscipline batch) s l t) : AllOwed t := by
  cases hmove with
  | start born => exact h.start born
  | run here script knows may acts =>
    rename_i i o n st k r w
    intro d hd
    rcases Worked.of_act acts with ⟨-, hworked⟩ | hbarred
    · obtain ⟨hold, hsettles⟩ := hworked.unacked hd
      refine (h d hold).set here hworked.closed_eq rfl ?_
      intro htag hunsettled
      simp [hunsettled, hsettles htag]
    · obtain rfl := hbarred.world
      refine (h d hd).set here rfl rfl ?_
      intro htag
      exact absurd (htag ▸ hbarred.closed) (h d hd).opened
  | crash here live =>
    rename_i i n
    have hold : ∀ d ∈ (World.crash i n.job s.world).broker.unacked, d ∈ s.world.broker.unacked := by
      intro d hd
      cases hj : n.job with
      | relayTick => simpa [World.crash, hj] using hd
      | handle k msg =>
        simp only [World.crash, hj] at hd
        exact (unacked_requeue hd).1
    have hclosed : (World.crash i n.job s.world).closed = s.world.closed := by
      cases n.job <;> rfl
    intro d hd
    exact (h d (hold d hd)).set here hclosed rfl (fun _ h => h)
  | event happens =>
    rename_i e w
    intro d hd
    cases e with
    | channelLost i =>
      obtain rfl := Option.some.inj happens
      obtain ⟨hold, htag⟩ := unacked_requeue hd
      refine ⟨(h d hold).queue, (h d hold).handler, ?_⟩
      intro hmem
      rcases List.mem_cons.mp hmem with rfl | hmem
      · exact htag rfl
      · exact (h d hold).opened hmem
    | plain e =>
      have hold : d ∈ s.world.broker.unacked := by
        cases e with
        | tick n =>
          obtain rfl := Option.some.inj happens
          exact hd
        | enqueue id m e type payload since =>
          obtain ⟨-, -, rfl⟩ := World.enqueue_eq_some happens
          exact hd
        | register row =>
          obtain rfl := Option.some.inj happens
          exact hd
        | expire =>
          obtain ⟨b, hb, rfl⟩ := Option.map_eq_some_iff.mp happens
          simpa [unacked_expire hb] using hd
      refine ⟨(h d hold).queue, (h d hold).handler, ?_⟩
      show d.tag ∉ w.closed
      rw [World.event_closed happens]
      exact (h d hold).opened

theorem allOwed_begin : AllOwed (Pool.begin .empty) := by
  intro d hd
  cases hd

section Runs

variable {batch : ℕ} {ok : Workers → LossyTurn → Prop} {s : Workers}

theorem allOwed_runs (h : Runs lossyDevice (workerProgramOf batch) ok (Pool.begin .empty) s) :
    AllOwed s :=
  Runs.invariant (K := passageDiscipline batch) (fun hi hmove _ => hi.move hmove)
    (Discipline.follows_begin _ .empty) h allOwed_begin

theorem ended_runs (h : Runs lossyDevice (workerProgramOf batch) ok (Pool.begin .empty) s) :
    s.Obeys lossyGives passage (fun j log _ => Concluded j log) (fun j log _ => Broke j log) := by
  refine ((passageDiscipline batch).follows_begin .empty).obeys_runs ?_ h (Pool.obeys_begin _)
  intro j
  cases j with
  | relayTick => exact (relayTickOf_passes batch).imp (fun _ _ _ => trivial) (fun _ _ _ => trivial)
  | handle c msg => exact handle_passes msg c

section End

variable {i c : ℕ} {n : Worker} {msg : Message}

/-- A handler that has returned has settled its message. -/
theorem settled_runs (h : Runs lossyDevice (workerProgramOf batch) ok (Pool.begin .empty) s)
    (hn : s.nodes[i]? = some n) (hjob : n.job = .handle c msg) {a : Unit}
    (hscript : n.script = some (.ret a)) : Settled msg n.log := by
  have hended := ended_runs h n (List.mem_of_getElem? hn) _ hscript
  rw [hjob] at hended
  exact hended

/-- One that has thrown has found its channel closed. -/
theorem severed_runs (h : Runs lossyDevice (workerProgramOf batch) ok (Pool.begin .empty) s)
    (hn : s.nodes[i]? = some n) (hjob : n.job = .handle c msg) {e : String}
    (hscript : n.script = some (.throw e)) : Severed msg n.log ∧ i ∈ s.world.closed := by
  have hended := ended_runs h n (List.mem_of_getElem? hn) _ hscript
  rw [hjob] at hended
  have hsevered : Severed msg n.log := hended
  have hknows := (((passageDiscipline batch).follows_begin .empty).runs h).knows i n hn
  exact ⟨hsevered, hknows hsevered.broken⟩

/-- What is settled is owed no more. -/
theorem Settled.unowed (h : Settled msg n.log) (hs : AllOwed s) (hn : s.nodes[i]? = some n) :
    ∀ d ∈ s.world.broker.unacked, d.tag ≠ i := by
  rintro d hd rfl
  obtain ⟨m, hm, -, hopen⟩ := (hs d hd).handler
  rw [hn, Option.some.injEq] at hm
  subst hm
  have hpos : 0 < n.log.countP settles := by
    rw [h.once]
    exact Nat.one_pos
  obtain ⟨e, he, hsettles⟩ := List.countP_pos_iff.mp hpos
  rw [List.any_eq_false] at hopen
  exact hopen e he hsettles

/-- A handler that comes to its end has settled its message, once: the event is
marked delivered, or one copy is published, or the message is dropped. Or else
its channel was closed before it could, so it threw, and the broker has taken the
message back. -/
theorem handlers_end (h : Runs lossyDevice (workerProgramOf batch) ok (Pool.begin .empty) s)
    {i c : ℕ} {n : Worker} {msg : Message} {script : Script Unit} (hn : s.nodes[i]? = some n)
    (hjob : n.job = .handle c msg) (hscript : n.script = some script)
    (hdone : script.finished = true) :
    (script = .ret () ∧ n.log.countP settles = 1 ∧ Ending msg n.log (fates n.log) ∨
      i ∈ s.world.closed ∧ (∃ e, script = .throw e) ∧ n.log.countP settles = 0 ∧
        ∃ rest, Ending msg n.log (fates n.log ++ rest)) ∧
    ∀ d ∈ s.world.broker.unacked, d.tag ≠ i := by
  cases script with
  | ret a =>
    have hsettled := settled_runs h hn hjob hscript
    exact ⟨.inl ⟨rfl, hsettled.once, hsettled.fate⟩, hsettled.unowed (allOwed_runs h) hn⟩
  | throw e =>
    obtain ⟨hsevered, hclosed⟩ := severed_runs h hn hjob hscript
    refine ⟨.inr ⟨hclosed, ⟨e, rfl⟩, ?_, hsevered.fate⟩, ?_⟩
    · rw [List.countP_eq_zero]
      exact List.any_eq_false.mp hsevered.unsettled
    · rintro d hd rfl
      exact (allOwed_runs h d hd).opened hclosed
  | _ => cases hdone

end End

/-- The endpoint answers 500, and the handler publishes a copy. -/
def refusedOnce : List LossyTurn :=
  List.map lossless (publishOne ++ [.start (.handle 0 messageOne), .run 1 .done,
    .run 1 (.status 500), .run 1 .done, .run 1 .done])

/-- The channel is closed while the handler of the copy waits for the answer. -/
def closedOnce : List LossyTurn :=
  refusedOnce ++ List.map lossless [.event (.tick (milliseconds (backoffMs 1))), .event .expire,
    .start (.handle 0 ⟨messageOne.content, some 2⟩), .run 2 .done] ++
  [.event (.channelLost 2), .run 2 (.plain (.status 500)), .run 2 (.plain (.failed "closed")),
    .run 2 (.plain (.failed "closed"))]

theorem handlers_end_refused : ∃ (s : Workers) (n m : Worker) (script script' : Script Unit),
    (fates n.log = [retryCopy messageOne] ∧ fates m.log = [] ∧ s.world.closed = [2]) ∧
    ((script = .ret () ∧ n.log.countP settles = 1 ∧ Ending messageOne n.log (fates n.log) ∨
      1 ∈ s.world.closed ∧ (∃ e, script = .throw e) ∧ n.log.countP settles = 0 ∧
        ∃ rest, Ending messageOne n.log (fates n.log ++ rest)) ∧
      ∀ d ∈ s.world.broker.unacked, d.tag ≠ 1) ∧
    (script' = .ret () ∧ m.log.countP settles = 1 ∧
        Ending ⟨messageOne.content, some 2⟩ m.log (fates m.log) ∨
      2 ∈ s.world.closed ∧ (∃ e, script' = .throw e) ∧ m.log.countP settles = 0 ∧
        ∃ rest, Ending ⟨messageOne.content, some 2⟩ m.log (fates m.log ++ rest)) ∧
      ∀ d ∈ s.world.broker.unacked, d.tag ≠ 2 := by
  have hrun : (Pool.runWhile lossyDevice (workerProgramOf RELAY_BATCH) (fun _ _ => true)
      (Pool.begin .empty) closedOnce).any (fun s => decide (s.world.closed = [2]) &&
        (s.nodes[1]?).any (fun n => decide (n.job = .handle 0 messageOne) &&
          n.script.any Client.finished && decide (fates n.log = [retryCopy messageOne])) &&
        (s.nodes[2]?).any (fun m => decide (m.job = .handle 0 ⟨messageOne.content, some 2⟩) &&
          m.script.any Client.finished && decide (fates m.log = []))) = true := by decide +kernel
  obtain ⟨s, hs, hend⟩ := Runs.exists_of_runWhile hrun
  simp only [Bool.and_eq_true, Option.any_eq_true, decide_eq_true_eq] at hend
  obtain ⟨⟨hclosed, n, hn, ⟨hjob, script, hscript, hdone⟩, hfates⟩,
    m, hm, ⟨hjob', script', hscript', hdone'⟩, hfates'⟩ := hend
  exact ⟨s, n, m, script, script', ⟨hfates, hfates', hclosed⟩,
    handlers_end hs hn hjob hscript hdone, handlers_end hs hm hjob' hscript' hdone'⟩

end Runs

end PaymentApis
