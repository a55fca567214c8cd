import PaymentApis.DeliveryStatus

/-!
# Custody of an event

An event that the relay has marked published is in the hands of the broker: a
message of it waits in a queue, or is being handled, or was answered with a
2xx, or lies in the dead-letter queue. A handler gives a message up only after
one of these holds without it, except where it could not look up the endpoint:
it then rejects the message, and the main queue has no dead-letter exchange.
-/

namespace PaymentApis

open TxStore Processes

/-! ## What is stated -/

/-- An endpoint has answered a request for the event with a 2xx. -/
def World.Answered (w : World) (id : Uuid) : Prop :=
  ∃ a ∈ w.attempts, a.outboxId = id ∧ a.status.any isOk = true

instance (w : World) (id : Uuid) : Decidable (w.Answered id) :=
  inferInstanceAs (Decidable (∃ a ∈ w.attempts, a.outboxId = id ∧ a.status.any isOk = true))

/-- A message of the event is in the queue. -/
def World.Queued (w : World) (q : Queue) (id : Uuid) : Prop :=
  ∃ x ∈ w.broker.ready q, x.message.content.outboxId = id

instance (w : World) (q : Queue) (id : Uuid) : Decidable (w.Queued q id) :=
  inferInstanceAs (Decidable (∃ x ∈ w.broker.ready q, x.message.content.outboxId = id))

/-- The event can still be delivered. -/
def World.Recoverable (w : World) (r : WebhookEventRow) : Prop :=
  r.status = .pending ∨ r.status = .publishing ∨ w.Queued Q_DELIVER r.id ∨ w.Queued Q_RETRY r.id ∨
    ∃ d ∈ w.broker.unacked, d.message.content.outboxId = r.id

instance (w : World) (r : WebhookEventRow) : Decidable (w.Recoverable r) :=
  inferInstanceAs (Decidable (_ ∨ _ ∨ _ ∨ _ ∨ ∃ d ∈ w.broker.unacked, _))

/-- The consumer fails to look an endpoint up. -/
def LookupFails (s : Workers) : Turn → Bool
  | .run i (.failed e) =>
    match s.action (.run i (.failed e)) with
    | some (.endpointFindById _) => true
    | _ => false
  | _ => false

/-! ## Counting custody -/

/-- The traces of an event outside the processes. -/
def World.kept (w : World) (id : Uuid) : ℕ :=
  w.broker.count (carries id) .deliver + w.broker.count (carries id) .retry +
    w.broker.count (carries id) .dead +
    w.attempts.countP (fun a => decide (a.outboxId = id) && a.status.any isOk)

/-- The event's message is this handler's to account for. -/
def Worker.carrying (id : Uuid) (n : Worker) : ℕ :=
  match n.job with
  | .relayTick => 0
  | .handle _ msg => if carries id msg && n.script.isSome && !did handsOver n.log then 1 else 0

def Workers.custody (s : Workers) (id : Uuid) : ℕ :=
  s.world.kept id + s.total (Worker.carrying id)

/-- The handler has acknowledged or rejected its message. -/
def acks : Done → Bool
  | ⟨.ack, _⟩ => true
  | ⟨.nack, _⟩ => true
  | _ => false

/-- What a relay tick and a handler have done, and where it left the event. -/
structure Worker.Kept (s : Workers) (i : ℕ) (n : Worker) : Prop where
  sent : i ∉ s.world.refused → ∀ id ∈ published n.log, 0 < s.custody id
  clear : did confirms n.log = true → i ∉ s.world.refused
  handler : ∀ consumer msg, n.job = .handle consumer msg →
    did lookupFails n.log = false ∧
    (did handsOver n.log = true → 0 < s.custody msg.content.outboxId) ∧
    (did acks n.log = true → did handsOver n.log = true) ∧
    (n.script.isSome = true → did acks n.log = false →
      ∃ d ∈ s.world.broker.unacked, d.tag = i ∧ d.message = msg)

structure InCustody (s : Workers) : Prop where
  rows : ∀ r ∈ s.world.events,
    r.status = .pending ∨ r.status = .publishing ∨ 0 < s.custody r.id
  kept : ∀ i n, s.nodes[i]? = some n → Worker.Kept s i n
  refused : ∀ i ∈ s.world.refused, i < s.nodes.length
  unacked : ∀ d ∈ s.world.broker.unacked, d.queue = Q_DELIVER ∧
    ∃ n consumer, s.nodes[d.tag]? = some n ∧ n.job = .handle consumer d.message

/-! ## What an action does to the world -/

/-- What an action of process `i` leaves of what the others rely on. -/
structure World.Frame (i : ℕ) (w w' : World) : Prop where
  kept : ∀ id, w.kept id ≤ w'.kept id
  refused : ∀ j ∈ w.refused, j ∈ w'.refused
  refused_only : ∀ j ∈ w'.refused, j = i ∨ j ∈ w.refused
  unacked : ∀ d ∈ w.broker.unacked, d.tag ≠ i → d ∈ w'.broker.unacked
  unacked_only : ∀ d ∈ w'.broker.unacked, d ∈ w.broker.unacked

theorem World.Frame.refl (i : ℕ) (w : World) : World.Frame i w w where
  kept := fun _ => le_rfl
  refused := fun _ h => h
  refused_only := fun _ h => .inr h
  unacked := fun _ h _ => h
  unacked_only := fun _ h => h

/-- Updating rows touches neither the broker nor the requests. -/
theorem World.Frame.of_events (i : ℕ) (w : World) (rows : List WebhookEventRow) :
    World.Frame i w { w with events := rows } where
  kept := fun _ => le_rfl
  refused := fun _ h => h
  refused_only := fun _ h => .inr h
  unacked := fun _ h _ => h
  unacked_only := fun _ h => h

theorem World.Frame.publish (i : ℕ) (w : World) (x : Exchange) (key : String) (m : Message)
    (expiresAt : Option ℕ) :
    World.Frame i w { w with broker := w.broker.publish topology x key m expiresAt } where
  kept := by
    intro id
    simp only [World.kept, Broker.State.count_publish]
    omega
  refused := fun _ h => h
  refused_only := fun _ h => .inr h
  unacked := fun _ h _ => h
  unacked_only := fun _ h => h

theorem World.Frame.attempt (i : ℕ) (w : World) (a : Attempt) :
    World.Frame i w { w with attempts := w.attempts ++ [a] } where
  kept := by
    intro id
    simp only [World.kept, List.countP_append]
    omega
  refused := fun _ h => h
  refused_only := fun _ h => .inr h
  unacked := fun _ h _ => h
  unacked_only := fun _ h => h

theorem World.Frame.ack (i : ℕ) (w : World) :
    World.Frame i w { w with broker := w.broker.ack i } where
  kept := fun _ => le_rfl
  refused := fun _ h => h
  refused_only := fun _ h => .inr h
  unacked := fun d h hd => List.mem_filter.mpr ⟨h, by simpa using hd⟩
  unacked_only := fun _ h => (List.mem_filter.mp h).1

theorem World.Frame.nack (i : ℕ) {w : World} (h : ∀ d ∈ w.broker.unacked, d.queue = Q_DELIVER) :
    World.Frame i w { w with broker := w.broker.nack topology i } := by
  unfold Broker.State.nack
  split
  · exact .refl i w
  · rename_i d hd
    have hqueue := h d (List.mem_of_find?_eq_some hd)
    rw [Broker.State.bury, hqueue]
    exact .ack i w

theorem statement_eq_some {α : Type} {o : Outcome} {w w' : World} {x : α × World}
    {r : Except String α} (h : statement o w x = some (r, w')) :
    (r = .ok x.1 ∧ w' = x.2) ∨ ∃ e, r = .error e ∧ w' = w := by
  cases o with
  | done =>
    cases h
    exact .inl ⟨rfl, rfl⟩
  | failed e =>
    cases h
    exact .inr ⟨e, rfl, rfl⟩
  | status n => cases h

theorem World.act_frame {i : ℕ} {st : Op} {o : Outcome} {w w' : World}
    {r : Except String (Answer st)} (hact : World.act i st o w = some (r, w'))
    (h : ∀ d ∈ w.broker.unacked, d.queue = Q_DELIVER) : World.Frame i w w' := by
  have hstatement : ∀ {α : Type} {y : Except String α} {x : α} {v : List WebhookEventRow},
      statement o w (x, { w with events := v }) = some (y, w') → World.Frame i w w' := by
    intro α y x v hst
    rcases statement_eq_some hst with ⟨-, rfl⟩ | ⟨e, -, rfl⟩
    · exact .of_events i w v
    · exact .refl i w'
  cases st with
  | eventReapStalePublishing k => exact hstatement hact
  | eventClaimForPublishing limit => exact hstatement hact
  | eventMarkPublished ids => exact hstatement hact
  | eventResetToPending ids => exact hstatement hact
  | eventMarkDelivered id => exact hstatement hact
  | eventMarkFailed id k e => exact hstatement hact
  | endpointFindById id => exact hstatement (v := w.events) hact
  | confirmPublish x key m =>
    cases o <;> cases hact
    · exact .publish i w x key m none
    · exact ⟨fun _ => le_rfl, fun _ h => List.mem_cons_of_mem _ h,
        fun _ h => List.mem_cons.mp h, fun _ h _ => h, fun _ h => h⟩
  | waitForConfirms =>
    cases o with
    | done =>
      simp only [World.act] at hact
      split at hact <;> cases hact
      exact .refl i w
    | failed e =>
      cases hact
      exact .refl i w
    | status k => cases hact
  | publish x key m expiration =>
    cases o <;> cases hact
    exact .publish i w x key m _
  | fetch id post =>
    cases o <;> cases hact
    · exact .attempt i w _
    · exact .attempt i w _
  | ack =>
    cases o <;> cases hact
    exact .ack i w
  | nack =>
    cases o <;> cases hact
    exact .nack i h

/-- Which rows a statement rewrites, and how. -/
inductive Edits (w : World) :
    Op → (WebhookEventRow → Bool) → (WebhookEventRow → WebhookEventRow) → Prop
  | reaped {n} : Edits w (.eventReapStalePublishing n) (webhookEventRepository.stale w.now n)
      (fun r => { r with status := .pending, updatedAt := w.now })
  | claimed {limit} : Edits w (.eventClaimForPublishing limit)
      (fun r => decide (r.id ∈ webhookEventRepository.pendingIds w limit))
      (webhookEventRepository.publishingFrom w.now)
  | published {ids} : Edits w (.eventMarkPublished ids) (fun r => decide (r.id ∈ ids))
      (fun r => { r with status := .published, updatedAt := w.now })
  | reset {ids} : Edits w (.eventResetToPending ids) (fun r => decide (r.id ∈ ids))
      (fun r => { r with status := .pending, updatedAt := w.now })
  | delivered {id} : Edits w (.eventMarkDelivered id) (fun r => decide (r.id = id))
      (fun r => { r with status := .delivered, updatedAt := w.now })
  | failed {id n e} : Edits w (.eventMarkFailed id n e) (fun r => decide (r.id = id))
      (fun r => { r with
        status := .failed
        attempts := n
        lastError := some e
        updatedAt := w.now })

theorem Edits.id_eq {w : World} {st : Op} {p : WebhookEventRow → Bool}
    {g : WebhookEventRow → WebhookEventRow} (h : Edits w st p g) (r : WebhookEventRow) :
    (g r).id = r.id := by
  cases h <;> rfl

/-- An action leaves the rows as they are, or is a statement that rewrites some. -/
theorem World.act_edits {i : ℕ} {st : Op} {o : Outcome} {w w' : World}
    {r : Except String (Answer st)} (hact : World.act i st o w = some (r, w')) :
    w'.events = w.events ∨
      ∃ p g, Edits w st p g ∧ w'.events = (webhookEventRepository.updateWhere p g w).events := by
  have hupdate : ∀ {α : Type} {y : Except String α} {x : α} {p : WebhookEventRow → Bool}
      {g : WebhookEventRow → WebhookEventRow}, Edits w st p g →
      statement o w (x, webhookEventRepository.updateWhere p g w) = some (y, w') →
      w'.events = w.events ∨
        ∃ p g, Edits w st p g ∧ w'.events = (webhookEventRepository.updateWhere p g w).events := by
    intro α y x p g hedits hst
    rcases statement_eq_some hst with ⟨-, rfl⟩ | ⟨e, -, rfl⟩
    · exact .inr ⟨p, g, hedits, rfl⟩
    · exact .inl rfl
  cases st with
  | eventReapStalePublishing k => exact hupdate .reaped hact
  | eventClaimForPublishing limit => exact hupdate .claimed hact
  | eventMarkPublished ids => exact hupdate .published hact
  | eventResetToPending ids => exact hupdate .reset hact
  | eventMarkDelivered id => exact hupdate .delivered hact
  | eventMarkFailed id k e => exact hupdate .failed hact
  | endpointFindById id =>
    rcases statement_eq_some hact with ⟨-, rfl⟩ | ⟨e, -, rfl⟩ <;> exact .inl rfl
  | confirmPublish x key m => cases o <;> cases hact <;> exact .inl rfl
  | waitForConfirms =>
    cases o with
    | done =>
      simp only [World.act] at hact
      split at hact <;> cases hact
      exact .inl rfl
    | failed e =>
      cases hact
      exact .inl rfl
    | status k => cases hact
  | publish x key m expiration =>
    cases o <;> cases hact
    exact .inl rfl
  | fetch id post => cases o <;> cases hact <;> exact .inl rfl
  | ack =>
    cases o <;> cases hact
    exact .inl rfl
  | nack =>
    cases o <;> cases hact
    exact .inl rfl

/-- The rows an action sets to a status that ends the relay's work on them. -/
def Op.sets : Op → List Uuid
  | .eventMarkPublished ids => ids
  | .eventMarkDelivered id => [id]
  | .eventMarkFailed id _ _ => [id]
  | _ => []

theorem World.act_rows {i : ℕ} {st : Op} {o : Outcome} {w w' : World}
    {r : Except String (Answer st)} (hact : World.act i st o w = some (r, w')) :
    ∀ x' ∈ w'.events, ∃ x ∈ w.events, x.id = x'.id ∧ (x'.status = x.status ∨
      x'.status = .pending ∨ x'.status = .publishing ∨ x'.id ∈ st.sets) := by
  intro x' hx'
  rcases World.act_edits hact with hevents | ⟨p, g, hedits, hevents⟩
  · exact ⟨x', hevents ▸ hx', rfl, .inl rfl⟩
  · rw [hevents] at hx'
    obtain ⟨x, hx, rfl⟩ := List.mem_map.mp hx'
    by_cases hp : p x = true
    · rw [if_pos hp]
      refine ⟨x, hx, (hedits.id_eq x).symm, .inr ?_⟩
      cases hedits with
      | reaped => exact .inl rfl
      | claimed => exact .inr (.inl rfl)
      | published => exact .inr (.inr (of_decide_eq_true hp))
      | reset => exact .inl rfl
      | delivered => exact .inr (.inr (List.mem_singleton.mpr (of_decide_eq_true hp)))
      | failed => exact .inr (.inr (List.mem_singleton.mpr (of_decide_eq_true hp)))
    · rw [if_neg hp]
      exact ⟨x, hx, rfl, .inl rfl⟩

/-! ## Custody never shrinks -/

section Step

variable {s : Workers} {i : ℕ} {n : Worker} {w : World}

theorem Workers.custody_set (hn : s.nodes[i]? = some n) (m : Worker) (id : Uuid) :
    Workers.custody ⟨w, s.nodes.set i m⟩ id + s.world.kept id + Worker.carrying id n =
      s.custody id + w.kept id + Worker.carrying id m := by
  have htotal := Pool.total_set (f := Worker.carrying id) hn w m
  unfold Workers.custody
  simp only at htotal ⊢
  omega

/-- An action that hands a message over leaves a trace of its own. -/
theorem World.kept_handsOver {st : Op} {o : Outcome} {r : Except String (Answer st)}
    {log : List Done} {msg : Message} (hact : World.act i st o s.world = some (r, w))
    (hmay : handleMay msg log st) (hhands : handsOver ⟨st, r⟩ = true) (id : Uuid) :
    s.world.kept id + (if carries id msg then 1 else 0) ≤ w.kept id := by
  cases st with
  | publish x key m expiration =>
    obtain ⟨rfl, hm, -, -, hexit⟩ := hmay
    cases o <;> cases hact
    rcases hexit with ⟨rfl, -⟩ | ⟨rfl, -⟩
    · simp only [World.kept, Broker.State.count_publish, route_webhooksDead, List.mem_singleton,
        reduceCtorEq, false_and, true_and, if_false, carries, hm, decide_eq_true_eq]
      omega
    · simp only [World.kept, Broker.State.count_publish, route_webhooksRetry, List.mem_singleton,
        reduceCtorEq, false_and, true_and, if_false, carries, hm, decide_eq_true_eq]
      omega
  | fetch outboxId post =>
    obtain ⟨rfl, -, -⟩ := hmay
    cases o with
    | done => cases hact
    | failed e =>
      cases hact
      simp [handsOver, answers, deadLetters, retries] at hhands
    | status k =>
      cases hact
      have hok : isOk k = true := by
        simpa [handsOver, answers, deadLetters, retries] using hhands
      simp only [World.kept, List.countP_append, List.countP_singleton, Option.any_some, hok,
        Bool.and_true, carries, decide_eq_true_eq]
      omega
  | eventReapStalePublishing _ => exact hmay.elim
  | eventClaimForPublishing _ => exact hmay.elim
  | eventMarkPublished _ => exact hmay.elim
  | eventResetToPending _ => exact hmay.elim
  | confirmPublish _ _ _ => exact hmay.elim
  | waitForConfirms => exact hmay.elim
  | eventMarkDelivered _ => simp [handsOver, answers, deadLetters, retries] at hhands
  | eventMarkFailed _ _ _ => simp [handsOver, answers, deadLetters, retries] at hhands
  | endpointFindById _ => simp [handsOver, answers, deadLetters, retries] at hhands
  | ack => simp [handsOver, answers, deadLetters, retries] at hhands
  | nack => simp [handsOver, answers, deadLetters, retries] at hhands

theorem Workers.custody_run {st : Op} {o : Outcome} {r : Except String (Answer st)}
    {c : Script Unit} (hn : s.nodes[i]? = some n) (hlive : n.script.isSome = true)
    (hmay : may n.job n.log st) (hact : World.act i st o s.world = some (r, w))
    (hframe : World.Frame i s.world w) (id : Uuid) :
    s.custody id ≤ Workers.custody ⟨w, s.nodes.set i ⟨n.job, n.log ++ [⟨st, r⟩], some c⟩⟩ id := by
  have hset := Workers.custody_set (w := w) hn ⟨n.job, n.log ++ [⟨st, r⟩], some c⟩ id
  have hkept := hframe.kept id
  have hcarrying : s.world.kept id + Worker.carrying id n ≤
      w.kept id + Worker.carrying id ⟨n.job, n.log ++ [⟨st, r⟩], some c⟩ := by
    cases hjob : n.job with
    | relayTick => simpa [Worker.carrying, hjob] using hkept
    | handle consumer msg =>
      rw [hjob] at hmay
      cases hhands : handsOver ⟨st, r⟩ with
      | false =>
        simp only [Worker.carrying, hjob, did_append, hhands, hlive, Bool.or_false,
          Option.isSome_some]
        omega
      | true =>
        have htrace := World.kept_handsOver hact hmay hhands id
        have hbefore : Worker.carrying id n ≤ if carries id msg then 1 else 0 := by
          simp only [Worker.carrying, hjob]
          cases carries id msg
          · simp
          · exact Nat.le_of_lt_succ (by split <;> decide)
        have hafter : Worker.carrying id
            ⟨.handle consumer msg, n.log ++ [⟨st, r⟩], some c⟩ = 0 := by
          simp [Worker.carrying, hhands]
        omega
  omega

end Step

/-! ## Every step -/

theorem Worker.Kept.mono {s t : Workers} {j : ℕ} {n : Worker} (h : Worker.Kept s j n)
    (hcustody : ∀ id, s.custody id ≤ t.custody id)
    (hrefused : ∀ k ∈ s.world.refused, k ∈ t.world.refused)
    (honly : j ∈ t.world.refused → j ∈ s.world.refused)
    (hunacked : ∀ d ∈ s.world.broker.unacked, d.tag = j → d ∈ t.world.broker.unacked) :
    Worker.Kept t j n where
  sent := by
    intro hj id hid
    exact (h.sent (fun hmem => hj (hrefused j hmem)) id hid).trans_le (hcustody id)
  clear := fun hconfirmed hmem => h.clear hconfirmed (honly hmem)
  handler := by
    intro consumer msg hjob
    obtain ⟨hlookup, hhanded, hacked, howed⟩ := h.handler consumer msg hjob
    refine ⟨hlookup, fun hd => (hhanded hd).trans_le (hcustody _), hacked, ?_⟩
    intro hlive hopen
    obtain ⟨d, hd, htag, hmsg⟩ := howed hlive hopen
    exact ⟨d, hunacked d hd htag, htag, hmsg⟩

section Moves

variable {s : Workers} {i : ℕ} {n : Worker} {w : World}

theorem InCustody.queues (h : InCustody s) : ∀ d ∈ s.world.broker.unacked, d.queue = Q_DELIVER :=
  fun d hd => (h.unacked d hd).1

/-- Process `i` moves: what is left to show concerns its own record. -/
theorem InCustody.set (h : InCustody s) (hn : s.nodes[i]? = some n) {m : Worker}
    (hjob : m.job = n.job) (hframe : World.Frame i s.world w)
    (hcustody : ∀ id, s.custody id ≤ Workers.custody ⟨w, s.nodes.set i m⟩ id)
    (hrows : ∀ x' ∈ w.events, ∃ x ∈ s.world.events, x.id = x'.id ∧ (x'.status = x.status ∨
      x'.status = .pending ∨ x'.status = .publishing ∨ 0 < s.custody x'.id))
    (hown : Worker.Kept ⟨w, s.nodes.set i m⟩ i m) : InCustody ⟨w, s.nodes.set i m⟩ where
  rows := by
    intro x' hx'
    obtain ⟨x, hx, hid, hstatus⟩ := hrows x' hx'
    rcases hstatus with hsame | hpending | hpublishing | hkept
    · rw [hsame]
      rcases h.rows x hx with hp | hp | hp
      · exact .inl hp
      · exact .inr (.inl hp)
      · exact .inr (.inr (hid ▸ hp.trans_le (hcustody x.id)))
    · exact .inl hpending
    · exact .inr (.inl hpublishing)
    · exact .inr (.inr (hkept.trans_le (hcustody x'.id)))
  kept := by
    intro j m' hj
    rw [List.getElem?_set] at hj
    split at hj
    · rename_i heq
      split at hj
      · cases hj
        exact heq ▸ hown
      · cases hj
    · rename_i hne
      refine (h.kept j m' hj).mono hcustody hframe.refused ?_ ?_
      · intro hmem
        exact (hframe.refused_only j hmem).resolve_left (fun heq => hne heq.symm)
      · intro d hd htag
        exact hframe.unacked d hd (fun heq => hne (heq.symm.trans htag))
  refused := by
    intro j hj
    rw [List.length_set]
    rcases hframe.refused_only j hj with rfl | hj
    · exact (List.getElem?_eq_some_iff.mp hn).1
    · exact h.refused j hj
  unacked := by
    intro d hd
    obtain ⟨hqueue, m', consumer, hm', hmjob⟩ := h.unacked d (hframe.unacked_only d hd)
    refine ⟨hqueue, ?_⟩
    by_cases htag : i = d.tag
    · subst htag
      rw [hn, Option.some.injEq] at hm'
      subst hm'
      refine ⟨m, consumer, ?_, hjob.trans hmjob⟩
      rw [List.getElem?_set_self (List.getElem?_eq_some_iff.mp hn).1]
    · exact ⟨m', consumer, by rw [List.getElem?_set_ne htag]; exact hm', hmjob⟩

/-- The events a relay tick or a handler is about to mark are in custody. -/
theorem InCustody.sets (h : InCustody s) (hn : s.nodes[i]? = some n) {st : Op}
    (hmay : may n.job n.log st) : ∀ id ∈ st.sets, 0 < s.custody id := by
  have hkept := h.kept i n hn
  intro id hid
  cases st with
  | eventMarkPublished ids =>
    cases hjob : n.job <;> rw [hjob] at hmay
    · obtain ⟨rfl, hpublished, hconfirmed, -⟩ := hmay
      exact hkept.sent (hkept.clear hconfirmed) id (hpublished ▸ hid)
    · exact hmay.elim
  | eventMarkDelivered id' =>
    obtain rfl := List.mem_singleton.mp hid
    cases hjob : n.job <;> rw [hjob] at hmay
    · exact hmay.elim
    · obtain ⟨rfl, hanswered, -, -⟩ := hmay
      exact (hkept.handler _ _ hjob).2.1 (by simp [did_handsOver, hanswered])
  | eventMarkFailed id' k e =>
    obtain rfl := List.mem_singleton.mp hid
    cases hjob : n.job <;> rw [hjob] at hmay
    · exact hmay.elim
    · obtain ⟨rfl, hdead, -, -⟩ := hmay
      exact (hkept.handler _ _ hjob).2.1 (by simp [did_handsOver, hdead])
  | _ => exact absurd hid List.not_mem_nil

end Moves

/-- Only a publish on the confirm channel can be refused, and only an
acknowledgement takes a message off the handler. -/
theorem World.act_keeps {i : ℕ} {st : Op} {o : Outcome} {w w' : World}
    {r : Except String (Answer st)} (hact : World.act i st o w = some (r, w')) :
    ((∀ x key m, st ≠ .confirmPublish x key m) → w'.refused = w.refused) ∧
      (acks ⟨st, r⟩ = false → w'.broker.unacked = w.broker.unacked) := by
  have hstatement : ∀ {α : Type} {y : Except String α} {x : α} {v : List WebhookEventRow},
      statement o w (x, { w with events := v }) = some (y, w') →
      w'.refused = w.refused ∧ w'.broker.unacked = w.broker.unacked := by
    intro α y x v hst
    rcases statement_eq_some hst with ⟨-, rfl⟩ | ⟨e, -, rfl⟩ <;> exact ⟨rfl, rfl⟩
  have hboth : w'.refused = w.refused ∧ w'.broker.unacked = w.broker.unacked →
      ((∀ x key m, st ≠ .confirmPublish x key m) → w'.refused = w.refused) ∧
        (acks ⟨st, r⟩ = false → w'.broker.unacked = w.broker.unacked) :=
    fun h => ⟨fun _ => h.1, fun _ => h.2⟩
  cases st with
  | eventReapStalePublishing k => exact hboth (hstatement hact)
  | eventClaimForPublishing limit => exact hboth (hstatement hact)
  | eventMarkPublished ids => exact hboth (hstatement hact)
  | eventResetToPending ids => exact hboth (hstatement hact)
  | eventMarkDelivered id => exact hboth (hstatement hact)
  | eventMarkFailed id k e => exact hboth (hstatement hact)
  | endpointFindById id => exact hboth (hstatement (v := w.events) hact)
  | confirmPublish x key m =>
    refine ⟨fun h => absurd rfl (h x key m), fun _ => ?_⟩
    cases o <;> cases hact <;> rfl
  | waitForConfirms =>
    cases o with
    | done =>
      simp only [World.act] at hact
      split at hact <;> cases hact
      exact hboth ⟨rfl, rfl⟩
    | failed e =>
      cases hact
      exact hboth ⟨rfl, rfl⟩
    | status k => cases hact
  | publish x key m expiration =>
    cases o <;> cases hact
    exact hboth ⟨rfl, rfl⟩
  | fetch id post => cases o <;> cases hact <;> exact hboth ⟨rfl, rfl⟩
  | ack =>
    cases o <;> cases hact
    exact ⟨fun _ => rfl, fun h => absurd h.symm Bool.false_ne_true⟩
  | nack =>
    cases o <;> cases hact
    exact ⟨fun _ => rfl, fun h => absurd h.symm Bool.false_ne_true⟩

section Own

variable {s : Workers} {i : ℕ} {n : Worker} {w : World} {st : Op} {o : Outcome}
  {r : Except String (Answer st)} {c : Script Unit}

theorem InCustody.own (h : InCustody s) (hn : s.nodes[i]? = some n)
    (hlive : n.script.isSome = true) (hmay : may n.job n.log st)
    (hact : World.act i st o s.world = some (r, w)) (hlookup : lookupFails ⟨st, r⟩ = false) :
    Worker.Kept ⟨w, s.nodes.set i ⟨n.job, n.log ++ [⟨st, r⟩], some c⟩⟩ i
      ⟨n.job, n.log ++ [⟨st, r⟩], some c⟩ := by
  have hkept := h.kept i n hn
  have hframe := World.act_frame hact h.queues
  have hcustody := Workers.custody_run (c := c) hn hlive hmay hact hframe
  have htrace : ∀ ns id, 0 < w.kept id → 0 < Workers.custody ⟨w, ns⟩ id :=
    fun ns id hid => Nat.add_pos_left hid _
  obtain ⟨hrefused, hunacked⟩ := World.act_keeps hact
  refine ⟨?_, ?_, ?_⟩
  · intro hnot id hid
    rw [published_append] at hid
    rcases List.mem_append.mp hid with hid | hid
    · exact (hkept.sent (fun hmem => hnot (hframe.refused i hmem)) id hid).trans_le (hcustody id)
    · cases st with
      | confirmPublish x key m =>
        cases hjob : n.job <;> rw [hjob] at hmay
        · obtain ⟨rfl, rfl, -, -, -⟩ := hmay
          apply htrace
          cases o <;> cases hact
          · obtain rfl := List.mem_singleton.mp hid
            simp [World.kept, Broker.State.count_publish, carries]
          · exact absurd List.mem_cons_self hnot
        · exact hmay.elim
      | _ => exact absurd hid List.not_mem_nil
  · intro hconfirmed
    rw [did_append, Bool.or_eq_true] at hconfirmed
    cases st with
    | confirmPublish x key m =>
      cases hjob : n.job <;> rw [hjob] at hmay
      · obtain ⟨-, -, -, hopen, -⟩ := hmay
        rw [hopen] at hconfirmed
        simp [confirms] at hconfirmed
      · exact hmay.elim
    | waitForConfirms =>
      rcases hconfirmed with hold | hnew
      · show i ∉ w.refused
        rw [hrefused (by simp)]
        exact hkept.clear hold
      · cases o with
        | done =>
          simp only [World.act] at hact
          split at hact <;> cases hact
          assumption
        | failed e =>
          cases hact
          cases hnew
        | status k => cases hact
    | _ =>
      show i ∉ w.refused
      rw [hrefused (by simp)]
      exact hkept.clear (hconfirmed.resolve_right Bool.false_ne_true)
  · intro consumer msg hjob
    obtain ⟨hlooked, hhanded, hacked, howed⟩ := hkept.handler consumer msg hjob
    rw [hjob] at hmay
    refine ⟨?_, ?_, ?_, ?_⟩
    · rw [did_append, hlooked, hlookup]
      rfl
    · intro hhands
      rw [did_append, Bool.or_eq_true] at hhands
      rcases hhands with hold | hnew
      · exact (hhanded hold).trans_le (hcustody _)
      · apply htrace
        have hone := World.kept_handsOver hact hmay hnew msg.content.outboxId
        simp only [carries, decide_true, if_true] at hone
        omega
    · intro hacks
      rw [did_append, Bool.or_eq_true] at hacks ⊢
      rcases hacks with hold | hnew
      · exact .inl (hacked hold)
      · left
        cases st with
        | ack => exact hmay
        | nack =>
          rcases hmay with hfailed | hdead
          · rw [hlooked] at hfailed
            cases hfailed
          · simp [did_handsOver, hdead]
        | _ => cases hnew
    · intro _ hopen
      rw [did_append, Bool.or_eq_false_iff] at hopen
      obtain ⟨d, hd, htag, hmsg⟩ := howed hlive hopen.1
      refine ⟨d, ?_, htag, hmsg⟩
      show d ∈ w.broker.unacked
      rw [hunacked hopen.2]
      exact hd

theorem InCustody.run (h : InCustody s) (hn : s.nodes[i]? = some n)
    (hlive : n.script.isSome = true) (hmay : may n.job n.log st)
    (hact : World.act i st o s.world = some (r, w)) (hlookup : lookupFails ⟨st, r⟩ = false) :
    InCustody ⟨w, s.nodes.set i ⟨n.job, n.log ++ [⟨st, r⟩], some c⟩⟩ := by
  have hframe := World.act_frame hact h.queues
  refine h.set hn rfl hframe (Workers.custody_run hn hlive hmay hact hframe) ?_
    (h.own hn hlive hmay hact hlookup)
  intro x' hx'
  obtain ⟨x, hx, hid, hstatus⟩ := World.act_rows hact x' hx'
  refine ⟨x, hx, hid, ?_⟩
  rcases hstatus with hsame | hpending | hpublishing | hset
  · exact .inl hsame
  · exact .inr (.inl hpending)
  · exact .inr (.inr (.inl hpublishing))
  · exact .inr (.inr (.inr (h.sets hn hmay _ hset)))

end Own

section Others

variable {s : Workers} {w : World}

/-- A handler starts on the message it takes from the queue. -/
theorem Workers.custody_start {j : WorkerJob} {c : Script Unit}
    (hw : World.birth s.nodes.length j s.world = some w) (id : Uuid) :
    Workers.custody ⟨w, s.nodes ++ [⟨j, [], some c⟩]⟩ id = s.custody id := by
  have htotal := Pool.total_append (Worker.carrying id) s w ⟨j, [], some c⟩
  cases j with
  | relayTick =>
    obtain rfl := Option.some.inj hw
    unfold Workers.custody
    rw [htotal]
    rfl
  | handle consumer msg =>
    simp only [World.birth] at hw
    split at hw
    · rename_i m b hdeliver
      split at hw <;> cases hw
      rename_i hm
      subst hm
      have hmain := Broker.State.count_deliver (p := carries id) .deliver hdeliver
      have hretry := Broker.State.count_deliver (p := carries id) .retry hdeliver
      have hdead := Broker.State.count_deliver (p := carries id) .dead hdeliver
      unfold Workers.custody
      rw [htotal]
      simp only [World.kept, Worker.carrying, did_nil, Option.isSome_some, Bool.not_false,
        Bool.and_true, true_and, reduceCtorEq, false_and, if_false] at hmain hretry hdead ⊢
      omega
    · cases hw

theorem InCustody.start (h : InCustody s) {j : WorkerJob} {c : Script Unit}
    (hw : World.birth s.nodes.length j s.world = some w) :
    InCustody ⟨w, s.nodes ++ [⟨j, [], some c⟩]⟩ := by
  have hcustody := fun id => Workers.custody_start (c := c) hw id
  have hworld : w.events = s.world.events ∧ w.refused = s.world.refused ∧
      ∃ ds, w.broker.unacked = s.world.broker.unacked ++ ds ∧
        (∀ d ∈ ds, d.tag = s.nodes.length ∧ d.queue = Q_DELIVER ∧
          ∃ consumer, j = .handle consumer d.message) ∧
        ∀ consumer msg, j = .handle consumer msg → ∃ d ∈ ds, d.message = msg := by
    cases j with
    | relayTick =>
      obtain rfl := Option.some.inj hw
      exact ⟨rfl, rfl, [], (List.append_nil _).symm, by simp, by simp⟩
    | handle consumer msg =>
      simp only [World.birth] at hw
      split at hw
      · rename_i m b hdeliver
        split at hw <;> cases hw
        rename_i hm
        subst hm
        obtain ⟨x, rest, -, -, rfl⟩ := Broker.State.deliver_eq_some hdeliver
        exact ⟨rfl, rfl, _, rfl, by simp, by simp⟩
      · cases hw
  obtain ⟨hevents, hrefused, ds, hunacked, hds, hjobs⟩ := hworld
  have hnew : s.nodes.length ∉ w.refused := by
    rw [hrefused]
    intro hmem
    exact absurd (h.refused _ hmem) (lt_irrefl _)
  refine ⟨?_, ?_, ?_, ?_⟩
  · intro x hx
    rw [hcustody]
    exact h.rows x (hevents ▸ hx)
  · intro k n hn
    rw [List.getElem?_append] at hn
    split at hn
    · refine (h.kept k n hn).mono (fun id => (hcustody id).ge) ?_ ?_ ?_
      · exact fun _ hk => hrefused ▸ hk
      · exact fun hk => hrefused ▸ hk
      · intro d hd _
        show d ∈ w.broker.unacked
        rw [hunacked]
        exact List.mem_append_left _ hd
    · rename_i hlt
      obtain ⟨hk, rfl⟩ : k = s.nodes.length ∧ n = ⟨j, [], some c⟩ := by
        rw [List.getElem?_singleton] at hn
        split at hn
        · cases hn
          exact ⟨by omega, rfl⟩
        · cases hn
      subst hk
      refine ⟨by simp, fun _ => hnew, ?_⟩
      intro consumer msg hjob
      refine ⟨rfl, by simp, by simp, ?_⟩
      intro _ _
      obtain ⟨d, hd, hmsg⟩ := hjobs consumer msg hjob
      refine ⟨d, ?_, (hds d hd).1, hmsg⟩
      show d ∈ w.broker.unacked
      rw [hunacked]
      exact List.mem_append_right _ hd
  · intro k hk
    rw [List.length_append]
    exact Nat.lt_add_right _ (h.refused k (hrefused ▸ hk))
  · intro d hd
    rw [show w.broker.unacked = _ from hunacked] at hd
    rcases List.mem_append.mp hd with hd | hd
    · obtain ⟨hqueue, n, consumer, hn, hjob⟩ := h.unacked d hd
      refine ⟨hqueue, n, consumer, ?_, hjob⟩
      rw [List.getElem?_append_left (List.getElem?_eq_some_iff.mp hn).1]
      exact hn
    · obtain ⟨htag, hqueue, consumer, hjob⟩ := hds d hd
      refine ⟨hqueue, ⟨j, [], some c⟩, consumer, ?_, hjob⟩
      rw [htag]
      simp

/-- What a process owed is in the main queue again once its channel is gone. -/
theorem World.requeue_frame (i : ℕ) {w : World}
    (h : ∀ d ∈ w.broker.unacked, d.queue = Q_DELIVER) :
    World.Frame i w { w with broker := w.broker.requeue i } ∧
      ∀ d ∈ w.broker.unacked, d.tag = i →
        (∀ d' ∈ w.broker.unacked, d'.tag = i → d'.message = d.message) → ∀ id,
          w.kept id + (if carries id d.message then 1 else 0) ≤
            World.kept { w with broker := w.broker.requeue i } id := by
  unfold Broker.State.requeue
  split
  · rename_i hnone
    refine ⟨.refl i w, ?_⟩
    intro d hd htag
    have hno := List.find?_eq_none.mp hnone d hd
    simp [htag] at hno
  · rename_i d hd
    have hmem := List.mem_of_find?_eq_some hd
    have htag : d.tag = i := by simpa using List.find?_some hd
    let b := (w.broker.ack i).setReady d.queue (⟨d.message, none⟩ :: w.broker.ready d.queue)
    have hle : ∀ id, w.kept id + (if carries id d.message then 1 else 0) ≤
        World.kept { w with broker := b } id := by
      intro id
      simp only [b, World.kept, h d hmem, Broker.State.count_setReady, List.countP_cons,
        Broker.State.count_ack, reduceCtorEq, if_true, if_false]
      simp only [Broker.State.count, Q_DELIVER]
      omega
    refine ⟨⟨?_, fun _ h => h, fun _ h => .inr h, ?_, ?_⟩, ?_⟩
    · intro id
      exact (Nat.le_add_right _ _).trans (hle id)
    · exact fun d hd hne => List.mem_filter.mpr ⟨hd, by simpa using hne⟩
    · exact fun d hd => (List.mem_filter.mp hd).1
    · intro d' hd' htag' hsame id
      rw [← hsame d hmem htag]
      exact hle id

theorem InCustody.crash (h : InCustody s) {i : ℕ} {n : Worker} (hn : s.nodes[i]? = some n)
    (hlive : n.script.isSome = true) :
    InCustody ⟨World.crash i n.job s.world, s.nodes.set i { n with script := none }⟩ := by
  have hkept := h.kept i n hn
  have hworld : World.Frame i s.world (World.crash i n.job s.world) ∧
      (World.crash i n.job s.world).events = s.world.events ∧
      (World.crash i n.job s.world).refused = s.world.refused ∧
      ∀ id, s.world.kept id + Worker.carrying id n ≤ (World.crash i n.job s.world).kept id := by
    cases hjob : n.job with
    | relayTick =>
      refine ⟨.refl i _, rfl, rfl, ?_⟩
      intro id
      simp [Worker.carrying, hjob, World.crash]
    | handle consumer msg =>
      obtain ⟨hframe, hback⟩ := World.requeue_frame i h.queues
      refine ⟨hframe, rfl, rfl, ?_⟩
      intro id
      obtain ⟨-, -, hacked, howed⟩ := hkept.handler consumer msg hjob
      cases hacks : did acks n.log with
      | true =>
        -- it was handed over before it was acknowledged
        have hzero : Worker.carrying id n = 0 := by
          simp [Worker.carrying, hjob, hacked hacks]
        rw [hzero]
        exact hframe.kept id
      | false =>
        obtain ⟨d, hd, htag, rfl⟩ := howed hlive hacks
        have hsame : ∀ d' ∈ s.world.broker.unacked, d'.tag = i → d'.message = d.message := by
          intro d' hd' htag'
          obtain ⟨-, m, consumer', hm, hmjob⟩ := h.unacked d' hd'
          rw [htag', hn, Option.some.injEq] at hm
          subst hm
          exact (WorkerJob.handle.inj (hmjob.symm.trans hjob)).2
        refine le_trans (Nat.add_le_add_left ?_ _) (hback d hd htag hsame id)
        simp only [Worker.carrying, hjob]
        cases carries id d.message
        · simp
        · exact Nat.le_of_lt_succ (by split <;> decide)
  obtain ⟨hframe, hevents, hrefused, hle⟩ := hworld
  have hcustody : ∀ id, s.custody id ≤ Workers.custody
      ⟨World.crash i n.job s.world, s.nodes.set i { n with script := none }⟩ id := by
    intro id
    have hset := Workers.custody_set (w := World.crash i n.job s.world) hn
      { n with script := none } id
    have hid := hle id
    omega
  refine h.set hn rfl hframe hcustody ?_ ?_
  · intro x hx
    exact ⟨x, hevents ▸ hx, rfl, .inl rfl⟩
  · refine ⟨?_, ?_, ?_⟩
    · intro hi id hid
      exact (hkept.sent (fun hmem => hi (hframe.refused i hmem)) id hid).trans_le (hcustody id)
    · intro hconfirmed hi
      exact hkept.clear hconfirmed (hrefused ▸ hi)
    · intro consumer msg hjob
      obtain ⟨hlooked, hhanded, hacked, -⟩ := hkept.handler consumer msg hjob
      exact ⟨hlooked, fun hd => (hhanded hd).trans_le (hcustody _), hacked,
        fun hnone => nomatch hnone⟩

theorem InCustody.event (h : InCustody s) {e : Event} (hw : World.event e s.world = some w) :
    InCustody ⟨w, s.nodes⟩ := by
  have hworld : (∀ id, s.world.kept id = w.kept id) ∧ w.refused = s.world.refused ∧
      w.broker.unacked = s.world.broker.unacked ∧
      ∀ x ∈ w.events, x ∈ s.world.events ∨ x.status = .pending := by
    cases e with
    | tick k =>
      obtain rfl := Option.some.inj hw
      exact ⟨fun _ => rfl, rfl, rfl, fun _ hx => .inl hx⟩
    | enqueue id m e type payload since =>
      obtain ⟨-, -, rfl⟩ := World.enqueue_eq_some hw
      refine ⟨fun _ => rfl, rfl, rfl, ?_⟩
      intro x hx
      rcases List.mem_append.mp hx with hx | hx
      · exact .inl hx
      · obtain rfl := List.mem_singleton.mp hx
        exact .inr rfl
    | register row =>
      obtain rfl := Option.some.inj hw
      exact ⟨fun _ => rfl, rfl, rfl, fun _ hx => .inl hx⟩
    | expire =>
      obtain ⟨b, hb, rfl⟩ := Option.map_eq_some_iff.mp hw
      refine ⟨?_, rfl, ?_, fun _ hx => .inl hx⟩
      · intro id
        have hwaiting := World.waiting_expire hb id
        obtain ⟨x, rest, hready, rfl⟩ := Broker.State.expire_eq_some hb
        have hdead : topology.deadLetter Q_RETRY = some (EXCHANGE, ROUTING_KEY) := rfl
        simp only [World.waiting] at hwaiting
        simp only [World.kept, Broker.State.count_bury_some hdead, Broker.State.count_setReady,
          route_webhooks, List.mem_singleton, reduceCtorEq, if_false, false_and] at hwaiting ⊢
        omega
      · obtain ⟨x, rest, -, rfl⟩ := Broker.State.expire_eq_some hb
        rfl
  obtain ⟨hkept, hrefused, hunacked, hevents⟩ := hworld
  have hcustody : ∀ id, s.custody id = Workers.custody ⟨w, s.nodes⟩ id := by
    intro id
    unfold Workers.custody
    rw [hkept id]
    rfl
  refine ⟨?_, ?_, ?_, ?_⟩
  · intro x hx
    rcases hevents x hx with hx | hpending
    · rw [← hcustody]
      exact h.rows x hx
    · exact .inl hpending
  · intro k n hn
    refine (h.kept k n hn).mono (fun id => (hcustody id).le) ?_ ?_ ?_
    · exact fun _ hk => hrefused ▸ hk
    · exact fun hk => hrefused ▸ hk
    · exact fun d hd _ => hunacked ▸ hd
  · exact fun k hk => h.refused k (hrefused ▸ hk)
  · exact fun d hd => h.unacked d (hunacked ▸ hd)

end Others

/-! ## Every run -/

theorem InCustody.begin : InCustody (Pool.begin .empty) where
  rows := by simp [Pool.begin, World.empty]
  kept := by simp [Pool.begin]
  refused := by simp [Pool.begin, World.empty]
  unacked := by simp [Pool.begin, World.empty, Broker.State.empty]

theorem InCustody.move {s t : Workers} {l : Turn} (h : InCustody s) (hmove : Move discipline s l t)
    (hlookup : LookupFails s l = false) : InCustody t := by
  cases hmove with
  | start hborn => exact h.start hborn
  | @run i o n st k r w hn hscript _ hmay hact =>
    refine h.run hn (by rw [hscript]; rfl) hmay hact ?_
    have haction := Workers.action_run hn hscript o
    cases st with
    | endpointFindById id =>
      cases o with
      | failed e =>
        simp only [LookupFails, haction] at hlookup
        cases hlookup
      | done =>
        cases hact
        rfl
      | status k => cases hact
    | _ => rfl
  | @crash i n hn hlive =>
    refine h.crash hn ?_
    unfold Member.live at hlive
    cases hscript : n.script with
    | none => simp [hscript] at hlive
    | some c => rfl
  | event hhappens => exact h.event hhappens

/-- The event is somewhere. -/
theorem InCustody.found {s : Workers} (h : InCustody s) {r : WebhookEventRow}
    (hr : r ∈ s.world.events) :
    s.world.Answered r.id ∨ s.world.Queued Q_DEAD r.id ∨ s.world.Recoverable r := by
  have hqueued : ∀ q, 0 < s.world.broker.count (carries r.id) q → s.world.Queued q r.id := by
    intro q hq
    obtain ⟨x, hx, hcarries⟩ := Broker.State.count_pos_iff.mp hq
    exact ⟨x, hx, of_decide_eq_true hcarries⟩
  rcases h.rows r hr with hpending | hpublishing | hcustody
  · exact .inr (.inr (.inl hpending))
  · exact .inr (.inr (.inr (.inl hpublishing)))
  · by_cases hkept : s.world.kept r.id = 0
    · -- a handler carries it, and has not acknowledged it
      have htotal : 0 < s.total (Worker.carrying r.id) := by
        unfold Workers.custody at hcustody
        omega
      obtain ⟨x, hx, hpos⟩ : ∃ x ∈ s.nodes.map (Worker.carrying r.id), 0 < x := by
        by_contra hnone
        simp only [not_exists, not_and, not_lt, Nat.le_zero] at hnone
        have hzero : s.total (Worker.carrying r.id) = 0 :=
          List.sum_eq_zero hnone
        omega
      obtain ⟨n, hn, rfl⟩ := List.mem_map.mp hx
      obtain ⟨i, hi⟩ := List.mem_iff_getElem?.mp hn
      cases hjob : n.job with
      | relayTick => simp [Worker.carrying, hjob] at hpos
      | handle consumer msg =>
        obtain ⟨-, -, hacked, howed⟩ := (h.kept i n hi).handler consumer msg hjob
        simp only [Worker.carrying, hjob] at hpos
        split at hpos
        · rename_i hcarrying
          simp only [Bool.and_eq_true, Bool.not_eq_true'] at hcarrying
          obtain ⟨⟨hcarries, hlive⟩, hopen⟩ := hcarrying
          have hacks : did acks n.log = false := by
            by_contra hacks
            rw [hacked (by simpa using hacks)] at hopen
            cases hopen
          obtain ⟨d, hd, -, rfl⟩ := howed hlive hacks
          exact .inr (.inr (.inr (.inr (.inr (.inr ⟨d, hd, of_decide_eq_true hcarries⟩)))))
        · exact absurd hpos (lt_irrefl 0)
    · unfold World.kept at hkept
      by_cases hattempt : s.world.attempts.countP
          (fun a => decide (a.outboxId = r.id) && a.status.any isOk) = 0
      · by_cases hdead : s.world.broker.count (carries r.id) .dead = 0
        · by_cases hretry : s.world.broker.count (carries r.id) .retry = 0
          · refine .inr (.inr (.inr (.inr (.inl (hqueued _ ?_)))))
            show 0 < s.world.broker.count (carries r.id) .deliver
            omega
          · exact .inr (.inr (.inr (.inr (.inr (.inl (hqueued _ (Nat.pos_of_ne_zero hretry)))))))
        · exact .inr (.inl (hqueued _ (Nat.pos_of_ne_zero hdead)))
      · obtain ⟨a, ha, hok⟩ := List.countP_pos_iff.mp (Nat.pos_of_ne_zero hattempt)
        rw [Bool.and_eq_true, decide_eq_true_eq] at hok
        exact .inl ⟨a, ha, hok⟩

/-- No event is lost while the consumer's endpoint lookups do not fail: it has
been answered with a 2xx, or lies in the dead-letter queue, or can still be
delivered. Relays and consumers may crash at any point, the broker may refuse
publishes, and any other statement may fail. -/
theorem no_event_lost {s : Workers}
    (h : Workers.Reach (fun s l => LookupFails s l = false) s) : ∀ r ∈ s.world.events,
    s.world.Answered r.id ∨ s.world.Queued Q_DEAD r.id ∨ s.world.Recoverable r := by
  intro r hr
  refine InCustody.found ?_ hr
  refine Runs.invariant (K := discipline) ?_ (discipline.follows_begin _) h InCustody.begin
  intro s t l h hmove hok
  exact h.move hmove hok

/-- The endpoint answers 503, and the message waits in the retry queue. -/
def retryOne : List Turn :=
  [.start (.handle 0 messageOne), .run 1 .done, .run 1 (.status 503), .run 1 .done, .run 1 .done]

theorem no_event_lost_retried : ∃ s : Workers, (∃ r ∈ s.world.events, r.status = .published) ∧
    ∀ r ∈ s.world.events,
      s.world.Answered r.id ∨ s.world.Queued Q_DEAD r.id ∨ s.world.Recoverable r := by
  have hrun : (Pool.runWhile device workerProgram (fun s l => !LookupFails s l)
      (Pool.begin .empty) (publishOne ++ confirmOne ++ retryOne)).any
      (fun s => decide (∃ r ∈ s.world.events, r.status = .published)) = true := by decide +kernel
  obtain ⟨s, hs, hpublished⟩ := Runs.exists_of_runWhile hrun
  refine ⟨s, of_decide_eq_true hpublished, ?_⟩
  exact no_event_lost (hs.mono (fun _ _ h => by simpa using h))

/-- The lookup of the endpoint fails once: the message is discarded, and the row
stays published. -/
theorem event_discarded : ∃ s : Workers, Workers.Reach (fun _ _ => True) s ∧
    ∃ r ∈ s.world.events, ¬ s.world.Answered r.id ∧ ¬ s.world.Queued Q_DEAD r.id ∧
      ¬ s.world.Recoverable r := by
  have hrun : (Pool.runWhile device workerProgram (fun _ _ => true) (Pool.begin .empty)
      (publishOne ++ confirmOne ++
        [.start (.handle 0 messageOne), .run 1 (.failed "timeout"), .run 1 .done])).any
      (fun s => decide (∃ r ∈ s.world.events, ¬ s.world.Answered r.id ∧
        ¬ s.world.Queued Q_DEAD r.id ∧ ¬ s.world.Recoverable r)) = true := by decide +kernel
  obtain ⟨s, hs, hlost⟩ := Runs.exists_of_runWhile hrun
  exact ⟨s, hs.mono (fun _ _ _ => trivial), of_decide_eq_true hlost⟩

end PaymentApis
