import PaymentApis.Republication
import PaymentApis.WebhookWorker

/-!
# What the polling worker keeps

A row is written by its id, without a look at its status, from what was read
when it was claimed. A worker may crash at any action, any statement may fail,
and a delivery may outlive its lease by any time and still write.
-/

namespace PaymentApis.WebhookWorker

open TxStore Processes

/-! ## One step -/

/-- The rows a process has in hand. -/
def Task.hand (n : Task) : List WebhookEventRow :=
  match n.job with
  | .tick => n.log.flatMap claims
  | .deliverOne event => [event]

/-- A row that has been claimed. -/
def Tasks.Claimed (s : Tasks) (q : WebhookEventRow) : Prop :=
  q ∈ s.world.batch ∨ ∃ n ∈ s.nodes, q ∈ Task.hand n

theorem hand_claimed {s : Tasks} {n : Task} (hn : n ∈ s.nodes) {q : WebhookEventRow}
    (hjob : n.job = .deliverOne q) : s.Claimed q := by
  refine .inr ⟨n, hn, ?_⟩
  rw [Task.hand, hjob]
  exact List.mem_singleton_self q

/-- The calls of `fetch` for an event. -/
def Outbox.posted (w : Outbox) (id : Uuid) : ℕ :=
  w.attempts.countP (fun a => decide (a.outboxId = id))

/-- A delivery whose action `st` takes effect. -/
structure At (s : Tasks) (l : Turn) (event : WebhookEventRow) (log : List Done) (st : Op) :
    Prop where
  here : ∃ i locked c, l = .run i (.done locked) ∧
    s.nodes[i]? = some ⟨.deliverOne event, log, c⟩ ∧
    Member.next (⟨.deliverOne event, log, c⟩ : Task) = some st
  may : deliverMay event log st

/-- Where a row of the table after a step comes from. -/
inductive Origin (s : Tasks) (l : Turn) : WebhookEventRow → Prop
  | kept {r} (old : r ∈ s.world.events) : Origin s l r
  | enqueued {id merchantId endpointId type payload since} (fresh : id ∉ s.world.ids)
      (begun : since ≤ s.world.now) :
      Origin s l (.enqueued id merchantId endpointId type payload since)
  | claimed {r} (old : r ∈ s.world.events) (pending : r.status = .pending)
      (due : r.nextAttemptAt ≤ s.world.now) :
      Origin s l (webhookEventRepository.leasedUntil (s.world.now + seconds leaseSeconds)
        s.world.now r)
  | delivered {q log r} (turn : At s l q log (.eventMarkDelivered q.id))
      (old : r ∈ s.world.events) (same : r.id = q.id) :
      Origin s l { r with status := .delivered, updatedAt := s.world.now }
  | retried {q log r n backoff error} (turn : At s l q log (.eventMarkRetry q.id n backoff error))
      (old : r ∈ s.world.events) (same : r.id = q.id) :
      Origin s l { r with
        attempts := n
        nextAttemptAt := s.world.now + seconds backoff
        lastError := some error
        updatedAt := s.world.now }
  | failed {q log r n error} (turn : At s l q log (.eventMarkFailed q.id n error))
      (old : r ∈ s.world.events) (same : r.id = q.id) :
      Origin s l { r with
        status := .failed
        attempts := n
        lastError := some error
        updatedAt := s.world.now }

theorem mem_updateWhere {p : WebhookEventRow → Bool} {g : WebhookEventRow → WebhookEventRow}
    {w : World} {r' : WebhookEventRow}
    (h : r' ∈ (webhookEventRepository.updateWhere p g w).events) :
    r' ∈ w.events ∨ ∃ r ∈ w.events, p r = true ∧ r' = g r := by
  obtain ⟨r, hr, rfl⟩ := List.mem_map.mp h
  by_cases hp : p r = true
  · rw [if_pos hp]
    exact .inr ⟨r, hr, hp, rfl⟩
  · rw [if_neg hp]
    exact .inl hr

theorem mem_dueIds {w : World} {limit : ℕ} {locked : List Uuid} {id : Uuid}
    (h : id ∈ webhookEventRepository.dueIds w limit locked) :
    ∃ r ∈ w.events, r.id = id ∧ r.status = .pending ∧ r.nextAttemptAt ≤ w.now := by
  obtain ⟨r, hr, rfl⟩ := List.mem_map.mp h
  have hr := List.mem_of_mem_take hr
  rw [List.mem_insertionSort, List.mem_filter, webhookEventRepository.due, decide_eq_true_eq] at hr
  exact ⟨r, hr.1, rfl, hr.2.1, hr.2.2.1⟩

/-- The ids of the rows are distinct, and have been given out. -/
structure Outbox.Keyed (w : Outbox) : Prop where
  nodup : (w.events.map (·.id)).Nodup
  given : ∀ r ∈ w.events, r.id ∈ w.ids

section Step

variable {s t : Tasks} {l : Turn}

theorem claimed_due (hs : s.world.Keyed) {limit : ℕ} {locked : List Uuid} {r : WebhookEventRow}
    (hr : r ∈ s.world.events)
    (hid : r.id ∈ webhookEventRepository.dueIds s.world.toWorld limit locked) :
    r.status = .pending ∧ r.nextAttemptAt ≤ s.world.now := by
  obtain ⟨r', hr', hsame, hpending, hdue⟩ := mem_dueIds hid
  rw [row_unique hs.nodup hr' hr hsame] at hpending hdue
  exact ⟨hpending, hdue⟩

/-- What a statement does. -/
theorem statement_cases {α : Type} {o : Outcome} {w w' : Outbox} {f : List Uuid → α × World}
    {r : Except String α} (h : Outbox.statement o w f = some (r, w')) :
    (∃ locked, o = .done locked ∧ r = .ok (f locked).1 ∧
      w' = { w with toWorld := (f locked).2 }) ∨ ∃ e, r = .error e ∧ w' = w := by
  cases o with
  | done locked =>
    obtain ⟨rfl, rfl⟩ := Prod.mk.inj (Option.some.inj h)
    exact .inl ⟨locked, rfl, rfl, rfl⟩
  | failed message =>
    obtain ⟨rfl, rfl⟩ := Prod.mk.inj (Option.some.inj h)
    exact .inr ⟨message, rfl, rfl⟩
  | status n => cases h

theorem Origin.act (hs : s.world.Keyed) {i : ℕ} {o : Outcome} {n : Task} {st : Op}
    {r : Except String (Answer st)} {w : Outbox} (here : s.nodes[i]? = some n)
    (hnext : n.next = some st) (hmay : may n.job n.log st)
    (hacts : Outbox.act st o s.world = some (r, w)) {row : WebhookEventRow}
    (hrow : row ∈ w.events) : Origin s (.run i o) row := by
  obtain ⟨job, log, c⟩ := n
  have hturn : ∀ event locked, job = .deliverOne event → o = .done locked →
      At s (.run i o) event log st := by
    rintro event locked rfl rfl
    exact ⟨⟨i, locked, c, rfl, here, hnext⟩, hmay⟩
  cases st with
  | eventClaimDue limit lease =>
    rcases statement_cases hacts with ⟨locked, rfl, -, rfl⟩ | ⟨e, -, rfl⟩
    · cases job with
      | tick =>
        obtain ⟨-, rfl, -⟩ := hmay
        rcases mem_updateWhere hrow with hold | ⟨r, hr, hp, rfl⟩
        · exact .kept hold
        · obtain ⟨hpending, hdue⟩ := claimed_due hs hr (of_decide_eq_true hp)
          exact .claimed hr hpending hdue
      | deliverOne event => exact hmay.elim
    · exact .kept hrow
  | deliverAll events =>
    cases o with
    | done locked =>
      obtain ⟨-, rfl⟩ := Prod.mk.inj (Option.some.inj hacts)
      exact .kept hrow
    | failed message => cases hacts
    | status n => cases hacts
  | endpointFindById id =>
    rcases statement_cases hacts with ⟨locked, rfl, -, rfl⟩ | ⟨e, -, rfl⟩
    · exact .kept hrow
    · exact .kept hrow
  | fetch id post =>
    cases o with
    | done locked => cases hacts
    | failed message =>
      obtain ⟨-, rfl⟩ := Prod.mk.inj (Option.some.inj hacts)
      exact .kept hrow
    | status n =>
      obtain ⟨-, rfl⟩ := Prod.mk.inj (Option.some.inj hacts)
      exact .kept hrow
  | eventMarkDelivered id =>
    rcases statement_cases hacts with ⟨locked, rfl, -, rfl⟩ | ⟨e, -, rfl⟩
    · cases job with
      | tick => exact hmay.elim
      | deliverOne event =>
        obtain rfl := hmay.1
        rcases mem_updateWhere hrow with hold | ⟨r, hr, hp, rfl⟩
        · exact .kept hold
        · exact .delivered (hturn event locked rfl rfl) hr (of_decide_eq_true hp)
    · exact .kept hrow
  | eventMarkRetry id attempts backoff error =>
    rcases statement_cases hacts with ⟨locked, rfl, -, rfl⟩ | ⟨e, -, rfl⟩
    · cases job with
      | tick => exact hmay.elim
      | deliverOne event =>
        obtain rfl := hmay.1
        rcases mem_updateWhere hrow with hold | ⟨r, hr, hp, rfl⟩
        · exact .kept hold
        · exact .retried (hturn event locked rfl rfl) hr (of_decide_eq_true hp)
    · exact .kept hrow
  | eventMarkFailed id attempts error =>
    rcases statement_cases hacts with ⟨locked, rfl, -, rfl⟩ | ⟨e, -, rfl⟩
    · cases job with
      | tick => exact hmay.elim
      | deliverOne event =>
        obtain rfl := hmay.1
        rcases mem_updateWhere hrow with hold | ⟨r, hr, hp, rfl⟩
        · exact .kept hold
        · exact .failed (hturn event locked rfl rfl) hr (of_decide_eq_true hp)
    · exact .kept hrow

/-- The deliveries an action begins, and the requests it sends. -/
def begins : Done → List WebhookEventRow
  | ⟨.deliverAll events, _⟩ => events
  | _ => []

def sends : Done → List Attempt
  | ⟨.fetch id post, .ok status⟩ => [⟨id, post, some status⟩]
  | ⟨.fetch id post, .error _⟩ => [⟨id, post, none⟩]
  | _ => []

/-- What an action leaves as it is, and what it adds. -/
structure Frame (w w' : Outbox) (d : Done) : Prop where
  now : w'.now = w.now
  ids : w'.ids = w.ids
  endpoints : w'.endpoints = w.endpoints
  rows : w'.events.map (·.id) = w.events.map (·.id)
  batch : w'.batch = w.batch ++ begins d
  attempts : w'.attempts = w.attempts ++ sends d

theorem Frame.of_statement {w w' : Outbox} {st : Op} {o : Outcome}
    {f : List Uuid → Answer st × World} {r : Except String (Answer st)}
    (hbegins : begins ⟨st, r⟩ = []) (hsends : sends ⟨st, r⟩ = [])
    (hf : ∀ locked, (f locked).2.now = w.now ∧ (f locked).2.endpoints = w.endpoints ∧
      (f locked).2.events.map (·.id) = w.events.map (·.id) ∧
      (f locked).2.attempts = w.attempts)
    (h : Outbox.statement o w f = some (r, w')) : Frame w w' ⟨st, r⟩ := by
  rcases statement_cases h with ⟨locked, -, -, rfl⟩ | ⟨e, -, rfl⟩
  · obtain ⟨hnow, hendpoints, hrows, hattempts⟩ := hf locked
    exact ⟨hnow, rfl, hendpoints, hrows, by simp [hbegins], by simp [hsends, hattempts]⟩
  · exact ⟨rfl, rfl, rfl, rfl, by simp [hbegins], by simp [hsends]⟩

theorem Frame.of_act {st : Op} {o : Outcome} {w w' : Outbox} {r : Except String (Answer st)}
    (h : Outbox.act st o w = some (r, w')) : Frame w w' ⟨st, r⟩ := by
  cases st with
  | deliverAll events =>
    cases o with
    | done locked =>
      obtain ⟨rfl, rfl⟩ := Prod.mk.inj (Option.some.inj h)
      exact ⟨rfl, rfl, rfl, rfl, rfl, by simp [sends]⟩
    | failed message => cases h
    | status n => cases h
  | fetch id post =>
    cases o with
    | done locked => cases h
    | failed message =>
      obtain ⟨rfl, rfl⟩ := Prod.mk.inj (Option.some.inj h)
      exact ⟨rfl, rfl, rfl, rfl, by simp [begins], rfl⟩
    | status n =>
      obtain ⟨rfl, rfl⟩ := Prod.mk.inj (Option.some.inj h)
      exact ⟨rfl, rfl, rfl, rfl, by simp [begins], rfl⟩
  | endpointFindById id => exact Frame.of_statement rfl rfl (fun _ => ⟨rfl, rfl, rfl, rfl⟩) h
  | _ =>
    refine Frame.of_statement rfl rfl (fun _ => ⟨rfl, rfl, ?_, rfl⟩) h
    apply webhookEventRepository.updateWhere_ids
    exact fun _ => rfl

theorem birth_cases {j : Job} {w w' : Outbox} (h : Outbox.birth j w = some w') :
    j = .tick ∧ w' = w ∨
      ∃ event ∈ w.batch, j = .deliverOne event ∧ w' = { w with batch := w.batch.erase event } := by
  cases j with
  | tick => exact .inl ⟨rfl, (Option.some.inj h).symm⟩
  | deliverOne event =>
    simp only [Outbox.birth] at h
    split at h
    · rename_i hmem
      exact .inr ⟨event, hmem, rfl, (Option.some.inj h).symm⟩
    · cases h

/-- What the surroundings do to the rows. -/
inductive Happens (w w' : Outbox) : Event → Prop
  | tick (n : ℕ) (eq : w' = { w with now := w.now + n }) : Happens w w' (.tick n)
  | enqueue (id endpointId : Uuid) (type : EventType) (payload : EventPayload) (since : ℕ)
      (e : WebhookEndpointRow)
      (active : w.endpoints.find? (fun e => decide (e.id = endpointId) && e.isActive) = some e)
      (begun : since ≤ w.now) (fresh : id ∉ w.ids)
      (eq : w' = { w with
        events := w.events ++ [.enqueued id e.merchantId endpointId type payload since]
        ids := id :: w.ids }) : Happens w w' (.enqueue id endpointId type payload since)
  | register (row : WebhookEndpointRow) (fresh : row.id ∉ w.ids)
      (eq : w' = { w with endpoints := w.endpoints ++ [row], ids := row.id :: w.ids }) :
      Happens w w' (.register row)
  | deleteEndpoint (id : Uuid)
      (eq : w' = { w with
        endpoints := w.endpoints.filter (fun e => decide (e.id ≠ id))
        events := w.events.filter (fun r => decide (r.endpointId ≠ id)) }) :
      Happens w w' (.deleteEndpoint id)

theorem Happens.of_event {e : Event} {w w' : Outbox} (h : Outbox.event e w = some w') :
    Happens w w' e := by
  cases e with
  | tick n => exact .tick n (Option.some.inj h).symm
  | enqueue id endpointId type payload since =>
    simp only [Outbox.event] at h
    split at h
    · cases h
    · rename_i e hactive
      split at h
      · rename_i hnew
        obtain ⟨hbegun, hfresh⟩ := hnew
        exact .enqueue id endpointId type payload since e hactive hbegun hfresh
          (Option.some.inj h).symm
      · cases h
  | register row =>
    simp only [Outbox.event] at h
    split at h
    · cases h
    · rename_i hfresh
      exact .register row hfresh (Option.some.inj h).symm
  | deleteEndpoint id => exact .deleteEndpoint id (Option.some.inj h).symm

theorem Happens.frame {e : Event} {w w' : Outbox} (h : Happens w w' e) :
    w'.batch = w.batch ∧ w'.attempts = w.attempts ∧ w.now ≤ w'.now := by
  cases h with
  | tick n eq =>
    subst eq
    exact ⟨rfl, rfl, Nat.le_add_right _ _⟩
  | enqueue id endpointId type payload since e active begun fresh eq =>
    subst eq
    exact ⟨rfl, rfl, le_rfl⟩
  | register row fresh eq =>
    subst eq
    exact ⟨rfl, rfl, le_rfl⟩
  | deleteEndpoint id eq =>
    subst eq
    exact ⟨rfl, rfl, le_rfl⟩

theorem Outbox.Keyed.happens {e : Event} {w w' : Outbox} (hw : w.Keyed) (h : Happens w w' e) :
    w'.Keyed := by
  cases h with
  | tick n eq =>
    subst eq
    exact ⟨hw.nodup, hw.given⟩
  | enqueue id endpointId type payload since e active begun fresh eq =>
    subst eq
    constructor
    · rw [List.map_append, List.nodup_append]
      refine ⟨hw.nodup, List.nodup_singleton _, ?_⟩
      rintro a ha b hb rfl
      obtain ⟨r, hr, rfl⟩ := List.mem_map.mp ha
      rw [List.map_singleton, List.mem_singleton] at hb
      have hid : r.id = id := hb
      exact fresh (hid ▸ hw.given r hr)
    · intro r hr
      rcases List.mem_append.mp hr with hold | hnew
      · exact List.mem_cons_of_mem _ (hw.given r hold)
      · obtain rfl := List.mem_singleton.mp hnew
        exact List.mem_cons_self
  | register row fresh eq =>
    subst eq
    exact ⟨hw.nodup, fun r hr => List.mem_cons_of_mem _ (hw.given r hr)⟩
  | deleteEndpoint id eq =>
    subst eq
    exact ⟨hw.nodup.sublist (List.filter_sublist.map _),
      fun r hr => hw.given r (List.mem_of_mem_filter hr)⟩

theorem Outbox.Keyed.of_move (hs : s.world.Keyed) (h : Move discipline s l t) : t.world.Keyed := by
  cases h with
  | start born =>
    rcases birth_cases born with ⟨rfl, rfl⟩ | ⟨event, hmem, rfl, rfl⟩
    · exact hs
    · exact ⟨hs.nodup, hs.given⟩
  | run here script knows may acts =>
    have hframe := Frame.of_act acts
    refine ⟨hframe.rows ▸ hs.nodup, ?_⟩
    intro r hr
    obtain ⟨r', hr', hid⟩ := List.mem_map.mp (hframe.rows ▸ List.mem_map_of_mem hr)
    have hgiven := hs.given r' hr'
    rw [hid] at hgiven
    exact hframe.ids ▸ hgiven
  | crash => exact hs
  | event happens => exact hs.happens (Happens.of_event happens)

theorem Origin.of_move (hs : s.world.Keyed) (h : Move discipline s l t) {row : WebhookEventRow}
    (hrow : row ∈ t.world.events) : Origin s l row := by
  cases h with
  | start born =>
    rcases birth_cases born with ⟨rfl, rfl⟩ | ⟨event, hmem, rfl, rfl⟩
    · exact .kept hrow
    · exact .kept hrow
  | run here script knows may acts =>
    refine Origin.act hs here ?_ may acts hrow
    rw [Member.next, script]
  | crash => exact .kept hrow
  | event happens =>
    cases Happens.of_event happens with
    | tick n eq =>
      subst eq
      exact .kept hrow
    | enqueue id endpointId type payload since e active begun fresh eq =>
      subst eq
      rcases List.mem_append.mp hrow with hold | hnew
      · exact .kept hold
      · obtain rfl := List.mem_singleton.mp hnew
        exact .enqueued fresh begun
    | register row fresh eq =>
      subst eq
      exact .kept hrow
    | deleteEndpoint id eq =>
      subst eq
      exact .kept (List.mem_of_mem_filter hrow)

/-- The rows an action puts in hand. -/
theorem hand_act {n : Task} {st : Op} {o : Outcome} {w : Outbox} {r : Except String (Answer st)}
    {c : Option (Script Unit)} (hmay : may n.job n.log st)
    (hacts : Outbox.act st o s.world = some (r, w)) {q : WebhookEventRow}
    (hq : q ∈ Task.hand ⟨n.job, n.log ++ [⟨st, r⟩], c⟩) :
    q ∈ Task.hand n ∨ ∃ row ∈ s.world.events, (∃ limit locked,
      row.id ∈ webhookEventRepository.dueIds s.world.toWorld limit locked) ∧
      q = webhookEventRepository.leasedUntil (s.world.now + seconds leaseSeconds) s.world.now
        row := by
  cases hjob : n.job with
  | deliverOne event =>
    simp only [Task.hand, hjob] at hq ⊢
    exact .inl hq
  | tick =>
    simp only [Task.hand, hjob, List.flatMap_append, List.mem_append] at hq ⊢
    rcases hq with hold | hnew
    · exact .inl hold
    · right
      rw [hjob] at hmay
      cases st with
      | eventClaimDue limit lease =>
        obtain ⟨-, rfl, -⟩ := hmay
        rcases statement_cases hacts with ⟨locked, rfl, rfl, rfl⟩ | ⟨e, rfl, rfl⟩
        · simp only [List.flatMap_cons, List.flatMap_nil, List.append_nil, claims] at hnew
          obtain ⟨row, hrow, rfl⟩ := List.mem_map.mp hnew
          obtain ⟨hrow, hid⟩ := List.mem_filter.mp hrow
          exact ⟨row, hrow, ⟨limit, locked, of_decide_eq_true hid⟩, rfl⟩
        · simp [claims] at hnew
      | _ => simp [claims] at hnew

/-- The deliveries that begin are of rows in hand. -/
theorem hand_begins {n : Task} {st : Op} {r : Except String (Answer st)}
    (hmay : may n.job n.log st) {q : WebhookEventRow} (hq : q ∈ begins ⟨st, r⟩) :
    q ∈ Task.hand n := by
  obtain ⟨job, log, script⟩ := n
  cases st with
  | deliverAll events =>
    cases job with
    | tick =>
      obtain ⟨rfl, -⟩ := hmay
      exact hq
    | deliverOne event => exact hmay.elim
  | _ => cases hq

/-- A claimed row was claimed before, or is claimed by the step. -/
theorem Claimed.of_move (hs : s.world.Keyed) (h : Move discipline s l t) {q : WebhookEventRow}
    (hq : t.Claimed q) : s.Claimed q ∨ ∃ row ∈ s.world.events, row.status = .pending ∧
      row.nextAttemptAt ≤ s.world.now ∧
      q = webhookEventRepository.leasedUntil (s.world.now + seconds leaseSeconds) s.world.now
        row := by
  rcases hq with hbatch | ⟨m, hm, hq⟩
  · left
    cases h with
    | start born =>
      rcases birth_cases born with ⟨rfl, rfl⟩ | ⟨event, hmem, rfl, rfl⟩
      · exact .inl hbatch
      · exact .inl (List.mem_of_mem_erase hbatch)
    | run here script knows may acts =>
      rw [(Frame.of_act acts).batch] at hbatch
      rcases List.mem_append.mp hbatch with hold | hnew
      · exact .inl hold
      · exact .inr ⟨_, List.mem_of_getElem? here, hand_begins may hnew⟩
    | crash => exact .inl hbatch
    | event happens => exact .inl ((Happens.of_event happens).frame.1 ▸ hbatch)
  · obtain ⟨job, log, script⟩ := m
    cases h.grown hm with
    | old mem hjob hlog =>
      subst hjob hlog
      exact .inl (.inr ⟨_, mem, hq⟩)
    | born label born hlog =>
      subst hlog
      rcases birth_cases born with ⟨hjob, -⟩ | ⟨event, hmem, hjob, -⟩
      · obtain rfl : job = .tick := hjob
        cases hq
      · obtain rfl : job = .deliverOne event := hjob
        obtain rfl := List.mem_singleton.mp hq
        exact .inl (.inl hmem)
    | acted label here knows may acts hjob hlog =>
      subst hjob hlog
      rcases hand_act may acts hq with hold | ⟨row, hrow, ⟨limit, locked, hid⟩, rfl⟩
      · exact .inl (.inr ⟨_, List.mem_of_getElem? here, hold⟩)
      · obtain ⟨hpending, hdue⟩ := claimed_due hs hrow hid
        exact .inr ⟨row, hrow, hpending, hdue, rfl⟩

end Step

/-! ## Attempts and due times -/

theorem backoffSeconds_le {n : ℕ} (h : n < MAX_ATTEMPTS) : backoffSeconds n ≤ leaseSeconds := by
  unfold MAX_ATTEMPTS at h
  interval_cases n <;> decide

/-- A row that waits has an attempt left, and is due within a lease. -/
structure Outbox.InReach (w : Outbox) (r : WebhookEventRow) : Prop where
  attempts : r.attempts ≤ MAX_ATTEMPTS
  left : r.status = .pending → r.attempts < MAX_ATTEMPTS
  soon : r.status = .pending → r.nextAttemptAt ≤ w.now + seconds leaseSeconds
  error : r.lastError = none ↔ r.attempts = 0

theorem Outbox.InReach.mono {w w' : Outbox} {r : WebhookEventRow} (h : w.InReach r)
    (hnow : w.now ≤ w'.now) : w'.InReach r where
  attempts := h.attempts
  left := h.left
  soon := fun hp => (h.soon hp).trans (Nat.add_le_add_right hnow _)
  error := h.error

structure AllInReach (s : Tasks) : Prop where
  keyed : s.world.Keyed
  rows : ∀ r ∈ s.world.events, s.world.InReach r
  claimed : ∀ q, s.Claimed q → q.attempts < MAX_ATTEMPTS

section Step

variable {s t : Tasks} {l : Turn}

theorem now_mono (h : Move discipline s l t) : s.world.now ≤ t.world.now := by
  cases h with
  | start born =>
    rcases birth_cases born with ⟨rfl, rfl⟩ | ⟨event, hmem, rfl, rfl⟩
    · exact le_rfl
    · exact le_rfl
  | run here script knows may acts => exact (Frame.of_act acts).now.ge
  | crash => exact le_rfl
  | event happens => exact (Happens.of_event happens).frame.2.2

/-- The row at work is one that was claimed. -/
theorem At.claimed {event : WebhookEventRow} {log : List Done} {st : Op}
    (h : At s l event log st) : s.Claimed event := by
  obtain ⟨i, locked, c, -, hn, -⟩ := h.here
  exact .inr ⟨_, List.mem_of_getElem? hn, List.mem_singleton_self event⟩

theorem AllInReach.row (hs : AllInReach s) {r : WebhookEventRow} (h : Origin s l r) :
    s.world.InReach r := by
  cases h with
  | kept old => exact hs.rows r old
  | enqueued fresh begun =>
    exact ⟨Nat.zero_le _, fun _ => Nat.succ_pos 4,
      fun _ => begun.trans (Nat.le_add_right _ _), by simp⟩
  | claimed old pending due =>
    have hrow := hs.rows _ old
    exact ⟨hrow.attempts, hrow.left, fun _ => le_rfl, hrow.error⟩
  | delivered turn old same =>
    have hrow := hs.rows _ old
    exact ⟨hrow.attempts, by simp, by simp, hrow.error⟩
  | retried turn old same =>
    obtain ⟨-, rfl, hlast, rfl, -⟩ := turn.may
    have hsoon := backoffSeconds_le hlast
    refine ⟨hlast.le, fun _ => hlast, fun _ => ?_, by simp⟩
    simp only [seconds]
    omega
  | failed turn old same =>
    obtain ⟨-, rfl, -⟩ := turn.may
    have hclaimed := hs.claimed _ turn.claimed
    exact ⟨hclaimed, by simp, by simp, by simp⟩

theorem AllInReach.move (hs : AllInReach s) (h : Move discipline s l t) : AllInReach t where
  keyed := hs.keyed.of_move h
  rows := fun r hr => (hs.row (Origin.of_move hs.keyed h hr)).mono (now_mono h)
  claimed := by
    intro q hq
    rcases Claimed.of_move hs.keyed h hq with hold | ⟨row, hrow, hpending, -, rfl⟩
    · exact hs.claimed q hold
    · exact (hs.rows row hrow).left hpending

end Step

theorem allInReach_begin : AllInReach (Pool.begin .empty) where
  keyed := ⟨List.nodup_nil, fun r hr => by cases hr⟩
  rows := fun r hr => by cases hr
  claimed := by
    rintro q (hbatch | ⟨n, hn, -⟩)
    · cases hbatch
    · cases hn

theorem Tasks.Reach.allInReach {ok : Tasks → Turn → Prop} {s : Tasks} (h : s.Reach ok) :
    AllInReach s :=
  Runs.invariant (K := discipline) (I := AllInReach) (fun hi hmove _ => hi.move hmove)
    (Discipline.follows_begin discipline .empty) h allInReach_begin

/-! ## One call for each event -/

def content (r : WebhookEventRow) : MessageContent := ⟨r.id, r.endpointId, r.eventType, r.payload⟩

/-- A row of the table, or one that has been claimed. -/
def Tasks.Known (s : Tasks) (q : WebhookEventRow) : Prop := q ∈ s.world.events ∨ s.Claimed q

def finds : Done → List WebhookEndpointRow
  | ⟨.endpointFindById _, .ok (some endpoint)⟩ => [endpoint]
  | _ => []

/-- An endpoint that is registered, or has been looked up. -/
def Tasks.KnownEndpoint (s : Tasks) (e : WebhookEndpointRow) : Prop :=
  e ∈ s.world.endpoints ∨ ∃ n ∈ s.nodes, e ∈ n.log.flatMap finds

/-- What a delivery has sent is the request for its event, to the endpoint it
has looked up. -/
def Task.SendsOwn (n : Task) : Prop :=
  ∀ a ∈ n.log.flatMap sends, ∃ q e, n.job = .deliverOne q ∧ e ∈ n.log.flatMap finds ∧
    e.id = q.endpointId ∧ a.outboxId = q.id ∧ a.post = request q e

/-- Whatever is known of an event or an endpoint agrees. -/
structure Agrees (s : Tasks) : Prop where
  keyed : s.world.Keyed
  given : ∀ q, s.Known q → q.id ∈ s.world.ids
  rows : ∀ q q', s.Known q → s.Known q' → q.id = q'.id → content q = content q'
  givenEndpoint : ∀ e, s.KnownEndpoint e → e.id ∈ s.world.ids
  endpoints : ∀ e e', s.KnownEndpoint e → s.KnownEndpoint e' → e.id = e'.id → e = e'
  looked : ∀ n ∈ s.nodes, ∀ q, n.job = .deliverOne q → ∀ e ∈ n.log.flatMap finds,
    e.id = q.endpointId
  sent : ∀ n ∈ s.nodes, Task.SendsOwn n
  attempts : ∀ a ∈ s.world.attempts, ∃ n ∈ s.nodes, a ∈ n.log.flatMap sends

section Step

variable {s t : Tasks} {l : Turn}

theorem ids_mono (h : Move discipline s l t) {id : Uuid} (hid : id ∈ s.world.ids) :
    id ∈ t.world.ids := by
  cases h with
  | start born =>
    rcases birth_cases born with ⟨rfl, rfl⟩ | ⟨event, hmem, rfl, rfl⟩
    · exact hid
    · exact hid
  | run here script knows may acts => exact (Frame.of_act acts).ids ▸ hid
  | crash => exact hid
  | event happens =>
    cases Happens.of_event happens with
    | tick n eq =>
      subst eq
      exact hid
    | enqueue id endpointId type payload since e active begun fresh eq =>
      subst eq
      exact List.mem_cons_of_mem _ hid
    | register row fresh eq =>
      subst eq
      exact List.mem_cons_of_mem _ hid
    | deleteEndpoint id eq =>
      subst eq
      exact hid

/-- A row of the table was there before, or is new. -/
theorem rows_of_move (hs : s.world.Keyed) (h : Move discipline s l t) {r : WebhookEventRow}
    (hr : r ∈ t.world.events) :
    (∃ r' ∈ s.world.events, content r' = content r) ∨ r.id ∉ s.world.ids := by
  cases Origin.of_move hs h hr with
  | kept old => exact .inl ⟨r, old, rfl⟩
  | enqueued fresh begun => exact .inr fresh
  | claimed old pending due => exact .inl ⟨_, old, rfl⟩
  | delivered turn old same => exact .inl ⟨_, old, rfl⟩
  | retried turn old same => exact .inl ⟨_, old, rfl⟩
  | failed turn old same => exact .inl ⟨_, old, rfl⟩

/-- What is known of an event was known before, or the event is new. -/
theorem Known.of_move (hs : s.world.Keyed) (h : Move discipline s l t) {q : WebhookEventRow}
    (hq : t.Known q) : (∃ q', s.Known q' ∧ content q' = content q) ∨
      q.id ∉ s.world.ids ∧ q ∈ t.world.events := by
  rcases hq with hrow | hclaimed
  · rcases rows_of_move hs h hrow with ⟨r, hr, hsame⟩ | hfresh
    · exact .inl ⟨r, .inl hr, hsame⟩
    · exact .inr ⟨hfresh, hrow⟩
  · left
    rcases Claimed.of_move hs h hclaimed with hold | ⟨row, hrow, -, -, rfl⟩
    · exact ⟨q, .inr hold, rfl⟩
    · exact ⟨row, .inl hrow, rfl⟩

/-- What a lookup finds is in the table. -/
theorem finds_act {st : Op} {o : Outcome} {w : Outbox} {r : Except String (Answer st)}
    (h : Outbox.act st o s.world = some (r, w)) {e : WebhookEndpointRow}
    (he : e ∈ finds ⟨st, r⟩) : e ∈ s.world.endpoints ∧ st = .endpointFindById e.id := by
  cases st with
  | endpointFindById id =>
    rcases statement_cases h with ⟨locked, -, rfl, -⟩ | ⟨e', rfl, -⟩
    · cases hfind : s.world.endpoints.find? (fun r => decide (r.id = id)) with
      | none => simp [finds, hfind] at he
      | some e' =>
        simp only [finds, hfind, List.mem_singleton] at he
        subst he
        have hid : e.id = id := by simpa using List.find?_some hfind
        exact ⟨List.mem_of_find?_eq_some hfind, by rw [hid]⟩
    · simp [finds] at he
  | _ => simp [finds] at he

/-- An endpoint was known before, or is new. -/
theorem KnownEndpoint.of_move (h : Move discipline s l t) {e : WebhookEndpointRow}
    (he : t.KnownEndpoint e) : s.KnownEndpoint e ∨
      e.id ∉ s.world.ids ∧ e.id ∈ t.world.ids ∧
        t.world.endpoints = s.world.endpoints ++ [e] := by
  rcases he with htable | ⟨m, hm, he⟩
  · cases h with
    | start born =>
      rcases birth_cases born with ⟨rfl, rfl⟩ | ⟨event, hmem, rfl, rfl⟩
      · exact .inl (.inl htable)
      · exact .inl (.inl htable)
    | run here script knows may acts => exact .inl (.inl ((Frame.of_act acts).endpoints ▸ htable))
    | crash => exact .inl (.inl htable)
    | event happens =>
      cases Happens.of_event happens with
      | tick n eq =>
        subst eq
        exact .inl (.inl htable)
      | enqueue id endpointId type payload since e active begun fresh eq =>
        subst eq
        exact .inl (.inl htable)
      | register row fresh eq =>
        subst eq
        rcases List.mem_append.mp htable with hold | hnew
        · exact .inl (.inl hold)
        · obtain rfl := List.mem_singleton.mp hnew
          exact .inr ⟨fresh, List.mem_cons_self, rfl⟩
      | deleteEndpoint id eq =>
        subst eq
        exact .inl (.inl (List.mem_of_mem_filter htable))
  · left
    obtain ⟨job, log, script⟩ := m
    cases h.grown hm with
    | old mem hjob hlog =>
      subst hlog
      exact .inr ⟨_, mem, he⟩
    | born label born hlog =>
      subst hlog
      cases he
    | acted label here knows may acts hjob hlog =>
      subst hlog
      rw [List.flatMap_append, List.mem_append] at he
      rcases he with hold | hnew
      · exact .inr ⟨_, List.mem_of_getElem? here, hold⟩
      · rw [List.flatMap_cons, List.flatMap_nil, List.append_nil] at hnew
        exact .inl (finds_act acts hnew).1

/-- The request a delivery sends is made of its row and the endpoint it has found. -/
theorem sends_act {q : WebhookEventRow} {log : List Done} {st : Op} {r : Except String (Answer st)}
    (hmay : deliverMay q log st) {a : Attempt} (ha : a ∈ sends ⟨st, r⟩) :
    a.outboxId = q.id ∧ ∃ e, log.flatMap finds = [e] ∧ a.post = request q e := by
  cases st with
  | fetch id post =>
    obtain ⟨rfl, e, rfl, rfl⟩ := hmay
    cases r with
    | ok status =>
      obtain rfl := List.mem_singleton.mp ha
      exact ⟨rfl, e, rfl, rfl⟩
    | error message =>
      obtain rfl := List.mem_singleton.mp ha
      exact ⟨rfl, e, rfl, rfl⟩
  | _ => cases ha

theorem Agrees.attempts_move (hs : Agrees s) (h : Move discipline s l t) :
    ∀ a ∈ t.world.attempts, ∃ n ∈ t.nodes, a ∈ n.log.flatMap sends := by
  have hold : ∀ a ∈ s.world.attempts, ∃ n ∈ t.nodes, a ∈ n.log.flatMap sends := by
    intro a ha
    obtain ⟨n, hn, ha⟩ := hs.attempts a ha
    obtain ⟨m, hm, -, rest, hlog⟩ := h.persists hn
    refine ⟨m, hm, ?_⟩
    rw [← hlog, List.flatMap_append]
    exact List.mem_append_left _ ha
  intro a ha
  cases h with
  | start born =>
    rcases birth_cases born with ⟨rfl, rfl⟩ | ⟨event, hmem, rfl, rfl⟩
    · exact hold a ha
    · exact hold a ha
  | run here script knows may acts =>
    rw [(Frame.of_act acts).attempts] at ha
    rcases List.mem_append.mp ha with ha | ha
    · exact hold a ha
    · refine ⟨_, List.mem_set (List.getElem?_eq_some_iff.mp here).1 _, ?_⟩
      rw [List.flatMap_append]
      exact List.mem_append_right _ (by simpa using ha)
  | crash => exact hold a ha
  | event happens => exact hold a ((Happens.of_event happens).frame.2.1 ▸ ha)

theorem Agrees.rows_move (hs : Agrees s) (h : Move discipline s l t) (q q' : WebhookEventRow)
    (hq : t.Known q) (hq' : t.Known q') (hid : q.id = q'.id) : content q = content q' := by
  rcases Known.of_move hs.keyed h hq with ⟨p, hp, hpq⟩ | ⟨hfresh, hrow⟩ <;>
    rcases Known.of_move hs.keyed h hq' with ⟨p', hp', hpq'⟩ | ⟨hfresh', hrow'⟩
  · have hids : p.id = q.id := congrArg MessageContent.outboxId hpq
    have hids' : p'.id = q'.id := congrArg MessageContent.outboxId hpq'
    rw [← hpq, ← hpq']
    exact hs.rows p p' hp hp' (by rw [hids, hids', hid])
  · have hids : p.id = q.id := congrArg MessageContent.outboxId hpq
    rw [← hid, ← hids] at hfresh'
    exact absurd (hs.given p hp) hfresh'
  · have hids' : p'.id = q'.id := congrArg MessageContent.outboxId hpq'
    rw [hid, ← hids'] at hfresh
    exact absurd (hs.given p' hp') hfresh
  · rw [row_unique (hs.keyed.of_move h).nodup hrow hrow' hid]

theorem Agrees.endpoints_move (hs : Agrees s) (h : Move discipline s l t)
    (e e' : WebhookEndpointRow) (he : t.KnownEndpoint e) (he' : t.KnownEndpoint e')
    (hid : e.id = e'.id) : e = e' := by
  rcases KnownEndpoint.of_move h he with hold | ⟨hfresh, -, hnew⟩ <;>
    rcases KnownEndpoint.of_move h he' with hold' | ⟨hfresh', -, hnew'⟩
  · exact hs.endpoints e e' hold hold' hid
  · exact absurd (hid ▸ hs.givenEndpoint e hold) hfresh'
  · exact absurd (hid ▸ hs.givenEndpoint e' hold') hfresh
  · rw [hnew, List.append_cancel_left_eq] at hnew'
    exact List.head_eq_of_cons_eq hnew'

theorem Agrees.move (hs : Agrees s) (h : Move discipline s l t) : Agrees t where
  keyed := hs.keyed.of_move h
  given := by
    intro q hq
    rcases Known.of_move hs.keyed h hq with ⟨p, hp, hpq⟩ | ⟨-, hrow⟩
    · have hids : p.id = q.id := congrArg MessageContent.outboxId hpq
      exact hids ▸ ids_mono h (hs.given p hp)
    · exact (hs.keyed.of_move h).given q hrow
  rows := hs.rows_move h
  givenEndpoint := by
    intro e he
    rcases KnownEndpoint.of_move h he with hold | ⟨-, hgiven, -⟩
    · exact ids_mono h (hs.givenEndpoint e hold)
    · exact hgiven
  endpoints := hs.endpoints_move h
  looked := by
    intro m hm q hq e he
    obtain ⟨job, log, script⟩ := m
    cases h.grown hm with
    | old mem hjob hlog =>
      subst hjob hlog
      exact hs.looked _ mem q hq e he
    | born label born hlog =>
      subst hlog
      cases he
    | acted label here knows may acts hjob hlog =>
      subst hjob hlog
      rw [List.flatMap_append, List.mem_append] at he
      rcases he with hold | hnew
      · exact hs.looked _ (List.mem_of_getElem? here) q hq e hold
      · rw [List.flatMap_cons, List.flatMap_nil, List.append_nil] at hnew
        obtain ⟨-, rfl⟩ := finds_act acts hnew
        have hmay := hq ▸ may
        exact hmay.1
  sent := by
    intro m hm a ha
    obtain ⟨job, log, script⟩ := m
    cases h.grown hm with
    | old mem hjob hlog =>
      subst hjob hlog
      exact hs.sent _ mem a ha
    | born label born hlog =>
      subst hlog
      cases ha
    | acted label here knows may acts hjob hlog =>
      rename_i i o n st r
      subst hjob hlog
      rw [List.flatMap_append, List.mem_append] at ha
      have hn := List.mem_of_getElem? here
      rcases ha with hold | hnew
      · obtain ⟨q, e, hjob, he, hrest⟩ := hs.sent _ hn a hold
        refine ⟨q, e, hjob, ?_, hrest⟩
        rw [List.flatMap_append]
        exact List.mem_append_left _ he
      · rw [List.flatMap_cons, List.flatMap_nil, List.append_nil] at hnew
        cases hjob : n.job with
        | tick =>
          rw [hjob] at may
          cases st with
          | fetch id post => exact may.elim
          | _ => cases hnew
        | deliverOne q =>
          have hmay := hjob ▸ may
          obtain ⟨hid, e, hlog, hpost⟩ := sends_act hmay hnew
          have he : e ∈ n.log.flatMap finds := hlog ▸ List.mem_singleton_self e
          refine ⟨q, e, rfl, ?_, hs.looked n hn q hjob e he, hid, hpost⟩
          rw [List.flatMap_append]
          exact List.mem_append_left _ he
  attempts := hs.attempts_move h

end Step

theorem agrees_begin : Agrees (Pool.begin .empty) where
  keyed := ⟨List.nodup_nil, fun r hr => by cases hr⟩
  given := by
    rintro q (hrow | hbatch | ⟨n, hn, -⟩)
    · cases hrow
    · cases hbatch
    · cases hn
  rows := by
    rintro q q' (hrow | hbatch | ⟨n, hn, -⟩)
    · cases hrow
    · cases hbatch
    · cases hn
  givenEndpoint := by
    rintro e (htable | ⟨n, hn, -⟩)
    · cases htable
    · cases hn
  endpoints := by
    rintro e e' (htable | ⟨n, hn, -⟩)
    · cases htable
    · cases hn
  looked := fun n hn => by cases hn
  sent := fun n hn => by cases hn
  attempts := fun a ha => by cases ha

theorem Tasks.Reach.agrees {ok : Tasks → Turn → Prop} {s : Tasks} (h : s.Reach ok) : Agrees s :=
  Runs.invariant (K := discipline) (I := Agrees) (fun hi hmove _ => hi.move hmove)
    (Discipline.follows_begin discipline .empty) h agrees_begin

/-- Whatever crashes, fails or is late, `fetch` is called in one and the same way
for an event: with its own payload, signed for its own endpoint. -/
theorem requests_agree {ok : Tasks → Turn → Prop} {s : Tasks} (h : s.Reach ok) {a : Attempt}
    (ha : a ∈ s.world.attempts) :
    (∀ b ∈ s.world.attempts, a.outboxId = b.outboxId → a.post = b.post) ∧
      ∀ r ∈ s.world.events, ∀ e ∈ s.world.endpoints, r.id = a.outboxId → e.id = r.endpointId →
        a.post = request r e := by
  have hs := h.agrees
  -- any call comes from a claimed row and an endpoint that was looked up
  have hsource : ∀ b ∈ s.world.attempts, ∃ q e, s.Known q ∧ s.KnownEndpoint e ∧
      e.id = q.endpointId ∧ b.outboxId = q.id ∧ b.post = request q e := by
    intro b hb
    obtain ⟨n, hn, hsent⟩ := hs.attempts b hb
    obtain ⟨q, e, hjob, he, hid, hevent, hpost⟩ := hs.sent n hn b hsent
    exact ⟨q, e, .inr (hand_claimed hn hjob), .inr ⟨n, hn, he⟩, hid, hevent, hpost⟩
  -- Of one event there is one such pair.
  have hone : ∀ q e q' e', s.Known q → s.KnownEndpoint e → s.Known q' → s.KnownEndpoint e' →
      q.id = q'.id → e.id = q.endpointId → e'.id = q'.endpointId → request q e = request q' e' := by
    intro q e q' e' hq he hq' he' hid hto hto'
    have hcontent := hs.rows q q' hq hq' hid
    have hendpoint : q.endpointId = q'.endpointId := congrArg MessageContent.endpointId hcontent
    have htype : q.eventType = q'.eventType := congrArg MessageContent.eventType hcontent
    have hpayload : q.payload = q'.payload := congrArg MessageContent.payload hcontent
    rw [hs.endpoints e e' he he' (by rw [hto, hto', hendpoint]), request, request, htype, hpayload]
  obtain ⟨q, e, hq, he, hto, hid, hpost⟩ := hsource a ha
  constructor
  · intro b hb hsame
    obtain ⟨q', e', hq', he', hto', hid', hpost'⟩ := hsource b hb
    rw [hpost, hpost']
    exact hone q e q' e' hq he hq' he' (by rw [← hid, ← hid', hsame]) hto hto'
  · intro r hr e' he' hsame hto'
    rw [hpost]
    exact hone q e r e' hq he (.inl hr) (.inl he') (by rw [← hid, hsame]) hto hto'

/-! ### A run -/

def enqueueOne : List Turn :=
  [.event (.register endpointSeven), .event (.enqueue 1 7 .payoutPaid payloadPaid 0)]

/-- The row of the event as it is claimed at the time `now`. -/
def claimedOne (attempts now : ℕ) (error : Option String) : WebhookEventRow :=
  ⟨1, 1, 7, .payoutPaid, payloadPaid, .pending, attempts, now + seconds 60, error, 0, now⟩

/-- The `i`-th round: the event is claimed, posted, and answered with `status`. -/
def round (i attempts now : ℕ) (error : Option String) (status : ℕ) : List Turn :=
  [.start .tick, .run (2 * i) (.done []), .run (2 * i) (.done []),
    .start (.deliverOne (claimedOne attempts now error)), .run (2 * i + 1) (.done []),
    .run (2 * i + 1) (.status status)]

/-- It is written down, and time passes. -/
def record (i wait : ℕ) : List Turn := [.run (2 * i + 1) (.done []), .event (.tick (seconds wait))]

def refused : Option String := some "non-2xx response: 500"

def twoRounds : List Turn :=
  enqueueOne ++ round 0 0 0 none 500 ++ record 0 5 ++ round 1 1 (seconds 5) refused 500

theorem requests_agree_retried : ∃ s : Tasks, ∃ a b : Attempt, s.world.attempts = [a, b] ∧
    (∀ b ∈ s.world.attempts, a.outboxId = b.outboxId → a.post = b.post) ∧
    ∀ r ∈ s.world.events, ∀ e ∈ s.world.endpoints, r.id = a.outboxId → e.id = r.endpointId →
      a.post = request r e := by
  have hrun : (Pool.runWhile device program (fun _ _ => true) (Pool.begin .empty) twoRounds).any
      (fun s => decide (s.world.attempts.length = 2)) = true := by decide +kernel
  obtain ⟨s, hs, hlength⟩ := Runs.exists_of_runWhile hrun
  obtain ⟨a, b, hab⟩ := List.length_eq_two.mp (of_decide_eq_true hlength)
  have hagree := requests_agree hs (hab ▸ List.mem_cons_self)
  exact ⟨s, a, b, hab, hagree⟩

/-! ## Five posts before a failure -/

/-- Every attempt that is written down has been made. -/
structure Earned (s : Tasks) : Prop where
  agrees : Agrees s
  referenced : ∀ r ∈ s.world.events, ∃ e ∈ s.world.endpoints, e.id = r.endpointId
  gone : ∀ n ∈ s.nodes, ∀ q, n.job = .deliverOne q → n.log.any misses = true →
    ∀ r ∈ s.world.events, r.id ≠ q.id
  rows : ∀ r ∈ s.world.events, r.attempts ≤ s.world.posted r.id
  failed : ∀ r ∈ s.world.events, r.status = .failed → MAX_ATTEMPTS ≤ s.world.posted r.id
  claimed : ∀ q, s.Claimed q → q.attempts ≤ s.world.posted q.id
  sent : ∀ n ∈ s.nodes, ∀ q, n.job = .deliverOne q → n.log.any posts = true →
    q.attempts + 1 ≤ s.world.posted q.id

section Step

variable {s t : Tasks} {l : Turn}

theorem posted_mono (h : Move discipline s l t) (id : Uuid) :
    s.world.posted id ≤ t.world.posted id := by
  cases h with
  | start born =>
    rcases birth_cases born with ⟨rfl, rfl⟩ | ⟨event, hmem, rfl, rfl⟩
    · exact le_rfl
    · exact le_rfl
  | run here script knows may acts =>
    unfold Outbox.posted
    rw [(Frame.of_act acts).attempts, List.countP_append]
    exact Nat.le_add_right _ _
  | crash => exact le_rfl
  | event happens =>
    unfold Outbox.posted
    rw [(Happens.of_event happens).frame.2.1]

theorem Earned.referenced_move (hs : Earned s) (h : Move discipline s l t) :
    ∀ r ∈ t.world.events, ∃ e ∈ t.world.endpoints, e.id = r.endpointId := by
  cases h with
  | start born =>
    rcases birth_cases born with ⟨rfl, rfl⟩ | ⟨event, hmem, rfl, rfl⟩
    · exact hs.referenced
    · exact hs.referenced
  | run here script knows may acts =>
    intro r hr
    rw [(Frame.of_act acts).endpoints]
    rcases rows_of_move hs.agrees.keyed (.run here script knows may acts) hr with
      ⟨r', hr', hsame⟩ | hfresh
    · have hendpoint : r'.endpointId = r.endpointId := congrArg MessageContent.endpointId hsame
      exact hendpoint ▸ hs.referenced r' hr'
    · have hgiven := (hs.agrees.keyed.of_move (.run here script knows may acts)).given r hr
      exact absurd ((Frame.of_act acts).ids ▸ hgiven) hfresh
  | crash => exact hs.referenced
  | event happens =>
    cases Happens.of_event happens with
    | tick n eq =>
      subst eq
      exact hs.referenced
    | enqueue id endpointId type payload since e active begun fresh eq =>
      subst eq
      intro r hr
      rcases List.mem_append.mp hr with hold | hnew
      · exact hs.referenced r hold
      · obtain rfl := List.mem_singleton.mp hnew
        have hid := List.find?_some active
        rw [Bool.and_eq_true, decide_eq_true_eq] at hid
        exact ⟨e, List.mem_of_find?_eq_some active, hid.1⟩
    | register row fresh eq =>
      subst eq
      intro r hr
      obtain ⟨e, he, hid⟩ := hs.referenced r hr
      exact ⟨e, List.mem_append_left _ he, hid⟩
    | deleteEndpoint id eq =>
      subst eq
      intro r hr
      obtain ⟨hr, hkept⟩ := List.mem_filter.mp hr
      obtain ⟨e, he, hid⟩ := hs.referenced r hr
      exact ⟨e, List.mem_filter.mpr ⟨he, hid ▸ hkept⟩, hid⟩

/-- An endpoint that is not found has no event left. -/
theorem Earned.missed (hs : Earned s) {q : WebhookEventRow} (hq : s.Claimed q)
    {log : List Done} {st : Op} {o : Outcome} {r : Except String (Answer st)} {w : Outbox}
    (hmay : deliverMay q log st) (hacts : Outbox.act st o s.world = some (r, w))
    (hmiss : misses ⟨st, r⟩ = true) : ∀ row ∈ s.world.events, row.id ≠ q.id := by
  intro row hrow hid
  cases st with
  | endpointFindById id =>
    obtain ⟨rfl, -⟩ := hmay
    rcases statement_cases hacts with ⟨locked, -, rfl, -⟩ | ⟨e, rfl, -⟩
    · cases hfind : s.world.endpoints.find? (fun r => decide (r.id = q.endpointId)) with
      | none =>
        obtain ⟨e, he, hto⟩ := hs.referenced row hrow
        have hsame := congrArg MessageContent.endpointId
          (hs.agrees.rows row q (.inl hrow) (.inr hq) hid)
        have hno := List.find?_eq_none.mp hfind e he
        rw [decide_eq_true_eq] at hno
        exact hno (hto.trans hsame)
      | some e => simp [misses, hfind] at hmiss
    · simp [misses] at hmiss
  | _ => simp [misses] at hmiss

theorem Earned.gone_move (hs : Earned s) (h : Move discipline s l t) :
    ∀ m ∈ t.nodes, ∀ q, m.job = .deliverOne q → m.log.any misses = true →
      ∀ r ∈ t.world.events, r.id ≠ q.id := by
  intro m hm q hq hmiss r hr hid
  obtain ⟨job, log, script⟩ := m
  -- A row that is there now was there before: the event is not new.
  have hback : s.Claimed q → (∀ row ∈ s.world.events, row.id ≠ q.id) → False := by
    intro hclaimed hnone
    rcases rows_of_move hs.agrees.keyed h hr with ⟨r', hr', hsame⟩ | hfresh
    · have hids : r'.id = r.id := congrArg MessageContent.outboxId hsame
      exact hnone r' hr' (hids.trans hid)
    · exact hfresh (hid ▸ hs.agrees.given q (.inr hclaimed))
  cases h.grown hm with
  | old mem hjob hlog =>
    subst hjob hlog
    exact hback (hand_claimed mem hq) (hs.gone _ mem q hq hmiss)
  | born label born hlog =>
    subst hlog
    cases hmiss
  | acted label here knows may acts hjob hlog =>
    subst hjob hlog
    have hn := List.mem_of_getElem? here
    rw [List.any_append, Bool.or_eq_true] at hmiss
    rcases hmiss with hold | hnew
    · exact hback (hand_claimed hn hq) (hs.gone _ hn q hq hold)
    · rw [List.any_cons, List.any_nil, Bool.or_false] at hnew
      exact hback (hand_claimed hn hq) (hs.missed (hand_claimed hn hq) (hq ▸ may) acts hnew)

/-- A request is one more post. -/
theorem posted_act {q : WebhookEventRow} {log : List Done} {st : Op} {o : Outcome}
    {r : Except String (Answer st)} {w : Outbox} (hmay : deliverMay q log st)
    (hacts : Outbox.act st o s.world = some (r, w)) (hposts : posts ⟨st, r⟩ = true) :
    w.posted q.id = s.world.posted q.id + 1 := by
  unfold Outbox.posted
  rw [(Frame.of_act hacts).attempts, List.countP_append]
  cases st with
  | fetch id post =>
    obtain ⟨rfl, -⟩ := hmay
    cases r with
    | ok status => simp [sends]
    | error message => simp [sends]
  | _ => simp [posts] at hposts

theorem Earned.sent_move (hs : Earned s) (h : Move discipline s l t) :
    ∀ m ∈ t.nodes, ∀ q, m.job = .deliverOne q → m.log.any posts = true →
      q.attempts + 1 ≤ t.world.posted q.id := by
  intro m hm q hq hposts
  obtain ⟨job, log, script⟩ := m
  cases h.grown hm with
  | old mem hjob hlog =>
    subst hjob hlog
    exact (hs.sent _ mem q hq hposts).trans (posted_mono h _)
  | born label born hlog =>
    subst hlog
    cases hposts
  | acted label here knows may acts hjob hlog =>
    subst hjob hlog
    have hn := List.mem_of_getElem? here
    rw [List.any_append, Bool.or_eq_true] at hposts
    rcases hposts with hold | hnew
    · exact (hs.sent _ hn q hq hold).trans (posted_mono h _)
    · rw [List.any_cons, List.any_nil, Bool.or_false] at hnew
      rw [posted_act (hq ▸ may) acts hnew]
      exact Nat.add_le_add_right (hs.claimed q (hand_claimed hn hq)) 1

theorem Earned.row (hs : Earned s) {r : WebhookEventRow} (h : Origin s l r) :
    r.attempts ≤ s.world.posted r.id ∧
      (r.status = .failed → MAX_ATTEMPTS ≤ s.world.posted r.id) := by
  cases h with
  | kept old => exact ⟨hs.rows r old, hs.failed r old⟩
  | enqueued fresh begun => exact ⟨Nat.zero_le _, by simp⟩
  | claimed old pending due =>
    have hrow := hs.rows _ old
    have hfailed := hs.failed _ old
    exact ⟨hrow, hfailed⟩
  | delivered turn old same =>
    have hrow := hs.rows _ old
    exact ⟨hrow, by simp⟩
  | retried turn old same =>
    obtain ⟨i, locked, c, -, hn, -⟩ := turn.here
    obtain ⟨-, rfl, -, -, hposted, -⟩ := turn.may
    have hearned := hs.sent _ (List.mem_of_getElem? hn) _ rfl hposted
    have hfailed := hs.failed _ old
    rw [← same] at hearned
    exact ⟨hearned, hfailed⟩
  | failed turn old same =>
    obtain ⟨i, locked, c, -, hn, -⟩ := turn.here
    obtain ⟨-, rfl, hwhy, -⟩ := turn.may
    rcases hwhy with hmiss | ⟨hlast, hposted⟩
    · exact absurd same (hs.gone _ (List.mem_of_getElem? hn) _ rfl hmiss _ old)
    · have hearned := hs.sent _ (List.mem_of_getElem? hn) _ rfl hposted
      rw [← same] at hearned
      exact ⟨hearned, fun _ => hlast.trans hearned⟩

theorem Earned.move (hs : Earned s) (h : Move discipline s l t) : Earned t where
  agrees := hs.agrees.move h
  referenced := hs.referenced_move h
  gone := hs.gone_move h
  rows := fun r hr =>
    (hs.row (Origin.of_move hs.agrees.keyed h hr)).1.trans (posted_mono h _)
  failed := fun r hr hf =>
    ((hs.row (Origin.of_move hs.agrees.keyed h hr)).2 hf).trans (posted_mono h _)
  claimed := by
    intro q hq
    rcases Claimed.of_move hs.agrees.keyed h hq with hold | ⟨row, hrow, -, -, rfl⟩
    · exact (hs.claimed q hold).trans (posted_mono h _)
    · exact (hs.rows row hrow).trans (posted_mono h _)
  sent := hs.sent_move h

end Step

theorem Tasks.Reach.earned {ok : Tasks → Turn → Prop} {s : Tasks} (h : s.Reach ok) :
    Earned s := by
  refine Runs.invariant (K := discipline) (I := Earned) (fun hi hmove _ => hi.move hmove)
    (Discipline.follows_begin discipline .empty) h ?_
  refine ⟨agrees_begin, ?_, ?_, ?_, ?_, ?_, ?_⟩
  · exact fun r hr => by cases hr
  · exact fun n hn => by cases hn
  · exact fun r hr => by cases hr
  · exact fun r hr => by cases hr
  · rintro q (hbatch | ⟨n, hn, -⟩)
    · cases hbatch
    · cases hn
  · exact fun n hn => by cases hn

/-- No event is given up before `fetch` has been called five times for it, and none
because its endpoint is gone: with the endpoint its events are gone too. -/
theorem failed_after_five {ok : Tasks → Turn → Prop} {s : Tasks} (h : s.Reach ok)
    {r : WebhookEventRow} (hr : r ∈ s.world.events) :
    r.attempts ≤ s.world.posted r.id ∧ (r.status = .failed → MAX_ATTEMPTS ≤ s.world.posted r.id) :=
  ⟨h.earned.rows r hr, h.earned.failed r hr⟩

/-- Five rounds, none of which succeeds. -/
def fiveRounds : List Turn :=
  twoRounds ++ record 1 10 ++ round 2 2 (seconds 15) refused 500 ++ record 2 20 ++
    round 3 3 (seconds 35) refused 500 ++ record 3 40 ++ round 4 4 (seconds 75) refused 500 ++
    record 4 0

theorem failed_after_five_refused : ∃ s : Tasks, ∃ r ∈ s.world.events, r.status = .failed ∧
    r.attempts ≤ s.world.posted r.id ∧
      (r.status = .failed → MAX_ATTEMPTS ≤ s.world.posted r.id) := by
  have hrun : (Pool.runWhile device program (fun _ _ => true) (Pool.begin .empty) fiveRounds).any
      (fun s => decide (s.world.status 1 = some .failed)) = true := by decide +kernel
  obtain ⟨s, hs, hfailed⟩ := Runs.exists_of_runWhile hrun
  obtain ⟨r, hr, -, hstatus⟩ := World.of_status (of_decide_eq_true hfailed)
  exact ⟨s, r, hr, hstatus, failed_after_five hs hr⟩

end PaymentApis.WebhookWorker
