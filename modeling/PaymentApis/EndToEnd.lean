import PaymentApis.Attempts
import PaymentApis.Contents
import PaymentApis.Truths
import PaymentApis.Lib.Beside

/-!
# From a payment to the merchant's server

The API commits events, and a worker reads them from the tables it shares with
the API. So what a worker gives to `fetch` is what has happened, signed with the
secret of the merchant it happened to: whichever of the two workers runs.
-/

namespace PaymentApis

open TxStore Processes

/-- What the workers read of an event. -/
def Db.HasEvent (d : Db) (c : MessageContent) : Prop := ∃ e ∈ d.events, (toMessage e).content = c

/-- A call of `fetch` that tells a merchant, in its own name, what has happened. -/
structure TellsTruth (s : Sys) (a : Attempt) : Prop where
  event : ∃ e ∈ Db.events s.db, e.id = a.outboxId ∧ Truthful s.db s.history e ∧
    ∃ p ∈ Db.endpoints s.db, p.id = e.endpointId ∧ p.merchantId = e.merchantId ∧
      a.post = ⟨p.url, e.eventType, signPayload p.secret e.payload, e.payload⟩

theorem Db.event_later {d d' : Db} (hd : d.Later d') {e : WebhookEventRow} (he : e ∈ d.events) :
    e ∈ d'.events := by
  have hget : d.get (.event e.id) = some (.event e) := by
    rw [Db.events, List.mem_filterMap] at he
    obtain ⟨r, hr, hevent⟩ := he
    cases r <;> cases hevent
    exact Table.get_of_mem hr
  have hmem := Table.mem_of_get (hd.get hget rfl)
  rw [Db.events, List.mem_filterMap]
  exact ⟨_, hmem, rfl⟩

theorem Db.endpoint_later {d d' : Db} (hd : d.Later d') {p : WebhookEndpointRow}
    (hp : p ∈ d.endpoints) : p ∈ d'.endpoints := by
  rw [Db.mem_endpoints] at hp ⊢
  exact hd.get hp rfl

theorem Abs.step_later {min : ℤ} {a a' : Abs} (hstep : TxStore.AStep (commits min) a a') :
    Db.Later a.db a'.db := by
  cases hstep with
  | start | tick | fault | quiet => exact Db.Later.refl _
  | commit i log it p live hproc _ hg => exact Commit.later hg

theorem Sys.next_later {min : ℤ} {s s' : Sys} {l : Step} (hs : Reachable min s)
    (h : s.next min l = some s') : Db.Later s.db s'.db :=
  Abs.step_later (step_refines hs h)

/-- A call made of a committed row, for the endpoint of that row. -/
theorem TellsTruth.of_rows {min : ℤ} {s : Sys} (hs : Reachable min s) {c : MessageContent}
    (hc : Db.HasEvent s.db c) {p : WebhookEndpointRow} (hp : p ∈ Db.endpoints s.db)
    (hid : p.id = c.endpointId) {a : Attempt} (ha : a.outboxId = c.outboxId)
    (hpost : a.post = ⟨p.url, c.eventType, signPayload p.secret c.payload, c.payload⟩) :
    TellsTruth s a := by
  obtain ⟨e, he, rfl⟩ := hc
  have htruthful : Truthful s.db s.history e :=
    (truths (reach_refines (fun _ _ _ _ => trivial) hs : AReach min (fun _ => True) s.abs)).events
      e he
  obtain ⟨p', hp', hid', howner⟩ := htruthful.endpoint
  have hsame : p' = p := by
    rw [Db.mem_endpoints] at hp hp'
    rw [show p'.id = p.id from hid'.trans hid.symm, hp] at hp'
    simpa using hp'.symm
  subst hsame
  exact ⟨e, he, ha.symm, htruthful, p', hp', hid', howner, hpost⟩

/-- The workers run after the API has. -/
theorem Reach.beside {W S ε O J E α : Type} {R : S → Type} {D : Device W S R ε O J E}
    {program : J → Processes.Script S R ε α} {allows : Sys → Processes.Label O J E → Prop} {min : ℤ}
    {s : Sys} {t₀ t : Pool W S R ε J α} (hs : Reachable min s)
    (ht : Runs D program (fun _ l => allows s l) t₀ t) :
    Beside.Reach (fun s l s' => Sys.next min s l = some s')
      (fun t l u => t.step D program l = some u) allows TxStore.Sys.init t₀ s t := by
  induction ht with
  | refl =>
    induction hs with
    | init => exact .begin
    | step _ hstep _ ih => exact .first ih hstep
  | tail _ hstep hallows ih => exact .second ih hstep hallows

/-! ## With `rabbit-worker.ts` -/

/-- What the relays and consumers read is in the tables of the API. -/
def reads (s : Sys) : LossyTurn → Prop
  | .event (.plain (.enqueue id m e type payload _)) => ∃ r ∈ Db.events s.db,
      r.id = id ∧ r.merchantId = m ∧ r.endpointId = e ∧ r.eventType = type ∧ r.payload = payload
  | .event (.plain (.register row)) => row ∈ Db.endpoints s.db
  | _ => True

instance (s : Sys) : DecidablePred (reads s)
  | .event (.plain (.enqueue id m e type payload _)) => inferInstanceAs (Decidable
      (∃ r ∈ Db.events s.db, r.id = id ∧ r.merchantId = m ∧ r.endpointId = e ∧
        r.eventType = type ∧ r.payload = payload))
  | .event (.plain (.register row)) => inferInstanceAs (Decidable (row ∈ Db.endpoints s.db))
  | .event (.plain (.tick _)) | .event (.plain .expire) | .event (.channelLost _) | .start _
  | .run _ _ | .crash _ => .isTrue trivial

/-- The API beside relays and consumers. -/
abbrev WithRabbit (min : ℤ) (batch : ℕ) : Sys → Workers → Prop :=
  Beside.Reach (fun s l s' => s.next min l = some s')
    (fun t l u => t.step lossyDevice (workerProgramOf batch) l = some u) reads TxStore.Sys.init
    (Pool.begin .empty)

/-- What is known of the workers, and what their tables hold. -/
structure ReadsCommitted (s : Sys) (t : Workers) : Prop where
  contents : ∀ c ∈ t.world.contents, Db.HasEvent s.db c
  endpoints : ∀ p ∈ t.world.endpoints, p ∈ Db.endpoints s.db

theorem ReadsCommitted.later {s s' : Sys} {t : Workers} (h : ReadsCommitted s t)
    (hd : Db.Later s.db s'.db) : ReadsCommitted s' t where
  contents := by
    intro c hc
    obtain ⟨e, he, hec⟩ := h.contents c hc
    exact ⟨e, Db.event_later hd he, hec⟩
  endpoints := fun p hp => Db.endpoint_later hd (h.endpoints p hp)

theorem ReadsCommitted.move {batch : ℕ} {s : Sys} {t u : Workers} {l : LossyTurn}
    (h : ReadsCommitted s t) (hmove : Move (passageDiscipline batch) t l u) (hreads : reads s l) :
    ReadsCommitted s u := by
  cases Tabled.of_move hmove with
  | same tables =>
    refine ⟨?_, ?_⟩
    · rw [tables.contents]
      exact h.contents
    · rw [tables.endpoints]
      exact h.endpoints
  | enqueued label fresh contents endpoints =>
    subst label
    refine ⟨?_, ?_⟩
    · intro c hc
      rw [contents] at hc
      rcases List.mem_append.mp hc with hc | hc
      · exact h.contents c hc
      · obtain rfl := List.mem_singleton.mp hc
        obtain ⟨r, hr, rfl, -, rfl, rfl, rfl⟩ := hreads
        exact ⟨r, hr, rfl⟩
    · rw [endpoints]
      exact h.endpoints
  | registered label contents endpoints =>
    subst label
    refine ⟨?_, ?_⟩
    · rw [contents]
      exact h.contents
    · intro p hp
      rw [endpoints] at hp
      rcases List.mem_append.mp hp with hp | hp
      · exact h.endpoints p hp
      · obtain rfl := List.mem_singleton.mp hp
        exact hreads

section Rabbit

variable {min : ℤ} {batch : ℕ} {s : Sys} {t : Workers}

/-- What is known of the workers for themselves. -/
structure Sound (batch : ℕ) (t : Workers) : Prop where
  follows : (passageDiscipline batch).Follows t
  owed : AllOwed t
  told : Told t

theorem Sound.step {l : LossyTurn} {u : Workers} (h : Sound batch t)
    (hstep : t.step lossyDevice (workerProgramOf batch) l = some u) :
    Move (passageDiscipline batch) t l u ∧ Sound batch u := by
  obtain ⟨hmove, hfollows⟩ := h.follows.step hstep
  exact ⟨hmove, hfollows, h.owed.move hmove, h.told.move h.owed hmove⟩

theorem sound_begin : Sound batch (Pool.begin .empty) :=
  ⟨Discipline.follows_begin _ _, allOwed_begin, told_begin⟩

theorem WithRabbit.each (h : WithRabbit min batch s t) : Reachable min s ∧ Sound batch t :=
  Beside.Reach.each .init sound_begin (fun hs hstep => .step hs hstep trivial)
    (fun ht hstep => (ht.step hstep).2) h

theorem WithRabbit.readsCommitted (h : WithRabbit min batch s t) : ReadsCommitted s t := by
  refine Beside.Reach.between (P := Reachable min) (Q := Sound batch) .init sound_begin ?_
    (fun hs hstep => .step hs hstep trivial) (fun ht hstep => (ht.step hstep).2) ?_ ?_ h
  · refine ⟨?_, ?_⟩
    · intro c hc
      cases hc
    · intro p hp
      cases hp
  · intro s l s' t hs hstep hreads
    exact hreads.later (Sys.next_later hs hstep)
  · intro s t l u ht hstep hallows hreads
    exact hreads.move (ht.step hstep).1 hallows

/-- Whatever the relays and consumers give to `fetch` is true. -/
theorem rabbit_posts_truth (h : WithRabbit min batch s t) {a : Attempt}
    (ha : a ∈ t.world.attempts) : TellsTruth s a := by
  have hreads := h.readsCommitted
  obtain ⟨hs, ht⟩ := h.each
  obtain ⟨msg, hmsg, hid, p, hp, hpost⟩ := ht.told.requests a ha
  have hfound := List.mem_of_find?_eq_some hp
  have hpid : p.id = msg.content.endpointId := by simpa using List.find?_some hp
  exact .of_rows hs (hreads.contents _ hmsg) (hreads.endpoints p hfound) hpid hid hpost

/-- A relay claims and publishes the events, and the endpoint of the first one
answers 200. -/
def relayEvents (d : Db) : List LossyTurn :=
  List.map lossless (d.endpoints.map (fun p => .event (.register p)) ++
    d.events.map (fun e =>
      .event (.enqueue e.id e.merchantId e.endpointId e.eventType e.payload 0)) ++
    [.start .relayTick, .run 0 .done, .run 0 .done, .run 0 .done] ++
    d.events.flatMap (fun e =>
      [.start (.handle 0 (toMessage e)), .run 1 .done, .run 1 (.status 200)]))

theorem rabbit_posts_truth_confirmed : ∃ (s : Sys) (t : Workers), ∃ a ∈ t.world.attempts,
    TellsTruth s a := by
  have hrun : (runFrom 10 confirmedIntent).any (fun s => (Pool.runWhile lossyDevice
      (workerProgramOf RELAY_BATCH) (fun _ l => decide (reads s l)) (Pool.begin .empty)
        (relayEvents s.db)).any (fun t => decide (0 < t.world.attempts.length))) = true := by
    decide +kernel
  obtain ⟨s, hs, hthen⟩ := exists_of_run hrun
  obtain ⟨t, ht, hlength⟩ := Runs.exists_of_runWhile hthen
  obtain ⟨a, ha⟩ := List.exists_mem_of_length_pos (of_decide_eq_true hlength)
  have hreads : Runs lossyDevice (workerProgramOf RELAY_BATCH) (fun _ l => reads s l)
      (Pool.begin .empty) t := ht.mono (fun _ _ h => of_decide_eq_true h)
  exact ⟨s, t, a, ha, rabbit_posts_truth (Reach.beside hs hreads) ha⟩

end Rabbit

/-! ## With `webhook-worker.ts` -/

namespace WebhookWorker

/-- What the polling workers read is in the tables of the API, which deletes no
endpoint. -/
def reads (s : Sys) : Turn → Prop
  | .event (.enqueue id endpointId type payload _) => ∃ r ∈ Db.events s.db,
      r.id = id ∧ r.endpointId = endpointId ∧ r.eventType = type ∧ r.payload = payload
  | .event (.register row) => row ∈ Db.endpoints s.db
  | .event (.deleteEndpoint _) => False
  | _ => True

instance (s : Sys) : DecidablePred (reads s)
  | .event (.enqueue id e type payload _) => inferInstanceAs (Decidable
      (∃ r ∈ Db.events s.db, r.id = id ∧ r.endpointId = e ∧ r.eventType = type ∧
        r.payload = payload))
  | .event (.register row) => inferInstanceAs (Decidable (row ∈ Db.endpoints s.db))
  | .event (.deleteEndpoint _) => .isFalse id
  | .event (.tick _) | .start _ | .run _ _ | .crash _ => .isTrue trivial

/-- The API beside polling workers. -/
abbrev WithPolling (min : ℤ) : Sys → Tasks → Prop :=
  Beside.Reach (fun s l s' => s.next min l = some s')
    (fun t l u => t.step device program l = some u) reads TxStore.Sys.init (Pool.begin .empty)

/-- What the workers know is committed. -/
structure ReadsCommitted (s : Sys) (t : Tasks) : Prop where
  rows : ∀ q, t.Known q → Db.HasEvent s.db (content q)
  endpoints : ∀ e, t.KnownEndpoint e → e ∈ Db.endpoints s.db

section Step

variable {s : Sys} {t u : Tasks} {l : Turn}

/-- The ids that have been given out change with the rows only. -/
theorem ids_of_move (hmove : Move discipline t l u) (hnot : ∀ id endpointId type payload since,
    l ≠ .event (.enqueue id endpointId type payload since))
    (hnone : ∀ row, l ≠ .event (.register row)) :
    u.world.ids = t.world.ids ∧ ∀ e ∈ u.world.endpoints, e ∈ t.world.endpoints := by
  cases hmove with
  | start born =>
    rcases birth_cases born with ⟨rfl, rfl⟩ | ⟨event, hmem, rfl, rfl⟩
    · exact ⟨rfl, fun _ he => he⟩
    · exact ⟨rfl, fun _ he => he⟩
  | run here script knows may acts =>
    refine ⟨(Frame.of_act acts).ids, fun e he => ?_⟩
    exact (Frame.of_act acts).endpoints ▸ he
  | crash => exact ⟨rfl, fun _ he => he⟩
  | event happens =>
    cases Happens.of_event happens with
    | tick n eq =>
      subst eq
      exact ⟨rfl, fun _ he => he⟩
    | enqueue id endpointId type payload since e active begun fresh eq =>
      exact absurd rfl (hnot id endpointId type payload since)
    | register row fresh eq => exact absurd rfl (hnone row)
    | deleteEndpoint id eq =>
      subst eq
      exact ⟨rfl, fun _ he => List.mem_of_mem_filter he⟩

/-- A new row is the row that is enqueued. -/
theorem fresh_row (hkeyed : t.world.Keyed) (hmove : Move discipline t l u) {q : WebhookEventRow}
    (hq : q ∈ u.world.events) (hfresh : q.id ∉ t.world.ids) :
    ∃ id endpointId type payload since,
      l = .event (.enqueue id endpointId type payload since) ∧
      content q = ⟨id, endpointId, type, payload⟩ := by
  by_cases hlabel : ∃ id endpointId type payload since,
      l = .event (.enqueue id endpointId type payload since)
  · obtain ⟨id, endpointId, type, payload, since, rfl⟩ := hlabel
    refine ⟨id, endpointId, type, payload, since, rfl, ?_⟩
    cases hmove with
    | event happens =>
      have henqueued : Outbox.event (.enqueue id endpointId type payload since) t.world =
          some _ := happens
      cases Happens.of_event henqueued with
      | enqueue _ _ _ _ _ e active begun fresh eq =>
        subst eq
        rcases List.mem_append.mp hq with hold | hnew
        · exact absurd (hkeyed.given q hold) hfresh
        · obtain rfl := List.mem_singleton.mp hnew
          rfl
  · exfalso
    have hnew := (hkeyed.of_move hmove).given q hq
    by_cases hregister : ∃ row, l = .event (.register row)
    · obtain ⟨row, rfl⟩ := hregister
      cases hmove with
      | event happens =>
        have hregistered : Outbox.event (.register row) t.world = some _ := happens
        cases Happens.of_event hregistered with
        | register _ fresh eq =>
          subst eq
          exact hfresh (hkeyed.given q hq)
    · have hids := (ids_of_move hmove
        (fun id e type payload since h => hlabel ⟨id, e, type, payload, since, h⟩)
        (fun row h => hregister ⟨row, h⟩)).1
      rw [hids] at hnew
      exact hfresh hnew

/-- A new endpoint is the endpoint that is registered. -/
theorem fresh_endpoint (hmove : Move discipline t l u) {e : WebhookEndpointRow}
    (hnew : u.world.endpoints = t.world.endpoints ++ [e]) : l = .event (.register e) := by
  have hlength : u.world.endpoints ≠ t.world.endpoints := by
    intro hsame
    have hlen := congrArg List.length (hnew.symm.trans hsame)
    simp at hlen
  cases hmove with
  | start born =>
    rcases birth_cases born with ⟨rfl, rfl⟩ | ⟨event, hmem, rfl, rfl⟩
    · exact absurd rfl hlength
    · exact absurd rfl hlength
  | run here script knows may acts => exact absurd (Frame.of_act acts).endpoints hlength
  | crash => exact absurd rfl hlength
  | event happens =>
    cases Happens.of_event happens with
    | tick n eq =>
      subst eq
      exact absurd rfl hlength
    | enqueue id endpointId type payload since e active begun fresh eq =>
      subst eq
      exact absurd rfl hlength
    | register row fresh eq =>
      subst eq
      obtain rfl := List.singleton_inj.mp (List.append_cancel_left hnew)
      rfl
    | deleteEndpoint id eq =>
      subst eq
      have hlen := congrArg List.length hnew
      have hle := List.length_filter_le (fun e : WebhookEndpointRow => decide (e.id ≠ id))
        t.world.endpoints
      simp only [List.length_append, List.length_singleton] at hlen
      omega

theorem ReadsCommitted.later {s' : Sys} (h : ReadsCommitted s t) (hd : Db.Later s.db s'.db) :
    ReadsCommitted s' t where
  rows := by
    intro q hq
    obtain ⟨e, he, hec⟩ := h.rows q hq
    exact ⟨e, Db.event_later hd he, hec⟩
  endpoints := fun p hp => Db.endpoint_later hd (h.endpoints p hp)

theorem ReadsCommitted.move (h : ReadsCommitted s t) (hkeyed : t.world.Keyed)
    (hmove : Move discipline t l u) (hreads : reads s l) : ReadsCommitted s u where
  rows := by
    intro q hq
    rcases Known.of_move hkeyed hmove hq with ⟨q', hq', hsame⟩ | ⟨hfresh, hrow⟩
    · rw [← hsame]
      exact h.rows q' hq'
    · obtain ⟨id, endpointId, type, payload, since, rfl, hcontent⟩ :=
        fresh_row hkeyed hmove hrow hfresh
      obtain ⟨r, hr, rfl, rfl, rfl, rfl⟩ := hreads
      exact ⟨r, hr, hcontent.symm⟩
  endpoints := by
    intro e he
    rcases KnownEndpoint.of_move hmove he with hold | ⟨-, -, hnew⟩
    · exact h.endpoints e hold
    · obtain rfl := fresh_endpoint hmove hnew
      exact hreads

end Step

section Polling

variable {min : ℤ} {s : Sys} {t : Tasks}

/-- What is known of the workers for themselves. -/
structure Sound (t : Tasks) : Prop where
  follows : discipline.Follows t
  agrees : Agrees t

theorem Sound.step {l : Turn} {u : Tasks} (h : Sound t)
    (hstep : t.step device program l = some u) : Move discipline t l u ∧ Sound u := by
  obtain ⟨hmove, hfollows⟩ := h.follows.step hstep
  exact ⟨hmove, hfollows, h.agrees.move hmove⟩

theorem sound_begin : Sound (Pool.begin .empty) :=
  ⟨Discipline.follows_begin _ _, agrees_begin⟩

theorem WithPolling.each (h : WithPolling min s t) : Reachable min s ∧ Sound t :=
  Beside.Reach.each .init sound_begin (fun hs hstep => .step hs hstep trivial)
    (fun ht hstep => (ht.step hstep).2) h

theorem WithPolling.readsCommitted (h : WithPolling min s t) : ReadsCommitted s t := by
  refine Beside.Reach.between (P := Reachable min) (Q := Sound) .init sound_begin ?_
    (fun hs hstep => .step hs hstep trivial) (fun ht hstep => (ht.step hstep).2) ?_ ?_ h
  · constructor
    · rintro q (hrow | hbatch | ⟨n, hn, -⟩)
      · cases hrow
      · cases hbatch
      · cases hn
    · rintro e (htable | ⟨n, hn, -⟩)
      · cases htable
      · cases hn
  · intro s l s' t hs hstep hreads
    exact hreads.later (Sys.next_later hs hstep)
  · intro s t l u ht hstep hallows hreads
    exact hreads.move ht.agrees.keyed (ht.step hstep).1 hallows

/-- Whatever the polling workers give to `fetch` is true. -/
theorem polling_posts_truth (h : WithPolling min s t) {a : Attempt} (ha : a ∈ t.world.attempts) :
    TellsTruth s a := by
  have hreads := h.readsCommitted
  obtain ⟨hs, ht⟩ := h.each
  obtain ⟨n, hn, hsent⟩ := ht.agrees.attempts a ha
  obtain ⟨q, e, hjob, he, hid, hevent, hpost⟩ := ht.agrees.sent n hn a hsent
  exact .of_rows hs (hreads.rows q (.inr (hand_claimed hn hjob)))
    (hreads.endpoints e (.inr ⟨n, hn, he⟩)) hid hevent hpost

/-- A worker claims the events, and the endpoint of the first one answers 200. -/
def pollEvents (d : Db) : List Turn :=
  d.endpoints.map (fun p => .event (.register p)) ++
    d.events.map (fun e => .event (.enqueue e.id e.endpointId e.eventType e.payload 0)) ++
    [.start .tick, .run 0 (.done []), .run 0 (.done [])] ++
    d.events.flatMap (fun e => [.start (.deliverOne (webhookEventRepository.leasedUntil (seconds 60)
      0 (.enqueued e.id e.merchantId e.endpointId e.eventType e.payload 0))), .run 1 (.done []),
        .run 1 (.status 200)])

theorem polling_posts_truth_confirmed : ∃ (s : Sys) (t : Tasks), ∃ a ∈ t.world.attempts,
    TellsTruth s a := by
  have hrun : (runFrom 10 confirmedIntent).any (fun s => (Pool.runWhile device program
      (fun _ l => decide (reads s l)) (Pool.begin .empty) (pollEvents s.db)).any
        (fun t => decide (0 < t.world.attempts.length))) = true := by decide +kernel
  obtain ⟨s, hs, hthen⟩ := exists_of_run hrun
  obtain ⟨t, ht, hlength⟩ := Runs.exists_of_runWhile hthen
  obtain ⟨a, ha⟩ := List.exists_mem_of_length_pos (of_decide_eq_true hlength)
  have hreads : Runs device program (fun _ l => reads s l) (Pool.begin .empty) t :=
    ht.mono (fun _ _ h => of_decide_eq_true h)
  exact ⟨s, t, a, ha, polling_posts_truth (Reach.beside hs hreads) ha⟩

end Polling

end WebhookWorker

end PaymentApis
