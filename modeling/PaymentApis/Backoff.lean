import PaymentApis.Lib.Fifo
import PaymentApis.Custody

/-!
# Backoff

A failed delivery is put in `webhook.retry` with its backoff as the time to
live. The queue is first in, first out, and the backoffs differ: a message waits
for its own backoff, and for those ahead of it.
-/

namespace PaymentApis

open TxStore Processes

/-! ## What is stated -/

/-- The retry a handler is about to publish, with the attempt that has failed. -/
def Worker.retrying (n : Worker) : Option (Message × ℕ) :=
  match n.job, n.next with
  | .handle _ msg, some (.publish .webhooksRetry _ m _) => some (m, msg.attempt)
  | _, _ => none

/-- When the messages of `webhook.retry` are due. -/
def World.retryDues (w : World) : List ℕ := (w.broker.ready Q_RETRY).filterMap (·.expiresAt)

/-- What enters `webhook.retry` at a step, due after its own backoff, and what
leaves it for `webhook.deliver`. -/
def retryNote (s : Workers) (l : Turn) (_ : Workers) (j : Fifo.Journal Message) :
    Fifo.Journal Message :=
  match l with
  | .run i _ =>
    match s.nodes[i]?.bind Worker.retrying with
    | some (m, attempt) =>
      j.enter ⟨m, s.world.now + milliseconds (backoffMs attempt), s.world.retryDues⟩
    | none => j
  | .event .expire =>
    match s.world.broker.ready Q_RETRY with
    | x :: _ => j.leave x.message s.world.now
    | [] => j
  | _ => j

/-- The retries of a schedule. -/
def retryJournal (s : Workers) (ls : List Turn) : Fifo.Journal Message :=
  s.trace device workerProgram retryNote ls .empty

/-- The broker returns the head of `webhook.retry` as soon as its time has passed. -/
def PromptBroker (s : Workers) : Turn → Bool
  | .event (.tick n) => decide (n = 0 ∨ ∀ x ∈ (s.world.broker.ready Q_RETRY).head?,
      ∀ due ∈ x.expiresAt, s.world.now + n ≤ due)
  | _ => true

/-! ## The retry queue -/

/-- A message of `webhook.retry`, with the time it is due. -/
def waitingAt (x : Message × ℕ) : Broker.Queued Message := ⟨x.1, some x.2⟩

/-- What an action adds to `webhook.retry`. -/
def Op.retried (now : ℕ) : Op → List (Broker.Queued Message)
  | .publish .webhooksRetry _ m expiration => [⟨m, expiration.map (fun n => now + milliseconds n)⟩]
  | _ => []

theorem ready_publish_retry {b : MessageBroker} {x : Exchange} {m : Message} {e : Option ℕ} :
    (b.publish topology x ROUTING_KEY m e).ready Q_RETRY =
      b.ready Q_RETRY ++ (if x = EXCHANGE_RETRY then [⟨m, e⟩] else []) := by
  cases x <;> simp [Broker.State.publish]

theorem ready_bury_retry {b : MessageBroker} {q : Queue} {m : Message} :
    (b.bury topology q m).ready Q_RETRY = b.ready Q_RETRY := by
  cases q <;> simp [Broker.State.bury, topology]
  exact ready_publish_retry.trans (List.append_nil _)

/-- Only a retry changes the retry queue, and it adds its message at the end. -/
theorem World.act_retry {j : WorkerJob} {log : List Done} {i : ℕ} {st : Op} {o : Outcome}
    {w w' : World} {r : Except String (Answer st)} (hmay : may j log st)
    (hact : World.act i st o w = some (r, w')) :
    w'.now = w.now ∧ w'.broker.ready Q_RETRY = w.broker.ready Q_RETRY ++ st.retried w.now := by
  have hquiet : w'.now = w.now → w'.broker.ready Q_RETRY = w.broker.ready Q_RETRY →
      st.retried w.now = [] →
      w'.now = w.now ∧ w'.broker.ready Q_RETRY = w.broker.ready Q_RETRY ++ st.retried w.now := by
    intro hnow hready hnone
    exact ⟨hnow, by rw [hready, hnone, List.append_nil]⟩
  have hstatement : ∀ {α : Type} {y : Except String α} {x : α} {v : List WebhookEventRow},
      statement o w (x, { w with events := v }) = some (y, w') →
      w'.now = w.now ∧ w'.broker.ready Q_RETRY = w.broker.ready Q_RETRY := by
    intro α y x v hst
    rcases statement_eq_some hst with ⟨-, rfl⟩ | ⟨e, -, rfl⟩ <;> exact ⟨rfl, rfl⟩
  cases st with
  | eventReapStalePublishing k => exact hquiet (hstatement hact).1 (hstatement hact).2 rfl
  | eventClaimForPublishing limit => exact hquiet (hstatement hact).1 (hstatement hact).2 rfl
  | eventMarkPublished ids => exact hquiet (hstatement hact).1 (hstatement hact).2 rfl
  | eventResetToPending ids => exact hquiet (hstatement hact).1 (hstatement hact).2 rfl
  | eventMarkDelivered id => exact hquiet (hstatement hact).1 (hstatement hact).2 rfl
  | eventMarkFailed id k e => exact hquiet (hstatement hact).1 (hstatement hact).2 rfl
  | endpointFindById id =>
    exact hquiet (hstatement (v := w.events) hact).1 (hstatement (v := w.events) hact).2 rfl
  | confirmPublish x key m =>
    cases j with
    | relayTick =>
      obtain ⟨rfl, rfl, -⟩ := hmay
      cases o <;> cases hact
      · exact hquiet rfl (ready_publish_retry.trans (List.append_nil _)) rfl
      · exact hquiet rfl rfl rfl
    | handle consumer msg => exact absurd hmay id
  | waitForConfirms =>
    cases o with
    | done =>
      simp only [World.act] at hact
      split at hact <;> cases hact
      exact hquiet rfl rfl rfl
    | failed e =>
      cases hact
      exact hquiet rfl rfl rfl
    | status k => cases hact
  | publish x key m expiration =>
    cases j with
    | relayTick => exact absurd hmay id
    | handle consumer msg =>
      obtain ⟨rfl, -⟩ := hmay
      cases o <;> cases hact
      refine ⟨rfl, ready_publish_retry.trans ?_⟩
      cases x <;> rfl
  | fetch id post => cases o <;> cases hact <;> exact hquiet rfl rfl rfl
  | ack =>
    cases o <;> cases hact
    exact hquiet rfl rfl rfl
  | nack =>
    cases o <;> cases hact
    refine hquiet rfl ?_ rfl
    show (w.broker.nack topology i).ready Q_RETRY = w.broker.ready Q_RETRY
    unfold Broker.State.nack
    split
    · rfl
    · exact ready_bury_retry

/-! ## The journal -/

/-- The retry queue is a line whose head leaves as soon as it is due, and every
message handed out comes from the main queue. -/
structure InLine (j : Fifo.Journal Message) (s : Workers) : Prop where
  waiting : ∃ waiting, s.world.broker.ready Q_RETRY = waiting.map waitingAt ∧
    j.Prompt s.world.now waiting
  queues : ∀ d ∈ s.world.broker.unacked, d.queue = Q_DELIVER

theorem retryDues_eq {w : World} {waiting : List (Message × ℕ)}
    (h : w.broker.ready Q_RETRY = waiting.map waitingAt) : w.retryDues = waiting.map Prod.snd := by
  rw [World.retryDues, h, List.filterMap_map, List.filterMap_eq_map_iff_forall_eq_some]
  exact fun _ _ => rfl

theorem InLine.begin : InLine .empty (Pool.begin .empty) where
  waiting := ⟨[], rfl, Fifo.Journal.Prompt.empty⟩
  queues := by simp [Pool.begin, World.empty, Broker.State.empty]

section Step

variable {j : Fifo.Journal Message} {s : Workers} {w : World} {i : ℕ} {n : Worker} {st : Op}
  {o : Outcome} {r : Except String (Answer st)} {k : Except String (Answer st) → Script Unit}

/-- A step that leaves the retry queue and the clock alone. -/
theorem InLine.keep (h : InLine j s) {t : Workers} (hnow : t.world.now = s.world.now)
    (hready : t.world.broker.ready Q_RETRY = s.world.broker.ready Q_RETRY)
    (hqueues : ∀ d ∈ t.world.broker.unacked, d.queue = Q_DELIVER) : InLine j t where
  waiting := by
    rw [hready, hnow]
    exact h.waiting
  queues := hqueues

/-- A handler puts its message in the queue with the backoff of its attempt. -/
theorem Worker.retried_eq (hmay : may n.job n.log st) (hnext : n.next = some st) (now : ℕ) :
    st.retried now = n.retrying.toList.map
      (fun x => waitingAt (x.1, now + milliseconds (backoffMs x.2))) := by
  unfold Worker.retrying
  rw [hnext]
  cases hjob : n.job with
  | relayTick =>
    rw [hjob] at hmay
    cases st with
    | publish x key m expiration => exact absurd hmay id
    | _ => rfl
  | handle consumer msg =>
    rw [hjob] at hmay
    cases st with
    | publish x key m expiration =>
      obtain ⟨-, -, -, -, hpublish⟩ := hmay
      rcases hpublish with ⟨rfl, -⟩ | ⟨rfl, -, -, rfl⟩ <;> rfl
    | _ => rfl

theorem InLine.run (h : InLine j s) (hn : s.nodes[i]? = some n)
    (hscript : n.script = some (.query st k)) (hmay : may n.job n.log st)
    (hact : World.act i st o s.world = some (r, w)) {t : Workers} (ht : t.world = w) :
    InLine (retryNote s (.run i o) t j) t := by
  subst ht
  obtain ⟨hnow, hready⟩ := World.act_retry hmay hact
  have hqueues : ∀ d ∈ t.world.broker.unacked, d.queue = Q_DELIVER :=
    fun d hd => h.queues d ((World.act_frame hact h.queues).unacked_only d hd)
  have hnext : n.next = some st := by rw [Member.next, hscript]
  have hretried := Worker.retried_eq hmay hnext s.world.now
  simp only [retryNote, hn, Option.bind_some]
  cases hretrying : n.retrying with
  | none =>
    rw [hretried, hretrying] at hready
    exact h.keep hnow (hready.trans (List.append_nil _)) hqueues
  | some x =>
    obtain ⟨m, attempt⟩ := x
    rw [hretried, hretrying] at hready
    obtain ⟨waiting, hwaiting, hprompt⟩ := h.waiting
    refine ⟨⟨waiting ++ [(m, s.world.now + milliseconds (backoffMs attempt))], ?_, ?_⟩, hqueues⟩
    · rw [hready, hwaiting, List.map_append]
      rfl
    · rw [hnow]
      exact hprompt.enter (e := ⟨m, _, s.world.retryDues⟩) (Nat.le_add_right _ _)
        (retryDues_eq hwaiting)

theorem InLine.start (h : InLine j s) {job : WorkerJob}
    (hborn : World.birth s.nodes.length job s.world = some w) {t : Workers} (ht : t.world = w) :
    InLine j t := by
  subst ht
  cases job with
  | relayTick =>
    have hw : s.world = t.world := Option.some.inj hborn
    exact h.keep (by rw [hw]) (by rw [hw]) (by rw [← hw]; exact h.queues)
  | handle consumer msg =>
    simp only [World.birth] at hborn
    split at hborn
    · rename_i m b hdeliver
      split at hborn
      · obtain ⟨x, rest, -, -, rfl⟩ := Broker.State.deliver_eq_some hdeliver
        have hw := (Option.some.inj hborn).symm
        refine h.keep (by rw [hw]) (by rw [hw]; rfl) ?_
        intro d hd
        rw [hw] at hd
        rcases List.mem_append.mp hd with hd | hd
        · exact h.queues d hd
        · rw [List.mem_singleton.mp hd]
      · cases hborn
    · cases hborn

theorem InLine.crash (h : InLine j s) {job : WorkerJob} {t : Workers}
    (ht : t.world = World.crash i job s.world) : InLine j t := by
  cases job with
  | relayTick => exact h.keep (by rw [ht]; rfl) (by rw [ht]; rfl) (by rw [ht]; exact h.queues)
  | handle consumer msg =>
    have hready : (s.world.broker.requeue i).ready Q_RETRY = s.world.broker.ready Q_RETRY := by
      unfold Broker.State.requeue
      split
      · rfl
      · rename_i d hd
        rw [h.queues d (List.mem_of_find?_eq_some hd)]
        rfl
    refine h.keep (by rw [ht]; rfl) (by rw [ht]; exact hready) ?_
    intro d hd
    rw [ht] at hd
    exact h.queues d ((World.requeue_frame i h.queues).1.unacked_only d hd)

theorem InLine.event (h : InLine j s) {e : Event} (hw : World.event e s.world = some w)
    (hprompt : PromptBroker s (.event e) = true) {t : Workers} (ht : t.world = w) :
    InLine (retryNote s (.event e) t j) t := by
  subst ht
  cases e with
  | tick d =>
    have hworld := (Option.some.inj hw).symm
    obtain ⟨waiting, hwaiting, hline⟩ := h.waiting
    refine ⟨⟨waiting, by rw [hworld]; exact hwaiting, ?_⟩, by rw [hworld]; exact h.queues⟩
    rw [hworld]
    rcases of_decide_eq_true hprompt with rfl | hhead
    · exact hline
    · refine hline.tick ?_
      intro x hx
      refine hhead (waitingAt x) ?_ x.2 rfl
      rw [hwaiting, List.head?_map, hx]
      rfl
  | enqueue id m e type payload since =>
    obtain ⟨-, -, hworld⟩ := World.enqueue_eq_some hw
    exact h.keep (by rw [hworld]) (by rw [hworld]) (by rw [hworld]; exact h.queues)
  | register row =>
    have hworld := (Option.some.inj hw).symm
    exact h.keep (by rw [hworld]) (by rw [hworld]) (by rw [hworld]; exact h.queues)
  | expire =>
    obtain ⟨b, hb, hworld⟩ := Option.map_eq_some_iff.mp hw
    obtain ⟨waiting, hwaiting, hline⟩ := h.waiting
    obtain ⟨x, rest, hready, rfl⟩ := Broker.State.expire_eq_some hb
    have hdue := Broker.State.expire_due hb hready
    have hcons := hwaiting
    rw [hready] at hcons
    obtain ⟨y, ys, rfl, rfl, rfl⟩ := List.map_eq_cons_iff.mp hcons.symm
    simp only [retryNote, hready]
    refine ⟨⟨ys, ?_, ?_⟩, ?_⟩
    · rw [← hworld]
      show (Broker.State.bury topology Q_RETRY _
        (s.world.broker.setReady Q_RETRY (ys.map waitingAt))).ready Q_RETRY = _
      rw [ready_bury_retry]
      simp [Broker.State.setReady]
    · rw [← hworld]
      exact hline.leave rfl (by simpa [waitingAt] using hdue)
    · rw [← hworld]
      exact h.queues

end Step

/-! ## Every run -/

/-- A message re-enters `webhook.deliver` when its own backoff has passed, after
every retry that was due before it, exactly when no message that is due later was
in `webhook.retry` as it entered. -/
theorem retry_on_time_iff {ls : List Turn} {t : Workers}
    (h : Pool.runWhile device workerProgram PromptBroker (Pool.begin .empty) ls = some t) {k : ℕ}
    {e : Fifo.Entry Message} (he : (retryJournal (Pool.begin .empty) ls).entered[k]? = some e)
    (hdue : e.due < t.world.now) :
    ((retryJournal (Pool.begin .empty) ls).left[k]? = some (e.message, e.due) ∧
      ∀ i < k, ∀ e' ∈ (retryJournal (Pool.begin .empty) ls).entered[i]?, e'.due ≤ e.due) ↔
    ∀ due ∈ e.ahead, due ≤ e.due := by
  have hline : InLine (retryJournal (Pool.begin .empty) ls) t := by
    refine Pool.run_traced (K := discipline) ?_ (discipline.follows_begin _) h InLine.begin
    intro j s t l hj hmove hprompt
    cases hmove with
    | start hborn => exact hj.start hborn rfl
    | run hn hscript _ hmay hact => exact hj.run hn hscript hmay hact rfl
    | crash hn hlive => exact hj.crash rfl
    | event hhappens => exact hj.event hhappens hprompt rfl
  obtain ⟨waiting, -, hprompt⟩ := hline.waiting
  exact hprompt.on_time_iff he hdue

/-! ### Two events -/

def messageTwo : Message := ⟨⟨2, 7, .payoutPaid, payloadPaid⟩, some 1⟩

def publishTwo : List Turn :=
  [.event (.register endpointSeven), .event (.enqueue 1 1 7 .payoutPaid payloadPaid 0),
    .event (.enqueue 2 1 7 .payoutPaid payloadPaid 0), .start .relayTick] ++
  List.replicate 6 (.run 0 .done)

/-- Handler `i` is answered 503, and retries its message. -/
def failOne (i : ℕ) : List Turn := [.run i .done, .run i (.status 503), .run i .done, .run i .done]

/-- Both events fail, the second a second after the first, and each is back 5 s
later. -/
def returnBoth : List Turn :=
  publishTwo ++ [.start (.handle 0 messageOne)] ++ failOne 1 ++
  [.event (.tick (seconds 1)), .start (.handle 0 messageTwo)] ++ failOne 2 ++
  [.event (.tick (seconds 4)), .event .expire, .event (.tick (seconds 1)), .event .expire]

theorem retry_on_time_iff_first : ∃ e : Fifo.Entry Message,
    (e.message = ⟨messageTwo.content, some 2⟩ ∧ e.due = seconds 6 ∧ e.ahead = [seconds 5]) ∧
    (retryJournal (Pool.begin .empty) (returnBoth ++ [.event (.tick 1)])).left[1]? =
      some (e.message, e.due) ∧
    ∀ i < 1, ∀ e' ∈ (retryJournal (Pool.begin .empty)
      (returnBoth ++ [.event (.tick 1)])).entered[i]?, e'.due ≤ e.due := by
  have hrun : (Pool.runWhile device workerProgram PromptBroker (Pool.begin .empty)
      (returnBoth ++ [.event (.tick 1)])).any (fun t =>
        (retryJournal (Pool.begin .empty) (returnBoth ++ [.event (.tick 1)])).entered[1]?.any
          (fun e => decide (e.due < t.world.now ∧ e.message = ⟨messageTwo.content, some 2⟩ ∧
            e.due = seconds 6 ∧ e.ahead = [seconds 5]))) = true := by decide +kernel
  obtain ⟨t, ht, hthen⟩ := Option.any_eq_true _ _ |>.mp hrun
  obtain ⟨e, he, hentry⟩ := Option.any_eq_true _ _ |>.mp hthen
  obtain ⟨hdue, hmessage, htime, hahead⟩ := of_decide_eq_true hentry
  refine ⟨e, ⟨hmessage, htime, hahead⟩, (retry_on_time_iff ht he hdue).mpr ?_⟩
  rw [hahead, htime]
  decide

/-- The first event fails and is back after 5 s. -/
def returnOne : List Turn :=
  publishTwo ++ [.start (.handle 0 messageOne)] ++ failOne 1 ++
  [.event (.tick (seconds 5)), .event .expire]

/-- It fails again, and then the second event fails for the first time: that one
is due 5 s later, and waits 10 s behind the first. -/
def blockTwo : List Turn :=
  returnOne ++ [.start (.handle 0 messageTwo),
    .start (.handle 0 ⟨messageOne.content, some 2⟩)] ++ failOne 3 ++ failOne 2 ++
  [.event (.tick (seconds 10)), .event .expire, .event .expire]

theorem retry_blocked :
    (Pool.runWhile device workerProgram PromptBroker (Pool.begin .empty) blockTwo).isSome = true ∧
    ∃ e ∈ (retryJournal (Pool.begin .empty) blockTwo).entered[2]?,
      e.message = ⟨messageTwo.content, some 2⟩ ∧
      (retryJournal (Pool.begin .empty) blockTwo).left[2]? =
        some (e.message, e.due + seconds 5) := by
  refine ⟨by decide +kernel, ?_⟩
  have hlate : (retryJournal (Pool.begin .empty) blockTwo).entered[2]?.any (fun e =>
      decide (e.message = ⟨messageTwo.content, some 2⟩ ∧
        (retryJournal (Pool.begin .empty) blockTwo).left[2]? =
          some (e.message, e.due + seconds 5))) = true := by decide +kernel
  obtain ⟨e, he, hentry⟩ := Option.any_eq_true _ _ |>.mp hlate
  exact ⟨e, he, of_decide_eq_true hentry⟩

end PaymentApis
