import PaymentApis.Custody

/-!
# Republication

A row is claimed only while it is pending, and a claim takes it out of that
status. A tick publishes each row of its batch at most once, so an event is
published at most once for each time its row came to be pending.
-/

namespace PaymentApis

open TxStore Processes

/-! ## Lost connections -/

def Op.isStatement : Op → Bool
  | .eventReapStalePublishing _ => true
  | .eventClaimForPublishing _ => true
  | .eventMarkPublished _ => true
  | .eventResetToPending _ => true
  | .eventMarkDelivered _ => true
  | .eventMarkFailed _ _ _ => true
  | .endpointFindById _ => true
  | _ => false

/-- The process does this with its channel. -/
def Op.onChannel : Op → Bool
  | .confirmPublish _ _ _ => true
  | .waitForConfirms => true
  | .publish _ _ _ _ => true
  | .ack => true
  | .nack => true
  | _ => false

theorem Op.onChannel_eq_false {st : Op} (h : st.isStatement = true) : st.onChannel = false := by
  cases st <;> first | rfl | cases h

/-- A statement may also take effect and its answer be lost. -/
inductive LossyOutcome
  | plain (o : Outcome)
  | answerLost (message : String)
deriving DecidableEq

/-- The channel of a process may also be closed while the process goes on, and
the broker takes back the message it was handed. -/
inductive LossyEvent
  | plain (e : Event)
  | channelLost (i : ℕ)
deriving DecidableEq

namespace World

/-- On a closed channel every operation throws, and does nothing. -/
def lossyAct (i : ℕ) (st : Op) (o : LossyOutcome) (w : World) :
    Option (Except String (Answer st) × World) :=
  match o with
  | .plain o =>
    if st.onChannel ∧ i ∈ w.closed then
      match o with
      | .failed message => some (.error message, w)
      | _ => none
    else World.act i st o w
  | .answerLost message =>
    if st.isStatement then (World.act i st .done w).map (fun x => (.error message, x.2)) else none

/-- The channel of process `i` is open. -/
def opening (i : ℕ) (w : World) : World :=
  { w with closed := w.closed.filter (fun k => decide (k ≠ i)) }

/-- A process begins with its channel open. -/
def lossyBirth (i : ℕ) (j : WorkerJob) (w : World) : Option World :=
  (World.birth i j w).map (opening i)

def lossyEvent (e : LossyEvent) (w : World) : Option World :=
  match e with
  | .plain e => World.event e w
  | .channelLost i => some { w with broker := w.broker.requeue i, closed := i :: w.closed }

end World

def lossyDevice :
    Processes.Device World Op Answer String LossyOutcome WorkerJob LossyEvent where
  act := fun i _ => World.lossyAct i
  birth := World.lossyBirth
  crash := World.crash
  event := World.lossyEvent

abbrev LossyTurn := Processes.Label LossyOutcome WorkerJob LossyEvent

/-! ## What is stated -/

/-- The workers, with relay ticks that take up to `batch` rows. -/
def workerProgramOf (batch : ℕ) : WorkerJob → Script Unit
  | .relayTick => relayTickOf batch
  | .handle _ msg => handle msg

theorem workerProgram_eq : workerProgram = workerProgramOf RELAY_BATCH := by
  funext j
  cases j <;> rfl

/-- How often the relays have published the event, confirmed or not. -/
def Workers.publications (s : Workers) (id : Uuid) : ℕ :=
  s.total (fun n => (published n.log).count id)

def Op.putsBack : Op → Bool
  | .eventResetToPending _ => true
  | .eventReapStalePublishing _ => true
  | _ => false

/-- The row of the event was not pending, and is pending now. -/
def World.returns (id : Uuid) (w w' : World) : Bool :=
  (w.status id).any (fun st => decide (st ≠ .pending)) && decide (w'.status id = some .pending)

/-- The action a step takes. -/
def Workers.turn (s : Workers) : LossyTurn → Option Op
  | .run i _ => s.nodes[i]?.bind Member.next
  | _ => none

/-- A reset or the reaper puts the row of the event back to pending. -/
def putBack (id : Uuid) (s : Workers) (l : LossyTurn) (t : Workers) : Bool :=
  (s.turn l).any Op.putsBack && s.world.returns id t.world

/-- How often that happens along a schedule. -/
def putsBack (batch : ℕ) (id : Uuid) (s : Workers) (ls : List LossyTurn) : ℕ :=
  s.occurrences lossyDevice (workerProgramOf batch) (putBack id) ls

/-- An action on an open channel, an operation on a closed one, or a statement
whose answer is lost. -/
theorem World.lossyAct_cases {i : ℕ} {st : Op} {o : LossyOutcome} {w w' : World}
    {r : Except String (Answer st)} (h : World.lossyAct i st o w = some (r, w')) :
    (∃ o', o = .plain o' ∧ (st.onChannel = true → i ∉ w.closed) ∧
      World.act i st o' w = some (r, w')) ∨
    (∃ e, o = .plain (.failed e) ∧ st.onChannel = true ∧ i ∈ w.closed ∧ r = .error e ∧ w' = w) ∨
    ∃ e r', o = .answerLost e ∧ st.isStatement = true ∧ World.act i st .done w = some (r', w') ∧
      r = .error e := by
  cases o with
  | plain o =>
    simp only [World.lossyAct] at h
    split at h
    · rename_i hclosed
      cases o with
      | failed e =>
        obtain ⟨hr, hw⟩ := Prod.mk.inj (Option.some.inj h)
        exact .inr (.inl ⟨e, rfl, hclosed.1, hclosed.2, hr.symm, hw.symm⟩)
      | done => cases h
      | status n => cases h
    · rename_i hopen
      exact .inl ⟨o, rfl, fun hchannel hclosed => hopen ⟨hchannel, hclosed⟩, h⟩
  | answerLost e =>
    simp only [World.lossyAct] at h
    split at h
    · rename_i hst
      obtain ⟨⟨r', v⟩, hact, hx⟩ := Option.map_eq_some_iff.mp h
      obtain ⟨hr, rfl⟩ := Prod.mk.inj hx
      exact .inr (.inr ⟨e, r', rfl, hst, hact, hr.symm⟩)
    · cases h

theorem World.lossyBirth_eq_some {i : ℕ} {j : WorkerJob} {w w' : World}
    (h : World.lossyBirth i j w = some w') :
    ∃ v, World.birth i j w = some v ∧ w' = v.opening i := by
  obtain ⟨v, hv, rfl⟩ := Option.map_eq_some_iff.mp h
  exact ⟨v, hv, rfl⟩

theorem World.lossyBirth_events {i : ℕ} {j : WorkerJob} {w w' : World}
    (h : World.lossyBirth i j w = some w') : w'.events = w.events := by
  obtain ⟨v, hv, rfl⟩ := World.lossyBirth_eq_some h
  cases j with
  | relayTick =>
    obtain rfl := Option.some.inj hv
    rfl
  | handle consumer msg =>
    simp only [World.birth] at hv
    split at hv
    · split at hv <;> cases hv
      rfl
    · cases hv

/-- What is left to the relay. -/
def Op.isRelays : Op → Bool
  | .eventClaimForPublishing _ => true
  | .confirmPublish _ _ _ => true
  | _ => false

section Leaves

variable {V : List Done → (s : Op) → Except String (Answer s) → Prop}

/-- Whatever the answers, the script takes no action of a relay. -/
abbrev Leaves (V : List Done → (s : Op) → Except String (Answer s) → Prop) {α : Type}
    (log : List Done) (c : Script α) : Prop :=
  Issues V (fun _ st => st.isRelays = false) (fun _ _ => True) (fun _ _ => True) log c

theorem Leaves.act {st : Op} {log : List Done} (h : st.isRelays = false) :
    Leaves V log (PaymentApis.act st) :=
  Issues.exec h (fun _ _ => trivial) (fun _ _ => trivial)

theorem Leaves.bind {α : Type} {st : Op} {log : List Done} {f : Answer st → Script α}
    (h : st.isRelays = false) (hf : ∀ log a, Leaves V log (f a)) :
    Leaves V log (PaymentApis.act st >>= f) :=
  Issues.bind (fun log a _ => hf log a) (Leaves.act h)

theorem retryOrDeadLetter_leaves (msg : Message) (e : String) (log : List Done) :
    Leaves V log (retryOrDeadLetter msg e) := by
  unfold retryOrDeadLetter
  split
  · refine Leaves.bind rfl ?_
    intro log _
    exact Leaves.bind rfl (fun _ _ => Leaves.act rfl)
  · exact Leaves.bind rfl (fun _ _ => Leaves.act rfl)

theorem deliverTo_leaves (msg : Message) (endpoint : WebhookEndpointRow) (log : List Done) :
    Leaves V log (deliverTo msg endpoint) := by
  refine Leaves.bind rfl ?_
  intro log status
  split
  · exact Leaves.bind rfl (fun _ _ => Leaves.act rfl)
  · trivial

theorem handle_leaves (msg : Message) : Leaves V [] (handle msg) := by
  refine Issues.tryCatch (X := fun _ _ => True) ?_ (Leaves.bind rfl ?_)
  · intro log e _
    exact Leaves.act rfl
  · intro log endpoint
    cases endpoint with
    | none =>
      refine Leaves.bind rfl ?_
      intro log _
      exact Leaves.bind rfl (fun _ _ => Leaves.act rfl)
    | some endpoint =>
      refine Issues.tryCatch ?_ (deliverTo_leaves msg endpoint log)
      intro log e _
      exact retryOrDeadLetter_leaves msg e log

end Leaves

def relaysMay : WorkerJob → List Done → Op → Prop
  | .relayTick => relayMay
  | .handle _ _ => fun _ st => st.isRelays = false

def lossyDiscipline (batch : ℕ) : Discipline lossyDevice (workerProgramOf batch) where
  Gives := fun _ _ _ => True
  May := relaysMay
  gives := fun _ _ => trivial
  issues := by
    intro j
    cases j with
    | relayTick => exact relayTickOf_issues batch
    | handle c msg => exact handle_leaves msg

/-! ## The status of a row -/

namespace World

def row? (w : World) (id : Uuid) : Option WebhookEventRow :=
  w.events.find? (fun r => decide (r.id = id))

theorem status_eq (w : World) (id : Uuid) : w.status id = (w.row? id).map (·.status) := rfl

theorem row?_eq_some {w : World} (h : (w.events.map (·.id)).Nodup) {r : WebhookEventRow}
    {id : Uuid} : w.row? id = some r ↔ r ∈ w.events ∧ r.id = id := by
  constructor
  · intro hr
    exact ⟨List.mem_of_find?_eq_some hr, by simpa using List.find?_some hr⟩
  · rintro ⟨hr, rfl⟩
    cases hfind : w.row? r.id with
    | none =>
      have hnone := List.find?_eq_none.mp hfind r hr
      simp at hnone
    | some r' =>
      have hid : r'.id = r.id := by simpa using List.find?_some hfind
      rw [row_unique h (List.mem_of_find?_eq_some hfind) hr hid]

theorem row?_eq_none {w : World} {id : Uuid} : w.row? id = none ↔ id ∉ w.events.map (·.id) := by
  simp [row?]

theorem row?_updateWhere {p : WebhookEventRow → Bool} {g : WebhookEventRow → WebhookEventRow}
    (hg : ∀ r, (g r).id = r.id) (w : World) (id : Uuid) :
    (webhookEventRepository.updateWhere p g w).row? id =
      (w.row? id).map (fun r => if p r then g r else r) := by
  simp only [row?, webhookEventRepository.updateWhere, List.find?_map]
  congr 1
  apply List.find?_congr
  intro r _
  by_cases hp : p r = true <;> simp [hp, hg]

end World

theorem webhookEventRepository.updateWhere_ids {p : WebhookEventRow → Bool}
    {g : WebhookEventRow → WebhookEventRow} (hg : ∀ r, (g r).id = r.id) (w : World) :
    (updateWhere p g w).events.map (·.id) = w.events.map (·.id) := by
  simp only [updateWhere, List.map_map]
  apply List.map_congr_left
  intro r _
  by_cases hp : p r = true <;> simp [hp, hg]

/-! ## The invariant -/

def World.pendings (w : World) (id : Uuid) : ℕ := if w.status id = some .pending then 1 else 0

theorem World.pendings_congr {w w' : World} (h : w'.events = w.events) {id : Uuid} :
    w'.pendings id = w.pendings id := by
  have hstatus : w'.status id = w.status id := by rw [World.status, h, World.status]
  unfold World.pendings
  rw [hstatus]

/-- How often the relays have claimed the event. -/
def Workers.claimCount (s : Workers) (id : Uuid) : ℕ :=
  s.total (fun n => (claimed n.log).count id)

/-- The event has been claimed at most once for each time it was pending: once
from the start, and once for each of the `c` times it was put back. -/
structure ClaimsBounded (id : Uuid) (c : ℕ) (s : Workers) : Prop where
  nodup : (s.world.events.map (·.id)).Nodup
  sent : ∀ n ∈ s.nodes, published n.log <+: claimed n.log
  bounded : s.claimCount id + s.world.pendings id ≤ 1 + c
  unknown : s.world.row? id = none → s.claimCount id = 0

theorem ClaimsBounded.publications {id : Uuid} {c : ℕ} {s : Workers} (h : ClaimsBounded id c s) :
    s.publications id ≤ 1 + c := by
  have hle : s.publications id ≤ s.claimCount id := by
    unfold Workers.publications Workers.claimCount Pool.total
    apply List.sum_le_sum
    intro n hn
    exact (h.sent n hn).sublist.count_le id
  have hbounded := h.bounded
  omega

section Step

variable {id : Uuid} {c k i : ℕ} {s : Workers} {n : Worker} {d : Done} {w : World}
  {p : WebhookEventRow → Bool} {g : WebhookEventRow → WebhookEventRow}
  {sc : Option (Script Unit)}

theorem Workers.claimCount_set (hn : s.nodes[i]? = some n) :
    Workers.claimCount ⟨w, s.nodes.set i ⟨n.job, n.log ++ [d], sc⟩⟩ id =
      s.claimCount id + (claims d).count id := by
  have htotal : Workers.claimCount ⟨w, s.nodes.set i ⟨n.job, n.log ++ [d], sc⟩⟩ id +
      (claimed n.log).count id = s.claimCount id + (claimed (n.log ++ [d])).count id :=
    Pool.total_set (f := fun n : Worker => (claimed n.log).count id) hn w ⟨n.job, n.log ++ [d], sc⟩
  rw [claimed_append, List.count_append] at htotal
  omega

theorem ClaimsBounded.sent_set (h : ClaimsBounded id c s)
    (hd : published (n.log ++ [d]) <+: claimed (n.log ++ [d])) :
    ∀ m ∈ s.nodes.set i ⟨n.job, n.log ++ [d], sc⟩, published m.log <+: claimed m.log := by
  intro m hm
  rcases List.mem_or_eq_of_mem_set hm with hm | rfl
  · exact h.sent m hm
  · exact hd

/-- An action that claims and publishes nothing. -/
theorem ClaimsBounded.keep (h : ClaimsBounded id c s) (hn : s.nodes[i]? = some n)
    (hclaims : claims d = []) (hpublishes : publishes d = [])
    (hids : w.events.map (·.id) = s.world.events.map (·.id))
    (hpendings : w.pendings id ≤ s.world.pendings id + k) :
    ClaimsBounded id (c + k) ⟨w, s.nodes.set i ⟨n.job, n.log ++ [d], sc⟩⟩ where
  nodup := by
    simp only [hids]
    exact h.nodup
  sent := by
    refine h.sent_set ?_
    rw [claimed_append, published_append, hclaims, hpublishes, List.append_nil, List.append_nil]
    exact h.sent n (List.mem_of_getElem? hn)
  bounded := by
    rw [Workers.claimCount_set hn, hclaims, List.count_nil]
    have hle := h.bounded
    simp only
    omega
  unknown := by
    intro hnone
    rw [World.row?_eq_none, hids, ← World.row?_eq_none] at hnone
    rw [Workers.claimCount_set hn, hclaims, List.count_nil, h.unknown hnone]

/-- An update that makes no row pending. -/
theorem World.pendings_updateWhere (hg : ∀ r, (g r).id = r.id)
    (hstatus : ∀ r, p r = true → (g r).status ≠ .pending) :
    World.pendings (webhookEventRepository.updateWhere p g w) id ≤ w.pendings id := by
  unfold World.pendings
  rw [World.status_eq, World.status_eq, World.row?_updateWhere hg]
  cases w.row? id with
  | none => simp
  | some r =>
    by_cases hp : p r = true
    · simp [hp, hstatus r hp]
    · simp [hp]

/-- An update that puts rows back to pending. -/
theorem World.pendings_returns (hg : ∀ r, (g r).id = r.id)
    (hstatus : ∀ r, (g r).status = .pending) :
    World.pendings (webhookEventRepository.updateWhere p g w) id ≤
      w.pendings id + (w.returns id (webhookEventRepository.updateWhere p g w)).toNat := by
  unfold World.pendings World.returns
  rw [World.status_eq, World.status_eq, World.row?_updateWhere hg]
  cases w.row? id with
  | none => simp
  | some r => by_cases hp : p r = true <;> by_cases hr : r.status = .pending <;>
      simp [hp, hr, hstatus r]

/-- A claim takes the rows it returns out of the pending ones. -/
theorem ClaimsBounded.claim (h : ClaimsBounded id c s) (hn : s.nodes[i]? = some n) {limit : ℕ}
    (hmay : relayMay n.log (.eventClaimForPublishing limit)) :
    ClaimsBounded id c ⟨(webhookEventRepository.claimForPublishing limit s.world).2,
      s.nodes.set i ⟨n.job, n.log ++ [⟨.eventClaimForPublishing limit,
        .ok (webhookEventRepository.claimForPublishing limit s.world).1⟩], sc⟩⟩ := by
  obtain ⟨hclaimed, hpublished, -⟩ := hmay
  have hids : (webhookEventRepository.claimForPublishing limit s.world).2.events.map (·.id) =
      s.world.events.map (·.id) :=
    webhookEventRepository.updateWhere_ids (g := webhookEventRepository.publishingFrom s.world.now)
      (fun _ => rfl) s.world
  have hbatch : claims ⟨.eventClaimForPublishing limit,
        .ok (webhookEventRepository.claimForPublishing limit s.world).1⟩ =
      (s.world.events.filter (fun r => decide (r.id ∈
        webhookEventRepository.pendingIds s.world limit))).map (·.id) := by
    simp [claims, webhookEventRepository.claimForPublishing, webhookEventRepository.publishingFrom,
      Function.comp_def]
  have hsub := (List.filter_sublist (p := fun r : WebhookEventRow => decide (r.id ∈
    webhookEventRepository.pendingIds s.world limit)) (l := s.world.events)).map (·.id)
  refine ⟨by simpa only [hids] using h.nodup, ?_, ?_, ?_⟩
  · refine h.sent_set ?_
    rw [published_append, hpublished]
    exact List.nil_prefix
  · rw [Workers.claimCount_set hn, hbatch]
    have hbounded := h.bounded
    have hafter : World.pendings (webhookEventRepository.claimForPublishing limit s.world).2 id ≤
        s.world.pendings id :=
      World.pendings_updateWhere (g := webhookEventRepository.publishingFrom s.world.now)
        (fun _ => rfl) (fun _ _ => WebhookEventStatus.noConfusion)
    by_cases hmem : id ∈ (s.world.events.filter (fun r => decide (r.id ∈
        webhookEventRepository.pendingIds s.world limit))).map (·.id)
    · -- the row was pending, and is publishing now
      rw [List.count_eq_one_of_mem (h.nodup.sublist hsub) hmem]
      obtain ⟨r, hr, rfl⟩ := List.mem_map.mp hmem
      obtain ⟨hr, hin⟩ := List.mem_filter.mp hr
      obtain ⟨r', hr', hid, hpending⟩ :=
        webhookEventRepository.mem_pendingIds (of_decide_eq_true hin)
      obtain rfl := row_unique h.nodup hr' hr hid
      have hrow : s.world.row? r'.id = some r' := (World.row?_eq_some h.nodup).mpr ⟨hr, rfl⟩
      have hone : s.world.pendings r'.id = 1 := by
        rw [World.pendings, World.status_eq, hrow, Option.map_some, hpending, if_pos rfl]
      have hzero : World.pendings (webhookEventRepository.claimForPublishing limit s.world).2
          r'.id = 0 := by
        rw [World.pendings, World.status_eq, webhookEventRepository.claimForPublishing,
          World.row?_updateWhere (by simp [webhookEventRepository.publishingFrom]), hrow]
        simp [of_decide_eq_true hin, webhookEventRepository.publishingFrom]
      simp only [hzero]
      omega
    · rw [List.count_eq_zero.mpr hmem]
      exact le_trans (Nat.add_le_add_left hafter _) hbounded
  · intro hnone
    rw [World.row?_eq_none, hids] at hnone
    rw [Workers.claimCount_set hn, hbatch,
      List.count_eq_zero.mpr (fun hmem => hnone (hsub.subset hmem)),
      h.unknown (World.row?_eq_none.mpr hnone)]

/-- A publish follows the claim of the event. -/
theorem ClaimsBounded.publish (h : ClaimsBounded id c s) (hn : s.nodes[i]? = some n)
    {x : Exchange} {key : String} {m : Message} (hmay : relayMay n.log (.confirmPublish x key m))
    (hevents : w.events = s.world.events) : ClaimsBounded id c
      ⟨w, s.nodes.set i ⟨n.job, n.log ++ [⟨.confirmPublish x key m, .ok ()⟩], sc⟩⟩ := by
  obtain ⟨-, -, ⟨rest, hrest⟩, -⟩ := hmay
  refine ⟨by simpa only [hevents] using h.nodup, ?_, ?_, ?_⟩
  · refine h.sent_set ?_
    rw [claimed_append, published_append, hrest]
    exact ⟨rest, by simp [publishes, claims]⟩
  · rw [Workers.claimCount_set hn]
    simpa [claims, World.pendings, World.status, hevents] using h.bounded
  · intro hnone
    rw [Workers.claimCount_set hn]
    simpa [claims] using h.unknown (by simpa [World.row?, hevents] using hnone)

/-- What an action does to the rows: none is added or removed, and none becomes
pending but by a reset or the reaper. -/
theorem World.act_pendings {i : ℕ} {st : Op} {o : Outcome} {w w' : World}
    {r : Except String (Answer st)} (hact : World.act i st o w = some (r, w')) (id : Uuid) :
    w'.events.map (·.id) = w.events.map (·.id) ∧
      w'.pendings id ≤ w.pendings id + (st.putsBack && w.returns id w').toNat := by
  rcases World.act_edits hact with hevents | ⟨p, g, hedits, hevents⟩
  · rw [World.pendings_congr hevents, hevents]
    exact ⟨rfl, Nat.le_add_right _ _⟩
  · have hpendings : w'.pendings id = (webhookEventRepository.updateWhere p g w).pendings id :=
      World.pendings_congr hevents
    have hreturns : w.returns id w' =
        w.returns id (webhookEventRepository.updateWhere p g w) := by
      rw [World.returns, World.returns, World.status, World.status, World.status, hevents]
    rw [hevents, webhookEventRepository.updateWhere_ids hedits.id_eq, hpendings, hreturns]
    refine ⟨rfl, ?_⟩
    have hback : (∀ r, (g r).status = .pending) → st.putsBack = true →
        World.pendings (webhookEventRepository.updateWhere p g w) id ≤ w.pendings id +
          (st.putsBack && w.returns id (webhookEventRepository.updateWhere p g w)).toNat := by
      intro hg hputs
      rw [hputs, Bool.true_and]
      exact World.pendings_returns hedits.id_eq hg
    have hleaves : (∀ r, (g r).status ≠ .pending) →
        World.pendings (webhookEventRepository.updateWhere p g w) id ≤ w.pendings id +
          (st.putsBack && w.returns id (webhookEventRepository.updateWhere p g w)).toNat := by
      intro hg
      refine (World.pendings_updateWhere hedits.id_eq ?_).trans (Nat.le_add_right _ _)
      intro r _
      exact hg r
    cases hedits with
    | reaped => exact hback (fun _ => rfl) rfl
    | reset => exact hback (fun _ => rfl) rfl
    | claimed => exact hleaves (fun _ => WebhookEventStatus.noConfusion)
    | published => exact hleaves (fun _ => WebhookEventStatus.noConfusion)
    | delivered => exact hleaves (fun _ => WebhookEventStatus.noConfusion)
    | failed => exact hleaves (fun _ => WebhookEventStatus.noConfusion)

theorem ClaimsBounded.act (h : ClaimsBounded id c s) {st : Op} {o : Outcome}
    {r : Except String (Answer st)} (hn : s.nodes[i]? = some n) (hmay : relaysMay n.job n.log st)
    (hact : World.act i st o s.world = some (r, w)) :
    ClaimsBounded id (c + (st.putsBack && s.world.returns id w).toNat)
      ⟨w, s.nodes.set i ⟨n.job, n.log ++ [⟨st, r⟩], sc⟩⟩ := by
  obtain ⟨hids, hpendings⟩ := World.act_pendings hact id
  cases st with
  | eventClaimForPublishing limit =>
    cases hjob : n.job with
    | relayTick =>
      rw [hjob] at hmay
      rcases statement_eq_some hact with ⟨rfl, rfl⟩ | ⟨e, rfl, rfl⟩
      · exact hjob ▸ h.claim hn hmay
      · exact hjob ▸ h.keep hn rfl rfl hids hpendings
    | handle consumer msg =>
      rw [hjob] at hmay
      cases hmay
  | confirmPublish x key m =>
    cases hjob : n.job with
    | relayTick =>
      rw [hjob] at hmay
      cases o <;> cases hact
      · exact hjob ▸ h.publish hn hmay rfl
      · exact hjob ▸ h.publish hn hmay rfl
    | handle consumer msg =>
      rw [hjob] at hmay
      cases hmay
  | _ => exact h.keep hn rfl rfl hids hpendings

theorem ClaimsBounded.run (h : ClaimsBounded id c s) {st : Op} {o : LossyOutcome}
    {r : Except String (Answer st)} (hn : s.nodes[i]? = some n) (hmay : relaysMay n.job n.log st)
    (hact : World.lossyAct i st o s.world = some (r, w)) :
    ClaimsBounded id (c + (st.putsBack && s.world.returns id w).toNat)
      ⟨w, s.nodes.set i ⟨n.job, n.log ++ [⟨st, r⟩], sc⟩⟩ := by
  rcases World.lossyAct_cases hact with
    ⟨o, rfl, -, hopen⟩ | ⟨e, rfl, hchannel, -, rfl, rfl⟩ | ⟨e, r', rfl, -, hdone, rfl⟩
  · exact h.act hn hmay hopen
  · have hkeeps : st.putsBack = false ∧ claims ⟨st, .error e⟩ = [] ∧
        publishes ⟨st, .error e⟩ = [] := by
      cases st <;> first | exact ⟨rfl, rfl, rfl⟩ | cases hchannel
    rw [hkeeps.1]
    exact h.keep hn hkeeps.2.1 hkeeps.2.2 rfl (Nat.le_add_right _ _)
  · obtain ⟨hids, hpendings⟩ := World.act_pendings hdone id
    cases st <;> exact h.keep hn rfl rfl hids hpendings

end Step

/-! ## The other steps -/

section Others

variable {id : Uuid} {c : ℕ} {s : Workers} {w : World}

/-- What changes no row changes nothing that counts. -/
theorem ClaimsBounded.of_events (h : ClaimsBounded id c s) {t : Workers}
    (hevents : t.world.events = s.world.events)
    (hsent : ∀ n ∈ t.nodes, published n.log <+: claimed n.log)
    (hcount : t.claimCount id = s.claimCount id) : ClaimsBounded id c t where
  nodup := hevents ▸ h.nodup
  sent := hsent
  bounded := by
    rw [hcount, World.pendings_congr hevents]
    exact h.bounded
  unknown := by
    simpa only [hcount, World.row?, hevents] using h.unknown

theorem ClaimsBounded.start (h : ClaimsBounded id c s) {j : WorkerJob} {sc : Option (Script Unit)}
    (hw : World.lossyBirth s.nodes.length j s.world = some w) :
    ClaimsBounded id c ⟨w, s.nodes ++ [⟨j, [], sc⟩]⟩ := by
  refine h.of_events (World.lossyBirth_events hw) ?_ ?_
  · intro n hn
    rcases List.mem_append.mp hn with hn | hn
    · exact h.sent n hn
    · obtain rfl := List.mem_singleton.mp hn
      exact List.nil_prefix
  · rw [Workers.claimCount, Pool.total_append]
    rfl

theorem ClaimsBounded.crash (h : ClaimsBounded id c s) {i : ℕ} {n : Worker}
    (hn : s.nodes[i]? = some n) :
    ClaimsBounded id c ⟨World.crash i n.job s.world, s.nodes.set i { n with script := none }⟩ := by
  refine h.of_events ?_ ?_ ?_
  · cases n.job <;> rfl
  · intro m hm
    rcases List.mem_or_eq_of_mem_set hm with hm | rfl
    · exact h.sent m hm
    · exact h.sent n (List.mem_of_getElem? hn)
  · have htotal := Pool.total_set (f := fun n : Worker => (claimed n.log).count id) hn
      (World.crash i n.job s.world) { n with script := none }
    exact Nat.add_right_cancel htotal

/-- No one has claimed a new event. -/
theorem ClaimsBounded.enqueue (h : ClaimsBounded id c s) {r : WebhookEventRow}
    (hnew : r.id ∉ s.world.events.map (·.id)) :
    ClaimsBounded id c ⟨{ s.world with events := s.world.events ++ [r] }, s.nodes⟩ := by
  have hrow : World.row? { s.world with events := s.world.events ++ [r] } id =
      (s.world.row? id).or (if r.id = id then some r else none) := by
    simp only [World.row?, List.find?_append, List.find?_singleton, decide_eq_true_eq]
  refine ⟨?_, h.sent, ?_, ?_⟩
  · simpa [List.nodup_append] using ⟨h.nodup, by simpa using hnew⟩
  · have hbounded := h.bounded
    by_cases hid : r.id = id
    · have hnone : s.world.row? id = none := World.row?_eq_none.mpr (hid ▸ hnew)
      have hzero : Workers.claimCount
          ⟨{ s.world with events := s.world.events ++ [r] }, s.nodes⟩ id = 0 := h.unknown hnone
      have hone : World.pendings { s.world with events := s.world.events ++ [r] } id ≤ 1 := by
        unfold World.pendings
        split <;> omega
      rw [hzero, Nat.zero_add]
      exact hone.trans (Nat.le_add_right 1 c)
    · have hsame : World.pendings { s.world with events := s.world.events ++ [r] } id =
          s.world.pendings id := by
        rw [World.pendings, World.status_eq, hrow, if_neg hid, Option.or_none, World.pendings,
          World.status_eq]
      rw [hsame]
      exact hbounded
  · intro hnone
    refine h.unknown ?_
    rw [hrow, Option.or_eq_none_iff] at hnone
    exact hnone.1

theorem ClaimsBounded.event (h : ClaimsBounded id c s) {e : LossyEvent}
    (hw : World.lossyEvent e s.world = some w) : ClaimsBounded id c ⟨w, s.nodes⟩ := by
  have hkeep : w.events = s.world.events → ClaimsBounded id c ⟨w, s.nodes⟩ := by
    intro hevents
    exact h.of_events hevents h.sent rfl
  cases e with
  | channelLost i =>
    obtain rfl := Option.some.inj hw
    exact hkeep rfl
  | plain e =>
    cases e with
    | tick k =>
      obtain rfl := Option.some.inj hw
      exact hkeep rfl
    | enqueue id' m e type payload since =>
      obtain ⟨-, hnew, rfl⟩ := World.enqueue_eq_some hw
      exact h.enqueue hnew
    | register row =>
      obtain rfl := Option.some.inj hw
      exact hkeep rfl
    | expire =>
      obtain ⟨b, -, rfl⟩ := Option.map_eq_some_iff.mp hw
      exact hkeep rfl

theorem ClaimsBounded.begin (id : Uuid) : ClaimsBounded id 0 (Pool.begin .empty) where
  nodup := by simp [Pool.begin, World.empty]
  sent := by simp [Pool.begin]
  bounded := by
    simp [Workers.claimCount, Pool.total, Pool.begin, World.pendings, World.status, World.empty]
  unknown := by simp [Workers.claimCount, Pool.total, Pool.begin]

end Others

/-! ## Every run -/

theorem ClaimsBounded.move {batch : ℕ} {id : Uuid} {c : ℕ} {s t : Workers} {l : LossyTurn}
    (h : ClaimsBounded id c s) (hmove : Move (lossyDiscipline batch) s l t) :
    ClaimsBounded id (c + (putBack id s l t).toNat) t := by
  cases hmove with
  | start hborn => exact h.start hborn
  | @run i o n st k r w hn hscript _ hmay hact =>
    have hturn : s.turn (.run i o) = some st := by
      simp [Workers.turn, hn, Member.next, hscript]
    rw [putBack, hturn, Option.any_some]
    exact h.run hn hmay hact
  | crash hn hlive => exact h.crash hn
  | event hhappens => exact h.event hhappens

/-- A relay publishes an event once for each time its row was pending. -/
theorem publications_le {batch : ℕ} {ls : List LossyTurn} {t : Workers}
    (h : (Pool.begin .empty).run lossyDevice (workerProgramOf batch) ls = some t) (id : Uuid) :
    t.publications id ≤ 1 + putsBack batch id (Pool.begin .empty) ls := by
  have hrun : ClaimsBounded id (putsBack batch id (Pool.begin .empty) ls) t := by
    refine Pool.run_counted (K := lossyDiscipline batch) (I := ClaimsBounded id) ?_
      ((lossyDiscipline batch).follows_begin _) h (ClaimsBounded.begin id)
    intro c s t l h hmove
    exact h.move hmove
  exact hrun.publications

/-- An event is published at most once more than its row was put back to
pending, whatever the relays and the consumers do and wherever they stop. -/
theorem republication_bounded {batch : ℕ} {ls : List LossyTurn} {t : Workers}
    (h : (Pool.begin .empty).run lossyDevice (workerProgramOf batch) ls = some t) (id : Uuid) :
    t.publications id ≤ 1 + putsBack batch id (Pool.begin .empty) ls ∧
      (putsBack batch id (Pool.begin .empty) ls = 0 → t.publications id ≤ 1) := by
  have hbounded := publications_le h id
  omega

def lossless : Turn → LossyTurn
  | .start j => .start j
  | .run i o => .run i (.plain o)
  | .crash i => .crash i
  | .event e => .event (.plain e)

/-- The broker keeps the message of an event but confirms nothing, so the tick
puts the row back; a second relay crashes after it has published the event
again. -/
def republishOne : List LossyTurn :=
  List.map lossless (publishOne ++ [.run 0 (.failed "nacked"), .run 0 .done, .start .relayTick,
    .run 1 .done, .run 1 .done, .run 1 .done, .crash 1])

theorem republication_bounded_twice : ∃ t : Workers, t.publications 1 = 2 ∧
    putsBack RELAY_BATCH 1 (Pool.begin .empty) republishOne = 1 ∧
    t.publications 1 ≤ 1 + putsBack RELAY_BATCH 1 (Pool.begin .empty) republishOne := by
  have hrun : ((Pool.begin .empty).run lossyDevice (workerProgramOf RELAY_BATCH)
      republishOne).any (fun t => decide (Workers.publications t 1 = 2)) = true := by decide +kernel
  cases ht : (Pool.begin .empty).run lossyDevice (workerProgramOf RELAY_BATCH) republishOne with
  | none => simp [ht] at hrun
  | some t =>
    rw [ht, Option.any_some] at hrun
    refine ⟨t, of_decide_eq_true hrun, by decide +kernel, ?_⟩
    exact (republication_bounded ht 1).1

end PaymentApis
