import PaymentApis.Bank
import PaymentApis.PayoutRows

/-!
# Events tell the truth

An event is committed with the change it announces, so whatever the outbox
holds has happened: the payment was captured, the payout was accepted by the
bank, or its debit was reversed. The rows keep it: a settled payout stays settled,
and a reversal stays in the ledger. And an event is addressed to an endpoint of the
merchant it concerns.
-/

namespace PaymentApis

open TxStore

/-! ## What is stated -/

/-- What an event says, of whom, has happened. -/
inductive Happened (d : Db) (history : List (ℕ × Item)) (merchantId : Uuid) :
    EventType → EventData → Prop
  | captured {c i} (charge : c ∈ d.charges) (owner : c.merchantId = merchantId)
      (intent : i ∈ d.intents) (id : i.id = c.paymentIntentId) (status : i.status = .succeeded)
      (same : i.merchantId = merchantId ∧ i.amount = c.amount ∧ i.currency = c.currency) :
      Happened d history merchantId .paymentSucceeded
        (.payment c.paymentIntentId c.id c.amount c.currency)
  | paid {p} (row : p ∈ d.payouts) (owner : p.merchantId = merchantId)
      (accepted : 0 < acceptances history p.id) (recorded : 0 < payments history p.id)
      (settled : p.status ≠ .pending) :
      Happened d history merchantId .payoutPaid (.payout p.id p.amount p.currency none)
  | returned {p reason} (row : p ∈ d.payouts) (owner : p.merchantId = merchantId)
      (reversed : 0 < reversals history p.id) (settled : p.status ≠ .pending)
      (credited : d.Reversed p) :
      Happened d history merchantId .payoutFailed (.payout p.id p.amount p.currency (some reason))

/-- An event that tells its merchant what has happened. -/
structure Truthful (d : Db) (history : List (ℕ × Item)) (e : WebhookEventRow) : Prop where
  endpoint : ∃ p ∈ d.endpoints, p.id = e.endpointId ∧ p.merchantId = e.merchantId
  type : e.payload.type = e.eventType
  happened : Happened d history e.merchantId e.eventType e.payload.data

/-! ## One commit -/

section Commit

variable {min : ℤ} {log : List Ev} {now : ℕ} {d : Db} {it : Item} {ws : List Row}

/-- A settled payout stays settled, and its reversal posted. -/
theorem Commit.mem_payouts (h : Commit min log now d it ws) (hd : d.WellPosted) {p : PayoutRow}
    (hp : p ∈ d.payouts) :
    ∃ p' ∈ Db.payouts (d.install ws), (p'.id = p.id ∧ p'.merchantId = p.merchantId ∧
      p'.amount = p.amount ∧ p'.currency = p.currency) ∧
      (p.status ≠ .pending → p'.status ≠ .pending) ∧
      (d.Reversed p → Db.Reversed (d.install ws) p') := by
  have hold : d.payout p.id = some p := Db.payout_eq_some.mpr (Db.mem_payouts.mp hp)
  obtain ⟨p', hget, hfixed⟩ := (Db.HasPayout.of_get hold).later h.later
  simp only [Row.fixed, Row.payout.injEq, PayoutRow.mk.injEq] at hfixed
  have hid := Db.id_of_payout hget
  refine ⟨p', ?_, ?_, ?_, fun hc => hc.commit h hd hold hget⟩
  · rw [Db.mem_payouts, hid]
    exact Db.payout_eq_some.mp hget
  · tauto
  · intro hsettled
    rcases h.payout_next hold hget with ⟨-, hstatus | hpaid⟩ | ⟨q, c, -, rfl⟩
    · rwa [hstatus]
    · simp [hpaid]
    · simp [ReversalCommit.newRow]

theorem acceptances_le (history : List (ℕ × Item)) (x : ℕ × Item) (id : Uuid) :
    acceptances history id ≤ acceptances (history ++ [x]) id := by
  rw [acceptances_append]
  exact Nat.le_add_right _ _

/-- What has happened stays so. -/
theorem Happened.commit (h : Commit min log now d it ws) (hposted : d.WellPosted)
    {history : List (ℕ × Item)} {m : Uuid} {type : EventType} {data : EventData}
    (hd : Happened d history m type data) (x : ℕ × Item) :
    Happened (d.install ws) (history ++ [x]) m type data := by
  have hpos : ∀ {a b : ℕ}, 0 < a → 0 < a + b := fun h => Nat.add_pos_left h _
  cases hd with
  | captured charge owner intent id status same =>
    exact .captured (h.mem_charges.mpr (.inr charge)) owner
      (h.keeps_intent intent (by simp [status])) id status same
  | paid row owner accepted recorded settled =>
    obtain ⟨p', hp', ⟨hid, hm, hamount, hcurrency⟩, hsettled, -⟩ := h.mem_payouts hposted row
    rw [← hid] at accepted recorded
    rw [← hid, ← hamount, ← hcurrency]
    refine .paid hp' (hm.trans owner) ?_ ?_ (hsettled settled)
    · rw [acceptances_append]
      exact hpos accepted
    · rw [payments_append]
      exact hpos recorded
  | returned row owner reversed settled credited =>
    obtain ⟨p', hp', ⟨hid, hm, hamount, hcurrency⟩, hsettled, hkept⟩ := h.mem_payouts hposted row
    rw [← hid] at reversed
    rw [← hid, ← hamount, ← hcurrency]
    refine .returned hp' (hm.trans owner) ?_ (hsettled settled) (hkept credited)
    rw [reversals_append]
    exact hpos reversed

theorem Truthful.commit (h : Commit min log now d it ws) (hposted : d.WellPosted)
    {history : List (ℕ × Item)} {e : WebhookEventRow} (he : Truthful d history e) (x : ℕ × Item) :
    Truthful (d.install ws) (history ++ [x]) e where
  endpoint := by
    obtain ⟨p, hp, hrest⟩ := he.endpoint
    exact ⟨p, h.mem_endpoints.mpr (.inr hp), hrest⟩
  type := he.type
  happened := he.happened.commit h hposted x

/-- The row of an `emit`, with the endpoint it is for. -/
theorem Outbox.addressed {m : Uuid} {type : EventType} {data : EventData}
    (o : Outbox d m type data) (h : Commit min log now d it ws) {e : WebhookEventRow}
    (he : e ∈ o.rows) : e.merchantId = m ∧ e.eventType = type ∧ e.payload = ⟨type, data⟩ ∧
      ∃ p ∈ Db.endpoints (d.install ws), p.id = e.endpointId ∧ p.merchantId = e.merchantId := by
  obtain ⟨hm, htype, hpayload, -⟩ := o.shape e he
  refine ⟨hm, htype, hpayload, ?_⟩
  have htarget : e.endpointId ∈ o.endpoints.map (·.id) := by
    rw [← o.targets]
    exact List.mem_map_of_mem he
  obtain ⟨p, hp, hid⟩ := List.mem_map.mp htarget
  obtain ⟨hget, howner, -⟩ := o.active p hp
  exact ⟨p, h.mem_endpoints.mpr (.inr (Db.mem_endpoints.mpr hget)), hid, by rw [howner, hm]⟩

/-- The events a commit writes are true. -/
theorem Commit.truthful (h : Commit min log now d it ws) (hposted : d.WellPosted)
    {history : List (ℕ × Item)} {i : ℕ}
    (haccepted : ∀ p rest, phase log = .accepted p rest → 0 < acceptances history p.id)
    {e : WebhookEventRow} (he : Row.event e ∈ ws) :
    Truthful (d.install ws) (history ++ [(i, it)]) e := by
  have hcommit := h
  have hnd := h.nodup
  have hwritten : ∀ r ∈ ws, r ∈ (Table.install d ws).rows := by
    intro r hr
    exact Table.mem_of_get (Table.get_install_of_mem hnd hr)
  cases h with
  | confirm x =>
    have hrow : e ∈ x.outbox.rows := x.outbox.mem_writes (by simpa [ConfirmCommit.writes] using he)
    obtain ⟨hm, htype, hpayload, hendpoint⟩ := x.outbox.addressed hcommit hrow
    refine ⟨hendpoint, by rw [hpayload, htype], ?_⟩
    rw [hpayload, htype, hm]
    have hcharge : x.charge ∈ Db.charges (d.install x.writes) :=
      hcommit.mem_charges.mpr (.inl (by simp [ConfirmCommit.writes]))
    have hintent : x.newIntent ∈ Db.intents (d.install x.writes) := by
      simpa [Db.intents] using hwritten (.intent x.newIntent) (by simp [ConfirmCommit.writes])
    exact .captured hcharge rfl hintent rfl rfl ⟨x.owner, rfl, rfl⟩
  | @paid p rest place x =>
    have hrow : e ∈ x.outbox.rows := x.outbox.mem_writes (by simpa [PaidCommit.writes] using he)
    obtain ⟨hm, htype, hpayload, hendpoint⟩ := x.outbox.addressed hcommit hrow
    refine ⟨hendpoint, by rw [hpayload, htype], ?_⟩
    rw [hpayload, htype, hm]
    have hnew : x.newRow ∈ Db.payouts (d.install x.writes) := by
      simpa [Db.payouts] using hwritten (.payout x.newRow) (by simp [PaidCommit.writes])
    have hsame := x.same
    simp only [Row.fixed, Row.payout.injEq, PayoutRow.mk.injEq] at hsame
    obtain ⟨hid, howner, hamount, hcurrency⟩ : x.newRow.id = p.id ∧
        x.newRow.merchantId = p.merchantId ∧ x.newRow.amount = p.amount ∧
        x.newRow.currency = p.currency := by
      simp only [PaidCommit.newRow]
      tauto
    rw [← hid, ← hamount, ← hcurrency]
    refine .paid hnew howner ?_ ?_ (by simp [PaidCommit.newRow])
    · rw [hid]
      exact (haccepted p rest place).trans_le (acceptances_le _ _ _)
    · rw [payments_append, if_pos (by simp [Item.pays, hid])]
      exact Nat.succ_pos _
  | @reversal p rest place x =>
    have hrow : e ∈ x.outbox.rows :=
      x.outbox.mem_writes (by simpa [ReversalCommit.writes] using he)
    obtain ⟨hm, htype, hpayload, hendpoint⟩ := x.outbox.addressed hcommit hrow
    refine ⟨hendpoint, by rw [hpayload, htype], ?_⟩
    rw [hpayload, htype, hm]
    have hnew : x.newRow ∈ Db.payouts (d.install x.writes) := by
      simpa [Db.payouts] using hwritten (.payout x.newRow) (by simp [ReversalCommit.writes])
    have hsame := x.same
    simp only [Row.fixed, Row.payout.injEq, PayoutRow.mk.injEq] at hsame
    obtain ⟨hid, howner, hamount, hcurrency⟩ : x.newRow.id = p.id ∧
        x.newRow.merchantId = p.merchantId ∧ x.newRow.amount = p.amount ∧
        x.newRow.currency = p.currency := by
      simp only [ReversalCommit.newRow]
      tauto
    rw [← hid, ← hamount, ← hcurrency]
    refine .returned hnew howner ?_ (by simp [ReversalCommit.newRow])
      (x.reversed hcommit hposted)
    rw [reversals_append, if_pos (by simp [Item.reverses, hid])]
    exact Nat.succ_pos _
  | claimDue limit m rows idle nodup claimed =>
    obtain ⟨p, -, hp⟩ := List.mem_map.mp he
    cases hp
  | keyed s r ws hkey => obtain rfl | ⟨slot, rfl⟩ := hkey.writes <;> simp at he
  | _ => simp [TransferCommit.writes, CancelCommit.writes, SweepCommit.writes] at he

end Commit

/-! ## Every run -/

/-- The events are true, and what a worker takes for accepted is. -/
structure Truths (a : Abs) : Prop where
  events : ∀ e ∈ Db.events a.db, Truthful a.db a.history e
  accepted : ∀ x ∈ a.procs, ∀ p rest, phase x.2 = .accepted p rest →
    0 < acceptances a.history p.id

theorem Truths.commit {min : ℤ} {a : Abs} (h : Truths a) {i : ℕ} {log : List Ev} {it : Item}
    {ws : List Row} {live : Bool} (hproc : a.procs[i]? = some (true, log))
    (hposted : Db.WellPosted a.db) (hc : Commit min log a.now a.db it ws) :
    Truths ⟨Table.install a.db ws, a.now, a.procs.set i (live, log ++ it.events),
      a.history ++ [(i, it)]⟩ where
  events := by
    intro e he
    rcases hc.mem_events.mp he with hnew | hold
    · exact hc.truthful hposted
        (fun p rest hph => h.accepted _ (List.mem_of_getElem? hproc) p rest hph) hnew
    · exact (h.events e hold).commit hc hposted _
  accepted := by
    intro x hx p rest hph
    rw [acceptances_append]
    rcases List.mem_or_eq_of_mem_set hx with hx | rfl
    · exact Nat.add_pos_left (h.accepted x hx p rest hph) _
    · have hbetween := hc.accepts_between p.id
      have hafter : (phase (log ++ it.events)).between p.id = true :=
        Phase.between_eq_true.mpr ⟨p, rest, hph, rfl⟩
      rw [hafter] at hbetween
      cases hbefore : (phase log).between p.id with
      | false =>
        rw [hbefore] at hbetween
        simp only [Bool.toNat_false, Bool.toNat_true] at hbetween
        simp only
        omega
      | true =>
        obtain ⟨p', rest', hph', hid⟩ := Phase.between_eq_true.mp hbefore
        rw [← hid]
        exact Nat.add_pos_left (h.accepted _ (List.mem_of_getElem? hproc) p' rest' hph') _

theorem truths {min : ℤ} {P : Abs → Prop} {a : Abs} (h : AReach min P a) : Truths a := by
  refine AReach.invariant Truths ?_ ?_ h
  · refine ⟨?_, ?_⟩
    · intro e he
      simp [Abs.init, Table.empty, Db.events] at he
    · intro x hx
      simp [Abs.init] at hx
  intro a a' hr hinv hstep _
  cases hstep with
  | start live =>
    refine ⟨hinv.events, ?_⟩
    intro x hx p rest hph
    rcases List.mem_append.mp hx with hx | hx
    · exact hinv.accepted x hx p rest hph
    · obtain rfl := List.mem_singleton.mp hx
      cases hph
  | tick n => exact ⟨hinv.events, hinv.accepted⟩
  | commit i log it p live hproc _ hg => exact hinv.commit hproc (wellPosted hr) hg
  | fault i log f live hproc =>
    refine ⟨hinv.events, ?_⟩
    intro x hx p rest hph
    rcases List.mem_or_eq_of_mem_set hx with hx | rfl
    · exact hinv.accepted x hx p rest hph
    · rw [phase_append] at hph
      cases hbefore : phase log <;> rw [hbefore] at hph <;> cases hph
  | quiet i was log live hproc hwas =>
    refine ⟨hinv.events, ?_⟩
    intro x hx p rest hph
    rcases List.mem_or_eq_of_mem_set hx with hx | rfl
    · exact hinv.accepted x hx p rest hph
    · exact hinv.accepted _ (List.mem_of_getElem? hproc) p rest hph

/-- Whatever fails, crashes or outlives its lease, every event of the outbox
tells what has happened, to an endpoint of the merchant it happened to. -/
theorem events_truthful {min : ℤ} {s : Sys} (h : Reachable min s) {e : WebhookEventRow}
    (he : e ∈ Db.events s.db) : Truthful s.db s.history e := by
  have hreach : AReach min (fun _ => True) s.abs := reach_refines (fun _ _ _ _ => trivial) h
  exact (truths hreach).events e he

theorem events_truthful_confirmed : ∃ s : Sys, ∃ e ∈ Db.events s.db,
    Truthful s.db s.history e := by
  have hrun : (runFrom 10 confirmedIntent).any (fun s : Sys =>
      decide (0 < (Db.events s.db).length)) = true := by decide +kernel
  obtain ⟨s, hs, hevents⟩ := exists_of_run hrun
  obtain ⟨e, he⟩ := List.exists_mem_of_length_pos (of_decide_eq_true hevents)
  exact ⟨s, e, he, events_truthful hs he⟩

end PaymentApis
