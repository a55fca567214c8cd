import PaymentApis.Conducts
import PaymentApis.Totals
import PaymentApis.Lib.Window

/-!
# Intents, charges, ledger and outbox

A confirm leaves one charge, one ledger entry and one event for each endpoint
that was active when it read them. Nothing else in the tables refers to an
intent, so the four agree in every committed state.
-/

namespace PaymentApis

open TxStore

/-! ## What is stated -/

/-- The endpoints of a merchant that are active. -/
def Db.activeEndpoints (d : Db) (merchantId : Uuid) : List WebhookEndpointRow :=
  d.endpoints.filter (fun e => decide (e.merchantId = merchantId ∧ e.isActive = true))

/-- The transaction inserted the charge. -/
def InsertsCharge (c : ChargeRow) (evs : List Ev) : Prop :=
  .stmt (.chargeInsert c.paymentIntentId c.merchantId c.amount.text c.currency c.transactionId) c
    ∈ evs

/-- In the run, the confirm that makes the charge asks for the endpoints of its
merchant at the state `t`, and commits at the end of the same transaction. -/
def ReadsEndpoints (min : ℤ) (ls : List Step) (c : ChargeRow) (t : Sys) : Prop :=
  ∃ (before : List Step) (i u : ℕ) (during : List Step) (v : ℕ) (after : List Step) (n : Node)
    (p : Priv) (id : Text) (s₁ s₂ s₃ : Sys) (evs : List Ev),
    ls = before ++ .run i u :: (during ++ .run i v :: after) ∧
    RunBy min (fun _ _ _ => True) before t ∧ t.nodes[i]? = some n ∧
    n.next = some (p, .endpointListActiveByMerchant c.merchantId) ∧
    n.txn? = some (.confirm c.merchantId id, p) ∧ uuidOfText id = some c.paymentIntentId ∧
    t.next min (.run i u) = some s₁ ∧ Stays engine (program min) i s₁ during s₂ ∧
    s₂.next min (.run i v) = some s₃ ∧
    s₃.history = s₂.history ++ [(i, .txn (.confirm c.merchantId id) evs)] ∧ InsertsCharge c evs

/-- A `payment.succeeded` event of a charge. -/
def WebhookEventRow.Announces (c : ChargeRow) (e : WebhookEventRow) : Prop :=
  e.eventType = .paymentSucceeded ∧
    e.payload.data = .payment c.paymentIntentId c.id c.amount c.currency

/-- The one ledger entry of a charge: a credit on the merchant's wallet. -/
structure Db.Credited (d : Db) (c : ChargeRow) (e : LedgerEntryRow) : Prop where
  mem : e ∈ d.entries
  transaction : e.transactionId = c.transactionId
  credit : e.direction = .credit
  amount : e.amount = c.amount
  currency : e.currency = c.currency
  wallet : ∃ w ∈ d.wallets, w.id = e.walletId ∧ w.merchantId = c.merchantId ∧
    w.currency = c.currency
  only : ∀ e' ∈ d.entries, e'.transactionId = c.transactionId → e' = e

/-- What the tables hold for a charge whose confirm read the endpoints `eps`. -/
structure Db.Receipt (d : Db) (c : ChargeRow) (eps : List WebhookEndpointRow) : Prop where
  intent : ∃ i ∈ d.intents, i.id = c.paymentIntentId ∧ i.status = .succeeded ∧
    i.merchantId = c.merchantId ∧ i.amount = c.amount ∧ i.currency = c.currency
  transaction : ⟨c.transactionId, .charge⟩ ∈ d.transactions
  entry : ∃ e, d.Credited c e
  active : ∀ p ∈ eps, p ∈ d.endpoints ∧ p.merchantId = c.merchantId ∧ p.isActive = true
  announced : ∀ p ∈ eps, ∃! e, e ∈ d.events ∧ e.Announces c ∧ e.endpointId = p.id
  others : ∀ e ∈ d.events, e.Announces c → ∃ p ∈ eps, e.endpointId = p.id

/-- An event that names an intent. -/
def WebhookEventRow.Names (intentId : Uuid) (e : WebhookEventRow) : Prop :=
  ∃ c amount currency, e.payload.data = .payment intentId c amount currency

/-! ## What a commit writes -/

/-- The confirm that made the charge was answered these endpoints, and registered
none before. -/
def Item.charges (c : ChargeRow) (eps : List WebhookEndpointRow) : Item → Prop
  | .txn (.confirm m id) evs => m = c.merchantId ∧ uuidOfText id = some c.paymentIntentId ∧
      InsertsCharge c evs ∧ ∃ first rest,
        evs = first ++ .stmt (.endpointListActiveByMerchant m) eps :: rest ∧
        ∀ m' url secret r, .stmt (.endpointInsert m' url secret) r ∉ first
  | _ => False

theorem Outbox.mem_writes {d : Db} {m : Uuid} {type : EventType} {data : EventData}
    (o : Outbox d m type data) {e : WebhookEventRow} (he : Row.event e ∈ o.writes) :
    e ∈ o.rows := by
  obtain ⟨x, hx, hxe⟩ := List.mem_map.mp he
  obtain rfl : x = e := by simpa using hxe
  exact hx

/-- Charges are written by confirms. -/
theorem Commit.charge_write {min : ℤ} {log : List Ev} {now : ℕ} {d : Db} {it : Item}
    {ws : List Row} (h : Commit min log now d it ws) {c : ChargeRow} (hc : Row.charge c ∈ ws) :
    ∃ (m : Uuid) (id : Text) (x : ConfirmCommit d m id),
      it = .txn (.confirm m id) x.events ∧ ws = x.writes ∧ c = x.charge := by
  cases h with
  | confirm x =>
    obtain rfl : c = x.charge := by simpa [ConfirmCommit.writes, Outbox.writes] using hc
    exact ⟨_, _, x, rfl, rfl, rfl⟩
  | claimDue limit m rows idle nodup claimed =>
    obtain ⟨p, -, hp⟩ := List.mem_map.mp hc
    simp at hp
  | keyed s r ws hkey => obtain rfl | ⟨slot, rfl⟩ := hkey.writes <;> simp at hc
  | _ => simp [TransferCommit.writes, CancelCommit.writes, SweepCommit.writes, PaidCommit.writes,
      ReversalCommit.writes, Outbox.writes] at hc

/-- So are the ledger transactions of type `charge`. -/
theorem Commit.chargeTransaction_write {min : ℤ} {log : List Ev} {now : ℕ} {d : Db} {it : Item}
    {ws : List Row} (h : Commit min log now d it ws) {t : TransactionRow}
    (ht : Row.transaction t ∈ ws) (htype : t.type = .charge) :
    ∃ (m : Uuid) (id : Text) (x : ConfirmCommit d m id),
      ws = x.writes ∧ t.id = x.transactionId := by
  cases h with
  | confirm x =>
    obtain rfl := by simpa [ConfirmCommit.writes, Outbox.writes] using ht
    exact ⟨_, _, x, rfl, rfl⟩
  | claimDue limit m rows idle nodup claimed =>
    obtain ⟨p, -, hp⟩ := List.mem_map.mp ht
    simp at hp
  | keyed s r ws hkey => obtain rfl | ⟨slot, rfl⟩ := hkey.writes <;> simp at ht
  | transfer x =>
    obtain rfl := by simpa [TransferCommit.writes] using ht
    simp at htype
  | sweep x =>
    obtain rfl := by simpa [SweepCommit.writes] using ht
    simp at htype
  | reversal rest place x =>
    obtain rfl := by simpa [ReversalCommit.writes, Outbox.writes] using ht
    simp at htype
  | _ => simp [CancelCommit.writes, PaidCommit.writes, Outbox.writes] at ht

/-- Events about payments are written by confirms. -/
theorem Commit.payment_write {min : ℤ} {log : List Ev} {now : ℕ} {d : Db} {it : Item}
    {ws : List Row} (h : Commit min log now d it ws) {e : WebhookEventRow}
    (he : Row.event e ∈ ws) {id : Uuid} (hnames : e.Names id) :
    ∃ (m : Uuid) (text : Text) (x : ConfirmCommit d m text), ws = x.writes ∧ e ∈ x.outbox.rows := by
  obtain ⟨c, amount, currency, hdata⟩ := hnames
  cases h with
  | confirm x =>
    have hrow : e ∈ x.outbox.rows := by
      apply x.outbox.mem_writes
      simpa [ConfirmCommit.writes] using he
    exact ⟨_, _, x, rfl, hrow⟩
  | claimDue limit m rows idle nodup claimed =>
    obtain ⟨p, -, hp⟩ := List.mem_map.mp he
    simp at hp
  | keyed s r ws hkey => obtain rfl | ⟨slot, rfl⟩ := hkey.writes <;> simp at he
  | paid rest place x =>
    have hrow : e ∈ x.outbox.rows := by
      apply x.outbox.mem_writes
      simpa [PaidCommit.writes] using he
    rw [(x.outbox.shape e hrow).2.2.1] at hdata
    simp at hdata
  | reversal rest place x =>
    have hrow : e ∈ x.outbox.rows := by
      apply x.outbox.mem_writes
      simpa [ReversalCommit.writes] using he
    rw [(x.outbox.shape e hrow).2.2.1] at hdata
    simp at hdata
  | _ => simp [TransferCommit.writes, CancelCommit.writes, SweepCommit.writes] at he

/-- Ledger entries are written with their transaction. -/
theorem Commit.entry_write {min : ℤ} {log : List Ev} {now : ℕ} {d : Db} {it : Item}
    {ws : List Row} (h : Commit min log now d it ws) {e : LedgerEntryRow}
    (he : Row.entry e ∈ ws) : ∃ t, t.id = e.transactionId ∧ Row.transaction t ∈ ws := by
  cases h with
  | confirm x =>
    obtain rfl : e = x.entry := by simpa [ConfirmCommit.writes, Outbox.writes] using he
    exact ⟨⟨x.transactionId, .charge⟩, rfl, by simp [ConfirmCommit.writes]⟩
  | claimDue limit m rows idle nodup claimed =>
    obtain ⟨p, -, hp⟩ := List.mem_map.mp he
    simp at hp
  | keyed s r ws hkey => obtain rfl | ⟨slot, rfl⟩ := hkey.writes <;> simp at he
  | transfer x =>
    refine ⟨⟨x.transactionId, .transfer⟩, ?_, by simp [TransferCommit.writes]⟩
    simp only [TransferCommit.writes, List.mem_cons, reduceCtorEq, Row.entry.injEq, false_or,
      List.not_mem_nil, or_false] at he
    rcases he with rfl | rfl <;> rfl
  | sweep x =>
    obtain rfl : e = x.entry := by simpa [SweepCommit.writes] using he
    exact ⟨⟨x.transactionId, .payout⟩, rfl, by simp [SweepCommit.writes]⟩
  | reversal rest place x =>
    obtain rfl : e = x.entry := by simpa [ReversalCommit.writes, Outbox.writes] using he
    exact ⟨⟨x.transactionId, .payoutReversal⟩, rfl, by simp [ReversalCommit.writes]⟩
  | _ => simp [CancelCommit.writes, PaidCommit.writes, Outbox.writes] at he

/-- A new intent is open, and an intent is only rewritten while it is open. -/
theorem Commit.intent_write {min : ℤ} {log : List Ev} {now : ℕ} {d : Db} {it : Item}
    {ws : List Row} (h : Commit min log now d it ws) {i : PaymentIntentRow}
    (hi : Row.intent i ∈ ws) :
    (d.intent i.id = none ∧ i.status = .requiresConfirmation) ∨
      (∃ i₀, d.intent i.id = some i₀ ∧ i₀.status = .requiresConfirmation ∧
        (i.status = .succeeded → ∃ (m : Uuid) (id : Text) (x : ConfirmCommit d m id),
          ws = x.writes ∧ i = x.newIntent)) := by
  cases h with
  | confirm x =>
    obtain rfl : i = x.newIntent := by simpa [ConfirmCommit.writes, Outbox.writes] using hi
    exact Or.inr ⟨x.intent, x.intentGet, x.confirmable, fun _ => ⟨_, _, x, rfl, rfl⟩⟩
  | cancel x =>
    obtain rfl : i = x.newIntent := by simpa [CancelCommit.writes] using hi
    exact Or.inr ⟨x.intent, x.intentGet, x.confirmable, by simp [CancelCommit.newIntent]⟩
  | intentInsert row shape parsed fresh =>
    obtain rfl : i = row := by simpa using hi
    refine Or.inl ⟨?_, shape.2.2.2⟩
    rw [Db.intent, fresh]
    rfl
  | claimDue limit m rows idle nodup claimed =>
    obtain ⟨p, -, hp⟩ := List.mem_map.mp hi
    simp at hp
  | keyed s r ws hkey => obtain rfl | ⟨slot, rfl⟩ := hkey.writes <;> simp at hi
  | _ => simp [TransferCommit.writes, SweepCommit.writes, PaidCommit.writes,
      ReversalCommit.writes, Outbox.writes] at hi

/-! ## Rows after a commit -/

/-- The rows that are never updated: those a commit adds, and the old ones. -/
theorem Commit.mem_inserted {min : ℤ} {log : List Ev} {now : ℕ} {d : Db} {it : Item}
    {ws : List Row} (h : Commit min log now d it ws) {r : Row} (hv : r.isVersioned = false) :
    r ∈ (Table.install d ws).rows ↔ r ∈ ws ∨ r ∈ d.rows := by
  constructor
  · exact Table.mem_of_mem_install
  · rintro (hr | hr)
    · exact Table.mem_of_get (Table.get_install_of_mem h.nodup hr)
    · exact Table.mem_of_get (h.later.get (Table.get_of_mem hr) hv)

section After

variable {min : ℤ} {log : List Ev} {now : ℕ} {d : Db} {it : Item} {ws : List Row}

theorem Commit.mem_charges (h : Commit min log now d it ws) {c : ChargeRow} :
    c ∈ Db.charges (d.install ws) ↔ Row.charge c ∈ ws ∨ c ∈ d.charges := by
  simpa [Db.charges] using h.mem_inserted (r := .charge c) rfl

theorem Commit.mem_transactions (h : Commit min log now d it ws) {t : TransactionRow} :
    t ∈ Db.transactions (d.install ws) ↔ Row.transaction t ∈ ws ∨ t ∈ d.transactions := by
  simpa [Db.transactions] using h.mem_inserted (r := .transaction t) rfl

theorem Commit.mem_entries (h : Commit min log now d it ws) {e : LedgerEntryRow} :
    e ∈ Db.entries (d.install ws) ↔ Row.entry e ∈ ws ∨ e ∈ d.entries := by
  simpa [Db.entries] using h.mem_inserted (r := .entry e) rfl

theorem Commit.mem_endpoints (h : Commit min log now d it ws) {p : WebhookEndpointRow} :
    p ∈ Db.endpoints (d.install ws) ↔ Row.endpoint p ∈ ws ∨ p ∈ d.endpoints := by
  simpa [Db.endpoints] using h.mem_inserted (r := .endpoint p) rfl

theorem Commit.mem_events (h : Commit min log now d it ws) {e : WebhookEventRow} :
    e ∈ Db.events (d.install ws) ↔ Row.event e ∈ ws ∨ e ∈ d.events := by
  simpa [Db.events] using h.mem_inserted (r := .event e) rfl

/-- An intent that is not open stays as it is. -/
theorem Commit.keeps_intent (h : Commit min log now d it ws) {i : PaymentIntentRow}
    (hi : i ∈ d.intents) (hclosed : i.status ≠ .requiresConfirmation) :
    i ∈ Db.intents (d.install ws) := by
  rw [Db.mem_intents] at hi ⊢
  rw [Table.get_install_of_notMem, hi]
  intro hkey
  obtain ⟨r, hr, hrkey⟩ := List.mem_map.mp hkey
  cases r <;> simp only [Row.key, reduceCtorEq, Loc.intent.injEq] at hrkey
  rename_i x
  have hx : d.intent x.id = some i := by
    rw [hrkey]
    exact Db.intent_eq_some.mpr hi
  rcases h.intent_write hr with ⟨hnone, -⟩ | ⟨i₀, hi₀, hopen, -⟩
  · simp [hx] at hnone
  · rw [hx, Option.some.injEq] at hi₀
    exact hclosed (hi₀ ▸ hopen)

/-- A wallet keeps its owner and currency. -/
theorem Commit.keeps_wallet (h : Commit min log now d it ws) {w : WalletRow} (hw : w ∈ d.wallets) :
    ∃ w' ∈ Db.wallets (d.install ws), w'.id = w.id ∧ w'.merchantId = w.merchantId ∧
      w'.currency = w.currency := by
  have hold : d.HasWallet w := .of_get (Db.wallet_eq_some.mpr (Db.mem_wallets.mp hw))
  obtain ⟨w', hget, hm, hc, -⟩ := hold.later h.later
  have hid := Db.id_of_wallet hget
  refine ⟨w', ?_, hid, hm, hc⟩
  rw [Db.mem_wallets, hid]
  exact Db.wallet_eq_some.mp hget

end After

/-! ## The invariant -/

structure IntentBooks (a : Abs) : Prop where
  receipts : ∀ c ∈ Db.charges a.db, ∃ eps, (∃ x ∈ a.history, Item.charges c eps x.2) ∧
    Db.Receipt a.db c eps
  unique : ∀ c ∈ Db.charges a.db, ∀ c' ∈ Db.charges a.db,
    c.paymentIntentId = c'.paymentIntentId → c = c'
  succeeded : ∀ i ∈ Db.intents a.db, i.status = .succeeded →
    ∃ c ∈ Db.charges a.db, c.paymentIntentId = i.id
  transactions : ∀ t ∈ Db.transactions a.db, t.type = .charge →
    ∃ c ∈ Db.charges a.db, c.transactionId = t.id
  events : ∀ e ∈ Db.events a.db, ∀ id, e.Names id →
    ∃ c ∈ Db.charges a.db, e.Announces c ∧ c.paymentIntentId = id
  entries : ∀ e ∈ Db.entries a.db, ∃ t ∈ Db.transactions a.db, t.id = e.transactionId

theorem WebhookEventRow.Announces.names {c : ChargeRow} {e : WebhookEventRow} (h : e.Announces c) :
    e.Names c.paymentIntentId := ⟨c.id, c.amount, c.currency, h.2⟩

/-- A transaction that is new is not one of the old ones. -/
theorem Db.transaction_ne {d : Db} {t : TransactionRow} (ht : t ∈ d.transactions) {id : Uuid}
    (hfresh : d.get (.transaction id) = none) : t.id ≠ id := by
  rintro rfl
  rw [Db.mem_transactions.mp ht] at hfresh
  simp at hfresh

theorem Db.charge_ne {d : Db} {c : ChargeRow} (hc : c ∈ d.charges) {id : Uuid}
    (hfresh : d.get (.charge id) = none) : c.id ≠ id := by
  rintro rfl
  rw [Db.mem_charges.mp hc] at hfresh
  simp at hfresh

/-- The events of a confirm announce its charge. -/
theorem ConfirmCommit.announces {d : Db} {m : Uuid} {id : Text} (x : ConfirmCommit d m id)
    {e : WebhookEventRow} (he : e ∈ x.outbox.rows) : e.Announces x.charge := by
  obtain ⟨-, htype, hpayload, -⟩ := x.outbox.shape e he
  exact ⟨htype, by rw [hpayload]; rfl⟩

/-- Later commits leave the receipt of a charge alone. -/
theorem Db.Receipt.commit {min : ℤ} {log : List Ev} {now : ℕ} {d : Db} {it : Item} {ws : List Row}
    (h : Commit min log now d it ws) {c : ChargeRow} {eps : List WebhookEndpointRow}
    (hc : c ∈ d.charges) (hr : d.Receipt c eps) : Db.Receipt (d.install ws) c eps := by
  -- a new event announces a new charge
  have hold : ∀ e, Row.event e ∈ ws → ¬ e.Announces c := by
    intro e he hann
    obtain ⟨m, text, x, rfl, hrow⟩ := h.payment_write he hann.names
    have hdata : e.payload.data = .payment x.intent.id x.chargeId x.intent.amount
        x.intent.currency := by rw [(x.outbox.shape e hrow).2.2.1]
    rw [hann.2, EventData.payment.injEq] at hdata
    exact Db.charge_ne hc x.chargeFresh hdata.2.1
  refine ⟨?_, h.mem_transactions.mpr (Or.inr hr.transaction), ?_, ?_, ?_, ?_⟩
  · obtain ⟨i, hi, hid, hstatus, hrest⟩ := hr.intent
    exact ⟨i, h.keeps_intent hi (by simp [hstatus]), hid, hstatus, hrest⟩
  · obtain ⟨e, he⟩ := hr.entry
    obtain ⟨w, hw, hid, hm, hcur⟩ := he.wallet
    obtain ⟨w', hw', hid', hm', hcur'⟩ := h.keeps_wallet hw
    refine ⟨e, {
      mem := h.mem_entries.mpr (Or.inr he.mem)
      transaction := he.transaction
      credit := he.credit
      amount := he.amount
      currency := he.currency
      wallet := ⟨w', hw', hid'.trans hid, hm'.trans hm, hcur'.trans hcur⟩
      only := ?_ }⟩
    intro e' he' htx
    rcases h.mem_entries.mp he' with hnew | hold'
    · -- a new entry belongs to a new transaction
      obtain ⟨t, ht, htw⟩ := h.entry_write hnew
      have hfresh : d.get (.transaction t.id) = none := h.fresh _ htw rfl
      exact absurd (htx.symm.trans ht.symm) (Db.transaction_ne hr.transaction hfresh)
    · exact he.only e' hold' htx
  · intro p hp
    obtain ⟨hmem, hrest⟩ := hr.active p hp
    exact ⟨h.mem_endpoints.mpr (Or.inr hmem), hrest⟩
  · intro p hp
    obtain ⟨e, ⟨hmem, hann, hid⟩, honly⟩ := hr.announced p hp
    refine ⟨e, ⟨h.mem_events.mpr (Or.inr hmem), hann, hid⟩, ?_⟩
    rintro e' ⟨hmem', hann', hid'⟩
    rcases h.mem_events.mp hmem' with hnew | hmem'
    · exact absurd hann' (hold e' hnew)
    · exact honly e' ⟨hmem', hann', hid'⟩
  · intro e he hann
    rcases h.mem_events.mp he with hnew | he
    · exact absurd hann (hold e hnew)
    · exact hr.others e he hann

/-- The receipt a confirm leaves. -/
theorem ConfirmCommit.receipt {min : ℤ} {log : List Ev} {now : ℕ} {d : Db} {m : Uuid} {id : Text}
    (x : ConfirmCommit d m id)
    (h : Commit min log now d (.txn (.confirm m id) x.events) x.writes)
    (hentries : ∀ e ∈ d.entries, ∃ t ∈ d.transactions, t.id = e.transactionId)
    (hevents : ∀ e ∈ d.events, e.Announces x.charge → ∃ c ∈ d.charges, e.Announces c) :
    Db.Receipt (d.install x.writes) x.charge x.outbox.endpoints := by
  have hold : ∀ e ∈ d.events, ¬ e.Announces x.charge := by
    intro e he hann
    obtain ⟨c, hc, hann'⟩ := hevents e he hann
    have hdata := hann'.2.symm.trans hann.2
    rw [EventData.payment.injEq] at hdata
    exact Db.charge_ne hc x.chargeFresh hdata.2.1
  have hwritten : ∀ r ∈ x.writes, r ∈ (Table.install d x.writes).rows := by
    intro r hr
    exact Table.mem_of_get (Table.get_install_of_mem h.nodup hr)
  have hrow : ∀ e, e ∈ Db.events (d.install x.writes) → e.Announces x.charge →
      e ∈ x.outbox.rows := by
    intro e he hann
    rcases h.mem_events.mp he with hnew | he
    · apply x.outbox.mem_writes
      simpa [ConfirmCommit.writes] using hnew
    · exact absurd hann (hold e he)
  refine ⟨?_, ?_, ?_, ?_, ?_, ?_⟩
  · refine ⟨x.newIntent, ?_, rfl, rfl, x.owner, rfl, rfl⟩
    simpa [Db.intents] using hwritten (.intent x.newIntent) (by simp [ConfirmCommit.writes])
  · exact h.mem_transactions.mpr (Or.inl (by simp [ConfirmCommit.writes, ConfirmCommit.charge]))
  · refine ⟨x.entry, {
      mem := h.mem_entries.mpr (Or.inl (by simp [ConfirmCommit.writes]))
      transaction := rfl
      credit := rfl
      amount := rfl
      currency := rfl
      wallet := ⟨x.newWallet, ?_, rfl, x.walletOwner, x.walletCurrency⟩
      only := ?_ }⟩
    · simpa [Db.wallets] using hwritten (.wallet x.newWallet) (by simp [ConfirmCommit.writes])
    · intro e he htx
      rcases h.mem_entries.mp he with hnew | he
      · simpa [ConfirmCommit.writes, Outbox.writes] using hnew
      · obtain ⟨t, ht, hid⟩ := hentries e he
        exact absurd (hid.trans htx) (Db.transaction_ne ht x.transactionFresh)
  · intro p hp
    obtain ⟨hget, hm, hactive⟩ := x.outbox.active p hp
    exact ⟨h.mem_endpoints.mpr (Or.inr (Db.mem_endpoints.mpr hget)), hm, hactive⟩
  · intro p hp
    have htarget : p.id ∈ x.outbox.rows.map (·.endpointId) := by
      rw [x.outbox.targets]
      exact List.mem_map_of_mem hp
    obtain ⟨e, he, hid⟩ := List.mem_map.mp htarget
    have hmem : e ∈ Db.events (d.install x.writes) := by
      apply h.mem_events.mpr
      left
      simp [ConfirmCommit.writes, Outbox.writes, he]
    refine ⟨e, ⟨hmem, x.announces he, hid⟩, ?_⟩
    rintro e' ⟨hmem', hann', hid'⟩
    have hnd : (x.outbox.rows.map (·.endpointId)).Nodup := by
      rw [x.outbox.targets]
      exact x.outbox.distinct
    exact List.inj_on_of_nodup_map hnd (hrow e' hmem' hann') he (hid'.trans hid.symm)
  · intro e he hann
    have htarget : e.endpointId ∈ x.outbox.endpoints.map (·.id) := by
      rw [← x.outbox.targets]
      exact List.mem_map_of_mem (hrow e he hann)
    obtain ⟨p, hp, hid⟩ := List.mem_map.mp htarget
    exact ⟨p, hp, hid.symm⟩

theorem ConfirmCommit.charges {d : Db} {m : Uuid} {id : Text} (x : ConfirmCommit d m id) :
    Item.charges x.charge x.outbox.endpoints (.txn (.confirm m id) x.events) := by
  refine ⟨rfl, x.intentId, ?_, _, _, rfl, ?_⟩
  · simp [InsertsCharge, ConfirmCommit.events, ConfirmCommit.charge]
  · simp

theorem Db.intent_unique {d : Db} {i i' : PaymentIntentRow} (hi : i ∈ d.intents)
    (hi' : i' ∈ d.intents) (hid : i'.id = i.id) : i' = i := by
  rw [Db.mem_intents] at hi hi'
  rw [hid, hi] at hi'
  simpa using hi'.symm

/-- An intent that has not succeeded has no charge. -/
theorem IntentBooks.no_charge {a : Abs} (h : IntentBooks a) {i : PaymentIntentRow}
    (hi : i ∈ Db.intents a.db) (hopen : i.status ≠ .succeeded) :
    ∀ c ∈ Db.charges a.db, c.paymentIntentId ≠ i.id := by
  intro c hc hid
  obtain ⟨eps, -, hr⟩ := h.receipts c hc
  obtain ⟨i', hi', hid', hstatus, -⟩ := hr.intent
  exact hopen (Db.intent_unique hi hi' (hid'.trans hid) ▸ hstatus)

theorem IntentBooks.commit {min : ℤ} {a : Abs} (h : IntentBooks a) {log : List Ev} {it : Item}
    {ws : List Row} {procs : List (Bool × List Ev)} {i : ℕ}
    (hc : Commit min log a.now a.db it ws) :
    IntentBooks ⟨Table.install a.db ws, a.now, procs, a.history ++ [(i, it)]⟩ := by
  have hnew : ∀ {m : Uuid} {id : Text} (x : ConfirmCommit a.db m id), ws = x.writes →
      x.charge ∈ Db.charges (Table.install a.db ws) := by
    rintro m id x rfl
    exact hc.mem_charges.mpr (Or.inl (by simp [ConfirmCommit.writes]))
  have hopen : ∀ {m : Uuid} {id : Text} (x : ConfirmCommit a.db m id),
      ∀ c ∈ Db.charges a.db, c.paymentIntentId ≠ x.charge.paymentIntentId := by
    intro m id x
    have hmem : x.intent ∈ Db.intents a.db := Db.mem_intents.mpr (Db.intent_eq_some.mp x.intentGet)
    exact h.no_charge hmem (by simp [x.confirmable])
  refine ⟨?_, ?_, ?_, ?_, ?_, ?_⟩
  · intro c hmem
    rcases hc.mem_charges.mp hmem with hw | hold
    · obtain ⟨m, id, x, rfl, rfl, rfl⟩ := hc.charge_write hw
      refine ⟨x.outbox.endpoints, ⟨_, List.mem_append_right _ List.mem_cons_self, x.charges⟩, ?_⟩
      refine x.receipt hc h.entries ?_
      intro e he hann
      obtain ⟨c, hmem, hc', -⟩ := h.events e he _ hann.names
      exact ⟨c, hmem, hc'⟩
    · obtain ⟨eps, ⟨y, hy, hitem⟩, hr⟩ := h.receipts c hold
      exact ⟨eps, ⟨y, List.mem_append_left _ hy, hitem⟩, hr.commit hc hold⟩
  · intro c hmem c' hmem' hid
    rcases hc.mem_charges.mp hmem with hw | hold
    · obtain ⟨m, id, x, rfl, rfl, rfl⟩ := hc.charge_write hw
      rcases hc.mem_charges.mp hmem' with hw' | hold'
      · simpa [ConfirmCommit.writes, Outbox.writes, eq_comm] using hw'
      · exact absurd hid.symm (hopen x c' hold')
    · rcases hc.mem_charges.mp hmem' with hw' | hold'
      · obtain ⟨m, id, x, rfl, rfl, rfl⟩ := hc.charge_write hw'
        exact absurd hid (hopen x c hold)
      · exact h.unique c hold c' hold' hid
  · intro i hi hstatus
    have hi' : Row.intent i ∈ (Table.install a.db ws).rows := by simpa [Db.intents] using hi
    rcases (Table.mem_install hc.nodup).mp hi' with hw | ⟨hold, -⟩
    · rcases hc.intent_write hw with ⟨-, hst⟩ | ⟨-, -, -, hx⟩
      · simp [hst] at hstatus
      · obtain ⟨m, id, x, hws, rfl⟩ := hx hstatus
        exact ⟨x.charge, hnew x hws, rfl⟩
    · obtain ⟨c, hmem, hid⟩ := h.succeeded i (by simpa [Db.intents] using hold) hstatus
      exact ⟨c, hc.mem_charges.mpr (Or.inr hmem), hid⟩
  · intro t ht htype
    rcases hc.mem_transactions.mp ht with hw | hold
    · obtain ⟨m, id, x, hws, hid⟩ := hc.chargeTransaction_write hw htype
      exact ⟨x.charge, hnew x hws, hid.symm⟩
    · obtain ⟨c, hmem, hid⟩ := h.transactions t hold htype
      exact ⟨c, hc.mem_charges.mpr (Or.inr hmem), hid⟩
  · intro e he id hnames
    rcases hc.mem_events.mp he with hw | hold
    · obtain ⟨m, text, x, hws, hrow⟩ := hc.payment_write hw hnames
      refine ⟨x.charge, hnew x hws, x.announces hrow, ?_⟩
      obtain ⟨cid, amount, currency, hdata⟩ := hnames
      rw [(x.announces hrow).2, EventData.payment.injEq] at hdata
      exact hdata.1
    · obtain ⟨c, hmem, hann, hid⟩ := h.events e hold id hnames
      exact ⟨c, hc.mem_charges.mpr (Or.inr hmem), hann, hid⟩
  · intro e he
    rcases hc.mem_entries.mp he with hw | hold
    · obtain ⟨t, hid, ht⟩ := hc.entry_write hw
      exact ⟨t, hc.mem_transactions.mpr (Or.inl ht), hid⟩
    · obtain ⟨t, ht, hid⟩ := h.entries e hold
      exact ⟨t, hc.mem_transactions.mpr (Or.inr ht), hid⟩

/-! ## Every run -/

theorem intentBooks {min : ℤ} {P : Abs → Prop} {a : Abs} (h : AReach min P a) : IntentBooks a := by
  refine AReach.invariant IntentBooks ?_ ?_ h
  · refine ⟨?_, ?_, ?_, ?_, ?_, ?_⟩ <;>
      simp [Abs.init, Table.empty, Db.charges, Db.intents, Db.transactions, Db.events, Db.entries]
  intro a a' _ hinv hstep _
  cases hstep with
  | start | tick | fault | quiet =>
    exact ⟨hinv.receipts, hinv.unique, hinv.succeeded, hinv.transactions, hinv.events, hinv.entries⟩
  | commit i log it p live _ _ hg => exact hinv.commit hg

/-- A closed intent is not touched by any further step. -/
theorem keeps_closed {min : ℤ} {a a' : Abs} (hstep : TxStore.AStep (commits min) a a')
    {i : PaymentIntentRow} (hi : i ∈ Db.intents a.db) (hclosed : i.status ≠ .requiresConfirmation) :
    i ∈ Db.intents a'.db := by
  cases hstep with
  | start | tick | fault | quiet => exact hi
  | commit j log it p live _ _ hg => exact Commit.keeps_intent hg hi hclosed

/-! ## The endpoints a confirm reads -/

/-- Only a registration writes endpoints. -/
theorem exec_endpoint {q : Stmt} {r : Resp q} {env : Env} {busy : Loc → Bool} {v : Db}
    {ws : List Row} (h : (engine.exec q env busy v).out = .ok (r, ws)) {w : Row} (hw : w ∈ ws)
    (hne : w.asEndpoint ≠ none) : ∃ m url secret, q = .endpointInsert m url secret := by
  have htable := Sql.exec_into q env busy v r ws h w hw
  cases w <;> simp only [Row.asEndpoint, ne_eq, not_true_eq_false] at hne
  cases q <;> simp [Stmt.table, Row.table] at htable ⊢

/-- The endpoints that a transaction sees are the committed ones, when it has
registered none. -/
theorem view_endpoints {p : Priv} {d : Db} (h : ∀ w ∈ p.writes, w.asEndpoint = none) :
    Db.endpoints (p.view d) = d.endpoints := by
  apply Table.filterMap_install_other ?_ h
  intro x y hkey hx
  cases x <;> cases y <;> simp_all [Row.asEndpoint]

/-- A confirm was answered the endpoints that were active when it asked. -/
theorem reads_endpoints {min : ℤ} {ls : List Step} {s : Sys}
    (h : RunBy min (fun _ _ _ => True) ls s) {c : ChargeRow} {eps : List WebhookEndpointRow}
    {i : ℕ} {it : Item} (hx : (i, it) ∈ s.history) (hitem : Item.charges c eps it) :
    ∃ t, ReadsEndpoints min ls c t ∧ eps = Db.activeEndpoints t.db c.merchantId := by
  unfold Item.charges at hitem
  split at hitem
  · rename_i m id evs
    obtain ⟨rfl, hid, hinserts, first, rest, hevs, hnone⟩ := hitem
    obtain ⟨before, l, during, v, after, s₀, s₁, s₂, s₃, p, rfl, hrun, hbegin, -, hopen, hstays,
      hend, rfl, hcommit, hlast⟩ := h.committed hx
    obtain ⟨early, u, late, t, t', n, p₁, p₂, ws, rfl, hearly, hread, hlate, hn, hnext, hfirst,
      -, -, -, hout⟩ := hstays.executed hopen hend hevs
    -- what the transaction has written so far
    obtain ⟨t₀, htxn⟩ := Node.txn?_of_next hnext
    have ht := Sys.txn?_eq_some.mpr ⟨n, hn, htxn⟩
    have hsame := (hearly.grows hopen ht).1
    have hwrites : ∀ w ∈ p₁.writes, w.asEndpoint = none := by
      intro w hw
      by_contra hne
      obtain ⟨q, r, env, busy, view, ws', hev, hwrote, hmem⟩ := hearly.wrote hopen ht w hw
      obtain ⟨m', url, secret, rfl⟩ := exec_endpoint hwrote hmem hne
      exact hnone m' url secret r (hfirst ▸ hev)
    refine ⟨t, ?_, ?_⟩
    · have hthere := hearly.run (fun _ _ _ => trivial) (hrun.step hbegin trivial)
      rw [List.append_assoc, List.singleton_append] at hthere
      exact ⟨before ++ l :: early, i, u, late, v, after, n, p₁, id, t', s₂, s₃, _, by simp, hthere,
        hn, hnext, hsame ▸ htxn, hid, hread, hlate, hcommit, hlast, hinserts⟩
    · have hexec : (Sql.exec (.endpointListActiveByMerchant c.merchantId) ⟨t.now, u⟩ (t.busy i)
          (p₁.view t.db)).out = .ok (eps, ws) := hout
      obtain ⟨hanswer, -⟩ := Sql.endpointListActiveByMerchant_ok hexec
      rw [hanswer, view_endpoints hwrites, Db.activeEndpoints]
      simp
  · exact hitem.elim

/-- Intents, charges, ledger and outbox agree in every committed state, and a
closed intent never changes. -/
theorem intents_agree {min : ℤ} {ls : List Step} {s : Sys}
    (h : RunBy min (fun _ _ _ => True) ls s) :
    (∀ i ∈ Db.intents s.db,
      (i.status = .succeeded ↔ ∃! c, c ∈ Db.charges s.db ∧ c.paymentIntentId = i.id) ∧
      (i.status = .succeeded → ∃ c ∈ Db.charges s.db, c.paymentIntentId = i.id ∧
        c.merchantId = i.merchantId ∧ c.amount = i.amount ∧ c.currency = i.currency ∧
        ∃ t, ReadsEndpoints min ls c t ∧
          Db.Receipt s.db c (Db.activeEndpoints t.db c.merchantId)) ∧
      (i.status ≠ .succeeded → (∀ c ∈ Db.charges s.db, c.paymentIntentId ≠ i.id) ∧
        ∀ e ∈ Db.events s.db, ¬ e.Names i.id) ∧
      (i.status ≠ .requiresConfirmation → ∀ l s', s.next min l = some s' →
        i ∈ Db.intents s'.db)) ∧
    ∀ t ∈ Db.transactions s.db, t.type = .charge →
      ∃ c ∈ Db.charges s.db, c.transactionId = t.id ∧
        ∃ i ∈ Db.intents s.db, i.id = c.paymentIntentId ∧ i.status = .succeeded := by
  have hreach : AReach min (fun _ => True) s.abs := reach_refines (fun _ _ _ _ => trivial) h.reach
  have hbooks : IntentBooks s.abs := intentBooks hreach
  refine ⟨?_, ?_⟩
  · intro i hi
    refine ⟨⟨?_, ?_⟩, ?_, ?_, ?_⟩
    · intro hstatus
      obtain ⟨c, hc, hid⟩ := hbooks.succeeded i hi hstatus
      refine ⟨c, ⟨hc, hid⟩, ?_⟩
      rintro c' ⟨hc', hid'⟩
      exact hbooks.unique c' hc' c hc (hid'.trans hid.symm)
    · rintro ⟨c, ⟨hc, hid⟩, -⟩
      by_contra hstatus
      exact hbooks.no_charge hi hstatus c hc hid
    · intro hstatus
      obtain ⟨c, hc, hid⟩ := hbooks.succeeded i hi hstatus
      obtain ⟨eps, ⟨x, hx, hitem⟩, hr⟩ := hbooks.receipts c hc
      obtain ⟨t, hreads, rfl⟩ := reads_endpoints h hx hitem
      obtain ⟨i', hi', hid', -, hm, hamount, hcurrency⟩ := hr.intent
      obtain rfl : i' = i := Db.intent_unique hi hi' (hid'.trans hid)
      exact ⟨c, hc, hid, hm.symm, hamount.symm, hcurrency.symm, t, hreads, hr⟩
    · intro hstatus
      refine ⟨hbooks.no_charge hi hstatus, ?_⟩
      intro e he hnames
      obtain ⟨c, hc, -, hid⟩ := hbooks.events e he i.id hnames
      exact hbooks.no_charge hi hstatus c hc hid
    · intro hclosed l s' hstep
      exact keeps_closed (step_refines h.reach hstep) hi hclosed
  · intro t ht htype
    obtain ⟨c, hc, hid⟩ := hbooks.transactions t ht htype
    obtain ⟨eps, -, hr⟩ := hbooks.receipts c hc
    obtain ⟨i, hi, hid', hstatus, -⟩ := hr.intent
    exact ⟨c, hc, hid, i, hi, hid', hstatus⟩

/-- A merchant with one endpoint confirms an intent of 50. -/
def confirmedIntent : List Step :=
  .start (.createWallet 1 .NGN) :: drive 0 1 1 ++
    .start (.registerEndpoint 1 "https://shop.example/hook" "secret") :: drive 1 1 2 ++
    .start (.createIntent 1 ⟨fifty, .NGN, none, noReference⟩) :: drive 2 2 2 ++
    .start (.confirm 1 (smallId '3')) :: drive 3 11 10

theorem intents_agree_confirmed : ∃ s : Sys, ∃ i ∈ Db.intents s.db,
    (Db.events s.db).length = 1 ∧ ∃! c, c ∈ Db.charges s.db ∧ c.paymentIntentId = i.id := by
  have hrun : (runFrom 10 confirmedIntent).any (fun s : Sys =>
      decide ((Db.events s.db).length = 1 ∧
        ∃ i ∈ Db.intents s.db, i.status = .succeeded)) = true := by decide +kernel
  obtain ⟨s, hs, hsucceeded⟩ := exists_run hrun
  obtain ⟨hone, i, hi, hstatus⟩ := of_decide_eq_true hsucceeded
  exact ⟨s, i, hi, hone, ((intents_agree hs).1 i hi).1.mp hstatus⟩

end PaymentApis
