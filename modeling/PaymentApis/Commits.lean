import PaymentApis.System
import PaymentApis.Versions

/-!
# What a commit does

`Commit` says once, for every unit of work a process can commit, which rows it
writes and what it knows about the rows it replaces at the moment it commits.
Everything proved about runs of the system is derived from it.

A worker's place in its batch of payouts is read off what it has observed:
`phase` of its log.
-/

namespace PaymentApis

open TxStore

/-! ## A worker's place in its batch -/

inductive Phase
  /-- Holds no payout. -/
  | idle
  /-- About to look up the account of the first payout. -/
  | next (p : PayoutRow) (rest : List PayoutRow)
  /-- About to call the bank. -/
  | ready (p : PayoutRow) (a : PayoutAccountRow) (rest : List PayoutRow)
  /-- The bank has accepted; the payout is not yet marked paid. -/
  | accepted (p : PayoutRow) (rest : List PayoutRow)
  /-- No usable account, or the bank has refused. -/
  | refused (p : PayoutRow) (rest : List PayoutRow)
  /-- The bank has accepted, and marking the payout paid has failed. -/
  | unsettled (p : PayoutRow) (rest : List PayoutRow)

namespace Phase

def ofBatch : List PayoutRow → Phase
  | [] => idle
  | p :: rest => next p rest

/-- The payouts claimed and not finished, the one in work first. -/
def payouts : Phase → List PayoutRow
  | idle => []
  | next p rest => p :: rest
  | ready p _ rest => p :: rest
  | accepted p rest => p :: rest
  | refused p rest => p :: rest
  | unsettled p rest => p :: rest

def finish (ph : Phase) : Phase := ofBatch ph.payouts.tail

def observe (ph : Phase) : Ev → Phase
  | .stmt (.payoutClaimDue _ _ _) rows => ofBatch rows
  | .stmt (.accountFindById _) acc =>
    match ph, acc with
    | next p rest, some a => if a.isActive then ready p a rest else refused p rest
    | next p rest, none => refused p rest
    | ph, _ => ph
  | .call _ (.ok ()) =>
    match ph with
    | ready p _ rest => accepted p rest
    | ph => ph
  | .call _ (.error _) =>
    match ph with
    | ready p _ rest => refused p rest
    | ph => ph
  | .fault _ =>
    match ph with
    | accepted p rest => unsettled p rest
    | ph => ph
  | .stmt (.payoutMarkPaid _) _ => ph.finish
  | .stmt (.payoutMarkRetry _ _ _ _) _ => ph.finish
  | .stmt (.payoutMarkFailed _ _ _ _) _ => ph.finish
  | _ => ph

/-- Retrying and reversing are decided here. -/
def failing (ph : Phase) (p : PayoutRow) (rest : List PayoutRow) : Prop :=
  ph = refused p rest ∨ ph = unsettled p rest

@[simp] theorem payouts_ofBatch (rows : List PayoutRow) : (ofBatch rows).payouts = rows := by
  cases rows <;> rfl

theorem failing.payouts {ph : Phase} {p : PayoutRow} {rest : List PayoutRow}
    (h : ph.failing p rest) : ph.payouts = p :: rest := by
  rcases h with rfl | rfl <;> rfl

theorem failing.finish {ph : Phase} {p : PayoutRow} {rest : List PayoutRow}
    (h : ph.failing p rest) : ph.finish = ofBatch rest := by
  rw [Phase.finish, h.payouts]
  rfl

end Phase

def phase (log : List Ev) : Phase := log.foldl Phase.observe .idle

@[simp] theorem phase_nil : phase [] = .idle := rfl

theorem phase_append (log evs : List Ev) : phase (log ++ evs) = evs.foldl Phase.observe (phase log) :=
  List.foldl_append

/-! ## Commits -/

/-- The statements that only read, and take part in no batch. -/
def Stmt.isQuery : Stmt → Bool
  | .walletFindByMerchantAndCurrency _ _ => true
  | .payoutListSettleableWallets _ _ => true
  | .payoutListByMerchant _ => true
  | _ => false

/-- The outbox rows of one `emit`: one for each active endpoint it read. -/
structure Outbox (d : Db) (merchantId : Uuid) (type : EventType) (data : EventData) where
  endpoints : List WebhookEndpointRow
  rows : List WebhookEventRow
  active : ∀ e ∈ endpoints,
    d.get (.endpoint e.id) = some (.endpoint e) ∧ e.merchantId = merchantId ∧ e.isActive = true
  distinct : (endpoints.map (·.id)).Nodup
  targets : rows.map (·.endpointId) = endpoints.map (·.id)
  shape : ∀ r ∈ rows, r.merchantId = merchantId ∧ r.eventType = type ∧ r.payload = ⟨type, data⟩ ∧
    r.status = .pending
  nodup : (rows.map (·.id)).Nodup
  fresh : ∀ r ∈ rows, d.get (.event r.id) = none

def Outbox.events {d m type data} (o : Outbox d m type data) : List Ev :=
  .stmt (.endpointListActiveByMerchant m) o.endpoints ::
    o.rows.map (fun r => .stmt (.eventEnqueue m r.endpointId type ⟨type, data⟩) ())

def Outbox.writes {d m type data} (o : Outbox d m type data) : List Row := o.rows.map .event

/-- Outbox statements do not move a worker. -/
@[simp] theorem Outbox.observe_events {d m type data} (o : Outbox d m type data) (ph : Phase) :
    o.events.foldl Phase.observe ph = ph := by
  have hrows : ∀ rows : List WebhookEventRow, (rows.map (fun r =>
      (.stmt (.eventEnqueue m r.endpointId type ⟨type, data⟩) () : Ev))).foldl Phase.observe ph =
        ph := by
    intro rows
    induction rows with
    | nil => rfl
    | cons r rows ih => exact ih
  exact hrows o.rows

/-- A committed transfer: the rows it read, and the rows its updates found. -/
structure TransferCommit (d : Db) (callerMerchantId : Uuid) (dto : CreateTransferDto) where
  fromRow : WalletRow
  toRow : WalletRow
  source : WalletRow
  dest : WalletRow
  transactionId : Uuid
  debitId : Uuid
  creditId : Uuid
  amount : Bigint
  sourceBalance : Bigint
  destBalance : Bigint
  positive : 0 < amount.val
  sourceCheck : 0 ≤ sourceBalance.val
  destCheck : 0 ≤ destBalance.val
  fromId : uuidOfText dto.fromWalletId = some fromRow.id
  toId : uuidOfText dto.toWalletId = some toRow.id
  owner : fromRow.merchantId = callerMerchantId
  sameCurrency : source.currency = dest.currency
  covered : dto.amount.val ≤ fromRow.balance.val
  ledger : Bigint.parse (numText dto.amount.val) = some amount
  sourceId : source.id = fromRow.id
  destId : dest.id = toRow.id
  different : source.id ≠ dest.id
  sourceVersion : source.version = fromRow.version
  destVersion : dest.version = toRow.version
  sourceMerchant : source.merchantId = fromRow.merchantId
  sourceCurrency : source.currency = fromRow.currency
  destCurrency : dest.currency = toRow.currency
  debited : sourceBalance.val = source.balance.val - dto.amount.val
  credited : destBalance.val = dest.balance.val + dto.amount.val
  sourceGet : d.wallet source.id = some source
  destGet : d.wallet dest.id = some dest
  transactionFresh : d.get (.transaction transactionId) = none
  debitFresh : d.get (.entry debitId) = none
  creditFresh : d.get (.entry creditId) = none
  entries : debitId ≠ creditId

namespace TransferCommit

variable {d : Db} {m : Uuid} {dto : CreateTransferDto} (c : TransferCommit d m dto)

def events : List Ev :=
  [.stmt (.walletFindById dto.fromWalletId) (some c.fromRow),
    .stmt (.walletFindById dto.toWalletId) (some c.toRow),
    .stmt (.ledgerCreateTransaction .transfer) c.transactionId,
    .stmt (.ledgerAddEntry c.transactionId c.fromRow.id .debit (numText dto.amount.val)
      c.fromRow.currency) (),
    .stmt (.ledgerAddEntry c.transactionId c.toRow.id .credit (numText dto.amount.val)
      c.toRow.currency) (),
    .stmt (.walletApplyDeltaIfVersion c.fromRow.id (intText (-(dto.amount.val : ℤ)))
      c.fromRow.version) true,
    .stmt (.walletApplyDeltaIfVersion c.toRow.id (intText dto.amount.val) c.toRow.version) true]

def newSource : WalletRow :=
  { c.source with
    balance := c.sourceBalance, version := c.source.version + 1, check := c.sourceCheck }

def newDest : WalletRow :=
  { c.dest with balance := c.destBalance, version := c.dest.version + 1, check := c.destCheck }

def writes : List Row :=
  [.transaction ⟨c.transactionId, .transfer⟩,
    .entry ⟨c.debitId, c.transactionId, c.source.id, .debit, c.amount, c.source.currency,
      c.positive⟩,
    .entry ⟨c.creditId, c.transactionId, c.dest.id, .credit, c.amount, c.dest.currency,
      c.positive⟩,
    .wallet c.newSource, .wallet c.newDest]

end TransferCommit

/-- A committed confirm. -/
structure ConfirmCommit (d : Db) (merchantId : Uuid) (id : Text) where
  intent : PaymentIntentRow
  walletRow : WalletRow
  wallet : WalletRow
  transactionId : Uuid
  entryId : Uuid
  chargeId : Uuid
  balance : Bigint
  check : 0 ≤ balance.val
  outbox : Outbox d merchantId .paymentSucceeded
    (.payment intent.id chargeId intent.amount intent.currency)
  intentId : uuidOfText id = some intent.id
  owner : intent.merchantId = merchantId
  confirmable : intent.status = .requiresConfirmation
  walletOwner : wallet.merchantId = merchantId
  walletCurrency : wallet.currency = intent.currency
  walletId : walletRow.id = wallet.id
  credited : balance.val = wallet.balance.val + intent.amount.val
  intentGet : d.intent intent.id = some intent
  walletGet : d.wallet wallet.id = some wallet
  transactionFresh : d.get (.transaction transactionId) = none
  entryFresh : d.get (.entry entryId) = none
  chargeFresh : d.get (.charge chargeId) = none

namespace ConfirmCommit

variable {d : Db} {m : Uuid} {id : Text} (c : ConfirmCommit d m id)

def charge : ChargeRow :=
  ⟨c.chargeId, c.intent.id, m, c.intent.amount, c.intent.currency, c.transactionId, c.intent.check⟩

def entry : LedgerEntryRow :=
  ⟨c.entryId, c.transactionId, c.wallet.id, .credit, c.intent.amount, c.intent.currency,
    c.intent.check⟩

def newWallet : WalletRow := { c.wallet with balance := c.balance, check := c.check }

def newIntent : PaymentIntentRow := { c.intent with status := .succeeded }

def events : List Ev :=
  [.stmt (.intentFindByIdForUpdate m id) (some c.intent),
    .stmt (.walletFindByMerchantAndCurrency m c.intent.currency) (some c.walletRow),
    .stmt (.ledgerCreateTransaction .charge) c.transactionId,
    .stmt (.ledgerAddEntry c.transactionId c.wallet.id .credit c.intent.amount.text
      c.intent.currency) (),
    .stmt (.walletApplyDelta c.wallet.id c.intent.amount.text) (),
    .stmt (.chargeInsert c.intent.id m c.intent.amount.text c.intent.currency c.transactionId)
      c.charge,
    .stmt (.intentUpdateStatus c.intent.id .succeeded) ()] ++ c.outbox.events

def writes : List Row :=
  [.transaction ⟨c.transactionId, .charge⟩, .entry c.entry, .wallet c.newWallet,
    .charge c.charge, .intent c.newIntent] ++ c.outbox.writes

end ConfirmCommit

/-- A committed cancel. -/
structure CancelCommit (d : Db) (merchantId : Uuid) (id : Text) where
  intent : PaymentIntentRow
  intentId : uuidOfText id = some intent.id
  owner : intent.merchantId = merchantId
  confirmable : intent.status = .requiresConfirmation
  intentGet : d.intent intent.id = some intent

namespace CancelCommit

variable {d : Db} {m : Uuid} {id : Text} (c : CancelCommit d m id)

def newIntent : PaymentIntentRow := { c.intent with status := .canceled }

def events : List Ev :=
  [.stmt (.intentFindByIdForUpdate m id) (some c.intent),
    .stmt (.intentUpdateStatus c.intent.id .canceled) ()]

def writes : List Row := [.intent c.newIntent]

end CancelCommit

/-- A committed sweep transaction that creates a payout. -/
structure SweepCommit (min : ℤ) (d : Db) (w : SettleableWallet) where
  wallet : WalletRow
  transactionId : Uuid
  entryId : Uuid
  payoutId : Uuid
  dueAt : ℕ
  positive : 0 < wallet.balance.val
  walletId : wallet.id = w.walletId
  owner : wallet.merchantId = w.merchantId
  enough : min ≤ wallet.balance.val
  account : ∃ a, d.account w.accountId = some a ∧ a.merchantId = wallet.merchantId ∧
    a.currency = wallet.currency ∧ a.isActive = true
  walletGet : d.wallet wallet.id = some wallet
  transactionFresh : d.get (.transaction transactionId) = none
  entryFresh : d.get (.entry entryId) = none
  payoutFresh : d.get (.payout payoutId) = none

namespace SweepCommit

variable {min : ℤ} {d : Db} {w : SettleableWallet} (c : SweepCommit min d w)

def payout : PayoutRow :=
  ⟨c.payoutId, c.wallet.merchantId, c.wallet.id, w.accountId, c.wallet.currency, c.wallet.balance,
    .pending, c.transactionId, none, 0, c.dueAt, none, c.positive⟩

def entry : LedgerEntryRow :=
  ⟨c.entryId, c.transactionId, c.wallet.id, .debit, c.wallet.balance, c.wallet.currency, c.positive⟩

def newWallet : WalletRow := { c.wallet with balance := .zero, check := Bigint.zero_nonneg }

def events : List Ev :=
  [.stmt (.walletFindByIdForUpdate w.walletId) (some c.wallet),
    .stmt (.ledgerCreateTransaction .payout) c.transactionId,
    .stmt (.ledgerAddEntry c.transactionId c.wallet.id .debit (intText c.wallet.balance.val)
      c.wallet.currency) (),
    .stmt (.walletApplyDelta c.wallet.id (intText (-c.wallet.balance.val))) (),
    .stmt (.payoutCreatePending c.wallet.merchantId c.wallet.id w.accountId c.wallet.currency
      (intText c.wallet.balance.val) c.transactionId) c.payout]

def writes : List Row :=
  [.transaction ⟨c.transactionId, .payout⟩, .entry c.entry, .wallet c.newWallet,
    .payout c.payout]

end SweepCommit

/-- A committed mark-paid transaction. -/
structure PaidCommit (d : Db) (payout : PayoutRow) where
  row : PayoutRow
  outbox : Outbox d payout.merchantId .payoutPaid
    (.payout payout.id payout.amount payout.currency none)
  rowGet : d.payout payout.id = some row
  same : (Row.payout row).fixed = (Row.payout payout).fixed

namespace PaidCommit

variable {d : Db} {p : PayoutRow} (c : PaidCommit d p)

def newRow : PayoutRow := { c.row with status := .paid }

def events : List Ev := .stmt (.payoutMarkPaid p.id) () :: c.outbox.events

def writes : List Row := .payout c.newRow :: c.outbox.writes

theorem observe_events (ph : Phase) : c.events.foldl Phase.observe ph = ph.finish := by
  rw [events, List.foldl_cons, Outbox.observe_events]
  rfl

end PaidCommit

/-- A committed reversal. -/
structure ReversalCommit (d : Db) (payout : PayoutRow) where
  row : PayoutRow
  wallet : WalletRow
  transactionId : Uuid
  entryId : Uuid
  balance : Bigint
  message : String
  check : 0 ≤ balance.val
  outbox : Outbox d payout.merchantId .payoutFailed
    (.payout payout.id payout.amount payout.currency (some message))
  exhausted : payoutService.MAX_ATTEMPTS ≤ payout.attempts + 1
  rowGet : d.payout payout.id = some row
  same : (Row.payout row).fixed = (Row.payout payout).fixed
  walletId : wallet.id = payout.walletId
  credited : balance.val = wallet.balance.val + payout.amount.val
  walletGet : d.wallet wallet.id = some wallet
  transactionFresh : d.get (.transaction transactionId) = none
  entryFresh : d.get (.entry entryId) = none

namespace ReversalCommit

variable {d : Db} {p : PayoutRow} (c : ReversalCommit d p)

def newRow : PayoutRow :=
  { c.row with
    status := .failed
    attempts := p.attempts + 1
    failureReason := some c.message
    reversalTransactionId := some c.transactionId }

def entry : LedgerEntryRow :=
  ⟨c.entryId, c.transactionId, c.wallet.id, .credit, p.amount, p.currency, p.check⟩

def newWallet : WalletRow := { c.wallet with balance := c.balance, check := c.check }

def events : List Ev :=
  [.stmt (.walletFindByIdForUpdate p.walletId) (some c.wallet),
    .stmt (.ledgerCreateTransaction .payoutReversal) c.transactionId,
    .stmt (.ledgerAddEntry c.transactionId c.wallet.id .credit (intText p.amount.val)
      p.currency) (),
    .stmt (.walletApplyDelta c.wallet.id (intText p.amount.val)) (),
    .stmt (.payoutMarkFailed p.id (p.attempts + 1) c.message c.transactionId) ()] ++
    c.outbox.events

def writes : List Row :=
  [.transaction ⟨c.transactionId, .payoutReversal⟩, .entry c.entry, .wallet c.newWallet,
    .payout c.newRow] ++ c.outbox.writes

theorem observe_events (ph : Phase) : c.events.foldl Phase.observe ph = ph.finish := by
  rw [events, List.foldl_append, Outbox.observe_events]
  rfl

end ReversalCommit

/-- What the statements on `idempotency_keys` answer and write. -/
inductive KeyWrite (d : Db) : (s : Stmt) → Resp s → List Row → Prop
  | insert (m : Uuid) (key hash : Text) (free : d.idempotency m key = none) :
      KeyWrite d (.idempotencyInsert m key hash) ()
        [.idempotency ⟨m, key, some ⟨hash, .inProgress, none, none⟩⟩]
  | get (m : Uuid) (key : Text) : KeyWrite d (.idempotencyGet m key) (d.idempotency m key) []
  | complete (m : Uuid) (key : Text) (status : ℕ) (body : Option ResponseBody)
      (row : IdempotencyRow) (found : d.idempotency m key = some row) :
      KeyWrite d (.idempotencyComplete m key status body) ()
        [.idempotency ⟨m, key, some { row with
          status := .completed
          responseStatus := some status
          responseBody := body }⟩]
  | completeNone (m : Uuid) (key : Text) (status : ℕ) (body : Option ResponseBody)
      (gone : d.idempotency m key = none) :
      KeyWrite d (.idempotencyComplete m key status body) () []
  | release (m : Uuid) (key : Text) (row : IdempotencyRow)
      (found : d.idempotency m key = some row) :
      KeyWrite d (.idempotencyRelease m key) () [.idempotency ⟨m, key, none⟩]
  | releaseNone (m : Uuid) (key : Text) (gone : d.idempotency m key = none) :
      KeyWrite d (.idempotencyRelease m key) () []

/-- They write no row of another table. -/
theorem KeyWrite.writes {d : Db} {s : Stmt} {r : Resp s} {ws : List Row} (h : KeyWrite d s r ws) :
    ws = [] ∨ ∃ slot, ws = [.idempotency slot] := by
  cases h with
  | get | completeNone | releaseNone => exact Or.inl rfl
  | insert | complete | release => exact Or.inr ⟨_, rfl⟩

/-- They do not move a worker. -/
theorem KeyWrite.observe {d : Db} {s : Stmt} {r : Resp s} {ws : List Row} (h : KeyWrite d s r ws)
    (ph : Phase) : ph.observe (.stmt s r) = ph := by
  cases h <;> rfl

theorem KeyWrite.phase_append {d : Db} {s : Stmt} {r : Resp s} {ws : List Row} (h : KeyWrite d s r ws)
    (log : List Ev) : phase (log ++ [.stmt s r]) = phase log := by
  rw [PaymentApis.phase_append]
  exact h.observe _

/-- What a process that has observed `log` can commit on the tables `d`. -/
inductive Commit (min : ℤ) (log : List Ev) (now : ℕ) (d : Db) : Item → List Row → Prop
  | walletCreate {m : Uuid} {c : Currency} (row : WalletRow)
      (shape : row.merchantId = m ∧ row.currency = c ∧ row.balance = .zero ∧ row.version = 0)
      (owner : ∀ w ∈ d.wallets, ¬ (w.merchantId = m ∧ w.currency = c))
      (fresh : d.get (.wallet row.id) = none) :
      Commit min log now d (.auto (.walletCreate m c) row) [.wallet row]
  | query (s : Stmt) (r : Resp s) (h : s.isQuery = true) : Commit min log now d (.auto s r) []
  | intentInsert {m : Uuid} {amount : Text} {c : Currency} {ref : Option String}
      (row : PaymentIntentRow)
      (shape : row.merchantId = m ∧ row.currency = c ∧ row.customerReference = ref ∧
        row.status = .requiresConfirmation)
      (parsed : Bigint.parse amount = some row.amount) (fresh : d.get (.intent row.id) = none) :
      Commit min log now d (.auto (.intentInsert m amount c ref) row) [.intent row]
  | endpointInsert {m : Uuid} {url secret : String} (row : WebhookEndpointRow)
      (shape : row.merchantId = m ∧ row.url = url ∧ row.secret = secret ∧ row.isActive = true)
      (fresh : d.get (.endpoint row.id) = none) :
      Commit min log now d (.auto (.endpointInsert m url secret) row) [.endpoint row]
  | accountInsert {m : Uuid} {c : Currency} {bank : String} {number : Text} (row : PayoutAccountRow)
      (shape : row.merchantId = m ∧ row.currency = c ∧ row.bankName = bank ∧
        row.accountNumber = number ∧ row.isActive = true)
      (owner : ∀ a ∈ d.accounts, ¬ (a.merchantId = m ∧ a.currency = c))
      (fresh : d.get (.account row.id) = none) :
      Commit min log now d (.auto (.accountInsert m c bank number) row) [.account row]
  | claimDue (limit : ℕ) (merchantId : Option Uuid) (rows : List PayoutRow)
      (idle : phase log = .idle) (nodup : (rows.map (·.id)).Nodup)
      (claimed : ∀ p ∈ rows, ∃ q, d.payout p.id = some q ∧ q.status = .pending ∧
        q.nextAttemptAt ≤ now ∧ p = { q with nextAttemptAt := now + seconds 60 }) :
      Commit min log now d (.auto (.payoutClaimDue limit 60 merchantId) rows)
        (rows.map .payout)
  | accountFind (p : PayoutRow) (rest : List PayoutRow) (place : phase log = .next p rest) :
      Commit min log now d
        (.auto (.accountFindById p.payoutAccountId) (d.account p.payoutAccountId)) []
  | bank (p : PayoutRow) (a : PayoutAccountRow) (rest : List PayoutRow)
      (place : phase log = .ready p a rest) (found : d.account p.payoutAccountId = some a)
      (active : a.isActive = true) :
      Commit min log now d (.call ⟨p.id, a⟩ (simulateBankTransfer ⟨p.id, a⟩)) []
  | markRetry (p : PayoutRow) (rest : List PayoutRow) (row : PayoutRow) (message : String)
      (place : (phase log).failing p rest)
      (remaining : p.attempts + 1 < payoutService.MAX_ATTEMPTS)
      (rowGet : d.payout p.id = some row) (same : (Row.payout row).fixed = (Row.payout p).fixed) :
      Commit min log now d
        (.auto (.payoutMarkRetry p.id (p.attempts + 1)
          (payoutService.backoffSeconds (p.attempts + 1)) message) ())
        [.payout { row with
          attempts := p.attempts + 1
          nextAttemptAt := now + seconds (payoutService.backoffSeconds (p.attempts + 1))
          failureReason := some message }]
  | keyed (s : Stmt) (r : Resp s) (ws : List Row) (h : KeyWrite d s r ws) :
      Commit min log now d (.auto s r) ws
  | transfer {m : Uuid} {dto : CreateTransferDto} (c : TransferCommit d m dto) :
      Commit min log now d (.txn (.transfer m dto) c.events) c.writes
  | confirm {m : Uuid} {id : Text} (c : ConfirmCommit d m id) :
      Commit min log now d (.txn (.confirm m id) c.events) c.writes
  | cancel {m : Uuid} {id : Text} (c : CancelCommit d m id) :
      Commit min log now d (.txn (.cancel m id) c.events) c.writes
  | sweepSkip (w : SettleableWallet) (row : WalletRow) (walletGet : d.wallet w.walletId = some row)
      (below : row.balance.val < min) :
      Commit min log now d (.txn (.sweep w) [.stmt (.walletFindByIdForUpdate w.walletId) (some row)])
        []
  | sweep {w : SettleableWallet} (c : SweepCommit min d w) :
      Commit min log now d (.txn (.sweep w) c.events) c.writes
  | paid {p : PayoutRow} (rest : List PayoutRow) (place : phase log = .accepted p rest)
      (c : PaidCommit d p) : Commit min log now d (.txn (.paid p) c.events) c.writes
  | reversal {p : PayoutRow} (rest : List PayoutRow) (place : (phase log).failing p rest)
      (c : ReversalCommit d p) : Commit min log now d (.txn (.reversal p) c.events) c.writes

/-! ## The tables after a commit -/

theorem Outbox.nodup_writes {d m type data} (o : Outbox d m type data) :
    (o.writes.map Row.key).Nodup := by
  have hinj : Function.Injective Loc.event := fun a b h => Loc.event.inj h
  simpa [Outbox.writes, Function.comp_def] using o.nodup.map hinj

/-- A transaction's own row versions, of other tables, followed by its outbox rows. -/
theorem Outbox.nodup_append {d m type data} (o : Outbox d m type data) {ws : List Row}
    (hnd : (ws.map Row.key).Nodup) (hws : ∀ r ∈ ws, r.asEvent = none) :
    ((ws ++ o.writes).map Row.key).Nodup := by
  rw [List.map_append, List.nodup_append]
  refine ⟨hnd, o.nodup_writes, ?_⟩
  intro k hk k' hk' heq
  obtain ⟨r, hr, rfl⟩ := List.mem_map.mp hk
  obtain ⟨x, hx, rfl⟩ := List.mem_map.mp hk'
  obtain ⟨e, -, rfl⟩ := List.mem_map.mp hx
  have hnone := hws r hr
  cases r <;> simp [Row.asEvent] at heq hnone

/-- A commit writes at most one version of each row. -/
theorem Commit.nodup {min : ℤ} {log : List Ev} {now : ℕ} {d : Db} {it : Item} {ws : List Row}
    (h : Commit min log now d it ws) : (ws.map Row.key).Nodup := by
  cases h with
  | query | accountFind | bank | sweepSkip => exact List.nodup_nil
  | walletCreate | intentInsert | endpointInsert | accountInsert | markRetry | cancel =>
    exact List.nodup_singleton _
  | claimDue limit m rows idle nodup claimed =>
    have hinj : Function.Injective Loc.payout := fun a b h => Loc.payout.inj h
    simpa [Function.comp_def] using nodup.map hinj
  | keyed s r ws h => rcases h.writes with rfl | ⟨slot, rfl⟩ <;> simp
  | transfer c =>
    have h₁ := c.entries
    have h₂ := c.different
    simpa [TransferCommit.writes, TransferCommit.newSource, TransferCommit.newDest] using
      ⟨h₁, h₂⟩
  | sweep c => simp [SweepCommit.writes]
  | confirm c =>
    apply c.outbox.nodup_append
    · simp
    · simp [Row.asEvent]
  | paid rest place c =>
    show (([Row.payout c.newRow] ++ c.outbox.writes).map Row.key).Nodup
    apply c.outbox.nodup_append
    · simp
    · simp [Row.asEvent]
  | reversal rest place c =>
    apply c.outbox.nodup_append
    · simp
    · simp [Row.asEvent]

theorem Outbox.fresh_writes {d m type data} (o : Outbox d m type data) :
    ∀ r ∈ o.writes, d.get r.key = none := by
  intro r hr
  obtain ⟨e, he, rfl⟩ := List.mem_map.mp hr
  exact o.fresh e he

/-- What a commit writes over an old row is a later version of it. -/
theorem Commit.evolves {min : ℤ} {log : List Ev} {now : ℕ} {d : Db} {it : Item} {ws : List Row}
    (h : Commit min log now d it ws) : ∀ r ∈ ws, ∀ x, d.get r.key = some x → x.Evolves r := by
  have hnew : ∀ {k : Loc} {x r : Row}, d.get k = none → d.get k = some x → x.Evolves r := by
    intro k x r hnone hsome
    rw [hnone] at hsome
    exact absurd hsome (by simp)
  have hwallet : ∀ {w w' : WalletRow} {x : Row}, d.wallet w.id = some w →
      d.get (.wallet w.id) = some x → (Row.wallet w).Evolves (.wallet w') →
      x.Evolves (.wallet w') := by
    intro w w' x hw hx hev
    rw [Db.wallet_eq_some.mp hw] at hx
    exact Option.some.inj hx ▸ hev
  have hintent : ∀ {i i' : PaymentIntentRow} {x : Row}, d.intent i.id = some i →
      d.get (.intent i.id) = some x → (Row.intent i).Evolves (.intent i') →
      x.Evolves (.intent i') := by
    intro i i' x hi hx hev
    rw [Db.intent_eq_some.mp hi] at hx
    exact Option.some.inj hx ▸ hev
  have hpayout : ∀ {id : Uuid} {p p' : PayoutRow} {x : Row}, d.payout id = some p →
      p'.id = p.id → d.get (.payout p'.id) = some x → (Row.payout p).Evolves (.payout p') →
      x.Evolves (.payout p') := by
    intro id p p' x hp hid hx hev
    have hget := Db.payout_eq_some.mp hp
    rw [hid, Db.id_of_payout hp, hget] at hx
    exact Option.some.inj hx ▸ hev
  intro r hr x hx
  cases h with
  | query | accountFind | bank | sweepSkip => simp at hr
  | walletCreate row shape owner fresh =>
    rw [List.mem_singleton] at hr
    subst hr
    exact hnew fresh hx
  | intentInsert row shape parsed fresh =>
    rw [List.mem_singleton] at hr
    subst hr
    exact hnew fresh hx
  | endpointInsert row shape fresh =>
    rw [List.mem_singleton] at hr
    subst hr
    exact hnew fresh hx
  | accountInsert row shape owner fresh =>
    rw [List.mem_singleton] at hr
    subst hr
    exact hnew fresh hx
  | claimDue limit m rows idle nodup claimed =>
    obtain ⟨p, hp, rfl⟩ := List.mem_map.mp hr
    obtain ⟨q, hq, -, -, rfl⟩ := claimed p hp
    exact hpayout hq rfl hx ⟨rfl, le_refl _⟩
  | markRetry p rest row message place remaining rowGet same =>
    rw [List.mem_singleton] at hr
    subst hr
    exact hpayout rowGet rfl hx ⟨rfl, le_refl _⟩
  | keyed s r ws h =>
    rcases h.writes with rfl | ⟨slot, rfl⟩
    · simp at hr
    rw [List.mem_singleton] at hr
    subst hr
    have hkey := Table.key_of_get hx
    cases x with
    | idempotency slot' =>
      simp only [Row.key, Loc.idempotency.injEq] at hkey
      exact ⟨by simp [Row.fixed, hkey], le_refl _⟩
    | _ => simp at hkey
  | transfer c =>
    simp only [TransferCommit.writes, List.mem_cons, List.not_mem_nil, or_false] at hr
    rcases hr with rfl | rfl | rfl | rfl | rfl
    · exact hnew c.transactionFresh hx
    · exact hnew c.debitFresh hx
    · exact hnew c.creditFresh hx
    · exact hwallet c.sourceGet hx ⟨rfl, Nat.le_succ _⟩
    · exact hwallet c.destGet hx ⟨rfl, Nat.le_succ _⟩
  | confirm c =>
    simp only [ConfirmCommit.writes, List.mem_append, List.mem_cons, List.not_mem_nil,
      or_false] at hr
    rcases hr with (rfl | rfl | rfl | rfl | rfl) | hr
    · exact hnew c.transactionFresh hx
    · exact hnew c.entryFresh hx
    · exact hwallet c.walletGet hx ⟨rfl, le_refl _⟩
    · exact hnew c.chargeFresh hx
    · exact hintent c.intentGet hx ⟨rfl, le_refl _⟩
    · exact hnew (c.outbox.fresh_writes r hr) hx
  | cancel c =>
    simp only [CancelCommit.writes, List.mem_singleton] at hr
    subst hr
    exact hintent c.intentGet hx ⟨rfl, le_refl _⟩
  | sweep c =>
    simp only [SweepCommit.writes, List.mem_cons, List.not_mem_nil, or_false] at hr
    rcases hr with rfl | rfl | rfl | rfl
    · exact hnew c.transactionFresh hx
    · exact hnew c.entryFresh hx
    · exact hwallet c.walletGet hx ⟨rfl, le_refl _⟩
    · exact hnew c.payoutFresh hx
  | paid rest place c =>
    simp only [PaidCommit.writes, List.mem_cons] at hr
    rcases hr with rfl | hr
    · exact hpayout c.rowGet rfl hx ⟨rfl, le_refl _⟩
    · exact hnew (c.outbox.fresh_writes r hr) hx
  | reversal rest place c =>
    simp only [ReversalCommit.writes, List.mem_append, List.mem_cons, List.not_mem_nil,
      or_false] at hr
    rcases hr with (rfl | rfl | rfl | rfl) | hr
    · exact hnew c.transactionFresh hx
    · exact hnew c.entryFresh hx
    · exact hwallet c.walletGet hx ⟨rfl, le_refl _⟩
    · exact hpayout c.rowGet rfl hx ⟨rfl, le_refl _⟩
    · exact hnew (c.outbox.fresh_writes r hr) hx

/-- A row that is never updated is new when a commit writes it. -/
theorem Commit.fresh {min : ℤ} {log : List Ev} {now : ℕ} {d : Db} {it : Item} {ws : List Row}
    (h : Commit min log now d it ws) : ∀ r ∈ ws, r.isVersioned = false → d.get r.key = none := by
  intro r hr hv
  cases h with
  | query | accountFind | bank | sweepSkip => simp at hr
  | walletCreate | intentInsert | markRetry =>
    rw [List.mem_singleton] at hr
    simp [hr, Row.isVersioned] at hv
  | endpointInsert row shape fresh =>
    rw [List.mem_singleton] at hr
    exact hr ▸ fresh
  | accountInsert row shape owner fresh =>
    rw [List.mem_singleton] at hr
    exact hr ▸ fresh
  | claimDue limit m rows idle nodup claimed =>
    obtain ⟨p, -, rfl⟩ := List.mem_map.mp hr
    simp [Row.isVersioned] at hv
  | keyed s r ws h =>
    rcases h.writes with rfl | ⟨slot, rfl⟩
    · simp at hr
    rw [List.mem_singleton] at hr
    simp [hr, Row.isVersioned] at hv
  | transfer c =>
    simp only [TransferCommit.writes, List.mem_cons, List.not_mem_nil, or_false] at hr
    rcases hr with rfl | rfl | rfl | rfl | rfl
    · exact c.transactionFresh
    · exact c.debitFresh
    · exact c.creditFresh
    · simp [Row.isVersioned] at hv
    · simp [Row.isVersioned] at hv
  | confirm c =>
    simp only [ConfirmCommit.writes, List.mem_append, List.mem_cons, List.not_mem_nil,
      or_false] at hr
    rcases hr with (rfl | rfl | rfl | rfl | rfl) | hr
    · exact c.transactionFresh
    · exact c.entryFresh
    · simp [Row.isVersioned] at hv
    · exact c.chargeFresh
    · simp [Row.isVersioned] at hv
    · exact c.outbox.fresh_writes r hr
  | cancel c =>
    simp only [CancelCommit.writes, List.mem_singleton] at hr
    simp [hr, Row.isVersioned] at hv
  | sweep c =>
    simp only [SweepCommit.writes, List.mem_cons, List.not_mem_nil, or_false] at hr
    rcases hr with rfl | rfl | rfl | rfl
    · exact c.transactionFresh
    · exact c.entryFresh
    · simp [Row.isVersioned] at hv
    · exact c.payoutFresh
  | paid rest place c =>
    simp only [PaidCommit.writes, List.mem_cons] at hr
    rcases hr with rfl | hr
    · simp [Row.isVersioned] at hv
    · exact c.outbox.fresh_writes r hr
  | reversal rest place c =>
    simp only [ReversalCommit.writes, List.mem_append, List.mem_cons, List.not_mem_nil,
      or_false] at hr
    rcases hr with (rfl | rfl | rfl | rfl) | hr
    · exact c.transactionFresh
    · exact c.entryFresh
    · simp [Row.isVersioned] at hv
    · simp [Row.isVersioned] at hv
    · exact c.outbox.fresh_writes r hr

theorem Commit.later {min : ℤ} {log : List Ev} {now : ℕ} {d : Db} {it : Item} {ws : List Row}
    (h : Commit min log now d it ws) : d.Later (d.install ws) :=
  Table.Extends.install Row.Evolves.refl h.nodup h.evolves

end PaymentApis
