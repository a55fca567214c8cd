import PaymentApis.Errors
import PaymentApis.Lib.ReadCommitted

/-!
# The repositories' SQL

One constructor of `Stmt` for each statement of the repositories, under the
repository's and the method's name; `Resp` is what the method returns. `exec`
is the meaning of the statement on the rows its transaction sees: the rows it
locks, and its failure or its answer with the row versions it writes.

Amounts and deltas arrive as decimal texts, as the driver sends them. Rows are
scanned in the order of their insertion where the SQL asks for none.
-/

namespace PaymentApis

open TxStore

/-- A row of `listSettleableWallets`. -/
structure SettleableWallet where
  walletId : Uuid
  merchantId : Uuid
  currency : Currency
  balance : Bigint
  accountId : Uuid
deriving DecidableEq

inductive Stmt
  | walletCreate (merchantId : Uuid) (currency : Currency)
  | walletFindById (id : Text)
  | walletFindByIdForUpdate (id : Uuid)
  | walletApplyDelta (id : Uuid) (delta : Text)
  | walletApplyDeltaIfVersion (id : Uuid) (delta : Text) (expectedVersion : ℕ)
  | walletFindByMerchantAndCurrency (merchantId : Uuid) (currency : Currency)
  | ledgerCreateTransaction (type : TransactionType)
  | ledgerAddEntry (transactionId walletId : Uuid) (direction : Direction) (amount : Text)
      (currency : Currency)
  | intentInsert (merchantId : Uuid) (amount : Text) (currency : Currency)
      (customerReference : Option String)
  | intentFindByIdForUpdate (merchantId : Uuid) (id : Text)
  | intentUpdateStatus (id : Uuid) (status : PaymentIntentStatus)
  | chargeInsert (paymentIntentId merchantId : Uuid) (amount : Text) (currency : Currency)
      (transactionId : Uuid)
  | endpointInsert (merchantId : Uuid) (url secret : String)
  | endpointListActiveByMerchant (merchantId : Uuid)
  | eventEnqueue (merchantId endpointId : Uuid) (eventType : EventType) (payload : EventPayload)
  | accountInsert (merchantId : Uuid) (currency : Currency) (bankName : String)
      (accountNumber : Text)
  | accountFindById (id : Uuid)
  | payoutListSettleableWallets (minAmount : Text) (merchantId : Option Uuid)
  | payoutCreatePending (merchantId walletId payoutAccountId : Uuid) (currency : Currency)
      (amount : Text) (transactionId : Uuid)
  | payoutClaimDue (limit leaseSeconds : ℕ) (merchantId : Option Uuid)
  | payoutMarkPaid (id : Uuid)
  | payoutMarkRetry (id : Uuid) (attempts backoffSeconds : ℕ) (error : String)
  | payoutMarkFailed (id : Uuid) (attempts : ℕ) (error : String) (reversalTransactionId : Uuid)
  | payoutListByMerchant (merchantId : Uuid)
  | idempotencyInsert (merchantId : Uuid) (key requestHash : Text)
  | idempotencyGet (merchantId : Uuid) (key : Text)
  | idempotencyComplete (merchantId : Uuid) (key : Text) (responseStatus : ℕ)
      (responseBody : Option ResponseBody)
  | idempotencyRelease (merchantId : Uuid) (key : Text)

@[reducible] def Resp : Stmt → Type
  | .walletCreate _ _ => WalletRow
  | .walletFindById _ => Option WalletRow
  | .walletFindByIdForUpdate _ => Option WalletRow
  | .walletApplyDelta _ _ => Unit
  | .walletApplyDeltaIfVersion _ _ _ => Bool
  | .walletFindByMerchantAndCurrency _ _ => Option WalletRow
  | .ledgerCreateTransaction _ => Uuid
  | .ledgerAddEntry _ _ _ _ _ => Unit
  | .intentInsert _ _ _ _ => PaymentIntentRow
  | .intentFindByIdForUpdate _ _ => Option PaymentIntentRow
  | .intentUpdateStatus _ _ => Unit
  | .chargeInsert _ _ _ _ _ => ChargeRow
  | .endpointInsert _ _ _ => WebhookEndpointRow
  | .endpointListActiveByMerchant _ => List WebhookEndpointRow
  | .eventEnqueue _ _ _ _ => Unit
  | .accountInsert _ _ _ _ => PayoutAccountRow
  | .accountFindById _ => Option PayoutAccountRow
  | .payoutListSettleableWallets _ _ => List SettleableWallet
  | .payoutCreatePending _ _ _ _ _ _ => PayoutRow
  | .payoutClaimDue _ _ _ => List PayoutRow
  | .payoutMarkPaid _ => Unit
  | .payoutMarkRetry _ _ _ _ => Unit
  | .payoutMarkFailed _ _ _ _ => Unit
  | .payoutListByMerchant _ => List PayoutRow
  | .idempotencyInsert _ _ _ => Unit
  | .idempotencyGet _ _ => Option IdempotencyRow
  | .idempotencyComplete _ _ _ _ => Unit
  | .idempotencyRelease _ _ => Unit

namespace Sql

variable {α : Type}

abbrev Eff (α : Type) := Effect Row Loc Fault α

def read (a : α) : Eff α := ⟨[], .ok (a, [])⟩

def failure (f : Fault) : Eff α := ⟨[], .error f⟩

/-- `INSERT`: the primary key must be new. -/
def insert (v : Db) (row : Row) (a : α) : Eff α :=
  if (v.get row.key).isSome then failure .uniqueViolation else ⟨[], .ok (a, [row])⟩

/-- Why a text is no `BIGINT`. -/
def bigintFault (t : Text) : Fault :=
  if (parseInt t).isNone then .invalidText else .numericOutOfRange

/-- `INSERT ... amount`: the text must be a 64-bit integer, and positive. -/
def insertAmount (v : Db) (amount : Text) (row : (a : Bigint) → 0 < a.val → Row × α) : Eff α :=
  match Bigint.parse amount with
  | none => failure (bigintFault amount)
  | some a => if h : 0 < a.val then insert v (row a h).1 (row a h).2 else failure .checkViolation

/-- `SELECT ... FOR UPDATE` on one row. -/
def lockRow (l : Loc) (a : α) : Eff α := ⟨[l], .ok (a, [])⟩

/-- `UPDATE` of one row, to a new version of it. -/
def update (row : Row) (a : α) : Eff α := ⟨[], .ok (a, [row])⟩

/-- `SET balance = balance + $1::bigint`, with `CHECK (balance >= 0)`; the row
is locked before it is changed. -/
def addBalance (r : WalletRow) (delta : Text) (version : ℕ) (a : α) : Eff α :=
  match Bigint.parse delta with
  | none => failure (bigintFault delta)
  | some b =>
    match r.balance.add? b with
    | none => ⟨[.wallet r.id], .error .numericOutOfRange⟩
    | some c =>
      if h : 0 ≤ c.val then
        ⟨[.wallet r.id], .ok (a, [.wallet { r with balance := c, version := version, check := h }])⟩
      else ⟨[.wallet r.id], .error .checkViolation⟩

def walletCreate (env : Env) (v : Db) (merchantId : Uuid) (currency : Currency) : Eff WalletRow :=
  let row : WalletRow := ⟨env.uuid, merchantId, currency, .zero, 0, Bigint.zero_nonneg⟩
  if v.wallets.any (fun w => decide (w.merchantId = merchantId ∧ w.currency = currency)) then
    failure .uniqueViolation
  else { insert v (.wallet row) row with locks := [.walletOwner merchantId currency] }

def walletFindById (v : Db) (id : Text) : Eff (Option WalletRow) :=
  match uuidOfText id with
  | none => failure .invalidText
  | some u => read (v.wallet u)

def walletFindByIdForUpdate (v : Db) (id : Uuid) : Eff (Option WalletRow) :=
  match v.wallet id with
  | none => read none
  | some r => lockRow (.wallet id) (some r)

def walletApplyDelta (v : Db) (id : Uuid) (delta : Text) : Eff Unit :=
  match v.wallet id with
  | none => read ()
  | some r => addBalance r delta r.version ()

/-- `version` is an `INTEGER`. -/
def walletApplyDeltaIfVersion (v : Db) (id : Uuid) (delta : Text) (expectedVersion : ℕ) :
    Eff Bool :=
  match v.wallet id with
  | none => read false
  | some r =>
    if r.version = expectedVersion then
      if r.version + 1 < 2 ^ 31 then addBalance r delta (r.version + 1) true
      else ⟨[.wallet r.id], .error .numericOutOfRange⟩
    else read false

def walletFindByMerchantAndCurrency (v : Db) (merchantId : Uuid) (currency : Currency) :
    Eff (Option WalletRow) :=
  read (v.wallets.find? (fun w => decide (w.merchantId = merchantId ∧ w.currency = currency)))

def ledgerCreateTransaction (env : Env) (v : Db) (type : TransactionType) : Eff Uuid :=
  insert v (.transaction ⟨env.uuid, type⟩) env.uuid

def ledgerAddEntry (env : Env) (v : Db) (transactionId walletId : Uuid) (direction : Direction)
    (amount : Text) (currency : Currency) : Eff Unit :=
  insertAmount v amount
    (fun a h => (.entry ⟨env.uuid, transactionId, walletId, direction, a, currency, h⟩, ()))

def intentInsert (env : Env) (v : Db) (merchantId : Uuid) (amount : Text) (currency : Currency)
    (customerReference : Option String) : Eff PaymentIntentRow :=
  insertAmount v amount (fun a h =>
    let row : PaymentIntentRow :=
      ⟨env.uuid, merchantId, a, currency, .requiresConfirmation, customerReference, h⟩
    (.intent row, row))

def intentFindByIdForUpdate (v : Db) (merchantId : Uuid) (id : Text) :
    Eff (Option PaymentIntentRow) :=
  match uuidOfText id with
  | none => failure .invalidText
  | some u =>
    match v.intent u with
    | none => read none
    | some r => if r.merchantId = merchantId then lockRow (.intent u) (some r) else read none

def intentUpdateStatus (v : Db) (id : Uuid) (status : PaymentIntentStatus) : Eff Unit :=
  match v.intent id with
  | none => read ()
  | some r => update (.intent { r with status := status }) ()

def chargeInsert (env : Env) (v : Db) (paymentIntentId merchantId : Uuid) (amount : Text)
    (currency : Currency) (transactionId : Uuid) : Eff ChargeRow :=
  insertAmount v amount (fun a h =>
    let row : ChargeRow :=
      ⟨env.uuid, paymentIntentId, merchantId, a, currency, transactionId, h⟩
    (.charge row, row))

def endpointInsert (env : Env) (v : Db) (merchantId : Uuid) (url secret : String) :
    Eff WebhookEndpointRow :=
  let row : WebhookEndpointRow := ⟨env.uuid, merchantId, url, secret, true⟩
  insert v (.endpoint row) row

def endpointListActiveByMerchant (v : Db) (merchantId : Uuid) : Eff (List WebhookEndpointRow) :=
  read (v.endpoints.filter (fun e => decide (e.merchantId = merchantId) && e.isActive))

def eventEnqueue (env : Env) (v : Db) (merchantId endpointId : Uuid) (eventType : EventType)
    (payload : EventPayload) : Eff Unit :=
  insert v (.event (.enqueued env.uuid merchantId endpointId eventType payload env.now)) ()

def accountInsert (env : Env) (v : Db) (merchantId : Uuid) (currency : Currency)
    (bankName : String) (accountNumber : Text) : Eff PayoutAccountRow :=
  let row : PayoutAccountRow := ⟨env.uuid, merchantId, currency, bankName, accountNumber, true⟩
  if v.accounts.any (fun a => decide (a.merchantId = merchantId ∧ a.currency = currency)) then
    failure .uniqueViolation
  else { insert v (.account row) row with locks := [.accountOwner merchantId currency] }

def settleable (v : Db) (minAmount : Bigint) (merchantId : Option Uuid) : List SettleableWallet :=
  v.wallets.flatMap (fun w =>
    (v.accounts.filter (fun a => decide (a.merchantId = w.merchantId ∧ a.currency = w.currency) &&
        a.isActive && decide (minAmount.val ≤ w.balance.val) &&
        (match merchantId with | some m => decide (w.merchantId = m) | none => true))).map
      (fun a => ⟨w.id, w.merchantId, w.currency, w.balance, a.id⟩))

def payoutListSettleableWallets (v : Db) (minAmount : Text) (merchantId : Option Uuid) :
    Eff (List SettleableWallet) :=
  match Bigint.parse minAmount with
  | none => failure (bigintFault minAmount)
  | some m => read (settleable v m merchantId)

def payoutCreatePending (env : Env) (v : Db) (merchantId walletId payoutAccountId : Uuid)
    (currency : Currency) (amount : Text) (transactionId : Uuid) : Eff PayoutRow :=
  insertAmount v amount (fun a h =>
    let row : PayoutRow :=
      ⟨env.uuid, merchantId, walletId, payoutAccountId, currency, a, .pending, transactionId,
        none, 0, env.now, none, h⟩
    (.payout row, row))

/-- `status = 'pending' AND next_attempt_at <= now()`, of one merchant if given. -/
def due (now : ℕ) (merchantId : Option Uuid) (p : PayoutRow) : Bool :=
  decide (p.status = .pending ∧ p.nextAttemptAt ≤ now) &&
    (match merchantId with | some m => decide (p.merchantId = m) | none => true)

/-- The rows `claimDue` takes: due, not locked (`SKIP LOCKED`), oldest first. -/
def claimable (now : ℕ) (busy : Loc → Bool) (v : Db) (limit : ℕ) (merchantId : Option Uuid) :
    List PayoutRow :=
  ((v.payouts.filter (fun p => due now merchantId p && !busy (.payout p.id))).insertionSort
    (fun a b => a.nextAttemptAt ≤ b.nextAttemptAt)).take limit

def payoutClaimDue (env : Env) (busy : Loc → Bool) (v : Db) (limit leaseSeconds : ℕ)
    (merchantId : Option Uuid) : Eff (List PayoutRow) :=
  let rows := (claimable env.now busy v limit merchantId).map
    (fun p => { p with nextAttemptAt := env.now + seconds leaseSeconds })
  ⟨[], .ok (rows, rows.map .payout)⟩

def payoutMarkPaid (v : Db) (id : Uuid) : Eff Unit :=
  match v.payout id with
  | none => read ()
  | some r => update (.payout { r with status := .paid }) ()

def payoutMarkRetry (env : Env) (v : Db) (id : Uuid) (attempts backoffSeconds : ℕ)
    (error : String) : Eff Unit :=
  match v.payout id with
  | none => read ()
  | some r =>
    update (.payout { r with
      attempts := attempts
      nextAttemptAt := env.now + seconds backoffSeconds
      failureReason := some error }) ()

def payoutMarkFailed (v : Db) (id : Uuid) (attempts : ℕ) (error : String)
    (reversalTransactionId : Uuid) : Eff Unit :=
  match v.payout id with
  | none => read ()
  | some r =>
    update (.payout { r with
      status := .failed
      attempts := attempts
      failureReason := some error
      reversalTransactionId := some reversalTransactionId }) ()

def payoutListByMerchant (v : Db) (merchantId : Uuid) : Eff (List PayoutRow) :=
  read (v.payouts.filter (fun p => decide (p.merchantId = merchantId))).reverse

/-- `UNIQUE (merchant_id, key)`. -/
def idempotencyInsert (v : Db) (merchantId : Uuid) (key requestHash : Text) : Eff Unit :=
  if (v.idempotency merchantId key).isSome then failure .uniqueViolation
  else ⟨[], .ok ((),
    [.idempotency ⟨merchantId, key, some ⟨requestHash, .inProgress, none, none⟩⟩])⟩

def idempotencyComplete (v : Db) (merchantId : Uuid) (key : Text) (responseStatus : ℕ)
    (responseBody : Option ResponseBody) : Eff Unit :=
  match v.idempotency merchantId key with
  | none => read ()
  | some r =>
    update (.idempotency ⟨merchantId, key, some { r with
      status := .completed
      responseStatus := some responseStatus
      responseBody := responseBody }⟩) ()

/-- `DELETE`. -/
def idempotencyRelease (v : Db) (merchantId : Uuid) (key : Text) : Eff Unit :=
  match v.idempotency merchantId key with
  | none => read ()
  | some _ => ⟨[], .ok ((), [.idempotency ⟨merchantId, key, none⟩])⟩

/-- The effect of a statement on the rows its transaction sees. -/
def exec : (s : Stmt) → Env → (Loc → Bool) → Db → Eff (Resp s)
  | .walletCreate m c, env, _, v => walletCreate env v m c
  | .walletFindById id, _, _, v => walletFindById v id
  | .walletFindByIdForUpdate id, _, _, v => walletFindByIdForUpdate v id
  | .walletApplyDelta id delta, _, _, v => walletApplyDelta v id delta
  | .walletApplyDeltaIfVersion id delta n, _, _, v => walletApplyDeltaIfVersion v id delta n
  | .walletFindByMerchantAndCurrency m c, _, _, v => walletFindByMerchantAndCurrency v m c
  | .ledgerCreateTransaction type, env, _, v => ledgerCreateTransaction env v type
  | .ledgerAddEntry t w dir amount c, env, _, v => ledgerAddEntry env v t w dir amount c
  | .intentInsert m amount c ref, env, _, v => intentInsert env v m amount c ref
  | .intentFindByIdForUpdate m id, _, _, v => intentFindByIdForUpdate v m id
  | .intentUpdateStatus id status, _, _, v => intentUpdateStatus v id status
  | .chargeInsert i m amount c t, env, _, v => chargeInsert env v i m amount c t
  | .endpointInsert m url secret, env, _, v => endpointInsert env v m url secret
  | .endpointListActiveByMerchant m, _, _, v => endpointListActiveByMerchant v m
  | .eventEnqueue m e type payload, env, _, v => eventEnqueue env v m e type payload
  | .accountInsert m c bank number, env, _, v => accountInsert env v m c bank number
  | .accountFindById id, _, _, v => read (v.account id)
  | .payoutListSettleableWallets min m, _, _, v => payoutListSettleableWallets v min m
  | .payoutCreatePending m w a c amount t, env, _, v => payoutCreatePending env v m w a c amount t
  | .payoutClaimDue limit lease m, env, busy, v => payoutClaimDue env busy v limit lease m
  | .payoutMarkPaid id, _, _, v => payoutMarkPaid v id
  | .payoutMarkRetry id attempts backoff error, env, _, v =>
    payoutMarkRetry env v id attempts backoff error
  | .payoutMarkFailed id attempts error t, _, _, v => payoutMarkFailed v id attempts error t
  | .payoutListByMerchant m, _, _, v => payoutListByMerchant v m
  | .idempotencyInsert m key hash, _, _, v => idempotencyInsert v m key hash
  | .idempotencyGet m key, _, _, v => read (v.idempotency m key)
  | .idempotencyComplete m key status body, _, _, v => idempotencyComplete v m key status body
  | .idempotencyRelease m key, _, _, v => idempotencyRelease v m key

end Sql

end PaymentApis
