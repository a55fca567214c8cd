import PaymentApis.Statements
import PaymentApis.Lib.Program

/-!
# The services

Wallet, transfer, payment, webhook and payout services, written as client
programs of the store: `withTransaction` is `Client.transaction`, a query on the
pool is `Client.exec`, and the bank is a call to the outside. Request bodies
are values of the DTO types, which carry what the zod schemas check.
-/

namespace PaymentApis

open TxStore

/-- `String.prototype.length`: UTF-16 code units. -/
def jsLength (s : List Char) : ℕ :=
  (s.map (fun c => if c.toNat < 65536 then 1 else 2)).sum

/-! ## Request bodies -/

/-- `createTransferSchema`. -/
structure CreateTransferDto where
  fromWalletId : Text
  toWalletId : Text
  amount : IntDouble
  fromUuid : isUuidText fromWalletId = true
  toUuid : isUuidText toWalletId = true
  different : fromWalletId ≠ toWalletId

/-- `createPaymentIntentSchema`. -/
structure CreatePaymentIntentDto where
  amount : IntDouble
  currency : Currency
  customerReference : Option String
  referenceMax : ∀ s ∈ customerReference, jsLength s.toList ≤ 255

theorem noReference : ∀ s ∈ (none : Option String), jsLength s.toList ≤ 255 := by simp

/-- `registerPayoutAccountSchema`. -/
structure RegisterPayoutAccountDto where
  currency : Currency
  bankName : String
  accountNumber : Text
  bankNameLength : 1 ≤ jsLength bankName.toList ∧ jsLength bankName.toList ≤ 255
  accountNumberLength : 6 ≤ jsLength accountNumber ∧ jsLength accountNumber ≤ 34

/-! ## Results -/

structure PublicWallet where
  id : Uuid
  currency : Currency
  balance : Bigint

structure PublicPaymentIntent where
  id : Uuid
  amount : Bigint
  currency : Currency
  status : PaymentIntentStatus
  customerReference : Option String

structure PublicCharge where
  id : Uuid
  paymentIntentId : Uuid
  amount : Bigint
  currency : Currency
  transactionId : Uuid

structure PublicPayoutAccount where
  id : Uuid
  currency : Currency
  bankName : String
  accountLast4 : Text
  isActive : Bool

structure PublicPayout where
  id : Uuid
  walletId : Uuid
  payoutAccountId : Uuid
  currency : Currency
  amount : Bigint
  status : PayoutStatus
  attempts : ℕ
  failureReason : Option String

structure RegisteredWebhookEndpoint where
  id : Uuid
  url : String
  isActive : Bool
  secret : String

/-! ## Programs -/

/-- The transactions the services open, each with what it works on. -/
inductive TxnName
  | transfer (callerMerchantId : Uuid) (dto : CreateTransferDto)
  | confirm (merchantId : Uuid) (id : Text)
  | cancel (merchantId : Uuid) (id : Text)
  | sweep (w : SettleableWallet)
  | paid (payout : PayoutRow)
  | reversal (payout : PayoutRow)

/-- A transfer to a bank account on behalf of a payout. -/
structure BankTransfer where
  payoutId : Uuid
  account : PayoutAccountRow

abbrev Tx := Body Stmt Resp Err

abbrev Prog := Client Stmt Resp Err TxnName BankTransfer

/-- A statement of a transaction. -/
abbrev sql (s : Stmt) : Tx (Resp s) := Body.call s

/-- A statement on the pool. -/
abbrev query (s : Stmt) : Prog (Resp s) := Client.exec s

/-! ### `wallets/wallet.service.ts` -/

def toPublicWallet (row : WalletRow) : PublicWallet := ⟨row.id, row.currency, row.balance⟩

namespace walletService

def create (merchantId : Uuid) (currency : Currency) : Prog PublicWallet := do
  let row ← (query (.walletCreate merchantId currency)).tryCatch (fun err =>
    if err = .db .uniqueViolation then .throw (.app (.walletAlreadyExists currency))
    else .throw err)
  return toPublicWallet row

end walletService

/-! ### `transfers/transfer.service.ts` -/

namespace transferService

def MAX_RETRIES : ℕ := 5

def validate (fromRow toRow : Option WalletRow) (callerMerchantId : Uuid)
    (amountMinor : IntDouble) : Except Err (WalletRow × WalletRow × ℕ) :=
  match fromRow, toRow with
  | none, _ => .error (.app (.walletNotFound "source"))
  | some _, none => .error (.app (.walletNotFound "destination"))
  | some fromW, some toW =>
    if fromW.merchantId ≠ callerMerchantId then
      .error (.app (.forbidden "You do not own the source wallet"))
    else if fromW.currency ≠ toW.currency then .error (.app .currencyMismatch)
    else if fromW.balance.val < amountMinor.val then .error (.app .insufficientFunds)
    else .ok (fromW, toW, amountMinor.val)

/-- The ledger lines carry `amountMinor.toString()`. -/
def recordLedger (fromW toW : WalletRow) (amountMinor : IntDouble) : Tx Uuid := do
  let transactionId ← sql (.ledgerCreateTransaction .transfer)
  sql (.ledgerAddEntry transactionId fromW.id .debit (numText amountMinor.val) fromW.currency)
  sql (.ledgerAddEntry transactionId toW.id .credit (numText amountMinor.val) toW.currency)
  return transactionId

/-- One attempt: plain reads, ledger lines, and the two conditional updates,
whose deltas carry `BigInt(amountMinor).toString()`. -/
def attempt (callerMerchantId : Uuid) (dto : CreateTransferDto) : Tx TransferResult := do
  let fromRow ← sql (.walletFindById dto.fromWalletId)
  let toRow ← sql (.walletFindById dto.toWalletId)
  let v ← Body.ofExcept (validate fromRow toRow callerMerchantId dto.amount)
  let transactionId ← recordLedger v.1 v.2.1 dto.amount
  let okFrom ← sql (.walletApplyDeltaIfVersion v.1.id (intText (-(v.2.2 : ℤ))) v.1.version)
  let okTo ← sql (.walletApplyDeltaIfVersion v.2.1.id (intText v.2.2) v.2.1.version)
  if !okFrom || !okTo then .throw (.app .concurrencyConflict)
  else return ⟨transactionId, v.1.id, v.2.1.id, dto.amount, v.1.currency⟩

/-- The retry loop with `n` attempts left. -/
def attempts (callerMerchantId : Uuid) (dto : CreateTransferDto) : ℕ → Prog TransferResult
  | 0 => .throw (.app .concurrencyConflict)
  | n + 1 =>
    (Client.transaction (.transfer callerMerchantId dto) (attempt callerMerchantId dto)).tryCatch
      (fun err =>
        if err = .app .concurrencyConflict ∧ 0 < n then attempts callerMerchantId dto n
        else .throw err)

def transfer (callerMerchantId : Uuid) (dto : CreateTransferDto) : Prog TransferResult :=
  attempts callerMerchantId dto MAX_RETRIES

end transferService

/-! ### `POST /transfers` -/

/-- What `res.status(..).json(..)` sends; `body` is `none` for `null`. -/
structure Response where
  status : ℕ
  body : Option ResponseBody
deriving DecidableEq

/-- Of the 500 body, the request id is left out. -/
def errorHandler : Err → Response
  | .app e => ⟨e.statusCode, some (.error e.code e.message)⟩
  | _ => ⟨500, some (.error "internal_error" "Something went wrong")⟩

def transferController.create (merchantId : Uuid) (dto : CreateTransferDto) : Prog Response := do
  let result ← transferService.transfer merchantId dto
  return ⟨201, some (.transfer result)⟩

/-- `claim`: whether the row was created, and the row found otherwise. -/
def idempotencyRepository.claim (merchantId : Uuid) (key requestHash : Text) :
    Prog (Bool × Option IdempotencyRow) :=
  (do
    query (.idempotencyInsert merchantId key requestHash)
    return (true, none)).tryCatch (fun err =>
      if err = Err.db .uniqueViolation then do
        let existing ← query (.idempotencyGet merchantId key)
        return (false, existing)
      else .throw err)

namespace idempotency

/-- The overridden `res.json`: the response is saved, or the key freed after a
server error, before it is sent; a failure to do so is only logged. -/
def persist (merchantId : Uuid) (key : Text) (res : Response) : Prog Response := do
  (if 500 ≤ res.status then query (.idempotencyRelease merchantId key)
    else query (.idempotencyComplete merchantId key res.status res.body)).tryCatch
      (fun _ => pure ())
  return res

/-- The answer of a request whose key was claimed before it. -/
def replay (existing : IdempotencyRow) (requestHash : Text) : Prog Response :=
  if existing.requestHash ≠ requestHash then .throw (.app .idempotencyKeyReuse)
  else if existing.status = .inProgress then .throw (.app .idempotencyInProgress)
  else return ⟨existing.responseStatus.getD 200, existing.responseBody⟩

end idempotency

/-- The middleware around `next`, with the request's key and its `hashRequest`. -/
def idempotency (merchantId : Uuid) (key : Option Text) (requestHash : Text) (next : Prog Response) :
    Prog Response :=
  match key with
  | none => .throw (.app .idempotencyKeyRequired)
  | some key =>
    if key = [] then .throw (.app .idempotencyKeyRequired)
    else do
      let claimed ← idempotencyRepository.claim merchantId key requestHash
      match claimed with
      | (false, some existing) => idempotency.replay existing requestHash
      | _ => do
        let res ← next.tryCatch (fun err => return errorHandler err)
        idempotency.persist merchantId key res

/-- `transferRouter.post("/", ...)`, after authentication and `validateBody`. -/
def postTransfer (merchantId : Uuid) (key : Option Text) (requestHash : Text)
    (dto : CreateTransferDto) : Prog Response :=
  (idempotency merchantId key requestHash (transferController.create merchantId dto)).tryCatch
    (fun err => return errorHandler err)

/-! ### `webhooks/webhook.service.ts` -/

namespace webhookService

def enqueueAll (merchantId : Uuid) (eventType : EventType) (data : EventData) :
    List WebhookEndpointRow → Tx Unit
  | [] => return ()
  | endpoint :: rest => do
    sql (.eventEnqueue merchantId endpoint.id eventType ⟨eventType, data⟩)
    enqueueAll merchantId eventType data rest

def emit (merchantId : Uuid) (eventType : EventType) (data : EventData) : Tx Unit := do
  let endpoints ← sql (.endpointListActiveByMerchant merchantId)
  enqueueAll merchantId eventType data endpoints

/-- `secret` is the random value drawn for the endpoint. -/
def registerEndpoint (merchantId : Uuid) (url secret : String) :
    Prog RegisteredWebhookEndpoint := do
  let row ← query (.endpointInsert merchantId url ("whsec_" ++ secret))
  return ⟨row.id, row.url, row.isActive, row.secret⟩

end webhookService

/-! ### `payments/payment.service.ts` -/

def toPublicIntent (row : PaymentIntentRow) : PublicPaymentIntent :=
  ⟨row.id, row.amount, row.currency, row.status, row.customerReference⟩

def toPublicCharge (row : ChargeRow) : PublicCharge :=
  ⟨row.id, row.paymentIntentId, row.amount, row.currency, row.transactionId⟩

namespace paymentService

def TRANSITIONS : PaymentIntentStatus → List PaymentIntentStatus
  | .requiresConfirmation => [.succeeded, .canceled]
  | .succeeded => []
  | .canceled => []

def assertTransition (status next : PaymentIntentStatus) (action : String) : Except Err Unit :=
  if next ∈ TRANSITIONS status then .ok () else .error (.app (.invalidStateTransition status action))

def create (merchantId : Uuid) (dto : CreatePaymentIntentDto) : Prog PublicPaymentIntent := do
  let wallet ← query (.walletFindByMerchantAndCurrency merchantId dto.currency)
  match wallet with
  | none => .throw (.app (.noWalletForCurrency dto.currency))
  | some _ =>
    let row ← query
      (.intentInsert merchantId (numText dto.amount.val) dto.currency dto.customerReference)
    return toPublicIntent row

def confirmTxn (merchantId : Uuid) (id : Text) : Tx (PublicPaymentIntent × PublicCharge) := do
  let found ← sql (.intentFindByIdForUpdate merchantId id)
  match found with
  | none => .throw (.app .paymentIntentNotFound)
  | some intent =>
    let _ ← Body.ofExcept (assertTransition intent.status .succeeded "confirm")
    let walletRow ← sql (.walletFindByMerchantAndCurrency merchantId intent.currency)
    match walletRow with
    | none => .throw (.app (.noWalletForCurrency intent.currency))
    | some wallet =>
      let transactionId ← sql (.ledgerCreateTransaction .charge)
      sql (.ledgerAddEntry transactionId wallet.id .credit intent.amount.text intent.currency)
      sql (.walletApplyDelta wallet.id intent.amount.text)
      let charge ← sql
        (.chargeInsert intent.id merchantId intent.amount.text intent.currency transactionId)
      sql (.intentUpdateStatus intent.id .succeeded)
      webhookService.emit merchantId .paymentSucceeded
        (.payment intent.id charge.id intent.amount intent.currency)
      return (toPublicIntent { intent with status := .succeeded }, toPublicCharge charge)

def confirm (merchantId : Uuid) (id : Text) : Prog (PublicPaymentIntent × PublicCharge) :=
  Client.transaction (.confirm merchantId id) (confirmTxn merchantId id)

def cancelTxn (merchantId : Uuid) (id : Text) : Tx PublicPaymentIntent := do
  let found ← sql (.intentFindByIdForUpdate merchantId id)
  match found with
  | none => .throw (.app .paymentIntentNotFound)
  | some intent =>
    let _ ← Body.ofExcept (assertTransition intent.status .canceled "cancel")
    sql (.intentUpdateStatus intent.id .canceled)
    return toPublicIntent { intent with status := .canceled }

def cancel (merchantId : Uuid) (id : Text) : Prog PublicPaymentIntent :=
  Client.transaction (.cancel merchantId id) (cancelTxn merchantId id)

end paymentService

/-! ### `payouts/payout.service.ts` -/

def toPublicAccount (row : PayoutAccountRow) : PublicPayoutAccount :=
  ⟨row.id, row.currency, row.bankName,
    row.accountNumber.drop (row.accountNumber.length - 4), row.isActive⟩

def toPublicPayout (row : PayoutRow) : PublicPayout :=
  ⟨row.id, row.walletId, row.payoutAccountId, row.currency, row.amount, row.status, row.attempts,
    row.failureReason⟩

/-- A bad account is one whose number ends in "0000". -/
def simulateBankTransfer (x : BankTransfer) : Except Err Unit :=
  if ['0', '0', '0', '0'].isSuffixOf x.account.accountNumber then
    .error (.error "bank rejected: invalid account")
  else .ok ()

namespace payoutService

def MAX_ATTEMPTS : ℕ := 3

def backoffSeconds (attempt : ℕ) : ℕ := min (10 * 2 ^ (attempt - 1)) 300

def registerAccount (merchantId : Uuid) (dto : RegisterPayoutAccountDto) :
    Prog PublicPayoutAccount := do
  let row ← (query
      (.accountInsert merchantId dto.currency dto.bankName dto.accountNumber)).tryCatch (fun err =>
    if err = .db .uniqueViolation then .throw (.app (.walletAlreadyExists dto.currency))
    else .throw err)
  return toPublicAccount row

/-- The transaction of one swept wallet; `min` is `MIN_PAYOUT_AMOUNT`. -/
def sweepTxn (min : ℤ) (w : SettleableWallet) : Tx Bool := do
  let found ← sql (.walletFindByIdForUpdate w.walletId)
  match found with
  | none => return false
  | some wallet =>
    if wallet.balance.val < min then return false
    else
      let txnId ← sql (.ledgerCreateTransaction .payout)
      sql (.ledgerAddEntry txnId wallet.id .debit (intText wallet.balance.val) wallet.currency)
      sql (.walletApplyDelta wallet.id (intText (-wallet.balance.val)))
      let _ ← sql (.payoutCreatePending wallet.merchantId wallet.id w.accountId wallet.currency
        (intText wallet.balance.val) txnId)
      return true

def sweepAll (min : ℤ) : List SettleableWallet → ℕ → Prog ℕ
  | [], created => return created
  | w :: ws, created => do
    let didCreate ← Client.transaction (.sweep w) (sweepTxn min w)
    sweepAll min ws (if didCreate then created + 1 else created)

def sweep (min : ℤ) (merchantId : Option Uuid) : Prog ℕ := do
  let settleable ← query (.payoutListSettleableWallets (intText min) merchantId)
  sweepAll min settleable 0

def paidTxn (payout : PayoutRow) : Tx Unit := do
  sql (.payoutMarkPaid payout.id)
  webhookService.emit payout.merchantId .payoutPaid
    (.payout payout.id payout.amount payout.currency none)

def reversalTxn (payout : PayoutRow) (attempts : ℕ) (message : String) : Tx Unit := do
  let found ← sql (.walletFindByIdForUpdate payout.walletId)
  match found with
  | none => .throw (.error "wallet missing for reversal")
  | some wallet =>
    let revTxnId ← sql (.ledgerCreateTransaction .payoutReversal)
    sql (.ledgerAddEntry revTxnId wallet.id .credit (intText payout.amount.val) payout.currency)
    sql (.walletApplyDelta wallet.id (intText payout.amount.val))
    sql (.payoutMarkFailed payout.id attempts message revTxnId)
    webhookService.emit payout.merchantId .payoutFailed
      (.payout payout.id payout.amount payout.currency (some message))

/-- The `try` block of `processOne`. -/
def sendToBank (payout : PayoutRow) (found : Option PayoutAccountRow) : Prog Unit :=
  match found with
  | none => .throw (.error "payout account unavailable")
  | some account =>
    if account.isActive then do
      Client.external ⟨payout.id, account⟩
      Client.transaction (.paid payout) (paidTxn payout)
    else .throw (.error "payout account unavailable")

/-- The `catch` block of `processOne`. -/
def retryOrReverse (payout : PayoutRow) (err : Err) : Prog Unit :=
  if payout.attempts + 1 < MAX_ATTEMPTS then
    query (.payoutMarkRetry payout.id (payout.attempts + 1)
      (backoffSeconds (payout.attempts + 1)) err.message)
  else
    Client.transaction (.reversal payout) (reversalTxn payout (payout.attempts + 1) err.message)

def processOne (payout : PayoutRow) : Prog Unit := do
  let account ← query (.accountFindById payout.payoutAccountId)
  (sendToBank payout account).tryCatch (retryOrReverse payout)

def processAll : List PayoutRow → Prog Unit
  | [] => return ()
  | payout :: rest => do
    processOne payout
    processAll rest

def processDuePayouts (limit : ℕ) (merchantId : Option Uuid) : Prog ℕ := do
  let due ← query (.payoutClaimDue limit 60 merchantId)
  processAll due
  return due.length

def settleNow (min : ℤ) (merchantId : Uuid) : Prog (List PublicPayout) := do
  let _ ← sweep min (some merchantId)
  let _ ← processDuePayouts 100 (some merchantId)
  let rows ← query (.payoutListByMerchant merchantId)
  return rows.map toPublicPayout

end payoutService

/-! ### `settlement-worker.ts` -/

def PROCESS_BATCH : ℕ := 50

def tick (min : ℤ) : Prog Unit := do
  let _ ← payoutService.sweep min none
  let _ ← payoutService.processDuePayouts PROCESS_BATCH none
  return ()

end PaymentApis
