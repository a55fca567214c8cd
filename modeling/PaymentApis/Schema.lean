import PaymentApis.Lib.Double
import PaymentApis.Lib.Table

/-!
# The schema: `migrations/*.sql`

One row type per table. A `CHECK` on a single row is a field of its type, so a
row that breaks it cannot be built. All tables live in one keyed store: a
`Row` is a row of some table, its `key` names the table and the primary key.
The two unique constraints on (merchant, currency) have keys of their own,
which hold no row and are only locked.

Timestamps count microseconds.
-/

namespace PaymentApis

open TxStore

abbrev Uuid := ℕ

def seconds (n : ℕ) : ℕ := 1000000 * n

/-- `SUPPORTED_CURRENCIES`. -/
inductive Currency
  | NGN
  | USD
deriving DecidableEq

structure WalletRow where
  id : Uuid
  merchantId : Uuid
  currency : Currency
  balance : Bigint
  version : ℕ
  check : 0 ≤ balance.val
deriving DecidableEq

inductive TransactionType
  | deposit
  | transfer
  | withdrawal
  | charge
  | payout
  | payoutReversal
deriving DecidableEq

structure TransactionRow where
  id : Uuid
  type : TransactionType
deriving DecidableEq

inductive Direction
  | debit
  | credit
deriving DecidableEq

structure LedgerEntryRow where
  id : Uuid
  transactionId : Uuid
  walletId : Uuid
  direction : Direction
  amount : Bigint
  currency : Currency
  check : 0 < amount.val
deriving DecidableEq

inductive PaymentIntentStatus
  | requiresConfirmation
  | succeeded
  | canceled
deriving DecidableEq

structure PaymentIntentRow where
  id : Uuid
  merchantId : Uuid
  amount : Bigint
  currency : Currency
  status : PaymentIntentStatus
  customerReference : Option String
  check : 0 < amount.val
deriving DecidableEq

structure ChargeRow where
  id : Uuid
  paymentIntentId : Uuid
  merchantId : Uuid
  amount : Bigint
  currency : Currency
  transactionId : Uuid
  check : 0 < amount.val
deriving DecidableEq

structure WebhookEndpointRow where
  id : Uuid
  merchantId : Uuid
  url : String
  secret : String
  isActive : Bool
deriving DecidableEq

inductive EventType
  | paymentSucceeded
  | payoutPaid
  | payoutFailed
deriving DecidableEq

/-- The `data` of an event's payload. -/
inductive EventData
  | payment (paymentIntentId chargeId : Uuid) (amount : Bigint) (currency : Currency)
  | payout (payoutId : Uuid) (amount : Bigint) (currency : Currency) (reason : Option String)
deriving DecidableEq

structure EventPayload where
  type : EventType
  data : EventData
deriving DecidableEq

inductive WebhookEventStatus
  | pending
  | publishing
  | published
  | delivered
  | failed
deriving DecidableEq

structure WebhookEventRow where
  id : Uuid
  merchantId : Uuid
  endpointId : Uuid
  eventType : EventType
  payload : EventPayload
  status : WebhookEventStatus
  attempts : ℕ
  nextAttemptAt : ℕ
  lastError : Option String
  createdAt : ℕ
  updatedAt : ℕ
deriving DecidableEq

/-- A row as it is inserted, the columns' defaults filled in. -/
@[simps] def WebhookEventRow.enqueued (id merchantId endpointId : Uuid) (eventType : EventType)
    (payload : EventPayload) (now : ℕ) : WebhookEventRow :=
  ⟨id, merchantId, endpointId, eventType, payload, .pending, 0, now, none, now, now⟩

structure PayoutAccountRow where
  id : Uuid
  merchantId : Uuid
  currency : Currency
  bankName : String
  accountNumber : Text
  isActive : Bool
deriving DecidableEq

inductive PayoutStatus
  | pending
  | paid
  | failed
deriving DecidableEq

structure PayoutRow where
  id : Uuid
  merchantId : Uuid
  walletId : Uuid
  payoutAccountId : Uuid
  currency : Currency
  amount : Bigint
  status : PayoutStatus
  transactionId : Uuid
  reversalTransactionId : Option Uuid
  attempts : ℕ
  nextAttemptAt : ℕ
  failureReason : Option String
  check : 0 < amount.val
deriving DecidableEq

structure TransferResult where
  transactionId : Uuid
  fromWalletId : Uuid
  toWalletId : Uuid
  amount : IntDouble
  currency : Currency
deriving DecidableEq

/-- The JSON bodies `POST /transfers` answers with. -/
inductive ResponseBody
  | transfer (result : TransferResult)
  | error (code message : String)
deriving DecidableEq

inductive IdempotencyStatus
  | inProgress
  | completed
deriving DecidableEq

structure IdempotencyRow where
  requestHash : Text
  status : IdempotencyStatus
  responseStatus : Option ℕ
  responseBody : Option ResponseBody
deriving DecidableEq

/-- The place of a (merchant, key) in `idempotency_keys`, the one table rows are
deleted from: a deleted row leaves its place empty. -/
structure IdempotencySlot where
  merchantId : Uuid
  key : Text
  row : Option IdempotencyRow
deriving DecidableEq

inductive Row
  | wallet (r : WalletRow)
  | transaction (r : TransactionRow)
  | entry (r : LedgerEntryRow)
  | intent (r : PaymentIntentRow)
  | charge (r : ChargeRow)
  | endpoint (r : WebhookEndpointRow)
  | event (r : WebhookEventRow)
  | account (r : PayoutAccountRow)
  | payout (r : PayoutRow)
  | idempotency (r : IdempotencySlot)
deriving DecidableEq

inductive Loc
  | wallet (id : Uuid)
  | walletOwner (merchantId : Uuid) (currency : Currency)
  | transaction (id : Uuid)
  | entry (id : Uuid)
  | intent (id : Uuid)
  | charge (id : Uuid)
  | endpoint (id : Uuid)
  | event (id : Uuid)
  | account (id : Uuid)
  | accountOwner (merchantId : Uuid) (currency : Currency)
  | payout (id : Uuid)
  | idempotency (merchantId : Uuid) (key : Text)
deriving DecidableEq

@[simp] def Row.key : Row → Loc
  | .wallet r => .wallet r.id
  | .transaction r => .transaction r.id
  | .entry r => .entry r.id
  | .intent r => .intent r.id
  | .charge r => .charge r.id
  | .endpoint r => .endpoint r.id
  | .event r => .event r.id
  | .account r => .account r.id
  | .payout r => .payout r.id
  | .idempotency r => .idempotency r.merchantId r.key

abbrev Db := Table Row Loc Row.key

/-! ## Rows of one table -/

def Row.asWallet : Row → Option WalletRow
  | .wallet r => some r
  | _ => none

@[simp] theorem Row.asWallet_eq_some {x : Row} {r : WalletRow} :
    x.asWallet = some r ↔ x = .wallet r := by
  cases x <;> simp [Row.asWallet]

def Row.asTransaction : Row → Option TransactionRow
  | .transaction r => some r
  | _ => none

@[simp] theorem Row.asTransaction_eq_some {x : Row} {r : TransactionRow} :
    x.asTransaction = some r ↔ x = .transaction r := by
  cases x <;> simp [Row.asTransaction]

def Row.asEntry : Row → Option LedgerEntryRow
  | .entry r => some r
  | _ => none

@[simp] theorem Row.asEntry_eq_some {x : Row} {r : LedgerEntryRow} :
    x.asEntry = some r ↔ x = .entry r := by
  cases x <;> simp [Row.asEntry]

def Row.asIntent : Row → Option PaymentIntentRow
  | .intent r => some r
  | _ => none

@[simp] theorem Row.asIntent_eq_some {x : Row} {r : PaymentIntentRow} :
    x.asIntent = some r ↔ x = .intent r := by
  cases x <;> simp [Row.asIntent]

def Row.asCharge : Row → Option ChargeRow
  | .charge r => some r
  | _ => none

@[simp] theorem Row.asCharge_eq_some {x : Row} {r : ChargeRow} :
    x.asCharge = some r ↔ x = .charge r := by
  cases x <;> simp [Row.asCharge]

def Row.asEndpoint : Row → Option WebhookEndpointRow
  | .endpoint r => some r
  | _ => none

@[simp] theorem Row.asEndpoint_eq_some {x : Row} {r : WebhookEndpointRow} :
    x.asEndpoint = some r ↔ x = .endpoint r := by
  cases x <;> simp [Row.asEndpoint]

def Row.asEvent : Row → Option WebhookEventRow
  | .event r => some r
  | _ => none

@[simp] theorem Row.asEvent_eq_some {x : Row} {r : WebhookEventRow} :
    x.asEvent = some r ↔ x = .event r := by
  cases x <;> simp [Row.asEvent]

def Row.asAccount : Row → Option PayoutAccountRow
  | .account r => some r
  | _ => none

@[simp] theorem Row.asAccount_eq_some {x : Row} {r : PayoutAccountRow} :
    x.asAccount = some r ↔ x = .account r := by
  cases x <;> simp [Row.asAccount]

def Row.asPayout : Row → Option PayoutRow
  | .payout r => some r
  | _ => none

@[simp] theorem Row.asPayout_eq_some {x : Row} {r : PayoutRow} :
    x.asPayout = some r ↔ x = .payout r := by
  cases x <;> simp [Row.asPayout]

def Row.asIdempotency : Row → Option IdempotencySlot
  | .idempotency r => some r
  | _ => none

@[simp] theorem Row.asIdempotency_eq_some {x : Row} {r : IdempotencySlot} :
    x.asIdempotency = some r ↔ x = .idempotency r := by
  cases x <;> simp [Row.asIdempotency]

namespace Db

def wallets (d : Db) : List WalletRow := d.rows.filterMap Row.asWallet

def transactions (d : Db) : List TransactionRow := d.rows.filterMap Row.asTransaction

def entries (d : Db) : List LedgerEntryRow := d.rows.filterMap Row.asEntry

def intents (d : Db) : List PaymentIntentRow := d.rows.filterMap Row.asIntent

def charges (d : Db) : List ChargeRow := d.rows.filterMap Row.asCharge

def endpoints (d : Db) : List WebhookEndpointRow := d.rows.filterMap Row.asEndpoint

def events (d : Db) : List WebhookEventRow := d.rows.filterMap Row.asEvent

def accounts (d : Db) : List PayoutAccountRow := d.rows.filterMap Row.asAccount

def payouts (d : Db) : List PayoutRow := d.rows.filterMap Row.asPayout

def wallet (d : Db) (id : Uuid) : Option WalletRow := (d.get (.wallet id)).bind Row.asWallet

def intent (d : Db) (id : Uuid) : Option PaymentIntentRow := (d.get (.intent id)).bind Row.asIntent

def account (d : Db) (id : Uuid) : Option PayoutAccountRow :=
  (d.get (.account id)).bind Row.asAccount

def payout (d : Db) (id : Uuid) : Option PayoutRow := (d.get (.payout id)).bind Row.asPayout

/-- The row of a merchant's key in `idempotency_keys`. -/
def idempotency (d : Db) (merchantId : Uuid) (key : Text) : Option IdempotencyRow :=
  ((d.get (.idempotency merchantId key)).bind Row.asIdempotency).bind (·.row)

theorem wallet_eq_some {d : Db} {id : Uuid} {r : WalletRow} :
    d.wallet id = some r ↔ d.get (.wallet id) = some (.wallet r) := by
  simp [wallet, Option.bind_eq_some_iff]

theorem wallet_eq_none {d : Db} {id : Uuid} :
    d.wallet id = none ↔ d.get (.wallet id) = none := by
  unfold wallet
  cases h : d.get (.wallet id) with
  | none => simp
  | some x =>
    have hkey := Table.key_of_get h
    cases x <;> simp [Row.asWallet] at hkey ⊢

theorem id_of_wallet {d : Db} {id : Uuid} {r : WalletRow} (h : d.wallet id = some r) :
    r.id = id := by
  simpa using Table.key_of_get (wallet_eq_some.mp h)

theorem intent_eq_some {d : Db} {id : Uuid} {r : PaymentIntentRow} :
    d.intent id = some r ↔ d.get (.intent id) = some (.intent r) := by
  simp [intent, Option.bind_eq_some_iff]

theorem account_eq_some {d : Db} {id : Uuid} {r : PayoutAccountRow} :
    d.account id = some r ↔ d.get (.account id) = some (.account r) := by
  simp [account, Option.bind_eq_some_iff]

theorem payout_eq_some {d : Db} {id : Uuid} {r : PayoutRow} :
    d.payout id = some r ↔ d.get (.payout id) = some (.payout r) := by
  simp [payout, Option.bind_eq_some_iff]

theorem id_of_payout {d : Db} {id : Uuid} {r : PayoutRow} (h : d.payout id = some r) :
    r.id = id := by
  simpa using Table.key_of_get (payout_eq_some.mp h)

theorem mem_wallets {d : Db} {r : WalletRow} :
    r ∈ d.wallets ↔ d.get (.wallet r.id) = some (.wallet r) := by
  simpa [wallets] using Table.mem_iff_get (t := d) (r := .wallet r)

theorem mem_transactions {d : Db} {r : TransactionRow} :
    r ∈ d.transactions ↔ d.get (.transaction r.id) = some (.transaction r) := by
  simpa [transactions] using Table.mem_iff_get (t := d) (r := .transaction r)

theorem mem_intents {d : Db} {r : PaymentIntentRow} :
    r ∈ d.intents ↔ d.get (.intent r.id) = some (.intent r) := by
  simpa [intents] using Table.mem_iff_get (t := d) (r := .intent r)

theorem id_of_intent {d : Db} {id : Uuid} {r : PaymentIntentRow} (h : d.intent id = some r) :
    r.id = id := by
  simpa using Table.key_of_get (intent_eq_some.mp h)

theorem mem_endpoints {d : Db} {r : WebhookEndpointRow} :
    r ∈ d.endpoints ↔ d.get (.endpoint r.id) = some (.endpoint r) := by
  simpa [endpoints] using Table.mem_iff_get (t := d) (r := .endpoint r)

theorem mem_events {d : Db} {r : WebhookEventRow} :
    r ∈ d.events ↔ d.get (.event r.id) = some (.event r) := by
  simpa [events] using Table.mem_iff_get (t := d) (r := .event r)

theorem mem_charges {d : Db} {r : ChargeRow} :
    r ∈ d.charges ↔ d.get (.charge r.id) = some (.charge r) := by
  simpa [charges] using Table.mem_iff_get (t := d) (r := .charge r)

theorem mem_entries {d : Db} {r : LedgerEntryRow} :
    r ∈ d.entries ↔ d.get (.entry r.id) = some (.entry r) := by
  simpa [entries] using Table.mem_iff_get (t := d) (r := .entry r)

theorem mem_accounts {d : Db} {r : PayoutAccountRow} :
    r ∈ d.accounts ↔ d.get (.account r.id) = some (.account r) := by
  simpa [accounts] using Table.mem_iff_get (t := d) (r := .account r)

theorem mem_payouts {d : Db} {r : PayoutRow} :
    r ∈ d.payouts ↔ d.get (.payout r.id) = some (.payout r) := by
  simpa [payouts] using Table.mem_iff_get (t := d) (r := .payout r)

theorem keys_sublist {α : Type} {as : Row → Option α} {loc : α → Loc}
    (h : ∀ x a, as x = some a → x.key = loc a) (rows : List Row) :
    ((rows.filterMap as).map loc).Sublist (rows.map Row.key) := by
  induction rows with
  | nil => exact List.Sublist.refl _
  | cons x xs ih =>
    cases hx : as x with
    | none =>
      rw [List.filterMap_cons_none hx]
      exact ih.cons _
    | some a =>
      rw [List.filterMap_cons_some hx, List.map_cons, List.map_cons, h x a hx]
      exact ih.cons_cons _

theorem nodup_wallets (d : Db) : (d.wallets.map (·.id)).Nodup := by
  have hkeys : (d.wallets.map (fun r => Loc.wallet r.id)).Sublist (d.rows.map Row.key) :=
    keys_sublist (fun x r h => by rw [Row.asWallet_eq_some.mp h, Row.key]) d.rows
  apply List.Nodup.of_map Loc.wallet
  rw [List.map_map]
  exact d.nodup.sublist hkeys

theorem nodup_intents (d : Db) : (d.intents.map (·.id)).Nodup := by
  have hkeys : (d.intents.map (fun r => Loc.intent r.id)).Sublist (d.rows.map Row.key) :=
    keys_sublist (fun x r h => by rw [Row.asIntent_eq_some.mp h, Row.key]) d.rows
  apply List.Nodup.of_map Loc.intent
  rw [List.map_map]
  exact d.nodup.sublist hkeys

theorem nodup_endpoints (d : Db) : (d.endpoints.map (·.id)).Nodup := by
  have hkeys : (d.endpoints.map (fun r => Loc.endpoint r.id)).Sublist (d.rows.map Row.key) :=
    keys_sublist (fun x r h => by rw [Row.asEndpoint_eq_some.mp h, Row.key]) d.rows
  apply List.Nodup.of_map Loc.endpoint
  rw [List.map_map]
  exact d.nodup.sublist hkeys

theorem nodup_payouts (d : Db) : (d.payouts.map (·.id)).Nodup := by
  have hkeys : (d.payouts.map (fun r => Loc.payout r.id)).Sublist (d.rows.map Row.key) :=
    keys_sublist (fun x r h => by rw [Row.asPayout_eq_some.mp h, Row.key]) d.rows
  apply List.Nodup.of_map Loc.payout
  rw [List.map_map]
  exact d.nodup.sublist hkeys

end Db

/-! ## Identifiers as texts -/

def hexValue (c : Char) : Option ℕ :=
  if '0' ≤ c ∧ c ≤ '9' then some (c.toNat - '0'.toNat)
  else if 'a' ≤ c ∧ c ≤ 'f' then some (c.toNat - 'a'.toNat + 10)
  else if 'A' ≤ c ∧ c ≤ 'F' then some (c.toNat - 'A'.toNat + 10)
  else none

/-- `n` more bytes of a UUID: two hexadecimal digits each, and a hyphen allowed
after every second byte but the last. -/
def uuidBytes : ℕ → Uuid → Text → Option (Uuid × Text)
  | 0, acc, t => some (acc, t)
  | n + 1, acc, a :: b :: t => do
    let x ← hexValue a
    let y ← hexValue b
    let rest := match t with
      | '-' :: t' => if n % 2 = 0 ∧ n ≠ 0 then t' else t
      | _ => t
    uuidBytes n (256 * acc + 16 * x + y) rest
  | _ + 1, _, _ => none

/-- A text read as a `UUID` column value; either letter case, braces allowed. -/
def uuidOfText (t : Text) : Option Uuid :=
  match t with
  | '{' :: t' =>
    match uuidBytes 16 0 t' with
    | some (v, ['}']) => some v
    | _ => none
  | _ =>
    match uuidBytes 16 0 t with
    | some (v, []) => some v
    | _ => none

/-- `z.string().uuid()`: the hyphenated form, either letter case. -/
def isUuidText (t : Text) : Bool :=
  t.length == 36 && t.zipIdx.all (fun ci =>
    if ci.2 = 8 ∨ ci.2 = 13 ∨ ci.2 = 18 ∨ ci.2 = 23 then ci.1 == '-' else (hexValue ci.1).isSome)

end PaymentApis
