import PaymentApis.Schema

/-!
# Errors: `src/errors.ts`

The domain errors with their machine code, message and HTTP status, the
failures of the database, and the plain `Error`s thrown by the payout service.
-/

namespace PaymentApis

def Currency.name : Currency → String
  | .NGN => "NGN"
  | .USD => "USD"

def PaymentIntentStatus.name : PaymentIntentStatus → String
  | .requiresConfirmation => "requires_confirmation"
  | .succeeded => "succeeded"
  | .canceled => "canceled"

/-- The `AppError` subclasses the services raise. -/
inductive AppError
  | walletAlreadyExists (currency : Currency)
  | walletNotFound (which : String)
  | forbidden (message : String)
  | currencyMismatch
  | insufficientFunds
  | concurrencyConflict
  | paymentIntentNotFound
  | invalidStateTransition (status : PaymentIntentStatus) (action : String)
  | noWalletForCurrency (currency : Currency)
  | idempotencyKeyRequired
  | idempotencyKeyReuse
  | idempotencyInProgress
deriving DecidableEq

namespace AppError

def code : AppError → String
  | walletAlreadyExists _ => "wallet_already_exists"
  | walletNotFound _ => "wallet_not_found"
  | forbidden _ => "forbidden"
  | currencyMismatch => "currency_mismatch"
  | insufficientFunds => "insufficient_funds"
  | concurrencyConflict => "concurrency_conflict"
  | paymentIntentNotFound => "payment_intent_not_found"
  | invalidStateTransition _ _ => "invalid_state_transition"
  | noWalletForCurrency _ => "no_wallet_for_currency"
  | idempotencyKeyRequired => "idempotency_key_required"
  | idempotencyKeyReuse => "idempotency_key_reuse"
  | idempotencyInProgress => "idempotency_in_progress"

def message : AppError → String
  | walletAlreadyExists c => "A " ++ c.name ++ " wallet already exists for this merchant"
  | walletNotFound which => "The " ++ which ++ " wallet was not found"
  | forbidden m => m
  | currencyMismatch => "Cannot transfer between wallets of different currencies"
  | insufficientFunds => "The source wallet has insufficient funds"
  | concurrencyConflict => "The wallet was modified concurrently; please retry"
  | paymentIntentNotFound => "Payment intent not found"
  | invalidStateTransition s action =>
    "Cannot " ++ action ++ " a payment intent in status \"" ++ s.name ++ "\""
  | noWalletForCurrency c =>
    "You need a " ++ c.name ++ " wallet to accept payments in " ++ c.name
  | idempotencyKeyRequired => "An Idempotency-Key header is required"
  | idempotencyKeyReuse => "This Idempotency-Key was already used with different parameters"
  | idempotencyInProgress => "A request with this Idempotency-Key is already in progress"

def statusCode : AppError → ℕ
  | walletAlreadyExists _ => 409
  | walletNotFound _ => 404
  | forbidden _ => 403
  | currencyMismatch => 400
  | insufficientFunds => 422
  | concurrencyConflict => 409
  | paymentIntentNotFound => 404
  | invalidStateTransition _ _ => 409
  | noWalletForCurrency _ => 422
  | idempotencyKeyRequired => 400
  | idempotencyKeyReuse => 422
  | idempotencyInProgress => 409

end AppError

/-- A failed statement or connection. -/
inductive Fault
  | uniqueViolation
  | checkViolation
  | numericOutOfRange
  | invalidText
  | connection (message : String)
deriving DecidableEq

/-- The `SQLSTATE` the driver puts in `err.code`. -/
def Fault.code : Fault → String
  | uniqueViolation => "23505"
  | checkViolation => "23514"
  | numericOutOfRange => "22003"
  | invalidText => "22P02"
  | connection _ => "08006"

def Fault.message : Fault → String
  | uniqueViolation => "duplicate key value violates unique constraint"
  | checkViolation => "new row violates check constraint"
  | numericOutOfRange => "bigint out of range"
  | invalidText => "invalid input syntax"
  | connection m => m

/-- What a JavaScript `catch` can receive here. -/
inductive Err
  | app (e : AppError)
  | db (f : Fault)
  | error (message : String)
deriving DecidableEq

def Err.message : Err → String
  | app e => e.message
  | db f => f.message
  | error m => m

/-- The status of `errorHandler`: an `AppError`'s own, 500 for the rest. -/
def Err.statusCode : Err → ℕ
  | app e => e.statusCode
  | db _ => 500
  | error _ => 500

end PaymentApis
