import PaymentApis.Services
import PaymentApis.Lib.Atomic

/-!
# The running system

API requests and worker ticks are processes over one database. `Job` lists
them; `program` is the service each of them runs. The engine gives the
statements their SQL meaning and the bank its answer.
-/

namespace PaymentApis

open TxStore

inductive Job
  | createWallet (merchantId : Uuid) (currency : Currency)
  | transfer (merchantId : Uuid) (dto : CreateTransferDto)
  | postTransfer (merchantId : Uuid) (key : Option Text) (requestHash : Text)
      (dto : CreateTransferDto)
  | createIntent (merchantId : Uuid) (dto : CreatePaymentIntentDto)
  | confirm (merchantId : Uuid) (id : Text)
  | cancel (merchantId : Uuid) (id : Text)
  | registerEndpoint (merchantId : Uuid) (url secret : String)
  | registerAccount (merchantId : Uuid) (dto : RegisterPayoutAccountDto)
  | sweep (merchantId : Option Uuid)
  | processDue (limit : ℕ) (merchantId : Option Uuid)
  | runNow (merchantId : Uuid)
  | tick

inductive Reply
  | wallet (w : PublicWallet)
  | transfer (r : TransferResult)
  | response (r : Response)
  | intent (i : PublicPaymentIntent)
  | confirmed (i : PublicPaymentIntent) (c : PublicCharge)
  | endpoint (e : RegisteredWebhookEndpoint)
  | account (a : PublicPayoutAccount)
  | payouts (ps : List PublicPayout)
  | count (n : ℕ)
  | done

/-- What a process runs; `min` is `MIN_PAYOUT_AMOUNT`. -/
def program (min : ℤ) : Job → Prog Reply
  | .createWallet m c => do return .wallet (← walletService.create m c)
  | .transfer m dto => do return .transfer (← transferService.transfer m dto)
  | .postTransfer m key hash dto => do return .response (← postTransfer m key hash dto)
  | .createIntent m dto => do return .intent (← paymentService.create m dto)
  | .confirm m id => do
    let r ← paymentService.confirm m id
    return .confirmed r.1 r.2
  | .cancel m id => do return .intent (← paymentService.cancel m id)
  | .registerEndpoint m url secret => do
    return .endpoint (← webhookService.registerEndpoint m url secret)
  | .registerAccount m dto => do return .account (← payoutService.registerAccount m dto)
  | .sweep m => do return .count (← payoutService.sweep min m)
  | .processDue limit m => do return .count (← payoutService.processDuePayouts limit m)
  | .runNow m => do return .payouts (← payoutService.settleNow min m)
  | .tick => do
    tick min
    return .done

def engine : Engine Row Loc Row.key Stmt Resp Fault Err BankTransfer where
  exec := Sql.exec
  raise := .db
  answer := simulateBankTransfer

abbrev Ev := TxStore.Ev Stmt Resp Fault Err BankTransfer

abbrev Item := TxStore.Item Stmt Resp Fault Err TxnName BankTransfer

abbrev Priv := TxStore.Priv Row Loc Stmt Resp Fault Err BankTransfer

abbrev Node := TxStore.Node Row Loc Stmt Resp Fault Err TxnName BankTransfer Reply

abbrev Sys := TxStore.Sys Row Loc Row.key Stmt Resp Fault Err TxnName BankTransfer Reply

abbrev Step := TxStore.Label Fault Job

/-- One step of the system. -/
def Sys.next (min : ℤ) (s : Sys) (l : Step) : Option Sys := s.step engine (program min) l

/-- The statement a process is about to commit by itself. -/
def Node.query? (n : Node) : Option Stmt :=
  match n.proc with
  | .run (.query s _) => some s
  | _ => none

/-- A schedule from empty tables. -/
def runFrom (min : ℤ) (ls : List Step) : Option Sys :=
  (TxStore.Sys.init : Sys).run engine (program min) ls

/-- A schedule from empty tables, all of whose steps pass a test. -/
def runWhile (min : ℤ) (test : Sys → Step → Sys → Bool) (ls : List Step) : Option Sys :=
  (TxStore.Sys.init : Sys).runWhile engine (program min) test ls

/-- `n` steps of process `i`, with identifiers from `u` on. -/
def drive (i n u : ℕ) : List Step := (List.range n).map (fun k => .run i (u + k))

/-- The text of an identifier below ten, by its digit. -/
def smallId (digit : Char) : Text := "00000000-0000-0000-0000-00000000000".toList ++ [digit]

theorem smallId_one : isUuidText (smallId '1') = true := by decide +kernel

theorem smallId_two : isUuidText (smallId '2') = true := by decide +kernel

theorem smallId_one_ne_two : smallId '1' ≠ smallId '2' := by decide +kernel

def fifty : IntDouble := ⟨50, by decide, by decide, by decide +kernel⟩

/-- States reached from empty tables by steps that satisfy `ok`. -/
abbrev ReachBy (min : ℤ) (ok : Sys → Step → Sys → Prop) (s : Sys) : Prop :=
  TxStore.Reach engine (program min) ok s

/-- Every reachable state. -/
abbrev Reachable (min : ℤ) (s : Sys) : Prop := ReachBy min (fun _ _ _ => True) s

theorem exists_of_run {min : ℤ} {ls : List Step} {p : Sys → Bool}
    (h : (runFrom min ls).any p = true) : ∃ s, Reachable min s ∧ p s = true := by
  cases hs : runFrom min ls with
  | none => simp [hs] at h
  | some s =>
    rw [hs, Option.any_some] at h
    exact ⟨s, Reach.of_run .init hs, h⟩

theorem exists_of_runWhile {min : ℤ} {ls : List Step} {test : Sys → Step → Sys → Bool}
    {p : Sys → Bool} (h : (runWhile min test ls).any p = true) :
    ∃ s, ReachBy min (fun s l m => test s l m = true) s ∧ p s = true := by
  cases hs : runWhile min test ls with
  | none => simp [hs] at h
  | some s =>
    rw [hs, Option.any_some] at h
    exact ⟨s, Reach.of_runWhile .init hs, h⟩

end PaymentApis
