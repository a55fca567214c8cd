import PaymentApis.System

/-!
# The transactions the programs open

Six transactions make up the system. `Opened` ties each name to its body, and
`program_opens` says that the programs open no other.
-/

namespace PaymentApis

open TxStore

inductive Opened (min : ℤ) : (β : Type) → TxnName → Tx β → Prop
  | transfer (m : Uuid) (dto : CreateTransferDto) :
      Opened min _ (.transfer m dto) (transferService.attempt m dto)
  | confirm (m : Uuid) (id : Text) : Opened min _ (.confirm m id) (paymentService.confirmTxn m id)
  | cancel (m : Uuid) (id : Text) : Opened min _ (.cancel m id) (paymentService.cancelTxn m id)
  | sweep (w : SettleableWallet) : Opened min _ (.sweep w) (payoutService.sweepTxn min w)
  | paid (p : PayoutRow) : Opened min _ (.paid p) (payoutService.paidTxn p)
  | reversal (p : PayoutRow) (attempts : ℕ) (message : String) :
      Opened min _ (.reversal p) (payoutService.reversalTxn p attempts message)

variable {min : ℤ}

theorem transferService.attempts_opens {m : Uuid} {dto : CreateTransferDto}
    {Q : (β : Type) → TxnName → Tx β → Prop}
    (hq : Q _ (.transfer m dto) (transferService.attempt m dto)) :
    ∀ n, (attempts m dto n).Opens Q
  | 0 => trivial
  | n + 1 => by
      refine Client.Opens.tryCatch ?_ (Client.Opens.transaction hq)
      intro e
      split
      · exact transferService.attempts_opens hq n
      · trivial

theorem postTransfer_opens {m : Uuid} {key : Option Text} {hash : Text} {dto : CreateTransferDto}
    {Q : (β : Type) → TxnName → Tx β → Prop}
    (hq : Q _ (.transfer m dto) (transferService.attempt m dto)) :
    (postTransfer m key hash dto).Opens Q := by
  refine Client.Opens.tryCatch ?_ ?_
  · exact fun _ => trivial
  unfold idempotency
  split
  · trivial
  split
  · trivial
  refine Client.Opens.bind ?_ ?_
  · rintro ⟨created, existing⟩
    split
    · unfold idempotency.replay
      split_ifs <;> trivial
    · refine Client.Opens.bind ?_ (Client.Opens.tryCatch ?_
        (Client.Opens.map (transferService.attempts_opens hq _)))
      · intro res
        refine Client.Opens.map (Client.Opens.tryCatch ?_ ?_)
        · exact fun _ => trivial
        · split
          · exact Client.Opens.exec _
          · exact Client.Opens.exec _
      · exact fun _ => trivial
  · refine Client.Opens.tryCatch ?_ (Client.Opens.map (Client.Opens.exec _))
    intro e
    split
    · exact Client.Opens.map (Client.Opens.exec _)
    · trivial

namespace payoutService

theorem sweepAll_opens : ∀ (ws : List SettleableWallet) (created : ℕ),
    (sweepAll min ws created).Opens (Opened min)
  | [], _ => trivial
  | w :: ws, _ => Client.Opens.bind (fun _ => sweepAll_opens ws _)
      (Client.Opens.transaction (.sweep w))

theorem sweep_opens (m : Option Uuid) : (sweep min m).Opens (Opened min) :=
  Client.Opens.bind (fun _ => sweepAll_opens _ _) (Client.Opens.exec _)

theorem processOne_opens (p : PayoutRow) : (processOne p).Opens (Opened min) := by
  refine Client.Opens.bind ?_ (Client.Opens.exec _)
  intro found
  refine Client.Opens.tryCatch ?_ ?_
  · intro err
    unfold retryOrReverse
    split
    · exact Client.Opens.exec _
    · exact Client.Opens.transaction (.reversal p _ _)
  · unfold sendToBank
    cases found with
    | none => trivial
    | some a =>
      simp only
      split
      · exact Client.Opens.bind (fun _ => Client.Opens.transaction (.paid p))
          (Client.Opens.external _)
      · trivial

theorem processAll_opens : ∀ ps : List PayoutRow, (processAll ps).Opens (Opened min)
  | [] => trivial
  | p :: ps => Client.Opens.bind (fun _ => processAll_opens ps) (processOne_opens p)

theorem processDuePayouts_opens (limit : ℕ) (m : Option Uuid) :
    (processDuePayouts limit m).Opens (Opened min) :=
  Client.Opens.bind (fun _ => Client.Opens.map (processAll_opens _)) (Client.Opens.exec _)

end payoutService

theorem program_opens (min : ℤ) (j : Job) : (program min j).Opens (Opened min) := by
  have hquery : ∀ {s : Stmt} {g : Err → Prog (Resp s)}, (∀ e, (g e).Opens (Opened min)) →
      ((query s).tryCatch g).Opens (Opened min) := by
    intro s g hg
    exact Client.Opens.tryCatch hg (Client.Opens.exec s)
  cases j with
  | createWallet m c =>
    refine Client.Opens.map (Client.Opens.map (hquery ?_))
    intro e
    split <;> trivial
  | transfer m dto => exact Client.Opens.map (transferService.attempts_opens (.transfer m dto) _)
  | postTransfer m key hash dto => exact Client.Opens.map (postTransfer_opens (.transfer m dto))
  | createIntent m dto =>
    refine Client.Opens.map (Client.Opens.bind ?_ (Client.Opens.exec _))
    rintro (- | w)
    · trivial
    · exact Client.Opens.map (Client.Opens.exec _)
  | confirm m id =>
    exact Client.Opens.map (Client.Opens.transaction (.confirm m id))
  | cancel m id =>
    exact Client.Opens.map (Client.Opens.transaction (.cancel m id))
  | registerEndpoint m url secret =>
    exact Client.Opens.map (Client.Opens.map (Client.Opens.exec _))
  | registerAccount m dto =>
    refine Client.Opens.map (Client.Opens.map (hquery ?_))
    intro e
    split <;> trivial
  | sweep m => exact Client.Opens.map (payoutService.sweep_opens m)
  | processDue limit m => exact Client.Opens.map (payoutService.processDuePayouts_opens limit m)
  | runNow m =>
    refine Client.Opens.map (Client.Opens.bind ?_ (payoutService.sweep_opens _))
    intro _
    refine Client.Opens.bind ?_ (payoutService.processDuePayouts_opens _ _)
    exact fun _ => Client.Opens.map (Client.Opens.exec _)
  | tick =>
    refine Client.Opens.map (Client.Opens.bind ?_ (payoutService.sweep_opens _))
    exact fun _ => Client.Opens.map (payoutService.processDuePayouts_opens _ _)

end PaymentApis
