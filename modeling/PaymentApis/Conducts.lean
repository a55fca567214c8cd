import PaymentApis.Walks
import PaymentApis.Lib.Conduct

/-!
# What each request may commit

`Job.May` says, for each kind of process, what it commits after what it has
observed, whatever the rows it acts on: on whose behalf, and for a keyed
`POST /transfers` at which stage of its key. `program_keeps` is the walk of the
programs.
-/

namespace PaymentApis

open TxStore

/-! ## The stages of a keyed request -/

/-- Where a request stands with its key: `claimed` tells whether it inserted the
key row itself, `executed` whether its transfer has been committed. -/
inductive KeyStage
  | start
  | running (claimed executed : Bool)
  | answered (row : IdempotencyRow)
  | completed (claimed executed : Bool) (res : Response)
  | released (claimed : Bool)
deriving DecidableEq

def KeyStage.observe (st : KeyStage) : Ev → KeyStage
  | .stmt (.idempotencyInsert _ _ _) _ => .running true false
  | .stmt (.idempotencyGet _ _) none => .running false false
  | .stmt (.idempotencyGet _ _) (some row) => .answered row
  | .stmt (.ledgerCreateTransaction .transfer) _ =>
    match st with
    | .running c _ => .running c true
    | st => st
  | .stmt (.idempotencyComplete _ _ status body) _ =>
    match st with
    | .running c x => .completed c x ⟨status, body⟩
    | st => st
  | .stmt (.idempotencyRelease _ _) _ =>
    match st with
    | .running c _ => .released c
    | st => st
  | _ => st

def keyStage (log : List Ev) : KeyStage := log.foldl KeyStage.observe .start

@[simp] theorem keyStage_nil : keyStage [] = .start := rfl

theorem keyStage_append (log evs : List Ev) :
    keyStage (log ++ evs) = evs.foldl KeyStage.observe (keyStage log) := List.foldl_append

@[simp] theorem keyStage_fault (log : List Ev) (f : Fault) :
    keyStage (log ++ [.fault f]) = keyStage log := by
  rw [keyStage_append]
  rfl

/-- How the handler of a request ended: with its transfer committed, or with an
error and nothing committed. -/
inductive Handled (m : Uuid) (dto : CreateTransferDto) : Bool → Response → Prop
  | sent {evs : List Ev} {r : TransferResult}
      (yields : (transferService.attempt m dto).Yields engine evs r) :
      Handled m dto true ⟨201, some (.transfer r)⟩
  | failed (e : Err) : Handled m dto false (errorHandler e)

/-- An error response is one of a handler that committed nothing. -/
theorem Handled.not_executed {m : Uuid} {dto : CreateTransferDto} {x : Bool} {res : Response}
    (h : Handled m dto x res) (hstatus : 400 ≤ res.status) : x = false := by
  cases h with
  | sent => simp at hstatus
  | failed e => rfl

/-- What a keyed request commits, and when. -/
def KeyedMay (m : Uuid) (key hash : Text) (dto : CreateTransferDto) (log : List Ev) :
    Item → Prop
  | .auto (.idempotencyInsert m' key' hash') _ =>
    m' = m ∧ key' = key ∧ hash' = hash ∧ keyStage log = .start
  | .auto (.idempotencyGet m' key') _ => m' = m ∧ key' = key ∧ keyStage log = .start
  | .txn (.transfer m' dto') evs => m' = m ∧ dto' = dto ∧ (∃ c, keyStage log = .running c false) ∧
    ∃ r, (transferService.attempt m dto).Yields engine evs r
  | .auto (.idempotencyComplete m' key' status body) _ => m' = m ∧ key' = key ∧
    ∃ c x, keyStage log = .running c x ∧ Handled m dto x ⟨status, body⟩
  | .auto (.idempotencyRelease m' key') _ => m' = m ∧ key' = key ∧
    ∃ c, keyStage log = .running c false
  | _ => False

/-- What a keyed request has answered. -/
def Answered (m : Uuid) (hash : Text) (dto : CreateTransferDto) (log : List Ev)
    (res : Response) : Prop :=
  match keyStage log with
  | .start => ∃ e, res = errorHandler e
  | .running _ x => Handled m dto x res
  | .answered row =>
    if row.requestHash = hash ∧ row.status = .completed then
      res = ⟨row.responseStatus.getD 200, row.responseBody⟩
    else ∃ e, res = errorHandler (.app e)
  | .completed _ x r => res = r ∧ Handled m dto x r
  | .released _ => Handled m dto false res

/-- The middleware has thrown: the key could not be claimed, or its row is that
of another body or of a request still in progress. -/
def Refused (hash : Text) (log : List Ev) (e : Err) : Prop :=
  keyStage log = .start ∨ ∃ row a, keyStage log = .answered row ∧
    ¬ (row.requestHash = hash ∧ row.status = .completed) ∧ e = .app a

/-! ## The jobs -/

/-- A transfer has been committed. -/
def transferred (log : List Ev) : Bool :=
  log.any (fun
    | .stmt (.ledgerCreateTransaction .transfer) _ => true
    | _ => false)

@[simp] theorem transferred_fault (log : List Ev) (f : Fault) :
    transferred (log ++ [.fault f]) = transferred log := by
  simp [transferred]

/-- What a payout process commits, of one merchant or of all. -/
def WorkerMay (scope : Option Uuid) : Item → Prop
  | .auto (.payoutListSettleableWallets _ m) _ => m = scope
  | .auto (.payoutClaimDue _ _ m) rows =>
    m = scope ∧ ∀ m' ∈ scope, ∀ p ∈ (rows : List PayoutRow), p.merchantId = m'
  | .auto (.accountFindById _) _ => True
  | .auto (.payoutMarkRetry _ _ _ _) _ => True
  | .auto (.payoutListByMerchant m) _ => m ∈ scope
  | .call _ _ => True
  | .txn (.sweep w) _ => ∀ m' ∈ scope, w.merchantId = m'
  | .txn (.paid _) _ => True
  | .txn (.reversal _) _ => True
  | _ => False

def Job.May : Job → List Ev → Item → Prop
  | .createWallet m c, _, it => ∃ r, it = .auto (.walletCreate m c) r
  | .transfer m dto, log, it =>
    transferred log = false ∧ ∃ evs, it = .txn (.transfer m dto) evs
  | .postTransfer m key hash dto, log, it => ∃ k, key = some k ∧ KeyedMay m k hash dto log it
  | .createIntent m dto, _, it =>
    (∃ r, it = .auto (.walletFindByMerchantAndCurrency m dto.currency) r) ∨
      ∃ r, it = .auto (.intentInsert m (numText dto.amount.val) dto.currency
        dto.customerReference) r
  | .confirm m id, _, it => ∃ evs, it = .txn (.confirm m id) evs
  | .cancel m id, _, it => ∃ evs, it = .txn (.cancel m id) evs
  | .registerEndpoint m url secret, _, it =>
    ∃ r, it = .auto (.endpointInsert m url ("whsec_" ++ secret)) r
  | .registerAccount m dto, _, it =>
    ∃ r, it = .auto (.accountInsert m dto.currency dto.bankName dto.accountNumber) r
  | .sweep m, _, it => WorkerMay m it
  | .processDue _ m, _, it => WorkerMay m it
  | .runNow m, _, it => WorkerMay (some m) it
  | .tick, _, it => WorkerMay none it

/-- What a process has answered where it ends; only keyed requests promise it. -/
def Job.Done : Job → List Ev → Reply → Prop
  | .postTransfer m _ hash dto, log, reply =>
    ∃ res, reply = .response res ∧ Answered m hash dto log res
  | _, _, _ => True

/-! ## The programs -/

/-- No promise about the end of a program. -/
abbrev Ends {α : Type} : List Ev → α → Prop := fun _ _ => True

section Walks

variable {log : List Ev} {min : ℤ}

theorem keeps_query {s : Stmt} {May : List Ev → Item → Prop} {Q : List Ev → Resp s → Prop}
    {T : List Ev → Err → Prop} (hf : ∀ f, T (log ++ [.fault f]) (.db f))
    (hs : ∀ env busy d r ws, (Sql.exec s env busy d).out = .ok (r, ws) →
      May log (.auto s r) ∧ Q (log ++ [.stmt s r]) r) :
    (query s).Keeps engine May Q T log := Client.Keeps.exec hf hs

theorem transferService.attempt_observe {m : Uuid} {dto : CreateTransferDto} {evs : List Ev}
    {r : TransferResult} (h : (transferService.attempt m dto).Yields engine evs r) (c x : Bool) :
    evs.foldl KeyStage.observe (.running c x) = .running c true := by
  simp only [attempt, recordLedger, sql, Body.call_bind, Body.stmt_bind, Body.pure_eq,
    Body.ret_bind] at h
  obtain ⟨f, evs₁, rfl, h₁⟩ := h.of_stmt
  obtain ⟨t, evs₂, rfl, h₂⟩ := h₁.of_stmt
  cases hv : validate f t m dto.amount with
  | error e =>
    simp only [hv, Body.ofExcept, Body.throw_bind] at h₂
    exact absurd h₂ id
  | ok v =>
    simp only [hv, Body.ofExcept, Body.ret_bind] at h₂
    obtain ⟨_, evs₃, rfl, h₃⟩ := h₂.of_stmt
    obtain ⟨_, evs₄, rfl, h₄⟩ := h₃.of_stmt
    obtain ⟨_, evs₅, rfl, h₅⟩ := h₄.of_stmt
    obtain ⟨okFrom, evs₆, rfl, h₆⟩ := h₅.of_stmt
    obtain ⟨okTo, evs₇, rfl, h₇⟩ := h₆.of_stmt
    cases hok : (!okFrom || !okTo) with
    | true =>
      simp only [hok, if_true] at h₇
      exact absurd h₇ id
    | false =>
      simp only [hok, Bool.false_eq_true, if_false] at h₇
      obtain ⟨rfl, -⟩ := h₇
      rfl

/-- A transfer commits once, from a place its failed attempts do not leave. -/
theorem transferService.attempts_keeps {m : Uuid} {dto : CreateTransferDto}
    {May : List Ev → Item → Prop} {Q : List Ev → TransferResult → Prop} {At : List Ev → Prop}
    (hfault : ∀ log f, At log → At (log ++ [.fault f]))
    (htxn : ∀ log evs r, At log → (transferService.attempt m dto).Yields engine evs r →
      May log (.txn (.transfer m dto) evs) ∧ Q (log ++ evs) r) :
    ∀ (n : ℕ) (log : List Ev), At log →
      (transferService.attempts m dto n).Keeps engine May Q (fun log _ => At log) log
  | 0, _, h => h
  | n + 1, log, h => by
      refine Client.Keeps.tryCatch (T := fun log _ => At log) ?_
        (Client.Keeps.transaction (fun f => hfault log f h) (fun evs r => htxn log evs r h)
          (fun _ => h))
      intro log e h
      split
      · exact transferService.attempts_keeps hfault htxn n log h
      · exact h

theorem idempotencyRepository.claim_keeps {m : Uuid} {key hash : Text} {dto : CreateTransferDto}
    (h : keyStage log = .start) :
    (idempotencyRepository.claim m key hash).Keeps engine (KeyedMay m key hash dto)
      (fun log x => (∃ c, x.2 = none ∧ keyStage log = .running c false) ∨
        ∃ row, x = (false, some row) ∧ keyStage log = .answered row)
      (fun log _ => keyStage log = .start) log := by
  refine Client.Keeps.tryCatch (T := fun log _ => keyStage log = .start) ?_ ?_
  · intro log e h
    split
    · refine Client.Keeps.bind (Q := fun log x => match x with
        | none => keyStage log = .running false false
        | some row => keyStage log = .answered row) ?_
        (keeps_query (s := .idempotencyGet m key) ?_ ?_)
      · intro log x hx
        cases x with
        | none => exact Or.inl ⟨false, rfl, hx⟩
        | some row => exact Or.inr ⟨row, rfl, hx⟩
      · intro f
        simpa using h
      · intro env busy d r ws _
        refine ⟨⟨rfl, rfl, h⟩, ?_⟩
        rw [keyStage_append, h]
        cases r <;> rfl
    · exact h
  · refine Client.Keeps.bind (Q := fun log _ => keyStage log = .running true false) ?_
      (keeps_query (s := .idempotencyInsert m key hash) ?_ ?_)
    · exact fun log _ hrunning => Or.inl ⟨true, rfl, hrunning⟩
    · intro f
      simpa using h
    · intro env busy d r ws _
      refine ⟨⟨rfl, rfl, rfl, h⟩, ?_⟩
      rw [keyStage_append, h]
      rfl

/-- Saving a response does not change it. -/
theorem idempotency.persist_keeps {m : Uuid} {key hash : Text} {dto : CreateTransferDto}
    {res : Response} {c x : Bool} {T : List Ev → Err → Prop} (h : keyStage log = .running c x)
    (hres : Handled m dto x res) :
    (idempotency.persist m key res).Keeps engine (KeyedMay m key hash dto)
      (fun log r => Answered m hash dto log r) T log := by
  have hlost : ∀ f, Answered m hash dto (log ++ [.fault f]) res := by
    intro f
    rw [Answered, keyStage_fault, h]
    exact hres
  refine Client.Keeps.bind (Q := fun log _ => Answered m hash dto log res) ?_ ?_
  · exact fun _ _ h => h
  refine Client.Keeps.tryCatch (T := fun log _ => Answered m hash dto log res) ?_ ?_
  · exact fun _ _ h => h
  split
  · rename_i hserver
    refine keeps_query (s := .idempotencyRelease m key) ?_ ?_
    · exact hlost
    intro env busy d r ws _
    have hx : x = false := hres.not_executed (by omega)
    subst hx
    refine ⟨⟨rfl, rfl, c, h⟩, ?_⟩
    rw [Answered, keyStage_append, h]
    exact hres
  · refine keeps_query (s := .idempotencyComplete m key res.status res.body) ?_ ?_
    · exact hlost
    intro env busy d r ws _
    refine ⟨⟨rfl, rfl, c, x, h, hres⟩, ?_⟩
    rw [Answered, keyStage_append, h]
    exact ⟨rfl, hres⟩

theorem transferController.create_keeps {m : Uuid} {key hash : Text} {dto : CreateTransferDto}
    {c : Bool} {T : List Ev → Err → Prop} (h : keyStage log = .running c false) :
    ((transferController.create m dto).tryCatch (fun err => return errorHandler err)).Keeps engine
      (KeyedMay m key hash dto)
      (fun log res => ∃ x, keyStage log = .running c x ∧ Handled m dto x res) T log := by
  refine Client.Keeps.tryCatch (T := fun log _ => keyStage log = .running c false) ?_ ?_
  · exact fun log e h => ⟨false, h, .failed e⟩
  refine Client.Keeps.bind (Q := fun log r => keyStage log = .running c true ∧
    ∃ evs, (transferService.attempt m dto).Yields engine evs r) ?_
    (transferService.attempts_keeps ?_ ?_ _ log h)
  · rintro log r ⟨hstage, evs, hyields⟩
    exact ⟨true, hstage, .sent hyields⟩
  · intro log f h
    rw [keyStage_fault, h]
  · intro log evs r h hyields
    refine ⟨⟨rfl, rfl, ⟨c, h⟩, r, hyields⟩, ?_, evs, hyields⟩
    rw [keyStage_append, h, transferService.attempt_observe hyields]

theorem idempotency_keeps (m : Uuid) (key : Text) (hash : Text) (dto : CreateTransferDto) :
    (idempotency m (some key) hash (transferController.create m dto)).Keeps engine
      (KeyedMay m key hash dto) (fun log r => Answered m hash dto log r)
      (Refused hash) [] := by
  simp only [idempotency]
  split
  · exact Or.inl rfl
  refine Client.Keeps.bind ?_ (Client.Keeps.imp (fun _ _ h => h) (fun _ _ h => h)
    (fun _ _ h => Or.inl h) (idempotencyRepository.claim_keeps keyStage_nil))
  rintro log ⟨created, existing⟩ (⟨c, rfl, hrunning⟩ | ⟨row, hrow, hanswered⟩)
  · have hnext : Client.Keeps engine (KeyedMay m key hash dto)
        (fun log r => Answered m hash dto log r)
        (Refused hash)
        (do
          let res ← (transferController.create m dto).tryCatch (fun err => return errorHandler err)
          idempotency.persist m key res) log := by
      refine Client.Keeps.bind ?_ (transferController.create_keeps hrunning)
      rintro log res ⟨x, hstage, hres⟩
      exact idempotency.persist_keeps hstage hres
    cases created
    · exact hnext
    · exact hnext
  · obtain ⟨rfl, rfl⟩ := Prod.mk.inj hrow
    simp only [idempotency.replay]
    split
    · rename_i hhash
      exact Or.inr ⟨row, _, hanswered, fun h => hhash h.1, rfl⟩
    split
    · rename_i hstatus
      exact Or.inr ⟨row, _, hanswered, fun h => by simp [hstatus] at h, rfl⟩
    · rename_i hhash hstatus
      have hcompleted : row.status = .completed := by
        cases hrow : row.status with
        | inProgress => exact absurd hrow hstatus
        | completed => rfl
      show Answered m hash dto log _
      rw [Answered, hanswered]
      show if _ then _ else _
      rw [if_pos ⟨not_not.mp hhash, hcompleted⟩]

theorem postTransfer_keeps (m : Uuid) (key : Option Text) (hash : Text) (dto : CreateTransferDto) :
    (postTransfer m key hash dto).Keeps engine
      (fun log it => ∃ k, key = some k ∧ KeyedMay m k hash dto log it)
      (fun log r => Answered m hash dto log r) Ends [] := by
  refine Client.Keeps.tryCatch (T := Refused hash) ?_ ?_
  · rintro log e (h | ⟨row, a, h, hother, rfl⟩)
    · show Answered m hash dto log (errorHandler e)
      rw [Answered, h]
      exact ⟨e, rfl⟩
    · show Answered m hash dto log (errorHandler (.app a))
      rw [Answered, h]
      show if _ then _ else _
      rw [if_neg hother]
      exact ⟨a, rfl⟩
  · cases key with
    | none => exact Or.inl rfl
    | some k =>
      exact Client.Keeps.imp (fun log it h => ⟨k, rfl, h⟩) (fun _ _ h => h) (fun _ _ h => h)
        (idempotency_keeps m k hash dto)

/-! ### Payout processes -/

section Workers

variable {scope : Option Uuid}

/-- A worker's statement whose answer is promised nothing. -/
theorem keeps_worker {s : Stmt} (h : ∀ r, WorkerMay scope (.auto s r)) :
    (query s).Keeps engine (fun _ it => WorkerMay scope it) Ends Ends log :=
  keeps_query (fun _ => trivial) (fun _ _ _ r _ _ => ⟨h r, trivial⟩)

namespace payoutService

theorem sweepAll_keeps : ∀ (ws : List SettleableWallet) (created : ℕ) (log : List Ev),
    (∀ w ∈ ws, ∀ m ∈ scope, w.merchantId = m) →
    (sweepAll min ws created).Keeps engine (fun _ it => WorkerMay scope it) Ends Ends log
  | [], _, _, _ => trivial
  | w :: ws, _, _, h => by
      refine Client.Keeps.bind (Q := Ends) ?_ (Client.Keeps.transaction ?_ ?_ ?_)
      · intro log _ _
        exact sweepAll_keeps ws _ log (fun w' hw' => h w' (List.mem_cons_of_mem _ hw'))
      · exact fun _ => trivial
      · exact fun evs b _ => ⟨h w List.mem_cons_self, trivial⟩
      · exact fun _ => trivial

theorem sweep_keeps : (sweep min scope).Keeps engine (fun _ it => WorkerMay scope it) Ends Ends
    log := by
  refine Client.Keeps.bind (Q := fun _ ws => ∀ w ∈ ws, ∀ m ∈ scope, w.merchantId = m) ?_
    (keeps_query ?_ ?_)
  · exact fun log ws h => sweepAll_keeps ws 0 log h
  · exact fun _ => trivial
  · intro env busy d r ws hout
    refine ⟨rfl, ?_⟩
    intro w hw
    obtain ⟨_, _, -, -, -, -, -, -, -, hscope⟩ := (Sql.payoutListSettleableWallets_ok hout).2 w hw
    exact hscope

theorem sendToBank_keeps (p : PayoutRow) (found : Option PayoutAccountRow) :
    (sendToBank p found).Keeps engine (fun _ it => WorkerMay scope it) Ends Ends log := by
  cases found with
  | none => trivial
  | some a =>
    simp only [sendToBank]
    split
    · refine Client.Keeps.bind (Q := Ends) ?_ (Client.Keeps.external trivial ?_ ?_)
      · exact fun log _ _ => Client.Keeps.transaction (fun _ => trivial)
          (fun _ _ _ => ⟨trivial, trivial⟩) (fun _ => trivial)
      · exact fun _ _ => trivial
      · exact fun _ _ => trivial
    · trivial

theorem retryOrReverse_keeps (p : PayoutRow) (err : Err) :
    (retryOrReverse p err).Keeps engine (fun _ it => WorkerMay scope it) Ends Ends log := by
  unfold retryOrReverse
  split
  · exact keeps_worker (s := .payoutMarkRetry p.id _ _ _) (fun _ => trivial)
  · exact Client.Keeps.transaction (fun _ => trivial) (fun _ _ _ => ⟨trivial, trivial⟩)
      (fun _ => trivial)

theorem processAll_keeps : ∀ (ps : List PayoutRow) (log : List Ev),
    (processAll ps).Keeps engine (fun _ it => WorkerMay scope it) Ends Ends log
  | [], _ => trivial
  | p :: ps, _ => by
      refine Client.Keeps.bind (Q := Ends) ?_ (Client.Keeps.bind (Q := Ends) ?_
        (keeps_worker (fun _ => trivial)))
      · exact fun log _ _ => processAll_keeps ps log
      · intro log found _
        refine Client.Keeps.tryCatch (T := Ends) ?_ (sendToBank_keeps p found)
        exact fun log err _ => retryOrReverse_keeps p err

theorem processDuePayouts_keeps (limit : ℕ) :
    (processDuePayouts limit scope).Keeps engine (fun _ it => WorkerMay scope it) Ends Ends
      log := by
  refine Client.Keeps.bind (Q := Ends) ?_ (keeps_query ?_ ?_)
  · intro log due _
    refine Client.Keeps.bind (Q := Ends) ?_ (processAll_keeps due log)
    exact fun _ _ _ => trivial
  · exact fun _ => trivial
  · intro env busy d r ws hout
    refine ⟨⟨rfl, ?_⟩, trivial⟩
    intro m hm p hp
    exact ((Sql.payoutClaimDue_ok hout).2.2 p hp).2 m hm

theorem settleNow_keeps (m : Uuid) :
    (settleNow min m).Keeps engine (fun _ it => WorkerMay (some m) it) Ends Ends log := by
  refine Client.Keeps.bind (Q := Ends) ?_ sweep_keeps
  intro log _ _
  refine Client.Keeps.bind (Q := Ends) ?_ (processDuePayouts_keeps 100)
  intro log _ _
  refine Client.Keeps.bind (Q := Ends) ?_ (keeps_worker (s := .payoutListByMerchant m) ?_)
  · exact fun _ _ _ => trivial
  · exact fun _ => rfl

end payoutService

theorem tick_keeps : (tick min).Keeps engine (fun _ it => WorkerMay none it) Ends Ends log := by
  refine Client.Keeps.bind (Q := Ends) ?_ payoutService.sweep_keeps
  intro log _ _
  refine Client.Keeps.bind (Q := Ends) ?_ (payoutService.processDuePayouts_keeps PROCESS_BATCH)
  exact fun _ _ _ => trivial

end Workers

/-- A program that turns the result of another into its reply. -/
theorem keeps_reply {α : Type} {c : Prog α} {f : α → Reply} {j : Job} {Q : List Ev → α → Prop}
    (h : c.Keeps engine j.May Q Ends []) (hq : ∀ log a, Q log a → j.Done log (f a)) :
    (do return f (← c) : Prog Reply).Keeps engine j.May j.Done Ends [] :=
  Client.Keeps.bind hq h

/-- Every program, from the start of its process. -/
theorem program_keeps (min : ℤ) (j : Job) :
    (program min j).Keeps engine j.May j.Done Ends [] := by
  have hrow : ∀ {s : Stmt} {May : List Ev → Item → Prop} {log : List Ev},
      (∀ log r, May log (.auto s r)) → (query s).Keeps engine May Ends Ends log :=
    fun h => keeps_query (fun _ => trivial) (fun _ _ _ r _ _ => ⟨h _ r, trivial⟩)
  cases j with
  | createWallet m c =>
    refine keeps_reply (Q := Ends) (Client.Keeps.bind (Q := Ends) ?_
      (Client.Keeps.tryCatch (T := Ends) ?_ (hrow ?_))) ?_
    · exact fun _ _ _ => trivial
    · intro log e _
      split
      · trivial
      · trivial
    · exact fun log r => ⟨r, rfl⟩
    · exact fun _ _ _ => trivial
  | transfer m dto =>
    have hwalk : (transferService.transfer m dto).Keeps engine (Job.transfer m dto).May Ends
        (fun log _ => transferred log = false) [] := by
      refine transferService.attempts_keeps ?_ ?_ _ _ rfl
      · intro log f h
        rw [transferred_fault, h]
      · exact fun log evs r h _ => ⟨⟨h, evs, rfl⟩, trivial⟩
    exact keeps_reply (Client.Keeps.imp (fun _ _ h => h) (fun _ _ h => h) (fun _ _ _ => trivial)
      hwalk) (fun _ _ _ => trivial)
  | postTransfer m key hash dto =>
    refine keeps_reply (postTransfer_keeps m key hash dto) ?_
    exact fun log res h => ⟨res, rfl, h⟩
  | createIntent m dto =>
    refine keeps_reply (Q := Ends) (Client.Keeps.bind (Q := Ends) ?_ (hrow ?_)) ?_
    · intro log found _
      cases found with
      | none => trivial
      | some w =>
        refine Client.Keeps.bind (Q := Ends) ?_ (hrow ?_)
        · exact fun _ _ _ => trivial
        · exact fun log r => Or.inr ⟨r, rfl⟩
    · exact fun log r => Or.inl ⟨r, rfl⟩
    · exact fun _ _ _ => trivial
  | confirm m id =>
    refine Client.Keeps.bind (Q := Ends) ?_ (Client.Keeps.transaction ?_ ?_ ?_)
    · exact fun _ _ _ => trivial
    · exact fun _ => trivial
    · exact fun evs b _ => ⟨⟨evs, rfl⟩, trivial⟩
    · exact fun _ => trivial
  | cancel m id =>
    refine keeps_reply (Q := Ends) (Client.Keeps.transaction ?_ ?_ ?_) ?_
    · exact fun _ => trivial
    · exact fun evs b _ => ⟨⟨evs, rfl⟩, trivial⟩
    · exact fun _ => trivial
    · exact fun _ _ _ => trivial
  | registerEndpoint m url secret =>
    refine keeps_reply (Q := Ends) (Client.Keeps.bind (Q := Ends) ?_ (hrow ?_)) ?_
    · exact fun _ _ _ => trivial
    · exact fun log r => ⟨r, rfl⟩
    · exact fun _ _ _ => trivial
  | registerAccount m dto =>
    refine keeps_reply (Q := Ends) (Client.Keeps.bind (Q := Ends) ?_
      (Client.Keeps.tryCatch (T := Ends) ?_ (hrow ?_))) ?_
    · exact fun _ _ _ => trivial
    · intro log e _
      split
      · trivial
      · trivial
    · exact fun log r => ⟨r, rfl⟩
    · exact fun _ _ _ => trivial
  | sweep m => exact keeps_reply payoutService.sweep_keeps (fun _ _ _ => trivial)
  | processDue limit m =>
    exact keeps_reply (payoutService.processDuePayouts_keeps limit) (fun _ _ _ => trivial)
  | runNow m => exact keeps_reply (payoutService.settleNow_keeps m) (fun _ _ _ => trivial)
  | tick =>
    refine Client.Keeps.bind (Q := Ends) ?_ tick_keeps
    exact fun _ _ _ => trivial

end Walks

/-! ## Every run -/

/-- A schedule from empty tables with its final state. -/
abbrev RunBy (min : ℤ) (ok : Sys → Step → Sys → Prop) (ls : List Step) (s : Sys) : Prop :=
  TxStore.Run engine (program min) ok ls s

abbrev JReach (min : ℤ) (P : List Job → Abs → Prop) (js : List Job) (a : Abs) : Prop :=
  TxStore.JReach (commits min) Job.May P js a

/-- Every run is a sequence of atomic commits, each by a job that may make it. -/
theorem run_refines {min : ℤ} {ok : Sys → Step → Sys → Prop} {P : List Job → Abs → Prop}
    (hP : ∀ ls s l s', RunBy min ok ls s → ok s l s' → s.next min l = some s' →
      P (jobs ls ++ l.started) s'.abs) {ls : List Step} {s : Sys} (h : RunBy min ok ls s) :
    JReach min P (jobs ls) s.abs :=
  Run.refines (commits_lawful min) trivial (fun j d _ => program_safe j d) (program_keeps min)
    (by simp [SideOk]) hP h

/-- One step of a run is one attributed atomic step. -/
theorem run_step_refines {min : ℤ} {ok : Sys → Step → Sys → Prop} {ls : List Step} {s s' : Sys}
    {l : Step} (h : RunBy min ok ls s) (hstep : s.next min l = some s') :
    TxStore.JStep (commits min) Job.May (jobs ls) s.abs (jobs ls ++ l.started) s'.abs :=
  Sys.Safe.jstep (commits_lawful min)
    (Reach.safe (commits_lawful min) trivial (fun j d _ => program_safe j d) (by simp [SideOk])
      h.reach) (h.keeps (program_keeps min)) hstep

theorem exists_run {min : ℤ} {ls : List Step} {p : Sys → Bool}
    (h : (runFrom min ls).any p = true) :
    ∃ s, RunBy min (fun _ _ _ => True) ls s ∧ p s = true := by
  cases hs : runFrom min ls with
  | none => simp [hs] at h
  | some s =>
    rw [hs, Option.any_some] at h
    exact ⟨s, Run.of_run .init hs, h⟩

theorem exists_runWhile {min : ℤ} {ls : List Step} {test : Sys → Step → Sys → Bool}
    {p : Sys → Bool} (h : (runWhile min test ls).any p = true) :
    ∃ s, RunBy min (fun s l m => test s l m = true) ls s ∧ p s = true := by
  cases hs : runWhile min test ls with
  | none => simp [hs] at h
  | some s =>
    rw [hs, Option.any_some] at h
    exact ⟨s, Run.of_runWhile .init hs, h⟩

end PaymentApis
