import PaymentApis.Culprits
import PaymentApis.Lib.Deadlock

/-!
# Wallet locks

Every transaction locks one wallet at most, except the transfer, which locks its
source and then its destination. A cycle of processes that wait for each other's
wallets is therefore a cycle of transfers, from wallet to wallet; opposite
transfers make one.
-/

namespace PaymentApis

open TxStore Relation

/-! ## What the statements lock -/

/-- The wallet a statement locks when it takes effect. -/
def Stmt.lockedWallet : Stmt → Option Uuid
  | .walletFindByIdForUpdate id => some id
  | .walletApplyDelta id _ => some id
  | .walletApplyDeltaIfVersion id _ _ => some id
  | _ => none

namespace Sql

variable {env : Env} {busy : Loc → Bool} {v : Db} {α : Type} {k : Uuid}

@[simp] theorem read_locked (a : α) : (read a).locked Row.key = [] := rfl

@[simp] theorem failure_locked (f : Fault) : (failure f : Eff α).locked Row.key = [] := rfl

@[simp] theorem lockRow_locked (l : Loc) (a : α) : (lockRow l a).locked Row.key = [l] := rfl

@[simp] theorem update_locked (row : Row) (a : α) :
    (update row a).locked Row.key = [row.key] := rfl

theorem insert_locked {row : Row} {a : α} {l : Loc} (h : l ∈ (insert v row a).locked Row.key) :
    l = row.key := by
  unfold insert at h
  split at h
  · simp at h
  · simpa [Effect.locked] using h

theorem insertAmount_locked {amount : Text} {row : (a : Bigint) → 0 < a.val → Row × α} {l : Loc}
    (h : l ∈ (insertAmount v amount row).locked Row.key) : ∃ a ha, l = (row a ha).1.key := by
  unfold insertAmount at h
  split at h
  · simp at h
  · rename_i a _
    split at h
    · rename_i ha
      exact ⟨a, ha, insert_locked h⟩
    · simp at h

theorem addBalance_locked {w : WalletRow} {delta : Text} {version : ℕ} {a : α} {l : Loc}
    (h : l ∈ (addBalance w delta version a).locked Row.key) : l = .wallet w.id := by
  unfold addBalance at h
  split at h
  · simp at h
  · split at h
    · simpa [Effect.locked] using h
    · split at h <;> simpa [Effect.locked, Row.key] using h

/-- A statement locks the wallet it names, and no other; a new wallet apart. -/
theorem exec_locked_wallet {q : Stmt} (h : Loc.wallet k ∈ (exec q env busy v).locked Row.key) :
    q.lockedWallet = some k ∨ ∃ m c, q = .walletCreate m c := by
  cases q with
  | walletCreate m c => exact Or.inr ⟨m, c, rfl⟩
  | walletFindByIdForUpdate id =>
    simp only [exec, walletFindByIdForUpdate] at h
    split at h
    · simp at h
    · simp only [lockRow_locked, List.mem_singleton, Loc.wallet.injEq] at h
      exact Or.inl (by rw [h]; rfl)
  | walletApplyDelta id delta =>
    simp only [exec, walletApplyDelta] at h
    split at h
    · simp at h
    · rename_i w hw
      have hlocked := addBalance_locked h
      rw [Loc.wallet.injEq, Db.id_of_wallet hw] at hlocked
      exact Or.inl (by rw [hlocked]; rfl)
  | walletApplyDeltaIfVersion id delta n =>
    simp only [exec, walletApplyDeltaIfVersion] at h
    split at h
    · simp at h
    · rename_i w hw
      have hid := Db.id_of_wallet hw
      split at h
      · split at h
        · have hlocked := addBalance_locked h
          rw [Loc.wallet.injEq, hid] at hlocked
          exact Or.inl (by rw [hlocked]; rfl)
        · simp only [Effect.locked, List.append_nil, List.mem_singleton, Loc.wallet.injEq] at h
          exact Or.inl (by rw [h, hid]; rfl)
      · simp at h
  | walletFindById id =>
    simp only [exec, walletFindById] at h
    split at h <;> simp at h
  | ledgerCreateTransaction type => simpa [Row.key] using insert_locked h
  | endpointInsert m url secret => simpa [Row.key] using insert_locked h
  | eventEnqueue m e type payload => simpa [Row.key] using insert_locked h
  | ledgerAddEntry t w dir amount c =>
    obtain ⟨a, ha, hl⟩ := insertAmount_locked h
    simp [Row.key] at hl
  | intentInsert m amount c ref =>
    obtain ⟨a, ha, hl⟩ := insertAmount_locked h
    simp [Row.key] at hl
  | chargeInsert i m amount c t =>
    obtain ⟨a, ha, hl⟩ := insertAmount_locked h
    simp [Row.key] at hl
  | payoutCreatePending m w a c amount t =>
    obtain ⟨a, ha, hl⟩ := insertAmount_locked h
    simp [Row.key] at hl
  | accountInsert m c bank number =>
    simp only [exec, accountInsert] at h
    split at h
    · simp at h
    · rcases List.mem_append.mp h with h | h
      · simp at h
      · exact absurd (insert_locked (List.mem_append_right _ h)) (by simp [Row.key])
  | intentFindByIdForUpdate m id =>
    simp only [exec, intentFindByIdForUpdate] at h
    split at h
    · simp at h
    · split at h
      · simp at h
      · split at h <;> simp at h
  | payoutClaimDue limit lease m =>
    simp [exec, payoutClaimDue, Effect.locked, Row.key] at h
  | payoutListSettleableWallets min m =>
    simp only [exec, payoutListSettleableWallets] at h
    split at h <;> simp at h
  | idempotencyInsert m key hash =>
    simp only [exec, idempotencyInsert] at h
    split at h
    · simp at h
    · simp [Effect.locked, Row.key] at h
  | intentUpdateStatus id status =>
    simp only [exec, intentUpdateStatus] at h
    split at h <;> simp [Row.key] at h
  | payoutMarkPaid id =>
    simp only [exec, payoutMarkPaid] at h
    split at h <;> simp [Row.key] at h
  | payoutMarkRetry id attempts backoff error =>
    simp only [exec, payoutMarkRetry] at h
    split at h <;> simp [Row.key] at h
  | payoutMarkFailed id attempts error t =>
    simp only [exec, payoutMarkFailed] at h
    split at h <;> simp [Row.key] at h
  | idempotencyComplete m key status body =>
    simp only [exec, idempotencyComplete] at h
    split at h <;> simp [Row.key] at h
  | idempotencyRelease m key =>
    simp only [exec, idempotencyRelease] at h
    split at h
    · simp at h
    · simp [Effect.locked, Row.key] at h
  | walletFindByMerchantAndCurrency | endpointListActiveByMerchant | accountFindById
  | payoutListByMerchant | idempotencyGet => simp [exec, walletFindByMerchantAndCurrency,
      endpointListActiveByMerchant, payoutListByMerchant] at h

end Sql

/-! ## The order in which a transaction locks -/

/-- A transaction that wants a wallet holds no other wallet, unless it is a
transfer that holds its source and wants its destination. -/
def OneByOne (t : TxnName) (held : List Uuid) (q : Stmt) : Prop :=
  ∀ k ∈ q.lockedWallet, ∀ k' ∈ held, k' = k ∨ ∃ m dto, t = .transfer m dto ∧
    uuidOfText dto.fromWalletId = some k' ∧ uuidOfText dto.toWalletId = some k

/-- The operands of a transfer's statements come from its request and its reads. -/
def Operands : TxnName → Priv → Stmt → Prop
  | .transfer _ _, _, .walletFindById _ => True
  | .transfer _ _, _, .ledgerCreateTransaction _ => True
  | .transfer _ dto, _, .ledgerAddEntry _ _ _ amount _ =>
    (dto.amount.val : ℤ) < 2 ^ 63 ∧ amount = numText dto.amount.val
  | .transfer _ dto, p, .walletApplyDeltaIfVersion id delta k => (dto.amount.val : ℤ) < 2 ^ 63 ∧
    (∃ w ∈ readWallets p.events, w.id = id ∧ w.version = k) ∧
      (delta = intText (-(dto.amount.val : ℤ)) ∨ delta = intText dto.amount.val)
  | .transfer _ _, _, _ => False
  | _, _, q => ∀ m c, q ≠ .walletCreate m c

def heldWallets (p : Priv) : List Uuid :=
  p.locks.filterMap (fun | .wallet id => some id | _ => none)

theorem mem_heldWallets {p : Priv} {k : Uuid} : k ∈ heldWallets p ↔ Loc.wallet k ∈ p.locks := by
  rw [heldWallets, List.mem_filterMap]
  refine ⟨?_, fun h => ⟨_, h, rfl⟩⟩
  rintro ⟨l, hl, hk⟩
  split at hk
  · rw [Option.some.injEq] at hk
    exact hk ▸ hl
  · cases hk

def InOrder (t : TxnName) (p : Priv) (q : Stmt) : Prop :=
  OneByOne t (heldWallets p) q ∧ Operands t p q

/-- The errors of a transfer are those of the service. -/
def DomainError : TxnName → Priv → Err → Prop
  | .transfer _ _, _, e => ∃ a, e = .app a
  | _, _, _ => True

theorem Operands.not_create {t : TxnName} {p : Priv} {q : Stmt} (h : Operands t p q) (m : Uuid)
    (c : Currency) : q ≠ .walletCreate m c := by
  rintro rfl
  cases t <;> simp [Operands] at h

/-- What a transaction has locked and read: at most these wallets, and these. -/
structure Held (held : List Uuid) (reads : List WalletRow) (p : Priv) : Prop where
  locked : ∀ k ∈ heldWallets p, k ∈ held
  observed : readWallets p.events = reads

theorem Held.begin : Held [] [] .begin := ⟨by simp [heldWallets, Priv.begin], rfl⟩

section Issues

variable {held : List Uuid} {reads : List WalletRow} {p : Priv} {t : TxnName} {q : Stmt} {β : Type}
  {k : Resp q → Tx β}

theorem Held.issues (h : Held held reads p) (A : Resp q → Prop) (hop : Operands t p q)
    (hone : OneByOne t held q)
    (hout : ∀ env busy d r ws, (Sql.exec q env busy d).out = .ok (r, ws) → A r)
    (hk : ∀ r p', A r → Held (q.lockedWallet.toList ++ held) (reads ++ readWallets [.stmt q r]) p' →
      (k r).Issues engine (InOrder t) (DomainError t) p') :
    (Body.stmt q k).Issues engine (InOrder t) (DomainError t) p := by
  refine ⟨⟨fun u hu u' hu' => hone u hu u' (h.locked u' hu'), hop⟩, ?_⟩
  intro env busy d r ws hexec
  refine hk r _ (hout env busy d r ws hexec) ⟨?_, ?_⟩
  · intro u hu
    rw [mem_heldWallets] at hu
    rcases List.mem_append.mp hu with hu | hu
    · exact List.mem_append_right _ (h.locked u (mem_heldWallets.mpr hu))
    · rcases Sql.exec_locked_wallet hu with hu | ⟨m, c, rfl⟩
      · exact List.mem_append_left _ (Option.mem_toList.mpr hu)
      · exact absurd rfl (hop.not_create m c)
  · rw [Priv.add, readWallets_append, h.observed]

/-- A statement that neither locks nor reads a wallet. -/
theorem Held.plain (h : Held held reads p) (hop : Operands t p q) (hq : q.lockedWallet = none)
    (hr : ∀ r, readWallets [.stmt q r] = [])
    (hk : ∀ r p', Held held reads p' → (k r).Issues engine (InOrder t) (DomainError t) p') :
    (Body.stmt q k).Issues engine (InOrder t) (DomainError t) p := by
  refine h.issues (fun _ => True) hop (by simp [OneByOne, hq]) (fun _ _ _ _ _ _ => trivial) ?_
  intro r p' _ hp
  rw [hq, hr, List.append_nil] at hp
  exact hk r p' hp

theorem webhookService.emit_inOrder {m : Uuid} {type : EventType} {data : EventData}
    (h : Held held reads p) (ht : ∀ p q, (∀ m c, q ≠ .walletCreate m c) → Operands t p q) :
    (webhookService.emit m type data).Issues engine (InOrder t) (DomainError t) p := by
  have hall : ∀ (eps : List WebhookEndpointRow) (p : Priv), Held held reads p →
      (webhookService.enqueueAll m type data eps).Issues engine (InOrder t) (DomainError t) p := by
    intro eps
    induction eps with
    | nil => exact fun _ _ => trivial
    | cons ep eps ih =>
      intro p hp
      exact hp.plain (ht _ _ (by simp)) rfl (fun _ => rfl) (fun _ p' hp' => ih p' hp')
  exact h.plain (ht _ _ (by simp)) rfl (fun _ => rfl) (fun eps p' hp' => hall eps p' hp')

end Issues

theorem paymentService.confirmTxn_inOrder (m : Uuid) (id : Text) :
    (confirmTxn m id).Issues engine (InOrder (.confirm m id)) (DomainError (.confirm m id))
      .begin := by
  simp only [confirmTxn, sql, Body.call_bind]
  refine Held.begin.plain (by simp [Operands]) rfl (fun _ => rfl) ?_
  rintro (- | intent) p₁ h₁
  · trivial
  dsimp only
  cases assertTransition intent.status .succeeded "confirm" with
  | error e => trivial
  | ok =>
    simp only [Body.ofExcept, Body.ret_bind]
    refine h₁.plain (by simp [Operands]) rfl (fun _ => rfl) ?_
    rintro (- | wallet) p₂ h₂
    · trivial
    refine h₂.plain (by simp [Operands]) rfl (fun _ => rfl) ?_
    intro transactionId p₃ h₃
    refine h₃.plain (by simp [Operands]) rfl (fun _ => rfl) ?_
    intro _ p₄ h₄
    refine h₄.issues (fun _ => True) (by simp [Operands]) (by simp [OneByOne])
      (fun _ _ _ _ _ _ => trivial) ?_
    intro _ p₅ _ h₅
    refine h₅.plain (by simp [Operands]) rfl (fun _ => rfl) ?_
    intro charge p₆ h₆
    refine h₆.plain (by simp [Operands]) rfl (fun _ => rfl) ?_
    intro _ p₇ h₇
    refine Body.Issues.bind ?_ (webhookService.emit_inOrder h₇ (fun _ _ hq => hq))
    exact fun _ _ => trivial

theorem paymentService.cancelTxn_inOrder (m : Uuid) (id : Text) :
    (cancelTxn m id).Issues engine (InOrder (.cancel m id)) (DomainError (.cancel m id))
      .begin := by
  simp only [cancelTxn, sql, Body.call_bind]
  refine Held.begin.plain (by simp [Operands]) rfl (fun _ => rfl) ?_
  rintro (- | intent) p₁ h₁
  · trivial
  dsimp only
  cases assertTransition intent.status .canceled "cancel" with
  | error e => trivial
  | ok =>
    simp only [Body.ofExcept, Body.ret_bind]
    exact h₁.plain (by simp [Operands]) rfl (fun _ => rfl) (fun _ _ _ => trivial)

namespace payoutService

/-- The row that is locked is the one that is updated. -/
theorem lock_wallet {env : Env} {busy : Loc → Bool} {d : Db} {id : Uuid} {r : Option WalletRow}
    {ws : List Row} (h : (Sql.exec (.walletFindByIdForUpdate id) env busy d).out = .ok (r, ws)) :
    ∀ w ∈ r, w.id = id := by
  rintro w rfl
  exact Db.id_of_wallet (Sql.walletFindByIdForUpdate_ok h).1.symm

theorem sweepTxn_inOrder (min : ℤ) (w : SettleableWallet) : (sweepTxn min w).Issues engine
    (InOrder (.sweep w)) (DomainError (.sweep w)) .begin := by
  refine Held.begin.issues (fun r : Option WalletRow => ∀ x ∈ r, x.id = w.walletId)
    (by simp [Operands]) (by simp [OneByOne]) (fun _ _ _ _ _ h => lock_wallet h) ?_
  rintro (- | wallet) p₁ hid h₁
  · trivial
  simp only [Body.bind]
  split
  · trivial
  refine h₁.plain (by simp [Operands]) rfl (fun _ => rfl) ?_
  intro txnId p₂ h₂
  refine h₂.plain (by simp [Operands]) rfl (fun _ => rfl) ?_
  intro _ p₃ h₃
  refine h₃.issues (fun _ => True) (by simp [Operands]) ?_ (fun _ _ _ _ _ _ => trivial) ?_
  · simp [OneByOne, Stmt.lockedWallet, hid wallet rfl]
  intro _ p₄ _ h₄
  exact h₄.plain (by simp [Operands]) rfl (fun _ => rfl) (fun _ _ _ => trivial)

theorem paidTxn_inOrder (p : PayoutRow) : (paidTxn p).Issues engine (InOrder (.paid p))
    (DomainError (.paid p)) .begin :=
  Held.begin.plain (by simp [Operands]) rfl (fun _ => rfl)
    (fun _ _ h => webhookService.emit_inOrder h (fun _ _ hq => hq))

theorem reversalTxn_inOrder (p : PayoutRow) (attempts : ℕ) (message : String) :
    (reversalTxn p attempts message).Issues engine (InOrder (.reversal p))
      (DomainError (.reversal p)) .begin := by
  refine Held.begin.issues (fun r : Option WalletRow => ∀ x ∈ r, x.id = p.walletId)
    (by simp [Operands]) (by simp [OneByOne]) (fun _ _ _ _ _ h => lock_wallet h) ?_
  rintro (- | wallet) p₁ hid h₁
  · trivial
  refine h₁.plain (by simp [Operands]) rfl (fun _ => rfl) ?_
  intro revTxnId p₂ h₂
  refine h₂.plain (by simp [Operands]) rfl (fun _ => rfl) ?_
  intro _ p₃ h₃
  refine h₃.issues (fun _ => True) (by simp [Operands]) ?_ (fun _ _ _ _ _ _ => trivial) ?_
  · simp [OneByOne, Stmt.lockedWallet, hid wallet rfl]
  intro _ p₄ _ h₄
  exact h₄.plain (by simp [Operands]) rfl (fun _ => rfl)
    (fun _ _ h => webhookService.emit_inOrder h (fun _ _ hq => hq))

end payoutService

namespace transferService

theorem validate_domain {fromRow toRow : Option WalletRow} {m : Uuid} {amount : IntDouble} {e : Err}
    (h : validate fromRow toRow m amount = .error e) : ∃ a, e = .app a := by
  unfold validate at h
  split at h
  · exact ⟨_, (Except.error.inj h).symm⟩
  · exact ⟨_, (Except.error.inj h).symm⟩
  · split_ifs at h <;> exact ⟨_, (Except.error.inj h).symm⟩

/-- The two reads of an attempt. -/
theorem find_inOrder {held : List Uuid} {reads : List WalletRow} {p : Priv} {m : Uuid}
    {dto : CreateTransferDto} {β : Type} {id : Text} {k : Option WalletRow → Tx β}
    (h : Held held reads p)
    (hk : ∀ r p', (∀ w ∈ r, uuidOfText id = some w.id) → Held held (reads ++ r.toList) p' →
      (k r).Issues engine (InOrder (.transfer m dto)) (DomainError (.transfer m dto)) p') :
    (Body.stmt (.walletFindById id) k).Issues engine (InOrder (.transfer m dto))
      (DomainError (.transfer m dto)) p := by
  refine h.issues (fun r : Option WalletRow => ∀ w ∈ r, uuidOfText id = some w.id) trivial
    (by simp [OneByOne, Stmt.lockedWallet]) ?_ ?_
  · intro env busy d r ws hout w hw
    obtain ⟨⟨u, hu, rfl⟩, -⟩ := Sql.walletFindById_ok hout
    rw [hu, Db.id_of_wallet hw]
  · intro r p' hr hp
    refine hk r p' hr ?_
    cases r with
    | none => exact hp
    | some w => exact hp

theorem attempt_inOrder (m : Uuid) (dto : CreateTransferDto) :
    (attempt m dto).Issues engine (InOrder (.transfer m dto)) (DomainError (.transfer m dto))
      .begin := by
  simp only [attempt, recordLedger, sql, Body.call_bind, Body.stmt_bind, Body.pure_eq,
    Body.ret_bind]
  refine find_inOrder Held.begin ?_
  intro fromRow p₁ hfrom h₁
  refine find_inOrder h₁ ?_
  intro toRow p₂ hto h₂
  cases hv : validate fromRow toRow m dto.amount with
  | error e => exact validate_domain hv
  | ok x =>
    obtain ⟨f, t, a⟩ := x
    obtain ⟨rfl, rfl, rfl, -, -, hfunds⟩ := validate_ok hv
    have hfid : uuidOfText dto.fromWalletId = some f.id := hfrom f rfl
    have htid : uuidOfText dto.toWalletId = some t.id := hto t rfl
    have hsmall : (dto.amount.val : ℤ) < 2 ^ 63 := lt_of_le_of_lt hfunds f.balance.hi
    simp only [Body.ofExcept, Body.ret_bind]
    refine h₂.plain trivial rfl (fun _ => rfl) ?_
    intro transactionId p₃ h₃
    refine h₃.plain ⟨hsmall, rfl⟩ rfl (fun _ => rfl) ?_
    intro _ p₄ h₄
    refine h₄.plain ⟨hsmall, rfl⟩ rfl (fun _ => rfl) ?_
    intro _ p₅ h₅
    have hreads : readWallets p₅.events = [f, t] := h₅.observed
    -- the source, with nothing locked
    refine h₅.issues (fun _ => True)
      ⟨hsmall, ⟨f, by simp [hreads], rfl, rfl⟩, Or.inl rfl⟩ (by simp [OneByOne])
      (fun _ _ _ _ _ _ => trivial) ?_
    intro okFrom p₆ _ h₆
    have hreads₆ : readWallets p₆.events = [f, t] := h₆.observed
    -- the destination, with the source locked
    refine h₆.issues (fun _ => True)
      ⟨hsmall, ⟨t, by simp [hreads₆], rfl, rfl⟩, Or.inr rfl⟩ ?_ (fun _ _ _ _ _ _ => trivial) ?_
    · intro k hk k' hk'
      simp only [Stmt.lockedWallet, Option.mem_some_iff] at hk
      simp only [Stmt.lockedWallet, Option.toList_some, List.append_nil, List.mem_singleton] at hk'
      subst hk hk'
      exact Or.inr ⟨m, dto, rfl, hfid, htid⟩
    intro okTo p₇ _ h₇
    split
    · exact ⟨_, rfl⟩
    · trivial

end transferService

theorem program_inOrder (min : ℤ) (j : Job) : (program min j).Opens
    (fun _ t b => b.Issues engine (InOrder t) (DomainError t) .begin) := by
  refine (program_opens min j).imp ?_
  intro β t b hopened
  cases hopened with
  | transfer m dto => exact transferService.attempt_inOrder m dto
  | confirm m id => exact paymentService.confirmTxn_inOrder m id
  | cancel m id => exact paymentService.cancelTxn_inOrder m id
  | sweep w => exact payoutService.sweepTxn_inOrder min w
  | paid p => exact payoutService.paidTxn_inOrder p
  | reversal p attempts message => exact payoutService.reversalTxn_inOrder p attempts message

/-! ## The cycles -/

/-- An open transfer moves money from the first wallet to the second. -/
def Sends (s : Sys) (u v : Uuid) : Prop :=
  u ≠ v ∧ ∃ i m dto p, s.txn? i = some (.transfer m dto, p) ∧
    uuidOfText dto.fromWalletId = some u ∧ uuidOfText dto.toWalletId = some v

def Loc.isWallet (l : Loc) : Prop := ∃ id, l = .wallet id

/-! ## The errors of a transfer -/

/-- A failure that has its cause in the request, in the identifiers that were
generated, or in the wallets as they were read: nobody else has a part in it. -/
inductive OwnFault (dto : CreateTransferDto) (p : Priv) (v : Db) (u : ℕ) : Stmt → Fault → Prop
  | unreadable {id : Text} : uuidOfText id = none →
      OwnFault dto p v u (.walletFindById id) .invalidText
  | transactionTaken {type : TransactionType} : (v.get (.transaction u)).isSome →
      OwnFault dto p v u (.ledgerCreateTransaction type) .uniqueViolation
  | entryTaken {t w : Uuid} {dir : Direction} {amount : Text} {c : Currency} :
      (v.get (.entry u)).isSome → OwnFault dto p v u (.ledgerAddEntry t w dir amount c)
        .uniqueViolation
  | overflow {id : Uuid} {delta : Text} {k : ℕ} {w : WalletRow} : w ∈ readWallets p.events →
      w.id = id → w.version = k →
      (2 ^ 31 ≤ w.version + 1 ∨ 2 ^ 63 ≤ w.balance.val + dto.amount.val) →
      OwnFault dto p v u (.walletApplyDeltaIfVersion id delta k) .numericOutOfRange

theorem Sql.insert_error {v : Db} {row : Row} {α : Type} {a : α} {f : Fault}
    (h : (insert v row a).out = .error f) : (v.get row.key).isSome ∧ f = .uniqueViolation := by
  unfold insert at h
  split at h
  · rename_i hsome
    exact ⟨hsome, (Except.error.inj h).symm⟩
  · cases h

theorem Sql.walletApplyDeltaIfVersion_error {env : Env} {busy : Loc → Bool} {v : Db} {id : Uuid}
    {z : ℤ} {k : ℕ} {f : Fault} (hz : -2 ^ 63 ≤ z ∧ z < 2 ^ 63)
    (h : (exec (.walletApplyDeltaIfVersion id (intText z) k) env busy v).out = .error f) :
    f = .checkViolation ∨ ∃ w, v.wallet id = some w ∧ w.version = k ∧ f = .numericOutOfRange ∧
      (2 ^ 31 ≤ w.version + 1 ∨ ¬ (-2 ^ 63 ≤ w.balance.val + z ∧ w.balance.val + z < 2 ^ 63)) := by
  have hparse : Bigint.parse (intText z) = some ⟨z, hz.1, hz.2⟩ := by
    rw [Bigint.parse_intText, Bigint.ofInt?_eq_some]
  simp only [exec, walletApplyDeltaIfVersion] at h
  split at h
  · cases h
  rename_i w hw
  split at h
  · rename_i hversion
    split at h
    · simp only [addBalance, hparse] at h
      split at h
      · rename_i hsum
        refine Or.inr ⟨w, hw, hversion, (Except.error.inj h).symm, Or.inr ?_⟩
        intro hrange
        have hsome : w.balance.add? ⟨z, hz.1, hz.2⟩ = some ⟨_, hrange.1, hrange.2⟩ :=
          Bigint.add?_eq_some.mpr rfl
        rw [hsome] at hsum
        cases hsum
      · split at h
        · cases h
        · exact Or.inl (Except.error.inj h).symm
    · rename_i hversion'
      exact Or.inr ⟨w, hw, hversion, (Except.error.inj h).symm, Or.inl (not_lt.mp hversion')⟩
  · cases h

/-- A statement of a transfer that finds what the transfer has read fails by
itself or not at all. -/
theorem statement_fails {m : Uuid} {dto : CreateTransferDto} {p : Priv} {q : Stmt} {v : Db}
    {env : Env} {busy : Loc → Bool} {f : Fault} (hop : Operands (.transfer m dto) p q)
    (hmatches : q.Matches p.events v) (hpasses : q.PassesCheck v)
    (h : (Sql.exec q env busy v).out = .error f) : OwnFault dto p v env.uuid q f := by
  have hround := dto.amount.exact
  cases q with
  | walletFindById id =>
    simp only [Sql.exec, Sql.walletFindById] at h
    split at h
    · rename_i hid
      obtain rfl := Except.error.inj h
      exact .unreadable hid
    · cases h
  | ledgerCreateTransaction type =>
    obtain ⟨htaken, rfl⟩ := Sql.insert_error h
    exact .transactionTaken htaken
  | ledgerAddEntry t w dir amount c =>
    obtain ⟨hsmall, rfl⟩ := hop
    have hshort := shortest_lt hround (by exact_mod_cast hsmall)
    have hpos := shortest_pos hround dto.amount.pos
    have hparse : Bigint.parse (numText dto.amount.val) =
        some ⟨shortest dto.amount.val, by omega, by omega⟩ := by
      rw [Bigint.parse_numText, Bigint.ofInt?_eq_some]
    simp only [Sql.exec, Sql.ledgerAddEntry, Sql.insertAmount, hparse] at h
    rw [dif_pos (Int.natCast_pos.mpr hpos)] at h
    obtain ⟨htaken, rfl⟩ := Sql.insert_error h
    exact .entryTaken htaken
  | walletApplyDeltaIfVersion id delta k =>
    obtain ⟨hsmall, ⟨w, hw, rfl, rfl⟩, hdelta⟩ := hop
    obtain ⟨z, hlo, hhi, rfl⟩ : ∃ z : ℤ, -dto.amount.val ≤ z ∧ z ≤ dto.amount.val ∧
        delta = intText z := by
      rcases hdelta with rfl | rfl
      · exact ⟨_, le_refl _, by omega, rfl⟩
      · exact ⟨_, by omega, le_refl _, rfl⟩
    rcases Sql.walletApplyDeltaIfVersion_error ⟨by omega, by omega⟩ h with
      rfl | ⟨r, hr, hversion, rfl, hrange⟩
    · exact absurd h (hpasses rfl env busy)
    · -- the row is the one that was read
      have hbalance : r.balance = w.balance :=
        hmatches (w.id, w.version) rfl w hw rfl rfl r hr hversion
      have hcheck := w.check
      rw [hversion, hbalance] at hrange
      exact .overflow hw rfl rfl (hrange.imp_right (fun hout => by omega))
  | _ => exact hop.elim

section Runs

variable {min : ℤ} {s : Sys}

theorem reachable_locked (h : Reachable min s) : s.Locked :=
  (Reach.safe (commits_lawful min) trivial (fun j d _ => program_safe j d) (by simp [SideOk])
    h).locked

theorem next_inOrder (h : Reachable min s) {i : ℕ} {n : Node} {p : Priv} {q : Stmt}
    (hn : s.nodes[i]? = some n) (hnext : n.next = some (p, q)) :
    ∃ t, s.txn? i = some (t, p) ∧ InOrder t p q := by
  obtain ⟨t, ht, horderly⟩ :=
    (Reach.issues (program_inOrder min) h n (List.mem_of_getElem? hn)).ok hnext
  refine ⟨t, ?_, horderly⟩
  rw [TxStore.Sys.txn?, hn, Option.bind_some, ht]

/-- Only a transfer wants a wallet while it holds another. -/
theorem precedes_sends (h : Reachable min s) {l l' : Loc}
    (hprecedes : s.Precedes engine Loc.isWallet l l') :
    ∃ u v, l = .wallet u ∧ l' = .wallet v ∧ Sends s u v := by
  obtain ⟨⟨u, rfl⟩, ⟨v, rfl⟩, hne, i, ⟨n, hn, hheld⟩, n', p, q, x, hn', hnext, hwanted⟩ := hprecedes
  rw [hn, Option.some.injEq] at hn'
  subst hn'
  obtain ⟨t, ht, hone, hop⟩ := next_inOrder h hn hnext
  have hlocks : n.locks = p.locks := by
    rw [TxStore.Sys.txn?, hn, Option.bind_some] at ht
    exact Node.locks_of_txn? ht
  rcases Sql.exec_locked_wallet hwanted with hq | ⟨m, c, rfl⟩
  · rcases hone v hq u (mem_heldWallets.mpr (hlocks ▸ hheld)) with rfl | ⟨m, dto, rfl, hfrom, hto⟩
    · exact absurd rfl hne
    · refine ⟨u, v, rfl, rfl, ?_, i, m, dto, p, ht, hfrom, hto⟩
      rintro rfl
      exact hne rfl
  · exact absurd rfl (hop.not_create m c)

theorem sends_path {l l' : Loc} {r : Loc → Loc → Prop}
    (hr : ∀ l l', r l l' → ∃ u v, l = .wallet u ∧ l' = .wallet v ∧ Sends s u v)
    (h : TransGen r l l') : ∃ u v, l = .wallet u ∧ l' = .wallet v ∧ TransGen (Sends s) u v := by
  induction h with
  | single hstep =>
    obtain ⟨u, v, hu, hv, hsends⟩ := hr _ _ hstep
    exact ⟨u, v, hu, hv, .single hsends⟩
  | tail _ hstep ih =>
    obtain ⟨u, v, hu, rfl, hpath⟩ := ih
    obtain ⟨v', x, hv, hx, hsends⟩ := hr _ _ hstep
    rw [Loc.wallet.injEq] at hv
    subst hv
    exact ⟨u, x, hu, hx, hpath.tail hsends⟩

theorem no_wait_cycle (h : Reachable min s) (hacyclic : ∀ u, ¬ TransGen (Sends s) u u) (i : ℕ) :
    ¬ TransGen (s.Waits engine Loc.isWallet) i i := by
  refine Sys.Waits.acyclic (reachable_locked h) (fun _ _ hprecedes => hprecedes) ?_
  intro l hcycle
  obtain ⟨u, v, rfl, hv, hpath⟩ := sends_path (fun _ _ hp => precedes_sends h hp) hcycle
  rw [Loc.wallet.injEq] at hv
  exact hacyclic u (hv ▸ hpath)

/-- An error with which a transfer's transaction ends, short of a failure from
outside, is one of the service, or none that others have caused. -/
theorem raised_own (h : ReachBy min (fun s l _ => Undisturbed s l) s) {i u : ℕ} {m : Uuid}
    {dto : CreateTransferDto} {p : Priv} {e : Err} (htxn : s.txn? i = some (.transfer m dto, p))
    (hraised : s.raised engine i u = some e) :
    (∃ a, e = .app a) ∨ ∃ q f, e = .db f ∧ OwnFault dto p (p.view s.db) u q f := by
  have hreach : Reachable min s := h.mono (fun _ _ _ _ => trivial)
  obtain ⟨n, hn, ⟨t, p', hthrow⟩ | ⟨p', q, f, hnext, hout, rfl⟩⟩ := Sys.raised_eq_some hraised
  · have hdomain := (Reach.issues (program_inOrder min) hreach n (List.mem_of_getElem? hn)).thrown
      hthrow
    rw [TxStore.Sys.txn?, hn, Option.bind_some, Node.txn?_of_throws hthrow, Option.some.injEq,
      Prod.mk.injEq] at htxn
    obtain ⟨rfl, -⟩ := htxn
    exact Or.inl hdomain
  · obtain ⟨t, ht, -, hop⟩ := next_inOrder hreach hn hnext
    rw [htxn, Option.some.injEq, Prod.mk.injEq] at ht
    obtain ⟨rfl, rfl⟩ := ht
    obtain ⟨hmatches, hpasses⟩ := next_sound h (List.mem_of_getElem? hn) hnext
    exact Or.inr ⟨q, f, rfl, statement_fails hop hmatches hpasses hout⟩

end Runs

theorem transfers_free_of_deadlock {min : ℤ} {s : Sys} (h : Reachable min s) :
    ((∀ u, ¬ TransGen (Sends s) u u) → ∀ i, ¬ TransGen (s.Waits engine Loc.isWallet) i i) ∧
    (ReachBy min (fun s l _ => Undisturbed s l) s → ∀ i u m dto p e,
      s.txn? i = some (.transfer m dto, p) → s.raised engine i u = some e →
      (∃ a, e = .app a) ∨ ∃ q f, e = .db f ∧ OwnFault dto p (p.view s.db) u q f) :=
  ⟨no_wait_cycle h, fun hcalm _ _ _ _ _ _ htxn hraised => raised_own hcalm htxn hraised⟩

/-- Process `i` is about to lock the wallet `id`, which process `j` has locked. -/
def waitsFor (s : Sys) (i j : ℕ) (id : Uuid) : Bool :=
  decide (j ≠ i) && (s.nodes[i]?.bind TxStore.Node.next).any (fun x => decide (Loc.wallet id ∈
    (Sql.exec x.2 ⟨s.now, 0⟩ (s.busy i) (x.1.view s.db)).locked Row.key)) &&
    s.nodes[j]?.any (fun n => decide (Loc.wallet id ∈ TxStore.Node.locks n))

theorem waits_of_waitsFor {s : Sys} {i j : ℕ} {id : Uuid} (h : waitsFor s i j id = true) :
    s.Waits engine Loc.isWallet i j := by
  rw [waitsFor, Bool.and_eq_true, Bool.and_eq_true, decide_eq_true_eq] at h
  obtain ⟨⟨hne, hwants⟩, hholds⟩ := h
  obtain ⟨⟨p, q⟩, hnext, hwants⟩ := (Option.any_eq_true _ _).mp hwants
  obtain ⟨n, hn, hnext⟩ := Option.bind_eq_some_iff.mp hnext
  obtain ⟨m, hm, hholds⟩ := (Option.any_eq_true _ _).mp hholds
  exact ⟨hne, .wallet id, ⟨id, rfl⟩, ⟨n, p, q, 0, hn, hnext, of_decide_eq_true hwants⟩, m, hm,
    of_decide_eq_true hholds⟩

/-- Every open transfer goes from wallet 1 to wallet 2. -/
def allFromOneToTwo (s : Sys) : Bool :=
  s.nodes.all (fun n => match n.txn? with
    | some (.transfer _ dto, _) => decide (uuidOfText dto.fromWalletId = some 1 ∧
        uuidOfText dto.toWalletId = some 2)
    | _ => true)

theorem sends_of_allFromOneToTwo {s : Sys} (h : allFromOneToTwo s = true) {u v : Uuid}
    (hsends : Sends s u v) : u = 1 ∧ v = 2 := by
  obtain ⟨-, i, m, dto, p, htxn, hfrom, hto⟩ := hsends
  obtain ⟨n, hn, ht⟩ := Sys.txn?_eq_some.mp htxn
  have hall := List.all_eq_true.mp h n (List.mem_of_getElem? hn)
  rw [ht] at hall
  obtain ⟨hone, htwo⟩ := of_decide_eq_true hall
  rw [hone, Option.some.injEq] at hfrom
  rw [htwo, Option.some.injEq] at hto
  exact ⟨hfrom.symm, hto.symm⟩

/-- Two transfers in one direction: the second waits for the first. -/
theorem transfers_free_of_deadlock_queue : ∃ s : Sys, s.Waits engine Loc.isWallet 5 4 ∧
    ¬ TransGen (s.Waits engine Loc.isWallet) 5 5 := by
  have hrun : (runFrom 10 (paidHundred ++
      .start (.transfer 1 transferFifty) :: drive 4 7 20 ++
      .start (.transfer 1 transferTen) :: drive 5 6 30)).any (fun s : Sys =>
        waitsFor s 5 4 1 && allFromOneToTwo s) = true := by
    decide +kernel
  obtain ⟨s, hs, htest⟩ := exists_run hrun
  rw [Bool.and_eq_true] at htest
  refine ⟨s, waits_of_waitsFor htest.1, (transfers_free_of_deadlock hs.reach).1 ?_ 5⟩
  intro u hcycle
  have hends : ∀ v, TransGen (Sends s) u v → u = 1 ∧ v = 2 := by
    intro v hpath
    induction hpath with
    | single hsends => exact sends_of_allFromOneToTwo htest.2 hsends
    | tail _ hsends ih => exact ⟨ih.1, (sends_of_allFromOneToTwo htest.2 hsends).2⟩
  obtain ⟨hone, htwo⟩ := hends u hcycle
  rw [hone] at htwo
  cases htwo

def transferBack : CreateTransferDto :=
  ⟨smallId '2', smallId '1', fifty, smallId_two, smallId_one, smallId_one_ne_two.symm⟩

/-- Two transfers in opposite directions: each has debited its source, and credits
the wallet that the other has debited. -/
theorem opposite_transfers_deadlock : ∃ s : Sys, Reachable 10 s ∧
    TransGen (s.Waits engine Loc.isWallet) 6 6 := by
  have hrun : (runFrom 10 (paidHundred ++
      .start (.createIntent 2 ⟨hundred, .NGN, none, noReference⟩) :: drive 4 2 4 ++
      .start (.confirm 2 (smallId '5')) :: drive 5 10 30 ++
      .start (.transfer 1 transferFifty) :: .start (.transfer 2 transferBack) ::
        drive 6 7 50 ++ drive 7 7 60)).any (fun s : Sys =>
        waitsFor s 6 7 2 && waitsFor s 7 6 1) = true := by
    decide +kernel
  obtain ⟨s, hs, htest⟩ := exists_run hrun
  rw [Bool.and_eq_true] at htest
  exact ⟨s, hs.reach, .tail (.single (waits_of_waitsFor htest.1)) (waits_of_waitsFor htest.2)⟩

end PaymentApis
