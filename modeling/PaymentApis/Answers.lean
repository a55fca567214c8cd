import PaymentApis.Statements

/-!
# Statements that succeed

What a statement of the services answers, and the row versions it writes, when
the rows it needs are there, its new identifiers are new, and its amounts fit.
-/

namespace PaymentApis.Sql

open TxStore

variable {env : Env} {busy : Loc → Bool} {v : Db}

theorem walletFindById_run {id : Text} {w : WalletRow} (hid : uuidOfText id = some w.id)
    (hw : v.wallet w.id = some w) :
    (exec (.walletFindById id) env busy v).out = .ok (some w, []) := by
  simp [exec, walletFindById, hid, read, hw]

theorem ledgerCreateTransaction_run {type : TransactionType}
    (hnew : v.get (.transaction env.uuid) = none) :
    (exec (.ledgerCreateTransaction type) env busy v).out =
      .ok (env.uuid, [.transaction ⟨env.uuid, type⟩]) := by
  simp [exec, ledgerCreateTransaction, insert, Row.key, hnew]

theorem ledgerAddEntry_run {t w : Uuid} {dir : Direction} {amount : Text} {c : Currency}
    {a : Bigint} (hparse : Bigint.parse amount = some a) (hpos : 0 < a.val)
    (hnew : v.get (.entry env.uuid) = none) :
    (exec (.ledgerAddEntry t w dir amount c) env busy v).out =
      .ok ((), [.entry ⟨env.uuid, t, w, dir, a, c, hpos⟩]) := by
  simp [exec, ledgerAddEntry, insertAmount, hparse, hpos, insert, Row.key, hnew]

theorem walletApplyDeltaIfVersion_run {w : WalletRow} {z : ℤ} (hw : v.wallet w.id = some w)
    (hversion : w.version + 1 < 2 ^ 31) (hz : -2 ^ 63 ≤ z ∧ z < 2 ^ 63)
    (hlo : 0 ≤ w.balance.val + z) (hhi : w.balance.val + z < 2 ^ 63) :
    ∃ w', w'.id = w.id ∧ (exec (.walletApplyDeltaIfVersion w.id (intText z) w.version) env busy
      v).out = .ok (true, [.wallet w']) := by
  have hparse : Bigint.parse (intText z) = some ⟨z, hz.1, hz.2⟩ := by
    rw [Bigint.parse_intText, Bigint.ofInt?_eq_some]
  have hsum : w.balance.add? ⟨z, hz.1, hz.2⟩ = some ⟨w.balance.val + z, by omega, hhi⟩ :=
    Bigint.add?_eq_some.mpr rfl
  refine ⟨⟨w.id, w.merchantId, w.currency, ⟨w.balance.val + z, by omega, hhi⟩, w.version + 1, hlo⟩,
    rfl, ?_⟩
  have hupdate : exec (.walletApplyDeltaIfVersion w.id (intText z) w.version) env busy v =
      addBalance w (intText z) (w.version + 1) true := by
    simp only [exec, walletApplyDeltaIfVersion, hw]
    rw [if_pos trivial, if_pos hversion]
  rw [hupdate]
  simp only [addBalance, hparse, hsum]
  rw [dif_pos hlo]

theorem intentInsert_run {m : Uuid} {amount : Text} {c : Currency} {ref : Option String}
    {a : Bigint} (hparse : Bigint.parse amount = some a) (hpos : 0 < a.val)
    (hnew : v.get (.intent env.uuid) = none) :
    (exec (.intentInsert m amount c ref) env busy v).out =
      .ok (⟨env.uuid, m, a, c, .requiresConfirmation, ref, hpos⟩,
        [.intent ⟨env.uuid, m, a, c, .requiresConfirmation, ref, hpos⟩]) := by
  simp [exec, intentInsert, insertAmount, hparse, hpos, insert, Row.key, hnew]

theorem walletFindByIdForUpdate_run {w : WalletRow} (hw : v.wallet w.id = some w) :
    (exec (.walletFindByIdForUpdate w.id) env busy v).out = .ok (some w, []) := by
  simp [exec, walletFindByIdForUpdate, hw, lockRow]

theorem walletApplyDelta_run {w : WalletRow} {z : ℤ} {c : Bigint}
    (hw : v.wallet w.id = some w) (hz : -2 ^ 63 ≤ z ∧ z < 2 ^ 63) (hc : c.val = w.balance.val + z)
    (h : 0 ≤ c.val) : (exec (.walletApplyDelta w.id (intText z)) env busy v).out =
      .ok ((), [.wallet { w with balance := c, check := h }]) := by
  have hparse : Bigint.parse (intText z) = some ⟨z, hz.1, hz.2⟩ := by
    rw [Bigint.parse_intText, Bigint.ofInt?_eq_some]
  have hsum : w.balance.add? ⟨z, hz.1, hz.2⟩ = some c := Bigint.add?_eq_some.mpr hc
  simp only [exec, walletApplyDelta, hw, addBalance, hparse, hsum]
  rw [dif_pos h]

theorem payoutListSettleableWallets_run {min : Bigint} {m : Option Uuid} :
    (exec (.payoutListSettleableWallets (intText min.val) m) env busy v).out =
      .ok (settleable v min m, []) := by
  have hparse : Bigint.parse (intText min.val) = some min := Bigint.parse_text min
  simp only [exec, payoutListSettleableWallets, hparse, read]

theorem payoutListSettleableWallets_overflow {min : ℤ} {m : Option Uuid} (h : 2 ^ 63 ≤ min) :
    (exec (.payoutListSettleableWallets (intText min) m) env busy v).out =
      .error .numericOutOfRange := by
  have hparse : Bigint.parse (intText min) = none := by
    rw [Bigint.parse_intText, Bigint.ofInt?, dif_neg (by omega)]
  have hfault : bigintFault (intText min) = .numericOutOfRange := by
    simp [bigintFault, parseInt_intText]
  simp only [exec, payoutListSettleableWallets, hparse, failure, hfault]

theorem payoutCreatePending_run {m w a t : Uuid} {c : Currency} {amount : Text} {b : Bigint}
    (hparse : Bigint.parse amount = some b) (hpos : 0 < b.val)
    (hnew : v.get (.payout env.uuid) = none) :
    (exec (.payoutCreatePending m w a c amount t) env busy v).out =
      .ok (⟨env.uuid, m, w, a, c, b, .pending, t, none, 0, env.now, none, hpos⟩,
        [.payout ⟨env.uuid, m, w, a, c, b, .pending, t, none, 0, env.now, none, hpos⟩]) := by
  simp [exec, payoutCreatePending, insertAmount, hparse, hpos, insert, Row.key, hnew]

theorem intentFindByIdForUpdate_run {id : Text} {x : PaymentIntentRow}
    (hid : uuidOfText id = some x.id) (hx : v.intent x.id = some x) :
    (exec (.intentFindByIdForUpdate x.merchantId id) env busy v).out = .ok (some x, []) := by
  simp [exec, intentFindByIdForUpdate, hid, hx, lockRow]

theorem walletFindByMerchantAndCurrency_run {m : Uuid} {c : Currency} {w : WalletRow}
    (hw : v.wallets.find? (fun w => decide (w.merchantId = m ∧ w.currency = c)) = some w) :
    (exec (.walletFindByMerchantAndCurrency m c) env busy v).out = .ok (some w, []) := by
  simp only [exec, walletFindByMerchantAndCurrency, read, hw]

theorem chargeInsert_run {i m t : Uuid} {c : Currency} {amount : Text} {a : Bigint}
    (hparse : Bigint.parse amount = some a) (hpos : 0 < a.val)
    (hnew : v.get (.charge env.uuid) = none) :
    (exec (.chargeInsert i m amount c t) env busy v).out =
      .ok (⟨env.uuid, i, m, a, c, t, hpos⟩, [.charge ⟨env.uuid, i, m, a, c, t, hpos⟩]) := by
  simp [exec, chargeInsert, insertAmount, hparse, hpos, insert, Row.key, hnew]

theorem intentUpdateStatus_run {x : PaymentIntentRow} {status : PaymentIntentStatus}
    (hx : v.intent x.id = some x) : (exec (.intentUpdateStatus x.id status) env busy v).out =
      .ok ((), [.intent { x with status := status }]) := by
  simp only [exec, intentUpdateStatus, hx, update]

theorem eventEnqueue_run {m e : Uuid} {type : EventType} {payload : EventPayload}
    (hnew : v.get (.event env.uuid) = none) :
    (exec (.eventEnqueue m e type payload) env busy v).out =
      .ok ((), [.event (.enqueued env.uuid m e type payload env.now)]) := by
  simp [exec, eventEnqueue, insert, Row.key, hnew]

theorem payoutMarkFailed_run {p : PayoutRow} {attempts : ℕ} {message : String} {t : Uuid}
    (hp : v.payout p.id = some p) :
    (exec (.payoutMarkFailed p.id attempts message t) env busy v).out = .ok ((), [.payout { p with
      status := .failed, attempts := attempts, failureReason := some message,
      reversalTransactionId := some t }]) := by
  simp only [exec, payoutMarkFailed, hp, update]

end PaymentApis.Sql
