import PaymentApis.Statements

/-!
# What the statements guarantee

One lemma for each statement: what its success says about the rows it saw, its
answer and the row versions it writes.
-/

namespace PaymentApis

open TxStore

namespace Sql

variable {α : Type} {env : Env} {busy : Loc → Bool} {v : Db} {ws : List Row}

theorem insert_ok {row : Row} {a r : α} (h : (insert v row a).out = .ok (r, ws)) :
    v.get row.key = none ∧ r = a ∧ ws = [row] := by
  unfold insert at h
  split at h
  · simp [failure] at h
  · rename_i hnew
    simp only [Except.ok.injEq, Prod.mk.injEq] at h
    exact ⟨by simpa using hnew, h.1.symm, h.2.symm⟩

theorem insertAmount_ok {t : Text} {row : (a : Bigint) → 0 < a.val → Row × α} {r : α}
    (h : (insertAmount v t row).out = .ok (r, ws)) :
    ∃ (a : Bigint) (ha : 0 < a.val), Bigint.parse t = some a ∧ v.get (row a ha).1.key = none ∧
      r = (row a ha).2 ∧ ws = [(row a ha).1] := by
  unfold insertAmount at h
  split at h
  · simp [failure] at h
  · rename_i a ht
    split at h
    · rename_i ha
      exact ⟨a, ha, ht, insert_ok h⟩
    · simp [failure] at h

theorem addBalance_ok {w : WalletRow} {delta : Text} {version : ℕ} {a r : α}
    (h : (addBalance w delta version a).out = .ok (r, ws)) :
    r = a ∧ ∃ (b c : Bigint) (hc : 0 ≤ c.val), Bigint.parse delta = some b ∧
      c.val = w.balance.val + b.val ∧
      ws = [.wallet { w with balance := c, version := version, check := hc }] := by
  unfold addBalance at h
  split at h
  · simp [failure] at h
  · rename_i b hb
    split at h
    · simp at h
    · rename_i c hc
      split at h
      · rename_i hnonneg
        simp only [Except.ok.injEq, Prod.mk.injEq] at h
        exact ⟨h.1.symm, b, c, hnonneg, hb, Bigint.add?_eq_some.mp hc, h.2.symm⟩
      · simp at h

theorem walletCreate_ok {m : Uuid} {c : Currency} {r : WalletRow}
    (h : (exec (.walletCreate m c) env busy v).out = .ok (r, ws)) :
    (r.merchantId = m ∧ r.currency = c ∧ r.balance = .zero ∧ r.version = 0) ∧
      (∀ w ∈ v.wallets, ¬ (w.merchantId = m ∧ w.currency = c)) ∧
      v.get (.wallet r.id) = none ∧ ws = [.wallet r] := by
  simp only [exec, walletCreate] at h
  split at h
  · simp [failure] at h
  · rename_i howner
    obtain ⟨hnew, rfl, rfl⟩ := insert_ok h
    simp only [List.any_eq_true, decide_eq_true_eq, not_exists, not_and] at howner
    exact ⟨⟨rfl, rfl, rfl, rfl⟩, fun w hw hc => howner w hw hc.1 hc.2, hnew, rfl⟩

theorem walletFindById_ok {id : Text} {r : Option WalletRow}
    (h : (exec (.walletFindById id) env busy v).out = .ok (r, ws)) :
    (∃ u, uuidOfText id = some u ∧ r = v.wallet u) ∧ ws = [] := by
  simp only [exec, walletFindById] at h
  split at h
  · simp [failure] at h
  · rename_i u hu
    simp only [read, Except.ok.injEq, Prod.mk.injEq] at h
    exact ⟨⟨u, hu, h.1.symm⟩, h.2.symm⟩

theorem walletFindByIdForUpdate_ok {id : Uuid} {r : Option WalletRow}
    (h : (exec (.walletFindByIdForUpdate id) env busy v).out = .ok (r, ws)) :
    r = v.wallet id ∧ ws = [] ∧ ∀ w, r = some w →
      .wallet id ∈ (exec (.walletFindByIdForUpdate id) env busy v).locked Row.key := by
  simp only [exec, walletFindByIdForUpdate] at h ⊢
  cases hw : v.wallet id with
  | none =>
    simp only [hw, read, Except.ok.injEq, Prod.mk.injEq] at h
    refine ⟨h.1.symm, h.2.symm, ?_⟩
    intro w hr
    rw [← h.1] at hr
    simp at hr
  | some w =>
    simp only [hw, lockRow, Except.ok.injEq, Prod.mk.injEq] at h
    refine ⟨h.1.symm, h.2.symm, ?_⟩
    intro w' _
    simp [lockRow, Effect.locked]

theorem walletApplyDelta_ok {id : Uuid} {delta : Text} {w : WalletRow} {r : Unit}
    (hw : v.wallet id = some w)
    (h : (exec (.walletApplyDelta id delta) env busy v).out = .ok (r, ws)) :
    ∃ (b c : Bigint) (hc : 0 ≤ c.val), Bigint.parse delta = some b ∧
      c.val = w.balance.val + b.val ∧ ws = [.wallet { w with balance := c, check := hc }] := by
  simp only [exec, walletApplyDelta, hw] at h
  exact (addBalance_ok h).2

theorem walletApplyDeltaIfVersion_ok {id : Uuid} {delta : Text} {n : ℕ} {r : Bool}
    (h : (exec (.walletApplyDeltaIfVersion id delta n) env busy v).out = .ok (r, ws)) :
    (r = false ∧ ws = []) ∨ (r = true ∧ ∃ w, v.wallet id = some w ∧ w.version = n ∧
      ∃ (b c : Bigint) (hc : 0 ≤ c.val), Bigint.parse delta = some b ∧
        c.val = w.balance.val + b.val ∧
        ws = [.wallet { w with balance := c, version := w.version + 1, check := hc }]) := by
  simp only [exec, walletApplyDeltaIfVersion] at h
  cases hw : v.wallet id with
  | none =>
    simp only [hw, read, Except.ok.injEq, Prod.mk.injEq] at h
    exact Or.inl ⟨h.1.symm, h.2.symm⟩
  | some w =>
    simp only [hw] at h
    split at h
    · rename_i hversion
      split at h
      · obtain ⟨rfl, hrest⟩ := addBalance_ok h
        exact Or.inr ⟨rfl, w, rfl, hversion, hrest⟩
      · simp at h
    · simp only [read, Except.ok.injEq, Prod.mk.injEq] at h
      exact Or.inl ⟨h.1.symm, h.2.symm⟩

/-- The conditional update breaks `CHECK (balance >= 0)` only when the version
matches and the balance it finds is too low. -/
theorem walletApplyDeltaIfVersion_check {id : Uuid} {delta : Text} {n : ℕ}
    (h : (exec (.walletApplyDeltaIfVersion id delta n) env busy v).out = .error .checkViolation) :
    ∃ w b, v.wallet id = some w ∧ w.version = n ∧ Bigint.parse delta = some b ∧
      w.balance.val + b.val < 0 := by
  simp only [exec, walletApplyDeltaIfVersion] at h
  cases hw : v.wallet id with
  | none => simp [hw, read] at h
  | some w =>
    simp only [hw] at h
    split at h
    · rename_i hversion
      split at h
      · unfold addBalance at h
        split at h
        · simp only [failure, bigintFault, Except.error.injEq] at h
          split at h <;> simp at h
        · rename_i b hb
          split at h
          · simp at h
          · rename_i c hc
            split at h
            · simp at h
            · rename_i hneg
              refine ⟨w, b, rfl, hversion, hb, ?_⟩
              rw [← Bigint.add?_eq_some.mp hc]
              exact not_le.mp hneg
      · simp at h
    · simp [read] at h

theorem walletFindByMerchantAndCurrency_ok {m : Uuid} {c : Currency} {r : Option WalletRow}
    (h : (exec (.walletFindByMerchantAndCurrency m c) env busy v).out = .ok (r, ws)) :
    (∀ w, r = some w → v.wallet w.id = some w ∧ w.merchantId = m ∧ w.currency = c) ∧ ws = [] := by
  simp only [exec, walletFindByMerchantAndCurrency, read, Except.ok.injEq, Prod.mk.injEq] at h
  obtain ⟨rfl, rfl⟩ := h
  refine ⟨?_, rfl⟩
  intro w hw
  have hmem := List.mem_of_find?_eq_some hw
  have hprop := List.find?_some hw
  simp only [decide_eq_true_eq] at hprop
  exact ⟨Db.wallet_eq_some.mpr (Db.mem_wallets.mp hmem), hprop.1, hprop.2⟩

theorem ledgerCreateTransaction_ok {type : TransactionType} {r : Uuid}
    (h : (exec (.ledgerCreateTransaction type) env busy v).out = .ok (r, ws)) :
    ∃ row, ws = [row] ∧ v.get row.key = none ∧ row = .transaction ⟨r, type⟩ := by
  obtain ⟨hnew, rfl, rfl⟩ := insert_ok h
  exact ⟨_, rfl, hnew, rfl⟩

theorem ledgerAddEntry_ok {t w : Uuid} {dir : Direction} {amount : Text} {c : Currency} {r : Unit}
    (h : (exec (.ledgerAddEntry t w dir amount c) env busy v).out = .ok (r, ws)) :
    ∃ row, ws = [row] ∧ v.get row.key = none ∧ ∃ (id : Uuid) (a : Bigint) (ha : 0 < a.val),
      Bigint.parse amount = some a ∧ row = .entry ⟨id, t, w, dir, a, c, ha⟩ := by
  obtain ⟨a, ha, hparse, hnew, -, rfl⟩ := insertAmount_ok h
  exact ⟨_, rfl, hnew, _, a, ha, hparse, rfl⟩

theorem intentInsert_ok {m : Uuid} {amount : Text} {c : Currency} {ref : Option String}
    {r : PaymentIntentRow} (h : (exec (.intentInsert m amount c ref) env busy v).out = .ok (r, ws)) :
    (r.merchantId = m ∧ r.currency = c ∧ r.customerReference = ref ∧
      r.status = .requiresConfirmation) ∧ Bigint.parse amount = some r.amount ∧
      v.get (.intent r.id) = none ∧ ws = [.intent r] := by
  obtain ⟨a, ha, hparse, hnew, rfl, rfl⟩ := insertAmount_ok h
  exact ⟨⟨rfl, rfl, rfl, rfl⟩, hparse, hnew, rfl⟩

theorem intentFindByIdForUpdate_ok {m : Uuid} {id : Text} {r : Option PaymentIntentRow}
    (h : (exec (.intentFindByIdForUpdate m id) env busy v).out = .ok (r, ws)) :
    ws = [] ∧ ∀ i, r = some i → uuidOfText id = some i.id ∧ v.intent i.id = some i ∧
      i.merchantId = m ∧
      .intent i.id ∈ (exec (.intentFindByIdForUpdate m id) env busy v).locked Row.key := by
  simp only [exec, intentFindByIdForUpdate] at h ⊢
  cases hu : uuidOfText id with
  | none => simp [hu, failure] at h
  | some u =>
    simp only [hu] at h
    cases hi : v.intent u with
    | none =>
      simp only [hi, read, Except.ok.injEq, Prod.mk.injEq] at h
      exact ⟨h.2.symm, fun i hr => by simp [← h.1] at hr⟩
    | some i =>
      simp only [hi] at h ⊢
      by_cases hm : i.merchantId = m
      · simp only [if_pos hm, lockRow, Except.ok.injEq, Prod.mk.injEq] at h ⊢
        refine ⟨h.2.symm, ?_⟩
        rintro i' rfl
        have hii := Option.some.inj h.1
        have hkey := Table.key_of_get (Db.intent_eq_some.mp hi)
        simp only [Row.key, Loc.intent.injEq] at hkey
        subst hii hkey
        exact ⟨rfl, hi, hm, by simp [Effect.locked]⟩
      · simp only [if_neg hm, read, Except.ok.injEq, Prod.mk.injEq] at h
        exact ⟨h.2.symm, fun i' hr => by simp [← h.1] at hr⟩

theorem intentUpdateStatus_ok {id : Uuid} {st : PaymentIntentStatus} {i : PaymentIntentRow}
    {r : Unit} (hi : v.intent id = some i)
    (h : (exec (.intentUpdateStatus id st) env busy v).out = .ok (r, ws)) :
    ws = [.intent { i with status := st }] := by
  simp only [exec, intentUpdateStatus, hi, update, Except.ok.injEq, Prod.mk.injEq] at h
  exact h.2.symm

theorem chargeInsert_ok {i m : Uuid} {amount : Text} {c : Currency} {t : Uuid} {r : ChargeRow}
    (h : (exec (.chargeInsert i m amount c t) env busy v).out = .ok (r, ws)) :
    ∃ row, ws = [row] ∧ v.get row.key = none ∧ row = .charge r ∧
      ∃ (a : Bigint) (ha : 0 < a.val), Bigint.parse amount = some a ∧
        r = ⟨r.id, i, m, a, c, t, ha⟩ := by
  obtain ⟨a, ha, hparse, hnew, rfl, rfl⟩ := insertAmount_ok h
  exact ⟨_, rfl, hnew, rfl, a, ha, hparse, rfl⟩

theorem endpointInsert_ok {m : Uuid} {url secret : String} {r : WebhookEndpointRow}
    (h : (exec (.endpointInsert m url secret) env busy v).out = .ok (r, ws)) :
    (r.merchantId = m ∧ r.url = url ∧ r.secret = secret ∧ r.isActive = true) ∧
      v.get (.endpoint r.id) = none ∧ ws = [.endpoint r] := by
  obtain ⟨hnew, rfl, rfl⟩ := insert_ok h
  exact ⟨⟨rfl, rfl, rfl, rfl⟩, hnew, rfl⟩

theorem endpointListActiveByMerchant_ok {m : Uuid} {r : List WebhookEndpointRow}
    (h : (exec (.endpointListActiveByMerchant m) env busy v).out = .ok (r, ws)) :
    r = v.endpoints.filter (fun e => decide (e.merchantId = m) && e.isActive) ∧ ws = [] := by
  simp only [exec, endpointListActiveByMerchant, read, Except.ok.injEq, Prod.mk.injEq] at h
  exact ⟨h.1.symm, h.2.symm⟩

theorem eventEnqueue_ok {m e : Uuid} {type : EventType} {payload : EventPayload} {r : Unit}
    (h : (exec (.eventEnqueue m e type payload) env busy v).out = .ok (r, ws)) :
    ∃ row, ws = [row] ∧ v.get row.key = none ∧
      ∃ id now, row = .event (.enqueued id m e type payload now) := by
  obtain ⟨hnew, -, rfl⟩ := insert_ok h
  exact ⟨_, rfl, hnew, _, _, rfl⟩

theorem accountInsert_ok {m : Uuid} {c : Currency} {bank : String} {number : Text}
    {r : PayoutAccountRow}
    (h : (exec (.accountInsert m c bank number) env busy v).out = .ok (r, ws)) :
    (r.merchantId = m ∧ r.currency = c ∧ r.bankName = bank ∧ r.accountNumber = number ∧
      r.isActive = true) ∧ (∀ a ∈ v.accounts, ¬ (a.merchantId = m ∧ a.currency = c)) ∧
      v.get (.account r.id) = none ∧ ws = [.account r] := by
  simp only [exec, accountInsert] at h
  split at h
  · simp [failure] at h
  · rename_i howner
    obtain ⟨hnew, rfl, rfl⟩ := insert_ok h
    simp only [List.any_eq_true, decide_eq_true_eq, not_exists, not_and] at howner
    exact ⟨⟨rfl, rfl, rfl, rfl, rfl⟩, fun a ha hc => howner a ha hc.1 hc.2, hnew, rfl⟩

theorem accountFindById_ok {id : Uuid} {r : Option PayoutAccountRow}
    (h : (exec (.accountFindById id) env busy v).out = .ok (r, ws)) :
    r = v.account id ∧ ws = [] := by
  simp only [exec, read, Except.ok.injEq, Prod.mk.injEq] at h
  exact ⟨h.1.symm, h.2.symm⟩

/-- The wallets that are worth settling, each beside an active account for it. -/
theorem mem_settleable {min : Bigint} {m : Option Uuid} {s : SettleableWallet} :
    s ∈ settleable v min m ↔ ∃ w ∈ v.wallets, ∃ a ∈ v.accounts, a.merchantId = w.merchantId ∧
      a.currency = w.currency ∧ a.isActive = true ∧ min.val ≤ w.balance.val ∧
      (∀ m' ∈ m, w.merchantId = m') ∧ s = ⟨w.id, w.merchantId, w.currency, w.balance, a.id⟩ := by
  simp only [settleable, List.mem_flatMap, List.mem_map, List.mem_filter, Bool.and_eq_true,
    decide_eq_true_eq]
  constructor
  · rintro ⟨w, hw, a, ⟨ha, ⟨⟨⟨hm, hc⟩, hactive⟩, hmin⟩, hscope⟩, rfl⟩
    refine ⟨w, hw, a, ha, hm, hc, hactive, hmin, ?_, rfl⟩
    rintro m' ⟨⟩
    simpa using hscope
  · rintro ⟨w, hw, a, ha, hm, hc, hactive, hmin, hscope, rfl⟩
    refine ⟨w, hw, a, ⟨ha, ⟨⟨⟨hm, hc⟩, hactive⟩, hmin⟩, ?_⟩, rfl⟩
    cases m with
    | none => rfl
    | some m' => exact decide_eq_true (hscope m' rfl)

/-- A row of the settleable list: a wallet, and an active account of the same
merchant and currency. -/
theorem payoutListSettleableWallets_ok {min : ℤ} {m : Option Uuid} {r : List SettleableWallet}
    (h : (exec (.payoutListSettleableWallets (intText min) m) env busy v).out = .ok (r, ws)) :
    ws = [] ∧ ∀ s ∈ r, ∃ w a, v.wallet s.walletId = some w ∧ w.merchantId = s.merchantId ∧
      v.account s.accountId = some a ∧ a.merchantId = w.merchantId ∧ a.currency = w.currency ∧
      a.isActive = true ∧ min ≤ w.balance.val ∧ ∀ m' ∈ m, s.merchantId = m' := by
  simp only [exec, payoutListSettleableWallets, Bigint.parse_intText] at h
  split at h
  · simp [failure] at h
  · rename_i b hb
    rw [Bigint.ofInt?_eq_some] at hb
    simp only [read, Except.ok.injEq, Prod.mk.injEq] at h
    obtain ⟨rfl, rfl⟩ := h
    refine ⟨rfl, ?_⟩
    intro s hs
    obtain ⟨w, hw, a, ha, hm, hc, hactive, hmin, hscope, rfl⟩ := mem_settleable.mp hs
    exact ⟨w, a, Db.wallet_eq_some.mpr (Db.mem_wallets.mp hw), rfl,
      Db.account_eq_some.mpr (Db.mem_accounts.mp ha), hm, hc, hactive, hb ▸ hmin, hscope⟩

theorem payoutCreatePending_ok {m w a : Uuid} {c : Currency} {amount : Text} {t : Uuid}
    {r : PayoutRow}
    (h : (exec (.payoutCreatePending m w a c amount t) env busy v).out = .ok (r, ws)) :
    ∃ row, ws = [row] ∧ v.get row.key = none ∧ row = .payout r ∧
      ∃ (b : Bigint) (hb : 0 < b.val), Bigint.parse amount = some b ∧
        r = ⟨r.id, m, w, a, c, b, .pending, t, none, 0, r.nextAttemptAt, none, hb⟩ := by
  obtain ⟨b, hb, hparse, hnew, rfl, rfl⟩ := insertAmount_ok h
  exact ⟨_, rfl, hnew, rfl, b, hb, hparse, rfl⟩

/-- Every claimed row was pending and due, and of the merchant asked for. -/
theorem payoutClaimDue_ok {limit lease : ℕ} {m : Option Uuid} {r : List PayoutRow}
    (h : (exec (.payoutClaimDue limit lease m) env busy v).out = .ok (r, ws)) :
    ws = r.map .payout ∧ (r.map (·.id)).Nodup ∧ ∀ p ∈ r, (∃ q, v.payout p.id = some q ∧
      q.status = .pending ∧ q.nextAttemptAt ≤ env.now ∧
      p = { q with nextAttemptAt := env.now + seconds lease }) ∧
      ∀ m' ∈ m, p.merchantId = m' := by
  simp only [exec, payoutClaimDue, Except.ok.injEq, Prod.mk.injEq] at h
  obtain ⟨rfl, rfl⟩ := h
  have hclaim : ∀ q ∈ claimable env.now busy v limit m, q ∈ v.payouts ∧ due env.now m q = true := by
    intro q hq
    have hsort := List.mem_of_mem_take hq
    rw [List.mem_insertionSort, List.mem_filter, Bool.and_eq_true] at hsort
    exact ⟨hsort.1, hsort.2.1⟩
  have hsub : ((claimable env.now busy v limit m).map (·.id)).Nodup := by
    unfold claimable
    have hperm := List.perm_insertionSort (fun a b : PayoutRow => a.nextAttemptAt ≤ b.nextAttemptAt)
      (v.payouts.filter (fun p => due env.now m p && !busy (.payout p.id)))
    have hsorted : ((List.insertionSort (fun a b : PayoutRow => a.nextAttemptAt ≤ b.nextAttemptAt)
        (v.payouts.filter (fun p => due env.now m p && !busy (.payout p.id)))).map (·.id)).Nodup :=
      (hperm.map _).nodup_iff.mpr (v.nodup_payouts.sublist (List.filter_sublist.map _))
    exact hsorted.sublist ((List.take_sublist _ _).map _)
  refine ⟨rfl, by simpa [Function.comp_def] using hsub, ?_⟩
  intro p hp
  obtain ⟨q, hq, rfl⟩ := List.mem_map.mp hp
  obtain ⟨hmem, hdue⟩ := hclaim q hq
  simp only [due, Bool.and_eq_true, decide_eq_true_eq] at hdue
  refine ⟨⟨q, Db.payout_eq_some.mpr (Db.mem_payouts.mp hmem), hdue.1.1, hdue.1.2, rfl⟩, ?_⟩
  rintro m' ⟨⟩
  simpa using hdue.2

theorem payoutMarkPaid_ok {id : Uuid} {p : PayoutRow} {r : Unit} (hp : v.payout id = some p)
    (h : (exec (.payoutMarkPaid id) env busy v).out = .ok (r, ws)) :
    ws = [.payout { p with status := .paid }] := by
  simp only [exec, payoutMarkPaid, hp, update, Except.ok.injEq, Prod.mk.injEq] at h
  exact h.2.symm

theorem payoutMarkRetry_ok {id : Uuid} {attempts backoff : ℕ} {error : String} {p : PayoutRow}
    {r : Unit} (hp : v.payout id = some p)
    (h : (exec (.payoutMarkRetry id attempts backoff error) env busy v).out = .ok (r, ws)) :
    ws = [.payout { p with
      attempts := attempts
      nextAttemptAt := env.now + seconds backoff
      failureReason := some error }] := by
  simp only [exec, payoutMarkRetry, hp, update, Except.ok.injEq, Prod.mk.injEq] at h
  exact h.2.symm

theorem payoutMarkFailed_ok {id : Uuid} {attempts : ℕ} {error : String} {t : Uuid} {p : PayoutRow}
    {r : Unit} (hp : v.payout id = some p)
    (h : (exec (.payoutMarkFailed id attempts error t) env busy v).out = .ok (r, ws)) :
    ws = [.payout { p with
      status := .failed
      attempts := attempts
      failureReason := some error
      reversalTransactionId := some t }] := by
  simp only [exec, payoutMarkFailed, hp, update, Except.ok.injEq, Prod.mk.injEq] at h
  exact h.2.symm

theorem idempotencyInsert_ok {m : Uuid} {key hash : Text} {r : Unit}
    (h : (exec (.idempotencyInsert m key hash) env busy v).out = .ok (r, ws)) :
    v.idempotency m key = none ∧
      ws = [.idempotency ⟨m, key, some ⟨hash, .inProgress, none, none⟩⟩] := by
  simp only [exec, idempotencyInsert] at h
  split at h
  · simp [failure] at h
  · rename_i hnone
    simp only [Except.ok.injEq, Prod.mk.injEq] at h
    exact ⟨by simpa using hnone, h.2.symm⟩

theorem idempotencyGet_ok {m : Uuid} {key : Text} {r : Option IdempotencyRow}
    (h : (exec (.idempotencyGet m key) env busy v).out = .ok (r, ws)) :
    r = v.idempotency m key ∧ ws = [] := by
  simp only [exec, read, Except.ok.injEq, Prod.mk.injEq] at h
  exact ⟨h.1.symm, h.2.symm⟩

theorem idempotencyComplete_ok {m : Uuid} {key : Text} {status : ℕ} {body : Option ResponseBody}
    {r : Unit} (h : (exec (.idempotencyComplete m key status body) env busy v).out = .ok (r, ws)) :
    (v.idempotency m key = none ∧ ws = []) ∨ ∃ row, v.idempotency m key = some row ∧
      ws = [.idempotency ⟨m, key, some { row with
        status := .completed
        responseStatus := some status
        responseBody := body }⟩] := by
  simp only [exec, idempotencyComplete] at h
  cases hrow : v.idempotency m key with
  | none =>
    simp only [hrow, read, Except.ok.injEq, Prod.mk.injEq] at h
    exact Or.inl ⟨rfl, h.2.symm⟩
  | some row =>
    simp only [hrow, update, Except.ok.injEq, Prod.mk.injEq] at h
    exact Or.inr ⟨row, rfl, h.2.symm⟩

theorem idempotencyRelease_ok {m : Uuid} {key : Text} {r : Unit}
    (h : (exec (.idempotencyRelease m key) env busy v).out = .ok (r, ws)) :
    (v.idempotency m key = none ∧ ws = []) ∨ ∃ row, v.idempotency m key = some row ∧
      ws = [.idempotency ⟨m, key, none⟩] := by
  simp only [exec, idempotencyRelease] at h
  cases hrow : v.idempotency m key with
  | none =>
    simp only [hrow, read, Except.ok.injEq, Prod.mk.injEq] at h
    exact Or.inl ⟨rfl, h.2.symm⟩
  | some row =>
    simp only [hrow, Except.ok.injEq, Prod.mk.injEq] at h
    exact Or.inr ⟨row, rfl, h.2.symm⟩

/-- The statements that only read write nothing. -/
theorem payoutListByMerchant_ok {m : Uuid} {r : List PayoutRow}
    (h : (exec (.payoutListByMerchant m) env busy v).out = .ok (r, ws)) : ws = [] := by
  simp only [exec, payoutListByMerchant, read, Except.ok.injEq, Prod.mk.injEq] at h
  exact h.2.symm

/-! ## The table a statement writes -/

end Sql

inductive TableName
  | wallets
  | transactions
  | ledgerEntries
  | paymentIntents
  | charges
  | webhookEndpoints
  | webhookEvents
  | payoutAccounts
  | payouts
  | idempotencyKeys
deriving DecidableEq

def Row.table : Row → TableName
  | .wallet _ => .wallets
  | .transaction _ => .transactions
  | .entry _ => .ledgerEntries
  | .intent _ => .paymentIntents
  | .charge _ => .charges
  | .endpoint _ => .webhookEndpoints
  | .event _ => .webhookEvents
  | .account _ => .payoutAccounts
  | .payout _ => .payouts
  | .idempotency _ => .idempotencyKeys

/-- The table that a statement inserts into, updates or deletes from. -/
def Stmt.table : Stmt → Option TableName
  | .walletCreate _ _ | .walletApplyDelta _ _ | .walletApplyDeltaIfVersion _ _ _ => some .wallets
  | .ledgerCreateTransaction _ => some .transactions
  | .ledgerAddEntry _ _ _ _ _ => some .ledgerEntries
  | .intentInsert _ _ _ _ | .intentUpdateStatus _ _ => some .paymentIntents
  | .chargeInsert _ _ _ _ _ => some .charges
  | .endpointInsert _ _ _ => some .webhookEndpoints
  | .eventEnqueue _ _ _ _ => some .webhookEvents
  | .accountInsert _ _ _ _ => some .payoutAccounts
  | .payoutCreatePending _ _ _ _ _ _ | .payoutClaimDue _ _ _ | .payoutMarkPaid _
  | .payoutMarkRetry _ _ _ _ | .payoutMarkFailed _ _ _ _ => some .payouts
  | .idempotencyInsert _ _ _ | .idempotencyComplete _ _ _ _ | .idempotencyRelease _ _ =>
    some .idempotencyKeys
  | _ => none

namespace Sql

/-- All the row versions it writes are of that table. -/
def Into (e : Eff α) (t : Option TableName) : Prop :=
  ∀ r ws, e.out = .ok (r, ws) → ∀ w ∈ ws, t = some w.table

section Into

variable {t : Option TableName}

theorem read_into (a : α) : Into (read a) t := by
  rintro r ws h w hw
  obtain ⟨-, rfl⟩ : a = r ∧ [] = ws := by simpa [read] using h
  cases hw

theorem failure_into (f : Fault) : Into (failure f : Eff α) t := by
  intro r ws h
  cases h

theorem lockRow_into (l : Loc) (a : α) : Into (lockRow l a) t := by
  rintro r ws h w hw
  obtain ⟨-, rfl⟩ : a = r ∧ [] = ws := by simpa [lockRow] using h
  cases hw

theorem update_into {row : Row} (h : t = some row.table) (a : α) : Into (update row a) t := by
  rintro r ws hout w hw
  obtain ⟨-, rfl⟩ : a = r ∧ [row] = ws := by simpa [update] using hout
  rwa [List.mem_singleton.mp hw]

theorem insert_into {row : Row} (h : t = some row.table) (a : α) : Into (insert v row a) t := by
  rintro r ws hout w hw
  obtain ⟨-, -, rfl⟩ := insert_ok hout
  rwa [List.mem_singleton.mp hw]

theorem insertAmount_into {text : Text} {row : (a : Bigint) → 0 < a.val → Row × α}
    (h : ∀ a ha, t = some (row a ha).1.table) : Into (insertAmount v text row) t := by
  rintro r ws hout w hw
  obtain ⟨a, ha, -, -, -, rfl⟩ := insertAmount_ok hout
  rw [List.mem_singleton.mp hw]
  exact h a ha

theorem addBalance_into {r : WalletRow} {delta : Text} {version : ℕ} {a : α} :
    Into (addBalance r delta version a) (some .wallets) := by
  rintro x ws hout w hw
  obtain ⟨-, b, c, hc, -, -, rfl⟩ := addBalance_ok hout
  rw [List.mem_singleton.mp hw]
  rfl

end Into

theorem exec_into (q : Stmt) (env : Env) (busy : Loc → Bool) (v : Db) :
    Into (exec q env busy v) q.table := by
  cases q with
  | walletFindByMerchantAndCurrency | endpointListActiveByMerchant | accountFindById
  | payoutListByMerchant | idempotencyGet => exact read_into _
  | ledgerCreateTransaction | endpointInsert | eventEnqueue => exact insert_into rfl _
  | ledgerAddEntry | intentInsert | chargeInsert | payoutCreatePending =>
    exact insertAmount_into fun _ _ => rfl
  | walletFindById id =>
    simp only [exec, walletFindById]
    split
    · exact failure_into _
    · exact read_into _
  | walletFindByIdForUpdate id =>
    simp only [exec, walletFindByIdForUpdate]
    split
    · exact read_into _
    · exact lockRow_into _ _
  | intentFindByIdForUpdate m id =>
    simp only [exec, intentFindByIdForUpdate]
    split
    · exact failure_into _
    split
    · exact read_into _
    split
    · exact lockRow_into _ _
    · exact read_into _
  | payoutListSettleableWallets min m =>
    simp only [exec, payoutListSettleableWallets]
    split
    · exact failure_into _
    · exact read_into _
  | walletCreate m c =>
    simp only [exec, walletCreate]
    split
    · exact failure_into _
    · exact insert_into (v := v) rfl _
  | accountInsert m c bank number =>
    simp only [exec, accountInsert]
    split
    · exact failure_into _
    · exact insert_into (v := v) rfl _
  | walletApplyDelta id delta =>
    simp only [exec, walletApplyDelta]
    split
    · exact read_into _
    · exact addBalance_into
  | walletApplyDeltaIfVersion id delta n =>
    simp only [exec, walletApplyDeltaIfVersion]
    split
    · exact read_into _
    split
    · split
      · exact addBalance_into
      · intro r ws h
        cases h
    · exact read_into _
  | intentUpdateStatus id status =>
    simp only [exec, intentUpdateStatus]
    split
    · exact read_into _
    · exact update_into rfl _
  | payoutMarkPaid id =>
    simp only [exec, payoutMarkPaid]
    split
    · exact read_into _
    · exact update_into rfl _
  | payoutMarkRetry id attempts backoff error =>
    simp only [exec, payoutMarkRetry]
    split
    · exact read_into _
    · exact update_into rfl _
  | payoutMarkFailed id attempts error t =>
    simp only [exec, payoutMarkFailed]
    split
    · exact read_into _
    · exact update_into rfl _
  | payoutClaimDue limit lease m =>
    rintro r ws h w hw
    obtain ⟨-, rfl⟩ : _ ∧ List.map _ _ = ws := by
      simpa only [exec, payoutClaimDue, Except.ok.injEq, Prod.mk.injEq] using h
    obtain ⟨p, -, rfl⟩ := List.mem_map.mp hw
    rfl
  | idempotencyInsert m key hash =>
    simp only [exec, idempotencyInsert]
    split
    · exact failure_into _
    · exact update_into rfl ()
  | idempotencyComplete m key status body =>
    simp only [exec, idempotencyComplete]
    split
    · exact read_into _
    · exact update_into rfl _
  | idempotencyRelease m key =>
    simp only [exec, idempotencyRelease]
    split
    · exact read_into _
    · exact update_into rfl ()

end Sql

end PaymentApis
