import PaymentApis.Rules

/-!
# The programs commit what `Commit` says

Each transaction and each program is walked once. `reach_refines` is the
result: the committed work of every run of the system is a sequence of atomic
`Commit`s.
-/

namespace PaymentApis

open TxStore

/-! ## Transfers -/

namespace transferService

theorem validate_ok {fromRow toRow : Option WalletRow} {m : Uuid} {amount : IntDouble}
    {v : WalletRow × WalletRow × ℕ} (h : validate fromRow toRow m amount = .ok v) :
    fromRow = some v.1 ∧ toRow = some v.2.1 ∧ v.2.2 = amount.val ∧ v.1.merchantId = m ∧
      v.1.currency = v.2.1.currency ∧ amount.val ≤ v.1.balance.val := by
  unfold validate at h
  split at h
  · simp at h
  · simp at h
  · split_ifs at h with howner hcurrency hfunds
    simp only [Except.ok.injEq] at h
    subst h
    exact ⟨rfl, rfl, rfl, not_not.mp howner, not_not.mp hcurrency, not_lt.mp hfunds⟩

theorem attempt_safe (min : ℤ) (m : Uuid) (dto : CreateTransferDto) (log : List Ev)
    {post : TransferResult → Priv → Db → Prop} {epost : Err → Priv → Db → Prop}
    (hpost : ∀ r p d, (∀ now, Commit min log now d (.txn (.transfer m dto) p.events) p.writes) →
      post r p d) (hepost : ∀ e p d, epost e p d) (d : Db) :
    (attempt m dto).Safe engine (commits min) log post epost .begin d := by
  simp only [attempt, recordLedger, sql, Body.call_bind, Body.stmt_bind, Body.pure_eq,
    Body.ret_bind]
  apply safe_read (Open.begin d) (Db.Later.refl d) (fun _ _ _ _ _ => Sql.walletFindById_ok)
  rintro d₁ _ p₁ - ⟨u₁, hu₁, rfl⟩ ho₁
  apply safe_read ho₁ (Db.Later.refl d₁) (fun _ _ _ _ _ => Sql.walletFindById_ok)
  rintro d₂ _ p₂ hd₂ ⟨u₂, hu₂, rfl⟩ ho₂
  simp only [Table.install_nil] at ho₂ ⊢
  cases hv : validate (Db.wallet d₁ u₁) (Db.wallet d₂ u₂) m dto.amount with
  | error e => exact safe_throw (hepost e)
  | ok v =>
    obtain ⟨f, t, a⟩ := v
    obtain ⟨hf, ht, ha, howner, hcurrency, hfunds⟩ := validate_ok hv
    simp only at hf ht ha howner hcurrency hfunds
    subst ha
    have hfid : u₁ = f.id := (Db.id_of_wallet hf).symm
    have htid : u₂ = t.id := (Db.id_of_wallet ht).symm
    subst hfid htid
    rw [hf, ht] at ho₂
    have hfrom : d₂.HasWallet f := (Db.HasWallet.of_get hf).later hd₂
    have hto : d₂.HasWallet t := Db.HasWallet.of_get ht
    simp only [Body.ofExcept, Body.ret_bind]
    apply safe_insert ho₂ (Db.Later.refl d₂) (fun _ _ _ _ _ => Sql.ledgerCreateTransaction_ok)
    rintro d₃ x _ p₃ hd₃ rfl - ho₃
    apply safe_insert ho₃ hd₃ (fun _ _ _ _ _ => Sql.ledgerAddEntry_ok)
    rintro d₄ ⟨⟩ _ p₄ hd₄ ⟨e₁, a, hpos, hparse, rfl⟩ - ho₄
    apply safe_insert ho₄ hd₄ (fun _ _ _ _ _ => Sql.ledgerAddEntry_ok)
    rintro d₅ ⟨⟩ _ p₅ hd₅ ⟨e₂, a', hpos', hparse', rfl⟩ hne ho₅
    obtain rfl : a = a' := Option.some.inj (hparse.symm.trans hparse')
    apply safe_applyDeltaIfVersion ho₅ hd₅ hfrom
    · simp
    · intro d₆ p₆ ws₆ ho₆
      apply safe_stmt ho₆ (Db.Later.refl d₆)
      intro d₇ _ _ okTo _ p₇ _ _ _ _
      exact safe_throw (hepost _)
    rintro d₆ p₆ s bs cs hcs hd₆ hsid hsm hscur hsv - hsget hsb hscv ho₆
    apply safe_applyDeltaIfVersion ho₆ hd₆ hto
    · intro hmem d' hd' hbase w hview
      have hid : t.id = s.id := by simpa using hmem
      have hs : d'.get (.wallet s.id) = some (.wallet s) := hbase _ List.mem_cons_self
      obtain ⟨t', ht', -, -, hle⟩ := hto.later hd'
      rw [hid, Db.wallet_eq_some, hs] at ht'
      obtain rfl : s = t' := by simpa using ht'
      rw [Db.wallet_eq_some] at hview
      simp only [List.nil_append, List.cons_append, Table.install_cons, Table.install_nil,
        Table.get_put, Row.key, hid, if_true, Option.some.injEq, Row.wallet.injEq] at hview
      subst hview
      simp only
      omega
    · intro d₇ p₇ ws₇ ho₇
      exact safe_throw (hepost _)
    rintro d₇ p₇ r br cr hcr hd₇ hrid hrm hrcur hrv hrnew hrget hrb hrcv ho₇
    simp only [Bool.not_true, Bool.or_self, Bool.false_eq_true, if_false]
    refine safe_ret ho₇ hd₇ ?_
    intro d₈ p₈ hd₈ ho₈
    have hbs : bs.val = -(dto.amount.val : ℤ) := by
      rwa [Bigint.parse_intText, Bigint.ofInt?_eq_some] at hsb
    have hbr : br.val = dto.amount.val := by
      rwa [Bigint.parse_intText, Bigint.ofInt?_eq_some] at hrb
    have hdiff : s.id ≠ r.id := by
      intro heq
      apply hrnew
      simp [← hrid, heq]
    let c : TransferCommit d₈ m dto := {
      fromRow := f
      toRow := t
      source := s
      dest := r
      transactionId := x
      debitId := e₁
      creditId := e₂
      amount := a
      sourceBalance := cs
      destBalance := cr
      positive := hpos
      sourceCheck := hcs
      destCheck := hcr
      fromId := hu₁
      toId := hu₂
      owner := howner
      sameCurrency := by rw [hscur, hrcur, hcurrency]
      covered := hfunds
      ledger := hparse
      sourceId := hsid
      destId := hrid
      different := hdiff
      sourceVersion := hsv
      destVersion := hrv
      sourceMerchant := hsm
      sourceCurrency := hscur
      destCurrency := hrcur
      debited := by omega
      credited := by omega
      sourceGet := Db.wallet_eq_some.mpr (ho₈.get (by simp))
      destGet := Db.wallet_eq_some.mpr (ho₈.get (by simp))
      transactionFresh := ho₈.get (by simp)
      debitFresh := ho₈.get (by simp)
      creditFresh := ho₈.get (by simp)
      entries := by
        intro heq
        apply hne
        simp [heq] }
    apply hpost
    intro now
    have hevs : p₈.events = c.events := by
      rw [ho₈.events]
      rfl
    have hws : p₈.writes = c.writes := by
      rw [ho₈.writes]
      simp [TransferCommit.writes, TransferCommit.newSource, TransferCommit.newDest, c, hsid, hrid,
        hscur, hrcur]
    rw [hevs, hws]
    exact .transfer c

end transferService

/-! ## Payments -/

namespace paymentService

theorem confirmTxn_safe (min : ℤ) (m : Uuid) (id : Text) (log : List Ev)
    {post : PublicPaymentIntent × PublicCharge → Priv → Db → Prop} {epost : Err → Priv → Db → Prop}
    (hpost : ∀ r p d, (∀ now, Commit min log now d (.txn (.confirm m id) p.events) p.writes) →
      post r p d) (hepost : ∀ e p d, epost e p d) (d : Db) :
    (confirmTxn m id).Safe engine (commits min) log post epost .begin d := by
  simp only [confirmTxn, sql, Body.call_bind]
  apply safe_findIntent (Open.begin d)
  · intro p' d'
    exact safe_throw (hepost _)
  intro d₁ p₁ i hid hm ho₁
  simp only
  cases hst : assertTransition i.status .succeeded "confirm" with
  | error e => exact safe_throw (hepost e)
  | ok u =>
    have hopen : i.status = .requiresConfirmation := by
      cases h : i.status <;> simp [h, assertTransition, TRANSITIONS] at hst ⊢
    simp only [Body.ofExcept, Body.ret_bind]
    apply safe_read ho₁ (Db.Later.refl d₁) (fun _ _ _ _ _ => Sql.walletFindByMerchantAndCurrency_ok)
    intro d₂ found p₂ hd₂ hfound ho₂
    cases found with
    | none => exact safe_throw (hepost _)
    | some w₀ =>
      obtain ⟨hwget, hwm, hwc⟩ := hfound w₀ rfl
      have hw : d₂.HasWallet w₀ := Db.HasWallet.of_get hwget
      simp only [Body.pure_eq]
      apply safe_insert ho₂ (Db.Later.refl d₂) (fun _ _ _ _ _ => Sql.ledgerCreateTransaction_ok)
      rintro d₃ x _ p₃ hd₃ rfl - ho₃
      apply safe_insert ho₃ hd₃ (fun _ _ _ _ _ => Sql.ledgerAddEntry_ok)
      rintro d₄ ⟨⟩ _ p₄ hd₄ ⟨e, a, hpos, hparse, rfl⟩ - ho₄
      rw [Bigint.parse_text, Option.some.injEq] at hparse
      subst hparse
      apply safe_applyDelta ho₄ hd₄ hw rfl (by simp)
      intro d₅ p₅ w b c hc hd₅ hwid hwm' hwc' hget hb hcv ho₅
      rw [Bigint.parse_text, Option.some.injEq] at hb
      subst hb
      apply safe_insert ho₅ hd₅ (fun _ _ _ _ _ => Sql.chargeInsert_ok)
      rintro d₆ r _ p₆ hd₆ ⟨rfl, a, hapos, hparse, hr⟩ - ho₆
      rw [Bigint.parse_text, Option.some.injEq] at hparse
      subst hparse
      apply safe_updateStatus ho₆ hd₆ (by simp) (by simp)
      intro d₇ p₇ hd₇ ho₇
      apply emit_ret_safe ho₇ hd₇ (by simp [Row.asEndpoint])
      intro d₈ p₈ o hd₈ ho₈
      let c : ConfirmCommit d₈ m id := {
        intent := i
        walletRow := w₀
        wallet := w
        transactionId := x
        entryId := e
        chargeId := r.id
        balance := c
        check := hc
        outbox := o
        intentId := hid
        owner := hm
        confirmable := hopen
        walletOwner := hwm'.trans hwm
        walletCurrency := hwc'.trans hwc
        walletId := hwid.symm
        credited := hcv
        intentGet := Db.intent_eq_some.mpr (ho₈.get (by simp))
        walletGet := Db.wallet_eq_some.mpr (hwid ▸ ho₈.get (by simp))
        transactionFresh := ho₈.get (by simp)
        entryFresh := ho₈.get (by simp)
        chargeFresh := ho₈.get (by simp) }
      have hcharge : c.charge = r := hr.symm
      apply hpost
      intro now
      have hevs : p₈.events = c.events := by
        rw [ho₈.events, ConfirmCommit.events, hcharge]
        simp [c, hwid]
      have hws : p₈.writes = c.writes := by
        rw [ho₈.writes, ConfirmCommit.writes, hcharge]
        simp [c, hwid, ConfirmCommit.entry, ConfirmCommit.newWallet, ConfirmCommit.newIntent]
      rw [hevs, hws]
      exact .confirm c

theorem cancelTxn_safe (min : ℤ) (m : Uuid) (id : Text) (log : List Ev)
    {post : PublicPaymentIntent → Priv → Db → Prop} {epost : Err → Priv → Db → Prop}
    (hpost : ∀ r p d, (∀ now, Commit min log now d (.txn (.cancel m id) p.events) p.writes) →
      post r p d) (hepost : ∀ e p d, epost e p d) (d : Db) :
    (cancelTxn m id).Safe engine (commits min) log post epost .begin d := by
  simp only [cancelTxn, sql, Body.call_bind]
  apply safe_findIntent (Open.begin d)
  · intro p' d'
    exact safe_throw (hepost _)
  intro d₁ p₁ i hid hm ho₁
  simp only
  cases hst : assertTransition i.status .canceled "cancel" with
  | error e => exact safe_throw (hepost e)
  | ok u =>
    have hopen : i.status = .requiresConfirmation := by
      cases h : i.status <;> simp [h, assertTransition, TRANSITIONS] at hst ⊢
    simp only [Body.ofExcept, Body.ret_bind, Body.pure_eq]
    apply safe_updateStatus ho₁ (Db.Later.refl d₁) (by simp) (by simp)
    intro d₂ p₂ hd₂ ho₂
    refine safe_ret ho₂ hd₂ ?_
    intro d₃ p₃ hd₃ ho₃
    let c : CancelCommit d₃ m id := {
      intent := i
      intentId := hid
      owner := hm
      confirmable := hopen
      intentGet := Db.intent_eq_some.mpr (ho₃.get (by simp)) }
    apply hpost
    intro now
    have hevs : p₃.events = c.events := ho₃.events
    have hws : p₃.writes = c.writes := ho₃.writes
    rw [hevs, hws]
    exact .cancel c

end paymentService

/-! ## Payouts -/

/-- A listed wallet names an active account of the wallet's merchant and currency. -/
def Db.HasSettleable (d : Db) (s : SettleableWallet) : Prop :=
  ∃ w a, d.HasWallet w ∧ w.id = s.walletId ∧ w.merchantId = s.merchantId ∧
    d.account s.accountId = some a ∧ a.merchantId = w.merchantId ∧ a.currency = w.currency ∧
    a.isActive = true

theorem Db.HasSettleable.later {d d' : Db} {s : SettleableWallet} (h : d.HasSettleable s)
    (hd : d.Later d') : d'.HasSettleable s := by
  obtain ⟨w, a, hw, hid, howner, ha, hm, hc, hactive⟩ := h
  exact ⟨w, a, hw.later hd, hid, howner, Db.account_later ha hd, hm, hc, hactive⟩

namespace payoutService

theorem sweepTxn_safe (min : ℤ) (s : SettleableWallet) (log : List Ev)
    {post : Bool → Priv → Db → Prop} {epost : Err → Priv → Db → Prop}
    (hpost : ∀ r p d, (∀ now, Commit min log now d (.txn (.sweep s) p.events) p.writes) →
      post r p d) {d : Db} (hs : d.HasSettleable s) :
    (sweepTxn min s).Safe engine (commits min) log post epost .begin d := by
  simp only [sweepTxn, sql, Body.call_bind]
  apply safe_findWallet (Open.begin d) (Db.Later.refl d)
  · -- a listed wallet is never deleted
    intro p' d' hd' hnone
    obtain ⟨w, a, ⟨w', hw', -⟩, hid, -⟩ := hs.later hd'
    rw [hid, hnone] at hw'
    exact absurd hw' (by simp)
  intro d₁ p₁ w hd₁ hid ho₁
  simp only [Body.pure_eq]
  by_cases hmin : w.balance.val < min
  · rw [if_pos hmin]
    refine safe_ret ho₁ (Db.Later.refl d₁) ?_
    intro d₂ p₂ _ ho₂
    apply hpost
    intro now
    rw [ho₂.events, ho₂.writes]
    exact .sweepSkip s w (hid ▸ Db.wallet_eq_some.mpr (ho₂.get (by simp))) hmin
  rw [if_neg hmin]
  have hw : d₁.HasWallet w := Db.HasWallet.of_get (Db.wallet_eq_some.mpr (ho₁.get (by simp)))
  apply safe_insert ho₁ (Db.Later.refl d₁) (fun _ _ _ _ _ => Sql.ledgerCreateTransaction_ok)
  rintro d₂ x _ p₂ hd₂ rfl - ho₂
  apply safe_insert ho₂ hd₂ (fun _ _ _ _ _ => Sql.ledgerAddEntry_ok)
  rintro d₃ ⟨⟩ _ p₃ hd₃ ⟨e, a, hpos, hparse, rfl⟩ - ho₃
  obtain rfl : a = w.balance := by
    rw [Bigint.parse_intText, Bigint.ofInt?_eq_some] at hparse
    exact Bigint.ext hparse
  apply safe_applyDelta ho₃ hd₃ hw rfl (by simp)
  intro d₄ p₄ w' b c hc hd₄ hwid hwm hwc hget hb hcv ho₄
  obtain rfl : w' = w := by
    have h₁ := ho₄.get (l := .wallet w.id) (x := some (.wallet w')) (by simp)
    have h₂ := ho₄.get (l := .wallet w.id) (x := some (.wallet w)) (by simp)
    rw [h₁] at h₂
    simpa using h₂
  obtain rfl : c = .zero := by
    rw [Bigint.parse_intText, Bigint.ofInt?_eq_some] at hb
    apply Bigint.ext
    rw [hcv, hb, Bigint.zero_val]
    omega
  apply safe_insert ho₄ hd₄ (fun _ _ _ _ _ => Sql.payoutCreatePending_ok)
  rintro d₅ y _ p₅ hd₅ ⟨rfl, a, ha, hparse', hy⟩ - ho₅
  obtain rfl : a = w'.balance := by
    rw [Bigint.parse_intText, Bigint.ofInt?_eq_some] at hparse'
    exact Bigint.ext hparse'
  refine safe_ret ho₅ hd₅ ?_
  intro d₆ p₆ hd₆ ho₆
  have hwget : d₆.wallet w'.id = some w' := Db.wallet_eq_some.mpr (ho₆.get (by simp))
  have haccount : w'.merchantId = s.merchantId ∧ ∃ a, d₆.account s.accountId = some a ∧
      a.merchantId = w'.merchantId ∧ a.currency = w'.currency ∧ a.isActive = true := by
    obtain ⟨w₀, a, ⟨w₁, hw₁, hm₁, hc₁, -⟩, hid₀, howner, ha, hm, hcur, hactive⟩ :=
      hs.later (hd₁.trans hd₆)
    rw [hid₀, ← hid, hwget, Option.some.injEq] at hw₁
    subst hw₁
    exact ⟨hm₁.trans howner, a, ha, hm.trans hm₁.symm, hcur.trans hc₁.symm, hactive⟩
  let c : SweepCommit min d₆ s := {
    wallet := w'
    transactionId := x
    entryId := e
    payoutId := y.id
    dueAt := y.nextAttemptAt
    positive := hpos
    walletId := hid
    owner := haccount.1
    enough := not_lt.mp hmin
    account := haccount.2
    walletGet := hwget
    transactionFresh := ho₆.get (by simp)
    entryFresh := ho₆.get (by simp)
    payoutFresh := ho₆.get (by simp) }
  have hpayout : c.payout = y := hy.symm
  apply hpost
  intro now
  have hevs : p₆.events = c.events := by
    rw [ho₆.events, SweepCommit.events, hpayout]
    simp [c]
  have hws : p₆.writes = c.writes := by
    rw [ho₆.writes, SweepCommit.writes, hpayout]
    rfl
  rw [hevs, hws]
  exact .sweep c

theorem paidTxn_safe (min : ℤ) (q : PayoutRow) (rest : List PayoutRow) (log : List Ev)
    (hlog : phase log = .accepted q rest) {post : Unit → Priv → Db → Prop}
    {epost : Err → Priv → Db → Prop}
    (hpost : ∀ r p d, (∀ now, Commit min log now d (.txn (.paid q) p.events) p.writes) →
      (∃ c : PaidCommit d q, p.events = c.events) → post r p d) {d : Db} (hq : d.HasPayout q) :
    (paidTxn q).Safe engine (commits min) log post epost .begin d := by
  simp only [paidTxn, sql, Body.call_bind]
  refine safe_updatePayout (g := fun x => { x with status := .paid }) (Open.begin d)
    (Db.Later.refl d) hq (by simp) (fun _ => rfl) ?_ ?_
  · intro env busy v r w x hx hout
    exact Sql.payoutMarkPaid_ok hx hout
  rintro d₁ ⟨⟩ p₁ x hd₁ hfixed ho₁
  apply emit_safe ho₁ hd₁ (by simp [Row.asEndpoint])
  intro d₂ p₂ o hd₂ ho₂
  let c : PaidCommit d₂ q := {
    row := x
    outbox := o
    rowGet := Db.payout_eq_some.mpr (ho₂.get (by simp))
    same := hfixed }
  have hevs : p₂.events = c.events := ho₂.events
  have hws : p₂.writes = c.writes := ho₂.writes
  refine hpost _ _ _ ?_ ⟨c, hevs⟩
  intro now
  rw [hevs, hws]
  exact .paid rest hlog c

theorem reversalTxn_safe (min : ℤ) (q : PayoutRow) (rest : List PayoutRow) (message : String)
    (log : List Ev) (hlog : (phase log).failing q rest)
    (hlast : MAX_ATTEMPTS ≤ q.attempts + 1) {post : Unit → Priv → Db → Prop}
    {epost : Err → Priv → Db → Prop}
    (hpost : ∀ r p d, (∀ now, Commit min log now d (.txn (.reversal q) p.events) p.writes) →
      (∃ c : ReversalCommit d q, p.events = c.events) → post r p d)
    (hepost : ∀ e p d, epost e p d) {d : Db} (hq : d.HasPayout q) :
    (reversalTxn q (q.attempts + 1) message).Safe engine (commits min) log post epost .begin d := by
  simp only [reversalTxn, sql, Body.call_bind]
  apply safe_findWallet (Open.begin d) (Db.Later.refl d)
  · intro p' d' _ _
    exact safe_throw (hepost _)
  intro d₁ p₁ w hd₁ hid ho₁
  simp only
  have hw : d₁.HasWallet w := Db.HasWallet.of_get (Db.wallet_eq_some.mpr (ho₁.get (by simp)))
  apply safe_insert ho₁ (Db.Later.refl d₁) (fun _ _ _ _ _ => Sql.ledgerCreateTransaction_ok)
  rintro d₂ x _ p₂ hd₂ rfl - ho₂
  apply safe_insert ho₂ hd₂ (fun _ _ _ _ _ => Sql.ledgerAddEntry_ok)
  rintro d₃ ⟨⟩ _ p₃ hd₃ ⟨e, a, hpos, hparse, rfl⟩ - ho₃
  obtain rfl : a = q.amount := by
    rw [Bigint.parse_intText, Bigint.ofInt?_eq_some] at hparse
    exact Bigint.ext hparse
  apply safe_applyDelta ho₃ hd₃ hw rfl (by simp)
  intro d₄ p₄ w' b c hc hd₄ hwid hwm hwc hget hb hcv ho₄
  obtain rfl : w' = w := by
    have h₁ := ho₄.get (l := .wallet w.id) (x := some (.wallet w')) (by simp)
    have h₂ := ho₄.get (l := .wallet w.id) (x := some (.wallet w)) (by simp)
    rw [h₁] at h₂
    simpa using h₂
  rw [Bigint.parse_intText, Bigint.ofInt?_eq_some] at hb
  refine safe_updatePayout (g := fun y => { y with
      status := .failed
      attempts := q.attempts + 1
      failureReason := some message
      reversalTransactionId := some x }) ho₄ hd₄ (hq.later hd₁) (by simp) (fun _ => rfl) ?_ ?_
  · intro env busy v r rows y hy hout
    exact Sql.payoutMarkFailed_ok hy hout
  rintro d₅ ⟨⟩ p₅ y hd₅ hfixed ho₅
  apply emit_safe ho₅ hd₅ (by simp [Row.asEndpoint])
  intro d₆ p₆ o hd₆ ho₆
  let c : ReversalCommit d₆ q := {
    row := y
    wallet := w'
    transactionId := x
    entryId := e
    balance := c
    message := message
    check := hc
    outbox := o
    exhausted := hlast
    rowGet := Db.payout_eq_some.mpr (ho₆.get (by simp))
    same := hfixed
    walletId := hid
    credited := by rw [hcv, hb]
    walletGet := Db.wallet_eq_some.mpr (ho₆.get (by simp))
    transactionFresh := ho₆.get (by simp)
    entryFresh := ho₆.get (by simp) }
  have hevs : p₆.events = c.events := by
    rw [ho₆.events]
    simp [ReversalCommit.events, c]
  have hws : p₆.writes = c.writes := by
    rw [ho₆.writes]
    rfl
  refine hpost _ _ _ ?_ ⟨c, hevs⟩
  intro now
  rw [hevs, hws]
  exact .reversal rest hlog c

end payoutService

/-! ## Programs -/

section Programs

variable {min : ℤ} {log : List Ev} {d : Db}

/-- No promise about the end of a program. -/
abbrev Free {α : Type} : α → List Ev → Db → Prop := fun _ _ _ => True

theorem walletService.create_safe (m : Uuid) (c : Currency) :
    (walletService.create m c).Safe engine (commits min) Free Free log d := by
  refine safe_bind (M := Free) (safe_catch (M := Free) (safe_query (fun _ _ _ => trivial) ?_) ?_)
    (fun _ _ _ _ => safe_pure (fun _ _ => trivial))
  · intro d' env busy r ws _ hout
    obtain ⟨hshape, howner, hnew, rfl⟩ := Sql.walletCreate_ok hout
    exact ⟨.walletCreate r hshape howner hnew, fun _ _ => trivial⟩
  · intro e log d _
    split
    · exact safe_fail (fun _ _ => trivial)
    · exact safe_fail (fun _ _ => trivial)

theorem transferService.attempts_safe (m : Uuid) (dto : CreateTransferDto) :
    ∀ (n : ℕ) (log : List Ev) (d : Db),
      (transferService.attempts m dto n).Safe engine (commits min) Free Free log d
  | 0, _, _ => safe_fail (fun _ _ => trivial)
  | n + 1, log, d => by
      refine safe_catch (M := Free) (safe_transaction (fun _ _ _ => trivial) ?_) ?_
      · intro d' _
        apply transferService.attempt_safe
        · exact fun r p d h => ⟨h, fun _ _ _ => trivial⟩
        · exact fun e p d _ _ => trivial
      · intro e log d _
        split
        · exact transferService.attempts_safe m dto n log d
        · exact safe_fail (fun _ _ => trivial)

/-- A statement that only reads. -/
theorem safe_lookup {s : Stmt} {post : Resp s → List Ev → Db → Prop} (hs : s.isQuery = true)
    (hws : ∀ env busy v r ws, (Sql.exec s env busy v).out = .ok (r, ws) → ws = [])
    (hpost : ∀ d' env busy r ws d'', (Sql.exec s env busy d').out = .ok (r, ws) → d'.Later d'' →
      post r (log ++ [.stmt s r]) d'') :
    (query s).Safe engine (commits min) post Free log d := by
  refine safe_query (fun _ _ _ => trivial) ?_
  intro d' env busy r ws _ hout
  obtain rfl := hws _ _ _ _ _ hout
  exact ⟨.query s r hs, fun d'' hd'' => hpost d' env busy r _ d'' hout hd''⟩

/-- A statement on `idempotency_keys`. -/
theorem safe_keyed {s : Stmt}
    (hs : ∀ env busy v r ws, (Sql.exec s env busy v).out = .ok (r, ws) → KeyWrite v s r ws) :
    (query s).Safe engine (commits min) Free Free log d := by
  refine safe_query (fun _ _ _ => trivial) ?_
  intro d' env busy r ws _ hout
  exact ⟨.keyed s r ws (hs _ _ _ _ _ hout), fun _ _ => trivial⟩

theorem idempotencyRepository.claim_safe (m : Uuid) (key hash : Text) :
    (idempotencyRepository.claim m key hash).Safe engine (commits min) Free Free log d := by
  refine safe_catch (M := Free) (safe_bind (M := Free) (safe_keyed ?_)
    (fun _ _ _ _ => safe_pure (fun _ _ => trivial))) ?_
  · intro env busy v r ws hout
    obtain ⟨hfree, rfl⟩ := Sql.idempotencyInsert_ok hout
    exact .insert m key hash hfree
  · intro e log d _
    split
    · refine safe_bind (M := Free) (safe_keyed ?_) (fun _ _ _ _ => safe_pure (fun _ _ => trivial))
      intro env busy v r ws hout
      obtain ⟨rfl, rfl⟩ := Sql.idempotencyGet_ok hout
      exact .get m key
    · exact safe_fail (fun _ _ => trivial)

theorem idempotency.persist_safe (m : Uuid) (key : Text) (res : Response) :
    (idempotency.persist m key res).Safe engine (commits min) Free Free log d := by
  refine safe_bind (M := Free) (safe_catch (M := Free) ?_
    (fun _ _ _ _ => safe_pure (fun _ _ => trivial))) (fun _ _ _ _ => safe_pure (fun _ _ => trivial))
  split
  · apply safe_keyed
    intro env busy v r ws hout
    obtain ⟨hgone, rfl⟩ | ⟨row, hfound, rfl⟩ := Sql.idempotencyRelease_ok hout
    · exact .releaseNone m key hgone
    · exact .release m key row hfound
  · apply safe_keyed
    intro env busy v r ws hout
    obtain ⟨hgone, rfl⟩ | ⟨row, hfound, rfl⟩ := Sql.idempotencyComplete_ok hout
    · exact .completeNone m key _ _ hgone
    · exact .complete m key _ _ row hfound

theorem idempotency_safe (m : Uuid) (key : Option Text) (hash : Text) {next : Prog Response}
    (hnext : ∀ log d, next.Safe engine (commits min) Free Free log d) :
    (idempotency m key hash next).Safe engine (commits min) Free Free log d := by
  unfold idempotency
  split
  · exact safe_fail (fun _ _ => trivial)
  split
  · exact safe_fail (fun _ _ => trivial)
  refine safe_bind (M := Free) (idempotencyRepository.claim_safe m _ hash) ?_
  rintro claimed log d -
  split
  · unfold idempotency.replay
    split
    · exact safe_fail (fun _ _ => trivial)
    split
    · exact safe_fail (fun _ _ => trivial)
    · exact safe_pure (fun _ _ => trivial)
  · refine safe_bind (M := Free) (safe_catch (M := Free) (hnext log d)
      (fun _ _ _ _ => safe_pure (fun _ _ => trivial))) ?_
    exact fun res log d _ => idempotency.persist_safe m _ res

theorem postTransfer_safe (m : Uuid) (key : Option Text) (hash : Text) (dto : CreateTransferDto) :
    (postTransfer m key hash dto).Safe engine (commits min) Free Free log d := by
  refine safe_catch (M := Free) (idempotency_safe m key hash ?_)
    (fun _ _ _ _ => safe_pure (fun _ _ => trivial))
  intro log d
  exact safe_bind (transferService.attempts_safe m dto _ _ _)
    (fun _ _ _ _ => safe_pure (fun _ _ => trivial))

theorem paymentService.create_safe (m : Uuid) (dto : CreatePaymentIntentDto) :
    (paymentService.create m dto).Safe engine (commits min) Free Free log d := by
  refine safe_bind (M := Free) (safe_lookup rfl ?_ (fun _ _ _ _ _ _ _ _ => trivial)) ?_
  · intro env busy v r ws hout
    exact (Sql.walletFindByMerchantAndCurrency_ok hout).2
  · intro found log d _
    cases found with
    | none => exact safe_fail (fun _ _ => trivial)
    | some w =>
      refine safe_bind (M := Free) (safe_query (fun _ _ _ => trivial) ?_)
        (fun _ _ _ _ => safe_pure (fun _ _ => trivial))
      intro d' env busy r ws _ hout
      obtain ⟨hshape, hparse, hnew, rfl⟩ := Sql.intentInsert_ok hout
      exact ⟨.intentInsert r hshape hparse hnew, fun _ _ => trivial⟩

theorem paymentService.confirm_safe (m : Uuid) (id : Text) :
    (paymentService.confirm m id).Safe engine (commits min) Free Free log d := by
  refine safe_transaction (fun _ _ _ => trivial) ?_
  intro d' _
  apply paymentService.confirmTxn_safe
  · exact fun r p d h => ⟨h, fun _ _ _ => trivial⟩
  · exact fun e p d _ _ => trivial

theorem paymentService.cancel_safe (m : Uuid) (id : Text) :
    (paymentService.cancel m id).Safe engine (commits min) Free Free log d := by
  refine safe_transaction (fun _ _ _ => trivial) ?_
  intro d' _
  apply paymentService.cancelTxn_safe
  · exact fun r p d h => ⟨h, fun _ _ _ => trivial⟩
  · exact fun e p d _ _ => trivial

theorem webhookService.registerEndpoint_safe (m : Uuid) (url secret : String) :
    (webhookService.registerEndpoint m url secret).Safe engine (commits min) Free Free log d := by
  refine safe_bind (M := Free) (safe_query (fun _ _ _ => trivial) ?_)
    (fun _ _ _ _ => safe_pure (fun _ _ => trivial))
  intro d' env busy r ws _ hout
  obtain ⟨hshape, hnew, rfl⟩ := Sql.endpointInsert_ok hout
  exact ⟨.endpointInsert r hshape hnew, fun _ _ => trivial⟩

namespace payoutService

theorem registerAccount_safe (m : Uuid) (dto : RegisterPayoutAccountDto) :
    (registerAccount m dto).Safe engine (commits min) Free Free log d := by
  refine safe_bind (M := Free) (safe_catch (M := Free) (safe_query (fun _ _ _ => trivial) ?_) ?_)
    (fun _ _ _ _ => safe_pure (fun _ _ => trivial))
  · intro d' env busy r ws _ hout
    obtain ⟨hshape, howner, hnew, rfl⟩ := Sql.accountInsert_ok hout
    exact ⟨.accountInsert r hshape howner hnew, fun _ _ => trivial⟩
  · intro e log d _
    split
    · exact safe_fail (fun _ _ => trivial)
    · exact safe_fail (fun _ _ => trivial)

theorem phase_sweep {w : SettleableWallet} {evs : List Ev} {ws : List Row} {now : ℕ}
    (h : Commit min log now d (.txn (.sweep w) evs) ws) : phase (log ++ evs) = phase log := by
  rw [phase_append]
  cases h with
  | sweepSkip w row walletGet below => rfl
  | sweep c => rfl

/-- A sweep runs outside any batch, and stays outside. -/
theorem sweepAll_safe : ∀ (ws : List SettleableWallet) (created : ℕ) (log : List Ev) (d : Db),
    phase log = .idle → (∀ w ∈ ws, d.HasSettleable w) →
    (sweepAll min ws created).Safe engine (commits min) (fun _ log _ => phase log = .idle) Free
      log d
  | [], _, _, _, hidle, _ => safe_pure (fun _ _ => hidle)
  | w :: ws, created, log, d, hidle, hws => by
      refine safe_bind (M := fun _ log d => phase log = .idle ∧ ∀ w ∈ ws, d.HasSettleable w)
        (safe_transaction (fun _ _ _ => trivial) ?_) ?_
      · intro d₁ hd₁
        refine sweepTxn_safe min w log ?_ ((hws w List.mem_cons_self).later hd₁)
        intro r p d₂ hcommit
        refine ⟨hcommit, ?_⟩
        intro d₃ hd₃ _
        refine ⟨(phase_sweep (hcommit 0)).trans hidle, ?_⟩
        intro w' hw'
        exact (hws w' (List.mem_cons_of_mem _ hw')).later hd₃
      · rintro didCreate log d ⟨hidle, hws⟩
        exact sweepAll_safe ws _ log d hidle hws

theorem phase_query {s : Stmt} {r : Resp s} (h : s.isQuery = true) :
    phase (log ++ [.stmt s r]) = phase log := by
  rw [phase_append]
  cases s <;> simp [Stmt.isQuery] at h <;> rfl

theorem sweep_safe (m : Option Uuid) (hidle : phase log = .idle) :
    (sweep min m).Safe engine (commits min) (fun _ log _ => phase log = .idle) Free log d := by
  refine safe_bind (M := fun ws log d => phase log = .idle ∧ ∀ w ∈ ws, d.HasSettleable w)
    (safe_lookup rfl ?_ ?_) ?_
  · intro env busy v r ws hout
    exact (Sql.payoutListSettleableWallets_ok hout).1
  · intro d' env busy r ws d'' hout hd''
    refine ⟨(phase_query rfl).trans hidle, ?_⟩
    intro s hs
    obtain ⟨w, a, hw, howner, ha, hm, hc, hactive, -⟩ :=
      (Sql.payoutListSettleableWallets_ok hout).2 s hs
    have hid := Db.id_of_wallet hw
    rw [← hid] at hw
    exact Db.HasSettleable.later
      ⟨w, a, Db.HasWallet.of_get hw, hid, howner, ha, hm, hc, hactive⟩ hd''
  · rintro ws log d ⟨hidle, hws⟩
    exact sweepAll_safe ws 0 log d hidle hws

/-- What the lookup of a payout's account leaves to do. -/
def looked (p : PayoutRow) (rest : List PayoutRow) : Option PayoutAccountRow → Phase
  | some a => if a.isActive then .ready p a rest else .refused p rest
  | none => .refused p rest

theorem sendToBank_safe (p : PayoutRow) (rest : List PayoutRow) (found : Option PayoutAccountRow)
    (hplace : phase log = looked p rest found)
    (hfound : ∀ a, found = some a → d.account p.payoutAccountId = some a) (hp : d.HasPayout p) :
    (sendToBank p found).Safe engine (commits min) (fun _ log _ => phase log = Phase.ofBatch rest)
      (fun _ log d => (phase log).failing p rest ∧ Db.HasPayout d p) log d := by
  cases found with
  | none => exact safe_fail (fun d' hd' => ⟨Or.inl hplace, hp.later hd'⟩)
  | some a =>
    by_cases hactive : a.isActive = true
    · simp only [looked, hactive, if_true] at hplace
      simp only [sendToBank, hactive, if_true]
      refine safe_bind (M := fun _ log d => phase log = .accepted p rest ∧ d.HasPayout p)
        (safe_external ?_ ?_ ?_) ?_
      · intro d' now hd'
        exact .bank p a rest hplace (Db.account_later (hfound a rfl) hd') hactive
      · intro d' hd'
        rw [phase_append, hplace]
        exact ⟨rfl, hp.later hd'⟩
      · intro e d' hd'
        rw [phase_append, hplace]
        exact ⟨Or.inl rfl, hp.later hd'⟩
      · rintro - log d ⟨hacc, hp⟩
        refine safe_transaction ?_ ?_
        · intro f d' hd'
          rw [phase_append, hacc]
          exact ⟨Or.inr rfl, hp.later hd'⟩
        · intro d' hd'
          refine paidTxn_safe min p rest log hacc ?_ (hp.later hd')
          rintro - p₁ d₁ hcommit ⟨c, hevs⟩
          refine ⟨hcommit, ?_⟩
          intro d₃ _ _
          rw [phase_append, hevs, hacc, c.observe_events]
          rfl
    · simp only [looked, if_neg hactive] at hplace
      simp only [sendToBank, if_neg hactive]
      exact safe_fail (fun d' hd' => ⟨Or.inl hplace, hp.later hd'⟩)

theorem retryOrReverse_safe (p : PayoutRow) (rest : List PayoutRow) (err : Err)
    (hplace : (phase log).failing p rest) (hp : d.HasPayout p) :
    (retryOrReverse p err).Safe engine (commits min)
      (fun _ log _ => phase log = Phase.ofBatch rest) Free log d := by
  unfold retryOrReverse
  split
  · rename_i hremaining
    refine safe_query (fun _ _ _ => trivial) ?_
    intro d' env busy r ws hd' hout
    obtain ⟨row, hget, hsame⟩ := hp.later hd'
    obtain rfl := Sql.payoutMarkRetry_ok hget hout
    refine ⟨.markRetry p rest row err.message hplace hremaining hget hsame, ?_⟩
    intro d'' _
    rw [phase_append]
    exact hplace.finish
  · rename_i hlast
    refine safe_transaction (fun _ _ _ => trivial) ?_
    intro d' hd'
    refine reversalTxn_safe min p rest err.message log hplace (not_lt.mp hlast) ?_ ?_ (hp.later hd')
    · rintro - p₁ d₁ hcommit ⟨c, hevs⟩
      refine ⟨hcommit, ?_⟩
      intro d₃ _ _
      rw [phase_append, hevs, c.observe_events]
      exact hplace.finish
    · exact fun e p d d₃ _ => trivial

theorem processOne_safe (p : PayoutRow) (rest : List PayoutRow) (hplace : phase log = .next p rest)
    (hp : d.HasPayout p) :
    (processOne p).Safe engine (commits min) (fun _ log _ => phase log = Phase.ofBatch rest) Free
      log d := by
  refine safe_bind (M := fun found log d => phase log = looked p rest found ∧
    (∀ a, found = some a → d.account p.payoutAccountId = some a) ∧ d.HasPayout p)
    (safe_query (fun _ _ _ => trivial) ?_) ?_
  · intro d' env busy r ws hd' hout
    obtain ⟨rfl, rfl⟩ := Sql.accountFindById_ok hout
    refine ⟨.accountFind p rest hplace, ?_⟩
    intro d'' hd''
    refine ⟨?_, ?_, (hp.later hd').later hd''⟩
    · rw [phase_append, hplace]
      cases d'.account p.payoutAccountId <;> rfl
    · intro a ha
      exact Db.account_later ha hd''
  · rintro found log d ⟨hplace, hfound, hp⟩
    refine safe_catch (sendToBank_safe p rest found hplace hfound hp) ?_
    rintro err log d ⟨hfailing, hp⟩
    exact retryOrReverse_safe p rest err hfailing hp

/-- The payouts of a batch are processed in order. -/
theorem processAll_safe : ∀ (ps : List PayoutRow) (log : List Ev) (d : Db),
    phase log = Phase.ofBatch ps → (∀ p ∈ ps, d.HasPayout p) →
    (processAll ps).Safe engine (commits min) (fun _ log _ => phase log = .idle) Free log d
  | [], _, _, hplace, _ => safe_pure (fun _ _ => hplace)
  | p :: ps, log, d, hplace, hps => by
      refine safe_bind (safe_later (Db.Later.refl d)
        (processOne_safe p ps hplace (hps p List.mem_cons_self))) ?_
      rintro - log' d' ⟨hd', hplace'⟩
      refine processAll_safe ps log' d' hplace' ?_
      intro q hq
      exact (hps q (List.mem_cons_of_mem _ hq)).later hd'

theorem processDuePayouts_safe (limit : ℕ) (m : Option Uuid) (hidle : phase log = .idle) :
    (processDuePayouts limit m).Safe engine (commits min) (fun _ log _ => phase log = .idle) Free
      log d := by
  refine safe_bind (M := fun due log d => phase log = Phase.ofBatch due ∧
    ∀ p ∈ due, d.HasPayout p) (safe_query (fun _ _ _ => trivial) ?_) ?_
  · intro d' env busy r ws _ hout
    obtain ⟨rfl, hnodup, hclaimed⟩ := Sql.payoutClaimDue_ok hout
    have hcommit : Commit min log env.now d' (.auto (.payoutClaimDue limit 60 m) r)
        (r.map .payout) := .claimDue limit m r hidle hnodup (fun p hp => (hclaimed p hp).1)
    refine ⟨hcommit, ?_⟩
    intro d'' hd''
    refine ⟨?_, ?_⟩
    · rw [phase_append, hidle]
      rfl
    · intro p hp
      have hget := Table.get_install_of_mem (t := d') hcommit.nodup (List.mem_map_of_mem hp)
      exact (Db.HasPayout.of_get (Db.payout_eq_some.mpr hget)).later hd''
  · rintro due log d ⟨hplace, hdue⟩
    exact safe_bind (processAll_safe due log d hplace hdue) (fun _ _ _ h => safe_pure (fun _ _ => h))

theorem settleNow_safe (m : Uuid) (hidle : phase log = .idle) :
    (settleNow min m).Safe engine (commits min) Free Free log d := by
  refine safe_bind (sweep_safe (some m) hidle) ?_
  intro _ log d hidle
  refine safe_bind (processDuePayouts_safe 100 (some m) hidle) ?_
  intro _ log d _
  refine safe_bind (M := Free) (safe_lookup rfl ?_ (fun _ _ _ _ _ _ _ _ => trivial))
    (fun _ _ _ _ => safe_pure (fun _ _ => trivial))
  intro env busy v r ws hout
  exact Sql.payoutListByMerchant_ok hout

end payoutService

theorem tick_safe (hidle : phase log = .idle) :
    (tick min).Safe engine (commits min) Free Free log d := by
  refine safe_bind (payoutService.sweep_safe none hidle) ?_
  intro _ log d hidle
  refine safe_bind (payoutService.processDuePayouts_safe PROCESS_BATCH none hidle) ?_
  exact fun _ _ _ _ => safe_pure (fun _ _ => trivial)

/-- Every program, from the start of its process. -/
theorem program_safe (j : Job) (d : Db) :
    (program min j).Safe engine (commits min) Free Free [] d := by
  have hdone : ∀ {α : Type} {f : α → Reply} (a : α) (log : List Ev) (d : Db),
      (pure (f a) : Prog Reply).Safe engine (commits min) Free Free log d :=
    fun _ _ _ => safe_pure (fun _ _ => trivial)
  cases j with
  | createWallet m c =>
    exact safe_bind (walletService.create_safe m c) (fun a log d _ => hdone a log d)
  | transfer m dto =>
    exact safe_bind (transferService.attempts_safe m dto _ _ _) (fun a log d _ => hdone a log d)
  | postTransfer m key hash dto =>
    exact safe_bind (postTransfer_safe m key hash dto) (fun a log d _ => hdone a log d)
  | createIntent m dto =>
    exact safe_bind (paymentService.create_safe m dto) (fun a log d _ => hdone a log d)
  | confirm m id =>
    exact safe_bind (paymentService.confirm_safe m id)
      (fun _ _ _ _ => safe_pure (fun _ _ => trivial))
  | cancel m id =>
    exact safe_bind (paymentService.cancel_safe m id) (fun a log d _ => hdone a log d)
  | registerEndpoint m url secret =>
    exact safe_bind (webhookService.registerEndpoint_safe m url secret)
      (fun a log d _ => hdone a log d)
  | registerAccount m dto =>
    exact safe_bind (payoutService.registerAccount_safe m dto) (fun a log d _ => hdone a log d)
  | sweep m =>
    exact safe_bind (payoutService.sweep_safe m rfl) (fun a log d _ => hdone a log d)
  | processDue limit m =>
    exact safe_bind (payoutService.processDuePayouts_safe limit m rfl)
      (fun a log d _ => hdone a log d)
  | runNow m =>
    exact safe_bind (payoutService.settleNow_safe m rfl) (fun a log d _ => hdone a log d)
  | tick =>
    exact safe_bind (tick_safe rfl) (fun _ _ _ _ => safe_pure (fun _ _ => trivial))

end Programs

/-! ## Every run -/

abbrev Abs := TxStore.Abs Row Loc Row.key Stmt Resp Fault Err TxnName BankTransfer

abbrev AReach (min : ℤ) (P : Abs → Prop) : Abs → Prop := TxStore.AReach (commits min) P

theorem abs_proc {s : Sys} {i : ℕ} {n : Node} (hn : s.nodes[i]? = some n) :
    s.abs.procs[i]? = some (n.live, n.log) := by
  simp [TxStore.Sys.abs, hn]

theorem of_abs_proc {s : Sys} {i : ℕ} {q : Bool × List Ev} (hq : s.abs.procs[i]? = some q) :
    ∃ n : Node, s.nodes[i]? = some n ∧ (n.live, n.log) = q := by
  simpa [TxStore.Sys.abs] using hq

/-- Every state that steps satisfying `ok` reach is the end of a sequence of
atomic commits; what `ok` guarantees of the states carries over. -/
theorem reach_refines {min : ℤ} {ok : Sys → Step → Sys → Prop} {P : Abs → Prop}
    (hP : ∀ s l s', ok s l s' → P s'.abs) {s : Sys} (hs : ReachBy min ok s) :
    AReach min P s.abs :=
  Reach.refines (commits_lawful min) trivial (fun j d _ => program_safe j d)
    (by simp [SideOk]) hP hs

/-- One step of the system is one atomic step. -/
theorem step_refines {min : ℤ} {ok : Sys → Step → Sys → Prop} {s s' : Sys} {l : Step}
    (hs : ReachBy min ok s) (hstep : s.next min l = some s') :
    TxStore.AStep (commits min) s.abs s'.abs :=
  Sys.Safe.astep (commits_lawful min)
    (Reach.safe (commits_lawful min) trivial (fun j d _ => program_safe j d) (by simp [SideOk]) hs)
    hstep

/-- What a step adds to the history is a commit on the tables before it. -/
theorem step_commits {min : ℤ} {ok : Sys → Step → Sys → Prop} {s s' : Sys} {l : Step}
    (hs : ReachBy min ok s) (hstep : s.next min l = some s') {i : ℕ} {it : Item}
    (hlast : s'.history = s.history ++ [(i, it)]) :
    ∃ log ws, s.abs.procs[i]? = some (true, log) ∧ Commit min log s.now s.db it ws ∧
      s'.db = Table.install s.db ws := by
  obtain ⟨log, p, hi, hg, hdb⟩ := (step_refines hs hstep).of_history hlast
  exact ⟨log, p.writes, hi, hg, hdb⟩

/-- Nothing committed is lost by a step. -/
theorem step_later {min : ℤ} {ok : Sys → Step → Sys → Prop} {s s' : Sys} {l : Step}
    (hs : ReachBy min ok s) (hstep : s.next min l = some s') : Db.Later s.db s'.db := by
  have hcases : ∀ {a a' : Abs}, TxStore.AStep (commits min) a a' → Db.Later a.db a'.db := by
    intro a a' ha
    cases ha with
    | start | tick | fault | quiet => exact Db.Later.refl _
    | commit i log it p live _ _ hg => exact Commit.later hg
  exact hcases (step_refines hs hstep)

end PaymentApis
