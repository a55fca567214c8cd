import PaymentApis.Lib.Under
import PaymentApis.Postings
import PaymentApis.Requests
import PaymentApis.Sweeps

/-!
# Sums of 64 bits

Nothing limits the amount of a payment intent, nor what comes together on one
wallet. As long as the requests of each currency stay below `2 ^ 62` in all, and no
lease is outlived, no amount and no sum leaves the range of a `BIGINT`; from
`2 ^ 62` on, one can.
-/

namespace PaymentApis

open TxStore

/-! ## What is stated -/

/-- The new balance of the wallet is no `BIGINT`. -/
def WalletRow.Overflows (w : WalletRow) (delta : Text) : Prop :=
  ∀ b, Bigint.parse delta = some b → w.balance.add? b = none

/-- The statement is given a text that is no `BIGINT`, or makes a sum that is none. -/
def Stmt.OutOfRange (v : Db) : Stmt → Prop
  | .intentInsert _ amount _ _ => Bigint.parse amount = none
  | .ledgerAddEntry _ _ _ amount _ => Bigint.parse amount = none
  | .chargeInsert _ _ amount _ _ => Bigint.parse amount = none
  | .payoutCreatePending _ _ _ _ amount _ => Bigint.parse amount = none
  | .walletApplyDelta id delta => ∃ w, v.wallet id = some w ∧ w.Overflows delta
  | .walletApplyDeltaIfVersion id delta expectedVersion =>
    ∃ w, v.wallet id = some w ∧ w.version = expectedVersion ∧ w.Overflows delta
  | _ => False

/-- Identifiers that no row of the ledger, no charge and no event has. -/
structure Untaken (ids : ℕ → ℕ) (d : Db) : Prop where
  transaction : ∀ k, d.get (.transaction (ids k)) = none
  entry : ∀ k, d.get (.entry (ids k)) = none
  charge : ∀ k, d.get (.charge (ids k)) = none
  event : ∀ k, d.get (.event (ids k)) = none

/-- A confirm of the intent that has the database for itself succeeds. -/
def Db.Confirmable (d : Db) (x : PaymentIntentRow) : Prop :=
  ∀ (now : ℕ) (ids : ℕ → ℕ) (id : Text), Function.Injective ids → Untaken ids d →
    uuidOfText id = some x.id → ∃ (i : ℕ) (d' : Db) (log : List Ev) (r : _ × _),
      (paymentService.confirm x.merchantId id).alone engine now (drawing ids) 0 d =
        ⟨i, d', log, .ok r⟩ ∧ d'.intent x.id = some { x with status := .succeeded }

/-- After the last attempt, the reversal of the payout that has the database for itself
succeeds. -/
def Db.Reversible (d : Db) (p : PayoutRow) : Prop :=
  ∀ (now : ℕ) (ids : ℕ → ℕ) (err : Err), Function.Injective ids → Untaken ids d →
    payoutService.MAX_ATTEMPTS ≤ p.attempts + 1 → ∃ (i : ℕ) (d' : Db) (log : List Ev),
      (payoutService.retryOrReverse p err).alone engine now (drawing ids) 0 d =
        ⟨i, d', log, .ok ()⟩ ∧ ∃ p', d'.payout p.id = some p' ∧ p'.status = .failed

/-- No statement that a process is about to issue leaves the range, and none will that
confirms an open intent or reverses a pending payout. -/
structure Sys.InRange (s : Sys) : Prop where
  statements : ∀ n ∈ s.nodes, ∀ v q, TxStore.Node.upcoming n s.db = some (v, q) →
    ¬ Stmt.OutOfRange v q
  confirmable : ∀ x ∈ Db.intents s.db, x.status = .requiresConfirmation → Db.Confirmable s.db x
  reversible : ∀ p ∈ Db.payouts s.db, p.status = .pending → Db.Reversible s.db p

/-! ## The statements -/

section Statements

variable {env : Env} {busy : Loc → Bool} {v : Db} {q : Stmt}

theorem bigintFault_cases (t : Text) :
    Sql.bigintFault t = .invalidText ∨ Sql.bigintFault t = .numericOutOfRange := by
  unfold Sql.bigintFault
  split
  · exact Or.inl rfl
  · exact Or.inr rfl

/-- A statement out of range fails, as PostgreSQL has it. -/
theorem Stmt.OutOfRange.fails (h : q.OutOfRange v) : ∃ f,
    (Sql.exec q env busy v).out = .error f ∧ (f = .invalidText ∨ f = .numericOutOfRange) := by
  have hamount : ∀ {α : Type} {t : Text} {row : (a : Bigint) → 0 < a.val → Row × α},
      Bigint.parse t = none → ∃ f, (Sql.insertAmount v t row).out = .error f ∧
        (f = .invalidText ∨ f = .numericOutOfRange) := by
    intro α t row ht
    refine ⟨Sql.bigintFault t, ?_, bigintFault_cases t⟩
    simp only [Sql.insertAmount, ht, Sql.failure]
  have hbalance : ∀ {α : Type} {w : WalletRow} {t : Text} {k : ℕ} {a : α}, w.Overflows t →
      ∃ f, (Sql.addBalance w t k a).out = .error f ∧
        (f = .invalidText ∨ f = .numericOutOfRange) := by
    intro α w t k a ht
    cases hparse : Bigint.parse t with
    | none =>
      refine ⟨Sql.bigintFault t, ?_, bigintFault_cases t⟩
      simp only [Sql.addBalance, hparse, Sql.failure]
    | some b =>
      refine ⟨.numericOutOfRange, ?_, Or.inr rfl⟩
      simp only [Sql.addBalance, hparse, ht b hparse]
  cases q with
  | intentInsert | ledgerAddEntry | chargeInsert | payoutCreatePending => exact hamount h
  | walletApplyDelta id delta =>
    obtain ⟨w, hw, hover⟩ := h
    simp only [Sql.exec, Sql.walletApplyDelta, hw]
    exact hbalance hover
  | walletApplyDeltaIfVersion id delta k =>
    obtain ⟨w, hw, hversion, hover⟩ := h
    simp only [Sql.exec, Sql.walletApplyDeltaIfVersion, hw, if_pos hversion]
    split
    · exact hbalance hover
    · exact ⟨.numericOutOfRange, rfl, Or.inr rfl⟩
  | _ => exact h.elim

theorem not_overflows {w : WalletRow} {z : ℤ} (hz : -2 ^ 63 ≤ z ∧ z < 2 ^ 63)
    (hsum : -2 ^ 63 ≤ w.balance.val + z ∧ w.balance.val + z < 2 ^ 63) :
    ¬ w.Overflows (intText z) := by
  intro h
  have hnone := h ⟨z, hz.1, hz.2⟩ (by rw [Bigint.parse_intText, Bigint.ofInt?_eq_some])
  have hsome : w.balance.add? ⟨z, hz.1, hz.2⟩ = some ⟨w.balance.val + z, hsum.1, hsum.2⟩ :=
    Bigint.add?_eq_some.mpr rfl
  rw [hsome] at hnone
  cases hnone

theorem parse_numText_isSome {amount : IntDouble} :
    Bigint.parse (numText amount.val) ≠ none ↔ shortest amount.val < 2 ^ 63 := by
  rw [Bigint.parse_numText, Bigint.ofInt?]
  split
  · rename_i h
    simp only [ne_eq, reduceCtorEq, not_false_eq_true, true_iff]
    omega
  · rename_i h
    simp only [ne_eq, not_true_eq_false, false_iff]
    omega

end Statements

/-! ## Tables below a bound -/

/-- No balance, open intent or pending payout exceeds the bound. -/
structure Db.Within (bound : ℤ) (d : Db) : Prop where
  wallet : ∀ w ∈ d.wallets, w.balance.val ≤ bound
  intent : ∀ x ∈ d.intents, x.status = .requiresConfirmation → x.amount.val ≤ bound
  payout : ∀ p ∈ d.payouts, p.status = .pending → p.amount.val ≤ bound

/-- No balance that the transaction has written exceeds the bound. -/
def Capped (bound : ℤ) (p : Priv) : Prop :=
  ∀ w, Row.wallet w ∈ p.writes → w.balance.val ≤ bound

section Walks

variable {bound min : ℤ} {β : Type} {p : Priv} {d : Db}

abbrev UnderBound (bound : ℤ) {β : Type} (b : Tx β) (p : Priv) : Prop :=
  b.Under engine (Db.Within bound) (fun v q => ¬ Stmt.OutOfRange v q) p

theorem Capped.begin : Capped bound .begin := fun w hw => by simp [Priv.begin] at hw

theorem Capped.balance (h : Capped bound p) (hd : d.Within bound) {id : Uuid} {w : WalletRow}
    (hw : Db.wallet (p.view d) id = some w) : w.balance.val ≤ bound := by
  rcases Table.mem_of_mem_install (Table.mem_of_get (Db.wallet_eq_some.mp hw)) with hmem | hmem
  · exact h w hmem
  · exact hd.wallet w (Db.mem_wallets.mpr (Table.get_of_mem hmem))

theorem Capped.add (h : Capped bound p) {s : Stmt} {r : Resp s} {locked : List Loc}
    {ws : List Row} (hws : ∀ w, Row.wallet w ∈ ws → w.balance.val ≤ bound) :
    Capped bound (p.add s r locked ws) := by
  intro w hw
  rcases List.mem_append.mp hw with hw | hw
  · exact h w hw
  · exact hws w hw

/-- A statement that is in range everywhere and writes no wallet. -/
theorem Capped.stmt (h : Capped bound p) {s : Stmt} {k : Resp s → Tx β}
    (hok : ∀ v, ¬ Stmt.OutOfRange v s)
    (hws : ∀ env busy v r ws, (Sql.exec s env busy v).out = .ok (r, ws) →
      ∀ w, Row.wallet w ∉ ws)
    (hk : ∀ (d : Db) r p', d.Within bound → Capped bound p → Capped bound p' →
      (∃ env busy ws, (Sql.exec s env busy (p.view d)).out = .ok (r, ws)) →
      UnderBound bound (k r) p') : UnderBound bound (.stmt s k) p := by
  refine ⟨fun d _ => hok _, ?_⟩
  intro env busy d r ws hd hout
  refine hk d r _ hd h (h.add ?_) ⟨env, busy, ws, hout⟩
  intro w hw
  exact absurd hw (hws env busy _ r ws hout w)

/-- A ledger line whose amount is a `BIGINT`. -/
theorem Capped.addEntry (h : Capped bound p) {t w : Uuid} {dir : Direction} {amount : Text}
    {c : Currency} {k : Unit → Tx β} (hparse : Bigint.parse amount ≠ none)
    (hk : ∀ p', Capped bound p' → UnderBound bound (k ()) p') :
    UnderBound bound (.stmt (.ledgerAddEntry t w dir amount c) k) p := by
  refine h.stmt (fun v => hparse) ?_ (fun _ _ p' _ _ hp' _ => hk p' hp')
  intro env busy v r ws hout w hw
  obtain ⟨row, rfl, -, u, a, ha, -, rfl⟩ := Sql.ledgerAddEntry_ok hout
  simp at hw

theorem Capped.createTransaction (h : Capped bound p) {type : TransactionType}
    {k : Uuid → Tx β} (hk : ∀ id p', Capped bound p' → UnderBound bound (k id) p') :
    UnderBound bound (.stmt (.ledgerCreateTransaction type) k) p := by
  refine h.stmt (fun v => id) ?_ (fun _ id p' _ _ hp' _ => hk id p' hp')
  intro env busy v r ws hout w hw
  obtain ⟨row, rfl, -, rfl⟩ := Sql.ledgerCreateTransaction_ok hout
  simp at hw

/-- An update by no more than the bound stays in range. -/
theorem Capped.delta_inRange (hbound : bound < 2 ^ 62) (h : Capped bound p) (hd : d.Within bound)
    {id : Uuid} {w : WalletRow} (hw : Db.wallet (p.view d) id = some w) {z : ℤ}
    (hz : -bound ≤ z ∧ z ≤ bound) : ¬ w.Overflows (intText z) := by
  have hle := h.balance hd hw
  have hcheck := w.check
  exact not_overflows (by omega) (by omega)

theorem webhookService.emit_under (m : Uuid) (type : EventType) (data : EventData) (p : Priv) :
    UnderBound bound (emit m type data) p := by
  have hall : ∀ (es : List WebhookEndpointRow) (p : Priv),
      UnderBound bound (enqueueAll m type data es) p := by
    intro es
    induction es with
    | nil => exact fun _ => trivial
    | cons e es ih => exact fun p => ⟨fun _ _ => id, fun _ _ _ _ _ _ _ => ih _⟩
  exact ⟨fun _ _ => id, fun _ _ _ r _ _ _ => hall r _⟩

namespace transferService

theorem attempt_under (hbound : bound < 2 ^ 62) (m : Uuid) (dto : CreateTransferDto) :
    UnderBound bound (attempt m dto) .begin := by
  simp only [attempt, recordLedger, sql, Body.call_bind, Body.stmt_bind, Body.pure_eq,
    Body.ret_bind]
  refine Capped.begin.stmt (fun v => id) ?_ ?_
  · intro env busy v r ws hout w hw
    obtain ⟨-, rfl⟩ := Sql.walletFindById_ok hout
    simp at hw
  rintro d₁ fromRow p₁ hd₁ h₀ h₁ ⟨env, busy, ws, hfrom⟩
  refine h₁.stmt (fun v => id) ?_ ?_
  · intro env busy v r ws hout w hw
    obtain ⟨-, rfl⟩ := Sql.walletFindById_ok hout
    simp at hw
  intro d₂ toRow p₂ _ _ h₂ _
  cases hv : validate fromRow toRow m dto.amount with
  | error e => trivial
  | ok v =>
    obtain ⟨f, t, a⟩ := v
    obtain ⟨hf, -, rfl, -, -, hfunds⟩ := validate_ok hv
    simp only at hf hfunds
    -- what the source held when it was read covers the amount
    have hamount : (dto.amount.val : ℤ) ≤ bound := by
      obtain ⟨⟨u, -, hread⟩, -⟩ := Sql.walletFindById_ok hfrom
      rw [hf] at hread
      exact hfunds.trans (h₀.balance hd₁ hread.symm)
    have hparse : Bigint.parse (numText dto.amount.val) ≠ none := by
      rw [parse_numText_isSome]
      exact shortest_lt dto.amount.exact (by omega)
    simp only [Body.ofExcept, Body.ret_bind]
    refine h₂.createTransaction (fun _ p₃ h₃ => ?_)
    refine h₃.addEntry hparse (fun p₄ h₄ => ?_)
    refine h₄.addEntry hparse (fun p₅ h₅ => ?_)
    refine ⟨?_, ?_⟩
    · rintro d hd ⟨w, hw, -, hover⟩
      exact h₅.delta_inRange hbound hd hw (by omega) hover
    intro env busy d okFrom ws hd hout
    have h₆ : ∀ locked, Capped bound (p₅.add (.walletApplyDeltaIfVersion f.id
        (intText (-(dto.amount.val : ℤ))) f.version) okFrom locked ws) := by
      intro locked
      refine h₅.add ?_
      have hexec : (Sql.exec (.walletApplyDeltaIfVersion f.id (intText (-(dto.amount.val : ℤ)))
        f.version) env busy (p₅.view d)).out = .ok (okFrom, ws) := hout
      rcases Sql.walletApplyDeltaIfVersion_ok hexec with
        ⟨-, rfl⟩ | ⟨-, w, hw, -, b, c, hc, hb, hsum, rfl⟩
      · simp
      · intro w' hw'
        rw [List.mem_singleton, Row.wallet.injEq] at hw'
        subst hw'
        rw [Bigint.parse_intText, Bigint.ofInt?_eq_some] at hb
        have hle := h₅.balance hd hw
        simp only
        omega
    refine ⟨?_, ?_⟩
    · rintro d' hd' ⟨w, hw, -, hover⟩
      exact (h₆ _).delta_inRange hbound hd' hw (by omega) hover
    intro env' busy' d' okTo ws' hd' hout'
    cases okFrom with
    | false => trivial
    | true => cases okTo <;> trivial

end transferService

namespace paymentService

theorem assertTransition_ok {status next : PaymentIntentStatus} {action : String}
    (h : assertTransition status next action = .ok ()) : status = .requiresConfirmation := by
  cases status with
  | requiresConfirmation => rfl
  | succeeded | canceled => simp [assertTransition, TRANSITIONS] at h

theorem confirmTxn_under (hbound : bound < 2 ^ 62) (m : Uuid) (id : Text) :
    UnderBound bound (confirmTxn m id) .begin := by
  simp only [confirmTxn, sql, Body.call_bind]
  refine Capped.begin.stmt (fun v => False.elim) ?_ ?_
  · intro env busy v r ws hout w hw
    obtain ⟨rfl, -⟩ := Sql.intentFindByIdForUpdate_ok hout
    simp at hw
  rintro d₁ found p₁ hd₁ h₀ h₁ ⟨env, busy, ws, hfound⟩
  cases found with
  | none => trivial
  | some intent =>
    cases ht : assertTransition intent.status .succeeded "confirm" with
    | error e =>
      simp only [Body.ofExcept, ht]
      trivial
    | ok u =>
      -- an open intent is below the bound
      have hamount : intent.amount.val ≤ bound := by
        obtain ⟨-, hread⟩ := Sql.intentFindByIdForUpdate_ok hfound
        obtain ⟨-, hget, -⟩ := hread intent rfl
        have hmem : intent ∈ Db.intents d₁ := Db.mem_intents.mpr (Db.intent_eq_some.mp hget)
        exact hd₁.intent intent hmem (assertTransition_ok ht)
      have hpos := intent.check
      have hparse : Bigint.parse intent.amount.text ≠ none := by simp
      simp only [Body.ofExcept, ht, Body.ret_bind]
      refine h₁.stmt (fun v => False.elim) ?_ ?_
      · intro env busy v r ws hout w hw
        obtain ⟨-, rfl⟩ := Sql.walletFindByMerchantAndCurrency_ok hout
        simp at hw
      intro d₂ walletRow p₂ _ _ h₂ _
      cases walletRow with
      | none => trivial
      | some wallet =>
        refine h₂.createTransaction (fun _ p₃ h₃ => ?_)
        refine h₃.addEntry hparse (fun p₄ h₄ => ?_)
        refine ⟨?_, ?_⟩
        · rintro d hd ⟨w, hw, hover⟩
          exact h₄.delta_inRange hbound hd hw (by omega) hover
        intro env busy d _ ws _ _
        refine ⟨fun _ _ => hparse, fun _ _ _ charge _ _ _ => ⟨fun _ _ => False.elim, ?_⟩⟩
        intro env busy d _ ws _ _
        refine Body.Under.bind ?_ (webhookService.emit_under m _ _ _)
        exact fun _ _ => trivial

theorem cancelTxn_under (m : Uuid) (id : Text) : UnderBound bound (cancelTxn m id) .begin := by
  simp only [cancelTxn, sql, Body.call_bind]
  refine ⟨fun _ _ => False.elim, fun env busy d found ws _ _ => ?_⟩
  cases found with
  | none => trivial
  | some intent =>
    cases ht : assertTransition intent.status .canceled "cancel" with
    | error e =>
      simp only [Body.ofExcept, ht]
      trivial
    | ok u =>
      simp only [Body.ofExcept, ht, Body.ret_bind]
      exact ⟨fun _ _ => False.elim, fun _ _ _ _ _ _ _ => trivial⟩

end paymentService

namespace payoutService

theorem sweepTxn_under (hbound : bound < 2 ^ 62) (s : SettleableWallet) :
    UnderBound bound (sweepTxn min s) .begin := by
  simp only [sweepTxn, sql, Body.call_bind]
  refine Capped.begin.stmt (fun v => False.elim) ?_ ?_
  · intro env busy v r ws hout w hw
    obtain ⟨-, rfl, -⟩ := Sql.walletFindByIdForUpdate_ok hout
    simp at hw
  rintro d₁ found p₁ hd₁ h₀ h₁ ⟨env, busy, ws, hfound⟩
  cases found with
  | none => trivial
  | some wallet =>
    simp only
    split
    · trivial
    have hbalance : wallet.balance.val ≤ bound := by
      obtain ⟨hread, -⟩ := Sql.walletFindByIdForUpdate_ok hfound
      exact h₀.balance hd₁ hread.symm
    have hcheck := wallet.check
    have hparse : Bigint.parse (intText wallet.balance.val) ≠ none := by
      rw [← Bigint.text, Bigint.parse_text]
      simp
    refine h₁.createTransaction (fun _ p₂ h₂ => ?_)
    refine h₂.addEntry hparse (fun p₃ h₃ => ?_)
    refine ⟨?_, ?_⟩
    · rintro d hd ⟨w, hw, hover⟩
      exact h₃.delta_inRange hbound hd hw (by omega) hover
    intro env busy d _ ws _ _
    exact ⟨fun _ _ => hparse, fun _ _ _ _ _ _ _ => trivial⟩

theorem paidTxn_under (p : PayoutRow) : UnderBound bound (paidTxn p) .begin :=
  ⟨fun _ _ => False.elim, fun _ _ _ _ _ _ _ => webhookService.emit_under _ _ _ _⟩

theorem reversalTxn_under (hbound : bound < 2 ^ 62) {p : PayoutRow} (hp : p.amount.val ≤ bound)
    (attempts : ℕ) (message : String) :
    UnderBound bound (reversalTxn p attempts message) .begin := by
  have hpos := p.check
  have hparse : Bigint.parse (intText p.amount.val) ≠ none := by
    rw [← Bigint.text, Bigint.parse_text]
    simp
  simp only [reversalTxn, sql, Body.call_bind]
  refine Capped.begin.stmt (fun v => False.elim) ?_ ?_
  · intro env busy v r ws hout w hw
    obtain ⟨-, rfl, -⟩ := Sql.walletFindByIdForUpdate_ok hout
    simp at hw
  intro _ found p₁ _ _ h₁ _
  cases found with
  | none => trivial
  | some wallet =>
    refine h₁.createTransaction (fun _ p₂ h₂ => ?_)
    refine h₂.addEntry hparse (fun p₃ h₃ => ?_)
    refine ⟨?_, ?_⟩
    · rintro d hd ⟨w, hw, hover⟩
      exact h₃.delta_inRange hbound hd hw (by omega) hover
    intro env busy d _ ws _ _
    refine ⟨fun _ _ => False.elim, fun _ _ _ _ _ _ _ => ?_⟩
    exact webhookService.emit_under _ _ _ _

end payoutService

/-! ### Programs -/

abbrev ProgUnder (bound : ℤ) {α : Type} (c : Prog α) : Prop :=
  c.Under engine (Db.Within bound) (fun v q => ¬ Stmt.OutOfRange v q) (fun _ => True)

theorem query_under {s : Stmt} (hs : ∀ v, ¬ Stmt.OutOfRange v s) : ProgUnder bound (query s) :=
  Client.Under.exec (fun _ _ => hs _) (fun _ _ _ _ _ _ _ => trivial)

theorem transferService.attempts_under (hbound : bound < 2 ^ 62) (m : Uuid)
    (dto : CreateTransferDto) : ∀ n, ProgUnder bound (attempts m dto n)
  | 0 => trivial
  | n + 1 => by
      refine Client.Under.tryCatch ?_ (Client.Under.transaction (attempt_under hbound m dto))
      intro e
      split
      · exact transferService.attempts_under hbound m dto n
      · trivial

theorem postTransfer_under (hbound : bound < 2 ^ 62) (m : Uuid) (key : Option Text) (hash : Text)
    (dto : CreateTransferDto) : ProgUnder bound (postTransfer m key hash dto) := by
  have hany : ∀ {α β : Type} {c : Prog α} {f : α → Prog β}, (∀ a, ProgUnder bound (f a)) →
      ProgUnder bound c → ProgUnder bound (c >>= f) :=
    fun hf hc => Client.Under.bind (fun a _ => hf a) hc
  refine Client.Under.tryCatch ?_ ?_
  · exact fun _ => trivial
  unfold idempotency
  split
  · trivial
  split
  · trivial
  refine hany ?_ ?_
  · rintro ⟨created, existing⟩
    split
    · unfold idempotency.replay
      split_ifs <;> trivial
    · refine hany ?_ (Client.Under.tryCatch ?_
        (Client.Under.map (transferService.attempts_under hbound m dto _)))
      · intro res
        refine Client.Under.map (Client.Under.tryCatch ?_ ?_)
        · exact fun _ => trivial
        · split
          · exact query_under (fun _ => False.elim)
          · exact query_under (fun _ => False.elim)
      · exact fun _ => trivial
  · refine Client.Under.tryCatch ?_ (Client.Under.map (query_under (fun _ => False.elim)))
    intro e
    split
    · exact Client.Under.map (query_under (fun _ => False.elim))
    · trivial

namespace payoutService

theorem sweepAll_under (hbound : bound < 2 ^ 62) : ∀ (ws : List SettleableWallet) (created : ℕ),
    ProgUnder bound (sweepAll min ws created)
  | [], _ => trivial
  | w :: ws, _ => Client.Under.bind (fun _ _ => sweepAll_under hbound ws _)
      (Client.Under.transaction (sweepTxn_under hbound w))

theorem sweep_under (hbound : bound < 2 ^ 62) (m : Option Uuid) :
    ProgUnder bound (sweep min m) :=
  Client.Under.bind (fun _ _ => sweepAll_under hbound _ _) (query_under (fun _ => False.elim))

theorem processOne_under (hbound : bound < 2 ^ 62) {p : PayoutRow} (hp : p.amount.val ≤ bound) :
    ProgUnder bound (processOne p) := by
  refine Client.Under.bind ?_ (query_under (fun _ => False.elim))
  intro found _
  refine Client.Under.tryCatch ?_ ?_
  · intro err
    unfold retryOrReverse
    split
    · exact query_under (fun _ => False.elim)
    · exact Client.Under.transaction (reversalTxn_under hbound hp _ _)
  · unfold sendToBank
    cases found with
    | none => trivial
    | some a =>
      simp only
      split
      · exact Client.Under.bind (fun _ _ => Client.Under.transaction (paidTxn_under p))
          (Client.Under.external _)
      · trivial

theorem processAll_under (hbound : bound < 2 ^ 62) : ∀ ps : List PayoutRow,
    (∀ p ∈ ps, p.amount.val ≤ bound) → ProgUnder bound (processAll ps)
  | [], _ => trivial
  | p :: ps, hps => Client.Under.bind
      (fun _ _ => processAll_under hbound ps (fun q hq => hps q (List.mem_cons_of_mem _ hq)))
      (processOne_under hbound (hps p List.mem_cons_self))

/-- A claimed payout was pending, and so below the bound. -/
theorem processDuePayouts_under (hbound : bound < 2 ^ 62) (limit : ℕ) (m : Option Uuid) :
    ProgUnder bound (processDuePayouts limit m) := by
  have hclaim : Client.Under engine (Db.Within bound) (fun v q => ¬ Stmt.OutOfRange v q)
      (fun due : List PayoutRow => ∀ p ∈ due, p.amount.val ≤ bound)
      (query (.payoutClaimDue limit 60 m)) := by
    refine ⟨fun _ _ => False.elim, fun _ => trivial, ?_⟩
    intro env busy d due ws hd hout p hp
    obtain ⟨-, -, hclaimed⟩ := Sql.payoutClaimDue_ok hout
    obtain ⟨⟨q, hq, hpending, -, rfl⟩, -⟩ := hclaimed p hp
    have hmem : q ∈ Db.payouts d := by
      rw [Db.mem_payouts, Db.id_of_payout hq]
      exact Db.payout_eq_some.mp hq
    exact hd.payout q hmem hpending
  exact Client.Under.bind
    (fun due hdue => Client.Under.map (processAll_under hbound due hdue)) hclaim

end payoutService

theorem program_under (hbound : bound < 2 ^ 62) (j : Job)
    (hj : ∀ m dto, j = .createIntent m dto → (shortest dto.amount.val : ℤ) ≤ bound) :
    ProgUnder bound (program min j) := by
  have hquery : ∀ {s : Stmt} {g : Err → Prog (Resp s)}, (∀ v, ¬ Stmt.OutOfRange v s) →
      (∀ e, ProgUnder bound (g e)) → ProgUnder bound ((query s).tryCatch g) := by
    intro s g hs hg
    exact Client.Under.tryCatch hg (query_under hs)
  cases j with
  | createWallet m c =>
    refine Client.Under.map (Client.Under.map (hquery (fun _ => False.elim) ?_))
    intro e
    split <;> trivial
  | transfer m dto => exact Client.Under.map (transferService.attempts_under hbound m dto _)
  | postTransfer m key hash dto => exact Client.Under.map (postTransfer_under hbound m key hash dto)
  | createIntent m dto =>
    have hparse : Bigint.parse (numText dto.amount.val) ≠ none := by
      rw [parse_numText_isSome]
      have hle := hj m dto rfl
      omega
    refine Client.Under.map (Client.Under.bind ?_ (query_under (fun _ => False.elim)))
    rintro (- | w) _
    · trivial
    · exact Client.Under.map (query_under (fun _ => hparse))
  | confirm m id =>
    exact Client.Under.map (Client.Under.transaction (paymentService.confirmTxn_under hbound m id))
  | cancel m id =>
    exact Client.Under.map (Client.Under.transaction (paymentService.cancelTxn_under m id))
  | registerEndpoint m url secret =>
    exact Client.Under.map (Client.Under.map (query_under (fun _ => False.elim)))
  | registerAccount m dto =>
    refine Client.Under.map (Client.Under.map (hquery (fun _ => False.elim) ?_))
    intro e
    split <;> trivial
  | sweep m => exact Client.Under.map (payoutService.sweep_under hbound m)
  | processDue limit m =>
    exact Client.Under.map (payoutService.processDuePayouts_under hbound limit m)
  | runNow m =>
    refine Client.Under.map (Client.Under.bind ?_ (payoutService.sweep_under hbound _))
    intro _ _
    refine Client.Under.bind ?_ (payoutService.processDuePayouts_under hbound _ _)
    exact fun _ _ => Client.Under.map (query_under (fun _ => False.elim))
  | tick =>
    refine Client.Under.map (Client.Under.bind ?_ (payoutService.sweep_under hbound _))
    exact fun _ _ => Client.Under.map (payoutService.processDuePayouts_under hbound _ _)

end Walks

/-! ## Confirms and reversals by themselves -/

section Alone

variable {now : ℕ} {ids : ℕ → ℕ} {d : Db} {β : Type} {b : β}

/-- A transaction that commits these rows, and events. -/
def Commits (ws : List Row) (o : ℕ × TxEnd Row Loc Stmt Resp Fault Err BankTransfer β) : Prop :=
  ∃ (j : ℕ) (p : Priv) (b : β) (rows : List WebhookEventRow),
    o = (j, .commits b p) ∧ p.writes = ws ++ rows.map .event

theorem Commits.stmt {i : ℕ} {p : Priv} {q : Stmt} {r : Resp q} {ws all : List Row}
    {body : Resp q → Tx β}
    (hout : (Sql.exec q ⟨now, ids i⟩ (fun _ => false) (p.view d)).out = .ok (r, ws))
    (hrest : ∀ p' : Priv, p'.writes = p.writes ++ ws →
      Commits all ((body r).alone engine now (drawing ids) d (i + 1) p')) :
    Commits all ((Body.stmt q body).alone engine now (drawing ids) d i p) := by
  have hout' : (engine.exec q ⟨now, ids i⟩ (fun _ => false) (p.view d)).out = .ok (r, ws) := hout
  rw [Body.alone_stmt (drawing_ok ids i) hout']
  exact hrest _ rfl

/-- An event's new id is none that the transaction has written. -/
theorem Untaken.event_unwritten (hnew : Untaken ids d) (hinj : Function.Injective ids) {i : ℕ}
    {p : Priv} {ws : List Row} {rows : List WebhookEventRow}
    (hp : p.writes = ws ++ rows.map .event) (hws : ∀ r ∈ ws, r.asEvent = none)
    (hrows : ∀ r ∈ rows, ∃ k < i, r.id = ids k) : (p.view d).get (.event (ids i)) = none := by
  rw [Priv.view, Table.get_install_eq_none, hp]
  refine ⟨hnew.event i, ?_⟩
  intro hmem
  obtain ⟨r, hr, hkey⟩ := List.mem_map.mp hmem
  rcases List.mem_append.mp hr with hr | hr
  · have hnone := hws r hr
    cases r <;> simp [Row.key, Row.asEvent] at hkey hnone
  · obtain ⟨x, hx, rfl⟩ := List.mem_map.mp hr
    obtain ⟨k, hk, hid⟩ := hrows x hx
    simp only [Row.key, Loc.event.injEq, hid] at hkey
    exact absurd (hinj hkey) (by omega)

/-- The events of an `emit` that nothing stands in the way of. -/
theorem enqueueAll_alone {m : Uuid} {type : EventType} {data : EventData}
    (hinj : Function.Injective ids) (hnew : Untaken ids d) :
    ∀ (es : List WebhookEndpointRow) (i : ℕ) (p : Priv) (ws : List Row)
      (rows : List WebhookEventRow), p.writes = ws ++ rows.map .event →
      (∀ r ∈ ws, r.asEvent = none) → (∀ r ∈ rows, ∃ k < i, r.id = ids k) →
      Commits ws ((webhookService.enqueueAll m type data es >>= fun _ => Body.ret b).alone engine
        now (drawing ids) d i p)
  | [], i, p, ws, rows, hp, _, _ => ⟨i + 1, p, b, rows, rfl, hp⟩
  | e :: es, i, p, ws, rows, hp, hws, hrows => by
      let row := WebhookEventRow.enqueued (ids i) m e.id type ⟨type, data⟩ now
      have hfresh := hnew.event_unwritten hinj hp hws hrows
      simp only [webhookService.enqueueAll, sql, Body.call_bind, Body.stmt_bind]
      refine Commits.stmt (Sql.eventEnqueue_run hfresh) (fun p' hp' => ?_)
      refine enqueueAll_alone hinj hnew es (i + 1) _ ws (rows ++ [row]) ?_ hws ?_
      · simp [hp', hp, row]
      · intro r hr
        rcases List.mem_append.mp hr with hr | hr
        · obtain ⟨k, hk, hid⟩ := hrows r hr
          exact ⟨k, by omega, hid⟩
        · rw [List.mem_singleton.mp hr]
          exact ⟨i, by omega, rfl⟩

theorem emit_alone {m : Uuid} {type : EventType} {data : EventData} (hinj : Function.Injective ids)
    (hnew : Untaken ids d) {i : ℕ} {p : Priv} {ws : List Row} (hp : p.writes = ws)
    (hws : ∀ r ∈ ws, r.asEvent = none) :
    Commits ws ((webhookService.emit m type data >>= fun _ => Body.ret b).alone engine now
      (drawing ids) d i p) := by
  simp only [webhookService.emit, sql, Body.call_bind, Body.stmt_bind]
  have hlist : (Sql.exec (.endpointListActiveByMerchant m) ⟨now, ids i⟩ (fun _ => false)
      (p.view d)).out = .ok (_, []) := rfl
  refine Commits.stmt hlist (fun p' hp' => ?_)
  refine enqueueAll_alone hinj hnew _ (i + 1) p' ws [] ?_ hws (fun r hr => by simp at hr)
  simp [hp', hp]

/-- A confirm for which the wallet has room. -/
theorem confirmable_of_room {x : PaymentIntentRow} {w : WalletRow} (hx : x ∈ d.intents)
    (hopen : x.status = .requiresConfirmation)
    (hw : d.wallets.find?
      (fun w => decide (w.merchantId = x.merchantId ∧ w.currency = x.currency)) = some w)
    (hroom : w.balance.val + x.amount.val < 2 ^ 63) : d.Confirmable x := by
  intro now ids id hinj hnew hid
  have hget : d.intent x.id = some x := Db.intent_eq_some.mpr (Db.mem_intents.mp hx)
  have hwallet : d.wallet w.id = some w :=
    Db.wallet_eq_some.mpr (Db.mem_wallets.mp (List.mem_of_find?_eq_some hw))
  have hpos := x.check
  have hlo := x.amount.lo
  have hhi := x.amount.hi
  have hsum : 0 ≤ w.balance.val + x.amount.val := add_nonneg w.check hpos.le
  have hparse : Bigint.parse x.amount.text = some x.amount := Bigint.parse_text _
  have hallowed : paymentService.assertTransition x.status .succeeded "confirm" = .ok () := by
    rw [hopen]
    rfl
  let c : Bigint := ⟨w.balance.val + x.amount.val, by omega, hroom⟩
  let row : PaymentIntentRow := { x with status := .succeeded }
  let ws : List Row := [.transaction ⟨ids 3, .charge⟩,
    .entry ⟨ids 4, ids 3, w.id, .credit, x.amount, x.currency, hpos⟩,
    .wallet { w with balance := c, check := hsum },
    .charge ⟨ids 6, x.id, x.merchantId, x.amount, x.currency, ids 3, hpos⟩, .intent row]
  obtain ⟨j, p, r, rows, hbody, hwrites⟩ : Commits ws ((paymentService.confirmTxn x.merchantId
      id).alone engine now (drawing ids) d 1 .begin) := by
    simp only [paymentService.confirmTxn, sql, Body.call_bind]
    refine Commits.stmt (Sql.intentFindByIdForUpdate_run hid hget) (fun p₁ h₁ => ?_)
    simp only [Priv.begin, List.nil_append] at h₁
    simp only [hallowed, Body.ofExcept, Body.ret_bind]
    have hfind : (Db.wallets (p₁.view d)).find? (fun w =>
        decide (w.merchantId = x.merchantId ∧ w.currency = x.currency)) = some w := by
      rw [Priv.view, h₁]
      exact hw
    refine Commits.stmt (Sql.walletFindByMerchantAndCurrency_run hfind) (fun p₂ h₂ => ?_)
    rw [h₁, List.nil_append] at h₂
    refine Commits.stmt (Sql.ledgerCreateTransaction_run ?_) (fun p₃ h₃ => ?_)
    · rw [Priv.view, h₂]
      exact hnew.transaction 3
    rw [h₂, List.nil_append] at h₃
    refine Commits.stmt (Sql.ledgerAddEntry_run hparse hpos ?_) (fun p₄ h₄ => ?_)
    · rw [Priv.view, Table.get_install_of_notMem (by simp [h₃, Row.key])]
      exact hnew.entry 4
    rw [h₃] at h₄
    refine Commits.stmt (Sql.walletApplyDelta_run (c := c) ?_ ⟨hlo, hhi⟩ rfl hsum)
      (fun p₅ h₅ => ?_)
    · rw [Db.wallet_eq_some, Priv.view, Table.get_install_of_notMem (by simp [h₄, Row.key])]
      exact Db.wallet_eq_some.mp hwallet
    rw [h₄] at h₅
    refine Commits.stmt (Sql.chargeInsert_run hparse hpos ?_) (fun p₆ h₆ => ?_)
    · rw [Priv.view, Table.get_install_of_notMem (by simp [h₅, Row.key])]
      exact hnew.charge 6
    rw [h₅] at h₆
    refine Commits.stmt (Sql.intentUpdateStatus_run ?_) (fun p₇ h₇ => ?_)
    · rw [Db.intent_eq_some, Priv.view, Table.get_install_of_notMem (by simp [h₆, Row.key])]
      exact Db.intent_eq_some.mp hget
    rw [h₆] at h₇
    have hwritten : p₇.writes = ws := h₇
    exact emit_alone hinj hnew hwritten (by simp [ws, Row.asEvent])
  refine ⟨j, _, p.events, r, Client.alone_transaction (drawing_ok ids 0) hbody, ?_⟩
  rw [hwrites, Table.install_append, Db.intent_eq_some, Table.get_install_of_notMem (by simp)]
  exact Table.get_install_of_mem (show (ws.map Row.key).Nodup by simp [ws])
    (show Row.intent row ∈ ws by simp [ws])

/-- A reversal for which the wallet has room. -/
theorem reversible_of_room {p : PayoutRow} {w : WalletRow} (hp : p ∈ d.payouts)
    (hw : d.wallet p.walletId = some w) (hroom : w.balance.val + p.amount.val < 2 ^ 63) :
    d.Reversible p := by
  intro now ids err hinj hnew hlast
  have hget : d.payout p.id = some p := Db.payout_eq_some.mpr (Db.mem_payouts.mp hp)
  have hid : w.id = p.walletId := Db.id_of_wallet hw
  have hpos := p.check
  have hlo := p.amount.lo
  have hhi := p.amount.hi
  have hsum : 0 ≤ w.balance.val + p.amount.val := add_nonneg w.check hpos.le
  have hparse : Bigint.parse (intText p.amount.val) = some p.amount := Bigint.parse_text _
  rw [← hid] at hw
  let c : Bigint := ⟨w.balance.val + p.amount.val, by omega, hroom⟩
  let row : PayoutRow := { p with
    status := .failed, attempts := p.attempts + 1, failureReason := some err.message,
    reversalTransactionId := some (ids 2) }
  let ws : List Row := [.transaction ⟨ids 2, .payoutReversal⟩,
    .entry ⟨ids 3, ids 2, w.id, .credit, p.amount, p.currency, hpos⟩,
    .wallet { w with balance := c, check := hsum }, .payout row]
  obtain ⟨j, q, u, rows, hbody, hwrites⟩ : Commits ws ((payoutService.reversalTxn p
      (p.attempts + 1) err.message).alone engine now (drawing ids) d 1 .begin) := by
    simp only [payoutService.reversalTxn, sql, Body.call_bind]
    rw [← hid]
    refine Commits.stmt (Sql.walletFindByIdForUpdate_run hw) (fun p₁ h₁ => ?_)
    simp only [Priv.begin, List.nil_append] at h₁
    refine Commits.stmt (Sql.ledgerCreateTransaction_run ?_) (fun p₂ h₂ => ?_)
    · rw [Priv.view, h₁]
      exact hnew.transaction 2
    rw [h₁, List.nil_append] at h₂
    refine Commits.stmt (Sql.ledgerAddEntry_run hparse hpos ?_) (fun p₃ h₃ => ?_)
    · rw [Priv.view, Table.get_install_of_notMem (by simp [h₂, Row.key])]
      exact hnew.entry 3
    rw [h₂] at h₃
    refine Commits.stmt (Sql.walletApplyDelta_run (c := c) ?_ ⟨hlo, hhi⟩ rfl hsum)
      (fun p₄ h₄ => ?_)
    · rw [Db.wallet_eq_some, Priv.view, Table.get_install_of_notMem (by simp [h₃, Row.key])]
      exact Db.wallet_eq_some.mp hw
    rw [h₃] at h₄
    refine Commits.stmt (Sql.payoutMarkFailed_run ?_) (fun p₅ h₅ => ?_)
    · rw [Db.payout_eq_some, Priv.view, Table.get_install_of_notMem (by simp [h₄, Row.key])]
      exact Db.payout_eq_some.mp hget
    rw [h₄] at h₅
    have hwritten : p₅.writes = ws := h₅
    rw [← Body.bind_ret (webhookService.emit _ _ _)]
    exact emit_alone (b := ()) hinj hnew hwritten (by simp [ws, Row.asEvent])
  refine ⟨j, d.install q.writes, q.events, ?_, row, ?_, rfl⟩
  · rw [payoutService.retryOrReverse, if_neg (by omega)]
    exact Client.alone_transaction (drawing_ok ids 0) hbody
  rw [hwrites, Table.install_append, Db.payout_eq_some, Table.get_install_of_notMem (by simp)]
  exact Table.get_install_of_mem (show (ws.map Row.key).Nodup by simp [ws])
    (show Row.payout row ∈ ws by simp [ws])

end Alone

/-! ## Runs -/

section Runs

variable {min bound : ℤ} {ls : List Step} {s : Sys} {ok : Sys → Step → Sys → Prop}

theorem requested_append (c : Currency) (ls ls' : List Step) :
    requested c (ls ++ ls') = requested c ls + requested c ls' := by
  simp [requested, jobs]

theorem requests_le {c : Currency} {j : Job} (hj : j ∈ jobs ls) : j.requests c ≤ requested c ls :=
  List.single_le_sum (fun _ _ => Nat.zero_le _) _ (List.mem_map_of_mem hj)

/-- One summand of a sum of which none is negative. -/
theorem le_sum_of_nonneg {α : Type} {f : α → ℤ} {xs : List α} (h : ∀ x ∈ xs, 0 ≤ f x) :
    (∀ x ∈ xs, f x ≤ (xs.map f).sum) ∧ 0 ≤ (xs.map f).sum := by
  have hall : ∀ y ∈ xs.map f, 0 ≤ y := by
    intro y hy
    obtain ⟨x, hx, rfl⟩ := List.mem_map.mp hy
    exact h x hx
  exact ⟨fun x hx => List.single_le_sum hall _ (List.mem_map_of_mem hx), List.sum_nonneg hall⟩

/-- What is on a wallet, in a pending payout or on an open intent has been asked for. -/
theorem within_requested (h : RunBy min (fun _ _ s' => LeasesHold s'.abs) ls s)
    (hrequested : ∀ c, (requested c ls : ℤ) ≤ bound) : Db.Within bound s.db := by
  have hmoney := money_requested h
  have hbalances : ∀ c, (∀ w ∈ Db.wallets s.db, _ ≤ Db.balances s.db c) ∧ 0 ≤ Db.balances s.db c :=
    fun c => le_sum_of_nonneg (f := fun w : WalletRow =>
        if w.currency = c then w.balance.val else 0)
      (fun w _ => by have hcheck := w.check; split <;> omega)
  have hpaid : ∀ c, (∀ p ∈ Db.payouts s.db, _ ≤ Db.paidOut s.db c) ∧ 0 ≤ Db.paidOut s.db c :=
    fun c => le_sum_of_nonneg (f := fun p : PayoutRow =>
        if p.currency = c ∧ p.status ≠ .failed then p.amount.val else 0)
      (fun p _ => by have hcheck := p.check; split <;> omega)
  have hawaiting : ∀ c, (∀ x ∈ Db.intents s.db, _ ≤ Db.awaiting s.db c) ∧
      0 ≤ Db.awaiting s.db c :=
    fun c => le_sum_of_nonneg (f := fun x : PaymentIntentRow =>
        if x.currency = c ∧ x.status = .requiresConfirmation then x.amount.val else 0)
      (fun x _ => by have hcheck := x.check; split <;> omega)
  refine ⟨?_, ?_, ?_⟩
  · intro w hw
    have hle := (hbalances w.currency).1 w hw
    have htotal := hmoney w.currency
    have hreq := hrequested w.currency
    have h₁ := (hpaid w.currency).2
    have h₂ := (hawaiting w.currency).2
    simp only [if_true] at hle
    omega
  · intro x hx hopen
    have hle := (hawaiting x.currency).1 x hx
    have htotal := hmoney x.currency
    have hreq := hrequested x.currency
    have h₁ := (hpaid x.currency).2
    have h₂ := (hbalances x.currency).2
    simp only [hopen, and_self, if_true] at hle
    omega
  · intro p hp hpending
    have hle := (hpaid p.currency).1 p hp
    have htotal := hmoney p.currency
    have hreq := hrequested p.currency
    have h₁ := (hawaiting p.currency).2
    have h₂ := (hbalances p.currency).2
    simp only [hpending, ne_eq, reduceCtorEq, not_false_eq_true, and_self, if_true] at hle
    omega

theorem run_within (h : RunBy min (fun _ _ s' => LeasesHold s'.abs) ls s)
    (hrequested : ∀ c, (requested c ls : ℤ) ≤ bound) :
    RunBy min (fun s _ _ => Db.Within bound s.db) ls s := by
  induction h with
  | init => exact .init
  | @step ls s s' l hrun hstep _ ih =>
    have hbefore : ∀ c, (requested c ls : ℤ) ≤ bound := by
      intro c
      have hall := hrequested c
      rw [requested_append] at hall
      omega
    exact (ih hbefore).step hstep (within_requested hrun hbefore)

def Stmt.InsertsFor (m : Uuid) (c : Currency) : Stmt → Prop
  | .intentInsert m' _ c' _ => m' = m ∧ c' = c
  | _ => False

/-- No wallet of the merchant in the currency. -/
def Db.Walletless (m : Uuid) (c : Currency) (d : Db) : Prop :=
  ∀ w ∈ d.wallets, ¬ (w.merchantId = m ∧ w.currency = c)

theorem Db.Walletless.earlier {m : Uuid} {c : Currency} {d d' : Db} (h : Db.Walletless m c d')
    (hd : d.Later d') : Db.Walletless m c d := by
  rintro w hw ⟨hm, hc⟩
  obtain ⟨w', hget, hm', hc', -⟩ :=
    (Db.HasWallet.of_get (Db.wallet_eq_some.mpr (Db.mem_wallets.mp hw))).later hd
  have hid : w'.id = w.id := Db.id_of_wallet hget
  rw [← hid] at hget
  exact h w' (Db.mem_wallets.mpr (Db.wallet_eq_some.mp hget)) ⟨hm'.trans hm, hc'.trans hc⟩

/-- A request for an intent stops where it finds no wallet. -/
theorem create_under (m : Uuid) (dto : CreatePaymentIntentDto) :
    (program min (.createIntent m dto)).Under engine (Db.Walletless m dto.currency)
      (fun _ q => ¬ Stmt.InsertsFor m dto.currency q) (fun _ => True) := by
  have hfind : Client.Under engine (Db.Walletless m dto.currency)
      (fun _ q => ¬ Stmt.InsertsFor m dto.currency q) (fun r : Option WalletRow => r = none)
      (query (.walletFindByMerchantAndCurrency m dto.currency)) := by
    refine ⟨fun _ _ => False.elim, fun _ => trivial, ?_⟩
    intro env busy d r ws hd hout
    cases r with
    | none => rfl
    | some w =>
      have hexec : (Sql.exec (.walletFindByMerchantAndCurrency m dto.currency) env busy d).out =
        .ok (some w, ws) := hout
      obtain ⟨hfound, -⟩ := Sql.walletFindByMerchantAndCurrency_ok hexec
      obtain ⟨hget, hm, hc⟩ := hfound w rfl
      exact absurd ⟨hm, hc⟩ (hd w (Db.mem_wallets.mpr (Db.wallet_eq_some.mp hget)))
  refine Client.Under.map (Client.Under.bind ?_ hfind)
  rintro found rfl
  trivial

/-- An intent after a commit: an old one, or the one it inserts. -/
theorem Commit.intent_origin {log : List Ev} {now : ℕ} {d : Db} {it : Item} {ws : List Row}
    (h : Commit min log now d it ws) {x : PaymentIntentRow}
    (hx : x ∈ Db.intents (Table.install d ws)) :
    (∃ x₀ ∈ d.intents, x₀.merchantId = x.merchantId ∧ x₀.currency = x.currency) ∨
      ∃ amount ref, it = .auto (.intentInsert x.merchantId amount x.currency ref) x := by
  have hrow := Table.mem_of_get (Db.mem_intents.mp hx)
  rcases Table.mem_of_mem_install hrow with hmem | hmem
  · have hold : ∀ {x₀ : PaymentIntentRow}, d.intent x₀.id = some x₀ → x₀ ∈ d.intents :=
      fun hget => Db.mem_intents.mpr (Db.intent_eq_some.mp hget)
    cases h with
    | intentInsert row shape parsed fresh =>
      obtain rfl : x = row := by simpa using hmem
      obtain ⟨rfl, rfl, -, -⟩ := shape
      exact Or.inr ⟨_, _, rfl⟩
    | confirm c =>
      obtain rfl : x = c.newIntent := by simpa [ConfirmCommit.writes, Outbox.writes] using hmem
      exact Or.inl ⟨c.intent, hold c.intentGet, rfl, rfl⟩
    | cancel c =>
      obtain rfl : x = c.newIntent := by simpa [CancelCommit.writes] using hmem
      exact Or.inl ⟨c.intent, hold c.intentGet, rfl, rfl⟩
    | claimDue limit m rows idle nodup claimed =>
      obtain ⟨p, -, hp⟩ := List.mem_map.mp hmem
      simp at hp
    | keyed s r ws hkey => obtain rfl | ⟨slot, rfl⟩ := hkey.writes <;> simp at hmem
    | _ => simp [TransferCommit.writes, SweepCommit.writes, PaidCommit.writes,
        ReversalCommit.writes, Outbox.writes] at hmem
  · exact Or.inl ⟨x, Db.mem_intents.mpr (Table.get_of_mem hmem), rfl, rfl⟩

/-- As long as nobody has a wallet, nobody had one before. -/
theorem run_walletless {m : Uuid} {c : Currency} (h : RunBy min ok ls s)
    (hnone : Db.Walletless m c s.db) :
    RunBy min (fun s _ _ => Db.Walletless m c s.db) ls s := by
  induction h with
  | init => exact .init
  | step hrun hstep _ ih =>
    have hbefore := hnone.earlier (step_later hrun.reach hstep)
    exact (ih hbefore).step hstep hbefore

/-- The wallet of an intent is there. -/
theorem wallet_of_intent (h : RunBy min ok ls s) :
    ∀ x ∈ Db.intents s.db, ¬ Db.Walletless x.merchantId x.currency s.db := by
  induction h with
  | init =>
    intro x hx
    simp [Db.intents, TxStore.Sys.init, Table.empty] at hx
  | @step ls s s' l hrun hstep hok ih =>
    intro x hx hnone
    have hbefore := hnone.earlier (step_later hrun.reach hstep)
    have hstep' : s.step engine (program min) l = some s' := hstep
    rcases Sys.step_history hstep' with ⟨-, hdb⟩ | ⟨i, u, n, n', it, ws, rfl, hn, -, hlast⟩
    · rw [hdb] at hx
      exact ih x hx hbefore
    obtain ⟨log, ws, -, hcommit, hdb⟩ := step_commits hrun.reach hstep hlast
    rw [hdb] at hx
    rcases hcommit.intent_origin hx with ⟨x₀, hx₀, hm, hc⟩ | ⟨amount, ref, rfl⟩
    · rw [← hm, ← hc] at hbefore
      exact ih x₀ hx₀ hbefore
    -- the request that inserts it has found no wallet
    have hmem : (i, .auto (.intentInsert x.merchantId amount x.currency ref) x) ∈
        s'.abs.history := by
      show _ ∈ s'.history
      simp [hlast]
    have hreach : JReach min (fun _ _ => True) (jobs (ls ++ [.run i u])) s'.abs :=
      run_refines (fun _ _ _ _ _ _ _ => trivial) (hrun.step hstep hok)
    obtain ⟨j, log', hj, hmay⟩ := JReach.may_of_mem hreach hmem
    obtain ⟨dto, rfl, -, hcurrency⟩ := hmay.inserts rfl
    simp only [jobs_append, Label.started, List.append_nil] at hj
    obtain ⟨u', n', k, ws', -, hn', hproc, -⟩ := Sys.step_auto hstep' hlast
    have hunder := Run.under (run_walletless hrun hbefore) (fun _ _ _ hd => hd) hj hn'
      (hcurrency ▸ create_under x.merchantId dto)
    have hupcoming : TxStore.Node.upcoming n' s.db =
        some (s.db, .intentInsert x.merchantId amount x.currency ref) := by
      rw [TxStore.Node.upcoming, hproc]
    exact hunder.ok hbefore hupcoming ⟨rfl, rfl⟩

/-- Below `2 ^ 62` nothing leaves the range. -/
theorem inRange_of_requested (hbound : bound < 2 ^ 62)
    (h : RunBy min (fun _ _ s' => LeasesHold s'.abs) ls s)
    (hrequested : ∀ c, (requested c ls : ℤ) ≤ bound) : s.InRange := by
  have hwithin := within_requested h hrequested
  refine ⟨?_, ?_, ?_⟩
  · intro n hn v q hnext
    obtain ⟨i, hi, rfl⟩ := List.getElem_of_mem hn
    obtain ⟨j, hj⟩ : ∃ j, (jobs ls)[i]? = some j := by
      have hlen := Run.length_jobs h
      exact ⟨_, List.getElem?_eq_getElem (hlen ▸ hi)⟩
    have hprog : ProgUnder bound (program min j) := by
      refine program_under hbound j ?_
      rintro m dto rfl
      have hle := requests_le (c := dto.currency) (List.mem_of_getElem? hj)
      rw [Job.requests, if_pos rfl] at hle
      exact (Int.ofNat_le.mpr hle).trans (hrequested dto.currency)
    have hunder := Run.under (run_within h hrequested) (fun _ _ _ hd => hd) hj
      (List.getElem?_eq_getElem hi) hprog
    exact hunder.ok hwithin hnext
  · intro x hx hopen
    have hwallet := wallet_of_intent h x hx
    cases hfind : (Db.wallets s.db).find?
        (fun w => decide (w.merchantId = x.merchantId ∧ w.currency = x.currency)) with
    | none =>
      refine absurd ?_ hwallet
      intro w hw hboth
      have hfalse := List.find?_eq_none.mp hfind w hw
      simp only [decide_eq_true_eq] at hfalse
      exact hfalse hboth
    | some w =>
      have hw := hwithin.wallet w (List.mem_of_find?_eq_some hfind)
      have hamount := hwithin.intent x hx hopen
      exact confirmable_of_room hx hopen hfind (by omega)
  · intro p hp hpending
    have hposted : Db.WellPosted s.abs.db :=
      wellPosted (reach_refines (fun _ _ _ _ => trivial) h.reach : AReach min (fun _ => True) s.abs)
    obtain ⟨w, hget, -, -⟩ := hposted.sources p hp
    have hid := Db.id_of_wallet hget
    have hw := hwithin.wallet w (Db.mem_wallets.mpr (Db.wallet_eq_some.mp (hid.symm ▸ hget)))
    have hamount := hwithin.payout p hp hpending
    exact reversible_of_room hp hget (by omega)

end Runs

/-! ## From the bound on -/

def large : IntDouble := ⟨4611686018427386880, by decide, by decide +kernel, by decide +kernel⟩

def remainder : IntDouble := ⟨904, by decide, by decide +kernel, by decide +kernel⟩

def half : IntDouble := ⟨2 ^ 62, by decide, by decide +kernel, by decide +kernel⟩

def transferHalf : CreateTransferDto :=
  ⟨smallId '1', smallId '2', half, smallId_one, smallId_two, smallId_one_ne_two⟩

def twoTransfers : List Step :=
  .start (.createWallet 1 .NGN) :: drive 0 1 1 ++
    .start (.createWallet 2 .NGN) :: drive 1 1 2 ++
    .start (.createIntent 1 ⟨large, .NGN, none, noReference⟩) :: drive 2 2 2 ++
    .start (.createIntent 1 ⟨remainder, .NGN, none, noReference⟩) :: drive 3 2 3 ++
    .start (.confirm 1 (smallId '3')) :: drive 4 10 10 ++
    .start (.confirm 1 (smallId '4')) :: drive 5 10 30 ++
    -- the second transfer moves what the first has seen on the source
    .start (.transfer 1 transferHalf) :: drive 6 2 50 ++
    .start (.transfer 1 transferHalf) :: drive 7 9 60 ++ drive 6 5 80

def WalletRow.overflows (w : WalletRow) (delta : Text) : Bool :=
  (Bigint.parse delta).all (fun b => (w.balance.add? b).isNone)

theorem WalletRow.overflows_iff {w : WalletRow} {delta : Text} :
    w.overflows delta = true ↔ w.Overflows delta := by
  simp [overflows, Overflows, Option.all_eq_true]

/-- The update of a wallet, or the request for an intent, that a process is about to issue is
out of range. -/
def Sys.overflowing (s : Sys) : Bool :=
  s.nodes.any (fun n => (TxStore.Node.upcoming n s.db).any (fun
    | (_, .intentInsert _ amount _ _) => (Bigint.parse amount).isNone
    | (v, .walletApplyDeltaIfVersion id delta k) =>
      (Db.wallet v id).any (fun w => decide (w.version = k) && w.overflows delta)
    | _ => false))

theorem Sys.overflowing_not_inRange {s : Sys} (h : s.overflowing = true) : ¬ s.InRange := by
  intro hrange
  obtain ⟨n, hn, hnext⟩ := List.any_eq_true.mp h
  obtain ⟨⟨v, q⟩, hvq, hout⟩ := (Option.any_eq_true _ _).mp hnext
  refine hrange.statements n hn v q hvq ?_
  cases q with
  | intentInsert m amount c ref => exact Option.isNone_iff_eq_none.mp hout
  | walletApplyDeltaIfVersion id delta k =>
    obtain ⟨w, hw, hboth⟩ := (Option.any_eq_true _ _).mp hout
    simp only [Bool.and_eq_true, decide_eq_true_eq] at hboth
    exact ⟨w, hw, hboth.1, WalletRow.overflows_iff.mp hboth.2⟩
  | _ => cases hout

/-- The jobs that look at `MIN_PAYOUT_AMOUNT`. -/
def Job.sweeps : Job → Bool
  | .sweep _ => true
  | .runNow _ => true
  | .tick => true
  | _ => false

theorem program_of_not_sweeps {min min' : ℤ} {j : Job} (h : j.sweeps = false) :
    program min j = program min' j := by
  cases j with
  | sweep | runNow | tick => cases h
  | _ => rfl

/-- Requests for `2 ^ 62` can bring `2 ^ 63` about: the first transfer has read the source
before the second empties it. -/
theorem exists_overflow (min : ℤ) : ∃ (ls : List Step) (s : Sys),
    RunBy min (fun _ _ s' => LeasesHold s'.abs) ls s ∧ (∀ c, requested c ls ≤ 2 ^ 62) ∧
      ¬ s.InRange := by
  have hrun : (runWhile 10 (fun _ _ s' => decide (LeasesHold s'.abs)) twoTransfers).any
      Sys.overflowing = true := by decide +kernel
  obtain ⟨s, hs, hover⟩ := exists_runWhile hrun
  have hleases : RunBy 10 (fun _ _ s' => LeasesHold s'.abs) twoTransfers s :=
    hs.imp (fun _ _ _ htest => of_decide_eq_true htest)
  have hnone : (jobs twoTransfers).all (fun j => !j.sweeps) = true := by decide +kernel
  have hsame : ∀ j ∈ jobs twoTransfers, program 10 j = program min j := by
    intro j hj
    have hnot := List.all_eq_true.mp hnone j hj
    exact program_of_not_sweeps (by simpa using hnot)
  refine ⟨twoTransfers, s, hleases.congr hsame, ?_, Sys.overflowing_not_inRange hover⟩
  intro c
  cases c <;> decide +kernel

/-- The amounts stay in range, and every open intent and pending payout can be settled,
exactly when the requests of no currency may come to `2 ^ 62`. -/
theorem amounts_in_range_iff {min : ℤ} {bound : ℕ} :
    (∀ (ls : List Step) (s : Sys), RunBy min (fun _ _ s' => LeasesHold s'.abs) ls s →
      (∀ c, requested c ls ≤ bound) → s.InRange) ↔ bound < 2 ^ 62 := by
  constructor
  · intro h
    by_contra hlarge
    obtain ⟨ls, s, hrun, hrequested, hout⟩ := exists_overflow min
    exact hout (h ls s hrun (fun c => (hrequested c).trans (Nat.le_of_not_lt hlarge)))
  · intro hbound ls s hrun hrequested
    have hsmall : (bound : ℤ) < 2 ^ 62 := by omega
    exact inRange_of_requested hsmall hrun (fun c => Int.ofNat_le.mpr (hrequested c))

/-- An amount that the schema accepts and the database does not. -/
def tooLarge : IntDouble := ⟨2 ^ 63, by decide, by decide +kernel, by decide +kernel⟩

theorem amount_out_of_range : ¬ ∀ s : Sys, Reachable 10 s → s.InRange := by
  intro h
  have hrun : (runFrom 10 (.start (.createWallet 1 .NGN) :: drive 0 1 1 ++
      .start (.createIntent 1 ⟨tooLarge, .NGN, none, noReference⟩) :: drive 1 1 2)).any
      Sys.overflowing = true := by decide +kernel
  obtain ⟨s, hs, hover⟩ := exists_of_run hrun
  exact Sys.overflowing_not_inRange hover (h s hs)

end PaymentApis
