import PaymentApis.Ranges

/-!
# A batch of payouts

`processDuePayouts` takes the payouts it has claimed one after the other, and the
error of one is thrown out of the loop. `processEach` is the batch as it would be
if each payout were processed in a batch of its own. `escapes_iff` says which
statements throw such an error.
-/

namespace PaymentApis

open TxStore payoutService

abbrev AloneRun (α : Type) := TxStore.Ended Row Loc Row.key Stmt Resp Fault Err BankTransfer α

/-- The payouts, each in a batch of its own, and whatever each of these throws. -/
def processEach (now : ℕ) (fate : ℕ → Except Fault ℕ) : List PayoutRow → ℕ → Db → AloneRun Unit
  | [], i, db => ⟨i, db, [], .ok ()⟩
  | payout :: rest, i, db =>
    let own := (processAll [payout]).alone engine now fate i db
    (processEach now fate rest own.next own.db).after own.log

/-- The processing of a payout fails outside its `try` block: the SELECT of its
account fails, or the `catch` block does, which is the UPDATE of `markRetry` or the
transaction of the reversal. -/
def Escapes (now : ℕ) (fate : ℕ → Except Fault ℕ) (payout : PayoutRow) (i : ℕ) (db : Db) : Prop :=
  let looked := (query (.accountFindById payout.payoutAccountId)).alone engine now fate i db
  (∃ e, looked.result = .error e) ∨
    ∃ account err, looked.result = .ok account ∧
      let sent := (sendToBank payout account).alone engine now fate looked.next looked.db
      sent.result = .error err ∧
        ∃ e, ((retryOrReverse payout err).alone engine now fate sent.next sent.db).result = .error e

section Batch

variable {now : ℕ} {fate : ℕ → Except Fault ℕ} {payout : PayoutRow} {due : List PayoutRow}
  {i : ℕ} {db : Db}

theorem processOne_throws : (∃ e, ((processOne payout).alone engine now fate i db).result =
    .error e) ↔ Escapes now fate payout i db := by
  simp only [processOne, Client.alone_bind, Client.alone_tryCatch, TxStore.Ended.bind_error,
    TxStore.Ended.tryCatch_error, Escapes, exists_or]
  refine or_congr Iff.rfl ⟨?_, ?_⟩
  · rintro ⟨e, account, hlooked, err, hsent, hthrown⟩
    exact ⟨account, err, hlooked, hsent, e, hthrown⟩
  · rintro ⟨account, err, hlooked, hsent, e, hthrown⟩
    exact ⟨e, account, hlooked, err, hsent, hthrown⟩

/-! What fails there, by statements. -/

/-- None of these steps is made to fail. -/
def AllSucceed (fate : ℕ → Except Fault ℕ) (i n : ℕ) : Prop := ∀ k < n, ∃ u, fate (i + k) = .ok u

theorem allSucceed_succ {n : ℕ} :
    AllSucceed fate i (n + 1) ↔ (∃ u, fate i = .ok u) ∧ AllSucceed fate (i + 1) n := by
  constructor
  · intro h
    refine ⟨h 0 (Nat.succ_pos n), fun k hk => ?_⟩
    rw [Nat.add_right_comm, Nat.add_assoc]
    exact h (k + 1) (Nat.succ_lt_succ hk)
  · rintro ⟨hfirst, hrest⟩ k hk
    cases k with
    | zero => exact hfirst
    | succ k =>
      rw [← Nat.add_assoc, Nat.add_right_comm]
      exact hrest k (Nat.lt_of_succ_lt_succ hk)

section Statements

variable {ids : ℕ → ℕ} {β : Type} {b : β}

/-- One statement that fails only when it is made to. -/
theorem commits_step {q : Stmt} {k : Resp q → Tx β} {p : Priv} {r : Resp q} {ws : List Row} {n : ℕ}
    {C : Prop} (hids : ∀ k u, fate k = .ok u → u = ids k)
    (hout : (Sql.exec q ⟨now, ids i⟩ (fun _ => false) (p.view db)).out = .ok (r, ws))
    (hrest : ∀ p' : Priv, p'.writes = p.writes ++ ws →
      ((k r).Commits engine now fate db (i + 1) p' ↔ AllSucceed fate (i + 1) n ∧ C)) :
    (Body.stmt q k).Commits engine now fate db i p ↔ AllSucceed fate i (n + 1) ∧ C := by
  have hexec : ∀ u, fate i = .ok u →
      (engine.exec q ⟨now, u⟩ (fun _ => false) (p.view db)).out = .ok (r, ws) := by
    intro u hu
    obtain rfl := hids i u hu
    exact hout
  rw [Body.commits_stmt hexec, hrest _ rfl, allSucceed_succ, and_assoc]

/-- Each event that an `emit` writes is a step, and so is the COMMIT. -/
theorem enqueueAll_commits (hids : ∀ k u, fate k = .ok u → u = ids k)
    (hinj : Function.Injective ids) (hnew : Untaken ids db) {m : Uuid} {type : EventType}
    {data : EventData} {C : Prop} (hc : C) :
    ∀ (es : List WebhookEndpointRow) (i : ℕ) (p : Priv) (ws : List Row)
      (rows : List WebhookEventRow), p.writes = ws ++ rows.map .event →
      (∀ r ∈ ws, r.asEvent = none) → (∀ r ∈ rows, ∃ k < i, r.id = ids k) →
      ((webhookService.enqueueAll m type data es >>= fun _ => Body.ret b).Commits engine now fate
        db i p ↔ AllSucceed fate i (es.length + 1) ∧ C)
  | [], i, p, ws, rows, _, _, _ => by
      show (Body.ret b : Tx β).Commits engine now fate db i p ↔ _
      rw [Body.commits_ret, List.length_nil, allSucceed_succ]
      simp [AllSucceed, hc]
  | e :: es, i, p, ws, rows, hp, hws, hrows => by
      let row := WebhookEventRow.enqueued (ids i) m e.id type ⟨type, data⟩ now
      have hfresh := hnew.event_unwritten hinj hp hws hrows
      simp only [webhookService.enqueueAll, sql, Body.call_bind, Body.stmt_bind]
      refine commits_step hids (Sql.eventEnqueue_run hfresh) (fun p' hp' => ?_)
      refine enqueueAll_commits hids hinj hnew hc es (i + 1) p' ws (rows ++ [row]) ?_ hws ?_
      · simp [hp', hp, row]
      · intro r hr
        rcases List.mem_append.mp hr with hr | hr
        · obtain ⟨k, hk, hid⟩ := hrows r hr
          exact ⟨k, by omega, hid⟩
        · rw [List.mem_singleton.mp hr]
          exact ⟨i, by omega, rfl⟩

/-- The statements of a reversal, with its BEGIN and its COMMIT. -/
def reversalSteps (db : Db) (payout : PayoutRow) : ℕ :=
  8 + (db.activeEndpoints payout.merchantId).length

/-- The reversal fails just when one of its steps is made to fail, or the credit does not
fit on the wallet. -/
theorem reversal_fails_iff (hids : ∀ k u, fate k = .ok u → u = ids k)
    (hinj : Function.Injective ids) (hnew : Untaken ids db) {w : WalletRow} {r : PayoutRow}
    (hw : db.wallet payout.walletId = some w) (hr : db.payout payout.id = some r)
    {attempts : ℕ} {message : String} :
    (∃ e, ((Client.transaction (.reversal payout) (reversalTxn payout attempts message) :
      Prog Unit).alone engine now fate i db).result = .error e) ↔
    ¬ (AllSucceed fate i (reversalSteps db payout) ∧
      w.balance.val + payout.amount.val < 2 ^ 63) := by
  have hid : w.id = payout.walletId := Db.id_of_wallet hw
  have hrid : r.id = payout.id := Db.id_of_payout hr
  have hpos := payout.check
  have hlo := payout.amount.lo
  have hhi := payout.amount.hi
  have hbalance := w.check
  have hparse : Bigint.parse (intText payout.amount.val) = some payout.amount :=
    Bigint.parse_text _
  rw [← hid] at hw
  rw [← hrid] at hr
  have hsteps : reversalSteps db payout =
      (db.activeEndpoints payout.merchantId).length + 1 + 1 + 1 + 1 + 1 + 1 + 1 + 1 := by
    rw [reversalSteps]
    omega
  rw [Client.transaction_error, not_iff_not, hsteps, allSucceed_succ, and_assoc]
  refine and_congr Iff.rfl ?_
  simp only [reversalTxn, sql, Body.call_bind]
  rw [← hid, ← hrid]
  refine commits_step hids (Sql.walletFindByIdForUpdate_run hw) (fun p₁ h₁ => ?_)
  simp only [Priv.begin, List.nil_append] at h₁
  refine commits_step hids (Sql.ledgerCreateTransaction_run ?_) (fun p₂ h₂ => ?_)
  · rw [Priv.view, h₁]
    exact hnew.transaction _
  rw [h₁, List.nil_append] at h₂
  refine commits_step hids (Sql.ledgerAddEntry_run hparse hpos ?_) (fun p₃ h₃ => ?_)
  · rw [Priv.view, Table.get_install_of_notMem (by simp [h₂, Row.key])]
    exact hnew.entry _
  rw [h₂] at h₃
  have hview : Db.wallet (p₃.view db) w.id = some w := by
    rw [Db.wallet_eq_some, Priv.view, Table.get_install_of_notMem (by simp [h₃, Row.key])]
    exact Db.wallet_eq_some.mp hw
  by_cases hroom : w.balance.val + payout.amount.val < 2 ^ 63
  · let c : Bigint := ⟨w.balance.val + payout.amount.val, by omega, hroom⟩
    have hc : 0 ≤ c.val := add_nonneg hbalance hpos.le
    refine commits_step hids (Sql.walletApplyDelta_run (c := c) hview ⟨hlo, hhi⟩ rfl hc)
      (fun p₄ h₄ => ?_)
    rw [h₃] at h₄
    refine commits_step hids (Sql.payoutMarkFailed_run ?_) (fun p₅ h₅ => ?_)
    · rw [Db.payout_eq_some, Priv.view, Table.get_install_of_notMem (by simp [h₄, Row.key])]
      exact Db.payout_eq_some.mp hr
    rw [h₄] at h₅
    rw [← Body.bind_ret (webhookService.emit _ _ _)]
    simp only [webhookService.emit, sql, Body.call_bind, Body.stmt_bind]
    have hlist : (Sql.exec (.endpointListActiveByMerchant payout.merchantId)
        ⟨now, ids (i + 1 + 1 + 1 + 1 + 1 + 1)⟩ (fun _ => false) (p₅.view db)).out =
          .ok (db.activeEndpoints payout.merchantId, []) := by
      simp only [Sql.exec, Sql.endpointListActiveByMerchant, Sql.read, Db.activeEndpoints]
      rw [view_endpoints (by simp [h₅, Row.asEndpoint])]
      simp
    refine commits_step hids hlist (fun p₆ h₆ => ?_)
    refine enqueueAll_commits (b := ()) hids hinj hnew hroom _ _ p₆ p₅.writes [] (by simp [h₆]) ?_
      (by simp)
    simp [h₅, Row.asEvent]
  · -- the credit is out of range, whatever else happens
    rw [iff_false_right (fun h => hroom h.2)]
    have hrange : Stmt.OutOfRange (p₃.view db)
        (.walletApplyDelta w.id (intText payout.amount.val)) := by
      refine ⟨w, hview, fun a ha => ?_⟩
      obtain rfl : a = payout.amount := Option.some.inj (ha.symm.trans hparse)
      rw [Option.eq_none_iff_forall_ne_some]
      intro c hc
      have hsum := Bigint.add?_eq_some.mp hc
      have hhigh := c.hi
      omega
    cases hfate : fate (i + 1 + 1 + 1 + 1) with
    | error f => exact Body.not_commits_stmt (Engine.attempt_error hfate)
    | ok u =>
      obtain ⟨f, hf, -⟩ : ∃ f, (Sql.exec _ ⟨now, u⟩ (fun _ => false) (p₃.view db)).out =
        .error f ∧ _ := hrange.fails
      exact Body.not_commits_stmt ((Engine.attempt_ok hfate).trans hf)

/-- An attempt that fails leaves the tables as they were. -/
theorem sendToBank_failed {found : Option PayoutAccountRow} {err : Err}
    (h : ((sendToBank payout found).alone engine now fate i db).result = .error err) :
    ((sendToBank payout found).alone engine now fate i db).db = db := by
  cases found with
  | none => rfl
  | some account =>
    unfold sendToBank at h ⊢
    dsimp only at h ⊢
    split at h
    · rename_i hactive
      rw [if_pos hactive]
      rw [Client.alone_bind, Client.alone_external] at h ⊢
      cases hanswer : engine.answer (⟨payout.id, account⟩ : BankTransfer) with
      | error e => rfl
      | ok _ =>
        rw [hanswer] at h
        exact Client.transaction_error_db h
    · rename_i hactive
      rw [if_neg hactive]
      rfl

/-- What is thrown out of the processing of a payout: its account cannot be read; or its
attempt fails, and then the UPDATE of `markRetry` does, or a step of the reversal, or the
credit does not fit. -/
theorem escapes_iff (hids : ∀ k u, fate k = .ok u → u = ids k)
    (hinj : Function.Injective ids) (hnew : Untaken ids db) {w : WalletRow} {r : PayoutRow}
    (hw : db.wallet payout.walletId = some w) (hr : db.payout payout.id = some r) :
    Escapes now fate payout i db ↔ (∃ f, fate i = .error f) ∨ (∃ u, fate i = .ok u) ∧
      let sent := (sendToBank payout (db.account payout.payoutAccountId)).alone engine now fate
        (i + 1) db
      (∃ err, sent.result = .error err) ∧
        if payout.attempts + 1 < payoutService.MAX_ATTEMPTS then ∃ f, fate sent.next = .error f
        else ¬ (AllSucceed fate sent.next (reversalSteps db payout) ∧
          w.balance.val + payout.amount.val < 2 ^ 63) := by
  have hcaught : ∀ (j : ℕ) (err : Err),
      (∃ e, ((retryOrReverse payout err).alone engine now fate j db).result = .error e) ↔
      if payout.attempts + 1 < payoutService.MAX_ATTEMPTS then ∃ f, fate j = .error f
      else ¬ (AllSucceed fate j (reversalSteps db payout) ∧
        w.balance.val + payout.amount.val < 2 ^ 63) := by
    intro j err
    by_cases hmore : payout.attempts + 1 < payoutService.MAX_ATTEMPTS
    · rw [if_pos hmore, retryOrReverse, if_pos hmore, query, Client.exec_error]
      cases hfate : fate j with
      | error f => simp [Engine.attempt_error hfate]
      | ok u =>
        obtain ⟨c, hc⟩ : ∃ c, engine.attempt now fate (.payoutMarkRetry payout.id
            (payout.attempts + 1) (backoffSeconds (payout.attempts + 1)) err.message) j db =
              .ok c := by
          rw [Engine.attempt_ok hfate]
          simp only [engine, Sql.exec, Sql.payoutMarkRetry, hr, Sql.update]
          exact ⟨_, rfl⟩
        simp [hc]
    · rw [if_neg hmore, retryOrReverse, if_neg hmore]
      exact reversal_fails_iff hids hinj hnew hw hr
  unfold Escapes
  dsimp only
  cases hfate : fate i with
  | error f =>
    have hlooked : ∃ e, ((query (.accountFindById payout.payoutAccountId)).alone engine now fate i
        db).result = .error e := by
      rw [query, Client.exec_error]
      exact ⟨f, Engine.attempt_error hfate⟩
    simp [hlooked]
  | ok u =>
    have hlooked : (query (.accountFindById payout.payoutAccountId)).alone engine now fate i db =
        ⟨i + 1, db, [.stmt (.accountFindById payout.payoutAccountId)
          (db.account payout.payoutAccountId)], .ok (db.account payout.payoutAccountId)⟩ := by
      have hattempt : engine.attempt now fate (.accountFindById payout.payoutAccountId) i db =
          .ok (db.account payout.payoutAccountId, []) := by
        rw [Engine.attempt_ok hfate]
        rfl
      rw [query, Client.alone_exec hattempt]
      rfl
    rw [hlooked]
    simp only [reduceCtorEq, exists_false, false_or, Except.ok.injEq]
    constructor
    · rintro ⟨account, err, rfl, hsent, hthrown⟩
      rw [sendToBank_failed hsent, hcaught] at hthrown
      exact ⟨⟨u, rfl⟩, ⟨err, hsent⟩, hthrown⟩
    · rintro ⟨-, ⟨err, hsent⟩, hthrown⟩
      refine ⟨_, err, rfl, hsent, ?_⟩
      rw [sendToBank_failed hsent, hcaught]
      exact hthrown

end Statements

/-- Processing a payout issues a statement. -/
theorem processOne_log : ((processOne payout).alone engine now fate i db).log ≠ [] := by
  show (Client.alone engine now fate (.query (.accountFindById payout.payoutAccountId) _) i
    db).log ≠ []
  rw [Client.alone]
  split <;> simp [TxStore.Ended.after]

theorem processAll_cons (rest : List PayoutRow) :
    (processAll (payout :: rest)).alone engine now fate i db =
      ((processOne payout).alone engine now fate i db).bind
        (fun _ => (processAll rest).alone engine now fate) := by
  rw [processAll, Client.alone_bind]

/-- A batch of one payout is its processing. -/
theorem processAll_one : (processAll [payout]).alone engine now fate i db =
    (processOne payout).alone engine now fate i db := by
  rw [processAll_cons]
  generalize (processOne payout).alone engine now fate i db = o
  obtain ⟨i₁, db₁, log, e | u⟩ := o
  · rfl
  · show (⟨i₁, db₁, log ++ [], .ok ()⟩ : AloneRun Unit) = _
    rw [List.append_nil]

theorem processEach_cons (rest : List PayoutRow) : processEach now fate (payout :: rest) i db =
    (processEach now fate rest ((processOne payout).alone engine now fate i db).next
      ((processOne payout).alone engine now fate i db).db).after
      ((processOne payout).alone engine now fate i db).log := by
  rw [processEach, processAll_one]

theorem processEach_log (rest : List PayoutRow) :
    (processEach now fate (payout :: rest) i db).log ≠ [] := by
  rw [processEach_cons]
  simp [TxStore.Ended.after, processOne_log]

/-- A batch does what its payouts do each by itself, unless the error of one is thrown
out of it and another is still to come. -/
theorem processAll_iff : ∀ (due : List PayoutRow) (i : ℕ) (db : Db),
    (((processAll due).alone engine now fate i db).log = (processEach now fate due i db).log ∧
      ((processAll due).alone engine now fate i db).db = (processEach now fate due i db).db) ↔
    ∀ before payout next after, due = before ++ payout :: next :: after →
      ¬ Escapes now fate payout (processEach now fate before i db).next
        (processEach now fate before i db).db
  | [], i, db => by
      refine ⟨fun _ before payout next after h => ?_, fun _ => ⟨rfl, rfl⟩⟩
      simp at h
  | payout :: rest, i, db => by
      have ih := processAll_iff rest ((processOne payout).alone engine now fate i db).next
        ((processOne payout).alone engine now fate i db).db
      rw [processAll_cons, processEach_cons]
      cases hone : ((processOne payout).alone engine now fate i db).result with
      | ok u =>
        -- the rest is processed, and by induction like its own payouts
        simp only [TxStore.Ended.bind, hone, TxStore.Ended.after, List.append_cancel_left_eq]
        rw [ih]
        constructor
        · intro h before p next after hdue
          cases before with
          | nil =>
            obtain ⟨rfl, -⟩ := List.cons.inj hdue
            intro hescapes
            obtain ⟨e, he⟩ := processOne_throws.mpr hescapes
            rw [processEach, hone] at he
            cases he
          | cons p' before =>
            obtain ⟨rfl, hrest⟩ := List.cons.inj hdue
            rw [processEach_cons]
            exact h before p next after hrest
        · intro h before p next after hdue
          have hmore := h (payout :: before) p next after (by rw [hdue]; rfl)
          rw [processEach_cons] at hmore
          exact hmore
      | error e =>
        have hescapes : Escapes now fate payout i db := processOne_throws.mp ⟨e, hone⟩
        simp only [TxStore.Ended.bind, hone, TxStore.Ended.after]
        cases rest with
        | nil =>
          refine ⟨fun _ before p next after hdue => ?_, fun _ => ⟨?_, rfl⟩⟩
          · have hlen := congrArg List.length hdue
            simp only [List.length_append, List.length_cons, List.length_nil] at hlen
            omega
          · rw [processEach, List.append_nil]
        | cons next after =>
          -- the others are not reached
          refine ⟨fun h => ?_, fun h => ?_⟩
          · exact absurd (List.append_right_eq_self.mp h.1.symm) (processEach_log after)
          · exact absurd hescapes (h [] payout next after rfl)

end Batch

/-- `processDuePayouts` does to the payouts it claims what it would do to each in a
batch of its own, exactly when none of them but the last fails outside its `try` block. -/
theorem payouts_independent_iff {now limit i : ℕ} {fate : ℕ → Except Fault ℕ}
    {m : Option Uuid} {db : Db} {due : List PayoutRow} {ws : List Row}
    (hclaim : engine.attempt now fate (.payoutClaimDue limit 60 m) i db = .ok (due, ws)) :
    (((processDuePayouts limit m).alone engine now fate i db).log =
        .stmt (.payoutClaimDue limit 60 m) due ::
          (processEach now fate due (i + 1) (db.install ws)).log ∧
      ((processDuePayouts limit m).alone engine now fate i db).db =
        (processEach now fate due (i + 1) (db.install ws)).db) ↔
    ∀ before payout next after, due = before ++ payout :: next :: after →
      ¬ Escapes now fate payout (processEach now fate before (i + 1) (db.install ws)).next
        (processEach now fate before (i + 1) (db.install ws)).db := by
  rw [← processAll_iff]
  have hrun : (processDuePayouts limit m).alone engine now fate i db =
      (((processAll due).alone engine now fate (i + 1) (db.install ws)).bind
        (fun _ i db => ⟨i, db, [], .ok due.length⟩)).after
          [.stmt (.payoutClaimDue limit 60 m) due] := by
    rw [processDuePayouts, Client.alone_bind, query, Client.alone_exec hclaim]
    simp only [TxStore.Ended.bind, Client.alone_bind]
    rfl
  rw [hrun]
  generalize (processAll due).alone engine now fate (i + 1) (db.install ws) = o
  obtain ⟨i₁, db₁, log, e | u⟩ := o
  · simp [TxStore.Ended.bind, TxStore.Ended.after]
  · simp [TxStore.Ended.bind, TxStore.Ended.after]

/-- Statements that do not fail by themselves, and new identifiers. -/
def unfailing (k : ℕ) : Except Fault ℕ := .ok (100 + k)

/-- A payout to each of two merchants. -/
def twoPayouts : List Step :=
  .start (.createWallet 1 .NGN) :: drive 0 1 1 ++
    .start (.registerAccount 1 goodAccount) :: drive 1 1 2 ++
    .start (.createIntent 1 ⟨fifty, .NGN, none, noReference⟩) :: drive 2 2 2 ++
    .start (.confirm 1 (smallId '3')) :: drive 3 10 10 ++
    .start (.createWallet 2 .NGN) :: drive 4 1 2 ++
    .start (.registerAccount 2 goodAccount) :: drive 5 1 3 ++
    .start (.createIntent 2 ⟨fifty, .NGN, none, noReference⟩) :: drive 6 2 4 ++
    .start (.confirm 2 (smallId '5')) :: drive 7 10 30 ++
    .start (.sweep none) :: drive 8 15 50

theorem payouts_independent_twoPayouts : ∃ (s : Sys) (due : List PayoutRow) (ws : List Row),
    due.length = 2 ∧ ((processDuePayouts 50 none).alone engine s.now unfailing 0 s.db).db =
      (processEach s.now unfailing due 1 (s.db.install ws)).db := by
  have hrun : (runFrom 10 twoPayouts).any (fun s : Sys =>
      (engine.attempt s.now unfailing (.payoutClaimDue 50 60 none) 0 s.db).toOption.any (fun c =>
        decide (c.1.length = 2) && c.1.head?.any (fun first =>
          ((processOne first).alone engine s.now unfailing 1 (s.db.install c.2)).result.isOk))) =
      true := by decide +kernel
  obtain ⟨s, hs, hclaimed⟩ := exists_run hrun
  obtain ⟨⟨due, ws⟩, htaken, hone⟩ := (Option.any_eq_true _ _).mp hclaimed
  have hclaim : engine.attempt s.now unfailing (.payoutClaimDue 50 60 none) 0 s.db =
      .ok (due, ws) := by
    cases hattempt : engine.attempt s.now unfailing (.payoutClaimDue 50 60 none) 0 s.db with
    | error f => rw [hattempt] at htaken; cases htaken
    | ok c => rw [hattempt] at htaken; cases htaken; rfl
  rw [Bool.and_eq_true, decide_eq_true_eq] at hone
  obtain ⟨hlen, hone⟩ := hone
  obtain ⟨first, second, rfl⟩ := List.length_eq_two.mp hlen
  refine ⟨s, _, ws, rfl, ((payouts_independent_iff hclaim).mpr ?_).2⟩
  rintro before payout next after hdue hescapes
  obtain rfl : before = [] := by
    have hparts := congrArg List.length hdue
    simp only [List.length_append, List.length_cons, List.length_nil] at hparts
    exact List.length_eq_zero_iff.mp (by omega)
  obtain ⟨rfl, -⟩ := List.cons.inj hdue
  obtain ⟨e, he⟩ := processOne_throws.mpr hescapes
  rw [processEach, Nat.zero_add] at he
  rw [List.head?_cons, Option.any_some, he] at hone
  cases hone

/-- The greatest amount below `2 ^ 63`. -/
def greatest : IntDouble := ⟨9223372036854774784, by decide, by decide +kernel, by decide +kernel⟩

/-- A refused payout of the greatest amount is due for its last attempt, with as much
on its wallet again; after it, a payout to another merchant is due. -/
def poisonedBatch : List Step :=
  .start (.createWallet 1 .NGN) :: drive 0 1 1 ++
    .start (.registerAccount 1 badAccount) :: drive 1 1 2 ++
    .start (.createIntent 1 ⟨greatest, .NGN, none, noReference⟩) :: drive 2 2 2 ++
    .start (.confirm 1 (smallId '3')) :: drive 3 10 10 ++
    .start (.sweep (some 1)) :: drive 4 8 20 ++
    .start (.processDue 50 none) :: drive 5 4 30 ++
    .tick (seconds 10) :: .start (.processDue 50 none) :: drive 6 4 40 ++
    .tick (seconds 20) ::
    .start (.createIntent 1 ⟨greatest, .NGN, none, noReference⟩) :: drive 7 2 3 ++
    .start (.confirm 1 (smallId '4')) :: drive 8 10 50 ++
    .start (.createWallet 2 .NGN) :: drive 9 1 2 ++
    .start (.registerAccount 2 goodAccount) :: drive 10 1 3 ++
    .start (.createIntent 2 ⟨fifty, .NGN, none, noReference⟩) :: drive 11 2 4 ++
    .start (.confirm 2 (smallId '5')) :: drive 12 10 70 ++
    .start (.sweep (some 2)) :: drive 13 8 80

/-- The reversal of the first payout fails, with no failure of the database: the second
payout stays pending, and by itself it would have been paid. -/
theorem poison_stops_batch : ∃ (s : Sys) (due : List PayoutRow) (ws : List Row),
    RunBy 10 (fun _ _ _ => True) poisonedBatch s ∧
    engine.attempt s.now unfailing (.payoutClaimDue 50 60 none) 0 s.db = .ok (due, ws) ∧
    due.map (·.id) = [26, 86] ∧
    ((processDuePayouts 50 none).alone engine s.now unfailing 0 s.db).result =
      .error (.db .numericOutOfRange) ∧
    (Db.payout ((processDuePayouts 50 none).alone engine s.now unfailing 0 s.db).db 86).map
      (·.status) = some .pending ∧
    (Db.payout (processEach s.now unfailing due 1 (s.db.install ws)).db 86).map (·.status) =
      some .paid := by
  have hrun : (runFrom 10 poisonedBatch).any (fun s : Sys =>
      match engine.attempt s.now unfailing (.payoutClaimDue 50 60 none) 0 s.db with
      | .ok (due, ws) => decide (due.map (·.id) = [26, 86] ∧
          ((processDuePayouts 50 none).alone engine s.now unfailing 0 s.db).result =
            .error (.db .numericOutOfRange) ∧
          (Db.payout ((processDuePayouts 50 none).alone engine s.now unfailing 0 s.db).db 86).map
            (·.status) = some .pending ∧
          (Db.payout (processEach s.now unfailing due 1 (s.db.install ws)).db 86).map (·.status) =
            some .paid)
      | .error _ => false) = true := by decide +kernel
  obtain ⟨s, hs, hstops⟩ := exists_run hrun
  split at hstops
  · rename_i due ws hclaim
    exact ⟨s, due, ws, hs, hclaim, of_decide_eq_true hstops⟩
  · cases hstops

end PaymentApis
