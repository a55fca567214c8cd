import PaymentApis.Answers
import PaymentApis.Conflicts
import PaymentApis.Lib.Alone

/-!
# Transfers get on

A transfer that runs by itself commits with its first attempt, and one that gives
up has been overtaken five times.
-/

namespace PaymentApis

open TxStore

/-! ## A transfer by itself -/

/-- The two wallets of a transfer that passes `validate`, with room for it. -/
structure Payable (m : Uuid) (dto : CreateTransferDto) (d : Db) (f t : WalletRow) : Prop where
  fromId : uuidOfText dto.fromWalletId = some f.id
  toId : uuidOfText dto.toWalletId = some t.id
  fromGet : d.wallet f.id = some f
  toGet : d.wallet t.id = some t
  valid : ∃ v, transferService.validate (some f) (some t) m dto.amount = .ok v
  distinct : dto.Distinct
  room : t.balance.val + dto.amount.val < 2 ^ 63
  fromVersion : f.version + 1 < 2 ^ 31
  toVersion : t.version + 1 < 2 ^ 31

/-- Identifiers that are new to the ledger, for the three rows of a transfer. -/
structure NewIds (ids : ℕ → ℕ) (d : Db) : Prop where
  transaction : d.get (.transaction (ids 3)) = none
  debit : d.get (.entry (ids 4)) = none
  credit : d.get (.entry (ids 5)) = none
  different : ids 4 ≠ ids 5

section Alone

variable {m : Uuid} {dto : CreateTransferDto} {d : Db} {f t : WalletRow} {ids : ℕ → ℕ}

/-- One statement that nothing stands in the way of, and then the rest. -/
theorem steps_stmt {β : Type} {now u : ℕ} {us : List ℕ} {log : List Ev} {name : TxnName}
    {p : Priv} {q : Stmt} {r : Resp q} {ws : List Row} {body : Resp q → Tx β} {b : Tx β}
    {k : Except Err β → Prog Reply}
    (hout : (Sql.exec q ⟨now, u⟩ (fun _ => false) (p.view d)).out = .ok (r, ws))
    (hrest : ∀ p' : Priv, p'.writes = p.writes ++ ws →
      ∃ p'', TxStore.Node.steps engine now d us ⟨log, .inTx name p' (body r) k⟩ =
        some ⟨log, .inTx name p'' b k⟩) :
    ∃ p'', TxStore.Node.steps engine now d (u :: us) ⟨log, .inTx name p (.stmt q body) k⟩ =
      some ⟨log, .inTx name p'' b k⟩ := by
  have hout' : (engine.exec q ⟨now, u⟩ (fun _ => false) (p.view d)).out = .ok (r, ws) := hout
  rw [TxStore.Node.steps_stmt hout']
  exact hrest _ rfl

theorem Payable.attempt (h : Payable m dto d f t) (hids : NewIds ids d) (now : ℕ)
    (log : List Ev) (k : Except Err TransferResult → Prog Reply) :
    ∃ r p, TxStore.Node.steps engine now d [ids 1, ids 2, ids 3, ids 4, ids 5, ids 6, ids 7]
      ⟨log, .inTx (.transfer m dto) .begin (transferService.attempt m dto) k⟩ =
        some ⟨log, .inTx (.transfer m dto) p (.ret r) k⟩ := by
  obtain ⟨v, hv⟩ := h.valid
  obtain ⟨hf, ht, hamount, -, -, hfunds⟩ := transferService.validate_ok hv
  obtain rfl : v = (f, t, dto.amount.val) := by
    obtain ⟨v₁, v₂, v₃⟩ := v
    simp only [Option.some.injEq] at hf ht hamount
    rw [hf, ht, hamount]
  simp only at hfunds
  have hlimit := f.balance.hi
  have hround := dto.amount.exact
  have hne : f.id ≠ t.id := by
    intro heq
    apply h.distinct
    rw [h.fromId, h.toId, heq]
  -- the amount, as the ledger reads it
  have hsmall : dto.amount.val < 2 ^ 63 := by omega
  have hshort := shortest_lt hround hsmall
  have hpos := shortest_pos hround dto.amount.pos
  obtain ⟨a, hparse, hapos⟩ : ∃ a : Bigint, Bigint.parse (numText dto.amount.val) = some a ∧
      0 < a.val := by
    refine ⟨⟨shortest dto.amount.val, by omega, by omega⟩, ?_, ?_⟩
    · rw [Bigint.parse_numText, Bigint.ofInt?_eq_some]
    · exact Int.natCast_pos.mpr hpos
  simp only [transferService.attempt, transferService.recordLedger, sql, Body.call_bind,
    Body.stmt_bind, Body.pure_eq, Body.ret_bind]
  refine ⟨⟨ids 3, f.id, t.id, dto.amount, f.currency⟩,
    steps_stmt (Sql.walletFindById_run h.fromId h.fromGet) ?_⟩
  intro p₁ h₁
  simp only [Priv.begin, List.nil_append] at h₁
  have htoGet : Db.wallet (p₁.view d) t.id = some t := by
    rw [view_wallet (by simp [h₁]), h.toGet]
  refine steps_stmt (Sql.walletFindById_run h.toId htoGet) ?_
  intro p₂ h₂
  rw [h₁, List.append_nil] at h₂
  simp only [hv, Body.ofExcept, Body.ret_bind]
  refine steps_stmt (Sql.ledgerCreateTransaction_run ?_) ?_
  · rw [Priv.view, h₂]
    exact hids.transaction
  intro p₃ h₃
  rw [h₂, List.nil_append] at h₃
  refine steps_stmt (Sql.ledgerAddEntry_run hparse hapos ?_) ?_
  · rw [Priv.view, Table.get_install_of_notMem (by simp [h₃, Row.key])]
    exact hids.debit
  intro p₄ h₄
  rw [h₃] at h₄
  refine steps_stmt (Sql.ledgerAddEntry_run hparse hapos ?_) ?_
  · rw [Priv.view, Table.get_install_of_notMem (by simp [h₄, Row.key, hids.different.symm])]
    exact hids.credit
  intro p₅ h₅
  rw [h₄] at h₅
  -- the two updates find the versions that were read
  obtain ⟨f', hfid, hdebit⟩ : ∃ f' : WalletRow, f'.id = f.id ∧ (Sql.exec
      (.walletApplyDeltaIfVersion f.id (intText (-(dto.amount.val : ℤ))) f.version) ⟨now, ids 6⟩
      (fun _ => false) (p₅.view d)).out = .ok (true, [.wallet f']) := by
    refine Sql.walletApplyDeltaIfVersion_run ?_ h.fromVersion (by omega) (by omega) (by omega)
    rw [view_wallet (by simp [h₅, Row.key]), h.fromGet]
  refine steps_stmt hdebit ?_
  intro p₆ h₆
  rw [h₅] at h₆
  have hcheck := t.check
  obtain ⟨t', htid, hcredit⟩ : ∃ t' : WalletRow, t'.id = t.id ∧ (Sql.exec
      (.walletApplyDeltaIfVersion t.id (intText dto.amount.val) t.version) ⟨now, ids 7⟩
      (fun _ => false) (p₆.view d)).out = .ok (true, [.wallet t']) := by
    refine Sql.walletApplyDeltaIfVersion_run ?_ h.toVersion (by omega) (by omega) h.room
    rw [view_wallet (by simp [h₆, Row.key, hfid, hne]), h.toGet]
  refine steps_stmt hcredit ?_
  intro p₇ h₇
  exact ⟨p₇, rfl⟩

/-- A transfer that runs by itself is through with its first attempt. -/
theorem alone_commits {min : ℤ} {s : Sys} (h : Payable m dto s.db f t) (hids : NewIds ids s.db)
    (hunlocked : ∀ n ∈ s.nodes, TxStore.Node.locks n = []) :
    ∃ (s' : Sys) (r : TransferResult) (evs : List Ev),
      s.run engine (program min) (.start (.transfer m dto) ::
        (List.range 9).map (fun k => .run s.nodes.length (ids k))) = some s' ∧
      s'.history = s.history ++ [(s.nodes.length, .txn (.transfer m dto) evs)] ∧
      s'.nodes[s.nodes.length]? = some ⟨evs, .run (.ret (.transfer r))⟩ := by
  obtain ⟨k, hprogram, hret⟩ : ∃ k : Except Err TransferResult → Prog Reply,
      program min (.transfer m dto) =
        .txn (.transfer m dto) (transferService.attempt m dto) k ∧
      ∀ r, k (.ok r) = .ret (.transfer r) := ⟨_, rfl, fun _ => rfl⟩
  obtain ⟨r, p, hattempt⟩ := h.attempt hids s.now [] k
  have hopens : TxStore.Node.steps engine s.now s.db
      [ids 0, ids 1, ids 2, ids 3, ids 4, ids 5, ids 6, ids 7]
      ⟨[], .run (program min (.transfer m dto))⟩ =
        some ⟨[], .inTx (.transfer m dto) p (.ret r) k⟩ := by
    rw [hprogram, TxStore.Node.steps_opens, hattempt]
  have hstart : s.step engine (program min) (.start (.transfer m dto)) =
      some (s.join ⟨[], .run (program min (.transfer m dto))⟩) := rfl
  -- the last step commits
  let last : Sys := s.join ⟨[], .inTx (.transfer m dto) p (.ret r) k⟩
  have hcommit : last.step engine (program min) (.run s.nodes.length (ids 8)) =
      some (last.advance s.nodes.length ⟨p.events, .run (k (.ok r))⟩
        (some (.txn (.transfer m dto) p.events, p.writes))) := Sys.step_join hunlocked rfl
  refine ⟨last.advance s.nodes.length ⟨p.events, .run (k (.ok r))⟩
    (some (.txn (.transfer m dto) p.events, p.writes)), r, p.events, ?_, rfl, ?_⟩
  · have hlabels : (List.range 9).map (fun k => (.run s.nodes.length (ids k) : Step)) =
        [ids 0, ids 1, ids 2, ids 3, ids 4, ids 5, ids 6, ids 7].map (.run s.nodes.length) ++
          [.run s.nodes.length (ids 8)] := rfl
    rw [hlabels, Sys.run, hstart, Option.bind_some, Sys.run_append, Sys.run_join hunlocked hopens,
      Option.bind_some, Sys.run, hcommit]
    rfl
  · simp [last, Sys.advance, Sys.join, hret]

end Alone

/-! ## Every conflict has a culprit -/

theorem conflicts_have_culprits {min : ℤ} {ls : List Step} {s : Sys}
    (h : RunBy min (fun _ _ _ => True) ls s) :
    (∀ i n m dto p, s.nodes[i]? = some n →
      n.throws? = some (.transfer m dto, p, .app .concurrencyConflict) → dto.Distinct →
      ∃ w, dto.Touches w.id ∧ ∃ before l after s₁ s₂, ls = before ++ l :: after ∧
        RunBy min (fun _ _ _ => True) before s₁ ∧ Culprit min i w s₁ l s₂ ∧
        Stays engine (program min) i s₂ after s) ∧
    (∀ i j dto n, (jobs ls)[i]? = some j → j.transferDto = some dto → dto.Distinct →
      s.nodes[i]? = some n → Node.reportsConflict n = true →
      ∃ before after s₀, ls = before ++ .start j :: after ∧ (jobs before).length = i ∧
        RunBy min (fun _ _ _ => True) before s₀ ∧
        othersSent i s₀.history + transferService.MAX_RETRIES ≤ othersSent i s.history) ∧
    ∀ m dto f t ids, (∀ n ∈ s.nodes, TxStore.Node.locks n = []) → Payable m dto s.db f t →
      NewIds ids s.db → ∃ (s' : Sys) (r : TransferResult) (evs : List Ev),
        s.run engine (program min) (.start (.transfer m dto) ::
          (List.range 9).map (fun k => .run s.nodes.length (ids k))) = some s' ∧
        s'.history = s.history ++ [(s.nodes.length, .txn (.transfer m dto) evs)] ∧
        s'.nodes[s.nodes.length]? = some ⟨evs, .run (.ret (.transfer r))⟩ := by
  refine ⟨?_, ?_, ?_⟩
  · intro i n m dto p hn hthrow hdistinct
    have htxn : s.txn? i = some (.transfer m dto, p) := by
      rw [TxStore.Sys.txn?, hn, Option.bind_some, Node.txn?_of_throws hthrow]
    obtain ⟨before, l, after, s₀, s₁, rfl, hbefore, hstep, -, hbegin, hstays⟩ := h.opened htxn
    have hbefore₁ : RunBy min (fun _ _ _ => True) (before ++ [l]) s₁ :=
      hbefore.step hstep trivial
    obtain ⟨w, htouches, mid, l', rest, sa, sb, rfl, hmid, hculprit, hrest⟩ :=
      culprit_in_window hbefore₁ hstays hbegin hn hthrow hdistinct
    exact ⟨w, htouches, before ++ [l] ++ mid, l', rest, sa, sb, by simp,
      hmid.run (fun _ _ _ => trivial) hbefore₁, hculprit, hrest⟩
  · intro i j dto n hj hdto hdistinct hn hreports
    obtain ⟨before, after, s₀, n', c, rfl, hi, hbefore, hsuffered⟩ :=
      suffered h hj hdto hdistinct
    obtain rfl : n' = n := Option.some.inj (hsuffered.node.symm.trans hn)
    exact ⟨before, after, s₀, rfl, hi, hbefore, hsuffered.five hreports⟩
  · intro m dto f t ids hunlocked hpayable hids
    exact alone_commits hpayable hids hunlocked

def transferTen : CreateTransferDto :=
  ⟨smallId '1', smallId '2', ⟨10, by decide, by decide, by decide +kernel⟩, smallId_one,
    smallId_two, smallId_one_ne_two⟩

/-- Call 4 loses against five others in turn: each commits after it has read. -/
def outrun : List Step :=
  paidHundred ++ .start (.transfer 1 transferFifty) :: (List.range 5).flatMap (fun k =>
    drive 4 3 20 ++ .start (.transfer 1 transferTen) :: drive (5 + k) 9 (40 + 10 * k) ++
      drive 4 6 23)

/-- It has thrown the error, on two different wallets. -/
def Node.lostTransfer (n : Node) : Bool :=
  match n.throws? with
  | some (.transfer _ dto, _, .app .concurrencyConflict) =>
    decide (uuidOfText dto.fromWalletId ≠ uuidOfText dto.toWalletId)
  | _ => false

theorem conflicts_have_culprits_outrun :
    (∃ s s₁ s₂ : Sys, ∃ w l, Culprit 10 4 w s₁ l s₂ ∧ ∃ after,
      Stays engine (program 10) 4 s₂ after s) ∧
    ∃ s s₀ : Sys, othersSent 4 s₀.history + transferService.MAX_RETRIES ≤
      othersSent 4 s.history := by
  refine ⟨?_, ?_⟩
  · have hrun : (runFrom 10 outrun.dropLast).any (fun s : Sys =>
        s.nodes[4]?.any Node.lostTransfer) = true := by decide +kernel
    obtain ⟨s, hs, hlost⟩ := exists_run hrun
    obtain ⟨n, hn, hlost⟩ := (Option.any_eq_true _ _).mp hlost
    unfold Node.lostTransfer at hlost
    split at hlost
    · rename_i m dto p hthrow
      have hdistinct : uuidOfText dto.fromWalletId ≠ uuidOfText dto.toWalletId :=
        of_decide_eq_true hlost
      obtain ⟨w, -, -, l, after, s₁, s₂, -, -, hculprit, hstays⟩ :=
        (conflicts_have_culprits hs).1 4 n m dto p hn hthrow hdistinct
      exact ⟨s, s₁, s₂, w, l, hculprit, after, hstays⟩
    · cases hlost
  · have hrun : (runFrom 10 outrun).any (fun s : Sys => s.nodes[4]?.any Node.reportsConflict) =
        true := by decide +kernel
    obtain ⟨s, hs, hreports⟩ := exists_run hrun
    obtain ⟨n, hn, hreports⟩ := (Option.any_eq_true _ _).mp hreports
    have hdistinct : transferFifty.Distinct := by
      unfold CreateTransferDto.Distinct
      decide +kernel
    obtain ⟨before, after, s₀, -, -, -, hfive⟩ := (conflicts_have_culprits hs).2.1 4
      (.transfer 1 transferFifty) transferFifty n rfl rfl hdistinct hn hreports
    exact ⟨s, s₀, hfive⟩

/-- A request that spells the id of one wallet in two ways. -/
def selfTransfer : CreateTransferDto :=
  ⟨smallId 'a', smallId 'A', fifty, by decide +kernel, by decide +kernel, by decide +kernel⟩

def spelledTwice : List Step :=
  .start (.createWallet 1 .NGN) :: drive 0 1 10 ++
    .start (.createIntent 1 ⟨hundred, .NGN, none, noReference⟩) :: drive 1 2 2 ++
    .start (.confirm 1 (smallId '3')) :: drive 2 10 20 ++
    .start (.transfer 1 selfTransfer) :: drive 3 45 40

/-- The wallet is debited, and then it is at another version than the one that was
read. Nobody else has committed a transfer. -/
theorem conflict_without_culprit : ∃ s : Sys, RunBy 10 (fun _ _ _ => True) spelledTwice s ∧
    (∃ w, Db.wallet s.db 10 = some w ∧
      (transferService.validate (some w) (some w) 1 selfTransfer.amount).isOk = true) ∧
    (∃ n, s.nodes[3]? = some n ∧ Node.reportsConflict n = true) ∧ othersSent 3 s.history = 0 := by
  have hrun : (runFrom 10 spelledTwice).any (fun s : Sys =>
      (Db.wallet s.db 10).any (fun w =>
        (transferService.validate (some w) (some w) 1 selfTransfer.amount).isOk) &&
      s.nodes[3]?.any Node.reportsConflict && decide (othersSent 3 s.history = 0)) = true := by
    decide +kernel
  obtain ⟨s, hs, hconflict⟩ := exists_run hrun
  rw [Bool.and_eq_true, Bool.and_eq_true, decide_eq_true_eq] at hconflict
  obtain ⟨⟨hvalid, hreports⟩, hnobody⟩ := hconflict
  exact ⟨s, hs, (Option.any_eq_true _ _).mp hvalid, (Option.any_eq_true _ _).mp hreports, hnobody⟩

end PaymentApis
