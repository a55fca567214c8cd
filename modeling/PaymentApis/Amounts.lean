import PaymentApis.Answers
import PaymentApis.Conducts
import PaymentApis.Intents
import PaymentApis.Lib.Alone
import PaymentApis.Lib.Shortest

/-!
# The amount of a payment intent

A client writes an integer; `JSON.parse` makes a double of it, the driver the text
of that double, and the database a `BIGINT`. From there on the amount is copied:
to the charge, to the ledger and to the wallet.
-/

namespace PaymentApis

open TxStore

/-- The amount that the schema passes for the integer literal `n` of a body:
`JSON.parse` rounds it, and infinity is no integer. -/
def readAmount (n : ℕ) : Option IntDouble :=
  if h : 0 < n ∧ roundDouble n < 2 ^ 1024 then
    some ⟨roundDouble n, roundDouble_pos h.1, roundDouble_roundDouble n, h.2⟩
  else none

theorem readAmount_val {n : ℕ} {amount : IntDouble} (h : readAmount n = some amount) :
    amount.val = roundDouble n := by
  rw [readAmount] at h
  split at h
  · cases h
    rfl
  · cases h

/-- The rows that a process has inserted into `payment_intents`. -/
def insertedIntents (log : List Ev) : List PaymentIntentRow :=
  log.filterMap (fun
    | .stmt (.intentInsert _ _ _ _) row => some row
    | _ => none)

/-- From `d` to `d'`, the intent `id` is charged: `amount` is on the new charge, on
the ledger entry of its transaction, and on the wallet of that entry. -/
def Db.Charged (d d' : Db) (id : Uuid) (amount : ℤ) : Prop :=
  ∃ c ∈ d'.charges, d.get (.charge c.id) = none ∧ c.paymentIntentId = id ∧ c.amount.val = amount ∧
    ∃ e ∈ d'.entries, e.transactionId = c.transactionId ∧ e.direction = .credit ∧
      e.amount.val = amount ∧ ∃ w w', d.wallet e.walletId = some w ∧
        d'.wallet e.walletId = some w' ∧ w'.balance.val = w.balance.val + amount

/-- What a client writes as `n` is `n` wherever it is stored: in the row of the intent,
and in all that a confirm of this intent writes. -/
def TakesExactly (min : ℤ) (n : ℕ) : Prop :=
  ∀ (ls : List Step) (s : Sys) (i : ℕ) (m : Uuid) (dto : CreatePaymentIntentDto) (node : Node)
    (row : PaymentIntentRow), RunBy min (fun _ _ _ => True) ls s →
    (jobs ls)[i]? = some (.createIntent m dto) → readAmount n = some dto.amount →
    s.nodes[i]? = some node → row ∈ insertedIntents node.log →
    row.amount.val = n ∧ (∀ r, Db.intent s.db row.id = some r → r.amount.val = n) ∧
    ∀ (l : Step) (s' : Sys) (k : ℕ) (m' : Uuid) (id : Text) (evs : List Ev),
      s.next min l = some s' → s'.history = s.history ++ [(k, .txn (.confirm m' id) evs)] →
      uuidOfText id = some row.id → Db.Charged s.db s'.db row.id n

/-! ## What is stored -/

section Stored

variable {min : ℤ} {ls : List Step} {s : Sys}

@[simp] theorem insertedIntents_append (log evs : List Ev) :
    insertedIntents (log ++ evs) = insertedIntents log ++ insertedIntents evs :=
  List.filterMap_append

/-- The intent is still there, with the amount it was inserted with. -/
def Db.HasIntent (d : Db) (row : PaymentIntentRow) : Prop :=
  ∃ r, d.intent row.id = some r ∧ r.amount = row.amount

theorem Db.HasIntent.later {d d' : Db} {row : PaymentIntentRow} (h : d.HasIntent row)
    (hd : d.Later d') : d'.HasIntent row := by
  obtain ⟨r, hget, hamount⟩ := h
  obtain ⟨x, hx, hfixed, -⟩ := hd _ _ (Db.intent_eq_some.mp hget)
  cases x <;>
    simp only [Row.fixed, reduceCtorEq, Row.intent.injEq, PaymentIntentRow.mk.injEq] at hfixed
  exact ⟨_, Db.intent_eq_some.mpr hx, hfixed.2.2.1.trans hamount⟩

/-- The row of a request holds the shortest decimal of the double it was sent as. -/
theorem inserted_amounts (h : RunBy min (fun _ _ _ => True) ls s) :
    ∀ (i : ℕ) (j : Job) (q : Bool × List Ev), (jobs ls)[i]? = some j → s.abs.procs[i]? = some q →
      ∀ (m : Uuid) (dto : CreatePaymentIntentDto), j = .createIntent m dto →
        ∀ row ∈ insertedIntents q.2, row.amount.val = shortest dto.amount.val ∧
          Db.HasIntent s.db row := by
  have hreach : JReach min (fun _ _ => True) (jobs ls) s.abs :=
    run_refines (fun _ _ _ _ _ _ _ => trivial) h
  refine TxStore.JReach.invariant (fun js a => ∀ (i : ℕ) (j : Job) (q : Bool × List Ev),
    js[i]? = some j → a.procs[i]? = some q → ∀ (m : Uuid) (dto : CreatePaymentIntentDto),
      j = .createIntent m dto → ∀ row ∈ insertedIntents q.2,
        row.amount.val = shortest dto.amount.val ∧ Db.HasIntent a.db row) ?_ ?_ hreach
  · intro i j q hj
    simp at hj
  · intro js a js' a' hr ih hs _
    have hlater : Db.Later a.db a'.db := by
      cases hs with
      | start | tick | fault | quiet => exact Db.Later.refl _
      | commit i j log it p live _ _ _ hg => exact Commit.later hg
    refine TxStore.JStep.each (F := fun _ j log _ => ∀ (m : Uuid) (dto : CreatePaymentIntentDto),
      j = .createIntent m dto → ∀ row ∈ insertedIntents log,
        row.amount.val = shortest dto.amount.val ∧ Db.HasIntent a'.db row)
      hs hr.sized.1 ?_ ?_ ?_ ?_ ?_
    · intro j m dto _ row hrow
      cases hrow
    · intro i j log f hF m dto hj row hrow
      rw [insertedIntents_append] at hrow
      simp only [insertedIntents, List.filterMap_cons, List.filterMap_nil, List.append_nil] at hrow
      exact hF m dto hj row hrow
    · intro i j log it p _ _ hg hmay _ hdb hF m dto hj row hrow
      subst hj
      rw [insertedIntents_append] at hrow
      rcases List.mem_append.mp hrow with hrow | hrow
      · exact hF m dto rfl row hrow
      · rcases hmay with ⟨r, rfl⟩ | ⟨r, rfl⟩
        · simp [insertedIntents, TxStore.Item.events] at hrow
        · obtain rfl : row = r := by simpa [insertedIntents, TxStore.Item.events] using hrow
          have hcommit : Commit min log a.now a.db _ p.writes := hg
          generalize p.writes = ws at hcommit hdb
          cases hcommit with
          | query _ _ hquery => cases hquery
          | keyed _ _ _ hkey => cases hkey
          | intentInsert row shape parsed fresh =>
            rw [Bigint.parse_numText, Bigint.ofInt?_eq_some] at parsed
            refine ⟨parsed, row, ?_, rfl⟩
            rw [hdb, Db.intent_eq_some]
            exact Table.get_put_self a.db (.intent row)
    · exact fun _ _ _ _ _ _ _ _ _ hF => hF
    · intro i j q hj hq m dto hjob row hrow
      obtain ⟨hamount, hthere⟩ := ih i j q hj hq m dto hjob row hrow
      exact ⟨hamount, hthere.later hlater⟩

/-- A confirm copies the amount of its intent. -/
theorem ConfirmCommit.charged {log : List Ev} {now : ℕ} {d : Db} {m : Uuid} {id : Text}
    (x : ConfirmCommit d m id)
    (h : Commit min log now d (.txn (.confirm m id) x.events) x.writes) :
    Db.Charged d (d.install x.writes) x.intent.id x.intent.amount.val := by
  have hwritten : ∀ r ∈ x.writes, r ∈ (Table.install d x.writes).rows := by
    intro r hr
    exact Table.mem_of_get (Table.get_install_of_mem h.nodup hr)
  refine ⟨x.charge, h.mem_charges.mpr (Or.inl (by simp [ConfirmCommit.writes])), x.chargeFresh, rfl,
    rfl, x.entry, h.mem_entries.mpr (Or.inl (by simp [ConfirmCommit.writes])), rfl, rfl, rfl,
    x.wallet, x.newWallet, x.walletGet, ?_, x.credited⟩
  rw [Db.wallet_eq_some]
  exact Table.get_of_mem (hwritten (.wallet x.newWallet) (by simp [ConfirmCommit.writes]))

end Stored

/-! ## Every literal below the bound is stored -/

/-- A merchant with a wallet. -/
def newWallet : List Step := .start (.createWallet 1 .NGN) :: drive 0 1 1

theorem exists_inserted (min : ℤ) {n : ℕ} (hn : 0 < n) (hlt : n < 2 ^ 63 - 512) :
    ∃ (ls : List Step) (s : Sys) (i : ℕ) (dto : CreatePaymentIntentDto) (node : Node)
      (row : PaymentIntentRow), RunBy min (fun _ _ _ => True) ls s ∧
      (jobs ls)[i]? = some (.createIntent 1 dto) ∧ readAmount n = some dto.amount ∧
      s.nodes[i]? = some node ∧ row ∈ insertedIntents node.log := by
  have hround := roundDouble_lt_iff.mpr hlt
  have hmax : ∀ k, 63 < k → 2 ^ 63 < 2 ^ k := fun k hk => Nat.pow_lt_pow_right (by decide) hk
  have hfinite : 0 < n ∧ roundDouble n < 2 ^ 1024 := ⟨hn, hround.trans (hmax 1024 (by decide))⟩
  obtain ⟨amount, hread⟩ : ∃ amount, readAmount n = some amount := ⟨_, dif_pos hfinite⟩
  have hval := readAmount_val hread
  have hsmall : amount.val < 2 ^ 63 := hval ▸ hround
  have hshort := shortest_lt amount.exact hsmall
  have hpos := shortest_pos amount.exact amount.pos
  let dto : CreatePaymentIntentDto := ⟨amount, .NGN, none, noReference⟩
  obtain ⟨a, hparse, hapos⟩ : ∃ a : Bigint, Bigint.parse (numText amount.val) = some a ∧
      0 < a.val := by
    refine ⟨⟨shortest amount.val, by omega, by omega⟩, ?_, Int.natCast_pos.mpr hpos⟩
    rw [Bigint.parse_numText, Bigint.ofInt?_eq_some]
  obtain ⟨s, hs, hunlocked, hlen, hnew, w, hw⟩ : ∃ s : Sys, runFrom min newWallet = some s ∧
      (∀ n ∈ s.nodes, TxStore.Node.locks n = []) ∧ s.nodes.length = 1 ∧
      s.db.get (.intent 0) = none ∧ ∃ w,
      (Db.wallets s.db).find? (fun w => decide (w.merchantId = 1 ∧ w.currency = .NGN)) = some w := by
    refine ⟨_, rfl, ?_, rfl, rfl, _, rfl⟩
    intro n hn
    rw [List.mem_singleton.mp hn]
    rfl
  -- the request has the system for itself
  let row : PaymentIntentRow := ⟨0, 1, a, .NGN, .requiresConfirmation, none, hapos⟩
  have hfind : engine.attempt s.now (drawing fun _ => 0) (.walletFindByMerchantAndCurrency 1 .NGN) 0
      s.db = .ok (some w, []) := by
    show Except.ok (_, _) = _
    rw [hw]
  have hinsert : (Sql.exec (.intentInsert 1 (numText amount.val) .NGN none) ⟨s.now, 0⟩
      (fun _ => false) s.db).out = .ok (row, [.intent row]) :=
    Sql.intentInsert_run hparse hapos hnew
  have hattempt : engine.attempt s.now (drawing fun _ => 0)
      (.intentInsert 1 (numText amount.val) .NGN none) 1 s.db = .ok (row, [.intent row]) := hinsert
  obtain ⟨ls, s', -, -, hrun, -, -, hnodes⟩ : ∃ (ls : List Step) (s' : Sys), _ ∧ _ ∧
      s.run engine (program min) _ = _ ∧ _ ∧ _ ∧ _ :=
    Sys.alone_runs hunlocked (drawing fun _ => 0) (.createIntent 1 dto)
  obtain ⟨node, hnode, hlog⟩ : ∃ node : Node, s'.nodes[1]? = some node ∧ node.log =
      ((program min (.createIntent 1 dto)).alone engine s.now (drawing fun _ => 0) 0 s.db).log := by
    rw [hnodes, List.getElem?_append_right (by omega), hlen]
    exact ⟨_, rfl, rfl⟩
  refine ⟨_, s', 1, dto, node, row, Run.of_run (Run.of_run .init hs) hrun, rfl, hread, hnode, ?_⟩
  rw [hlog, program, paymentService.create, Client.alone_bind, Client.alone_bind, query,
    Client.alone_exec hfind]
  simp only [TxStore.Ended.bind, Table.install_nil]
  rw [Client.alone_bind, query, Client.alone_exec hattempt]
  show row ∈ [row]
  exact List.mem_singleton_self row

/-- An amount is taken exactly when its double stands for no other decimal before it,
or when it is no `BIGINT` and not taken at all. -/
theorem amounts_exact_iff {min : ℤ} {n : ℕ} (hn : 0 < n) :
    TakesExactly min n ↔ 2 ^ 63 - 512 ≤ n ∨ IsShortest (roundDouble n) n := by
  have hpos := roundDouble_pos hn
  have hself := roundDouble_roundDouble n
  constructor
  · intro h
    by_contra hneither
    obtain ⟨hlt, hnot⟩ := not_or.mp hneither
    obtain ⟨ls, s, i, dto, node, row, hrun, hj, hread, hnode, hrow⟩ :=
      exists_inserted min hn (Nat.lt_of_not_le hlt)
    obtain ⟨hstored, -⟩ := inserted_amounts hrun i _ _ hj (abs_proc hnode) 1 dto rfl row hrow
    obtain ⟨hexact, -⟩ := h ls s i 1 dto node row hrun hj hread hnode hrow
    rw [readAmount_val hread, hexact] at hstored
    exact hnot ((shortest_eq_iff hself hpos).mp (Int.natCast_inj.mp hstored.symm))
  · intro h ls s i m dto node row hrun hj hread hnode hrow
    obtain ⟨hstored, r, hr, hamount⟩ :=
      inserted_amounts hrun i _ _ hj (abs_proc hnode) m dto rfl row hrow
    rw [readAmount_val hread] at hstored
    have hexact : row.amount.val = n := by
      rcases h with hlarge | hshort
      · -- what has been stored is below 2^63
        have hlimit := row.amount.hi
        have hbelow := roundDouble_lt_iff.mp ((shortest_lt_iff hself).mp (by omega))
        omega
      · rw [hstored, (shortest_eq_iff hself hpos).mpr hshort]
    refine ⟨hexact, ?_, ?_⟩
    · intro r' hr'
      rw [hr, Option.some.injEq] at hr'
      rw [← hr', hamount, hexact]
    · intro l s' k m' id evs hstep hlast hid
      obtain ⟨log, ws, -, hcommit, hdb⟩ := step_commits hrun.reach hstep hlast
      have hcharges := hcommit
      rw [hdb]
      cases hcommit with
      | confirm x =>
        have hsame : x.intent.id = row.id := Option.some.inj (x.intentId.symm.trans hid)
        have hintent := x.intentGet
        rw [hsame, hr, Option.some.injEq] at hintent
        have hcharged := x.charged hcharges
        rw [hsame, ← hintent, hamount, hexact] at hcharged
        exact hcharged

theorem amounts_exact_fifty : TakesExactly 10 50 :=
  (amounts_exact_iff (by decide)).mpr (.inr (isShortest_of_lt (by decide) (by decide)))

/-- `2 ^ 53 + 1` is accepted, and one less is charged. -/
theorem amount_rounded : ¬ TakesExactly 10 9007199254740993 := by
  intro h
  obtain ⟨ls, s, i, dto, node, row, hrun, hj, hread, hnode, hrow⟩ :=
    exists_inserted 10 (show 0 < 9007199254740993 by decide) (by decide)
  obtain ⟨hstored, -⟩ := inserted_amounts hrun i _ _ hj (abs_proc hnode) 1 dto rfl row hrow
  obtain ⟨hexact, -⟩ := h ls s i 1 dto node row hrun hj hread hnode hrow
  have hround : shortest (roundDouble 9007199254740993) = 9007199254740992 := by decide +kernel
  rw [readAmount_val hread, hexact, hround] at hstored
  omega

end PaymentApis
