import PaymentApis.Totals

/-!
# The ledger and the cached balances

A transfer posts the shortest decimal text of its amount to the ledger and
moves the exact amount between the wallets. The two agree as long as the text
denotes the amount.
-/

namespace PaymentApis

open TxStore

/-- The sum of a wallet's ledger lines in one direction. -/
def Db.ledgerSum (d : Db) (w : Uuid) (dir : Direction) : ℤ :=
  (d.entries.map (fun e => if e.walletId = w ∧ e.direction = dir then e.amount.val else 0)).sum

/-- Every cached balance is what the ledger says. -/
def Db.LedgerAgrees (d : Db) : Prop :=
  ∀ w ∈ d.wallets, w.balance.val = d.ledgerSum w.id .credit - d.ledgerSum w.id .debit

instance (d : Db) : Decidable d.LedgerAgrees := inferInstanceAs (Decidable (∀ _ ∈ _, _))

/-! ## The imbalance of a wallet -/

def balancePart (id : Uuid) : Row → ℤ
  | .wallet w => if w.id = id then w.balance.val else 0
  | _ => 0

def linePart (id : Uuid) (dir : Direction) : Row → ℤ
  | .entry e => if e.walletId = id ∧ e.direction = dir then e.amount.val else 0
  | _ => 0

/-- What a row adds to the difference of balance and ledger of a wallet. -/
def imbalance (id : Uuid) (r : Row) : ℤ :=
  balancePart id r - linePart id .credit r + linePart id .debit r

theorem total_balancePart {d : Db} {w : WalletRow} (hw : w ∈ d.wallets) :
    d.total (balancePart w.id) = w.balance.val := by
  have hother : ∀ r : Row, r.key ≠ .wallet w.id → balancePart w.id r = 0 := by
    intro r hr
    cases r <;> simp_all [balancePart]
  rw [Table.total_eq_get d hother, Db.mem_wallets.mp hw]
  simp [balancePart]

theorem total_linePart (d : Db) (id : Uuid) (dir : Direction) :
    d.total (linePart id dir) = d.ledgerSum id dir := by
  have hpart : linePart id dir = fun r => ((r.asEntry).map (fun e =>
      if e.walletId = id ∧ e.direction = dir then e.amount.val else 0)).getD 0 := by
    funext r
    cases r <;> rfl
  rw [hpart, Table.total_filterMap]
  rfl

theorem total_imbalance {d : Db} {w : WalletRow} (hw : w ∈ d.wallets) :
    d.total (imbalance w.id) =
      w.balance.val - d.ledgerSum w.id .credit + d.ledgerSum w.id .debit := by
  rw [← total_balancePart hw, ← total_linePart, ← total_linePart]
  simp only [Table.total]
  induction d.rows with
  | nil => rfl
  | cons r rows ih =>
    simp only [List.map_cons, List.sum_cons, ih, imbalance]
    ring

theorem Db.LedgerAgrees.of_total {d : Db} (h : ∀ id, d.total (imbalance id) = 0) :
    d.LedgerAgrees := by
  intro w hw
  have htotal := total_imbalance hw
  rw [h w.id] at htotal
  omega

/-! ## One commit -/

/-- The amount of a committed transfer. -/
def Item.transferred : Item → Option ℕ
  | .txn (.transfer _ dto) _ => some dto.amount.val
  | _ => none

/-- The text of every amount transferred denotes it. -/
def ExactTransfers (history : List (ℕ × Item)) : Prop :=
  ∀ x ∈ history, ∀ a ∈ Item.transferred x.2, shortest a = a

instance (history : List (ℕ × Item)) : Decidable (ExactTransfers history) :=
  inferInstanceAs (Decidable (∀ _ ∈ _, _))

theorem TransferCommit.amount_eq {d : Db} {m : Uuid} {dto : CreateTransferDto}
    (c : TransferCommit d m dto) (h : shortest dto.amount.val = dto.amount.val) :
    c.amount.val = dto.amount.val := by
  have hledger := c.ledger
  rw [Bigint.parse_numText, Bigint.ofInt?_eq_some] at hledger
  rw [hledger, h]

theorem Commit.total_imbalance {min : ℤ} {log : List Ev} {now : ℕ} {d : Db} {it : Item}
    {ws : List Row} (h : Commit min log now d it ws)
    (hexact : ∀ a ∈ Item.transferred it, shortest a = a)
    (id : Uuid) :
    Table.total (imbalance id) (d.install ws) = d.total (imbalance id) := by
  have hnd := h.nodup
  have houtbox : ∀ rows : List WebhookEventRow,
      (rows.map (fun e => imbalance id (.event e))).sum = 0 := by
    intro rows
    apply List.sum_eq_zero
    intro x hx
    obtain ⟨e, -, rfl⟩ := List.mem_map.mp hx
    rfl
  cases h with
  | query | accountFind | bank | sweepSkip => rfl
  | keyed s r ws hkey => exact hkey.total _ (fun _ => rfl)
  | walletCreate row shape owner fresh =>
    rw [Table.install_cons, Table.install_nil, Table.total_put_new _ fresh]
    simp [imbalance, balancePart, linePart, shape.2.2.1]
  | intentInsert row shape parsed fresh =>
    rw [Table.install_cons, Table.install_nil, Table.total_put_new _ fresh]
    simp [imbalance, balancePart, linePart]
  | endpointInsert row shape fresh =>
    rw [Table.install_cons, Table.install_nil, Table.total_put_new _ fresh]
    simp [imbalance, balancePart, linePart]
  | accountInsert row shape owner fresh =>
    rw [Table.install_cons, Table.install_nil, Table.total_put_new _ fresh]
    simp [imbalance, balancePart, linePart]
  | claimDue limit m rows idle nodup claimed =>
    apply total_same _ hnd
    intro r hr
    obtain ⟨p, hp, rfl⟩ := List.mem_map.mp hr
    obtain ⟨q, hq, -, -, -⟩ := claimed p hp
    rw [Row.key, Db.payout_eq_some.mp hq]
    rfl
  | markRetry p rest row message place remaining rowGet same =>
    have hid : row.id = p.id := Db.id_of_payout rowGet
    apply total_same _ hnd
    intro r hr
    rw [List.mem_singleton] at hr
    subst hr
    simp only [Row.key, hid, Db.payout_eq_some.mp rowGet]
    rfl
  | transfer c =>
    have hamount := c.amount_eq (hexact _ rfl)
    rw [c.total _ hnd]
    have hs := c.debited
    have ht := c.credited
    simp only [imbalance, balancePart, linePart, TransferCommit.newSource, TransferCommit.newDest,
      hamount, hs, ht, reduceCtorEq, and_false, and_true, if_false]
    split_ifs <;> omega
  | confirm c =>
    rw [c.total _ hnd, houtbox]
    have hw := c.credited
    simp only [imbalance, balancePart, linePart, ConfirmCommit.newWallet, ConfirmCommit.entry, hw,
      reduceCtorEq, and_false, and_true, if_false]
    split_ifs <;> omega
  | cancel c =>
    rw [c.total _ hnd]
    simp [imbalance, balancePart, linePart]
  | sweep c =>
    rw [c.total _ hnd]
    simp only [imbalance, balancePart, linePart, SweepCommit.newWallet, SweepCommit.entry,
      Bigint.zero_val, reduceCtorEq, and_false, and_true, if_false]
    split_ifs <;> omega
  | paid rest place c =>
    rw [c.total _ hnd, houtbox]
    simp [imbalance, balancePart, linePart]
  | reversal rest place c =>
    rw [c.total _ hnd, houtbox]
    have hw := c.credited
    simp only [imbalance, balancePart, linePart, ReversalCommit.newWallet, ReversalCommit.entry, hw,
      reduceCtorEq, and_false, and_true, if_false]
    split_ifs <;> omega

/-! ## Every run -/

/-- In every run whose committed transfers all have exact texts, balances and
ledger agree throughout. -/
theorem ledger_agrees {min : ℤ} {s : Sys}
    (h : ReachBy min (fun _ _ s' => ExactTransfers s'.history) s) : Db.LedgerAgrees s.db := by
  have hreach : AReach min (fun a => ExactTransfers a.history) s.abs :=
    reach_refines (fun _ _ _ hok => hok) h
  have htotal : ∀ id, s.abs.db.total (imbalance id) = 0 := by
    refine AReach.invariant (fun a => ∀ id, a.db.total (imbalance id) = 0) (fun _ => rfl) ?_ hreach
    intro a a' _ hq hstep hp id
    cases hstep with
    | start | tick | fault | quiet => exact hq id
    | commit i log it p live hproc _ hg =>
      rw [hg.total_imbalance (hp (i, it) (by simp)) id]
      exact hq id
  exact Db.LedgerAgrees.of_total htotal

/-- Two wallets; an intent of `amount` is confirmed for the first, which
transfers it to the second. -/
def payAndTransfer (amount : IntDouble) (dto : CreateTransferDto) : List Step :=
  .start (.createWallet 1 .NGN) :: drive 0 1 1 ++
    .start (.createWallet 2 .NGN) :: drive 1 1 2 ++
    .start (.createIntent 1 ⟨amount, .NGN, none, noReference⟩) :: drive 2 2 2 ++
    .start (.confirm 1 (smallId '3')) :: drive 3 10 10 ++
    .start (.transfer 1 dto) :: drive 4 9 30

def transferFifty : CreateTransferDto :=
  ⟨smallId '1', smallId '2', fifty, smallId_one, smallId_two, smallId_one_ne_two⟩

theorem ledger_agrees_fifty : ∃ s : Sys, s.history.length = 6 ∧ Db.LedgerAgrees s.db := by
  have hrun : (runWhile 100 (fun _ _ s' => decide (ExactTransfers s'.history))
      (payAndTransfer fifty transferFifty)).any (fun s => decide (s.history.length = 6)) = true := by
    decide +kernel
  obtain ⟨s, hs, hlength⟩ := exists_of_runWhile hrun
  have hexact : ReachBy 100 (fun _ _ s' => ExactTransfers s'.history) s :=
    hs.mono (fun _ _ _ htest => of_decide_eq_true htest)
  exact ⟨s, of_decide_eq_true hlength, ledger_agrees hexact⟩

/-- 2^60 is written 1152921504606847000. -/
def twoToSixty : IntDouble := ⟨2 ^ 60, by decide, by decide +kernel, by decide +kernel⟩

def transferTwoToSixty : CreateTransferDto :=
  ⟨smallId '1', smallId '2', twoToSixty, by decide +kernel, by decide +kernel, by decide +kernel⟩

/-- After the transfer the source holds 24 and its ledger says 0. -/
theorem ledger_disagrees_large : ∃ s, Reachable 100 s ∧ ¬ Db.LedgerAgrees s.db := by
  have hrun : (runFrom 100 (payAndTransfer twoToSixty transferTwoToSixty)).any
      (fun s => decide (¬ Db.LedgerAgrees s.db)) = true := by decide +kernel
  obtain ⟨s, hs, hbad⟩ := exists_of_run hrun
  exact ⟨s, hs, of_decide_eq_true hbad⟩

end PaymentApis
