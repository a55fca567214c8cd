import PaymentApis.Walks

/-!
# Totals over the tables

How a commit changes a sum over all rows, kind by kind. The accounting claims
choose the summand.
-/

namespace PaymentApis

open TxStore

variable {d : Db} (f : Row → ℤ)

theorem Outbox.sum_writes {m : Uuid} {type : EventType} {data : EventData}
    (o : Outbox d m type data) :
    (o.writes.map (fun r => f r - ((d.get r.key).map f).getD 0)).sum =
      (o.rows.map (fun e => f (.event e))).sum := by
  rw [Outbox.writes, List.map_map]
  congr 1
  apply List.map_congr_left
  intro e he
  simp [o.fresh e he]

theorem TransferCommit.total {m : Uuid} {dto : CreateTransferDto} (c : TransferCommit d m dto)
    (hnd : (c.writes.map Row.key).Nodup) :
    Table.total f (d.install c.writes) = d.total f +
      (f (.transaction ⟨c.transactionId, .transfer⟩) +
        f (.entry ⟨c.debitId, c.transactionId, c.source.id, .debit, c.amount, c.source.currency,
          c.positive⟩) +
        f (.entry ⟨c.creditId, c.transactionId, c.dest.id, .credit, c.amount, c.dest.currency,
          c.positive⟩) +
        (f (.wallet c.newSource) - f (.wallet c.source)) +
        (f (.wallet c.newDest) - f (.wallet c.dest))) := by
  have hs : d.get (.wallet c.newSource.id) = some (.wallet c.source) :=
    Db.wallet_eq_some.mp c.sourceGet
  have ht : d.get (.wallet c.newDest.id) = some (.wallet c.dest) := Db.wallet_eq_some.mp c.destGet
  rw [Table.total_install f hnd]
  simp only [TransferCommit.writes, List.map_cons, List.map_nil, List.sum_cons, List.sum_nil,
    Row.key, c.transactionFresh, c.debitFresh, c.creditFresh, hs, ht, Option.map_none,
    Option.map_some, Option.getD_none, Option.getD_some]
  ring

theorem ConfirmCommit.total {m : Uuid} {id : Text} (c : ConfirmCommit d m id)
    (hnd : (c.writes.map Row.key).Nodup) :
    Table.total f (d.install c.writes) = d.total f +
      (f (.transaction ⟨c.transactionId, .charge⟩) + f (.entry c.entry) +
        (f (.wallet c.newWallet) - f (.wallet c.wallet)) + f (.charge c.charge) +
        (f (.intent c.newIntent) - f (.intent c.intent)) +
        (c.outbox.rows.map (fun e => f (.event e))).sum) := by
  have hw : d.get (.wallet c.newWallet.id) = some (.wallet c.wallet) :=
    Db.wallet_eq_some.mp c.walletGet
  have hi : d.get (.intent c.newIntent.id) = some (.intent c.intent) :=
    Db.intent_eq_some.mp c.intentGet
  have he : d.get (.entry c.entry.id) = none := c.entryFresh
  have hc : d.get (.charge c.charge.id) = none := c.chargeFresh
  rw [Table.total_install f hnd, ConfirmCommit.writes, List.map_append, List.sum_append,
    c.outbox.sum_writes f]
  simp only [List.map_cons, List.map_nil, List.sum_cons, List.sum_nil, Row.key,
    c.transactionFresh, he, hc, hw, hi, Option.map_none, Option.map_some, Option.getD_none,
    Option.getD_some]
  ring

theorem CancelCommit.total {m : Uuid} {id : Text} (c : CancelCommit d m id)
    (hnd : (c.writes.map Row.key).Nodup) :
    Table.total f (d.install c.writes) = d.total f +
      (f (.intent c.newIntent) - f (.intent c.intent)) := by
  have hi : d.get (.intent c.newIntent.id) = some (.intent c.intent) :=
    Db.intent_eq_some.mp c.intentGet
  rw [Table.total_install f hnd]
  simp only [CancelCommit.writes, List.map_cons, List.map_nil, List.sum_cons, List.sum_nil,
    Row.key, hi, Option.map_some, Option.getD_some, add_zero]

theorem SweepCommit.total {min : ℤ} {w : SettleableWallet} (c : SweepCommit min d w)
    (hnd : (c.writes.map Row.key).Nodup) :
    Table.total f (d.install c.writes) = d.total f +
      (f (.transaction ⟨c.transactionId, .payout⟩) + f (.entry c.entry) +
        (f (.wallet c.newWallet) - f (.wallet c.wallet)) + f (.payout c.payout)) := by
  have hw : d.get (.wallet c.newWallet.id) = some (.wallet c.wallet) :=
    Db.wallet_eq_some.mp c.walletGet
  have he : d.get (.entry c.entry.id) = none := c.entryFresh
  have hp : d.get (.payout c.payout.id) = none := c.payoutFresh
  rw [Table.total_install f hnd]
  simp only [SweepCommit.writes, List.map_cons, List.map_nil, List.sum_cons, List.sum_nil,
    Row.key, c.transactionFresh, he, hp, hw, Option.map_none, Option.map_some, Option.getD_none,
    Option.getD_some]
  ring

theorem PaidCommit.total {p : PayoutRow} (c : PaidCommit d p)
    (hnd : (c.writes.map Row.key).Nodup) :
    Table.total f (d.install c.writes) = d.total f +
      (f (.payout c.newRow) - f (.payout c.row) +
        (c.outbox.rows.map (fun e => f (.event e))).sum) := by
  have hid : c.newRow.id = p.id := by
    show c.row.id = p.id
    exact Db.id_of_payout c.rowGet
  have hp : d.get (.payout c.newRow.id) = some (.payout c.row) := by
    rw [hid]
    exact Db.payout_eq_some.mp c.rowGet
  rw [Table.total_install f hnd, PaidCommit.writes, List.map_cons, List.sum_cons,
    c.outbox.sum_writes f]
  simp only [Row.key, hp, Option.map_some, Option.getD_some]

theorem ReversalCommit.total {p : PayoutRow} (c : ReversalCommit d p)
    (hnd : (c.writes.map Row.key).Nodup) :
    Table.total f (d.install c.writes) = d.total f +
      (f (.transaction ⟨c.transactionId, .payoutReversal⟩) + f (.entry c.entry) +
        (f (.wallet c.newWallet) - f (.wallet c.wallet)) +
        (f (.payout c.newRow) - f (.payout c.row)) +
        (c.outbox.rows.map (fun e => f (.event e))).sum) := by
  have hw : d.get (.wallet c.newWallet.id) = some (.wallet c.wallet) :=
    Db.wallet_eq_some.mp c.walletGet
  have hid : c.newRow.id = p.id := by
    show c.row.id = p.id
    exact Db.id_of_payout c.rowGet
  have hp : d.get (.payout c.newRow.id) = some (.payout c.row) := by
    rw [hid]
    exact Db.payout_eq_some.mp c.rowGet
  have he : d.get (.entry c.entry.id) = none := c.entryFresh
  rw [Table.total_install f hnd, ReversalCommit.writes, List.map_append, List.sum_append,
    c.outbox.sum_writes f]
  simp only [List.map_cons, List.map_nil, List.sum_cons, List.sum_nil, Row.key,
    c.transactionFresh, he, hw, hp, Option.map_none, Option.map_some, Option.getD_none,
    Option.getD_some]
  ring

/-- Row versions that the summand does not tell from the rows they replace. -/
theorem total_same {ws : List Row} (hnd : (ws.map Row.key).Nodup)
    (h : ∀ r ∈ ws, ((d.get r.key).map f).getD 0 = f r) :
    Table.total f (d.install ws) = d.total f := by
  rw [Table.total_install f hnd]
  have hzero : (ws.map (fun r => f r - ((d.get r.key).map f).getD 0)).sum = 0 := by
    apply List.sum_eq_zero
    intro x hx
    obtain ⟨r, hr, rfl⟩ := List.mem_map.mp hx
    rw [h r hr, sub_self]
  rw [hzero, add_zero]

/-- A summand over the other tables does not see `idempotency_keys`. -/
theorem KeyWrite.total {s : Stmt} {r : Resp s} {ws : List Row} (h : KeyWrite d s r ws)
    (hf : ∀ slot, f (.idempotency slot) = 0) : Table.total f (d.install ws) = d.total f := by
  obtain rfl | ⟨slot, rfl⟩ := h.writes
  · rfl
  refine total_same _ (List.nodup_singleton _) ?_
  intro r hr
  rw [List.mem_singleton] at hr
  rw [hr, hf]
  cases hx : d.get (Row.idempotency slot).key with
  | none => rfl
  | some x =>
    have hkey := Table.key_of_get hx
    cases x with
    | idempotency slot' => exact hf slot'
    | _ => simp at hkey

end PaymentApis
