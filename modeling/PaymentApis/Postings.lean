import PaymentApis.Money
import PaymentApis.Intents

/-!
# The entries of a transaction

Nothing in the schema says which entries a ledger transaction has. They follow
from the four units of work that post: each writes a new transaction together
with all of its entries, and nobody else writes entries.
-/

namespace PaymentApis

open TxStore

/-! ## What is stated -/

/-- The entries of a transaction, in the order they were posted. -/
def Db.entriesOf (d : Db) (transactionId : Uuid) : List LedgerEntryRow :=
  d.entries.filter (fun e => decide (e.transactionId = transactionId))

/-- A transaction has exactly the entries of its type; nothing creates a deposit
or a withdrawal. -/
def Db.Posted (d : Db) (t : TransactionRow) : Prop :=
  match t.type with
  | .transfer => ∃ debit credit, d.entriesOf t.id = [debit, credit] ∧
      debit.direction = .debit ∧ credit.direction = .credit ∧
      0 < debit.amount.val ∧ debit.amount = credit.amount ∧
      debit.walletId ≠ credit.walletId ∧ debit.currency = credit.currency
  | .charge => ∃ credit, d.entriesOf t.id = [credit] ∧ credit.direction = .credit
  | .payoutReversal => ∃ credit, d.entriesOf t.id = [credit] ∧ credit.direction = .credit
  | .payout => ∃ debit, d.entriesOf t.id = [debit] ∧ debit.direction = .debit
  | .deposit | .withdrawal => False

/-- An entry is in the currency of its wallet. -/
def Db.Denominated (d : Db) (e : LedgerEntryRow) : Prop :=
  ∃ w ∈ d.wallets, w.id = e.walletId ∧ w.currency = e.currency

theorem Db.Posted.of_entries {d d' : Db} {t : TransactionRow} (h : d.Posted t)
    (hsame : d'.entriesOf t.id = d.entriesOf t.id) : d'.Posted t := by
  unfold Db.Posted at h ⊢
  rw [hsame]
  exact h

/-! ## One commit -/

/-- The entries among the row versions of a commit that belong to a transaction. -/
def postedIn (ws : List Row) (transactionId : Uuid) : List LedgerEntryRow :=
  (ws.filterMap Row.asEntry).filter (fun e => decide (e.transactionId = transactionId))

theorem Outbox.filterMap_asEntry {d : Db} {m : Uuid} {type : EventType} {data : EventData}
    (o : Outbox d m type data) : o.writes.filterMap Row.asEntry = [] := by
  rw [List.filterMap_eq_nil_iff]
  intro r hr
  obtain ⟨e, -, rfl⟩ := List.mem_map.mp hr
  rfl

section Commit

variable {min : ℤ} {log : List Ev} {now : ℕ} {d : Db} {it : Item} {ws : List Row}

theorem Commit.entriesOf (h : Commit min log now d it ws) (id : Uuid) :
    Db.entriesOf (d.install ws) id = d.entriesOf id ++ postedIn ws id := by
  have hentries : Db.entries (d.install ws) = d.entries ++ ws.filterMap Row.asEntry := by
    refine Table.filterMap_install ?_ h.nodup ?_
    · intro x y hxy hx
      cases x <;> cases y <;> simp [Row.asEntry] at hxy hx ⊢
    · intro r hr
      cases r with
      | entry e => exact Or.inr (h.fresh _ hr rfl)
      | _ => exact Or.inl rfl
  rw [Db.entriesOf, hentries, List.filter_append]
  rfl

/-- A commit posts nothing to the transactions that are there. -/
theorem Commit.postedIn_old (h : Commit min log now d it ws) {t : TransactionRow}
    (ht : t ∈ d.transactions) : postedIn ws t.id = [] := by
  rw [postedIn, List.filter_eq_nil_iff]
  intro e he hid
  obtain ⟨r, hr, hre⟩ := List.mem_filterMap.mp he
  rw [Row.asEntry_eq_some.mp hre] at hr
  obtain ⟨t', hid', ht'⟩ := h.entry_write hr
  have hfresh := h.fresh _ ht' rfl
  rw [Row.key, hid', of_decide_eq_true hid, Db.mem_transactions.mp ht] at hfresh
  simp at hfresh

/-- A commit posts the entries of each transaction it adds. -/
theorem Commit.postedIn_new (h : Commit min log now d it ws) {t : TransactionRow}
    (ht : Row.transaction t ∈ ws) (hnone : d.entriesOf t.id = []) :
    Db.Posted (d.install ws) t := by
  have hof := h.entriesOf t.id
  rw [hnone, List.nil_append] at hof
  unfold Db.Posted
  rw [hof]
  cases h with
  | transfer c =>
    obtain rfl := by simpa [TransferCommit.writes] using ht
    refine ⟨⟨c.debitId, c.transactionId, c.source.id, .debit, c.amount, c.source.currency,
      c.positive⟩, ⟨c.creditId, c.transactionId, c.dest.id, .credit, c.amount, c.dest.currency,
      c.positive⟩, ?_, rfl, rfl, c.positive, rfl, c.different, c.sameCurrency⟩
    simp [postedIn, TransferCommit.writes, List.filterMap_cons, Row.asEntry]
  | confirm c =>
    obtain rfl := by simpa [ConfirmCommit.writes, Outbox.writes] using ht
    refine ⟨c.entry, ?_, rfl⟩
    simp [postedIn, ConfirmCommit.writes, List.filterMap_cons, Row.asEntry, c.outbox.filterMap_asEntry,
      ConfirmCommit.entry]
  | sweep c =>
    obtain rfl := by simpa [SweepCommit.writes] using ht
    refine ⟨c.entry, ?_, rfl⟩
    simp [postedIn, SweepCommit.writes, List.filterMap_cons, Row.asEntry, SweepCommit.entry]
  | reversal rest place c =>
    obtain rfl := by simpa [ReversalCommit.writes, Outbox.writes] using ht
    refine ⟨c.entry, ?_, rfl⟩
    simp [postedIn, ReversalCommit.writes, List.filterMap_cons, Row.asEntry, c.outbox.filterMap_asEntry,
      ReversalCommit.entry]
  | claimDue limit m rows idle nodup claimed =>
    obtain ⟨p, -, hp⟩ := List.mem_map.mp ht
    simp at hp
  | keyed s r ws hkey => obtain rfl | ⟨slot, rfl⟩ := hkey.writes <;> simp at ht
  | _ => simp [CancelCommit.writes, PaidCommit.writes, Outbox.writes] at ht

/-- Entries are posted in the currency of their wallet; for a reversal that is
the currency the payout was swept in. -/
theorem Commit.entry_currency (h : Commit min log now d it ws) (hb : d.SourcesBound)
    {e : LedgerEntryRow} (he : Row.entry e ∈ ws) :
    ∃ w, d.wallet e.walletId = some w ∧ w.currency = e.currency := by
  cases h with
  | transfer c =>
    simp only [TransferCommit.writes, List.mem_cons, reduceCtorEq, Row.entry.injEq, false_or,
      List.not_mem_nil, or_false] at he
    rcases he with rfl | rfl
    · exact ⟨c.source, c.sourceGet, rfl⟩
    · exact ⟨c.dest, c.destGet, rfl⟩
  | confirm c =>
    obtain rfl : e = c.entry := by simpa [ConfirmCommit.writes, Outbox.writes] using he
    exact ⟨c.wallet, c.walletGet, c.walletCurrency⟩
  | sweep c =>
    obtain rfl : e = c.entry := by simpa [SweepCommit.writes] using he
    exact ⟨c.wallet, c.walletGet, rfl⟩
  | @reversal p rest place c =>
    obtain rfl : e = c.entry := by simpa [ReversalCommit.writes, Outbox.writes] using he
    have hid : c.row.id = p.id := Db.id_of_payout c.rowGet
    have hrow : c.row ∈ d.payouts := by
      rw [Db.mem_payouts, hid]
      exact Db.payout_eq_some.mp c.rowGet
    obtain ⟨w, hw, -, hcurrency⟩ := hb c.row hrow
    have hsame := c.same
    simp only [Row.fixed, Row.payout.injEq, PayoutRow.mk.injEq] at hsame
    obtain ⟨-, -, hwallet, -, hrowCurrency, -⟩ := hsame
    refine ⟨w, ?_, ?_⟩
    · show d.wallet c.wallet.id = some w
      rw [c.walletId, ← hwallet, hw]
    · show w.currency = p.currency
      rw [hcurrency, hrowCurrency]
  | claimDue limit m rows idle nodup claimed =>
    obtain ⟨p, -, hp⟩ := List.mem_map.mp he
    simp at hp
  | keyed s r ws hkey => obtain rfl | ⟨slot, rfl⟩ := hkey.writes <;> simp at he
  | _ => simp [CancelCommit.writes, PaidCommit.writes, Outbox.writes] at he

end Commit

/-! ## The invariant -/

structure Db.WellPosted (d : Db) : Prop where
  posted : ∀ t ∈ d.transactions, d.Posted t
  owned : ∀ e ∈ d.entries, ∃ t ∈ d.transactions, t.id = e.transactionId
  denominated : ∀ e ∈ d.entries, d.Denominated e
  sources : d.SourcesBound

theorem Commit.wellPosted {min : ℤ} {log : List Ev} {now : ℕ} {d : Db} {it : Item}
    {ws : List Row} (h : Commit min log now d it ws) (hd : d.WellPosted) :
    Db.WellPosted (d.install ws) := by
  refine ⟨?_, ?_, ?_, h.sourcesBound hd.sources⟩
  · intro t ht
    rcases h.mem_transactions.mp ht with hnew | hold
    · apply h.postedIn_new hnew
      rw [Db.entriesOf, List.filter_eq_nil_iff]
      intro e he hid
      obtain ⟨t', ht', hid'⟩ := hd.owned e he
      have hfresh := h.fresh _ hnew rfl
      rw [Row.key, ← of_decide_eq_true hid, ← hid', Db.mem_transactions.mp ht'] at hfresh
      simp at hfresh
    · apply (hd.posted t hold).of_entries
      rw [h.entriesOf, h.postedIn_old hold, List.append_nil]
  · intro e he
    rcases h.mem_entries.mp he with hnew | hold
    · obtain ⟨t, hid, ht⟩ := h.entry_write hnew
      exact ⟨t, h.mem_transactions.mpr (Or.inl ht), hid⟩
    · obtain ⟨t, ht, hid⟩ := hd.owned e hold
      exact ⟨t, h.mem_transactions.mpr (Or.inr ht), hid⟩
  · have hkeep : ∀ {e : LedgerEntryRow} {w : WalletRow}, w ∈ d.wallets → w.id = e.walletId →
        w.currency = e.currency → Db.Denominated (d.install ws) e := by
      intro e w hw hid hcurrency
      obtain ⟨w', hw', hid', -, hcurrency'⟩ := h.keeps_wallet hw
      exact ⟨w', hw', hid'.trans hid, hcurrency'.trans hcurrency⟩
    intro e he
    rcases h.mem_entries.mp he with hnew | hold
    · obtain ⟨w, hget, hcurrency⟩ := h.entry_currency hd.sources hnew
      have hid := Db.id_of_wallet hget
      refine hkeep (w := w) ?_ hid hcurrency
      rw [Db.mem_wallets, hid]
      exact Db.wallet_eq_some.mp hget
    · obtain ⟨w, hw, hid, hcurrency⟩ := hd.denominated e hold
      exact hkeep hw hid hcurrency

theorem wellPosted {min : ℤ} {P : Abs → Prop} {a : Abs} (h : AReach min P a) :
    Db.WellPosted a.db := by
  refine AReach.db_invariant Db.WellPosted ?_ ?_ h
  · refine ⟨?_, ?_, ?_, ?_⟩ <;>
      simp [Table.empty, Db.transactions, Db.entries, Db.payouts, Db.SourcesBound]
  · exact fun log it p now d _ hg hd => Commit.wellPosted hg hd

/-! ## Every run -/

theorem astep_keeps_entries {min : ℤ} {a a' : Abs} (hstep : TxStore.AStep (commits min) a a')
    {t : TransactionRow} (ht : t ∈ Db.transactions a.db) :
    t ∈ Db.transactions a'.db ∧ Db.entriesOf a'.db t.id = Db.entriesOf a.db t.id := by
  cases hstep with
  | start | tick | fault | quiet => exact ⟨ht, rfl⟩
  | commit i log it p live _ _ hg =>
    refine ⟨(Commit.mem_transactions hg).mpr (Or.inr ht), ?_⟩
    show Db.entriesOf (Table.install a.db p.writes) t.id = _
    rw [Commit.entriesOf hg, Commit.postedIn_old hg ht, List.append_nil]

/-- A transaction and its entries stay as they are, whatever happens later. -/
theorem keeps_entries {min : ℤ} {t : TransactionRow} : ∀ {ls : List Step} {s s' : Sys},
    Reachable min s → s.run engine (program min) ls = some s' → t ∈ Db.transactions s.db →
    t ∈ Db.transactions s'.db ∧ Db.entriesOf s'.db t.id = Db.entriesOf s.db t.id
  | [], s, s', _, hrun, ht => by
      simp only [Sys.run, Option.some.injEq] at hrun
      exact hrun ▸ ⟨ht, rfl⟩
  | l :: ls, s, s', hs, hrun, ht => by
      simp only [Sys.run, Option.bind_eq_some_iff] at hrun
      obtain ⟨m, hm, hrest⟩ := hrun
      have hstep : t ∈ Db.transactions m.db ∧ Db.entriesOf m.db t.id = Db.entriesOf s.db t.id :=
        astep_keeps_entries (step_refines hs hm) ht
      obtain ⟨hlater, hsame⟩ := keeps_entries (.step hs hm trivial) hrest hstep.1
      exact ⟨hlater, hsame.trans hstep.2⟩

/-- In every state, each transaction has exactly the entries of its type, each
entry is one of a transaction and in the currency of its wallet, and no entry is
added to a transaction later. -/
theorem ledger_well_formed {min : ℤ} {s : Sys} (h : Reachable min s) :
    (∀ t ∈ Db.transactions s.db, Db.Posted s.db t) ∧
      (∀ e ∈ Db.entries s.db, (∃ t ∈ Db.transactions s.db, t.id = e.transactionId) ∧
        Db.Denominated s.db e) ∧
      ∀ (ls : List Step) (s' : Sys), s.run engine (program min) ls = some s' →
        ∀ t ∈ Db.transactions s.db, t ∈ Db.transactions s'.db ∧
          Db.entriesOf s'.db t.id = Db.entriesOf s.db t.id := by
  have hreach : AReach min (fun _ => True) s.abs := reach_refines (fun _ _ _ _ => trivial) h
  have hposted : Db.WellPosted s.abs.db := wellPosted hreach
  refine ⟨hposted.posted, ?_, ?_⟩
  · exact fun e he => ⟨hposted.owned e he, hposted.denominated e he⟩
  · exact fun ls s' hrun t ht => keeps_entries h hrun ht

theorem ledger_well_formed_fifty : ∃ s : Sys, ∃ t ∈ Db.transactions s.db, t.type = .transfer ∧
    Db.Posted s.db t := by
  have hrun : (runFrom 100 (payAndTransfer fifty transferFifty)).any (fun s : Sys =>
      decide (∃ t ∈ Db.transactions s.db, t.type = .transfer)) = true := by decide +kernel
  obtain ⟨s, hs, htransfer⟩ := exists_of_run hrun
  obtain ⟨t, ht, htype⟩ := of_decide_eq_true htransfer
  exact ⟨s, t, ht, htype, (ledger_well_formed hs).1 t ht⟩

end PaymentApis
