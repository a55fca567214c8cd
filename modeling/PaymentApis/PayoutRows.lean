import PaymentApis.Postings

/-!
# What a payout row is bound to

A sweep resolves the account before it locks the wallet, and reads the wallet
again under the lock. Accounts keep their merchant and currency, so a stale
list entry still names an account of the wallet's merchant and currency.
-/

namespace PaymentApis

open TxStore

/-! ## What is stated -/

/-- The account a payout goes to, of its merchant and currency. -/
def Db.HasAccount (d : Db) (p : PayoutRow) : Prop :=
  ∃ a, d.account p.payoutAccountId = some a ∧ a.merchantId = p.merchantId ∧
    a.currency = p.currency

/-- The transaction of a payout debits its amount from its wallet, and nothing else. -/
def Db.Debited (d : Db) (p : PayoutRow) : Prop :=
  ⟨p.transactionId, .payout⟩ ∈ d.transactions ∧ ∃ e, d.entriesOf p.transactionId = [e] ∧
    e.direction = .debit ∧ e.amount = p.amount ∧ e.walletId = p.walletId

/-- The reversal of a payout credits its amount to its wallet, and nothing else. -/
def Db.Reversed (d : Db) (p : PayoutRow) : Prop :=
  ∃ t, p.reversalTransactionId = some t ∧ ⟨t, .payoutReversal⟩ ∈ d.transactions ∧
    ∃ e, d.entriesOf t = [e] ∧ e.direction = .credit ∧ e.amount = p.amount ∧
      e.walletId = p.walletId

structure Db.PayoutBound (min : ℤ) (d : Db) (p : PayoutRow) : Prop where
  source : d.HasSource p
  account : d.HasAccount p
  enough : min ≤ p.amount.val
  debited : d.Debited p

/-! ## One commit -/

section Commit

variable {min : ℤ} {log : List Ev} {now : ℕ} {d : Db} {it : Item} {ws : List Row}

/-- New payouts come from sweeps. -/
theorem Commit.payout_new (h : Commit min log now d it ws) {x : PayoutRow}
    (hx : Row.payout x ∈ ws) (hnone : d.payout x.id = none) :
    ∃ (w : SettleableWallet) (c : SweepCommit min d w), ws = c.writes ∧ x = c.payout := by
  cases h with
  | sweep c =>
    obtain rfl : x = c.payout := by simpa [SweepCommit.writes] using hx
    exact ⟨_, c, rfl, rfl⟩
  | claimDue limit m rows idle nodup claimed =>
    obtain ⟨p, hp, hpx⟩ := List.mem_map.mp hx
    obtain rfl : p = x := by simpa using hpx
    obtain ⟨q, hq, -⟩ := claimed p hp
    simp [hq] at hnone
  | markRetry p rest row message place remaining rowGet same =>
    obtain rfl := by simpa using hx
    rw [show d.payout row.id = some row from Db.id_of_payout rowGet ▸ rowGet] at hnone
    simp at hnone
  | @paid p rest place c =>
    obtain rfl : x = c.newRow := by simpa [PaidCommit.writes, Outbox.writes] using hx
    have hget : d.payout c.newRow.id = some c.row := by
      show d.payout c.row.id = some c.row
      rw [Db.id_of_payout c.rowGet, c.rowGet]
    simp [hget] at hnone
  | @reversal p rest place c =>
    obtain rfl : x = c.newRow := by simpa [ReversalCommit.writes, Outbox.writes] using hx
    have hget : d.payout c.newRow.id = some c.row := by
      show d.payout c.row.id = some c.row
      rw [Db.id_of_payout c.rowGet, c.rowGet]
    simp [hget] at hnone
  | keyed s r ws hkey => obtain rfl | ⟨slot, rfl⟩ := hkey.writes <;> simp at hx
  | _ => simp [TransferCommit.writes, ConfirmCommit.writes, CancelCommit.writes,
      Outbox.writes] at hx

/-- So do the ledger transactions of type `payout`. -/
theorem Commit.payoutTransaction_new (h : Commit min log now d it ws) {t : TransactionRow}
    (ht : Row.transaction t ∈ ws) (htype : t.type = .payout) :
    ∃ (w : SettleableWallet) (c : SweepCommit min d w), ws = c.writes ∧ t.id = c.transactionId := by
  cases h with
  | sweep c =>
    obtain rfl := by simpa [SweepCommit.writes] using ht
    exact ⟨_, c, rfl, rfl⟩
  | transfer x =>
    obtain rfl := by simpa [TransferCommit.writes] using ht
    simp at htype
  | confirm x =>
    obtain rfl := by simpa [ConfirmCommit.writes, Outbox.writes] using ht
    simp at htype
  | reversal rest place x =>
    obtain rfl := by simpa [ReversalCommit.writes, Outbox.writes] using ht
    simp at htype
  | claimDue limit m rows idle nodup claimed =>
    obtain ⟨p, -, hp⟩ := List.mem_map.mp ht
    simp at hp
  | keyed s r ws hkey => obtain rfl | ⟨slot, rfl⟩ := hkey.writes <;> simp at ht
  | _ => simp [CancelCommit.writes, PaidCommit.writes, Outbox.writes] at ht

/-- A payout after a commit is a later version of an old one, or comes from a
sweep. -/
theorem Commit.payout_later (h : Commit min log now d it ws) {p' : PayoutRow}
    (hp' : p' ∈ Db.payouts (d.install ws)) :
    (∃ p ∈ d.payouts, p.id = p'.id ∧ (Row.payout p').fixed = (Row.payout p).fixed) ∨
      ∃ (w : SettleableWallet) (c : SweepCommit min d w), ws = c.writes ∧ p' = c.payout := by
  have hget' : Db.payout (d.install ws) p'.id = some p' :=
    Db.payout_eq_some.mpr (Db.mem_payouts.mp hp')
  cases hold : d.payout p'.id with
  | some p =>
    have hid : p.id = p'.id := Db.id_of_payout hold
    rw [← hid] at hold
    obtain ⟨p'', hp'', hfixed⟩ := (Db.HasPayout.of_get hold).later h.later
    rw [hid, hget', Option.some.injEq] at hp''
    subst hp''
    exact Or.inl ⟨p, Db.mem_payouts.mpr (Db.payout_eq_some.mp hold), hid, hfixed⟩
  | none =>
    have hrow := Table.mem_of_get (Db.mem_payouts.mp hp')
    rcases (Table.mem_install h.nodup).mp hrow with hmem | ⟨hmem, -⟩
    · exact Or.inr (h.payout_new hmem hold)
    · have hin := Db.payout_eq_some.mpr (Table.get_of_mem hmem)
      simp [hold] at hin

/-- The next version of a payout has the old reversal and status, unless it is
paid, or reversed. -/
theorem Commit.payout_next (h : Commit min log now d it ws) {id : Uuid} {p p' : PayoutRow}
    (hp : d.payout id = some p) (hp' : Db.payout (d.install ws) id = some p') :
    (p'.reversalTransactionId = p.reversalTransactionId ∧
      (p'.status = p.status ∨ p'.status = .paid)) ∨
    ∃ (q : PayoutRow) (c : ReversalCommit d q), ws = c.writes ∧ p' = c.newRow := by
  have hrow := Table.mem_of_get (Db.payout_eq_some.mp hp')
  rcases (Table.mem_install h.nodup).mp hrow with hmem | ⟨hmem, -⟩
  · obtain rfl := Db.id_of_payout hp'
    cases h with
    | claimDue limit m rows idle nodup claimed =>
      obtain ⟨q, hq, hqp⟩ := List.mem_map.mp hmem
      obtain rfl : q = p' := by simpa using hqp
      obtain ⟨r, hr, -, -, heq⟩ := claimed q hq
      obtain rfl : r = p := Option.some.inj (hr.symm.trans hp)
      left
      rw [heq]
      exact ⟨rfl, .inl rfl⟩
    | markRetry q rest row message place remaining rowGet same =>
      obtain rfl := by simpa using hmem
      have hid : row.id = q.id := Db.id_of_payout rowGet
      obtain rfl : row = p := Option.some.inj (rowGet.symm.trans (hid ▸ hp))
      exact .inl ⟨rfl, .inl rfl⟩
    | sweep c =>
      obtain rfl : p' = c.payout := by simpa [SweepCommit.writes] using hmem
      have hfresh : d.get (.payout c.payout.id) = none := c.payoutFresh
      rw [Db.payout_eq_some.mp hp] at hfresh
      cases hfresh
    | @paid q rest place c =>
      obtain rfl : p' = c.newRow := by simpa [PaidCommit.writes, Outbox.writes] using hmem
      have hid : c.row.id = q.id := Db.id_of_payout c.rowGet
      obtain rfl : c.row = p := Option.some.inj (c.rowGet.symm.trans (hid ▸ hp))
      exact .inl ⟨rfl, .inr rfl⟩
    | @reversal q rest place c =>
      obtain rfl : p' = c.newRow := by simpa [ReversalCommit.writes, Outbox.writes] using hmem
      exact .inr ⟨q, c, rfl, rfl⟩
    | keyed s r ws hkey => obtain rfl | ⟨slot, rfl⟩ := hkey.writes <;> simp at hmem
    | _ => simp [TransferCommit.writes, ConfirmCommit.writes, CancelCommit.writes,
        Outbox.writes] at hmem
  · have hold : d.payout p'.id = some p' := Db.payout_eq_some.mpr (Table.get_of_mem hmem)
    rw [Db.id_of_payout hp', hp] at hold
    obtain rfl := Option.some.inj hold
    exact .inl ⟨rfl, .inl rfl⟩

/-- Every payout has a version after the commit, with the same fixed columns. -/
theorem Commit.keeps_payout (h : Commit min log now d it ws) {p : PayoutRow} (hp : p ∈ d.payouts) :
    ∃ p' ∈ Db.payouts (d.install ws), p'.id = p.id ∧
      (Row.payout p').fixed = (Row.payout p).fixed := by
  have hold : d.HasPayout p := .of_get (Db.payout_eq_some.mpr (Db.mem_payouts.mp hp))
  obtain ⟨p', hget, hfixed⟩ := hold.later h.later
  have hid := Db.id_of_payout hget
  refine ⟨p', ?_, hid, hfixed⟩
  rw [Db.mem_payouts, hid]
  exact Db.payout_eq_some.mp hget

/-- A new transaction has no entries yet. -/
theorem Db.WellPosted.unposted (hd : d.WellPosted) {t : Uuid}
    (hfresh : d.get (.transaction t) = none) : d.entriesOf t = [] := by
  rw [Db.entriesOf, List.filter_eq_nil_iff]
  intro e he hid
  obtain ⟨r, hr, hid'⟩ := hd.owned e he
  exact Db.transaction_ne hr hfresh (hid'.trans (of_decide_eq_true hid))

theorem Db.PayoutBound.commit (h : Commit min log now d it ws) {p p' : PayoutRow}
    (hp : d.PayoutBound min p) (hfixed : (Row.payout p').fixed = (Row.payout p).fixed) :
    Db.PayoutBound min (d.install ws) p' := by
  have hsource := hp.source.later h.later hfixed
  simp only [Row.fixed, Row.payout.injEq, PayoutRow.mk.injEq] at hfixed
  obtain ⟨-, hmerchant, hwallet, haccount, hcurrency, hamount, -, htransaction, -⟩ := hfixed
  obtain ⟨a, ha, hm, hc⟩ := hp.account
  obtain ⟨ht, e, hentries, hdirection, heamount, hewallet⟩ := hp.debited
  refine ⟨hsource, ⟨a, ?_, hm.trans hmerchant.symm, hc.trans hcurrency.symm⟩, ?_, ?_, e, ?_,
    hdirection, ?_, ?_⟩
  · rw [haccount]
    exact Db.account_later ha h.later
  · rw [hamount]
    exact hp.enough
  · rw [htransaction]
    exact h.mem_transactions.mpr (Or.inr ht)
  · rw [htransaction, h.entriesOf, hentries, h.postedIn_old ht, List.append_nil]
  · rw [hamount, heamount]
  · rw [hwallet, hewallet]

/-- What a reversal writes is credited. -/
theorem ReversalCommit.reversed {p : PayoutRow} (c : ReversalCommit d p)
    (h : Commit min log now d it c.writes) (hd : d.WellPosted) :
    Db.Reversed (d.install c.writes) c.newRow := by
  have hsame := c.same
  simp only [Row.fixed, Row.payout.injEq, PayoutRow.mk.injEq] at hsame
  obtain ⟨-, -, hwallet, -, -, hamount, -⟩ := hsame
  have hof := h.entriesOf c.transactionId
  rw [hd.unposted c.transactionFresh, List.nil_append] at hof
  refine ⟨c.transactionId, rfl, ?_, c.entry, ?_, rfl, hamount.symm, c.walletId.trans hwallet.symm⟩
  · exact h.mem_transactions.mpr (.inl (by simp [ReversalCommit.writes]))
  · rw [hof]
    simp [postedIn, ReversalCommit.writes, List.filterMap_cons, Row.asEntry,
      c.outbox.filterMap_asEntry, ReversalCommit.entry]

/-- What has been credited stays so, also when a payout is reversed again. -/
theorem Db.Reversed.commit (h : Commit min log now d it ws) (hd : d.WellPosted) {id : Uuid}
    {p p' : PayoutRow} (hp : d.payout id = some p)
    (hp' : Db.payout (d.install ws) id = some p') (hc : d.Reversed p) :
    Db.Reversed (d.install ws) p' := by
  rcases h.payout_next hp hp' with ⟨hreversal, -⟩ | ⟨q, c, rfl, rfl⟩
  · obtain ⟨t, ht, hrow, e, hentries, hdirection, hamount, hwallet⟩ := hc
    obtain rfl := Db.id_of_payout hp
    obtain ⟨p'', hp'', hfixed⟩ := (Db.HasPayout.of_get hp).later h.later
    obtain rfl : p' = p'' := Option.some.inj (hp'.symm.trans hp'')
    simp only [Row.fixed, Row.payout.injEq, PayoutRow.mk.injEq] at hfixed
    obtain ⟨-, -, hsameWallet, -, -, hsameAmount, -⟩ := hfixed
    refine ⟨t, hreversal.trans ht, h.mem_transactions.mpr (.inr hrow), e, ?_, hdirection, ?_, ?_⟩
    · rw [h.entriesOf, hentries, h.postedIn_old hrow, List.append_nil]
    · rw [hsameAmount, hamount]
    · rw [hsameWallet, hwallet]
  · exact c.reversed h hd

/-- What a sweep writes is bound. -/
theorem SweepCommit.payoutBound {w : SettleableWallet} (c : SweepCommit min d w)
    (h : Commit min log now d it c.writes) (hd : d.WellPosted) :
    Db.PayoutBound min (d.install c.writes) c.payout := by
  have hwallet : d.HasSource c.payout := ⟨c.wallet, c.walletGet, rfl, rfl⟩
  obtain ⟨a, ha, hm, hcurrency, -⟩ := c.account
  have hnone := hd.unposted c.transactionFresh
  refine ⟨hwallet.later h.later rfl, ⟨a, Db.account_later ha h.later, hm, hcurrency⟩, c.enough, ?_,
    c.entry, ?_, rfl, rfl, rfl⟩
  · exact h.mem_transactions.mpr (Or.inl (by simp [SweepCommit.writes, SweepCommit.payout]))
  · show Db.entriesOf (Table.install d c.writes) c.transactionId = _
    rw [h.entriesOf, hnone]
    simp [postedIn, SweepCommit.writes, List.filterMap_cons, Row.asEntry, SweepCommit.entry]

end Commit

/-! ## The invariant -/

/-- A failed payout has a reversal, and whatever reversal is on a row is posted. -/
structure Db.ReversalsPosted (d : Db) : Prop where
  reversed : ∀ p ∈ d.payouts, p.status = .failed → p.reversalTransactionId.isSome
  credited : ∀ p ∈ d.payouts, p.reversalTransactionId.isSome → d.Reversed p

theorem Commit.reversalsPosted {min : ℤ} {log : List Ev} {now : ℕ} {d : Db} {it : Item}
    {ws : List Row} (h : Commit min log now d it ws) (hposted : d.WellPosted)
    (hd : d.ReversalsPosted) : Db.ReversalsPosted (d.install ws) := by
  have hold : ∀ {p p' : PayoutRow}, d.payout p'.id = some p → p ∈ d.payouts := by
    intro p p' hp
    exact Db.mem_payouts.mpr (Db.payout_eq_some.mp (Db.id_of_payout hp ▸ hp))
  have hnew : ∀ {p' : PayoutRow}, p' ∈ Db.payouts (d.install ws) →
      Db.payout (d.install ws) p'.id = some p' :=
    fun hp' => Db.payout_eq_some.mpr (Db.mem_payouts.mp hp')
  have hswept : ∀ {p' : PayoutRow}, p' ∈ Db.payouts (d.install ws) → d.payout p'.id = none →
      p'.status = .pending ∧ p'.reversalTransactionId = none := by
    intro p' hp' hnone
    rcases (Table.mem_install h.nodup).mp (Table.mem_of_get (Db.mem_payouts.mp hp')) with
      hmem | ⟨hmem, -⟩
    · obtain ⟨w, c, -, rfl⟩ := h.payout_new hmem hnone
      exact ⟨rfl, rfl⟩
    · have hin : d.payout p'.id = some p' := Db.payout_eq_some.mpr (Table.get_of_mem hmem)
      rw [hnone] at hin
      cases hin
  refine ⟨?_, ?_⟩
  · intro p' hp' hfailed
    cases hp : d.payout p'.id with
    | none => simp [(hswept hp' hp).1] at hfailed
    | some p =>
      rcases h.payout_next hp (hnew hp') with ⟨hreversal, hstatus | hpaid⟩ | ⟨q, c, -, rfl⟩
      · rw [hreversal]
        exact hd.reversed p (hold hp) (hstatus ▸ hfailed)
      · simp [hpaid] at hfailed
      · rfl
  · intro p' hp' hsome
    cases hp : d.payout p'.id with
    | none => simp [(hswept hp' hp).2] at hsome
    | some p =>
      rcases h.payout_next hp (hnew hp') with ⟨hreversal, -⟩ | ⟨q, c, rfl, rfl⟩
      · exact (hd.credited p (hold hp) (hreversal ▸ hsome)).commit h hposted hp (hnew hp')
      · exact c.reversed h hposted

theorem reversalsPosted {min : ℤ} {P : Abs → Prop} {a : Abs} (h : AReach min P a) :
    Db.ReversalsPosted a.db := by
  have hboth : Db.WellPosted a.db ∧ Db.ReversalsPosted a.db := by
    refine AReach.db_invariant (fun d => Db.WellPosted d ∧ Db.ReversalsPosted d) ?_ ?_ h
    · refine ⟨⟨?_, ?_, ?_, ?_⟩, ?_, ?_⟩ <;>
        simp [Table.empty, Db.transactions, Db.entries, Db.payouts, Db.SourcesBound]
    · exact fun log it p now d _ hg hd =>
        ⟨Commit.wellPosted hg hd.1, Commit.reversalsPosted hg hd.1 hd.2⟩
  exact hboth.2

structure Db.PayoutsBound (min : ℤ) (d : Db) : Prop where
  bound : ∀ p ∈ d.payouts, d.PayoutBound min p
  unique : ∀ p ∈ d.payouts, ∀ q ∈ d.payouts, p.transactionId = q.transactionId → p.id = q.id
  owned : ∀ t ∈ d.transactions, t.type = .payout → ∃ p ∈ d.payouts, p.transactionId = t.id

theorem Commit.payoutsBound {min : ℤ} {log : List Ev} {now : ℕ} {d : Db} {it : Item}
    {ws : List Row} (h : Commit min log now d it ws) (hposted : d.WellPosted)
    (hd : d.PayoutsBound min) : Db.PayoutsBound min (d.install ws) := by
  have hkept : ∀ {p p' : PayoutRow}, (Row.payout p').fixed = (Row.payout p).fixed →
      p'.transactionId = p.transactionId := by
    intro p p' hfixed
    simp only [Row.fixed, Row.payout.injEq, PayoutRow.mk.injEq] at hfixed
    exact hfixed.2.2.2.2.2.2.2.1
  -- an old payout and one from this sweep have different transactions
  have hnew : ∀ {p : PayoutRow} {w : SettleableWallet} (c : SweepCommit min d w), p ∈ d.payouts →
      p.transactionId ≠ c.transactionId := by
    intro p w c hp
    exact Db.transaction_ne (hd.bound p hp).debited.1 c.transactionFresh
  refine ⟨?_, ?_, ?_⟩
  · intro p' hp'
    rcases h.payout_later hp' with ⟨p, hp, -, hfixed⟩ | ⟨w, c, rfl, rfl⟩
    · exact (hd.bound p hp).commit h hfixed
    · exact c.payoutBound h hposted
  · intro p' hp' q' hq' hsame
    rcases h.payout_later hp' with ⟨p, hp, hpid, hpfixed⟩ | ⟨w, c, hws, rfl⟩
    · rcases h.payout_later hq' with ⟨q, hq, hqid, hqfixed⟩ | ⟨w, c, -, rfl⟩
      · rw [hkept hpfixed, hkept hqfixed] at hsame
        rw [← hpid, ← hqid]
        exact hd.unique p hp q hq hsame
      · rw [hkept hpfixed] at hsame
        exact absurd hsame (hnew c hp)
    · rcases h.payout_later hq' with ⟨q, hq, hqid, hqfixed⟩ | ⟨w', c', hws', rfl⟩
      · rw [hkept hqfixed] at hsame
        exact absurd hsame.symm (hnew c hq)
      · have hpayouts : c.payout = c'.payout := by
          have hmem : Row.payout c.payout ∈ c'.writes := by
            rw [← hws', hws]
            simp [SweepCommit.writes]
          simpa [SweepCommit.writes] using hmem
        rw [hpayouts]
  · intro t ht htype
    rcases h.mem_transactions.mp ht with hmem | hold
    · obtain ⟨w, c, rfl, hid⟩ := h.payoutTransaction_new hmem htype
      refine ⟨c.payout, ?_, hid.symm⟩
      rw [Db.mem_payouts]
      exact Table.get_install_of_mem (r := .payout c.payout) h.nodup
        (by simp [SweepCommit.writes])
    · obtain ⟨p, hp, hid⟩ := hd.owned t hold htype
      obtain ⟨p', hp', -, hfixed⟩ := h.keeps_payout hp
      exact ⟨p', hp', (hkept hfixed).trans hid⟩

theorem payoutsBound {min : ℤ} {P : Abs → Prop} {a : Abs} (h : AReach min P a) :
    Db.PayoutsBound min a.db := by
  have hboth : Db.WellPosted a.db ∧ Db.PayoutsBound min a.db := by
    refine AReach.db_invariant (fun d => Db.WellPosted d ∧ Db.PayoutsBound min d) ?_ ?_ h
    · refine ⟨⟨?_, ?_, ?_, ?_⟩, ?_, ?_, ?_⟩ <;>
        simp [Table.empty, Db.transactions, Db.entries, Db.payouts, Db.SourcesBound]
    · exact fun log it p now d _ hg hd =>
        ⟨Commit.wellPosted hg hd.1, Commit.payoutsBound hg hd.1 hd.2⟩
  exact hboth.2

/-! ## Every run -/

/-- Whatever fails or outlives its lease: a failed payout names a reversal in the
ledger that credits its amount to its wallet. -/
theorem failed_credited {min : ℤ} {s : Sys} (h : Reachable min s) :
    ∀ p ∈ Db.payouts s.db, p.status = .failed → Db.Reversed s.db p := by
  have hreach : AReach min (fun _ => True) s.abs := reach_refines (fun _ _ _ _ => trivial) h
  have hposted : Db.ReversalsPosted s.abs.db := reversalsPosted hreach
  exact fun p hp hfailed => hposted.credited p hp (hposted.reversed p hp hfailed)

/-- In every state each payout is bound to a wallet, an account and a ledger
transaction as it should be, and payouts and `payout` transactions correspond
one to one. -/
theorem payout_rows_bound {min : ℤ} {s : Sys} (h : Reachable min s) :
    (∀ p ∈ Db.payouts s.db, Db.HasSource s.db p ∧ Db.HasAccount s.db p ∧ min ≤ p.amount.val ∧
      Db.Debited s.db p) ∧
      (∀ p ∈ Db.payouts s.db, ∀ q ∈ Db.payouts s.db, p.transactionId = q.transactionId → p = q) ∧
      ∀ t ∈ Db.transactions s.db, t.type = .payout →
        ∃! p, p ∈ Db.payouts s.db ∧ p.transactionId = t.id := by
  have hreach : AReach min (fun _ => True) s.abs := reach_refines (fun _ _ _ _ => trivial) h
  have hbound : Db.PayoutsBound min s.abs.db := payoutsBound hreach
  have hunique : ∀ p ∈ Db.payouts s.db, ∀ q ∈ Db.payouts s.db,
      p.transactionId = q.transactionId → p = q := by
    intro p hp q hq hsame
    have hid := hbound.unique p hp q hq hsame
    have hget := Db.mem_payouts.mp hp
    rw [hid, Db.mem_payouts.mp hq] at hget
    simpa using hget.symm
  refine ⟨?_, hunique, ?_⟩
  · intro p hp
    obtain ⟨hsource, haccount, henough, hdebited⟩ := hbound.bound p hp
    exact ⟨hsource, haccount, henough, hdebited⟩
  · intro t ht htype
    obtain ⟨p, hp, hid⟩ := hbound.owned t ht htype
    refine ⟨p, ⟨hp, hid⟩, ?_⟩
    rintro q ⟨hq, hqid⟩
    exact hunique q hq p hp (hqid.trans hid.symm)

theorem payout_rows_bound_swept : ∃ s : Sys, ∃ p ∈ Db.payouts s.db, Db.HasSource s.db p ∧
    Db.HasAccount s.db p ∧ 10 ≤ p.amount.val ∧ Db.Debited s.db p := by
  have hrun : (runFrom 10 (sweptPayout goodAccount)).any (fun s : Sys =>
      decide (∃ p ∈ Db.payouts s.db, p.amount.val = 50)) = true := by decide +kernel
  obtain ⟨s, hs, hpayout⟩ := exists_of_run hrun
  obtain ⟨p, hp, -⟩ := of_decide_eq_true hpayout
  exact ⟨s, p, hp, (payout_rows_bound hs).1 p hp⟩

end PaymentApis
