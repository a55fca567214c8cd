import PaymentApis.Batches
import PaymentApis.Ledger

/-!
# Conservation of money

Per currency: the balances, with the payouts that have not failed, add up to
the charges.
-/

namespace PaymentApis

open TxStore

def Db.balances (d : Db) (c : Currency) : ℤ :=
  (d.wallets.map (fun w => if w.currency = c then w.balance.val else 0)).sum

/-- The amounts of the payouts that are pending or paid. -/
def Db.paidOut (d : Db) (c : Currency) : ℤ :=
  (d.payouts.map (fun p => if p.currency = c ∧ p.status ≠ .failed then p.amount.val else 0)).sum

def Db.charged (d : Db) (c : Currency) : ℤ :=
  (d.charges.map (fun x => if x.currency = c then x.amount.val else 0)).sum

/-- What a row adds to balances plus payouts minus charges. -/
def surplus (c : Currency) : Row → ℤ
  | .wallet w => if w.currency = c then w.balance.val else 0
  | .payout p => if p.currency = c ∧ p.status ≠ .failed then p.amount.val else 0
  | .charge x => -(if x.currency = c then x.amount.val else 0)
  | _ => 0

theorem total_surplus (d : Db) (c : Currency) :
    d.total (surplus c) = d.balances c + d.paidOut c - d.charged c := by
  unfold Db.balances Db.paidOut Db.charged Db.wallets Db.payouts Db.charges Table.total
  induction d.rows with
  | nil => rfl
  | cons r rows ih =>
    rw [List.map_cons, List.sum_cons, ih]
    cases r <;> simp [surplus, Row.asWallet, Row.asPayout, Row.asCharge, List.filterMap_cons] <;>
      ring

/-! ## One commit -/

/-- Every payout was swept from a wallet of its merchant and currency. -/
def Db.SourcesBound (d : Db) : Prop := ∀ p ∈ d.payouts, d.HasSource p

theorem Db.HasSource.later {d d' : Db} {p p' : PayoutRow} (h : d.HasSource p) (hd : d.Later d')
    (hp : (Row.payout p').fixed = (Row.payout p).fixed) : d'.HasSource p' := by
  obtain ⟨w, hw, hm, hc⟩ := h
  have hid := Db.id_of_wallet hw
  obtain ⟨w', hw', hm', hc', -⟩ := (Db.HasWallet.of_get (hid.symm ▸ hw)).later hd
  simp only [Row.fixed, Row.payout.injEq, PayoutRow.mk.injEq] at hp
  obtain ⟨-, hmerchant, hwallet, -, hcurrency, -⟩ := hp
  refine ⟨w', ?_, ?_, ?_⟩
  · rw [hwallet, ← hid]
    exact hw'
  · rw [hm', hm, hmerchant]
  · rw [hc', hc, hcurrency]

theorem Commit.sourcesBound {min : ℤ} {log : List Ev} {now : ℕ} {d : Db} {it : Item}
    {ws : List Row} (h : Commit min log now d it ws) (hb : d.SourcesBound) :
    Db.SourcesBound (d.install ws) := by
  intro p' hp'
  have hget' : Db.payout (d.install ws) p'.id = some p' :=
    Db.payout_eq_some.mpr (Db.mem_payouts.mp hp')
  cases hold : d.payout p'.id with
  | some p =>
    have hid : p.id = p'.id := Db.id_of_payout hold
    rw [← hid] at hold
    obtain ⟨p'', hp'', hfixed⟩ := (Db.HasPayout.of_get hold).later h.later
    rw [hid, hget', Option.some.injEq] at hp''
    subst hp''
    exact (hb p (Db.mem_payouts.mpr (Db.payout_eq_some.mp hold))).later h.later hfixed
  | none =>
    have hmem : Row.payout p' ∈ ws := by
      have hrow := Table.mem_of_get (Db.mem_payouts.mp hp')
      rcases (Table.mem_install h.nodup).mp hrow with hmem | ⟨hmem, -⟩
      · exact hmem
      · have hin := Db.payout_eq_some.mpr (Table.get_of_mem hmem)
        simp [hold] at hin
    rcases h.payout_write hmem with ⟨-, -, hsource⟩ | ⟨r, hr, -⟩ | ⟨p, r, -, -, hr⟩
    · exact hsource.later h.later rfl
    · simp [hold] at hr
    · simp [hold] at hr

/-- The payout a commit settles is pending. -/
def SettlesPending (it : Item) (d : Db) : Prop :=
  ∀ p, Item.settles it = some p → ∃ r, d.payout p.id = some r ∧ r.status = .pending

theorem Commit.total_surplus {min : ℤ} {log : List Ev} {now : ℕ} {d : Db} {it : Item}
    {ws : List Row} (h : Commit min log now d it ws) (hb : d.SourcesBound)
    (hpending : SettlesPending it d) (cur : Currency) :
    Table.total (surplus cur) (d.install ws) = d.total (surplus cur) := by
  have hnd := h.nodup
  have houtbox : ∀ rows : List WebhookEventRow,
      (rows.map (fun e => surplus cur (.event e))).sum = 0 := by
    intro rows
    apply List.sum_eq_zero
    intro x hx
    obtain ⟨e, -, rfl⟩ := List.mem_map.mp hx
    rfl
  cases h with
  | query | accountFind | bank | sweepSkip => rfl
  | keyed s r ws hkey => exact hkey.total _ (fun _ => rfl)
  | walletCreate row shape owner fresh =>
    rw [Table.install_cons, Table.install_nil, Table.total_put_new _ fresh]
    simp [surplus, shape.2.2.1]
  | intentInsert row shape parsed fresh =>
    rw [Table.install_cons, Table.install_nil, Table.total_put_new _ fresh]
    simp [surplus]
  | endpointInsert row shape fresh =>
    rw [Table.install_cons, Table.install_nil, Table.total_put_new _ fresh]
    simp [surplus]
  | accountInsert row shape owner fresh =>
    rw [Table.install_cons, Table.install_nil, Table.total_put_new _ fresh]
    simp [surplus]
  | claimDue limit m rows idle nodup claimed =>
    apply total_same _ hnd
    intro r hr
    obtain ⟨p, hp, rfl⟩ := List.mem_map.mp hr
    obtain ⟨q, hq, -, -, hpq⟩ := claimed p hp
    rw [Row.key, Db.payout_eq_some.mp hq, hpq]
    rfl
  | markRetry p rest row message place remaining rowGet same =>
    have hid : row.id = p.id := Db.id_of_payout rowGet
    apply total_same _ hnd
    intro r hr
    rw [List.mem_singleton] at hr
    subst hr
    simp only [Row.key, hid, Db.payout_eq_some.mp rowGet]
    rfl
  | transfer c =>
    rw [c.total _ hnd]
    have hs := c.debited
    have ht := c.credited
    simp only [surplus, TransferCommit.newSource, TransferCommit.newDest, hs, ht, c.sameCurrency]
    split_ifs <;> omega
  | confirm c =>
    rw [c.total _ hnd, houtbox]
    have hw := c.credited
    simp only [surplus, ConfirmCommit.newWallet, ConfirmCommit.charge, hw, c.walletCurrency]
    by_cases hcur : c.intent.currency = cur
    · simp only [hcur, if_true]
      omega
    · simp only [hcur, if_false]
      omega
  | cancel c =>
    rw [c.total _ hnd]
    simp [surplus]
  | sweep c =>
    rw [c.total _ hnd]
    simp only [surplus, SweepCommit.newWallet, SweepCommit.payout, Bigint.zero_val, ne_eq,
      reduceCtorEq, not_false_eq_true, and_true]
    split_ifs <;> omega
  | @paid p rest place c =>
    obtain ⟨r, hr, hstatus⟩ := hpending p rfl
    rw [c.rowGet, Option.some.injEq] at hr
    subst hr
    rw [c.total _ hnd, houtbox]
    simp [surplus, PaidCommit.newRow, hstatus]
  | @reversal p rest place c =>
    obtain ⟨r, hr, hstatus⟩ := hpending p rfl
    rw [c.rowGet, Option.some.injEq] at hr
    subst hr
    have hsame := c.same
    simp only [Row.fixed, Row.payout.injEq, PayoutRow.mk.injEq] at hsame
    obtain ⟨-, -, hwallet, -, -, hamount, -⟩ := hsame
    have hmem : c.row ∈ d.payouts := by
      rw [Db.mem_payouts, Db.id_of_payout c.rowGet]
      exact Db.payout_eq_some.mp c.rowGet
    obtain ⟨w, hw, -, hcurrency⟩ := hb c.row hmem
    rw [hwallet, ← c.walletId, c.walletGet, Option.some.injEq] at hw
    subst hw
    rw [c.total _ hnd, houtbox]
    have hcredited := c.credited
    simp only [surplus, ReversalCommit.newWallet, ReversalCommit.newRow, hcredited, hcurrency,
      hstatus, hamount, ne_eq, reduceCtorEq, not_false_eq_true, not_true_eq_false, and_true,
      and_false, if_false]
    split_ifs <;> omega

/-! ## Every run -/

theorem settlesPending {a : Abs} {min : ℤ} {i : ℕ} {log : List Ev} {it : Item} {ws : List Row}
    (hinv : BatchInv a) (hproc : a.procs[i]? = some (true, log))
    (hc : Commit min log a.now a.db it ws) : SettlesPending it a.db := by
  intro p hp
  obtain ⟨r, hr, hstatus, -⟩ :=
    hinv.pending i p (by rw [working_eq hproc]; exact hc.settles_mem hp)
  exact ⟨r, hr, hstatus⟩

theorem surplus_eq_zero {min : ℤ} {s : Sys}
    (h : ReachBy min (fun _ _ s' => LeasesHold s'.abs) s) (c : Currency) :
    s.abs.db.total (surplus c) = 0 := by
  have hreach : AReach min LeasesHold s.abs := reach_refines (fun _ _ _ hok => hok) h
  have hboth : Db.SourcesBound s.abs.db ∧ ∀ c, s.abs.db.total (surplus c) = 0 := by
    refine AReach.invariant (fun a => Db.SourcesBound a.db ∧ ∀ c, a.db.total (surplus c) = 0)
      ?_ ?_ hreach
    · refine ⟨?_, fun _ => rfl⟩
      intro p hp
      simp [Db.payouts, Abs.init, Table.empty] at hp
    intro a a' hr hq hstep _
    cases hstep with
    | start | tick | fault | quiet => exact hq
    | commit i log it p live hproc _ hg =>
      have hpending := settlesPending (batchInv (fun _ hl => hl) hr) hproc hg
      refine ⟨hg.sourcesBound hq.1, ?_⟩
      intro c
      rw [hg.total_surplus hq.1 hpending c]
      exact hq.2 c
  exact hboth.2 c

/-- As long as leases are not outlived, balances and payouts that have not
failed add up to the charges, in every currency. -/
theorem money_conserved {min : ℤ} {s : Sys}
    (h : ReachBy min (fun _ _ s' => LeasesHold s'.abs) s) (c : Currency) :
    Db.balances s.db c + Db.paidOut s.db c = Db.charged s.db c := by
  have htotal := surplus_eq_zero h c
  rw [show s.abs.db.total (surplus c) = _ from total_surplus s.db c] at htotal
  omega

theorem money_conserved_reversed : ∃ s : Sys, (∀ p ∈ Db.payouts s.db, p.status = .failed) ∧
    Db.balances s.db .NGN + Db.paidOut s.db .NGN = Db.charged s.db .NGN := by
  have hrun : (runWhile 10 (fun _ _ s' => decide (LeasesHold s'.abs))
      (refusedTwice ++ .start (.processDue 50 none) :: drive 7 11 50)).any
      (fun s : Sys => decide (∀ p ∈ Db.payouts s.db, p.status = .failed)) = true := by decide +kernel
  obtain ⟨s, hs, hfailed⟩ := exists_of_runWhile hrun
  have hleases : ReachBy 10 (fun _ _ s' => LeasesHold s'.abs) s :=
    hs.mono (fun _ _ _ htest => of_decide_eq_true htest)
  exact ⟨s, of_decide_eq_true hfailed, money_conserved hleases .NGN⟩

end PaymentApis
