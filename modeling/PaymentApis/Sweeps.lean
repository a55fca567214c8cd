import PaymentApis.Answers
import PaymentApis.Batches
import PaymentApis.Conducts
import PaymentApis.Lib.Alone

/-!
# A sweep by itself

`sweep` lists the settleable wallets once, and each transaction of its loop then
changes the tables the list was read from. The list is of the tables before the
loop: every wallet on it is there as it was listed until its own transaction, and
empty after it.
-/

namespace PaymentApis

open TxStore payoutService

/-- A wallet worth settling, of the merchant `m` if given, with somewhere to send it. -/
def Db.Settleable (d : Db) (min : ℤ) (m : Option Uuid) (w : WalletRow) : Prop :=
  w ∈ d.wallets ∧ min ≤ w.balance.val ∧ (∀ m' ∈ m, w.merchantId = m') ∧
    ∃ a ∈ d.accounts, a.merchantId = w.merchantId ∧ a.currency = w.currency ∧ a.isActive = true

def WalletRow.emptied (w : WalletRow) : WalletRow :=
  { w with balance := .zero, check := Bigint.zero_nonneg }

/-- `p` pays the whole of `w` out, to an active account of the same merchant and currency. -/
structure Db.PaysOut (d : Db) (w : WalletRow) (p : PayoutRow) : Prop where
  walletId : p.walletId = w.id
  merchantId : p.merchantId = w.merchantId
  currency : p.currency = w.currency
  amount : p.amount = w.balance
  status : p.status = .pending
  account : ∃ a ∈ d.accounts, a.id = p.payoutAccountId ∧ a.merchantId = w.merchantId ∧
    a.currency = w.currency ∧ a.isActive = true

/-- What a sweep of the scope `m` makes of the tables `d`. -/
structure Db.Swept (min : ℤ) (m : Option Uuid) (d d' : Db) (created : List PayoutRow) : Prop where
  payouts : d'.payouts = d.payouts ++ created
  once : (created.map (·.walletId)).Nodup
  settles : ∀ p ∈ created, ∃ w, d.Settleable min m w ∧ d.PaysOut w p
  complete : ∀ w, d.Settleable min m w → ∃ p ∈ created, d.PaysOut w p
  debited : ∀ w, d.Settleable min m w → d'.wallet w.id = some w.emptied
  kept : ∀ l r, d.get l = some r → (∀ w, d.Settleable min m w → l ≠ .wallet w.id) →
    d'.get l = some r
  added : ∀ r ∈ d'.rows, d.get r.key = none → (∃ t, r = .transaction t ∧ t.type = .payout) ∨
    (∃ e, r = .entry e ∧ e.direction = .debit) ∨ ∃ p ∈ created, r = .payout p
  noneLeft : ∀ w, ¬ d'.Settleable min m w

/-- Identifiers that no row has, from the `i`-th on. -/
structure Unused (ids : ℕ → ℕ) (i : ℕ) (d : Db) : Prop where
  transaction : ∀ k, i ≤ k → d.get (.transaction (ids k)) = none
  entry : ∀ k, i ≤ k → d.get (.entry (ids k)) = none
  payout : ∀ k, i ≤ k → d.get (.payout (ids k)) = none

section Loop

variable {min : ℤ} {m : Option Uuid} {now : ℕ} {ids : ℕ → ℕ} {d db : Db} {i : ℕ}

/-- One statement that nothing stands in the way of, and then the rest. -/
theorem alone_writes {β : Type} {j : ℕ} {p : Priv} {q : Stmt} {r : Resp q} {ws all : List Row}
    {body : Resp q → Tx β} {b : β}
    (hout : (Sql.exec q ⟨now, ids i⟩ (fun _ => false) (p.view db)).out = .ok (r, ws))
    (hrest : ∀ p' : Priv, p'.writes = p.writes ++ ws →
      ∃ p'', (body r).alone engine now (drawing ids) db (i + 1) p' = (j, .commits b p'') ∧
        p''.writes = all) :
    ∃ p'', (Body.stmt q body).alone engine now (drawing ids) db i p = (j, .commits b p'') ∧
      p''.writes = all := by
  have hout' : (engine.exec q ⟨now, ids i⟩ (fun _ => false) (p.view db)).out = .ok (r, ws) := hout
  rw [Body.alone_stmt (drawing_ok ids i) hout']
  exact hrest _ rfl

/-- The transaction of a wallet that is still as it was listed. -/
theorem sweepTxn_alone {s : SettleableWallet} (c : SweepCommit min d s)
    (hnew : Unused ids i db) (hw : db.wallet c.wallet.id = some c.wallet)
    (htransaction : c.transactionId = ids (i + 1)) (hentry : c.entryId = ids (i + 2))
    (hpayout : c.payoutId = ids (i + 4)) (hdue : c.dueAt = now) :
    ∃ p : Priv, (sweepTxn min s).alone engine now (drawing ids) db i .begin =
      (i + 6, .commits true p) ∧ p.writes = c.writes := by
  obtain ⟨w, t, e, q, due, hpos, hid, howner, henough, haccount, hget, ht, he, hq⟩ := c
  simp only at hw htransaction hentry hpayout hdue
  subst htransaction hentry hpayout hdue
  have hlo := w.balance.lo
  have hhi := w.balance.hi
  have hbalance : Bigint.parse (intText w.balance.val) = some w.balance :=
    Bigint.parse_text w.balance
  simp only [sweepTxn, sql, Body.call_bind, Body.pure_eq]
  rw [← hid]
  refine alone_writes (Sql.walletFindByIdForUpdate_run hw) ?_
  intro p₁ h₁
  simp only [Priv.begin, List.nil_append] at h₁
  simp only [if_neg (not_lt.mpr henough)]
  refine alone_writes (Sql.ledgerCreateTransaction_run ?_) ?_
  · rw [Priv.view, h₁]
    exact hnew.transaction _ (by omega)
  intro p₂ h₂
  rw [h₁, List.nil_append] at h₂
  refine alone_writes (Sql.ledgerAddEntry_run hbalance hpos ?_) ?_
  · rw [Priv.view, Table.get_install_of_notMem (by simp [h₂, Row.key])]
    exact hnew.entry _ (by omega)
  intro p₃ h₃
  rw [h₂] at h₃
  refine alone_writes (Sql.walletApplyDelta_run (c := .zero) ?_ (by omega) (by simp)
    Bigint.zero_nonneg) ?_
  · rw [Db.wallet_eq_some, Priv.view, Table.get_install_of_notMem (by simp [h₃, Row.key])]
    exact Db.wallet_eq_some.mp hw
  intro p₄ h₄
  rw [h₃] at h₄
  refine alone_writes (Sql.payoutCreatePending_run hbalance hpos ?_) ?_
  · rw [Priv.view, Table.get_install_of_notMem (by simp [h₄, Row.key])]
    exact hnew.payout _ (by omega)
  intro p₅ h₅
  rw [h₄] at h₅
  exact ⟨p₅, rfl, h₅⟩

/-- The transaction of a wallet that has been emptied since it was listed. -/
theorem sweepTxn_skips {s : SettleableWallet} {w : WalletRow} (hmin : 1 ≤ min)
    (hw : db.wallet s.walletId = some w) (hempty : w.balance = .zero) :
    ∃ p : Priv, (sweepTxn min s).alone engine now (drawing ids) db i .begin =
      (i + 2, .commits false p) ∧ p.writes = [] := by
  have hid : w.id = s.walletId := Db.id_of_wallet hw
  simp only [sweepTxn, sql, Body.call_bind, Body.pure_eq]
  rw [← hid] at hw ⊢
  refine alone_writes (Sql.walletFindByIdForUpdate_run hw) ?_
  intro p₁ h₁
  have hlow : w.balance.val < min := by
    rw [hempty, Bigint.zero_val]
    omega
  simp only [if_pos hlow]
  exact ⟨p₁, rfl, h₁⟩

/-- A payout that a sweep of the tables `d` has made. -/
abbrev Made (min : ℤ) (d : Db) := Σ s : SettleableWallet, SweepCommit min d s

def Made.rows (made : List (Made min d)) : List Row := made.flatMap (·.2.writes)

/-- The payouts made so far, and identifiers for those to come. -/
structure Sweeping (ids : ℕ → ℕ) (m : Option Uuid) (i : ℕ) (made : List (Made min d)) : Prop where
  nodup : ((Made.rows made).map Row.key).Nodup
  scope : ∀ c ∈ made, ∀ m' ∈ m, c.2.wallet.merchantId = m'
  unused : Unused ids i (d.install (Made.rows made))

theorem Unused.later (h : Unused ids i d) {j : ℕ} (hij : i ≤ j) : Unused ids j d :=
  ⟨fun k hk => h.transaction k (by omega), fun k hk => h.entry k (by omega),
    fun k hk => h.payout k (by omega)⟩

/-- The next payout is one more. -/
theorem Sweeping.made (hinj : Function.Injective ids) {made : List (Made min d)}
    (h : Sweeping ids m i made) {s : SettleableWallet} (c : SweepCommit min d s)
    (hscope : ∀ m' ∈ m, c.wallet.merchantId = m')
    (hw : Loc.wallet c.wallet.id ∉ (Made.rows made).map Row.key) {a b e j : ℕ}
    (ht : c.transactionId = ids a) (he : c.entryId = ids b) (hp : c.payoutId = ids e)
    (ha : i ≤ a ∧ a < j) (hb : i ≤ b ∧ b < j) (hc : i ≤ e ∧ e < j) :
    Sweeping ids m j (made ++ [⟨s, c⟩]) := by
  have hrows : Made.rows (made ++ [⟨s, c⟩]) = Made.rows made ++ c.writes := by
    simp [Made.rows]
  have hkeys : c.writes.map Row.key = [.transaction (ids a), .entry (ids b), .wallet c.wallet.id,
      .payout (ids e)] := by
    simp [SweepCommit.writes, SweepCommit.entry, SweepCommit.newWallet, SweepCommit.payout, ht, he, hp]
  have hnew := h.unused
  refine ⟨?_, ?_, ?_⟩
  · rw [hrows, List.map_append, List.nodup_append, hkeys]
    refine ⟨h.nodup, by simp, ?_⟩
    intro l hl l' hl' heq
    subst heq
    simp only [List.mem_cons, List.not_mem_nil, or_false] at hl'
    rcases hl' with rfl | rfl | rfl | rfl
    · exact (Table.get_install_eq_none.mp (hnew.transaction a ha.1)).2 hl
    · exact (Table.get_install_eq_none.mp (hnew.entry b hb.1)).2 hl
    · exact hw hl
    · exact (Table.get_install_eq_none.mp (hnew.payout e hc.1)).2 hl
  · intro x hx
    rcases List.mem_append.mp hx with hx | hx
    · exact h.scope x hx
    · rw [List.mem_singleton] at hx
      subst hx
      exact hscope
  · have hlater := hnew.later (j := j) (by omega)
    have hne : ∀ k k', k < j → j ≤ k' → ids k' ≠ ids k := by
      intro k k' hk hk' heq
      have := hinj heq
      omega
    rw [hrows, Table.install_append]
    refine ⟨fun k hk => ?_, fun k hk => ?_, fun k hk => ?_⟩
    · rw [Table.get_install_of_notMem (by simp [hkeys, hne a k ha.2 hk])]
      exact hlater.transaction k hk
    · rw [Table.get_install_of_notMem (by simp [hkeys, hne b k hb.2 hk])]
      exact hlater.entry k hk
    · rw [Table.get_install_of_notMem (by simp [hkeys, hne e k hc.2 hk])]
      exact hlater.payout k hk

/-- A wallet of the tables `d` has been swept once or not at all. -/
theorem Sweeping.wallet {made : List (Made min d)} (h : Sweeping ids m i made) {w : WalletRow}
    (hw : d.wallet w.id = some w) :
    (∃ c ∈ made, c.2.wallet = w ∧
      Db.wallet (d.install (Made.rows made)) w.id = some w.emptied) ∨
    (Loc.wallet w.id ∉ (Made.rows made).map Row.key ∧
      Db.wallet (d.install (Made.rows made)) w.id = some w) := by
  by_cases hkey : Loc.wallet w.id ∈ (Made.rows made).map Row.key
  · left
    obtain ⟨r, hr, hkey⟩ := List.mem_map.mp hkey
    obtain ⟨c, hc, hrc⟩ := List.mem_flatMap.mp hr
    have hnew : r = .wallet c.2.newWallet := by
      simp only [SweepCommit.writes, List.mem_cons, List.not_mem_nil, or_false] at hrc
      rcases hrc with rfl | rfl | rfl | rfl
      · cases hkey
      · cases hkey
      · rfl
      · cases hkey
    have hwallet : c.2.wallet = w := by
      rw [hnew] at hkey
      have hid : c.2.wallet.id = w.id := Loc.wallet.inj hkey
      have hget := c.2.walletGet
      rw [hid, hw] at hget
      exact (Option.some.inj hget).symm
    refine ⟨c, hc, hwallet, Db.wallet_eq_some.mpr ?_⟩
    have hget := Table.get_install_of_mem (t := d) h.nodup hr
    rw [hkey, hnew, SweepCommit.newWallet, hwallet] at hget
    exact hget
  · right
    refine ⟨hkey, Db.wallet_eq_some.mpr ?_⟩
    rw [Table.get_install_of_notMem hkey]
    exact Db.wallet_eq_some.mp hw

/-- A payout of a listed wallet, with the identifiers drawn from the `i`-th on. -/
theorem exists_payout (hnew : Unused ids i d) {b : Bigint} {s : SettleableWallet}
    (hs : s ∈ Sql.settleable d b m) (hmin : 1 ≤ b.val) (now : ℕ) :
    ∃ c : SweepCommit b.val d s, d.wallet c.wallet.id = some c.wallet ∧
      (∀ m' ∈ m, c.wallet.merchantId = m') ∧ c.transactionId = ids (i + 1) ∧
      c.entryId = ids (i + 2) ∧ c.payoutId = ids (i + 4) ∧ c.dueAt = now := by
  obtain ⟨w, hw, a, ha, hm, hc, hactive, henough, hscope, rfl⟩ := Sql.mem_settleable.mp hs
  have hget := Db.wallet_eq_some.mpr (Db.mem_wallets.mp hw)
  exact ⟨{ wallet := w
           transactionId := ids (i + 1)
           entryId := ids (i + 2)
           payoutId := ids (i + 4)
           dueAt := now
           positive := by omega
           walletId := rfl
           owner := rfl
           enough := henough
           account := ⟨a, Db.account_eq_some.mpr (Db.mem_accounts.mp ha), hm, hc, hactive⟩
           walletGet := hget
           transactionFresh := hnew.transaction _ (by omega)
           entryFresh := hnew.entry _ (by omega)
           payoutFresh := hnew.payout _ (by omega) }, hget, hscope, rfl, rfl, rfl, rfl⟩

/-- The loop makes a payout of every listed wallet it has not made one of. -/
theorem sweepAll_alone {b : Bigint} (hmin : 1 ≤ b.val) (hinj : Function.Injective ids)
    (hnew : Unused ids 0 d) : ∀ (ws : List SettleableWallet) (i : ℕ) (made : List (Made b.val d)),
    Sweeping ids m i made → (∀ s ∈ ws, s ∈ Sql.settleable d b m) →
    ∃ (made' : List (Made b.val d)) (i' : ℕ) (log : List Ev),
      (sweepAll b.val ws made.length).alone engine now (drawing ids) i
          (d.install (Made.rows made)) =
        ⟨i', d.install (Made.rows made'), log, .ok made'.length⟩ ∧
      Sweeping ids m i' made' ∧ (∀ c ∈ made, c ∈ made') ∧
      ∀ s ∈ ws, ∃ c ∈ made', c.2.wallet.id = s.walletId
  | [], i, made, h, _ => ⟨made, i, [], rfl, h, fun _ hc => hc, fun _ hs => by simp at hs⟩
  | s :: ws, i, made, h, hlisted => by
      have hs := hlisted s List.mem_cons_self
      have hrest : ∀ s' ∈ ws, s' ∈ Sql.settleable d b m := fun s' hs' =>
        hlisted s' (List.mem_cons_of_mem _ hs')
      obtain ⟨c, hw, hscope, ht, he, hp, hdue⟩ := exists_payout (hnew.later (Nat.zero_le i.succ)) hs
        hmin now
      simp only [sweepAll, Client.alone_bind]
      rcases h.wallet hw with ⟨c', hc', hwallet, hemptied⟩ | ⟨hkey, hstill⟩
      · -- it has been listed twice
        rw [c.walletId] at hemptied
        obtain ⟨p, hbody, hwrites⟩ : ∃ p : Priv, (sweepTxn b.val s).alone engine now (drawing ids)
            (d.install (Made.rows made)) (i + 1) .begin = (i + 1 + 2, .commits false p) ∧
            p.writes = [] := sweepTxn_skips hmin hemptied rfl
        obtain ⟨made', i', log, hrun, hsweeping, hsub, hcomplete⟩ := sweepAll_alone hmin hinj hnew ws
          (i + 1 + 2) made ⟨h.nodup, h.scope, h.unused.later (by omega)⟩ hrest
        refine ⟨made', i', p.events ++ log, ?_, hsweeping, hsub, ?_⟩
        · rw [Client.alone_transaction (drawing_ok ids i) hbody, hwrites]
          simp only [TxStore.Ended.bind, Table.install_nil, Bool.false_eq_true, if_false, hrun]
          rfl
        · intro s' hs'
          rcases List.mem_cons.mp hs' with rfl | hs'
          · refine ⟨c', hsub c' hc', ?_⟩
            rw [hwallet, c.walletId]
          · exact hcomplete s' hs'
      · obtain ⟨p, hbody, hwrites⟩ := sweepTxn_alone c (h.unused.later (j := i + 1) (by omega))
          hstill ht he hp hdue
        have hmade := h.made hinj c hscope hkey ht he hp (j := i + 1 + 6) (by omega) (by omega)
          (by omega)
        obtain ⟨made', i', log, hrun, hsweeping, hsub, hcomplete⟩ := sweepAll_alone hmin hinj hnew ws
          (i + 1 + 6) (made ++ [⟨s, c⟩]) hmade hrest
        refine ⟨made', i', p.events ++ log, ?_, hsweeping, ?_, ?_⟩
        · have hrows : (d.install (Made.rows made)).install c.writes =
              d.install (Made.rows (made ++ [⟨s, c⟩])) := by
            rw [← Table.install_append]
            simp [Made.rows]
          rw [List.length_append, List.length_singleton] at hrun
          rw [Client.alone_transaction (drawing_ok ids i) hbody, hwrites, hrows]
          simp only [TxStore.Ended.bind, if_true, hrun]
          rfl
        · exact fun x hx => hsub x (List.mem_append_left _ hx)
        · intro s' hs'
          rcases List.mem_cons.mp hs' with rfl | hs'
          · exact ⟨⟨s', c⟩, hsub _ (by simp), c.walletId⟩
          · exact hcomplete s' hs'

/-- The rows of a payout, and which of them stand in the tables already. -/
theorem Made.mem_rows {made : List (Made min d)} {r : Row} : r ∈ Made.rows made ↔ ∃ c ∈ made,
    r = .transaction ⟨c.2.transactionId, .payout⟩ ∨ r = .entry c.2.entry ∨
      r = .wallet c.2.newWallet ∨ r = .payout c.2.payout := by
  simp [Made.rows, SweepCommit.writes]

theorem Made.rows_asPayout (made : List (Made min d)) :
    (Made.rows made).filterMap Row.asPayout = made.map (·.2.payout) := by
  induction made with
  | nil => rfl
  | cons c made ih =>
    rw [Made.rows, List.flatMap_cons, List.filterMap_append]
    rw [Made.rows] at ih
    rw [ih]
    rfl

theorem Made.rows_asWallet (made : List (Made min d)) :
    (Made.rows made).filterMap Row.asWallet = made.map (·.2.newWallet) := by
  induction made with
  | nil => rfl
  | cons c made ih =>
    rw [Made.rows, List.flatMap_cons, List.filterMap_append]
    rw [Made.rows] at ih
    rw [ih]
    rfl

theorem Made.wallet_mem {made : List (Made min d)} {c : Made min d} (hc : c ∈ made) :
    Loc.wallet c.2.wallet.id ∈ (Made.rows made).map Row.key :=
  List.mem_map.mpr ⟨.wallet c.2.newWallet, mem_rows.mpr ⟨c, hc, .inr (.inr (.inl rfl))⟩, rfl⟩

theorem Made.settleable {made : List (Made min d)} (h : Sweeping ids m i made) {c : Made min d}
    (hc : c ∈ made) : d.Settleable min m c.2.wallet ∧ d.PaysOut c.2.wallet c.2.payout := by
  obtain ⟨a, ha, hm, hcur, hactive⟩ := c.2.account
  have hid : a.id = c.1.accountId := by
    simpa using Table.key_of_get (Db.account_eq_some.mp ha)
  have hmem : a ∈ d.accounts := by
    rw [Db.mem_accounts, hid]
    exact Db.account_eq_some.mp ha
  refine ⟨⟨Db.mem_wallets.mpr (Db.wallet_eq_some.mp c.2.walletGet), c.2.enough, h.scope c hc,
    a, hmem, hm, hcur, hactive⟩, ⟨rfl, rfl, rfl, rfl, rfl, a, hmem, hid, hm, hcur, hactive⟩⟩

/-- The accounts are those before the sweep. -/
theorem Sweeping.accounts {made : List (Made min d)} (h : Sweeping ids m i made) :
    Db.accounts (d.install (Made.rows made)) = d.accounts := by
  have hnone : ∀ r ∈ Made.rows made, r.asAccount = none := by
    intro r hr
    obtain ⟨c, -, rfl | rfl | rfl | rfl⟩ := Made.mem_rows.mp hr <;> rfl
  have hkind : ∀ x y : Row, x.key = y.key → x.asAccount = none → y.asAccount = none := by
    intro x y hkey hx
    cases x <;> cases y <;> simp [Row.asAccount] at hkey hx ⊢
  rw [Db.accounts, Table.filterMap_install hkind h.nodup (fun r hr => .inl (hnone r hr)),
    List.filterMap_eq_nil_iff.mpr hnone, List.append_nil]
  rfl

/-- What the payouts are when all that were listed are made. -/
theorem Sweeping.swept (hmin : 1 ≤ min) {made : List (Made min d)} (h : Sweeping ids m i made)
    (hall : ∀ w, d.Settleable min m w → ∃ c ∈ made, c.2.wallet.id = w.id) :
    Db.Swept min m d (d.install (Made.rows made)) (made.map (·.2.payout)) := by
  have hmade : ∀ w, d.Settleable min m w → ∃ c ∈ made, c.2.wallet = w := by
    intro w hw
    obtain ⟨c, hc, hid⟩ := hall w hw
    have hget := c.2.walletGet
    rw [hid, Db.wallet_eq_some.mpr (Db.mem_wallets.mp hw.1)] at hget
    exact ⟨c, hc, (Option.some.inj hget).symm⟩
  have hwallets : (made.map (fun c => Loc.wallet c.2.wallet.id)).Nodup := by
    have hkeys : (((Made.rows made).filterMap Row.asWallet).map (fun r => Loc.wallet r.id)).Sublist
        ((Made.rows made).map Row.key) :=
      Db.keys_sublist (fun x r hr => by rw [Row.asWallet_eq_some.mp hr, Row.key]) _
    rw [Made.rows_asWallet, List.map_map] at hkeys
    exact h.nodup.sublist hkeys
  constructor
  case payouts =>
    have hkind : ∀ x y : Row, x.key = y.key → x.asPayout = none → y.asPayout = none := by
      intro x y hkey hx
      cases x <;> cases y <;> simp [Row.asPayout] at hkey hx ⊢
    have hfresh : ∀ r ∈ Made.rows made, r.asPayout = none ∨ d.get r.key = none := by
      intro r hr
      obtain ⟨c, -, rfl | rfl | rfl | rfl⟩ := Made.mem_rows.mp hr
      · exact .inl rfl
      · exact .inl rfl
      · exact .inl rfl
      · exact .inr c.2.payoutFresh
    rw [Db.payouts, Table.filterMap_install hkind h.nodup hfresh, Made.rows_asPayout]
    rfl
  case once =>
    rw [List.map_map]
    apply List.Nodup.of_map Loc.wallet
    rw [List.map_map]
    exact hwallets
  case settles =>
    intro p hp
    obtain ⟨c, hc, rfl⟩ := List.mem_map.mp hp
    exact ⟨c.2.wallet, Made.settleable h hc⟩
  case complete =>
    intro w hw
    obtain ⟨c, hc, rfl⟩ := hmade w hw
    exact ⟨c.2.payout, List.mem_map_of_mem hc, (Made.settleable h hc).2⟩
  case debited =>
    intro w hw
    obtain ⟨c, hc, rfl⟩ := hmade w hw
    rcases h.wallet c.2.walletGet with ⟨c', -, -, hemptied⟩ | ⟨hkey, -⟩
    · exact hemptied
    · exact absurd (Made.wallet_mem hc) hkey
  case kept =>
    intro l r hl hother
    rw [Table.get_install_of_notMem]
    · exact hl
    intro hkey
    obtain ⟨x, hx, rfl⟩ := List.mem_map.mp hkey
    obtain ⟨c, hc, rfl | rfl | rfl | rfl⟩ := Made.mem_rows.mp hx
    · exact absurd (c.2.transactionFresh.symm.trans hl) (by simp)
    · exact absurd (c.2.entryFresh.symm.trans hl) (by simp)
    · exact hother c.2.wallet (Made.settleable h hc).1 rfl
    · exact absurd (c.2.payoutFresh.symm.trans hl) (by simp)
  case added =>
    intro r hr hnew
    rcases Table.mem_of_mem_install hr with hr | hr
    · obtain ⟨c, hc, rfl | rfl | rfl | rfl⟩ := Made.mem_rows.mp hr
      · exact .inl ⟨_, rfl, rfl⟩
      · exact .inr (.inl ⟨_, rfl, rfl⟩)
      · exact absurd (hnew.symm.trans (Db.wallet_eq_some.mp c.2.walletGet)) (by simp)
      · exact .inr (.inr ⟨_, List.mem_map_of_mem hc, rfl⟩)
    · exact absurd (hnew.symm.trans (Table.get_of_mem hr)) (by simp)
  case noneLeft =>
    rintro w ⟨hw, henough, hscope, a, ha, haccount⟩
    have hget := Db.wallet_eq_some.mpr (Db.mem_wallets.mp hw)
    cases hold : d.wallet w.id with
    | none =>
      -- a sweep makes no wallet
      rw [Db.wallet_eq_none] at hold
      rcases Table.mem_of_mem_install (Table.mem_of_get (Db.wallet_eq_some.mp hget)) with hr | hr
      · obtain ⟨c, hc, hr | hr | hr | hr⟩ := Made.mem_rows.mp hr <;> cases hr
        exact absurd (hold.symm.trans (Db.wallet_eq_some.mp c.2.walletGet)) (by simp)
      · exact absurd (hold.symm.trans (Table.get_of_mem hr)) (by simp)
    | some w₀ =>
      have hid : w₀.id = w.id := Db.id_of_wallet hold
      rw [← hid] at hold hget
      rcases h.wallet hold with ⟨c, -, -, hemptied⟩ | ⟨hkey, hstill⟩
      · obtain rfl : w = w₀.emptied := Option.some.inj (hget.symm.trans hemptied)
        have hzero : w₀.emptied.balance.val = 0 := rfl
        omega
      · obtain rfl : w = w₀ := Option.some.inj (hget.symm.trans hstill)
        rw [h.accounts] at ha
        obtain ⟨c, hc, rfl⟩ := hmade w
          ⟨Db.mem_wallets.mpr (Db.wallet_eq_some.mp hold), henough, hscope, a, ha, haccount⟩
        exact hkey (Made.wallet_mem hc)

theorem list_attempt {b : Bigint} :
    engine.attempt now (drawing ids) (.payoutListSettleableWallets (intText b.val) m) 0 d =
      .ok (Sql.settleable d b m, []) := by
  have hout : (Sql.exec (.payoutListSettleableWallets (intText b.val) m) ⟨now, ids 0⟩
      (fun _ => false) d).out = .ok (Sql.settleable d b m, []) :=
    Sql.payoutListSettleableWallets_run
  exact hout

theorem Db.Settleable.listed {b : Bigint} {w : WalletRow} (h : d.Settleable b.val m w) :
    ∃ s ∈ Sql.settleable d b m, s.walletId = w.id := by
  obtain ⟨hw, henough, hscope, a, ha, hm, hc, hactive⟩ := h
  exact ⟨_, Sql.mem_settleable.mpr ⟨w, hw, a, ha, hm, hc, hactive, henough, hscope, rfl⟩, rfl⟩

theorem settleable_of_listed {b : Bigint} {s : SettleableWallet}
    (h : s ∈ Sql.settleable d b m) : ∃ w, d.Settleable b.val m w := by
  obtain ⟨w, hw, a, ha, hm, hc, hactive, henough, hscope, -⟩ := Sql.mem_settleable.mp h
  exact ⟨w, hw, henough, hscope, a, ha, hm, hc, hactive⟩

/-- A sweep whose statements all succeed. -/
theorem sweep_alone {b : Bigint} (hmin : 1 ≤ b.val) (hinj : Function.Injective ids)
    (hnew : Unused ids 0 d) : ∃ (i' : ℕ) (d' : Db) (created : List PayoutRow) (log : List Ev),
      (sweep b.val m).alone engine now (drawing ids) 0 d = ⟨i', d', log, .ok created.length⟩ ∧
      Db.Swept b.val m d d' created := by
  have hstart : Sweeping ids m 1 ([] : List (Made b.val d)) :=
    ⟨List.nodup_nil, fun _ hc => by simp at hc, hnew.later (Nat.zero_le 1)⟩
  obtain ⟨made, i', log, hrun, hsweeping, -, hcomplete⟩ : ∃ made' i' log,
      (sweepAll b.val (Sql.settleable d b m) 0).alone engine now (drawing ids) 1 d =
        ⟨i', d.install (Made.rows made'), log, .ok made'.length⟩ ∧ _ ∧ _ ∧ _ :=
    sweepAll_alone hmin hinj hnew (Sql.settleable d b m) 1 [] hstart (fun _ hs => hs)
  refine ⟨i', d.install (Made.rows made), made.map (·.2.payout),
    .stmt (.payoutListSettleableWallets (intText b.val) m) (Sql.settleable d b m) :: log, ?_,
    hsweeping.swept hmin ?_⟩
  · rw [sweep, Client.alone_bind, query, Client.alone_exec list_attempt]
    simp only [TxStore.Ended.bind, Table.install_nil, Nat.zero_add]
    rw [hrun, List.length_map]
    rfl
  · intro w hw
    obtain ⟨x, hx, hid⟩ := hw.listed
    rw [← hid]
    exact hcomplete x hx

/-- A sweep that finds nothing changes nothing. -/
theorem sweep_idle {b : Bigint} (hnone : ∀ w, ¬ d.Settleable b.val m w) :
    ∃ log : List Ev, (sweep b.val m).alone engine now (drawing ids) 0 d = ⟨1, d, log, .ok 0⟩ := by
  have hlist : Sql.settleable d b m = [] := by
    apply List.eq_nil_iff_forall_not_mem.mpr
    intro s hs
    obtain ⟨w, hw⟩ := settleable_of_listed hs
    exact hnone w hw
  rw [sweep, Client.alone_bind, query, Client.alone_exec list_attempt, hlist]
  exact ⟨_, rfl⟩

end Loop

/-- The sweep as a process of its own, beside processes that hold no locks. -/
theorem sweep_runs {min : ℤ} {m : Option Uuid} {s : Sys} {ids : ℕ → ℕ} {k : ℕ} {d : Db}
    {log : List Ev} {r : Except Err ℕ} (hunlocked : ∀ n ∈ s.nodes, TxStore.Node.locks n = [])
    (halone : (sweep min m).alone engine s.now (drawing ids) 0 s.db = ⟨k, d, log, r⟩) :
    ∃ s' : Sys, s.run engine (program min) (.start (.sweep m) ::
        (List.range k).map (fun j => .run s.nodes.length (ids j))) = some s' ∧
      s'.db = d ∧ s'.nodes = s.nodes ++ [⟨log, .run (.ofExcept (r.map Reply.count))⟩] := by
  obtain ⟨ls, s', hfollows, hlen, hrun, hdb, -, hnodes⟩ : ∃ (ls : List Step) (s' : Sys), _ ∧ _ ∧
      s.run engine (program min) _ = _ ∧ _ ∧ _ ∧ _ :=
    Sys.alone_runs hunlocked (drawing ids) (.sweep m)
  have hprogram : (program min (.sweep m)).alone engine s.now (drawing ids) 0 s.db =
      ⟨k, d, log, r.map Reply.count⟩ := by
    rw [program, Client.alone_bind, halone]
    cases r with
    | error e => rfl
    | ok n =>
      show TxStore.Ended.after log ⟨k, d, [], .ok (Reply.count n)⟩ = _
      rw [TxStore.Ended.after, List.append_nil]
      rfl
  rw [hprogram] at hlen hdb hnodes
  rw [hfollows.eq_map, hlen] at hrun
  exact ⟨s', hrun, hdb, hnodes⟩

/-- A sweep that nobody else's locks are in the way of empties the wallets worth settling,
each into one payout, and leaves nothing for the next sweep. -/
theorem sweep_complete {min : ℤ} (hmin : 1 ≤ min) (hmax : min < 2 ^ 63) {m : Option Uuid} {s : Sys}
    (hunlocked : ∀ n ∈ s.nodes, TxStore.Node.locks n = []) {ids : ℕ → ℕ}
    (hinj : Function.Injective ids) (hnew : Unused ids 0 s.db) :
    ∃ (k : ℕ) (s' : Sys) (created : List PayoutRow) (log : List Ev),
      s.run engine (program min) (.start (.sweep m) ::
        (List.range k).map (fun j => .run s.nodes.length (ids j))) = some s' ∧
      s'.nodes = s.nodes ++ [⟨log, .run (.ret (.count created.length))⟩] ∧
      Db.Swept min m s.db s'.db created ∧
      ∀ t u, ∃ (s'' : Sys) (log' : List Ev),
        s'.run engine (program min) [.tick t, .start (.sweep m), .run s'.nodes.length u] = some s'' ∧
        s''.nodes = s'.nodes ++ [⟨log', .run (.ret (.count 0))⟩] ∧ s''.db = s'.db := by
  let b : Bigint := ⟨min, by omega, hmax⟩
  obtain ⟨k, d', created, log, halone, hswept⟩ : ∃ (k : ℕ) (d' : Db) (created : List PayoutRow)
      (log : List Ev), (sweep b.val m).alone engine s.now (drawing ids) 0 s.db =
        ⟨k, d', log, .ok created.length⟩ ∧ Db.Swept b.val m s.db d' created :=
    sweep_alone hmin hinj hnew
  obtain ⟨s', hrun, rfl, hnodes⟩ := sweep_runs hunlocked halone
  refine ⟨k, s', created, log, hrun, hnodes, hswept, ?_⟩
  intro t u
  let later : Sys := { s' with now := s'.now + t }
  obtain ⟨log', hidle⟩ : ∃ log' : List Ev, (sweep b.val m).alone engine later.now
      (drawing fun _ => u) 0 later.db = ⟨1, later.db, log', .ok 0⟩ := sweep_idle hswept.noneLeft
  have hstill : ∀ n ∈ later.nodes, TxStore.Node.locks n = [] := by
    intro n hn
    have hn' : n ∈ s'.nodes := hn
    rw [hnodes] at hn'
    rcases List.mem_append.mp hn' with hn' | hn'
    · exact hunlocked n hn'
    · rw [List.mem_singleton.mp hn']
      rfl
  obtain ⟨s'', hrun', hdb, hnodes'⟩ := sweep_runs hstill hidle
  exact ⟨s'', log', hrun', hnodes', hdb⟩

def Loc.idBelow (n : ℕ) : Loc → Bool
  | .transaction id => decide (id < n)
  | .entry id => decide (id < n)
  | .payout id => decide (id < n)
  | _ => true

theorem unused_above {n : ℕ} {d : Db} (h : d.rows.all (fun r => r.key.idBelow n) = true) :
    Unused (fun k => n + k) 0 d := by
  have hnone : ∀ l : Loc, l.idBelow n = false → d.get l = none := by
    intro l hl
    cases hget : d.get l with
    | none => rfl
    | some r =>
      have hbelow := List.all_eq_true.mp h r (Table.mem_of_get hget)
      rw [Table.key_of_get hget, hl] at hbelow
      cases hbelow
  exact ⟨fun k _ => hnone _ (by simp [Loc.idBelow]), fun k _ => hnone _ (by simp [Loc.idBelow]),
    fun k _ => hnone _ (by simp [Loc.idBelow])⟩

/-- A wallet with 50 on it and an account for it. -/
def fundedWallet : List Step :=
  .start (.createWallet 1 .NGN) :: drive 0 1 1 ++
    .start (.registerAccount 1 goodAccount) :: drive 1 1 2 ++
    .start (.createIntent 1 ⟨fifty, .NGN, none, noReference⟩) :: drive 2 2 2 ++
    .start (.confirm 1 (smallId '3')) :: drive 3 10 10

theorem sweep_complete_fundedWallet : ∃ (s : Sys) (k : ℕ) (s' : Sys) (created : List PayoutRow),
    Reachable 10 s ∧ (∃ w, Db.Settleable s.db 10 none w) ∧
    s.run engine (program 10) (.start (.sweep none) ::
      (List.range k).map (fun j => .run s.nodes.length (1000 + j))) = some s' ∧
    Db.Swept 10 none s.db s'.db created := by
  have hrun : (runFrom 10 fundedWallet).any (fun s : Sys =>
      s.nodes.all (fun n => (TxStore.Node.locks n).isEmpty) &&
        s.db.rows.all (fun r => r.key.idBelow 1000) &&
        decide (0 < (Sql.settleable s.db ⟨10, by decide, by decide⟩ none).length)) = true := by
    decide +kernel
  obtain ⟨s, hs, htest⟩ := exists_of_run hrun
  simp only [Bool.and_eq_true, decide_eq_true_eq] at htest
  obtain ⟨⟨hunlocked, hbelow⟩, hsome⟩ := htest
  have hmin : (1 : ℤ) ≤ 10 := by decide
  have hinj : Function.Injective (fun k => 1000 + k) := fun j k hjk => by simpa using hjk
  obtain ⟨k, s', created, log, hsweep, -, hswept, -⟩ := sweep_complete hmin (by decide)
    (fun n hn => List.isEmpty_iff.mp (List.all_eq_true.mp hunlocked n hn)) hinj
    (unused_above hbelow)
  obtain ⟨x, hx⟩ := List.exists_mem_of_length_pos hsome
  exact ⟨s, k, s', created, hs, settleable_of_listed hx, hsweep, hswept⟩

/-- A minimum of more than 63 bits is no `BIGINT`: the first statement fails. -/
theorem sweep_refused {min : ℤ} (hmin : 2 ^ 63 ≤ min) (m : Option Uuid) {s : Sys}
    (hunlocked : ∀ n ∈ s.nodes, TxStore.Node.locks n = []) (u : ℕ) :
    ∃ (s' : Sys) (log : List Ev),
      s.run engine (program min) [.start (.sweep m), .run s.nodes.length u] = some s' ∧
      s'.nodes = s.nodes ++ [⟨log, .run (.throw (.db .numericOutOfRange))⟩] ∧ s'.db = s.db := by
  have hout : (Sql.exec (.payoutListSettleableWallets (intText min) m) ⟨s.now, u⟩ (fun _ => false)
      s.db).out = .error .numericOutOfRange := Sql.payoutListSettleableWallets_overflow hmin
  have hlist : engine.attempt s.now (drawing fun _ => u)
      (.payoutListSettleableWallets (intText min) m) 0 s.db = .error .numericOutOfRange := hout
  have halone : (sweep min m).alone engine s.now (drawing fun _ => u) 0 s.db =
      ⟨1, s.db, [.fault .numericOutOfRange], .error (.db .numericOutOfRange)⟩ := by
    rw [sweep, Client.alone_bind, query, Client.exec, Client.alone, hlist]
    rfl
  obtain ⟨s', hrun, hdb, hnodes⟩ := sweep_runs hunlocked halone
  exact ⟨s', _, hrun, hnodes, hdb⟩

/-- So no payouts are made, however much the wallets hold. -/
theorem sweep_refused_init : ∃ (s : Sys) (log : List Ev),
    runFrom (2 ^ 63) [.start (.sweep none), .run 0 0] = some s ∧
    s.nodes = [⟨log, .run (.throw (.db .numericOutOfRange))⟩] := by
  have hunlocked : ∀ n ∈ (TxStore.Sys.init : Sys).nodes, TxStore.Node.locks n = [] := by
    intro n hn
    cases hn
  obtain ⟨s, log, hrun, hnodes, -⟩ := sweep_refused (le_refl (2 ^ 63)) none hunlocked 0
  exact ⟨s, log, hrun, hnodes⟩

end PaymentApis
