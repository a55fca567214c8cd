import PaymentApis.PayoutRows
import PaymentApis.Idempotency

/-!
# Merchants do not touch each other's rows

Every commit of a request belongs to the merchant that sent it: the rows it
writes are that merchant's. For the payouts a request processes this needs the
tables' own history: a payout, its wallet and its merchant belong together. The
one exception is the credit of a transfer.
-/

namespace PaymentApis

open TxStore

/-! ## What is stated -/

/-- The merchant that sent a request. -/
def Job.merchant : Job → Option Uuid
  | .createWallet m _ => some m
  | .transfer m _ => some m
  | .postTransfer m _ _ _ => some m
  | .createIntent m _ => some m
  | .confirm m _ => some m
  | .cancel m _ => some m
  | .registerEndpoint m _ _ => some m
  | .registerAccount m _ => some m
  | .runNow m => some m
  | .sweep _ | .processDue _ _ | .tick => none

/-- The body of a transfer request. -/
def Job.transferDto : Job → Option CreateTransferDto
  | .transfer _ dto => some dto
  | .postTransfer _ _ _ dto => some dto
  | _ => none

/-- The merchant a row belongs to; a ledger entry belongs to the owner of its
wallet, and a ledger transaction to nobody. -/
def Row.owner (d : Db) : Row → Option Uuid
  | .wallet r => some r.merchantId
  | .transaction _ => none
  | .entry r => (d.wallet r.walletId).map (·.merchantId)
  | .intent r => some r.merchantId
  | .charge r => some r.merchantId
  | .endpoint r => some r.merchantId
  | .event r => some r.merchantId
  | .account r => some r.merchantId
  | .payout r => some r.merchantId
  | .idempotency r => some r.merchantId

def Db.Owns (d : Db) (m : Uuid) (r : Row) : Prop := r ∈ d.rows ∧ r.owner d = some m

/-- Whatever belongs to other merchants than `m` is in `d'` what it was in `d`. -/
def Db.OthersSame (m : Uuid) (d d' : Db) : Prop :=
  ∀ n, n ≠ m → ∀ r, d'.Owns n r ↔ d.Owns n r

/-- `w'` is the wallet `w` after the credit of a transfer. -/
def WalletRow.Credited (dto : CreateTransferDto) (w w' : WalletRow) : Prop :=
  w'.id = w.id ∧ w'.merchantId = w.merchantId ∧ w'.currency = w.currency ∧
    w'.balance.val = w.balance.val + dto.amount.val ∧ w'.version = w.version + 1

/-- The same, but for the credit of a transfer to another merchant's wallet. -/
def Db.OthersCredited (m : Uuid) (dto : CreateTransferDto) (d d' : Db) : Prop :=
  ∃ (w w' : WalletRow) (e : LedgerEntryRow), w.merchantId ≠ m ∧ d.Owns w.merchantId (.wallet w) ∧
    uuidOfText dto.toWalletId = some w.id ∧ w.Credited dto w' ∧
    (e.walletId = w.id ∧ e.direction = .credit) ∧
    ∀ n, n ≠ m → ∀ r, d'.Owns n r ↔ (d.Owns n r ∧ r ≠ .wallet w) ∨
      (n = w.merchantId ∧ (r = .wallet w' ∨ r = .entry e))

/-! ## Rows and their owners -/

theorem Row.Evolves.owner {r r' : Row} (h : r.Evolves r') (d : Db) : r'.owner d = r.owner d := by
  cases hv : r.isVersioned with
  | false => rw [h.of_inserted hv]
  | true =>
    obtain ⟨hfixed, -⟩ := h
    cases r <;> cases r' <;> simp_all [Row.fixed, Row.isVersioned, Row.owner]

/-- An entry belongs to the owner of its wallet, also later. -/
theorem owner_entry_later {d d' : Db} (hd : d.Later d') {e : LedgerEntryRow} {w : WalletRow}
    (hw : d.wallet e.walletId = some w) : (Row.entry e).owner d' = some w.merchantId := by
  have hid := Db.id_of_wallet hw
  obtain ⟨w', hget, hmerchant, -, -⟩ := (Db.HasWallet.of_get (hid.symm ▸ hw)).later hd
  rw [hid] at hget
  simp [Row.owner, hget, hmerchant]

theorem owner_later {d d' : Db} (hd : d.Later d') (hposted : d.WellPosted) {r : Row}
    (hr : r ∈ d.rows) : r.owner d' = r.owner d := by
  cases r with
  | entry e =>
    have he : e ∈ d.entries := by
      rw [Db.mem_entries]
      exact Table.get_of_mem hr
    obtain ⟨w, hw, hid, -⟩ := hposted.denominated e he
    have hget : d.wallet e.walletId = some w := by
      rw [← hid]
      exact Db.wallet_eq_some.mpr (Db.mem_wallets.mp hw)
    rw [owner_entry_later hd hget]
    simp [Row.owner, hget]
  | _ => rfl

section Commit

variable {min : ℤ} {log : List Ev} {now : ℕ} {d : Db} {it : Item} {ws : List Row} {m : Uuid}

/-- A commit all of whose row versions belong to `m`. -/
theorem Db.OthersSame.of_writes (hc : Commit min log now d it ws) (hposted : d.WellPosted)
    (hown : ∀ r ∈ ws, ∀ n, r.owner (Table.install d ws) = some n → n = m) :
    Db.OthersSame m d (Table.install d ws) := by
  intro n hn r
  constructor
  · rintro ⟨hr, howner⟩
    rcases (Table.mem_install hc.nodup).mp hr with hnew | ⟨hold, -⟩
    · exact absurd (hown r hnew n howner) hn
    · exact ⟨hold, (owner_later hc.later hposted hold) ▸ howner⟩
  · rintro ⟨hr, howner⟩
    have howner' := owner_later hc.later hposted hr
    refine ⟨(Table.mem_install hc.nodup).mpr (Or.inr ⟨hr, ?_⟩), howner'.trans howner⟩
    intro hkey
    obtain ⟨x, hx, hxr⟩ := List.mem_map.mp hkey
    have hevolves := hc.evolves x hx r (hxr ▸ Table.get_of_mem hr)
    refine hn (hown x hx n ?_)
    rw [hevolves.owner, howner', howner]

/-! ## One commit -/

/-- The commit is one for the merchant `m`. -/
def Item.ActsFor (m : Uuid) : Item → Prop
  | .auto (.walletCreate m' _) _ => m' = m
  | .auto (.intentInsert m' _ _ _) _ => m' = m
  | .auto (.endpointInsert m' _ _) _ => m' = m
  | .auto (.accountInsert m' _ _ _) _ => m' = m
  | .auto (.payoutClaimDue _ _ _) rows => ∀ p ∈ (rows : List PayoutRow), p.merchantId = m
  | .auto (.idempotencyInsert m' _ _) _ => m' = m
  | .auto (.idempotencyComplete m' _ _ _) _ => m' = m
  | .auto (.idempotencyRelease m' _) _ => m' = m
  | .txn (.transfer m' _) _ => m' = m
  | .txn (.confirm m' _) _ => m' = m
  | .txn (.cancel m' _) _ => m' = m
  | .txn (.sweep w) _ => w.merchantId = m
  | _ => True

theorem Job.May.actsFor {j : Job} (h : j.May log it) (hm : j.merchant = some m) :
    it.ActsFor m := by
  cases j with
  | createWallet | registerEndpoint | registerAccount | confirm | cancel =>
    obtain ⟨r, rfl⟩ := h
    exact Option.some.inj hm
  | createIntent =>
    obtain ⟨r, rfl⟩ | ⟨r, rfl⟩ := h
    · trivial
    · exact Option.some.inj hm
  | transfer =>
    obtain ⟨-, evs, rfl⟩ := h
    exact Option.some.inj hm
  | postTransfer m' key hash dto =>
    obtain ⟨k, -, hkeyed⟩ := h
    have hact := hkeyed.act
    generalize keyStage (log ++ it.events) = after at hact
    cases hact with
    | found | missed => trivial
    | insert | transfer | complete | release => exact Option.some.inj hm
  | runNow m' =>
    obtain rfl : m' = m := Option.some.inj hm
    have hworker : WorkerMay (some m') it := h
    cases it with
    | auto s r =>
      cases s with
      | payoutClaimDue limit lease scope => exact fun p hp => hworker.2 m' rfl p hp
      | _ => trivial
    | txn t evs =>
      cases t with
      | sweep w => exact hworker m' rfl
      | _ => trivial
    | call x a => trivial
  | sweep | processDue | tick => simp [Job.merchant] at hm

theorem Outbox.owner {type : EventType} {data : EventData} (o : Outbox d m type data) {d' : Db}
    {r : Row} (hr : r ∈ o.writes) : r.owner d' = some m := by
  obtain ⟨e, he, rfl⟩ := List.mem_map.mp hr
  simp [Row.owner, (o.shape e he).1]

/-- A commit for `m`, by a process whose payouts are those of `m`, writes rows of
`m` only. -/
theorem Commit.owned (h : Commit min log now d it ws) (hacts : it.ActsFor m)
    (hnot : Item.isTransfer it = false) (hsources : d.SourcesBound)
    (hphase : ∀ p ∈ (phase log).payouts, p.merchantId = m) :
    ∀ r ∈ ws, ∀ n, r.owner (Table.install d ws) = some n → n = m := by
  intro r hr n howner
  have hlater := h.later
  -- an entry of a wallet of `m`
  have hentry : ∀ {e : LedgerEntryRow} {w : WalletRow}, d.wallet e.walletId = some w →
      w.merchantId = m → r = .entry e → n = m := by
    rintro e w hw hm rfl
    rw [owner_entry_later hlater hw, Option.some.injEq] at howner
    rw [← howner, hm]
  have hplain : ∀ {k : Uuid}, r.owner (Table.install d ws) = some k → k = m → n = m := by
    intro k hk hkm
    rw [howner, Option.some.injEq] at hk
    rw [hk, hkm]
  cases h with
  | query | accountFind | bank | sweepSkip => simp at hr
  | transfer => simp [Item.isTransfer] at hnot
  | walletCreate row shape =>
    rw [List.mem_singleton] at hr
    subst hr
    exact hplain rfl (shape.1.trans hacts)
  | intentInsert row shape =>
    rw [List.mem_singleton] at hr
    subst hr
    exact hplain rfl (shape.1.trans hacts)
  | endpointInsert row shape =>
    rw [List.mem_singleton] at hr
    subst hr
    exact hplain rfl (shape.1.trans hacts)
  | accountInsert row shape =>
    rw [List.mem_singleton] at hr
    subst hr
    exact hplain rfl (shape.1.trans hacts)
  | claimDue limit scope rows =>
    obtain ⟨p, hp, rfl⟩ := List.mem_map.mp hr
    exact hplain rfl (hacts p hp)
  | markRetry p rest row message place remaining rowGet same =>
    rw [List.mem_singleton] at hr
    subst hr
    have hp : p.merchantId = m := hphase p (by rw [place.payouts]; exact List.mem_cons_self)
    simp only [Row.fixed, Row.payout.injEq, PayoutRow.mk.injEq] at same
    exact hplain rfl (same.2.1.trans hp)
  | keyed s r' ws hkey =>
    cases hkey with
    | get | completeNone | releaseNone => simp at hr
    | insert | complete | release =>
      rw [List.mem_singleton] at hr
      subst hr
      exact hplain rfl hacts
  | confirm c =>
    simp only [ConfirmCommit.writes, List.mem_append, List.mem_cons, List.not_mem_nil,
      or_false] at hr
    have hwallet : c.wallet.merchantId = m := c.walletOwner.trans hacts
    rcases hr with (rfl | rfl | rfl | rfl | rfl) | hr
    · simp [Row.owner] at howner
    · exact hentry (e := c.entry) c.walletGet hwallet rfl
    · exact hplain rfl hwallet
    · exact hplain rfl hacts
    · exact hplain rfl (c.owner.trans hacts)
    · exact hplain (c.outbox.owner hr) hacts
  | cancel c =>
    simp only [CancelCommit.writes, List.mem_singleton] at hr
    subst hr
    exact hplain rfl (c.owner.trans hacts)
  | sweep c =>
    simp only [SweepCommit.writes, List.mem_cons, List.not_mem_nil, or_false] at hr
    have hwallet : c.wallet.merchantId = m := c.owner.trans hacts
    rcases hr with rfl | rfl | rfl | rfl
    · simp [Row.owner] at howner
    · exact hentry (e := c.entry) c.walletGet hwallet rfl
    · exact hplain rfl hwallet
    · exact hplain rfl hwallet
  | @paid p rest place c =>
    have hp : p.merchantId = m := hphase p (by rw [place]; exact List.mem_cons_self)
    have hsame := c.same
    simp only [Row.fixed, Row.payout.injEq, PayoutRow.mk.injEq] at hsame
    simp only [PaidCommit.writes, List.mem_cons] at hr
    rcases hr with rfl | hr
    · exact hplain rfl (hsame.2.1.trans hp)
    · exact hplain (c.outbox.owner hr) hp
  | @reversal p rest place c =>
    have hp : p.merchantId = m := hphase p (by rw [place.payouts]; exact List.mem_cons_self)
    have hsame := c.same
    simp only [Row.fixed, Row.payout.injEq, PayoutRow.mk.injEq] at hsame
    -- the wallet of the payout belongs to the merchant of the payout
    have hid : c.row.id = p.id := Db.id_of_payout c.rowGet
    have hrow : c.row ∈ d.payouts := by
      rw [Db.mem_payouts, hid]
      exact Db.payout_eq_some.mp c.rowGet
    obtain ⟨w, hw, hmerchant, -⟩ := hsources c.row hrow
    have hwallet : c.wallet.merchantId = m := by
      rw [hsame.2.2.1, ← c.walletId, c.walletGet, Option.some.injEq] at hw
      rw [hw, hmerchant, hsame.2.1, hp]
    simp only [ReversalCommit.writes, List.mem_append, List.mem_cons, List.not_mem_nil,
      or_false] at hr
    rcases hr with (rfl | rfl | rfl | rfl) | hr
    · simp [Row.owner] at howner
    · exact hentry (e := c.entry) c.walletGet hwallet rfl
    · exact hplain rfl hwallet
    · exact hplain rfl (hsame.2.1.trans hp)
    · exact hplain (c.outbox.owner hr) hp

/-- A transfer by `m` changes nothing of the others, or credits one of them. -/
theorem TransferCommit.others {dto : CreateTransferDto} (c : TransferCommit d m dto)
    (h : Commit min log now d it c.writes) (hposted : d.WellPosted) :
    Db.OthersSame m d (Table.install d c.writes) ∨
      Db.OthersCredited m dto d (Table.install d c.writes) := by
  have hsource : c.source.merchantId = m := c.sourceMerchant.trans c.owner
  have hlater := h.later
  -- the owners of the five row versions
  have howner : ∀ r ∈ c.writes, ∀ n, r.owner (Table.install d c.writes) = some n → n = m ∨
      (n = c.dest.merchantId ∧ (r = .wallet c.newDest ∨ r = .entry ⟨c.creditId, c.transactionId,
        c.dest.id, .credit, c.amount, c.dest.currency, c.positive⟩)) := by
    intro r hr n hn
    simp only [TransferCommit.writes, List.mem_cons, List.not_mem_nil, or_false] at hr
    rcases hr with rfl | rfl | rfl | rfl | rfl
    · simp [Row.owner] at hn
    · rw [owner_entry_later hlater c.sourceGet, Option.some.injEq] at hn
      exact Or.inl (hn.symm.trans hsource)
    · rw [owner_entry_later hlater c.destGet, Option.some.injEq] at hn
      exact Or.inr ⟨hn.symm, Or.inr rfl⟩
    · exact Or.inl ((Option.some.inj hn).symm.trans hsource)
    · exact Or.inr ⟨(Option.some.inj hn).symm, Or.inl rfl⟩
  by_cases hdest : c.dest.merchantId = m
  · refine Or.inl (Db.OthersSame.of_writes h hposted ?_)
    intro r hr n hn
    rcases howner r hr n hn with hm | ⟨hm, -⟩
    · exact hm
    · exact hm.trans hdest
  refine Or.inr ⟨c.dest, c.newDest, ⟨c.creditId, c.transactionId, c.dest.id, .credit, c.amount,
    c.dest.currency, c.positive⟩, hdest, ⟨Table.mem_of_get (Db.wallet_eq_some.mp c.destGet), rfl⟩,
    ?_, ⟨rfl, rfl, rfl, c.credited, rfl⟩, ⟨rfl, rfl⟩, ?_⟩
  · rw [c.toId, c.destId]
  intro n hn r
  have hget : d.get (.wallet c.dest.id) = some (.wallet c.dest) := Db.wallet_eq_some.mp c.destGet
  constructor
  · rintro ⟨hr, hrn⟩
    rcases (Table.mem_install h.nodup).mp hr with hnew | ⟨hold, hkey⟩
    · rcases howner r hnew n hrn with hm | hcredit
      · exact absurd hm hn
      · exact Or.inr hcredit
    · refine Or.inl ⟨⟨hold, (owner_later hlater hposted hold) ▸ hrn⟩, ?_⟩
      rintro rfl
      exact hkey (by simp [TransferCommit.writes, TransferCommit.newDest])
  · rintro (⟨⟨hr, hrn⟩, hne⟩ | ⟨rfl, rfl | rfl⟩)
    · have hrn' := owner_later hlater hposted hr
      refine ⟨(Table.mem_install h.nodup).mpr (Or.inr ⟨hr, ?_⟩), hrn'.trans hrn⟩
      intro hkey
      obtain ⟨x, hx, hxr⟩ := List.mem_map.mp hkey
      have hevolves := h.evolves x hx r (hxr ▸ Table.get_of_mem hr)
      have hxn : x.owner (Table.install d c.writes) = some n := by
        rw [hevolves.owner, hrn', hrn]
      rcases howner x hx n hxn with hm | ⟨-, rfl | rfl⟩
      · exact hn hm
      · have hsame := Table.get_of_mem hr
        rw [← hxr, show (Row.wallet c.newDest).key = .wallet c.dest.id from rfl, hget,
          Option.some.injEq] at hsame
        exact hne hsame.symm
      · have hfresh := Table.get_of_mem hr
        rw [← hxr, Row.key, c.creditFresh] at hfresh
        simp at hfresh
    · refine ⟨(Table.mem_install h.nodup).mpr (Or.inl (by simp [TransferCommit.writes])), rfl⟩
    · refine ⟨(Table.mem_install h.nodup).mpr (Or.inl (by simp [TransferCommit.writes])), ?_⟩
      exact owner_entry_later hlater c.destGet

theorem WorkerMay.not_transfer {scope : Option Uuid} {it : Item} (h : WorkerMay scope it) :
    Item.isTransfer it = false := by
  cases it with
  | txn t evs =>
    cases t with
    | transfer => exact h.elim
    | _ => rfl
  | _ => rfl

theorem Commit.transferred_others {dto : CreateTransferDto} {evs : List Ev}
    (h : Commit min log now d (.txn (.transfer m dto) evs) ws) (hposted : d.WellPosted) :
    Db.OthersSame m d (Table.install d ws) ∨ Db.OthersCredited m dto d (Table.install d ws) := by
  cases h with
  | transfer c =>
    have hcommit : Commit min log now d (.txn (.transfer m dto) c.events) c.writes := .transfer c
    exact c.others hcommit hposted

/-- A request that commits a transfer commits the one its body asks for. -/
theorem Job.May.of_transfer {j : Job} (h : j.May log it) (hm : j.merchant = some m)
    (hsent : Item.isTransfer it = true) :
    ∃ dto evs, j.transferDto = some dto ∧ it = .txn (.transfer m dto) evs := by
  cases j with
  | transfer m' dto =>
    obtain ⟨-, evs, rfl⟩ := h
    obtain rfl : m' = m := Option.some.inj hm
    exact ⟨dto, evs, rfl, rfl⟩
  | postTransfer m' key hash dto =>
    obtain ⟨k, -, hkeyed⟩ := h
    obtain rfl : m' = m := Option.some.inj hm
    have hact := hkeyed.act
    generalize keyStage (log ++ it.events) = after at hact
    cases hact with
    | transfer c evs => exact ⟨dto, evs, rfl, rfl⟩
    | _ => simp [Item.isTransfer] at hsent
  | createWallet | registerEndpoint | registerAccount | confirm | cancel =>
    obtain ⟨r, rfl⟩ := h
    simp [Item.isTransfer] at hsent
  | createIntent =>
    obtain ⟨r, rfl⟩ | ⟨r, rfl⟩ := h
    · simp [Item.isTransfer] at hsent
    · simp [Item.isTransfer] at hsent
  | sweep | processDue | runNow | tick =>
    have hnot : Item.isTransfer it = false := WorkerMay.not_transfer h
    rw [hsent] at hnot
    cases hnot

end Commit

/-! ## One step of a request -/

section Runs

variable {min : ℤ} {P : List Job → Abs → Prop} {js : List Job} {a : Abs} {m : Uuid}

/-- The payouts a request has in hand are those of its merchant. -/
theorem JReach.hands_owned (h : JReach min P js a) {i : ℕ} {j : Job} {q : Bool × List Ev}
    (hj : js[i]? = some j) (hq : a.procs[i]? = some q) (hm : j.merchant = some m) :
    ∀ p ∈ (phase q.2).payouts, p.merchantId = m := by
  refine TxStore.JReach.each (F := fun j log => j.merchant = some m →
    ∀ p ∈ (phase log).payouts, p.merchantId = m) ?_ ?_ ?_ h i j q hj hq hm
  · exact fun j _ p hp => by simp [Phase.payouts] at hp
  · intro j log f hF hm p hp
    rw [phase_fault] at hp
    exact hF hm p hp
  · intro js a i j log it p now d _ _ hg hmay hF hm
    have hc : Commit min log now d it p.writes := hg
    have hacts := hmay.actsFor hm
    rcases hc.batch with ⟨limit, scope, rows, rfl, hrows, -⟩ | ⟨x, hbefore, -⟩ | ⟨-, hsame⟩
    · rw [hrows]
      exact hacts
    · intro y hy
      exact hF hm y (by rw [hbefore]; exact List.mem_cons_of_mem _ hy)
    · rw [hsame]
      exact hF hm

/-- How many transfers a request has committed. -/
def Job.transfers (log : List Ev) : Job → ℕ
  | .transfer _ _ => if transferred log then 1 else 0
  | .postTransfer _ _ _ _ => (keyStage log).sent
  | _ => 0

theorem Job.transfers_le (log : List Ev) (j : Job) : j.transfers log ≤ 1 := by
  cases j with
  | transfer => rw [Job.transfers]; split <;> omega
  | postTransfer => rw [Job.transfers]; unfold KeyStage.sent; split <;> omega
  | _ => exact Nat.zero_le _

/-- A request commits at most one transfer. -/
theorem JReach.transfers_le (h : JReach min P js a) {i : ℕ} {j : Job} {q : Bool × List Ev}
    (hj : js[i]? = some j) (hq : a.procs[i]? = some q) :
    a.history.countP (fun x => x.1 == i && Item.isTransfer x.2) ≤ j.transfers q.2 := by
  refine TxStore.JReach.each_committed (F := fun i j log hist =>
    hist.countP (fun x => x.1 == i && Item.isTransfer x.2) ≤ j.transfers log) ?_ ?_ ?_ ?_ h i j q
    hj hq
  · intro i j hist hknown
    have hnone : hist.countP (fun x => x.1 == i && Item.isTransfer x.2) = 0 := by
      rw [List.countP_eq_zero]
      intro x hx htrue
      simp only [Bool.and_eq_true, beq_iff_eq] at htrue
      exact absurd (hknown x hx) (by omega)
    rw [hnone]
    exact Nat.zero_le _
  · intro i j log f hist hF
    cases j with
    | transfer => simpa [Job.transfers] using hF
    | postTransfer => simpa [Job.transfers] using hF
    | _ => exact hF
  · intro js a i j log it p now d hist _ _ hg hmay hF
    rw [List.countP_append, List.countP_singleton, beq_self_eq_true, Bool.true_and]
    cases j with
    | transfer m' dto =>
      obtain ⟨hfirst, evs, rfl⟩ := hmay
      have hsent : ∀ ws, Commit min log now d (.txn (.transfer m' dto) evs) ws →
          transferred (log ++ evs) = true := by
        intro ws hc
        cases hc with
        | transfer c => simp [transferred, TransferCommit.events]
      replace hsent := hsent p.writes hg
      simp only [Job.transfers, hfirst, Item.events, hsent, if_true, Bool.false_eq_true,
        if_false] at hF ⊢
      split <;> omega
    | postTransfer m' key hash dto =>
      obtain ⟨k, -, hkeyed⟩ := hmay
      have hact := hkeyed.act
      simp only [Job.transfers] at hF ⊢
      generalize keyStage (log ++ it.events) = after at hact ⊢
      cases hact with
      | insert place | found row place | missed place | release c place =>
        simpa [place, Item.isTransfer, KeyStage.sent] using hF
      | transfer c evs place => simpa [place, Item.isTransfer, KeyStage.sent] using hF
      | complete c x status body place handled =>
        cases x <;> simpa [place, Item.isTransfer, KeyStage.sent] using hF
    | createWallet | registerEndpoint | registerAccount | confirm | cancel =>
      obtain ⟨r, rfl⟩ := hmay
      exact hF
    | createIntent =>
      obtain ⟨r, rfl⟩ | ⟨r, rfl⟩ := hmay
      · exact hF
      · exact hF
    | sweep | processDue | runNow | tick =>
      have hnot : Item.isTransfer it = false := WorkerMay.not_transfer hmay
      simpa [hnot, Job.transfers] using hF
  · intro i j log k it hist hik hF
    rw [List.countP_append, List.countP_singleton]
    simpa [hik] using hF

end Runs

/-! ## From before a request to after it -/

theorem Db.OthersSame.refl (m : Uuid) (d : Db) : Db.OthersSame m d d := fun _ _ _ => Iff.rfl

theorem Db.OthersSame.trans {m : Uuid} {d d' d'' : Db} (h : Db.OthersSame m d d')
    (h' : Db.OthersSame m d' d'') : Db.OthersSame m d d'' :=
  fun n hn r => (h' n hn r).trans (h n hn r)

theorem Db.OthersSame.then_credited {m : Uuid} {dto : CreateTransferDto} {d d' d'' : Db}
    (h : Db.OthersSame m d d') (h' : Db.OthersCredited m dto d' d'') :
    Db.OthersCredited m dto d d'' := by
  obtain ⟨w, w', e, hw, howns, hto, hcredited, he, hrows⟩ := h'
  refine ⟨w, w', e, hw, (h _ hw _).mp howns, hto, hcredited, he, ?_⟩
  intro n hn r
  rw [hrows n hn r, h n hn r]

theorem Db.OthersCredited.then_same {m : Uuid} {dto : CreateTransferDto} {d d' d'' : Db}
    (h : Db.OthersCredited m dto d d') (h' : Db.OthersSame m d' d'') :
    Db.OthersCredited m dto d d'' := by
  obtain ⟨w, w', e, hw, howns, hto, hcredited, he, hrows⟩ := h
  refine ⟨w, w', e, hw, howns, hto, hcredited, he, ?_⟩
  intro n hn r
  rw [h' n hn r, hrows n hn r]

/-- No wallet of another merchant has less in `d'` than in `d`. -/
def Db.NoneDebited (m : Uuid) (d d' : Db) : Prop :=
  ∀ w : WalletRow, w.merchantId ≠ m → Row.wallet w ∈ d.rows → ∃ w' : WalletRow,
    Row.wallet w' ∈ d'.rows ∧ w'.id = w.id ∧ w'.merchantId = w.merchantId ∧
    w.balance.val ≤ w'.balance.val

/-- What a request of the merchant `m` may do to the tables: nothing to the rows
of the others, or the one credit of its transfer. -/
def Job.Spares (j : Job) (m : Uuid) (d d' : Db) : Prop :=
  Db.OthersSame m d d' ∨ ∃ dto, j.transferDto = some dto ∧ Db.OthersCredited m dto d d'

theorem Job.Spares.none_debited {j : Job} {m : Uuid} {d d' : Db} (h : j.Spares m d d') :
    Db.NoneDebited m d d' := by
  intro w hw hmem
  rcases h with hsame | ⟨dto, -, u, u', e, hu, hown, -, hcredited, -, hrows⟩
  · exact ⟨w, ((hsame _ hw _).mpr ⟨hmem, rfl⟩).1, rfl, rfl, le_refl _⟩
  by_cases hwu : w = u
  · subst hwu
    obtain ⟨hid, hmerchant, -, hbalance, -⟩ := hcredited
    refine ⟨u', ((hrows _ hw _).mpr (Or.inr ⟨rfl, Or.inl rfl⟩)).1, hid, hmerchant, ?_⟩
    have hpos := dto.amount.pos
    omega
  · refine ⟨w, ((hrows _ hw _).mpr (Or.inl ⟨⟨hmem, rfl⟩, ?_⟩)).1, rfl, rfl, le_refl _⟩
    simpa using hwu

/-- How many transfers process `i` has committed. -/
def Sys.sent (s : Sys) (i : ℕ) : ℕ :=
  s.history.countP (fun x => x.1 == i && Item.isTransfer x.2)

section Requests

variable {min : ℤ} {ls : List Step} {s s' : Sys} {j : Job} {m : Uuid} {i : ℕ}

theorem sent_le (h : RunBy min (fun _ _ _ => True) ls s) (hj : (jobs ls)[i]? = some j) :
    s.sent i ≤ 1 := by
  have hr : JReach min (fun _ _ => True) (jobs ls) s.abs :=
    run_refines (fun _ _ _ _ _ _ _ => trivial) h
  obtain ⟨hlt, -⟩ := List.getElem?_eq_some_iff.mp hj
  rw [hr.sized.1] at hlt
  exact (JReach.transfers_le hr hj (List.getElem?_eq_getElem hlt)).trans (Job.transfers_le _ j)

theorem sent_mono {l : Step} (hstep : s.next min l = some s') : s.sent i ≤ s'.sent i := by
  rcases Sys.step_history hstep with ⟨hsame, -⟩ | ⟨_, _, _, _, _, _, _, _, _, hlast⟩
  · rw [Sys.sent, Sys.sent, hsame]
  · rw [Sys.sent, Sys.sent, hlast, List.countP_append]
    exact Nat.le_add_right _ _

/-- One step of the process of a request, whatever runs beside it. -/
theorem request_step (h : RunBy min (fun _ _ _ => True) ls s) (hj : (jobs ls)[i]? = some j)
    (hm : j.merchant = some m) {l : Step} (hl : ∀ k, l.mover = some k → k = i)
    (hstep : s.next min l = some s') :
    Db.OthersSame m s.db s'.db ∨ ((∃ dto, j.transferDto = some dto ∧
      Db.OthersCredited m dto s.db s'.db) ∧ s'.sent i = s.sent i + 1) := by
  have hr : JReach min (fun _ _ => True) (jobs ls) s.abs :=
    run_refines (fun _ _ _ _ _ _ _ => trivial) h
  have ha : AReach min (fun _ => True) s.abs := reach_refines (fun _ _ _ _ => trivial) h.reach
  rcases (run_step_refines h hstep).effect with ⟨hdb, -⟩ | ⟨k, j', log, it, p, hj', hk, hg, hmay,
      hdb, hlast⟩
  · have hdb : s'.db = s.db := hdb
    rw [hdb]
    exact Or.inl (Db.OthersSame.refl m _)
  have hdb : s'.db = Table.install s.db p.writes := hdb
  have hlast : s'.history = s.history ++ [(k, it)] := hlast
  -- what has been committed is a commit of this very process
  have hki : k = i := by
    rcases Sys.step_history hstep with ⟨hsame, -⟩ | ⟨k', u, n, n', it', ws, rfl, -, -, hlast'⟩
    · rw [hlast] at hsame
      simp at hsame
    · rw [hlast] at hlast'
      have hitem := List.append_cancel_left hlast'
      simp only [List.cons.injEq, Prod.mk.injEq, and_true] at hitem
      rw [hitem.1]
      exact hl k' rfl
  subst hki
  obtain rfl : j' = j := Option.some.inj (hj'.symm.trans hj)
  have hc : Commit min log s.now s.db it p.writes := hg
  have hacts := hmay.actsFor hm
  have hposted : Db.WellPosted s.db := wellPosted ha
  rw [hdb]
  cases hsent : Item.isTransfer it with
  | false =>
    refine Or.inl (Db.OthersSame.of_writes hc hposted ?_)
    exact hc.owned hacts hsent hposted.sources (JReach.hands_owned hr hj hk hm)
  | true =>
    have hcount : s'.sent k = s.sent k + 1 := by
      rw [Sys.sent, hlast, List.countP_append, List.countP_singleton]
      simp [hsent, Sys.sent]
    obtain ⟨dto, evs, hdto, rfl⟩ := hmay.of_transfer hm hsent
    rcases hc.transferred_others hposted with hsame | hcredited
    · exact Or.inl hsame
    · exact Or.inr ⟨⟨dto, hdto, hcredited⟩, hcount⟩

/-- The request of process `i`, when nobody else moves. -/
theorem request_alone (hm : j.merchant = some m) (d : Db) : ∀ {ls' ls : List Step} {s s' : Sys},
    RunBy min (fun _ _ _ => True) ls s → (jobs ls)[i]? = some j →
    (∀ l ∈ ls', ∀ k, l.mover = some k → k = i) → s.run engine (program min) ls' = some s' →
    Db.OthersSame m d s.db ∨ ((∃ dto, j.transferDto = some dto ∧
      Db.OthersCredited m dto d s.db) ∧ s.sent i = 1) → j.Spares m d s'.db
  | [], _, s, s', _, _, _, hrun, hbefore => by
      simp only [Sys.run, Option.some.injEq] at hrun
      subst hrun
      rcases hbefore with hsame | ⟨hcredited, -⟩
      · exact Or.inl hsame
      · exact Or.inr hcredited
  | l :: ls', ls, s, s', h, hj, hown, hrun, hbefore => by
      simp only [Sys.run, Option.bind_eq_some_iff] at hrun
      obtain ⟨(s₁ : Sys), hstep, hrest⟩ := hrun
      have h₁ : RunBy min (fun _ _ _ => True) (ls ++ [l]) s₁ := .step h hstep trivial
      have hj₁ : (jobs (ls ++ [l]))[i]? = some j := by
        rw [jobs_append, List.getElem?_append_left (List.getElem?_eq_some_iff.mp hj).1, hj]
      have hle := sent_le h₁ hj₁
      refine request_alone hm d h₁ hj₁ (fun l' hl' => hown l' (List.mem_cons_of_mem _ hl')) hrest ?_
      rcases request_step h hj hm (hown l List.mem_cons_self) hstep with hsame | ⟨⟨dto, hdto,
          hcredited⟩, hcount⟩
      · rcases hbefore with hold | ⟨⟨dto, hdto, hold⟩, hone⟩
        · exact Or.inl (hold.trans hsame)
        · have hgrown : s.sent i ≤ s₁.sent i := sent_mono hstep
          exact Or.inr ⟨⟨dto, hdto, hold.then_same hsame⟩, by omega⟩
      · -- the one transfer of the request
        rcases hbefore with hold | ⟨-, hone⟩
        · exact Or.inr ⟨⟨dto, hdto, hold.then_credited hcredited⟩, by omega⟩
        · omega

/-- **Isolation.** A request of the merchant `m` leaves every row of another
merchant as it was, with the exception of the one credit of its transfer: each of
its steps does, whatever runs beside it, and so does the request as a whole. -/
theorem merchants_isolated (h : RunBy min (fun _ _ _ => True) ls s) (hm : j.merchant = some m) :
    (∀ (i : ℕ) (l : Step) (s' : Sys), (jobs ls)[i]? = some j → l.mover = some i →
      s.next min l = some s' → Db.NoneDebited m s.db s'.db ∧
        (Db.OthersSame m s.db s'.db ∨ (s.sent i = 0 ∧ ∃ dto, j.transferDto = some dto ∧
          Db.OthersCredited m dto s.db s'.db))) ∧
    ∀ (ls' : List Step) (s' : Sys), (∀ l ∈ ls', ∀ k, l.mover = some k → k = (jobs ls).length) →
      s.run engine (program min) (.start j :: ls') = some s' → Db.NoneDebited m s.db s'.db ∧
        (Db.OthersSame m s.db s'.db ∨ ∃ dto, j.transferDto = some dto ∧
          Db.OthersCredited m dto s.db s'.db) := by
  refine ⟨?_, ?_⟩
  · intro i l s' hj hl hstep
    have hmover : ∀ k, l.mover = some k → k = i := by
      intro k hk
      rw [hl, Option.some.injEq] at hk
      exact hk.symm
    have hle := sent_le (.step h hstep trivial) (i := i) (j := j) (by
      rw [jobs_append, List.getElem?_append_left (List.getElem?_eq_some_iff.mp hj).1, hj])
    rcases request_step h hj hm hmover hstep with hsame | ⟨hcredited, hcount⟩
    · have hspares : j.Spares m s.db s'.db := Or.inl hsame
      exact ⟨hspares.none_debited, Or.inl hsame⟩
    · have hspares : j.Spares m s.db s'.db := Or.inr hcredited
      exact ⟨hspares.none_debited, Or.inr ⟨by omega, hcredited⟩⟩
  · intro ls' s' hown hrun
    simp only [Sys.run, Option.bind_eq_some_iff] at hrun
    obtain ⟨(s₁ : Sys), hstart, hrest⟩ := hrun
    have hdb : s₁.db = s.db := by
      simp only [Sys.step, Option.some.injEq] at hstart
      rw [← hstart]
    have h₁ : RunBy min (fun _ _ _ => True) (ls ++ [.start j]) s₁ := .step h hstart trivial
    have hj₁ : (jobs (ls ++ [Label.start j]))[(jobs ls).length]? = some j := by
      simp [Label.started]
    have hspares : j.Spares m s.db s'.db := request_alone hm s.db h₁ hj₁ hown hrest
      (Or.inl (hdb ▸ Db.OthersSame.refl m _))
    exact ⟨hspares.none_debited, hspares⟩

/-- A transfer of 50 from merchant 1 to merchant 2. -/
theorem merchants_isolated_fifty : ∃ s s' : Sys, s'.sent 4 = 1 ∧
    Db.NoneDebited 1 s.db s'.db ∧ (Db.OthersSame 1 s.db s'.db ∨
      Db.OthersCredited 1 transferFifty s.db s'.db) := by
  have hrun : (runFrom 10 paidHundred).any (fun s : Sys =>
      (s.run engine (program 10) (.start (.transfer 1 transferFifty) :: drive 4 9 20)).any
        (fun s' : Sys => decide (s'.sent 4 = 1))) = true := by
    decide +kernel
  obtain ⟨s, hs, hthen⟩ := exists_run hrun
  obtain ⟨(s' : Sys), hs', hsent⟩ := (Option.any_eq_true _ _).mp hthen
  have hown : ∀ l ∈ drive 4 9 20, ∀ k, l.mover = some k → k = (jobs paidHundred).length := by
    decide
  obtain ⟨hdebited, hothers⟩ :=
    (merchants_isolated (j := .transfer 1 transferFifty) hs rfl).2 _ s' hown hs'
  refine ⟨s, s', of_decide_eq_true hsent, hdebited, hothers.imp id ?_⟩
  rintro ⟨dto, hdto, hcredited⟩
  obtain rfl : transferFifty = dto := Option.some.inj hdto
  exact hcredited

end Requests

end PaymentApis
