import PaymentApis.Schema

/-!
# Row versions

What all later versions of a row have in common, and what it means for the
tables to be in a later state.
-/

namespace PaymentApis

open TxStore

/-- The columns of a row that no statement changes; the others are blanked. -/
def Row.fixed : Row → Row
  | .wallet r => .wallet { r with balance := .zero, version := 0, check := Bigint.zero_nonneg }
  | .intent r => .intent { r with status := .requiresConfirmation }
  | .payout r => .payout { r with
      status := .pending
      reversalTransactionId := none
      attempts := 0
      nextAttemptAt := 0
      failureReason := none }
  | .idempotency r => .idempotency { r with row := none }
  | r => r

def Row.version : Row → ℕ
  | .wallet r => r.version
  | _ => 0

/-- A later version of a row: the fixed columns stay, and a wallet's version
number never goes back. -/
def Row.Evolves (r r' : Row) : Prop := r'.fixed = r.fixed ∧ r.version ≤ r'.version

theorem Row.Evolves.refl (r : Row) : r.Evolves r := ⟨rfl, le_refl _⟩

theorem Row.Evolves.trans (a b c : Row) (h : a.Evolves b) (h' : b.Evolves c) : a.Evolves c :=
  ⟨h'.1.trans h.1, h.2.trans h'.2⟩

theorem Row.Evolves.of_wallet {w : WalletRow} {r : Row} (h : (Row.wallet w).Evolves r) :
    ∃ w', r = .wallet w' ∧ w'.id = w.id ∧ w'.merchantId = w.merchantId ∧
      w'.currency = w.currency ∧ w.version ≤ w'.version := by
  obtain ⟨hfixed, hversion⟩ := h
  cases r <;> simp only [Row.fixed, reduceCtorEq, Row.wallet.injEq, WalletRow.mk.injEq] at hfixed
  exact ⟨_, rfl, hfixed.1, hfixed.2.1, hfixed.2.2.1, hversion⟩

theorem Row.Evolves.of_payout {p : PayoutRow} {r : Row} (h : (Row.payout p).Evolves r) :
    ∃ p', r = .payout p' ∧ (Row.payout p').fixed = (Row.payout p).fixed := by
  obtain ⟨hfixed, -⟩ := h
  cases r <;> simp only [Row.fixed, reduceCtorEq] at hfixed
  exact ⟨_, rfl, hfixed⟩

/-- Rows of the tables that are updated in place. -/
def Row.isVersioned : Row → Bool
  | .wallet _ => true
  | .intent _ => true
  | .payout _ => true
  | .idempotency _ => true
  | _ => false

theorem Row.Evolves.of_inserted {r r' : Row} (h : r.Evolves r') (hr : r.isVersioned = false) :
    r' = r := by
  obtain ⟨hfixed, -⟩ := h
  cases r <;> cases r' <;> simp_all [Row.fixed, Row.isVersioned]

/-- `d'` is a later state of the tables than `d`. -/
abbrev Db.Later (d d' : Db) : Prop := d.Extends Row.Evolves d'

theorem Db.Later.refl (d : Db) : d.Later d := Table.Extends.refl Row.Evolves.refl

theorem Db.Later.trans {a b c : Db} (h : a.Later b) (h' : b.Later c) : a.Later c :=
  Table.Extends.trans Row.Evolves.trans h h'

/-- The wallet a row was read from is still there. -/
def Db.HasWallet (d : Db) (w : WalletRow) : Prop :=
  ∃ w', d.wallet w.id = some w' ∧ w'.merchantId = w.merchantId ∧ w'.currency = w.currency ∧
    w.version ≤ w'.version

/-- The payout a row was read from is still there. -/
def Db.HasPayout (d : Db) (p : PayoutRow) : Prop :=
  ∃ p', d.payout p.id = some p' ∧ (Row.payout p').fixed = (Row.payout p).fixed

theorem Db.HasWallet.of_get {d : Db} {w : WalletRow} (h : d.wallet w.id = some w) :
    d.HasWallet w := ⟨w, h, rfl, rfl, le_refl _⟩

theorem Db.HasPayout.of_get {d : Db} {p : PayoutRow} (h : d.payout p.id = some p) :
    d.HasPayout p := ⟨p, h, rfl⟩

theorem Db.HasWallet.later {d d' : Db} {w : WalletRow} (h : d.HasWallet w) (hd : d.Later d') :
    d'.HasWallet w := by
  obtain ⟨w', hget, hm, hc, hv⟩ := h
  obtain ⟨r, hr, hevolves⟩ := hd _ _ (Db.wallet_eq_some.mp hget)
  obtain ⟨w'', rfl, -, hm', hc', hv'⟩ := hevolves.of_wallet
  exact ⟨w'', Db.wallet_eq_some.mpr hr, hm'.trans hm, hc'.trans hc, hv.trans hv'⟩

theorem Db.HasPayout.later {d d' : Db} {p : PayoutRow} (h : d.HasPayout p) (hd : d.Later d') :
    d'.HasPayout p := by
  obtain ⟨p', hget, hp⟩ := h
  obtain ⟨r, hr, hevolves⟩ := hd _ _ (Db.payout_eq_some.mp hget)
  obtain ⟨p'', rfl, hp'⟩ := hevolves.of_payout
  exact ⟨p'', Db.payout_eq_some.mpr hr, hp'.trans hp⟩

/-- Rows of the other tables stay as they were inserted. -/
theorem Db.Later.get {d d' : Db} (hd : d.Later d') {k : Loc} {r : Row} (h : d.get k = some r)
    (hr : r.isVersioned = false) : d'.get k = some r := by
  obtain ⟨r', hr', hevolves⟩ := hd _ _ h
  rw [hevolves.of_inserted hr] at hr'
  exact hr'

theorem Db.account_later {d d' : Db} {id : Uuid} {a : PayoutAccountRow}
    (h : d.account id = some a) (hd : d.Later d') : d'.account id = some a :=
  Db.account_eq_some.mpr (hd.get (Db.account_eq_some.mp h) rfl)

end PaymentApis
