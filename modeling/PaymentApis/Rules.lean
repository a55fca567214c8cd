import PaymentApis.Commits
import PaymentApis.Specs

/-!
# Rules for the statements of a transaction

The contract of the settlement proofs: while a transaction is open, the others
leave the rows it has locked alone and only move the tables to a later state;
what it commits is a `Commit`. The rules below walk a transaction statement by
statement, keeping what it has written and what it holds locked (`Open`).
-/

namespace PaymentApis

open TxStore

/-- What the other processes do while a transaction is open. -/
def Rely (p : Priv) (d d' : Db) : Prop := (∀ l ∈ p.locks, d'.get l = d.get l) ∧ d.Later d'

def commits (min : ℤ) : Contract Row Loc Row.key Stmt Resp Fault Err TxnName BankTransfer where
  Inv := fun _ => True
  Rely := Rely
  Pre := fun _ _ _ _ => True
  Guar := fun log it p now d => Commit min log now d it p.writes

theorem commits_lawful (min : ℤ) : (commits min).Lawful (fun _ _ => True) where
  refl := fun _ d => ⟨fun _ _ => rfl, Db.Later.refl d⟩
  trans := fun _ _ _ _ h h' =>
    ⟨fun l hl => (h'.1 l hl).trans (h.1 l hl), h.2.trans h'.2⟩
  drop := by
    intro p d d' h
    refine ⟨?_, h.2⟩
    intro l hl
    simp [Priv.begin] at hl
  inv := fun _ _ _ _ _ _ _ => trivial
  rely := by
    intro log it p now d q _ hg hcov hdisj _
    refine ⟨?_, hg.later⟩
    intro l hl
    apply Table.get_install_of_notMem
    intro hmem
    obtain ⟨r, hr, rfl⟩ := List.mem_map.mp hmem
    exact hdisj _ (hcov r hr) hl

/-! ## Rules for statements -/

/-- An open transaction: what it has observed and written, and the committed
rows under its locks. -/
structure Open (evs : List Ev) (ws : List Row) (base : List (Loc × Option Row)) (p : Priv)
    (d : Db) : Prop where
  events : p.events = evs
  writes : p.writes = ws
  held : ∀ x ∈ base, x.1 ∈ p.locks ∧ d.get x.1 = x.2

theorem Open.begin (d : Db) : Open [] [] [] .begin d := ⟨rfl, rfl, by simp⟩

section Rules

variable {min : ℤ} {log : List Ev} {α β : Type} {evs : List Ev} {ws : List Row}
  {base : List (Loc × Option Row)} {p : Priv} {d₀ d d' : Db}
  {post : β → Priv → Db → Prop} {epost : Err → Priv → Db → Prop}

theorem Open.rely (h : Open evs ws base p d) (hr : Rely p d d') : Open evs ws base p d' where
  events := h.events
  writes := h.writes
  held := fun x hx => ⟨(h.held x hx).1, (hr.1 _ (h.held x hx).1).trans (h.held x hx).2⟩

theorem Open.get (h : Open evs ws base p d) {l : Loc} {x : Option Row} (hx : (l, x) ∈ base) :
    d.get l = x := (h.held _ hx).2

theorem Open.hold (h : Open evs ws base p d) {l : Loc} {x : Option Row} (hl : l ∈ p.locks)
    (hx : d.get l = x) : Open evs ws ((l, x) :: base) p d where
  events := h.events
  writes := h.writes
  held := by
    intro y hy
    rcases List.mem_cons.mp hy with rfl | hy
    · exact ⟨hl, hx⟩
    · exact h.held y hy

theorem Open.weaken {base' : List (Loc × Option Row)} (h : Open evs ws base p d)
    (hsub : ∀ x ∈ base', x ∈ base) : Open evs ws base' p d :=
  ⟨h.events, h.writes, fun x hx => h.held x (hsub x hx)⟩

/-- Any statement: the others move first, then it takes effect. -/
theorem safe_stmt {s : Stmt} {k : Resp s → Tx β} (ho : Open evs ws base p d) (hd : d₀.Later d)
    (hk : ∀ d' env busy r w p', d₀.Later d' →
      (Sql.exec s env busy (d'.install ws)).out = .ok (r, w) →
      (∀ l ∈ (Sql.exec s env busy (d'.install ws)).locked Row.key, l ∈ p'.locks) →
      Open (evs ++ [.stmt s r]) (ws ++ w) base p' d' →
      (k r).Safe engine (commits min) log post epost p' d') :
    (Body.stmt s k).Safe engine (commits min) log post epost p d := by
  intro d' hr _
  refine ⟨trivial, ?_⟩
  intro env busy r w hout
  have hview : p.view d' = d'.install ws := by rw [Priv.view, ho.writes]
  rw [hview] at hout
  have ho' := ho.rely hr
  refine hk d' env busy r w _ (hd.trans hr.2) hout ?_ ?_
  · intro l hl
    rw [hview]
    exact List.mem_append_right _ hl
  · refine ⟨?_, ?_, ?_⟩
    · rw [Priv.add, ho'.events]
    · rw [Priv.add, ho'.writes]
    · intro x hx
      exact ⟨List.mem_append_left _ (ho'.held x hx).1, (ho'.held x hx).2⟩

/-- The end of a transaction. -/
theorem safe_ret {b : β} (ho : Open evs ws base p d) (hd : d₀.Later d)
    (hpost : ∀ d' p', d₀.Later d' → Open evs ws base p' d' → post b p' d') :
    (Body.ret b : Tx β).Safe engine (commits min) log post epost p d :=
  fun _ hr _ => hpost _ _ (hd.trans hr.2) (ho.rely hr)

theorem safe_throw {e : Err} (he : ∀ p d, epost e p d) :
    (Body.throw e : Tx β).Safe engine (commits min) log post epost p d :=
  fun _ _ _ => he p _

/-- A statement that locks and writes nothing. -/
theorem safe_read {s : Stmt} {k : Resp s → Tx β} {Q : Resp s → Db → Prop}
    (ho : Open evs ws base p d) (hd : d₀.Later d)
    (hs : ∀ env busy v r w, (Sql.exec s env busy v).out = .ok (r, w) → Q r v ∧ w = [])
    (hk : ∀ d' r p', d₀.Later d' → Q r (d'.install ws) →
      Open (evs ++ [.stmt s r]) ws base p' d' →
      (k r).Safe engine (commits min) log post epost p' d') :
    (Body.stmt s k).Safe engine (commits min) log post epost p d := by
  apply safe_stmt ho hd
  intro d' env busy r w p' hd' hout _ ho'
  obtain ⟨hq, rfl⟩ := hs _ _ _ _ _ hout
  rw [List.append_nil] at ho'
  exact hk d' r p' hd' hq ho'

/-- A statement that writes one row version: its key is locked from here on. -/
theorem safe_write {s : Stmt} {k : Resp s → Tx β} {Q : Resp s → Row → Db → Prop}
    (ho : Open evs ws base p d) (hd : d₀.Later d)
    (hs : ∀ d' env busy r w, d₀.Later d' → (∀ x ∈ base, d'.get x.1 = x.2) →
      (Sql.exec s env busy (d'.install ws)).out = .ok (r, w) →
      ∃ row, w = [row] ∧ Q r row d')
    (hk : ∀ d' r row p', d₀.Later d' → Q r row d' →
      Open (evs ++ [.stmt s r]) (ws ++ [row]) ((row.key, d'.get row.key) :: base) p' d' →
      (k r).Safe engine (commits min) log post epost p' d') :
    (Body.stmt s k).Safe engine (commits min) log post epost p d := by
  apply safe_stmt ho hd
  intro d' env busy r w p' hd' hout hlocked ho'
  obtain ⟨row, rfl, hq⟩ := hs d' env busy r w hd' (fun x hx => (ho'.held x hx).2) hout
  refine hk d' r row p' hd' hq (ho'.hold (hlocked _ ?_) rfl)
  simp [Effect.locked, hout]

/-- An INSERT: its key was free, and is locked from here on. -/
theorem safe_insert {s : Stmt} {k : Resp s → Tx β} {Q : Resp s → Row → Prop}
    (ho : Open evs ws base p d) (hd : d₀.Later d)
    (hs : ∀ env busy v r w, (Sql.exec s env busy v).out = .ok (r, w) →
      ∃ row, w = [row] ∧ v.get row.key = none ∧ Q r row)
    (hk : ∀ d' r row p', d₀.Later d' → Q r row → row.key ∉ ws.map Row.key →
      Open (evs ++ [.stmt s r]) (ws ++ [row]) ((row.key, none) :: base) p' d' →
      (k r).Safe engine (commits min) log post epost p' d') :
    (Body.stmt s k).Safe engine (commits min) log post epost p d := by
  refine safe_write (Q := fun r row d' =>
    Q r row ∧ d'.get row.key = none ∧ row.key ∉ ws.map Row.key) ho hd ?_ ?_
  · intro d' env busy r w _ _ hout
    obtain ⟨row, rfl, hnone, hq⟩ := hs _ _ _ _ _ hout
    exact ⟨row, rfl, hq, Table.get_install_eq_none.mp hnone⟩
  · intro d' r row p' hd' hq ho'
    rw [hq.2.1] at ho'
    exact hk d' r row p' hd' hq.1 hq.2.2 ho'

/-- `SET balance = balance + delta` on a wallet the transaction has not written. -/
theorem safe_applyDelta {id : Uuid} {delta : Text} {k : Unit → Tx β} {w₀ : WalletRow}
    (ho : Open evs ws base p d) (hd : d₀.Later d) (hw : d₀.HasWallet w₀) (hid : w₀.id = id)
    (hnew : Loc.wallet id ∉ ws.map Row.key)
    (hk : ∀ d' p' (w : WalletRow) (b c : Bigint) (hc : 0 ≤ c.val), d₀.Later d' →
      w.id = id → w.merchantId = w₀.merchantId → w.currency = w₀.currency →
      d'.wallet w.id = some w → Bigint.parse delta = some b → c.val = w.balance.val + b.val →
      Open (evs ++ [.stmt (.walletApplyDelta id delta) ()])
        (ws ++ [.wallet { w with balance := c, check := hc }])
        ((.wallet id, some (.wallet w)) :: base) p' d' →
      (k ()).Safe engine (commits min) log post epost p' d') :
    (Body.stmt (.walletApplyDelta id delta) k).Safe engine (commits min) log post epost p d := by
  subst hid
  refine safe_write (Q := fun _ row d' => ∃ (w : WalletRow) (b c : Bigint) (hc : 0 ≤ c.val),
    w.merchantId = w₀.merchantId ∧ w.currency = w₀.currency ∧
    d'.get (.wallet w₀.id) = some (.wallet w) ∧ Bigint.parse delta = some b ∧
    c.val = w.balance.val + b.val ∧ row = .wallet { w with balance := c, check := hc }) ho hd ?_ ?_
  · intro d' env busy r rows hd' _ hout
    obtain ⟨w, hget, hm, hcur, -⟩ := hw.later hd'
    have hview : (d'.install ws).get (.wallet w₀.id) = some (.wallet w) := by
      rw [Table.get_install_of_notMem hnew]
      exact Db.wallet_eq_some.mp hget
    obtain ⟨b, c, hc, hb, hcv, rfl⟩ :=
      Sql.walletApplyDelta_ok (Db.wallet_eq_some.mpr hview) hout
    exact ⟨_, rfl, w, b, c, hc, hm, hcur, Db.wallet_eq_some.mp hget, hb, hcv, rfl⟩
  · rintro d' ⟨⟩ row p' hd' ⟨w, b, c, hc, hm, hcur, hget, hb, hcv, rfl⟩ ho'
    have hwid : w.id = w₀.id := by
      have hkey := Table.key_of_get hget
      simpa [Row.key] using hkey
    have hkey : (Row.wallet { w with balance := c, check := hc }).key = .wallet w₀.id := by
      rw [Row.key, hwid]
    rw [hkey, hget] at ho'
    exact hk d' p' w b c hc hd' hwid hm hcur (hwid ▸ Db.wallet_eq_some.mpr hget) hb hcv ho'

/-- The conditional update of a wallet: either the version has moved on, or the
row is committed as it was read. A row the transaction has itself written has
moved on. -/
theorem safe_applyDeltaIfVersion {w₀ : WalletRow} {delta : Text} {k : Bool → Tx β}
    (ho : Open evs ws base p d) (hd : d₀.Later d) (hw : d₀.HasWallet w₀)
    (hown : Loc.wallet w₀.id ∈ ws.map Row.key → ∀ d', d₀.Later d' →
      (∀ x ∈ base, d'.get x.1 = x.2) → ∀ w, Db.wallet (d'.install ws) w₀.id = some w →
      w.version ≠ w₀.version)
    (hfail : ∀ d' p' ws', Open (evs ++ [.stmt (.walletApplyDeltaIfVersion w₀.id delta w₀.version)
      false]) ws' [] p' d' → (k false).Safe engine (commits min) log post epost p' d')
    (hk : ∀ d' p' (w : WalletRow) (b c : Bigint) (hc : 0 ≤ c.val), d₀.Later d' →
      w.id = w₀.id → w.merchantId = w₀.merchantId → w.currency = w₀.currency →
      w.version = w₀.version → Loc.wallet w₀.id ∉ ws.map Row.key →
      d'.wallet w.id = some w → Bigint.parse delta = some b → c.val = w.balance.val + b.val →
      Open (evs ++ [.stmt (.walletApplyDeltaIfVersion w₀.id delta w₀.version) true])
        (ws ++ [.wallet { w with balance := c, version := w.version + 1, check := hc }])
        ((.wallet w.id, some (.wallet w)) :: base) p' d' →
      (k true).Safe engine (commits min) log post epost p' d') :
    (Body.stmt (.walletApplyDeltaIfVersion w₀.id delta w₀.version) k).Safe engine (commits min)
      log post epost p d := by
  apply safe_stmt ho hd
  intro d' env busy r rows p' hd' hout hlocked ho'
  rcases Sql.walletApplyDeltaIfVersion_ok hout with
    ⟨rfl, rfl⟩ | ⟨rfl, w, hview, hversion, b, c, hc, hb, hcv, rfl⟩
  · exact hfail d' p' _ ⟨ho'.events, ho'.writes, by simp⟩
  · have hnew : Loc.wallet w₀.id ∉ ws.map Row.key := by
      intro hmem
      exact hown hmem d' hd' (fun x hx => (ho'.held x hx).2) w hview hversion
    have hwid : w.id = w₀.id := by
      have hkey := Table.key_of_get (Db.wallet_eq_some.mp hview)
      simpa [Row.key] using hkey
    have hget : d'.wallet w.id = some w := by
      rw [hwid, Db.wallet_eq_some, ← Db.wallet_eq_some.mp hview]
      exact (Table.get_install_of_notMem hnew).symm
    obtain ⟨w', hget', hm, hcur, -⟩ := hw.later hd'
    rw [← hwid, hget, Option.some.injEq] at hget'
    subst hget'
    have hlock : Loc.wallet w.id ∈ p'.locks := by
      apply hlocked
      simp [Effect.locked, hout]
    exact hk d' p' w b c hc hd' hwid hm hcur hversion hnew hget hb hcv
      (ho'.hold hlock (Db.wallet_eq_some.mp hget))

/-- `SELECT ... FOR UPDATE` on an intent, at the start of a transaction. -/
theorem safe_findIntent {m : Uuid} {id : Text} {k : Option PaymentIntentRow → Tx β}
    (ho : Open evs [] [] p d)
    (hnone : ∀ p' d', (k none).Safe engine (commits min) log post epost p' d')
    (hk : ∀ d' p' (i : PaymentIntentRow), uuidOfText id = some i.id → i.merchantId = m →
      Open (evs ++ [.stmt (.intentFindByIdForUpdate m id) (some i)]) []
        [(.intent i.id, some (.intent i))] p' d' →
      (k (some i)).Safe engine (commits min) log post epost p' d') :
    (Body.stmt (.intentFindByIdForUpdate m id) k).Safe engine (commits min) log post epost p d := by
  apply safe_stmt ho (Db.Later.refl d)
  intro d' env busy r rows p' _ hout hlocked ho'
  obtain ⟨rfl, hspec⟩ := Sql.intentFindByIdForUpdate_ok hout
  cases r with
  | none => exact hnone p' d'
  | some i =>
    obtain ⟨hid, hget, hm, hlock⟩ := hspec i rfl
    exact hk d' p' i hid hm (ho'.hold (hlocked _ hlock) (Db.intent_eq_some.mp hget))

/-- `SELECT ... FOR UPDATE` on a wallet, at the start of a transaction. -/
theorem safe_findWallet {id : Uuid} {k : Option WalletRow → Tx β} (ho : Open evs [] [] p d)
    (hd : d₀.Later d)
    (hnone : ∀ p' d', d₀.Later d' → d'.wallet id = none →
      (k none).Safe engine (commits min) log post epost p' d')
    (hk : ∀ d' p' (w : WalletRow), d₀.Later d' → w.id = id →
      Open (evs ++ [.stmt (.walletFindByIdForUpdate id) (some w)]) []
        [(.wallet w.id, some (.wallet w))] p' d' →
      (k (some w)).Safe engine (commits min) log post epost p' d') :
    (Body.stmt (.walletFindByIdForUpdate id) k).Safe engine (commits min) log post epost p d := by
  apply safe_stmt ho hd
  intro d' env busy r rows p' hd' hout hlocked ho'
  obtain ⟨hr, rfl, hlock⟩ := Sql.walletFindByIdForUpdate_ok hout
  cases r with
  | none => exact hnone p' d' hd' hr.symm
  | some w =>
    have hget : d'.wallet id = some w := hr.symm
    have hid := Db.id_of_wallet hget
    subst hid
    exact hk d' p' w hd' rfl
      (ho'.hold (hlocked _ (hlock w rfl)) (Db.wallet_eq_some.mp hget))

/-- The status of an intent the transaction has locked. -/
theorem safe_updateStatus {i : PaymentIntentRow} {st : PaymentIntentStatus} {k : Unit → Tx β}
    (ho : Open evs ws base p d) (hd : d₀.Later d)
    (hi : (.intent i.id, some (.intent i)) ∈ base) (hnew : Loc.intent i.id ∉ ws.map Row.key)
    (hk : ∀ d' p', d₀.Later d' → Open (evs ++ [.stmt (.intentUpdateStatus i.id st) ()])
      (ws ++ [.intent { i with status := st }]) base p' d' →
      (k ()).Safe engine (commits min) log post epost p' d') :
    (Body.stmt (.intentUpdateStatus i.id st) k).Safe engine (commits min) log post epost p d := by
  refine safe_write (Q := fun _ row _ => row = .intent { i with status := st }) ho hd ?_ ?_
  · intro d' env busy r rows _ hbase hout
    have hview : Db.intent (d'.install ws) i.id = some i := by
      rw [Db.intent_eq_some, Table.get_install_of_notMem hnew]
      exact hbase _ hi
    exact ⟨_, Sql.intentUpdateStatus_ok hview hout, rfl⟩
  · rintro d' ⟨⟩ row p' hd' rfl ho'
    exact hk d' p' hd' (ho'.weaken (fun x hx => List.mem_cons_of_mem _ hx))

/-- The terminal updates of a payout, which match on its id only. -/
theorem safe_updatePayout {s : Stmt} {k : Resp s → Tx β} {q : PayoutRow} {g : PayoutRow → PayoutRow}
    (ho : Open evs ws base p d) (hd : d₀.Later d) (hq : d₀.HasPayout q)
    (hnew : Loc.payout q.id ∉ ws.map Row.key) (hg : ∀ x, (g x).id = x.id)
    (hs : ∀ env busy v r w x, Db.payout v q.id = some x →
      (Sql.exec s env busy v).out = .ok (r, w) → w = [.payout (g x)])
    (hk : ∀ d' r p' (x : PayoutRow), d₀.Later d' → (Row.payout x).fixed = (Row.payout q).fixed →
      Open (evs ++ [.stmt s r]) (ws ++ [.payout (g x)])
        ((.payout q.id, some (.payout x)) :: base) p' d' →
      (k r).Safe engine (commits min) log post epost p' d') :
    (Body.stmt s k).Safe engine (commits min) log post epost p d := by
  refine safe_write (Q := fun _ row d' => ∃ x, d'.payout q.id = some x ∧
    (Row.payout x).fixed = (Row.payout q).fixed ∧ row = .payout (g x)) ho hd ?_ ?_
  · intro d' env busy r rows hd' _ hout
    obtain ⟨x, hget, hfixed⟩ := hq.later hd'
    have hview : Db.payout (d'.install ws) q.id = some x := by
      rw [Db.payout_eq_some, Table.get_install_of_notMem hnew]
      exact Db.payout_eq_some.mp hget
    exact ⟨_, hs _ _ _ _ _ _ hview hout, x, hget, hfixed, rfl⟩
  · rintro d' r row p' hd' ⟨x, hget, hfixed, rfl⟩ ho'
    rw [Row.key, hg, Db.id_of_payout hget, Db.payout_eq_some.mp hget] at ho'
    exact hk d' r p' x hd' hfixed ho'

/-! ## Outbox rows -/

/-- The outbox rows of an `emit`, held free until the commit. -/
def heldFree (rows : List WebhookEventRow) : List (Loc × Option Row) :=
  rows.map (fun r => (.event r.id, none))

/-- The same outbox rows at a later moment of the transaction. -/
def Outbox.move {m : Uuid} {type : EventType} {data : EventData} (o : Outbox d m type data)
    (hd : d.Later d') (hfree : ∀ r ∈ o.rows, d'.get (.event r.id) = none) :
    Outbox d' m type data :=
  { o with
    active := fun e he => ⟨hd.get (o.active e he).1 rfl, (o.active e he).2⟩
    fresh := hfree }

theorem enqueueAll_safe {m : Uuid} {type : EventType} {data : EventData}
    {post : Unit → Priv → Db → Prop} (targets : List Uuid)
    (hk : ∀ d' p' (rows : List WebhookEventRow), d₀.Later d' →
      rows.map (·.endpointId) = targets →
      (∀ r ∈ rows, r.merchantId = m ∧ r.eventType = type ∧ r.payload = ⟨type, data⟩ ∧
        r.status = .pending) → (rows.map (·.id)).Nodup →
      Open (evs ++ rows.map (fun r => .stmt (.eventEnqueue m r.endpointId type ⟨type, data⟩) ()))
        (ws ++ rows.map .event) (heldFree rows ++ base) p' d' → post () p' d') :
    ∀ (eps : List WebhookEndpointRow) (rows : List WebhookEventRow) (p : Priv) (d : Db),
      d₀.Later d → rows.map (·.endpointId) ++ eps.map (·.id) = targets →
      (∀ r ∈ rows, r.merchantId = m ∧ r.eventType = type ∧ r.payload = ⟨type, data⟩ ∧
        r.status = .pending) → (rows.map (·.id)).Nodup →
      Open (evs ++ rows.map (fun r => .stmt (.eventEnqueue m r.endpointId type ⟨type, data⟩) ()))
        (ws ++ rows.map .event) (heldFree rows ++ base) p d →
      (webhookService.enqueueAll m type data eps).Safe engine (commits min) log post epost p d := by
  intro eps
  induction eps with
  | nil =>
    intro rows p d hd htargets hshape hnodup ho
    refine safe_ret ho hd ?_
    intro d' p' hd' ho'
    rw [List.map_nil, List.append_nil] at htargets
    exact hk d' p' rows hd' htargets hshape hnodup ho'
  | cons ep eps ih =>
    intro rows p d hd htargets hshape hnodup ho
    simp only [webhookService.enqueueAll, sql, Body.call_bind]
    apply safe_insert ho hd (fun _ _ _ _ _ => Sql.eventEnqueue_ok)
    rintro d' ⟨⟩ _ p' hd' ⟨id, now, rfl⟩ hnew ho'
    rw [List.map_append, List.mem_append, not_or] at hnew
    have hid : id ∉ rows.map (·.id) := by
      intro hmem
      obtain ⟨r, hr, rfl⟩ := List.mem_map.mp hmem
      exact hnew.2 (List.mem_map.mpr ⟨_, List.mem_map_of_mem hr, rfl⟩)
    apply ih (rows ++ [.enqueued id m ep.id type ⟨type, data⟩ now]) p' d' hd'
    · simpa using htargets
    · intro r hr
      rcases List.mem_append.mp hr with hr | hr
      · exact hshape r hr
      · rw [List.mem_singleton] at hr
        subst hr
        exact ⟨rfl, rfl, rfl, rfl⟩
    · rw [List.map_append, List.nodup_append]
      refine ⟨hnodup, List.nodup_singleton _, ?_⟩
      intro a ha b hb heq
      rw [List.map_singleton, List.mem_singleton] at hb
      rw [heq, hb] at ha
      exact hid ha
    · have hbase : ∀ x ∈ heldFree (rows ++ [.enqueued id m ep.id type ⟨type, data⟩ now]) ++ base,
          x ∈ (Loc.event id, none) :: (heldFree rows ++ base) := by
        intro x hx
        simp only [heldFree, List.map_append, List.map_cons, List.map_nil, List.mem_append,
          List.mem_cons, List.not_mem_nil, or_false] at hx ⊢
        tauto
      have hopen := ho'.weaken hbase
      rw [List.append_assoc, List.append_assoc] at hopen
      rw [List.map_append, List.map_append]
      exact hopen

/-- `emit` in a transaction that has written no endpoint. -/
theorem emit_safe {m : Uuid} {type : EventType} {data : EventData}
    {post : Unit → Priv → Db → Prop} (ho : Open evs ws base p d) (hd : d₀.Later d)
    (hws : ∀ r ∈ ws, r.asEndpoint = none)
    (hk : ∀ d' p' (o : Outbox d' m type data), d₀.Later d' →
      Open (evs ++ o.events) (ws ++ o.writes) (heldFree o.rows ++ base) p' d' → post () p' d') :
    (webhookService.emit m type data).Safe engine (commits min) log post epost p d := by
  simp only [webhookService.emit, sql, Body.call_bind]
  apply safe_read ho hd (fun _ _ _ _ _ => Sql.endpointListActiveByMerchant_ok)
  rintro d₁ eps p₁ hd₁ heps ho₁
  have hactive : ∀ e ∈ eps,
      d₁.get (.endpoint e.id) = some (.endpoint e) ∧ e.merchantId = m ∧ e.isActive = true := by
    intro e he
    rw [heps, List.mem_filter, Db.mem_endpoints, Bool.and_eq_true, decide_eq_true_eq] at he
    have hnot : Loc.endpoint e.id ∉ ws.map Row.key := by
      intro hmem
      obtain ⟨r, hr, hkey⟩ := List.mem_map.mp hmem
      have hnone := hws r hr
      cases r <;> simp [Row.asEndpoint] at hkey hnone
    rw [Table.get_install_of_notMem hnot] at he
    exact ⟨he.1, he.2.1, he.2.2⟩
  have hdistinct : (eps.map (·.id)).Nodup := by
    rw [heps]
    exact (Db.nodup_endpoints _).sublist (List.filter_sublist.map _)
  apply enqueueAll_safe (eps.map (·.id)) ?_ eps [] p₁ d₁ (Db.Later.refl d₁) rfl (by simp) (by simp)
  · simpa [heldFree] using ho₁
  · intro d₂ p₂ rows hd₂ htargets hshape hnodup ho₂
    let o : Outbox d₂ m type data := {
      endpoints := eps
      rows := rows
      active := fun e he => ⟨hd₂.get (hactive e he).1 rfl, (hactive e he).2⟩
      distinct := hdistinct
      targets := htargets
      shape := hshape
      nodup := hnodup
      fresh := by
        intro r hr
        apply ho₂.get
        exact List.mem_append_left _ (List.mem_map.mpr ⟨r, hr, rfl⟩) }
    apply hk d₂ p₂ o (hd₁.trans hd₂)
    simpa [Outbox.events, Outbox.writes, o, List.append_assoc] using ho₂

/-- An `emit` before the end of a transaction. -/
theorem emit_ret_safe {m : Uuid} {type : EventType} {data : EventData} {b : β}
    (ho : Open evs ws base p d) (hd : d₀.Later d) (hws : ∀ r ∈ ws, r.asEndpoint = none)
    (hk : ∀ d' p' (o : Outbox d' m type data), d₀.Later d' →
      Open (evs ++ o.events) (ws ++ o.writes) base p' d' → post b p' d') :
    (webhookService.emit m type data >>= fun _ => Body.ret b).Safe engine (commits min) log post
      epost p d := by
  have hemit : (webhookService.emit m type data).Safe engine (commits min) log
      (fun _ p d => d₀.Later d ∧ ∃ o : Outbox d m type data,
        Open (evs ++ o.events) (ws ++ o.writes) (heldFree o.rows ++ base) p d) epost p d :=
    emit_safe ho hd hws (fun d' p' o hd' ho' => ⟨hd', o, ho'⟩)
  refine Body.Safe.bind (commits_lawful min) ?_ trivial hemit
  rintro _ p₁ d₁ - ⟨hd₁, o, ho₁⟩
  refine safe_ret ho₁ (Db.Later.refl d₁) ?_
  intro d₂ p₂ hd₂ ho₂
  have hfree : ∀ r ∈ o.rows, d₂.get (.event r.id) = none := by
    intro r hr
    apply ho₂.get
    exact List.mem_append_left _ (List.mem_map.mpr ⟨r, hr, rfl⟩)
  exact hk d₂ p₂ (o.move hd₂ hfree) (hd₁.trans hd₂)
    (ho₂.weaken (fun x hx => List.mem_append_right _ hx))

end Rules

/-! ## Rules for programs -/

section ClientRules

variable {min : ℤ} {α β : Type} {log : List Ev} {d : Db}
  {post : α → List Ev → Db → Prop} {epost : Err → List Ev → Db → Prop}

theorem safe_query {s : Stmt} {post : Resp s → List Ev → Db → Prop}
    (hfault : ∀ f d', d.Later d' → epost (.db f) (log ++ [.fault f]) d')
    (hok : ∀ d' env busy r ws, d.Later d' → (Sql.exec s env busy d').out = .ok (r, ws) →
      Commit min log env.now d' (.auto s r) ws ∧
      ∀ d'', Db.Later (d'.install ws) d'' → post r (log ++ [.stmt s r]) d'') :
    (query s).Safe engine (commits min) post epost log d := by
  intro d' hr _
  refine ⟨?_, ?_⟩
  · intro f d'' hr' _
    exact hfault f d'' (hr.2.trans hr'.2)
  · intro env busy r ws hout
    obtain ⟨hc, hp⟩ := hok d' env busy r ws hr.2 hout
    exact ⟨hc, fun d'' hr' _ => hp d'' hr'.2⟩

theorem safe_transaction {t : TxnName} {body : Tx α}
    (hfault : ∀ f d', d.Later d' → epost (.db f) (log ++ [.fault f]) d')
    (hbody : ∀ d', d.Later d' → body.Safe engine (commits min) log
      (fun b p d'' => (∀ now, Commit min log now d'' (.txn t p.events) p.writes) ∧
        ∀ d₃, d.Later d₃ → Db.Later (d''.install p.writes) d₃ → post b (log ++ p.events) d₃)
      (fun e _ _ => ∀ d₃, d.Later d₃ → epost e log d₃) .begin d') :
    (Client.transaction t body).Safe engine (commits min) post epost log d := by
  intro d' hr _
  refine ⟨?_, (Body.Safe.since (commits_lawful min) hr (hbody d' hr.2)).imp ?_ ?_⟩
  · intro f d'' hr' _
    exact hfault f d'' (hr.2.trans hr'.2)
  · rintro b p d'' - ⟨hd'', hcommit, hpost⟩
    refine ⟨hcommit, ?_⟩
    intro d₃ hr' _
    exact hpost d₃ (hd''.2.trans ((hcommit 0).later.trans hr'.2)) hr'.2
  · rintro e p d'' - ⟨hd'', hepost⟩ d₃ hr' _
    exact hepost d₃ (hd''.2.trans hr'.2)

theorem safe_external {x : BankTransfer} {post : Unit → List Ev → Db → Prop}
    (hcall : ∀ d' now, d.Later d' → Commit min log now d' (.call x (simulateBankTransfer x)) [])
    (hok : ∀ d', d.Later d' → post () (log ++ [.call x (.ok ())]) d')
    (herr : ∀ e d', d.Later d' → epost e (log ++ [.call x (.error e)]) d') :
    (Client.external x).Safe engine (commits min) post epost log d := by
  intro d' hr _
  refine ⟨fun now => hcall d' now hr.2, ?_⟩
  simp only [engine]
  cases simulateBankTransfer x with
  | ok u =>
    intro d'' hr' _
    exact hok d'' (hr.2.trans hr'.2)
  | error e =>
    intro d'' hr' _
    exact herr e d'' (hr.2.trans hr'.2)

theorem safe_pure {a : α} (h : ∀ d', d.Later d' → post a log d') :
    (pure a : Prog α).Safe engine (commits min) post epost log d :=
  fun d' hr _ => h d' hr.2

theorem safe_fail {e : Err} (h : ∀ d', d.Later d' → epost e log d') :
    (Client.throw e : Prog α).Safe engine (commits min) post epost log d :=
  fun d' hr _ => h d' hr.2

theorem safe_bind {c : Prog β} {f : β → Prog α} {M : β → List Ev → Db → Prop}
    (hc : c.Safe engine (commits min) M epost log d)
    (hf : ∀ b log d, M b log d → (f b).Safe engine (commits min) post epost log d) :
    (c >>= f).Safe engine (commits min) post epost log d :=
  Client.Safe.bind (commits_lawful min) (fun b log d _ h => hf b log d h) trivial hc

theorem safe_catch {c : Prog α} {h : Err → Prog α} {M : Err → List Ev → Db → Prop}
    (hc : c.Safe engine (commits min) post M log d)
    (hh : ∀ e log d, M e log d → (h e).Safe engine (commits min) post epost log d) :
    (c.tryCatch h).Safe engine (commits min) post epost log d :=
  Client.Safe.tryCatch (commits_lawful min) (fun e log d _ hm => hh e log d hm) trivial hc

/-- Where a program ends, the tables are in a later state than where it began. -/
theorem safe_later {d₀ : Db} : ∀ {c : Prog α} {log : List Ev} {d : Db}, d₀.Later d →
    c.Safe engine (commits min) post epost log d →
    c.Safe engine (commits min) (fun a log d => d₀.Later d ∧ post a log d) epost log d
  | .ret _, _, _, h₀, h => fun d' hr hi => ⟨h₀.trans hr.2, h d' hr hi⟩
  | .throw _, _, _, _, h => fun d' hr hi => h d' hr hi
  | .query _ _, _, _, h₀, h => fun d' hr hi => by
      obtain ⟨hfault, hok⟩ := h d' hr hi
      refine ⟨fun f => safe_later (h₀.trans hr.2) (hfault f), ?_⟩
      intro env busy r ws hout
      obtain ⟨hc, hk⟩ := hok env busy r ws hout
      exact ⟨hc, safe_later (h₀.trans (hr.2.trans hc.later)) hk⟩
  | .txn _ _ _, _, _, h₀, h => fun d' hr hi => by
      obtain ⟨hfault, hbody⟩ := h d' hr hi
      refine ⟨fun f => safe_later (h₀.trans hr.2) (hfault f), ?_⟩
      refine (Body.Safe.since (commits_lawful min) hr hbody).imp ?_ ?_
      · rintro b p d'' - ⟨hd'', hc, hk⟩
        exact ⟨hc, safe_later (h₀.trans (hd''.2.trans (hc 0).later)) hk⟩
      · rintro e p d'' - ⟨hd'', hk⟩
        exact safe_later (h₀.trans hd''.2) hk
  | .call _ _, _, _, h₀, h => fun d' hr hi => by
      obtain ⟨hg, hk⟩ := h d' hr hi
      exact ⟨hg, safe_later (h₀.trans hr.2) hk⟩

end ClientRules

end PaymentApis
