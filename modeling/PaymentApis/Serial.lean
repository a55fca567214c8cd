import PaymentApis.Ledger

/-!
# Money movements are serializable

The sequential specification: one `Movement` at a time, on a table of wallets
and the table of the intents that confirms are about. A movement is what was
asked for; what it moves is worked out from these two tables alone.
`serializable` replays the committed work of any run in commit order against
it.
-/

namespace PaymentApis

open TxStore

/-! ## The sequential specification -/

abbrev Wallets := Table WalletRow Uuid (·.id)

abbrev Intents := Table PaymentIntentRow Uuid (·.id)

/-- The state of the specification. -/
@[ext] structure SpecState where
  wallets : Wallets
  intents : Intents

namespace SpecState

def empty : SpecState := ⟨.empty, .empty⟩

def putWallet (b : SpecState) (w : WalletRow) : SpecState := { b with wallets := b.wallets.put w }

def putIntent (b : SpecState) (i : PaymentIntentRow) : SpecState :=
  { b with intents := b.intents.put i }

/-- The merchant's intent of that id, while it can be confirmed or canceled. -/
def openIntent (b : SpecState) (merchantId : Uuid) (id : Text) : Option PaymentIntentRow := do
  let i ← b.intents.get (← uuidOfText id)
  if i.merchantId = merchantId ∧ i.status = .requiresConfirmation then some i else none

end SpecState

inductive Movement
  | create (row : WalletRow)
  | createIntent (row : PaymentIntentRow)
  | transfer (source dest : Text) (amount : ℕ)
  | confirm (merchantId : Uuid) (id : Text)
  | cancel (merchantId : Uuid) (id : Text)
  | sweep (wallet : Uuid)
  | reversal (wallet : Uuid) (amount : ℤ)

/-- The wallet with another balance, when a wallet can have it. -/
def WalletRow.withBalance (w : WalletRow) (b : ℤ) : Option WalletRow :=
  if h : 0 ≤ b ∧ b < 2 ^ 63 then
    some { w with balance := ⟨b, by omega, h.2⟩, check := h.1 }
  else none

/-- One movement, alone; `none` when it is not allowed. -/
def Movement.apply (min : ℤ) (b : SpecState) : Movement → Option SpecState
  | create row =>
    if (b.wallets.get row.id).isNone ∧ row.balance.val = 0 ∧ row.version = 0 ∧
        b.wallets.rows.all (fun w =>
          !decide (w.merchantId = row.merchantId ∧ w.currency = row.currency)) then
      some (b.putWallet row)
    else none
  | createIntent row =>
    if (b.intents.get row.id).isNone ∧ row.status = .requiresConfirmation then
      some (b.putIntent row)
    else none
  | transfer source dest amount => do
    let f ← b.wallets.get (← uuidOfText source)
    let g ← b.wallets.get (← uuidOfText dest)
    if f.id ≠ g.id ∧ f.currency = g.currency ∧ amount ≤ f.balance.val then
      let f' ← f.withBalance (f.balance.val - amount)
      let g' ← g.withBalance (g.balance.val + amount)
      some ((b.putWallet { f' with version := f.version + 1 }).putWallet
        { g' with version := g.version + 1 })
    else none
  | confirm m id => do
    let i ← b.openIntent m id
    let w ← b.wallets.rows.find? (fun w => decide (w.merchantId = m ∧ w.currency = i.currency))
    let w' ← w.withBalance (w.balance.val + i.amount.val)
    some ((b.putWallet w').putIntent { i with status := .succeeded })
  | cancel m id => do
    let i ← b.openIntent m id
    some (b.putIntent { i with status := .canceled })
  | sweep id => do
    let w ← b.wallets.get id
    if w.balance.val < min then some b
    else
      let w' ← w.withBalance 0
      some (b.putWallet w')
  | reversal id amount => do
    let w ← b.wallets.get id
    let w' ← w.withBalance (w.balance.val + amount)
    some (b.putWallet w')

/-- What a committed item asks for. Other items leave its state alone. -/
def movement : Item → Option Movement
  | .auto (.walletCreate _ _) row => some (.create row)
  | .auto (.intentInsert _ _ _ _) row => some (.createIntent row)
  | .txn (.transfer _ dto) _ =>
    some (.transfer dto.fromWalletId dto.toWalletId dto.amount.val)
  | .txn (.confirm m id) _ => some (.confirm m id)
  | .txn (.cancel m id) _ => some (.cancel m id)
  | .txn (.sweep w) _ => some (.sweep w.walletId)
  | .txn (.reversal p) _ => some (.reversal p.walletId p.amount.val)
  | _ => none

/-- The committed work of a run, one movement at a time, in commit order. -/
def replay (min : ℤ) (history : List (ℕ × Item)) : Option SpecState :=
  (history.filterMap (fun x => movement x.2)).foldlM (Movement.apply min) .empty

/-! ## The specification's state in a database -/

def Db.walletTable (d : Db) : Wallets := ⟨d.wallets, d.nodup_wallets⟩

def Db.intentTable (d : Db) : Intents := ⟨d.intents, d.nodup_intents⟩

def Db.specState (d : Db) : SpecState := ⟨d.walletTable, d.intentTable⟩

theorem walletTable_get (d : Db) (id : Uuid) : d.walletTable.get id = d.wallet id := by
  apply Option.ext
  intro w
  constructor
  · intro h
    have hid : w.id = id := Table.key_of_get h
    have hmem : w ∈ d.wallets := Table.mem_of_get h
    rw [← hid]
    exact Db.wallet_eq_some.mpr (Db.mem_wallets.mp hmem)
  · intro h
    have hid : w.id = id := Db.id_of_wallet h
    rw [← hid] at h ⊢
    have hmem : w ∈ d.walletTable.rows := Db.mem_wallets.mpr (Db.wallet_eq_some.mp h)
    exact Table.get_of_mem hmem

theorem intentTable_get (d : Db) (id : Uuid) : d.intentTable.get id = d.intent id := by
  apply Option.ext
  intro i
  constructor
  · intro h
    have hid : i.id = id := Table.key_of_get h
    have hmem : i ∈ d.intents := Table.mem_of_get h
    rw [← hid]
    exact Db.intent_eq_some.mpr (Db.mem_intents.mp hmem)
  · intro h
    have hid : i.id = id := Db.id_of_intent h
    rw [← hid] at h ⊢
    have hmem : i ∈ d.intentTable.rows := Db.mem_intents.mpr (Db.intent_eq_some.mp h)
    exact Table.get_of_mem hmem

theorem walletTable_put (d : Db) (w : WalletRow) :
    Db.walletTable (d.put (.wallet w)) = d.walletTable.put w := by
  apply Table.ext
  have hkey : ∀ (x : Row) (b : WalletRow), x.asWallet = some b →
      (x.key = (Row.wallet w).key ↔ b.id = w.id) := by
    intro x b hb
    rw [Row.asWallet_eq_some.mp hb]
    simp
  have hnone : ∀ x : Row, x.asWallet = none → x.key ≠ (Row.wallet w).key := by
    intro x hx
    cases x <;> simp_all [Row.asWallet]
  have hw : (Row.wallet w).asWallet = some w := rfl
  exact filterMap_upsert hw hkey hnone d.rows

theorem walletTable_put_other (d : Db) {r : Row} (hr : r.asWallet = none) :
    Db.walletTable (d.put r) = d.walletTable := by
  apply Table.ext
  show (upsert Row.key r d.rows).filterMap Row.asWallet = d.rows.filterMap Row.asWallet
  refine filterMap_upsert_other hr ?_ d.rows
  intro x hx
  cases x <;> cases r <;> simp_all [Row.asWallet]

theorem intentTable_put (d : Db) (i : PaymentIntentRow) :
    Db.intentTable (d.put (.intent i)) = d.intentTable.put i := by
  apply Table.ext
  have hkey : ∀ (x : Row) (b : PaymentIntentRow), x.asIntent = some b →
      (x.key = (Row.intent i).key ↔ b.id = i.id) := by
    intro x b hb
    rw [Row.asIntent_eq_some.mp hb]
    simp
  have hnone : ∀ x : Row, x.asIntent = none → x.key ≠ (Row.intent i).key := by
    intro x hx
    cases x <;> simp_all [Row.asIntent]
  have hi : (Row.intent i).asIntent = some i := rfl
  exact filterMap_upsert hi hkey hnone d.rows

theorem intentTable_put_other (d : Db) {r : Row} (hr : r.asIntent = none) :
    Db.intentTable (d.put r) = d.intentTable := by
  apply Table.ext
  show (upsert Row.key r d.rows).filterMap Row.asIntent = d.rows.filterMap Row.asIntent
  refine filterMap_upsert_other hr ?_ d.rows
  intro x hx
  cases x <;> cases r <;> simp_all [Row.asIntent]

/-- A row the specification does not keep. -/
def Row.outside (r : Row) : Prop := r.asWallet = none ∧ r.asIntent = none

@[simp] theorem specState_put_wallet (d : Db) (w : WalletRow) :
    Db.specState (d.put (.wallet w)) = d.specState.putWallet w :=
  SpecState.ext (walletTable_put d w) (intentTable_put_other d rfl)

@[simp] theorem specState_put_intent (d : Db) (i : PaymentIntentRow) :
    Db.specState (d.put (.intent i)) = d.specState.putIntent i :=
  SpecState.ext (walletTable_put_other d rfl) (intentTable_put d i)

theorem specState_put_other (d : Db) {r : Row} (hr : r.outside) :
    Db.specState (d.put r) = d.specState :=
  SpecState.ext (walletTable_put_other d hr.1) (intentTable_put_other d hr.2)

@[simp] theorem specState_put_transaction (d : Db) (t : TransactionRow) :
    Db.specState (d.put (.transaction t)) = d.specState := specState_put_other d ⟨rfl, rfl⟩

@[simp] theorem specState_put_entry (d : Db) (e : LedgerEntryRow) :
    Db.specState (d.put (.entry e)) = d.specState := specState_put_other d ⟨rfl, rfl⟩

@[simp] theorem specState_put_charge (d : Db) (c : ChargeRow) :
    Db.specState (d.put (.charge c)) = d.specState := specState_put_other d ⟨rfl, rfl⟩

@[simp] theorem specState_put_payout (d : Db) (p : PayoutRow) :
    Db.specState (d.put (.payout p)) = d.specState := specState_put_other d ⟨rfl, rfl⟩

theorem specState_install_other {ws : List Row} (h : ∀ r ∈ ws, r.outside) (d : Db) :
    Db.specState (d.install ws) = d.specState := by
  induction ws generalizing d with
  | nil => rfl
  | cons r ws ih =>
    rw [Table.install_cons, ih (fun x hx => h x (List.mem_cons_of_mem _ hx)),
      specState_put_other d (h r List.mem_cons_self)]

theorem Outbox.outside {d : Db} {m : Uuid} {type : EventType} {data : EventData}
    (o : Outbox d m type data) : ∀ r ∈ o.writes, r.outside := by
  intro r hr
  obtain ⟨e, -, rfl⟩ := List.mem_map.mp hr
  exact ⟨rfl, rfl⟩

@[simp] theorem specState_outbox {d d' : Db} {m : Uuid} {type : EventType} {data : EventData}
    (o : Outbox d m type data) : Db.specState (d'.install o.writes) = d'.specState :=
  specState_install_other o.outside d'

theorem openIntent_of {d : Db} {m : Uuid} {id : Text} {i : PaymentIntentRow}
    (hid : uuidOfText id = some i.id) (howner : i.merchantId = m)
    (hopen : i.status = .requiresConfirmation) (hget : d.intent i.id = some i) :
    d.specState.openIntent m id = some i := by
  have hi : d.specState.intents.get i.id = some i := (intentTable_get d i.id).trans hget
  simp [SpecState.openIntent, hid, hi, howner, hopen]

/-! ## One commit is one movement -/

/-- No two wallets of one merchant in one currency. -/
def Db.OwnersUnique (d : Db) : Prop :=
  ∀ w ∈ d.wallets, ∀ w' ∈ d.wallets, w.merchantId = w'.merchantId → w.currency = w'.currency →
    w = w'

theorem withBalance_eq {w : WalletRow} {b : ℤ} {c : Bigint} (hc : c.val = b) (h : 0 ≤ c.val) :
    w.withBalance b = some { w with balance := c, check := h } := by
  subst hc
  rw [WalletRow.withBalance, dif_pos ⟨h, c.hi⟩]

/-- Where the wallets after a commit come from. Only transfers move a version. -/
theorem Commit.wallet_origin {min : ℤ} {log : List Ev} {now : ℕ} {d : Db} {it : Item}
    {ws : List Row} (h : Commit min log now d it ws) {w' : WalletRow}
    (hw' : w' ∈ Db.wallets (d.install ws)) :
    (∃ w ∈ d.wallets, w'.id = w.id ∧ w'.merchantId = w.merchantId ∧ w'.currency = w.currency ∧
        (w'.version = w.version ∨ ∃ m dto evs, it = .txn (.transfer m dto) evs)) ∨
      (ws = [.wallet w'] ∧
        ∀ w ∈ d.wallets, ¬ (w.merchantId = w'.merchantId ∧ w.currency = w'.currency)) := by
  have hold : ∀ {w : WalletRow}, d.wallet w.id = some w → w'.id = w.id →
      w'.merchantId = w.merchantId → w'.currency = w.currency →
      (w'.version = w.version ∨ ∃ m dto evs, it = .txn (.transfer m dto) evs) →
      ∃ w ∈ d.wallets, w'.id = w.id ∧ w'.merchantId = w.merchantId ∧ w'.currency = w.currency ∧
        (w'.version = w.version ∨ ∃ m dto evs, it = .txn (.transfer m dto) evs) := by
    intro w hw hid hm hc hv
    exact ⟨w, Db.mem_wallets.mpr (Db.wallet_eq_some.mp hw), hid, hm, hc, hv⟩
  have hmem : Row.wallet w' ∈ ws ∨ w' ∈ d.wallets := by
    rw [Db.mem_wallets, ← Row.key, ← Table.mem_iff_get, Table.mem_install h.nodup] at hw'
    refine hw'.imp id ?_
    intro hrow
    exact Db.mem_wallets.mpr (Table.get_of_mem hrow.1)
  rcases hmem with hmem | hmem
  · cases h with
    | query | accountFind | bank | sweepSkip | intentInsert | endpointInsert | accountInsert
    | markRetry => simp at hmem
    | keyed s r ws hkey => obtain rfl | ⟨slot, rfl⟩ := hkey.writes <;> simp at hmem
    | walletCreate row shape owner fresh =>
      obtain rfl : w' = row := by simpa using hmem
      obtain ⟨rfl, rfl, -, -⟩ := shape
      exact Or.inr ⟨rfl, owner⟩
    | claimDue limit m rows idle nodup claimed => simp at hmem
    | transfer c =>
      simp only [TransferCommit.writes, List.mem_cons, reduceCtorEq, Row.wallet.injEq, false_or,
        List.not_mem_nil, or_false] at hmem
      rcases hmem with rfl | rfl
      · exact Or.inl (hold c.sourceGet rfl rfl rfl (Or.inr ⟨_, _, _, rfl⟩))
      · exact Or.inl (hold c.destGet rfl rfl rfl (Or.inr ⟨_, _, _, rfl⟩))
    | confirm c =>
      simp only [ConfirmCommit.writes, Outbox.writes, List.mem_append, List.mem_cons, reduceCtorEq,
        Row.wallet.injEq, false_or, List.not_mem_nil, or_false, List.mem_map, and_false,
        exists_false] at hmem
      subst hmem
      exact Or.inl (hold c.walletGet rfl rfl rfl (Or.inl rfl))
    | cancel c => simp [CancelCommit.writes] at hmem
    | sweep c =>
      simp only [SweepCommit.writes, List.mem_cons, reduceCtorEq, Row.wallet.injEq, false_or,
        List.not_mem_nil, or_false] at hmem
      subst hmem
      exact Or.inl (hold c.walletGet rfl rfl rfl (Or.inl rfl))
    | paid rest place c => simp [PaidCommit.writes, Outbox.writes] at hmem
    | reversal rest place c =>
      simp only [ReversalCommit.writes, Outbox.writes, List.mem_append, List.mem_cons, reduceCtorEq,
        Row.wallet.injEq, false_or, List.not_mem_nil, or_false, List.mem_map, and_false,
        exists_false] at hmem
      subst hmem
      exact Or.inl (hold c.walletGet rfl rfl rfl (Or.inl rfl))
  · exact Or.inl ⟨w', hmem, rfl, rfl, rfl, Or.inl rfl⟩

theorem Commit.ownersUnique {min : ℤ} {log : List Ev} {now : ℕ} {d : Db} {it : Item}
    {ws : List Row} (h : Commit min log now d it ws) (hu : d.OwnersUnique) :
    Db.OwnersUnique (d.install ws) := by
  intro a ha b hb hm hc
  have hsame : a.id = b.id → a = b := by
    intro hid
    rw [Db.mem_wallets] at ha hb
    rw [hid, hb] at ha
    simpa using ha.symm
  rcases h.wallet_origin ha with ⟨a₀, ha₀, hida, hma, hca, -⟩ | ⟨hwa, howner⟩
  · rcases h.wallet_origin hb with ⟨b₀, hb₀, hidb, hmb, hcb, -⟩ | ⟨-, howner⟩
    · have h₀ : a₀ = b₀ := hu a₀ ha₀ b₀ hb₀ (by rw [← hma, ← hmb, hm]) (by rw [← hca, ← hcb, hc])
      exact hsame (by rw [hida, hidb, h₀])
    · exact absurd ⟨hma.symm.trans hm, hca.symm.trans hc⟩ (howner a₀ ha₀)
  · rcases h.wallet_origin hb with ⟨b₀, hb₀, -, hmb, hcb, -⟩ | ⟨hwb, -⟩
    · exact absurd ⟨hmb.symm.trans hm.symm, hcb.symm.trans hc.symm⟩ (howner b₀ hb₀)
    · rw [hwa] at hwb
      simpa using hwb

theorem find_owner {d : Db} (hu : d.OwnersUnique) {w : WalletRow} (hw : d.wallet w.id = some w) :
    d.specState.wallets.rows.find?
      (fun x => decide (x.merchantId = w.merchantId ∧ x.currency = w.currency)) = some w := by
  have hmem : w ∈ d.wallets := Db.mem_wallets.mpr (Db.wallet_eq_some.mp hw)
  cases hfind : d.specState.wallets.rows.find?
      (fun x => decide (x.merchantId = w.merchantId ∧ x.currency = w.currency)) with
  | none =>
    have hnone := List.find?_eq_none.mp hfind w hmem
    simp at hnone
  | some x =>
    have hx : x ∈ d.wallets := List.mem_of_find?_eq_some hfind
    have hprop := List.find?_some hfind
    simp only [decide_eq_true_eq] at hprop
    rw [hu x hx w hmem hprop.1 hprop.2]

/-- The state after a commit are those of its movement, if it has one. -/
theorem Commit.serial {min : ℤ} {log : List Ev} {now : ℕ} {d : Db} {it : Item} {ws : List Row}
    (h : Commit min log now d it ws) (hu : d.OwnersUnique) :
    match movement it with
    | some m => m.apply min d.specState = some (Db.specState (d.install ws))
    | none => Db.specState (d.install ws) = d.specState := by
  have hother : (∀ r ∈ ws, r.outside) → Db.specState (d.install ws) = d.specState :=
    fun hws => specState_install_other hws d
  cases h with
  | query s r h => cases s <;> simp_all [Stmt.isQuery, movement]
  | keyed s r ws hkey =>
    have hws : ∀ r ∈ ws, r.outside := by
      obtain rfl | ⟨slot, rfl⟩ := hkey.writes <;> simp [Row.outside, Row.asWallet, Row.asIntent]
    cases hkey <;> exact hother hws
  | accountFind => exact hother (by simp)
  | bank => exact hother (by simp)
  | endpointInsert => exact hother (by simp [Row.outside, Row.asWallet, Row.asIntent])
  | accountInsert => exact hother (by simp [Row.outside, Row.asWallet, Row.asIntent])
  | markRetry => exact hother (by simp [Row.outside, Row.asWallet, Row.asIntent])
  | claimDue => exact hother (by simp [Row.outside, Row.asWallet, Row.asIntent])
  | paid rest place c =>
    apply hother
    intro r hr
    rcases List.mem_cons.mp hr with rfl | hr
    · exact ⟨rfl, rfl⟩
    · exact c.outbox.outside r hr
  | walletCreate row shape owner fresh =>
    obtain ⟨rfl, rfl, hbalance, hversion⟩ := shape
    have hnew : (d.specState.wallets.get row.id).isNone = true := by
      show (d.walletTable.get row.id).isNone = true
      rw [walletTable_get, Db.wallet_eq_none.mpr fresh]
      rfl
    have hall : d.specState.wallets.rows.all (fun w =>
        !decide (w.merchantId = row.merchantId ∧ w.currency = row.currency)) = true := by
      rw [List.all_eq_true]
      intro w hw
      rw [Bool.not_eq_true', decide_eq_false_iff_not]
      exact owner w hw
    simp only [movement, Movement.apply, Table.install_cons, Table.install_nil,
      specState_put_wallet]
    rw [if_pos ⟨hnew, by rw [hbalance]; rfl, hversion, hall⟩]
  | intentInsert row shape parsed fresh =>
    have hnew : (d.specState.intents.get row.id).isNone = true := by
      show (d.intentTable.get row.id).isNone = true
      rw [intentTable_get, Db.intent, fresh]
      rfl
    simp only [movement, Movement.apply, Table.install_cons, Table.install_nil,
      specState_put_intent]
    rw [if_pos ⟨hnew, shape.2.2.2⟩]
  | @transfer m dto c =>
    have hs : d.specState.wallets.get c.fromRow.id = some c.source := by
      show d.walletTable.get c.fromRow.id = some c.source
      rw [walletTable_get, ← c.sourceId]
      exact c.sourceGet
    have ht : d.specState.wallets.get c.toRow.id = some c.dest := by
      show d.walletTable.get c.toRow.id = some c.dest
      rw [walletTable_get, ← c.destId]
      exact c.destGet
    have henough : (dto.amount.val : ℤ) ≤ c.source.balance.val := by
      have hcheck := c.sourceCheck
      have hdebited := c.debited
      omega
    have htable : Db.specState (d.install c.writes) =
        (d.specState.putWallet c.newSource).putWallet c.newDest := by
      simp [TransferCommit.writes]
    simp only [movement, c.fromId, c.toId, Movement.apply, hs, ht, Option.bind_eq_bind,
      Option.bind_some, if_pos (show _ ∧ _ ∧ _ from ⟨c.different, c.sameCurrency, henough⟩),
      withBalance_eq c.debited c.sourceCheck, withBalance_eq c.credited c.destCheck, htable]
    rfl
  | @confirm m id c =>
    have hopen := openIntent_of c.intentId c.owner c.confirmable c.intentGet
    have hfind := find_owner hu c.walletGet
    simp only [c.walletOwner, c.walletCurrency] at hfind
    have htable : Db.specState (d.install c.writes) =
        (d.specState.putWallet c.newWallet).putIntent c.newIntent := by
      simp [ConfirmCommit.writes]
    simp only [movement, Movement.apply, hopen, hfind, Option.bind_eq_bind, Option.bind_some,
      withBalance_eq c.credited c.check, htable]
    rfl
  | @cancel m id c =>
    have hopen := openIntent_of c.intentId c.owner c.confirmable c.intentGet
    have htable : Db.specState (d.install c.writes) = d.specState.putIntent c.newIntent := by
      simp [CancelCommit.writes]
    simp only [movement, Movement.apply, hopen, Option.bind_eq_bind, Option.bind_some, htable]
    rfl
  | sweepSkip w row walletGet below =>
    have hw : d.specState.wallets.get w.walletId = some row := (walletTable_get d _).trans walletGet
    simp [movement, Movement.apply, hw, below]
  | @sweep w c =>
    have hw : d.specState.wallets.get w.walletId = some c.wallet := by
      rw [← c.walletId]
      exact (walletTable_get d _).trans c.walletGet
    have htable : Db.specState (d.install c.writes) = d.specState.putWallet c.newWallet := by
      simp [SweepCommit.writes]
    simp only [movement, Movement.apply, hw, Option.bind_eq_bind, Option.bind_some,
      if_neg (not_lt.mpr c.enough), withBalance_eq Bigint.zero_val Bigint.zero_nonneg, htable]
    rfl
  | @reversal p rest place c =>
    have hw : d.specState.wallets.get p.walletId = some c.wallet := by
      rw [← c.walletId]
      exact (walletTable_get d _).trans c.walletGet
    have htable : Db.specState (d.install c.writes) = d.specState.putWallet c.newWallet := by
      simp [ReversalCommit.writes]
    simp only [movement, Movement.apply, hw, Option.bind_eq_bind, Option.bind_some,
      withBalance_eq c.credited c.check, htable]
    rfl

/-! ## Every run -/

/-- After every commit the wallets, and the intents, are those the sequential
specification reaches on the committed work, in commit order. -/
theorem serializable {min : ℤ} {s : Sys} (h : Reachable min s) :
    replay min s.history = some (Db.specState s.db) := by
  have hreach : AReach min (fun _ => True) s.abs := reach_refines (fun _ _ _ _ => trivial) h
  have hboth : Db.OwnersUnique s.abs.db ∧
      replay min s.abs.history = some (Db.specState s.abs.db) := by
    refine AReach.invariant (fun a => Db.OwnersUnique a.db ∧
      replay min a.history = some (Db.specState a.db)) ?_ ?_ hreach
    · refine ⟨?_, rfl⟩
      intro w hw
      simp [Db.wallets, Abs.init, Table.empty] at hw
    intro a a' _ hq hstep _
    cases hstep with
    | start | tick | fault | quiet => exact hq
    | commit i log it p live hproc _ hg =>
      have hserial := hg.serial hq.1
      refine ⟨hg.ownersUnique hq.1, ?_⟩
      have hreplay := hq.2
      unfold replay at hreplay ⊢
      rw [List.filterMap_append, List.foldlM_append, hreplay]
      cases hm : movement it with
      | none =>
        rw [hm] at hserial
        simp [hm, hserial]
      | some m =>
        rw [hm] at hserial
        simp [hm, hserial]
  exact hboth.2

/-- A confirm pays fifty into the first wallet, and a transfer moves it to the
second. -/
theorem serializable_fifty : ∃ s : Sys, s.history.length = 6 ∧
    (Db.wallets s.db).map (fun w => (w.balance.val, w.version)) = [(0, 1), (50, 1)] ∧
    (Db.intents s.db).map (·.status) = [PaymentIntentStatus.succeeded] ∧
    replay 100 s.history = some (Db.specState s.db) := by
  have hrun : (runFrom 100 (payAndTransfer fifty transferFifty)).any
      (fun s => decide (s.history.length = 6 ∧
        (Db.wallets s.db).map (fun w => (w.balance.val, w.version)) = [(0, 1), (50, 1)] ∧
        (Db.intents s.db).map (·.status) = [PaymentIntentStatus.succeeded])) = true := by
    decide +kernel
  obtain ⟨s, hs, hend⟩ := exists_of_run hrun
  obtain ⟨hsix, hbalances, hpaid⟩ := of_decide_eq_true hend
  exact ⟨s, hsix, hbalances, hpaid, serializable hs⟩

end PaymentApis
