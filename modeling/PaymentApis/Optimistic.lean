import PaymentApis.Batches
import PaymentApis.Ledger
import PaymentApis.Transactions

/-!
# Optimistic locking

A transfer reads two wallets without locking them and updates each one only if
its version is still the one it read. Confirms, sweeps and reversals change a
balance without moving the version. As long as none of them commits on a wallet
that an open transfer has read, a version that matches means a balance that
matches, and the funds check holds of the balance that is debited.
-/

namespace PaymentApis

open TxStore

/-! ## What is stated -/

/-- The wallets a transaction has read without locking them. -/
def readWallets (evs : List Ev) : List WalletRow :=
  evs.filterMap (fun
    | .stmt (.walletFindById _) found => found
    | _ => none)

theorem readWallets_append (evs evs' : List Ev) :
    readWallets (evs ++ evs') = readWallets evs ++ readWallets evs' := List.filterMap_append

/-- The wallet and the version a conditional update expects. -/
def Stmt.expects : Stmt → Option (Uuid × ℕ)
  | .walletApplyDeltaIfVersion id _ expectedVersion => some (id, expectedVersion)
  | _ => none

/-- A wallet that a conditional update finds at the version it expects has the
balance that the transaction has read. -/
def Stmt.Matches (evs : List Ev) (v : Db) (s : Stmt) : Prop :=
  ∀ x ∈ s.expects, ∀ w ∈ readWallets evs, w.id = x.1 → w.version = x.2 →
    ∀ r ∈ v.wallet x.1, r.version = x.2 → r.balance = w.balance

instance (evs : List Ev) (v : Db) (s : Stmt) : Decidable (s.Matches evs v) :=
  inferInstanceAs (Decidable (∀ _ ∈ _, _))

/-- A conditional update does not break `CHECK (balance >= 0)`. -/
def Stmt.PassesCheck (v : Db) (s : Stmt) : Prop :=
  s.expects.isSome → ∀ env busy, (Sql.exec s env busy v).out ≠ .error .checkViolation

def isCheckViolation {α : Type} : Except Fault α → Bool
  | .error f => decide (f = .checkViolation)
  | .ok _ => false

theorem isCheckViolation_eq_true {α : Type} {r : Except Fault α} :
    isCheckViolation r = true ↔ r = .error .checkViolation := by
  cases r <;> simp [isCheckViolation]

def Node.reads (n : Node) : List WalletRow := readWallets n.priv.events

/-- A step commits no wallet at the version that an open transfer has read. -/
def Undisturbed (s : Sys) (l : Step) : Prop :=
  ∀ x ∈ s.written engine l, ∀ n ∈ s.nodes, ∀ w ∈ Node.reads n, x.key = .wallet w.id →
    x.version ≠ w.version

instance (s : Sys) (l : Step) : Decidable (Undisturbed s l) :=
  inferInstanceAs (Decidable (∀ _ ∈ _, ∀ _ ∈ _, ∀ _ ∈ _, _ → _))

/-! ## The contract -/

/-- A wallet that is still at the version read is still the row it was. -/
def Stable (evs : List Ev) (d d' : Db) : Prop :=
  ∀ w ∈ readWallets evs, ∀ r, d'.wallet w.id = some r → r.version = w.version →
    d.wallet w.id = some r

/-- The others leave what a transfer has read alone, or move its version. -/
def undisturbed (min : ℤ) :
    Contract Row Loc Row.key Stmt Resp Fault Err TxnName BankTransfer where
  Inv := fun _ => True
  Rely := fun p d d' => Rely p d d' ∧ Stable p.events d d'
  Pre := fun _ p s d => s.Matches p.events (p.view d) ∧ s.PassesCheck (p.view d)
  Guar := (commits min).Guar

theorem undisturbed_lawful (min : ℤ) : (undisturbed min).Lawful (fun p q =>
    ∀ x ∈ p.writes, ∀ w ∈ readWallets q.events, x.key = .wallet w.id → x.version ≠ w.version) where
  refl := fun p d => ⟨(commits_lawful min).refl p d, fun _ _ _ hr _ => hr⟩
  trans := by
    intro p d₁ d₂ d₃ h h'
    refine ⟨(commits_lawful min).trans _ _ _ _ h.1 h'.1, ?_⟩
    intro w hw r hr hversion
    exact h.2 w hw r (h'.2 w hw r hr hversion) hversion
  drop := by
    intro p d d' h
    refine ⟨(commits_lawful min).drop _ _ _ h.1, ?_⟩
    intro w hw
    simp [readWallets, Priv.begin] at hw
  inv := fun _ _ _ _ _ _ _ => trivial
  rely := by
    intro log it p now d q hi hg hcov hdisj hside
    refine ⟨(commits_lawful min).rely _ _ _ _ _ _ hi hg hcov hdisj trivial, ?_⟩
    intro w hw r hr hversion
    rw [Db.wallet_eq_some] at hr ⊢
    rw [← hr]
    symm
    apply Table.get_install_of_notMem
    intro hkey
    -- a version that is written is not the one that was read
    obtain ⟨x, hx, hxkey⟩ := List.mem_map.mp hkey
    have hget := Table.get_install_of_mem (t := d) (Commit.nodup hg) hx
    rw [hxkey, hr, Option.some.injEq] at hget
    exact hside x hx w hw hxkey (hget ▸ hversion)

/-! ## The transfer -/

/-- What a transfer knows of the wallets it has read. -/
def Fresh (reads : List WalletRow) (d : Db) : Prop :=
  ∀ w ∈ reads, d.HasWallet w ∧
    ∀ r, d.wallet w.id = some r → r.version = w.version → r.balance = w.balance

/-- A transaction that has read these wallets and written none. -/
structure Reading (reads : List WalletRow) (p : Priv) (d : Db) : Prop where
  observed : readWallets p.events = reads
  fresh : Fresh reads d
  unwritten : ∀ x ∈ p.writes, ∀ id, x.key ≠ .wallet id

theorem Fresh.rely {min : ℤ} {p : Priv} {d d' : Db} (h : Fresh (readWallets p.events) d)
    (hr : (undisturbed min).Rely p d d') : Fresh (readWallets p.events) d' := by
  intro w hw
  obtain ⟨hwallet, hbalance⟩ := h w hw
  refine ⟨hwallet.later hr.1.2, ?_⟩
  intro r hget hversion
  exact hbalance r (hr.2 w hw r hget hversion) hversion

section Walk

variable {min : ℤ} {log : List Ev} {α β : Type} {reads : List WalletRow} {p : Priv} {d : Db}

theorem Reading.rely (h : Reading reads p d) {d' : Db} (hr : (undisturbed min).Rely p d d') :
    Reading reads p d' where
  observed := h.observed
  fresh := by
    have hfresh := h.fresh
    rw [← h.observed] at hfresh ⊢
    exact hfresh.rely hr
  unwritten := h.unwritten

/-- A wallet that the transaction has not written is seen as it is committed. -/
theorem view_wallet {id : Uuid} (h : ∀ x ∈ p.writes, x.key ≠ .wallet id) (d : Db) :
    Db.wallet (p.view d) id = d.wallet id := by
  unfold Db.wallet Priv.view
  rw [Table.get_install_of_notMem]
  intro hkey
  obtain ⟨x, hx, hxkey⟩ := List.mem_map.mp hkey
  exact h x hx hxkey

theorem Reading.view (h : Reading reads p d) (id : Uuid) :
    Db.wallet (p.view d) id = d.wallet id := view_wallet (fun x hx => h.unwritten x hx id) d

/-- A statement that is not a conditional update and writes no wallet. -/
theorem watch_stmt {s : Stmt} {k : Resp s → Tx β} {g : Resp s → List WalletRow}
    (h : Reading reads p d) (hs : s.expects = none)
    (hread : ∀ r, readWallets [.stmt s r] = g r)
    (hfresh : ∀ env busy v r ws, (Sql.exec s env busy v).out = .ok (r, ws) →
      (∀ x ∈ ws, ∀ id, x.key ≠ .wallet id) ∧ ∀ w ∈ g r, Db.wallet v w.id = some w)
    (hk : ∀ r p' d', Reading (reads ++ g r) p' d' →
      (k r).Safe engine (undisturbed min) log (fun _ _ _ => True) (fun _ _ _ => True) p' d') :
    (Body.stmt s k).Safe engine (undisturbed min) log (fun _ _ _ => True) (fun _ _ _ => True)
      p d := by
  intro d' hr _
  refine ⟨⟨by simp [Stmt.Matches, hs], by simp [Stmt.PassesCheck, hs]⟩, ?_⟩
  intro env busy r ws hout
  have h' := h.rely hr
  obtain ⟨hws, hrs⟩ := hfresh env busy _ r ws hout
  apply hk
  refine ⟨?_, ?_, ?_⟩
  · show readWallets (p.events ++ [.stmt s r]) = reads ++ g r
    rw [readWallets_append, h'.observed, hread]
  · intro w hw
    rcases List.mem_append.mp hw with hw | hw
    · exact h'.fresh w hw
    · have hget := hrs w hw
      rw [h'.view] at hget
      refine ⟨.of_get hget, ?_⟩
      intro x hx _
      rw [hget, Option.some.injEq] at hx
      rw [hx]
  · intro x hx
    rcases List.mem_append.mp hx with hx | hx
    · exact h'.unwritten x hx
    · exact hws x hx

/-- A conditional update by a transaction that has written no wallet. -/
theorem Reading.matches (h : Reading reads p d) (id : Uuid) (delta : Text) (n : ℕ) :
    Stmt.Matches p.events (p.view d) (.walletApplyDeltaIfVersion id delta n) := by
  rintro _ ⟨⟩ w hw hid hversion r hr hrversion
  simp only at hid hversion hr hrversion
  subst hid hversion
  rw [h.observed] at hw
  rw [h.view] at hr
  exact (h.fresh w hw).2 r hr hrversion

/-- The debit of a balance that covers the amount. -/
theorem passesCheck_debit {v : Db} {evs : List Ev} {w : WalletRow} {amount : ℕ}
    (h : Stmt.Matches evs v (.walletApplyDeltaIfVersion w.id (intText (-(amount : ℤ))) w.version))
    (hw : w ∈ readWallets evs) (hcovers : amount ≤ w.balance.val) :
    Stmt.PassesCheck v (.walletApplyDeltaIfVersion w.id (intText (-(amount : ℤ))) w.version) := by
  intro _ env busy hcheck
  obtain ⟨r, b, hr, hversion, hb, hneg⟩ := Sql.walletApplyDeltaIfVersion_check hcheck
  have hbalance : r.balance = w.balance := h _ rfl w hw rfl rfl r hr hversion
  rw [Bigint.parse_intText, Bigint.ofInt?_eq_some] at hb
  rw [hbalance, hb] at hneg
  omega

/-- A credit never breaks the check. -/
theorem passesCheck_credit {v : Db} {id : Uuid} {n amount : ℕ} :
    Stmt.PassesCheck v (.walletApplyDeltaIfVersion id (intText amount) n) := by
  intro _ env busy hcheck
  obtain ⟨r, b, -, -, hb, hneg⟩ := Sql.walletApplyDeltaIfVersion_check hcheck
  rw [Bigint.parse_intText, Bigint.ofInt?_eq_some] at hb
  have hcheck := r.check
  omega

/-- After the update of the source: nothing written, or its next version, on a
row that is locked. -/
theorem Reading.after_update {w : WalletRow} {delta : Text} (h : Reading reads p d)
    {env : Env} {busy : Loc → Bool} {ok : Bool} {ws : List Row}
    (hout : (Sql.exec (.walletApplyDeltaIfVersion w.id delta w.version) env busy (p.view d)).out =
      .ok (ok, ws)) {q : Priv}
    (hq : q = p.add (.walletApplyDeltaIfVersion w.id delta w.version) ok
      ((Sql.exec (.walletApplyDeltaIfVersion w.id delta w.version) env busy (p.view d)).locked
        Row.key) ws) {d' : Db} (hr : (undisturbed min).Rely q d d') (id : Uuid) (delta' : Text)
    (n : ℕ) :
    Stmt.Matches q.events (q.view d') (.walletApplyDeltaIfVersion id delta' n) := by
  have hobserved : readWallets q.events = reads := by
    rw [hq]
    show readWallets (p.events ++ [_]) = reads
    rw [readWallets_append, h.observed]
    exact List.append_nil _
  have hfresh : Fresh reads d' := by
    rw [← hobserved]
    apply Fresh.rely _ hr
    rw [hobserved]
    exact h.fresh
  rintro _ ⟨⟩ t ht hid hversion r hr' hrversion
  simp only at hid hversion hr' hrversion
  rw [hobserved] at ht
  subst hid hversion
  rcases Sql.walletApplyDeltaIfVersion_ok hout with
    ⟨-, rfl⟩ | ⟨-, s, hs, hsversion, b, c, hc, -, -, rfl⟩
  · -- nothing was written
    have hview : Db.wallet (q.view d') t.id = Db.wallet d' t.id := by
      apply view_wallet
      intro x hx
      rw [hq, Priv.add, List.append_nil] at hx
      exact h.unwritten x hx t.id
    rw [hview] at hr'
    exact (hfresh t ht).2 r hr' hrversion
  · -- the source has moved to its next version
    have hsid : s.id = w.id := Db.id_of_wallet hs
    rw [h.view] at hs
    have hlocked : Loc.wallet w.id ∈ q.locks := by
      rw [hq]
      apply List.mem_append_right
      simp [Effect.locked, hout, hsid]
    have hsource : d'.wallet w.id = some s := by
      rw [Db.wallet_eq_some, hr.1.1 _ hlocked]
      exact Db.wallet_eq_some.mp hs
    have hview : Db.wallet (q.view d') t.id = if w.id = t.id then
        some { s with balance := c, version := s.version + 1, check := hc } else d'.wallet t.id := by
      unfold Db.wallet Priv.view
      rw [hq, Priv.add, Table.install_append, Table.install_cons, Table.install_nil,
        Table.get_put]
      simp only [Row.key, hsid, Loc.wallet.injEq]
      split
      · rfl
      · rw [Table.get_install_of_notMem]
        intro hkey
        obtain ⟨x, hx, hxkey⟩ := List.mem_map.mp hkey
        exact h.unwritten x hx t.id hxkey
    rw [hview] at hr'
    split at hr'
    · rename_i hsame
      obtain ⟨t', ht', -, -, hle⟩ := (hfresh t ht).1
      rw [← hsame, hsource, Option.some.injEq] at ht'
      simp only [Option.mem_def, Option.some.injEq] at hr'
      subst hr' ht'
      simp only at hrversion
      omega
    · exact (hfresh t ht).2 r hr' hrversion

theorem Reading.begin (d : Db) : Reading [] .begin d := ⟨rfl, by simp [Fresh], by simp [Priv.begin]⟩

/-- A plain read of a wallet. -/
theorem watch_find {id : Text} {k : Option WalletRow → Tx β} (h : Reading reads p d)
    (hk : ∀ r p' d', Reading (reads ++ r.toList) p' d' →
      (k r).Safe engine (undisturbed min) log (fun _ _ _ => True) (fun _ _ _ => True) p' d') :
    (Body.stmt (.walletFindById id) k).Safe engine (undisturbed min) log (fun _ _ _ => True)
      (fun _ _ _ => True) p d := by
  refine watch_stmt (g := fun r => r.toList) h rfl ?_ ?_ hk
  · intro r
    cases r <;> rfl
  · intro env busy v r ws hout
    obtain ⟨⟨u, -, rfl⟩, rfl⟩ := Sql.walletFindById_ok hout
    refine ⟨by simp, ?_⟩
    intro w hw
    have hget : Db.wallet v u = some w := by simpa using hw
    rw [Db.id_of_wallet hget]
    exact hget

theorem transferService.attempt_watched (m : Uuid) (dto : CreateTransferDto) (d : Db) :
    (attempt m dto).Safe engine (undisturbed min) log (fun _ _ _ => True) (fun _ _ _ => True)
      .begin d := by
  simp only [attempt, recordLedger, sql, Body.call_bind, Body.stmt_bind, Body.pure_eq,
    Body.ret_bind]
  apply watch_find (Reading.begin d)
  intro fromRow p₁ d₁ h₁
  apply watch_find h₁
  intro toRow p₂ d₂ h₂
  cases hv : validate fromRow toRow m dto.amount with
  | error e => exact fun _ _ _ => trivial
  | ok v =>
    obtain ⟨f, t, a⟩ := v
    obtain ⟨rfl, rfl, rfl, -, -, hfunds⟩ := validate_ok hv
    simp only [Body.ofExcept, Body.ret_bind]
    refine watch_stmt (g := fun _ => []) h₂ rfl (fun _ => rfl) ?_ ?_
    · intro env busy v r ws hout
      obtain ⟨row, rfl, -, rfl⟩ := Sql.ledgerCreateTransaction_ok hout
      simp
    intro x p₃ d₃ h₃
    refine watch_stmt (g := fun _ => []) h₃ rfl (fun _ => rfl) ?_ ?_
    · intro env busy v r ws hout
      obtain ⟨row, rfl, -, e, b, hpos, -, rfl⟩ := Sql.ledgerAddEntry_ok hout
      simp
    intro _ p₄ d₄ h₄
    refine watch_stmt (g := fun _ => []) h₄ rfl (fun _ => rfl) ?_ ?_
    · intro env busy v r ws hout
      obtain ⟨row, rfl, -, e, b, hpos, -, rfl⟩ := Sql.ledgerAddEntry_ok hout
      simp
    -- the debit of the source
    intro _ p₅ d₅ h₅ d₆ hr₆ _
    have h₆ := h₅.rely hr₆
    have hmatches := h₆.matches f.id (intText (-(dto.amount.val : ℤ))) f.version
    refine ⟨⟨hmatches, passesCheck_debit hmatches ?_ hfunds⟩, ?_⟩
    · rw [h₆.observed]
      simp
    intro env busy okFrom ws hout
    have hdone : (Sql.exec (.walletApplyDeltaIfVersion f.id (intText (-(dto.amount.val : ℤ)))
      f.version) env busy (p₅.view d₆)).out = .ok (okFrom, ws) := hout
    -- the credit of the destination
    intro d₇ hr₇ _
    refine ⟨⟨h₆.after_update hdone rfl hr₇ _ _ _, passesCheck_credit⟩, ?_⟩
    intro env' busy' okTo ws' hout'
    cases okFrom <;> cases okTo <;> exact fun _ _ _ => trivial

end Walk

/-! ## The other transactions -/

/-- A body that makes no conditional update. -/
abbrev Plain {β : Type} (b : Tx β) : Prop := b.All (fun s => s.expects = none)

theorem webhookService.enqueueAll_plain (m : Uuid) (type : EventType) (data : EventData)
    (eps : List WebhookEndpointRow) : Plain (enqueueAll m type data eps) := by
  induction eps with
  | nil => trivial
  | cons ep eps ih => exact ⟨rfl, fun _ => ih⟩

theorem webhookService.emit_plain (m : Uuid) (type : EventType) (data : EventData) :
    Plain (emit m type data) := ⟨rfl, fun _ => enqueueAll_plain m type data _⟩

theorem paymentService.confirmTxn_plain (m : Uuid) (id : Text) : Plain (confirmTxn m id) := by
  refine ⟨rfl, ?_⟩
  rintro (- | intent)
  · trivial
  refine Body.All.bind ?_ (b := Body.ofExcept (assertTransition intent.status .succeeded "confirm")) ?_
  · intro _
    refine ⟨rfl, ?_⟩
    rintro (- | wallet)
    · trivial
    refine ⟨rfl, fun _ => ⟨rfl, fun _ => ⟨rfl, fun _ => ⟨rfl, fun _ => ⟨rfl, fun _ => ?_⟩⟩⟩⟩⟩
    exact Body.All.map (webhookService.emit_plain _ _ _)
  · cases assertTransition intent.status .succeeded "confirm" <;> trivial

theorem paymentService.cancelTxn_plain (m : Uuid) (id : Text) : Plain (cancelTxn m id) := by
  refine ⟨rfl, ?_⟩
  rintro (- | intent)
  · trivial
  refine Body.All.bind ?_ (b := Body.ofExcept (assertTransition intent.status .canceled "cancel")) ?_
  · exact fun _ => ⟨rfl, fun _ => trivial⟩
  · cases assertTransition intent.status .canceled "cancel" <;> trivial

namespace payoutService

theorem sweepTxn_plain (min : ℤ) (w : SettleableWallet) : Plain (sweepTxn min w) := by
  refine ⟨rfl, ?_⟩
  rintro (- | wallet)
  · trivial
  simp only [Body.bind]
  split
  · trivial
  · exact ⟨rfl, fun _ => ⟨rfl, fun _ => ⟨rfl, fun _ => ⟨rfl, fun _ => trivial⟩⟩⟩⟩

theorem paidTxn_plain (p : PayoutRow) : Plain (paidTxn p) :=
  ⟨rfl, fun _ => webhookService.emit_plain _ _ _⟩

theorem reversalTxn_plain (p : PayoutRow) (attempts : ℕ) (message : String) :
    Plain (reversalTxn p attempts message) := by
  refine ⟨rfl, ?_⟩
  rintro (- | wallet)
  · trivial
  exact ⟨rfl, fun _ => ⟨rfl, fun _ => ⟨rfl, fun _ => ⟨rfl, fun _ =>
    webhookService.emit_plain _ _ _⟩⟩⟩⟩

end payoutService

/-! ## Every run -/

section Programs

variable {min : ℤ}

/-- The transaction bodies whose statements all meet their preconditions. -/
def Watched (min : ℤ) (β : Type) (body : Tx β) : Prop := ∀ log d,
  body.Safe engine (undisturbed min) log (fun _ _ _ => True) (fun _ _ _ => True) .begin d

theorem Plain.watched {β : Type} {b : Tx β} (h : Plain b) : Watched min β b := by
  intro log d
  refine Body.Safe.of_all ?_ h _ d
  intro log p s d hs
  exact ⟨by simp [Stmt.Matches, hs], by simp [Stmt.PassesCheck, hs]⟩

/-- Every transaction of the system meets its preconditions. -/
theorem program_bodies (j : Job) : (program min j).Bodies (Watched min) := by
  refine Client.Opens.bodies ?_ (program_opens min j)
  intro β t body hopened
  cases hopened with
  | transfer m dto => exact fun log d => transferService.attempt_watched m dto d
  | confirm m id => exact (paymentService.confirmTxn_plain m id).watched
  | cancel m id => exact (paymentService.cancelTxn_plain m id).watched
  | sweep w => exact (payoutService.sweepTxn_plain min w).watched
  | paid p => exact (payoutService.paidTxn_plain p).watched
  | reversal p attempts message => exact (payoutService.reversalTxn_plain p attempts message).watched

/-- Every program under the stronger contract. -/
theorem program_watched (j : Job) (d : Db) :
    (program min j).Safe engine (undisturbed min) Free Free [] d := by
  refine Client.Safe.strengthen ?_ ?_ ?_ (program_safe j d) (program_bodies j)
  · exact fun _ h => h
  · exact fun _ _ _ h => h.1
  · exact fun _ _ _ _ _ h => h

end Programs

theorem undisturbed_side : SideOk engine (fun p q : Priv =>
    ∀ x ∈ p.writes, ∀ w ∈ readWallets q.events, x.key = .wallet w.id → x.version ≠ w.version)
    (fun (s : Sys) (l : Step) (_ : Sys) => Undisturbed s l) := by
  intro s i u n o _ hn hstep hok it ws hws j m _ hm p hp x hx w hw hkey
  have hwritten : s.written engine (.run i u : Step) = ws := by
    unfold TxStore.Sys.written
    simp only [hn, hstep]
    obtain ⟨n', c⟩ := o
    simp only at hws
    subst hws
    rfl
  apply hok x (by rw [hwritten, ← hp]; exact hx) m (List.mem_of_getElem? hm) w hw hkey

/-- The next statement of a process, as long as nobody commits on a wallet at the
version an open transfer has read. -/
theorem next_sound {min : ℤ} {s : Sys} (h : ReachBy min (fun s l _ => Undisturbed s l) s) {n : Node}
    (hn : n ∈ s.nodes) {p : Priv} {st : Stmt} (hnext : n.next = some (p, st)) :
    st.Matches p.events (p.view s.db) ∧ st.PassesCheck (p.view s.db) := by
  obtain ⟨i, hi⟩ := List.mem_iff_getElem?.mp hn
  have hsafe := Reach.safe (undisturbed_lawful min) trivial (fun j d _ => program_watched j d)
    undisturbed_side h
  exact (hsafe.nodes i n hi).pre (undisturbed_lawful min) trivial hnext

/-- As long as nobody commits on a wallet at the version an open transfer has
read, a conditional update that matches finds the balance that was read, and no
transfer that passed the funds check breaks `CHECK (balance >= 0)`. -/
theorem optimistic_sound {min : ℤ} {s : Sys} (h : ReachBy min (fun s l _ => Undisturbed s l) s) :
    ∀ n ∈ s.nodes, ∀ x ∈ n.next, x.2.Matches x.1.events (x.1.view s.db) ∧
      x.2.PassesCheck (x.1.view s.db) := by
  intro n hn x hx
  exact next_sound h hn hx

/-- Two wallets, an account to pay out to, and a balance of 50 that a transfer
has read. -/
def readTransfer : List Step :=
  .start (.createWallet 1 .NGN) :: drive 0 1 1 ++
    .start (.createWallet 2 .NGN) :: drive 1 1 2 ++
    .start (.registerAccount 1 goodAccount) :: drive 2 1 3 ++
    .start (.createIntent 1 ⟨fifty, .NGN, none, noReference⟩) :: drive 3 2 4 ++
    .start (.confirm 1 (smallId '5')) :: drive 4 10 10 ++
    .start (.transfer 1 transferFifty) :: drive 5 3 30

/-- The transfer has written its ledger entries, and is about to debit. -/
def openTransfer : List Step := readTransfer ++ drive 5 3 33

theorem optimistic_sound_fifty : ∃ s : Sys, ∃ n ∈ s.nodes, ∃ x ∈ n.next, x.2.expects.isSome ∧
    x.2.Matches x.1.events (x.1.view s.db) := by
  have hrun : (runWhile 10 (fun s l _ => decide (Undisturbed s l)) openTransfer).any
      (fun s : Sys => decide (∃ n ∈ s.nodes, ∃ x ∈ n.next, x.2.expects.isSome)) = true := by
    decide +kernel
  obtain ⟨s, hs, hexpects⟩ := exists_of_runWhile hrun
  obtain ⟨n, hn, x, hx, hsome⟩ := of_decide_eq_true hexpects
  have hcalm : ReachBy 10 (fun s l _ => Undisturbed s l) s :=
    hs.mono (fun _ _ _ htest => of_decide_eq_true htest)
  exact ⟨s, n, hn, x, hx, hsome, (optimistic_sound hcalm n hn x hx).1⟩

/-- A sweep commits after the reads: when the transfer comes to its debit, the
version still matches, the balance is 0, and the debit breaks the check. -/
theorem debit_after_sweep : ∃ s, Reachable 10 s ∧ ∃ n ∈ s.nodes, ∃ x ∈ n.next,
    ¬ x.2.Matches x.1.events (x.1.view s.db) ∧ ¬ x.2.PassesCheck (x.1.view s.db) := by
  have hrun : (runFrom 10 (readTransfer ++ .start (.sweep none) :: drive 6 8 40 ++ drive 5 3 50)).any
      (fun s : Sys => decide (∃ n ∈ s.nodes, ∃ x ∈ n.next, x.2.expects.isSome ∧
        ¬ x.2.Matches x.1.events (x.1.view s.db) ∧
        isCheckViolation (Sql.exec x.2 ⟨0, 0⟩ (fun _ => false) (x.1.view s.db)).out = true)) =
      true := by decide +kernel
  obtain ⟨s, hs, hbad⟩ := exists_of_run hrun
  obtain ⟨n, hn, x, hx, hsome, hmatches, hcheck⟩ := of_decide_eq_true hbad
  refine ⟨s, hs, n, hn, x, hx, hmatches, ?_⟩
  intro hpasses
  exact hpasses hsome _ _ (isCheckViolation_eq_true.mp hcheck)

end PaymentApis
