import PaymentApis.Serial
import PaymentApis.Isolation
import PaymentApis.Optimistic
import PaymentApis.Lib.Window

/-!
# Who is to blame for a conflict

An attempt of a transfer throws `ConcurrencyConflictError` when a conditional
update finds a wallet at another version than the one it read. When the two ids
of the request denote different wallets, no attempt defeats itself: another
transfer has committed on that wallet in between. The schema compares the ids as
texts, and PostgreSQL compares them as identifiers.
-/

namespace PaymentApis

open TxStore

/-! ## What is stated -/

/-- The two ids denote different wallets. -/
def CreateTransferDto.Distinct (dto : CreateTransferDto) : Prop :=
  uuidOfText dto.fromWalletId ≠ uuidOfText dto.toWalletId

/-- The wallet is the source or the destination of the request. -/
def CreateTransferDto.Touches (dto : CreateTransferDto) (id : Uuid) : Prop :=
  uuidOfText dto.fromWalletId = some id ∨ uuidOfText dto.toWalletId = some id

/-- The wallets a transaction has updated conditionally. -/
def updatedWallets (evs : List Ev) : List Uuid :=
  evs.filterMap (fun
    | .stmt (.walletApplyDeltaIfVersion id _ _) _ => some id
    | _ => none)

def versionOf (id : Uuid) (d : Db) : Option ℕ := (d.wallet id).map (·.version)

/-- By this step another transfer commits a change to the wallet `w`, which the
transaction of process `i` has read and not yet updated. -/
structure Culprit (min : ℤ) (i : ℕ) (w : WalletRow) (s : Sys) (l : Step) (s' : Sys) : Prop where
  step : s.next min l = some s'
  commits : ∃ (c : ℕ) (m : Uuid) (dto : CreateTransferDto) (evs : List Ev), c ≠ i ∧
    s'.history = s.history ++ [(c, .txn (.transfer m dto) evs)]
  changed : versionOf w.id s'.db ≠ versionOf w.id s.db
  reading : ∃ n, s.nodes[i]? = some n ∧ w ∈ Node.reads n ∧ w.id ∉ updatedWallets n.priv.events

/-- The transfers that other processes than `i` have committed. -/
def othersSent (i : ℕ) (history : List (ℕ × Item)) : ℕ :=
  history.countP (fun x => x.1 != i && Item.isTransfer x.2)

/-- The process has ended with a conflict to report: its own, not one that is
replayed for its key. -/
def Node.reportsConflict (n : Node) : Bool :=
  match n.proc with
  | .run (.throw e) => decide (e = .app .concurrencyConflict)
  | .run (.ret (.response res)) => decide (res = errorHandler (.app .concurrencyConflict)) &&
    (match keyStage n.log with | .answered _ => false | _ => true)
  | _ => false

/-! ## What the transactions issue -/

theorem updatedWallets_append (evs evs' : List Ev) :
    updatedWallets (evs ++ evs') = updatedWallets evs ++ updatedWallets evs' :=
  List.filterMap_append

/-- A transfer reads before it writes a wallet, and updates each wallet once, at
the version it has read. -/
def VersionChecked : TxnName → Priv → Stmt → Prop
  | .transfer _ _, p, .walletFindById _ => ∀ x ∈ p.writes, ∀ id, x.key ≠ .wallet id
  | .transfer _ dto, p, .walletApplyDeltaIfVersion id _ version => dto.Distinct →
    (∃ w ∈ readWallets p.events, w.id = id ∧ w.version = version) ∧ dto.Touches id ∧
      (∀ x ∈ p.writes, x.key ≠ .wallet id) ∧ id ∉ updatedWallets p.events
  | _, _, _ => True

/-- A transfer reports a conflict after an update that found another version. -/
def ConflictSeen : TxnName → Priv → Err → Prop
  | .transfer _ _, p, e => e = .app .concurrencyConflict → ∃ (id : Uuid) (delta : Text) (n : ℕ),
      (.stmt (.walletApplyDeltaIfVersion id delta n) false : Ev) ∈ p.events
  | _, _, _ => True

/-- A transaction that has read these wallets, and touched none. -/
structure ReadOnly (reads : List WalletRow) (p : Priv) : Prop where
  observed : readWallets p.events = reads
  unwritten : ∀ x ∈ p.writes, ∀ id, x.key ≠ .wallet id
  updated : updatedWallets p.events = []

theorem ReadOnly.begin : ReadOnly [] .begin := ⟨rfl, by simp [Priv.begin], rfl⟩

theorem ReadOnly.add {reads : List WalletRow} {p : Priv} (h : ReadOnly reads p) {s : Stmt}
    {r : Resp s} {locked : List Loc} {ws : List Row} (hs : s.expects = none)
    (hws : ∀ x ∈ ws, ∀ id, x.key ≠ .wallet id) :
    ReadOnly (reads ++ readWallets [.stmt s r]) (p.add s r locked ws) where
  observed := by
    rw [Priv.add, readWallets_append, h.observed]
  unwritten := by
    intro x hx id
    rcases List.mem_append.mp hx with hx | hx
    · exact h.unwritten x hx id
    · exact hws x hx id
  updated := by
    rw [Priv.add, updatedWallets_append, h.updated]
    cases s with
    | walletApplyDeltaIfVersion => simp [Stmt.expects] at hs
    | _ => rfl

theorem ReadOnly.checked {reads : List WalletRow} {p : Priv} (h : ReadOnly reads p) {t : TxnName}
    {s : Stmt} (hs : s.expects = none) : VersionChecked t p s := by
  cases t with
  | transfer m dto =>
    cases s with
    | walletFindById => exact h.unwritten
    | walletApplyDeltaIfVersion => simp [Stmt.expects] at hs
    | _ => trivial
  | _ => trivial

/-- A statement that is not a conditional update and writes no wallet. -/
theorem ReadOnly.issues {reads : List WalletRow} {p : Priv} (h : ReadOnly reads p) {t : TxnName}
    {β : Type} {s : Stmt} {k : Resp s → Tx β} {A : Resp s → Prop} (hs : s.expects = none)
    (hout : ∀ env busy d r ws, (Sql.exec s env busy d).out = .ok (r, ws) →
      (∀ x ∈ ws, ∀ id, x.key ≠ .wallet id) ∧ A r)
    (hk : ∀ r p', A r → ReadOnly (reads ++ readWallets [.stmt s r]) p' →
      (k r).Issues engine (VersionChecked t) (ConflictSeen t) p') :
    (Body.stmt s k).Issues engine (VersionChecked t) (ConflictSeen t) p := by
  refine ⟨h.checked hs, ?_⟩
  intro env busy d r ws hexec
  obtain ⟨hws, ha⟩ := hout env busy d r ws hexec
  exact hk r _ ha (h.add hs hws)

namespace transferService

theorem validate_error {fromRow toRow : Option WalletRow} {m : Uuid} {amount : IntDouble} {e : Err}
    (h : validate fromRow toRow m amount = .error e) : e ≠ .app .concurrencyConflict := by
  unfold validate at h
  split at h
  · cases h
    simp
  · cases h
    simp
  · split_ifs at h <;> cases h <;> simp

/-- The two reads of an attempt. -/
theorem find_issues {reads : List WalletRow} {p : Priv} (h : ReadOnly reads p) {t : TxnName}
    {β : Type} {id : Text} {k : Option WalletRow → Tx β}
    (hk : ∀ r p', (∀ w ∈ r, uuidOfText id = some w.id) → ReadOnly (reads ++ r.toList) p' →
      (k r).Issues engine (VersionChecked t) (ConflictSeen t) p') :
    (Body.stmt (.walletFindById id) k).Issues engine (VersionChecked t) (ConflictSeen t) p := by
  refine h.issues (A := fun r => ∀ w ∈ (r : Option WalletRow), uuidOfText id = some w.id) rfl ?_ ?_
  · intro env busy d r ws hout
    obtain ⟨⟨u, hu, rfl⟩, rfl⟩ := Sql.walletFindById_ok hout
    refine ⟨by simp, ?_⟩
    intro w hw
    rw [hu, Db.id_of_wallet hw]
  · intro r p' hr hp
    refine hk r p' hr ?_
    cases r with
    | none => exact hp
    | some w => exact hp

theorem attempt_issues (m : Uuid) (dto : CreateTransferDto) :
    (attempt m dto).Issues engine (VersionChecked (.transfer m dto))
      (ConflictSeen (.transfer m dto)) .begin := by
  simp only [attempt, recordLedger, sql, Body.call_bind, Body.stmt_bind, Body.pure_eq,
    Body.ret_bind]
  refine find_issues ReadOnly.begin ?_
  intro fromRow p₁ hfrom h₁
  refine find_issues h₁ ?_
  intro toRow p₂ hto h₂
  cases hv : validate fromRow toRow m dto.amount with
  | error e => exact fun he => absurd he (validate_error hv)
  | ok v =>
    obtain ⟨f, t, a⟩ := v
    obtain ⟨rfl, rfl, rfl, -, -, -⟩ := validate_ok hv
    have hfid : uuidOfText dto.fromWalletId = some f.id := hfrom f rfl
    have htid : uuidOfText dto.toWalletId = some t.id := hto t rfl
    simp only [Body.ofExcept, Body.ret_bind]
    refine h₂.issues (A := fun _ => True) rfl ?_ ?_
    · intro env busy d r ws hout
      obtain ⟨row, rfl, -, rfl⟩ := Sql.ledgerCreateTransaction_ok hout
      simp
    intro x p₃ _ h₃
    refine h₃.issues (A := fun _ => True) rfl ?_ ?_
    · intro env busy d r ws hout
      obtain ⟨row, rfl, -, e, b, hpos, -, rfl⟩ := Sql.ledgerAddEntry_ok hout
      simp
    intro _ p₄ _ h₄
    refine h₄.issues (A := fun _ => True) rfl ?_ ?_
    · intro env busy d r ws hout
      obtain ⟨row, rfl, -, e, b, hpos, -, rfl⟩ := Sql.ledgerAddEntry_ok hout
      simp
    intro _ p₅ _ h₅
    have hreads : readWallets p₅.events = [f, t] := h₅.observed
    -- the debit of the source
    refine ⟨?_, ?_⟩
    · intro _
      refine ⟨⟨f, by simp [hreads], rfl, rfl⟩, Or.inl hfid, fun x hx => h₅.unwritten x hx f.id, ?_⟩
      simp [h₅.updated]
    intro env busy d okFrom ws hout
    -- the credit of the destination
    refine ⟨?_, ?_⟩
    · intro hdistinct
      have hne : f.id ≠ t.id := by
        intro heq
        rw [CreateTransferDto.Distinct, hfid, htid, heq] at hdistinct
        exact hdistinct rfl
      refine ⟨⟨t, ?_, rfl, rfl⟩, Or.inr htid, ?_, ?_⟩
      · simp [Priv.add, readWallets_append, hreads]
      · intro x hx hkey
        rcases List.mem_append.mp hx with hx | hx
        · exact h₅.unwritten x hx t.id hkey
        have hexec : (Sql.exec (.walletApplyDeltaIfVersion f.id (intText (-(dto.amount.val : ℤ)))
          f.version) env busy d).out = .ok (okFrom, ws) := hout
        rcases Sql.walletApplyDeltaIfVersion_ok hexec with
          ⟨-, rfl⟩ | ⟨-, s, hs, -, b, c, hc, -, -, rfl⟩
        · simp at hx
        · rw [List.mem_singleton] at hx
          subst hx
          have hsid : s.id = f.id := Db.id_of_wallet hs
          simp only [Row.key, Loc.wallet.injEq] at hkey
          exact hne (hsid.symm.trans hkey)
      · intro hmem
        rw [Priv.add, updatedWallets_append, h₅.updated] at hmem
        have hid : t.id ∈ [f.id] := hmem
        exact hne (List.mem_singleton.mp hid).symm
    intro env' busy' d' okTo ws' hout'
    cases okFrom with
    | false =>
      intro _
      exact ⟨f.id, _, f.version, List.mem_append_left _ (List.mem_append_right _
        List.mem_cons_self)⟩
    | true =>
      cases okTo with
      | false =>
        intro _
        exact ⟨t.id, _, t.version, List.mem_append_right _ List.mem_cons_self⟩
      | true => trivial

end transferService

theorem program_issues (min : ℤ) (j : Job) : (program min j).Opens
    (fun _ t b => b.Issues engine (VersionChecked t) (ConflictSeen t) .begin) := by
  refine (program_opens min j).imp ?_
  intro β t b hopened
  cases hopened with
  | transfer m dto => exact transferService.attempt_issues m dto
  | confirm | cancel | sweep | paid | reversal =>
    exact Body.Issues.of_forall (fun _ _ => trivial) (fun _ _ => trivial)

/-! ## One conflict -/

section Runs

variable {min : ℤ} {ls : List Step} {s s' : Sys} {l : Step} {i : ℕ} {n : Node} {m : Uuid}
  {dto : CreateTransferDto} {p : Priv}

/-- Nothing is lost while a process stays in its transaction. -/
theorem Stays.later (h : RunBy min (fun _ _ _ => True) ls s) {ls' : List Step}
    (hstays : Stays engine (program min) i s ls' s') : Db.Later s.db s'.db := by
  induction hstays with
  | here _ => exact Db.Later.refl _
  | step hprev hstep _ ih =>
    exact ih.trans (step_later ((hprev.run (fun _ _ _ => trivial) h).reach) hstep)

/-- Only a transfer changes the version of a wallet. -/
theorem Commit.version_changed {log : List Ev} {now : ℕ} {d : Db} {it : Item} {ws : List Row}
    (h : Commit min log now d it ws) {w : WalletRow} (hw : d.HasWallet w)
    (hne : versionOf w.id (Table.install d ws) ≠ versionOf w.id d) :
    ∃ m dto evs, it = .txn (.transfer m dto) evs := by
  obtain ⟨r, hr, -⟩ := hw
  have hrid := Db.id_of_wallet hr
  obtain ⟨r', hr', hmerchant, hcurrency, -⟩ :=
    (Db.HasWallet.of_get (hrid.symm ▸ hr)).later h.later
  rw [hrid] at hr'
  have hrid' := Db.id_of_wallet hr'
  have hmem : r' ∈ Db.wallets (Table.install d ws) :=
    Db.mem_wallets.mpr (hrid'.symm ▸ Db.wallet_eq_some.mp hr')
  rcases h.wallet_origin hmem with ⟨r₀, hr₀, hid, -, -, hversion | htransfer⟩ | ⟨rfl, howner⟩
  · -- the version has not moved
    rw [Db.mem_wallets, ← hid, hrid', ← Db.wallet_eq_some, hr, Option.some.injEq] at hr₀
    subst hr₀
    simp [versionOf, hr, hr', hversion] at hne
  · exact htransfer
  · -- a new wallet is nobody's old one
    have hold : r ∈ d.wallets := Db.mem_wallets.mpr (hrid.symm ▸ Db.wallet_eq_some.mp hr)
    exact absurd ⟨hmerchant.symm, hcurrency.symm⟩ (howner r hold)

theorem Sql.walletApplyDeltaIfVersion_false {env : Env} {busy : Loc → Bool} {v : Db} {id : Uuid}
    {delta : Text} {k : ℕ} {ws : List Row}
    (h : (Sql.exec (.walletApplyDeltaIfVersion id delta k) env busy v).out = .ok (false, ws)) :
    versionOf id v ≠ some k := by
  simp only [exec, walletApplyDeltaIfVersion] at h
  cases hw : v.wallet id with
  | none => simp [versionOf, hw]
  | some w =>
    simp only [hw] at h
    intro hversion
    have hk : w.version = k := by simpa [versionOf, hw] using hversion
    rw [if_pos hk] at h
    split at h
    · exact absurd (addBalance_ok h).1 (by simp)
    · simp at h

theorem mem_readWallets {evs : List Ev} {w : WalletRow} : w ∈ readWallets evs ↔
    ∃ id, (.stmt (.walletFindById id) (some w) : Ev) ∈ evs := by
  constructor
  · intro hw
    obtain ⟨e, he, hread⟩ := List.mem_filterMap.mp hw
    split at hread
    · rename_i id found
      exact ⟨id, hread ▸ he⟩
    · simp at hread
  · rintro ⟨id, hid⟩
    exact List.mem_filterMap.mpr ⟨_, hid, rfl⟩

/-- In every state of a transaction, its process issues what it may. -/
theorem Stays.issues {before after : List Step} {s₁ : Sys}
    (h : RunBy min (fun _ _ _ => True) before s₁)
    (hstays : Stays engine (program min) i s₁ after s) :
    ∀ n ∈ s.nodes, n.Issues engine VersionChecked ConflictSeen :=
  Reach.issues (program_issues min) (hstays.run (fun _ _ _ => trivial) h).reach

section Window

variable {before after : List Step} {s₁ : Sys} {t : TxnName}

/-- A transaction that is about to report a conflict has come to an update at
which a wallet was not at the version it had read. -/
theorem failed_update (h : RunBy min (fun _ _ _ => True) before s₁)
    (hstays : Stays engine (program min) i s₁ after s) (hbegin : s₁.txn? i = some (t, .begin))
    (hn : s.nodes[i]? = some n)
    (hthrow : n.throws? = some (.transfer m dto, p, .app .concurrencyConflict))
    (hdistinct : dto.Distinct) : t = .transfer m dto ∧ ∃ (w : WalletRow) (mid : List Step) (u : ℕ)
      (rest : List Step) (su su' : Sys) (pu : Priv), dto.Touches w.id ∧
      after = mid ++ .run i u :: rest ∧
      Stays engine (program min) i s₁ mid su ∧ su.next min (.run i u) = some su' ∧
      Stays engine (program min) i su' rest s ∧ su.txn? i = some (t, pu) ∧
      w ∈ readWallets pu.events ∧ w.id ∉ updatedWallets pu.events ∧
      versionOf w.id su.db ≠ some w.version := by
  have htxn : s.txn? i = some (.transfer m dto, p) := by
    rw [TxStore.Sys.txn?, hn, Option.bind_some, Node.txn?_of_throws hthrow]
  obtain ⟨rfl, -⟩ := hstays.grows hbegin htxn
  obtain ⟨id, delta, k, hfailed⟩ :=
    (Stays.issues h hstays n (List.mem_of_getElem? hn)).thrown hthrow rfl
  obtain ⟨evs, evs', hevs⟩ := List.append_of_mem hfailed
  obtain ⟨mid, u, rest, su, su', nu, pu, -, ws, rfl, hmid, hstep, hrest, hnu, hnext, rfl, -, -, -,
    hexec⟩ := hstays.executed hbegin htxn hevs
  obtain ⟨t, htu, hchecked⟩ := (Stays.issues h hmid nu (List.mem_of_getElem? hnu)).ok hnext
  have htxnU : su.txn? i = some (t, pu) := by
    rw [TxStore.Sys.txn?, hnu, Option.bind_some, htu]
  obtain ⟨rfl, -⟩ := hmid.grows hbegin htxnU
  obtain ⟨⟨w, hw, rfl, rfl⟩, htouches, hunwritten, hnot⟩ := hchecked hdistinct
  refine ⟨rfl, w, mid, u, rest, su, su', pu, htouches, rfl, hmid, hstep, hrest, htxnU, hw, hnot, ?_⟩
  have hout : (Sql.exec (.walletApplyDeltaIfVersion w.id delta w.version) ⟨su.now, u⟩ (su.busy i)
    (pu.view su.db)).out = .ok (false, ws) := hexec
  have hversion := Sql.walletApplyDeltaIfVersion_false hout
  rwa [versionOf, view_wallet hunwritten] at hversion

/-- A wallet that a transfer has read was committed so when it was read. -/
theorem read_committed (h : RunBy min (fun _ _ _ => True) before s₁)
    (hstays : Stays engine (program min) i s₁ after s)
    (hbegin : s₁.txn? i = some (.transfer m dto, .begin))
    (htxn : s.txn? i = some (.transfer m dto, p)) {w : WalletRow} (hw : w ∈ readWallets p.events) :
    ∃ (mid : List Step) (u : ℕ) (rest : List Step) (sr sr' : Sys) (pr : Priv),
      after = mid ++ .run i u :: rest ∧
      Stays engine (program min) i s₁ mid sr ∧ sr.next min (.run i u) = some sr' ∧
      Stays engine (program min) i sr' rest s ∧ sr'.txn? i = some (.transfer m dto, pr) ∧
      w ∈ readWallets pr.events ∧ Db.wallet sr'.db w.id = some w := by
  obtain ⟨text, hread⟩ := mem_readWallets.mp hw
  obtain ⟨evs, evs', hevs⟩ := List.append_of_mem hread
  obtain ⟨mid, u, rest, sr, sr', nr, pr, pr', ws, rfl, hmid, hstep, hrest, hnr, hnext, rfl, htxn',
    hevs', hdb, hexec⟩ := hstays.executed hbegin htxn hevs
  obtain ⟨t, htr, hchecked⟩ := (Stays.issues h hmid nr (List.mem_of_getElem? hnr)).ok hnext
  have htxnR : sr.txn? i = some (t, pr) := by
    rw [TxStore.Sys.txn?, hnr, Option.bind_some, htr]
  obtain ⟨rfl, -⟩ := hmid.grows hbegin htxnR
  refine ⟨mid, u, rest, sr, sr', pr', rfl, hmid, hstep, hrest, htxn', ?_, ?_⟩
  · rw [hevs', mem_readWallets]
    exact ⟨text, List.mem_append_right _ List.mem_cons_self⟩
  · have hout : (Sql.exec (.walletFindById text) ⟨sr.now, u⟩ (sr.busy i) (pr.view sr.db)).out =
      .ok (some w, ws) := hexec
    obtain ⟨⟨x, -, hx⟩, -⟩ := Sql.walletFindById_ok hout
    rw [view_wallet (fun y hy => hchecked y hy x)] at hx
    rw [hdb, Db.id_of_wallet hx.symm]
    exact hx.symm

/-- A transaction that is about to report a conflict has a culprit, who committed
after it began. -/
theorem culprit_in_window (h : RunBy min (fun _ _ _ => True) before s₁)
    (hstays : Stays engine (program min) i s₁ after s) (hbegin : s₁.txn? i = some (t, .begin))
    (hn : s.nodes[i]? = some n)
    (hthrow : n.throws? = some (.transfer m dto, p, .app .concurrencyConflict))
    (hdistinct : dto.Distinct) : ∃ w, dto.Touches w.id ∧ ∃ mid l rest sa sb,
      after = mid ++ l :: rest ∧ Stays engine (program min) i s₁ mid sa ∧
      Culprit min i w sa l sb ∧ Stays engine (program min) i sb rest s := by
  obtain ⟨rfl, w, mid, u, rest, su, su', pu, htouches, rfl, hmid, hstepU, hrest, htxnU, hw, hnot,
    hmoved⟩ := failed_update h hstays hbegin hn hthrow hdistinct
  obtain ⟨first, v, second, sr, sr', pr, rfl, hfirst, hstepR, hsecond, htxnR, hread, hfound⟩ :=
    read_committed h hmid hbegin htxnU hw
  -- between the read and the update, the version has moved
  have hne : versionOf w.id su.db ≠ versionOf w.id sr'.db := by
    have hversion : versionOf w.id sr'.db = some w.version := by simp [versionOf, hfound]
    rw [hversion]
    exact hmoved
  obtain ⟨b, l, a, sa, sb, c, it, rfl, hb, hstep, ha, hchanged, hc, hlast⟩ := hsecond.changed hne
  have hsa : Stays engine (program min) i s₁ (first ++ .run i v :: b) sa :=
    hfirst.append hstepR hb
  obtain ⟨log, ws, -, hcommit, hdb⟩ :=
    step_commits (hsa.run (fun _ _ _ => trivial) h).reach hstep hlast
  have hlive : Db.HasWallet sa.db w := by
    have hrun : RunBy min (fun _ _ _ => True) (before ++ (first ++ [.run i v])) sr' :=
      (hfirst.step hstepR hsecond.first).run (fun _ _ _ => trivial) h
    exact (Db.HasWallet.of_get hfound).later (Stays.later hrun hb)
  obtain ⟨m', dto', evs, rfl⟩ := Commit.version_changed hcommit hlive (by
    rw [← hdb]
    exact hchanged)
  refine ⟨w, htouches, first ++ .run i v :: b, l, a ++ .run i u :: rest, sa, sb, by simp, hsa,
    ⟨hstep, ⟨c, m', dto', evs, hc, hlast⟩, hchanged, ?_⟩, ha.append hstepU hrest⟩
  -- by then the wallet has been read, and not been updated
  obtain ⟨⟨ta, pa⟩, hta⟩ := Option.isSome_iff_exists.mp hb.last
  obtain ⟨na, hna, hopen⟩ := Sys.txn?_eq_some.mp hta
  obtain ⟨-, hsince⟩ := hb.grows htxnR hta
  obtain ⟨-, huntil⟩ := ((Stays.here hb.last).append hstep ha).grows hta htxnU
  have hpriv : na.priv = pa := Node.priv_of_txn? hopen
  refine ⟨na, hna, ?_, ?_⟩
  · rw [Node.reads, hpriv]
    exact (hsince.filterMap _).subset hread
  · rw [hpriv]
    exact fun hmem => hnot ((huntil.filterMap _).subset hmem)

end Window

/-! ## The conflicts of one call -/

/-- The attempts that end with a conflict. -/
def isConflict : TxnName → Err → Bool
  | .transfer _ _, e => decide (e = .app .concurrencyConflict)
  | _, _ => false

theorem errorHandler_conflict {e : Err}
    (h : errorHandler e = errorHandler (.app .concurrencyConflict)) :
    e = .app .concurrencyConflict := by
  cases e with
  | app a => cases a <;> simp [errorHandler, AppError.statusCode, AppError.code] at h ⊢
  | db f => simp [errorHandler, AppError.statusCode] at h
  | error message => simp [errorHandler, AppError.statusCode] at h

namespace transferService

/-- The last attempt is the fifth that has ended with a conflict. -/
theorem attempts_counts : ∀ (k c : ℕ) (log : List Ev), MAX_RETRIES ≤ c + k →
    (attempts m dto k).Counts engine isConflict (fun _ _ _ => True)
      (fun c _ e => e = .app .concurrencyConflict → MAX_RETRIES ≤ c) c log
  | 0, _, _, h => fun _ => h
  | k + 1, c, log, h => by
      refine Client.Counts.tryCatch (T := fun c' _ e =>
        e = .app .concurrencyConflict → c' = c + 1) ?_ (Client.Counts.transaction ?_ ?_ ?_)
      · intro c' log e he
        split
        · rename_i hretry
          obtain rfl := he hretry.1
          exact attempts_counts k (c + 1) log (by omega)
        · rename_i hlast
          intro hconflict
          have hk : ¬ 0 < k := fun hk => hlast ⟨hconflict, hk⟩
          rw [he hconflict]
          omega
      · simp [engine]
      · exact fun _ _ => trivial
      · rintro e rfl
        rfl

end transferService

/-- What the end of a request says of the number of its conflicts. -/
def Reported (c : ℕ) (log : List Ev) (res : Response) : Prop :=
  res = errorHandler (.app .concurrencyConflict) →
    (∃ row, keyStage log = .answered row) ∨ transferService.MAX_RETRIES ≤ c

theorem counts_query {s : Stmt} {Q : ℕ → List Ev → Resp s → Prop} {T : ℕ → List Ev → Err → Prop}
    {c : ℕ} {log : List Ev} (hf : ∀ f, T c (log ++ [.fault f]) (.db f))
    (hs : ∀ r, Q c (log ++ [.stmt s r]) r) : (query s).Counts engine isConflict Q T c log :=
  Client.Counts.exec hf hs

theorem idempotencyRepository.claim_counts (m : Uuid) (key hash : Text) (c : ℕ) (log : List Ev) :
    (idempotencyRepository.claim m key hash).Counts engine isConflict
      (fun _ log x => ∀ row, x = (false, some row) → keyStage log = .answered row)
      (fun _ _ e => e ≠ .app .concurrencyConflict) c log := by
  refine Client.Counts.tryCatch (T := fun _ _ e => e ≠ .app .concurrencyConflict) ?_ ?_
  · intro c log e he
    split
    · refine Client.Counts.bind (Q := fun _ log x => ∀ row, x = some row →
        keyStage log = .answered row) ?_ (counts_query (s := .idempotencyGet m key) ?_ ?_)
      · intro c log x hx row hrow
        exact hx row (Prod.mk.inj hrow).2
      · simp
      · rintro r row rfl
        rw [keyStage_append]
        rfl
    · exact he
  · refine Client.Counts.bind (Q := fun _ _ _ => True) ?_
      (counts_query (s := .idempotencyInsert m key hash) ?_ ?_)
    · exact fun _ _ _ _ row hrow => absurd (Prod.mk.inj hrow).1 (by simp)
    · simp
    · exact fun _ => trivial

theorem idempotency.persist_counts {m : Uuid} {key : Text} {res : Response} {c : ℕ}
    {log : List Ev} {T : ℕ → List Ev → Err → Prop}
    (h : res = errorHandler (.app .concurrencyConflict) → transferService.MAX_RETRIES ≤ c) :
    (idempotency.persist m key res).Counts engine isConflict Reported T c log := by
  refine Client.Counts.bind (Q := fun c' _ _ => c' = c) ?_ ?_
  · rintro c' log x rfl
    exact fun hres => Or.inr (h hres)
  refine Client.Counts.tryCatch (T := fun c' _ _ => c' = c) ?_ ?_
  · exact fun _ _ _ hc => hc
  split
  · exact counts_query (s := .idempotencyRelease m key) (Q := fun c' _ _ => c' = c)
      (fun _ => rfl) (fun _ => rfl)
  · exact counts_query (s := .idempotencyComplete m key res.status res.body)
      (Q := fun c' _ _ => c' = c) (fun _ => rfl) (fun _ => rfl)

theorem transferController.create_counts {c : ℕ} {log : List Ev} {T : ℕ → List Ev → Err → Prop} :
    ((transferController.create m dto).tryCatch (fun err => return errorHandler err)).Counts engine
      isConflict (fun c _ res => res = errorHandler (.app .concurrencyConflict) →
        transferService.MAX_RETRIES ≤ c) T c log := by
  refine Client.Counts.tryCatch (T := fun c _ e => e = .app .concurrencyConflict →
    transferService.MAX_RETRIES ≤ c) ?_ (Client.Counts.bind (Q := fun _ _ _ => True) ?_
      (transferService.attempts_counts _ _ _ (Nat.le_add_left _ _)))
  · exact fun c log e he hres => he (errorHandler_conflict hres)
  · intro c log r _ hres
    simp [errorHandler, AppError.statusCode] at hres

theorem postTransfer_counts (m : Uuid) (key : Option Text) (hash : Text)
    (dto : CreateTransferDto) {T : ℕ → List Ev → Err → Prop} :
    (postTransfer m key hash dto).Counts engine isConflict Reported T 0 [] := by
  refine Client.Counts.tryCatch (T := fun _ _ e => e ≠ .app .concurrencyConflict) ?_ ?_
  · exact fun c log e he hres => absurd (errorHandler_conflict hres) he
  unfold idempotency
  split
  · exact fun he => by simp at he
  split
  · exact fun he => by simp at he
  rename_i key _
  refine Client.Counts.bind ?_ (idempotencyRepository.claim_counts m key hash 0 [])
  rintro c log ⟨created, existing⟩ hanswered
  split
  · rename_i row hrow
    have hstage := hanswered row hrow
    unfold idempotency.replay
    split_ifs
    · exact fun he => by simp at he
    · exact fun he => by simp at he
    · exact fun _ => Or.inl ⟨row, hstage⟩
  · refine Client.Counts.bind ?_ transferController.create_counts
    exact fun c log res hres => idempotency.persist_counts hres

/-- What the end of a call says of the number of its conflicts. -/
def Ended (c : ℕ) (log : List Ev) (reply : Reply) : Prop :=
  ∀ res, reply = .response res → Reported c log res

theorem program_counts {j : Job} (hj : j.transferDto = some dto) :
    (program min j).Counts engine isConflict Ended
      (fun c _ e => e = .app .concurrencyConflict → transferService.MAX_RETRIES ≤ c) 0 [] := by
  cases j with
  | transfer m dto' =>
    refine Client.Counts.bind (Q := fun _ _ _ => True) ?_
      (transferService.attempts_counts _ _ _ (Nat.le_add_left _ _))
    exact fun c log r _ res hres => by simp at hres
  | postTransfer m key hash dto' =>
    refine Client.Counts.bind ?_ (postTransfer_counts m key hash dto')
    intro c log res hres res' hreply
    cases hreply
    exact hres
  | _ => simp [Job.transferDto] at hj

theorem othersSent_step (hstep : s.next min l = some s') :
    othersSent i s.history ≤ othersSent i s'.history := by
  rcases Sys.step_history hstep with ⟨hsame, -⟩ | ⟨_, _, _, _, _, _, _, _, _, hlast⟩
  · rw [hsame]
  · rw [hlast, othersSent, othersSent, List.countP_append]
    exact Nat.le_add_right _ _

theorem othersSent_stays {ls' : List Step} {k : ℕ}
    (hstays : Stays engine (program min) k s ls' s') :
    othersSent i s.history ≤ othersSent i s'.history := by
  induction hstays with
  | here _ => exact le_refl _
  | step _ hstep _ ih => exact ih.trans (othersSent_step hstep)

theorem Culprit.sent {w : WalletRow} (h : Culprit min i w s l s') :
    othersSent i s.history < othersSent i s'.history := by
  obtain ⟨c, m, dto, evs, hc, hlast⟩ := h.commits
  rw [hlast, othersSent, othersSent, List.countP_append, List.countP_singleton]
  simp [hc, Item.isTransfer]

/-- `x` transfers of others have been committed: by now, or, when the process is
in a transaction, before it began. -/
def SentBefore (min : ℤ) (i : ℕ) (x : ℕ) (s : Sys) : Prop :=
  (s.txn? i = none ∧ x ≤ othersSent i s.history) ∨
    ∃ (before after : List Step) (s₁ : Sys) (t : TxnName), s₁.txn? i = some (t, .begin) ∧
      RunBy min (fun _ _ _ => True) before s₁ ∧ Stays engine (program min) i s₁ after s ∧
      x ≤ othersSent i s₁.history

theorem SentBefore.le {x : ℕ} (h : SentBefore min i x s) : x ≤ othersSent i s.history := by
  rcases h with ⟨-, hle⟩ | ⟨before, after, s₁, t, -, -, hstays, hle⟩
  · exact hle
  · exact hle.trans (othersSent_stays hstays)

theorem SentBefore.step {x : ℕ} (h : SentBefore min i x s)
    (hrun : RunBy min (fun _ _ _ => True) ls s) (hstep : s.next min l = some s') :
    SentBefore min i x s' := by
  cases hnow : s'.txn? i with
  | none => exact Or.inl ⟨hnow, h.le.trans (othersSent_step hstep)⟩
  | some tp =>
    obtain ⟨t, p⟩ := tp
    rcases h with ⟨hclosed, hle⟩ | ⟨before, after, s₁, t₁, hbegin, hrun₁, hstays, hle⟩
    · obtain ⟨rfl, -⟩ := Sys.step_begin hstep hclosed hnow
      exact Or.inr ⟨ls ++ [l], [], s', t, hnow, hrun.step hstep trivial, .here (by rw [hnow]; rfl),
        hle.trans (othersSent_step hstep)⟩
    · exact Or.inr ⟨before, after ++ [l], s₁, t₁, hbegin, hrun₁,
        hstays.step hstep (by rw [hnow]; rfl), hle⟩

/-- A conflict has a culprit of its own. -/
theorem SentBefore.conflict {x : ℕ} (h : SentBefore min i x s) (hn : s.nodes[i]? = some n)
    (hthrow : n.throws? = some (.transfer m dto, p, .app .concurrencyConflict))
    (hdistinct : dto.Distinct) (hstep : s.next min l = some s') (hclosed : s'.txn? i = none) :
    SentBefore min i (x + 1) s' := by
  have hopen : s.txn? i = some (.transfer m dto, p) := by
    rw [TxStore.Sys.txn?, hn, Option.bind_some, Node.txn?_of_throws hthrow]
  rcases h with ⟨hnone, -⟩ | ⟨before, after, s₁, t, hbegin, hrun, hstays, hle⟩
  · rw [hopen] at hnone
    cases hnone
  obtain ⟨w, -, mid, l', rest, sa, sb, -, hmid, hculprit, hrest⟩ :=
    culprit_in_window hrun hstays hbegin hn hthrow hdistinct
  refine Or.inl ⟨hclosed, ?_⟩
  calc x + 1 ≤ othersSent i s₁.history + 1 := by omega
    _ ≤ othersSent i sa.history + 1 := Nat.succ_le_succ (othersSent_stays hmid)
    _ ≤ othersSent i sb.history := hculprit.sent
    _ ≤ othersSent i s.history := othersSent_stays hrest
    _ ≤ othersSent i s'.history := othersSent_step hstep

/-- All transfers of the process are the one its request asks for. -/
def Node.For (dto : CreateTransferDto) (n : Node) : Prop :=
  n.Issues engine (fun _ _ _ => True) (fun t _ _ => ∀ m' dto', t = .transfer m' dto' → dto' = dto)

theorem program_for {j : Job} (hj : j.transferDto = some dto) :
    (program min j).Opens (fun _ t b => b.Issues engine (fun _ _ => True)
      (fun _ _ => ∀ m' dto', t = .transfer m' dto' → dto' = dto) .begin) := by
  have hattempt : ∀ m, (transferService.attempt m dto).Issues engine (fun _ _ => True)
      (fun _ _ => ∀ m' dto', TxnName.transfer m dto = .transfer m' dto' → dto' = dto) .begin := by
    intro m
    refine Body.Issues.of_forall (fun _ _ => trivial) ?_
    rintro _ _ m' dto' ⟨⟩
    rfl
  cases j with
  | transfer m dto' =>
    obtain rfl : dto' = dto := Option.some.inj hj
    exact Client.Opens.map (transferService.attempts_opens (hattempt m) _)
  | postTransfer m key hash dto' =>
    obtain rfl : dto' = dto := Option.some.inj hj
    exact Client.Opens.map (postTransfer_opens (hattempt m))
  | _ => simp [Job.transferDto] at hj

theorem hits_conflict (h : n.hits isConflict = true) : ∃ m dto p,
    n.throws? = some (.transfer m dto, p, .app .concurrencyConflict) := by
  unfold TxStore.Node.hits at h
  split at h
  · rename_i t p e hthrow
    cases t with
    | transfer m dto =>
      rw [isConflict, decide_eq_true_eq] at h
      subst h
      exact ⟨m, dto, p, hthrow⟩
    | _ => simp [isConflict] at h
  · cases h

/-- What a call has suffered so far: its conflicts, each with a transfer that
another process has committed since the call began. -/
structure Suffered (min : ℤ) (i : ℕ) (dto : CreateTransferDto) (s₀ s : Sys) (n : Node) (c : ℕ) :
    Prop where
  node : s.nodes[i]? = some n
  own : Node.For dto n
  counts : n.Counts engine isConflict Ended
    (fun c _ e => e = .app .concurrencyConflict → transferService.MAX_RETRIES ≤ c) c
  sent : SentBefore min i (othersSent i s₀.history + c) s

theorem Suffered.step {s₀ : Sys} {c : ℕ} (h : Suffered min i dto s₀ s n c)
    (hrun : RunBy min (fun _ _ _ => True) ls s) (hdistinct : dto.Distinct)
    (hstep : s.next min l = some s') : ∃ n' c', Suffered min i dto s₀ s' n' c' := by
  have hold := (List.getElem?_eq_some_iff.mp h.node).1
  have hlen : i < s'.nodes.length := lt_of_lt_of_le hold (Sys.step_length hstep)
  have hn' : s'.nodes[i]? = some s'.nodes[i] := List.getElem?_eq_getElem hlen
  generalize s'.nodes[i] = n' at hn'
  rcases Sys.step_node hstep hn' with ⟨hsame, -⟩ | ⟨j, -, hi, -⟩ | ⟨m, hm, -, hmoved⟩
  · rw [h.node, Option.some.injEq] at hsame
    subst hsame
    exact ⟨n, c, hn', h.own, h.counts, h.sent.step hrun hstep⟩
  · omega
  rw [h.node, Option.some.injEq] at hm
  subst hm
  rcases hmoved with ⟨u, o, -, hmove, -⟩ | ⟨f, -, hfail⟩ | ⟨-, rfl⟩
  · refine ⟨n', c + (n.hits isConflict).toNat, hn', h.own.step hmove, h.counts.step hmove, ?_⟩
    cases hhits : n.hits isConflict with
    | false => exact h.sent.step hrun hstep
    | true =>
      obtain ⟨m, dto', p, hthrow⟩ := hits_conflict hhits
      obtain rfl : dto' = dto := h.own.thrown hthrow m dto' rfl
      have hclosed : s'.txn? i = none := by
        rw [TxStore.Sys.txn?, hn', Option.bind_some, Node.step_throws hmove hthrow]
      exact h.sent.conflict h.node hthrow hdistinct hstep hclosed
  · exact ⟨n', c, hn', h.own.fail hfail, h.counts.fail hfail, h.sent.step hrun hstep⟩
  · exact ⟨_, c, hn', trivial, trivial, h.sent.step hrun hstep⟩

/-- Every call, in every state that is reached. -/
theorem suffered (h : RunBy min (fun _ _ _ => True) ls s) {j : Job} (hj : (jobs ls)[i]? = some j)
    (hdto : j.transferDto = some dto) (hdistinct : dto.Distinct) :
    ∃ (before after : List Step) (s₀ : Sys) (n : Node) (c : ℕ), ls = before ++ .start j :: after ∧
      (jobs before).length = i ∧ RunBy min (fun _ _ _ => True) before s₀ ∧
      Suffered min i dto s₀ s n c := by
  induction h with
  | init => simp [jobs] at hj
  | @step ls s s' l hrun hstep _ ih =>
    rw [jobs_append] at hj
    by_cases hlt : i < (jobs ls).length
    · rw [List.getElem?_append_left hlt] at hj
      obtain ⟨before, after, s₀, n, c, rfl, hi, hrun₀, hsuffered⟩ := ih hj
      obtain ⟨n', c', hnext⟩ := hsuffered.step hrun hdistinct hstep
      exact ⟨before, after ++ [l], s₀, n', c', by simp, hi, hrun₀, hnext⟩
    · -- the call has just begun
      rw [List.getElem?_append_right (Nat.le_of_not_lt hlt)] at hj
      cases l with
      | start j' =>
        simp only [Label.started, List.getElem?_singleton] at hj
        split at hj
        · obtain rfl : j' = j := Option.some.inj hj
          have hi : (jobs ls).length = i := by omega
          have hlen : (jobs ls).length = s.nodes.length := hrun.length_jobs
          simp only [Sys.step, Option.some.injEq] at hstep
          subst hstep
          have hnode : (s.nodes ++ [⟨[], .run (program min j')⟩])[i]? =
              some (⟨[], .run (program min j')⟩ : Node) := by
            rw [← hi, hlen]
            simp
          refine ⟨ls, [], s, _, 0, rfl, hi, hrun, hnode, program_for hdto, program_counts hdto,
            Or.inl ⟨?_, le_refl _⟩⟩
          rw [TxStore.Sys.txn?, hnode]
          rfl
        · cases hj
      | _ => simp [Label.started] at hj

theorem Suffered.five {s₀ : Sys} {c : ℕ} (h : Suffered min i dto s₀ s n c)
    (hreports : Node.reportsConflict n = true) :
    othersSent i s₀.history + transferService.MAX_RETRIES ≤ othersSent i s.history := by
  have hle := h.sent.le
  have hcounts := h.counts
  have hc : transferService.MAX_RETRIES ≤ c := by
    unfold Node.reportsConflict at hreports
    split at hreports
    · rename_i e hproc
      rw [TxStore.Node.Counts, hproc] at hcounts
      exact hcounts (of_decide_eq_true hreports)
    · rename_i res hproc
      rw [TxStore.Node.Counts, hproc] at hcounts
      rw [Bool.and_eq_true, decide_eq_true_eq] at hreports
      rcases hcounts res rfl hreports.1 with ⟨row, hrow⟩ | hc
      · rw [hrow] at hreports
        exact absurd hreports.2 (by simp)
      · exact hc
    · cases hreports
  omega

end Runs


end PaymentApis
