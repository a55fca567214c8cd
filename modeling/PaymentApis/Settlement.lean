import PaymentApis.Money

/-!
# A payout is settled once in the books

As long as leases are not outlived: a paid or failed payout never changes
again, it fails exactly when it has one reversal, and its events are emitted
once.
-/

namespace PaymentApis

open TxStore

/-! ## What is counted -/

/-- A committed reversal of a payout: it posts one `payout_reversal`. -/
def Item.reverses (id : Uuid) : Item → Bool
  | .txn (.reversal p) _ => p.id == id
  | _ => false

/-- A committed transaction that marks a payout paid. -/
def Item.pays (id : Uuid) : Item → Bool
  | .txn (.paid p) _ => p.id == id
  | _ => false

def reversals (history : List (ℕ × Item)) (id : Uuid) : ℕ :=
  history.countP (fun x => Item.reverses id x.2)

def payments (history : List (ℕ × Item)) (id : Uuid) : ℕ :=
  history.countP (fun x => Item.pays id x.2)

def EventData.payoutId : EventData → Option Uuid
  | .payout id _ _ _ => some id
  | .payment _ _ _ _ => none

/-- An outbox row of one type for one payout and endpoint. -/
def WebhookEventRow.announces (id : Uuid) (type : EventType) (endpointId : Uuid)
    (e : WebhookEventRow) : Bool :=
  decide (e.payload.data.payoutId = some id) && decide (e.eventType = type) &&
    decide (e.endpointId = endpointId)

/-- How often a payout is announced to an endpoint. -/
def Db.announcements (d : Db) (id : Uuid) (type : EventType) (endpointId : Uuid) : ℕ :=
  d.events.countP (WebhookEventRow.announces id type endpointId)

/-! ## Events -/

def announcement (id : Uuid) (type : EventType) (endpointId : Uuid) : Row → ℤ
  | .event e => if e.announces id type endpointId then 1 else 0
  | _ => 0

theorem total_announcement (d : Db) (id : Uuid) (type : EventType) (endpointId : Uuid) :
    d.total (announcement id type endpointId) = d.announcements id type endpointId := by
  unfold Db.announcements Db.events Table.total
  induction d.rows with
  | nil => rfl
  | cons r rows ih =>
    rw [List.map_cons, List.sum_cons, ih]
    cases r with
    | event e =>
      simp only [announcement, Row.asEvent, List.filterMap_cons, List.countP_cons]
      split <;> push_cast <;> ring
    | _ => simp [announcement, Row.asEvent, List.filterMap_cons]

/-- One `emit` announces its payout at most once to an endpoint, and no other. -/
theorem Outbox.sum_announcement {d : Db} {m : Uuid} {type : EventType} {data : EventData}
    (o : Outbox d m type data) (id : Uuid) (type' : EventType) (endpointId : Uuid) :
    (o.rows.map (fun e => announcement id type' endpointId (.event e))).sum ≤
      if data.payoutId = some id ∧ type = type' then 1 else 0 := by
  have hrows : ∀ rows : List WebhookEventRow, (∀ r ∈ rows, r.eventType = type ∧
      r.payload = ⟨type, data⟩) →
      (rows.map (fun e => announcement id type' endpointId (.event e))).sum =
        if data.payoutId = some id ∧ type = type' then
          ((rows.map (·.endpointId)).count endpointId : ℤ) else 0 := by
    intro rows
    induction rows with
    | nil => simp
    | cons r rows ih =>
      intro h
      obtain ⟨htype, hpayload⟩ := h r List.mem_cons_self
      rw [List.map_cons, List.sum_cons, ih (fun x hx => h x (List.mem_cons_of_mem _ hx))]
      simp only [announcement, WebhookEventRow.announces, htype, hpayload, List.map_cons,
        List.count_cons, beq_iff_eq]
      by_cases hmatch : data.payoutId = some id ∧ type = type'
      · simp only [hmatch, and_self, if_true, decide_true, Bool.and_self, Bool.true_and,
          decide_eq_true_eq]
        split <;> push_cast <;> ring
      · rw [if_neg hmatch, if_neg hmatch, add_zero, if_neg]
        intro hall
        simp only [Bool.and_eq_true, decide_eq_true_eq] at hall
        exact hmatch hall.1
  rw [hrows o.rows (fun r hr => ⟨(o.shape r hr).2.1, (o.shape r hr).2.2.1⟩)]
  split
  · rw [o.targets]
    have hcount := List.nodup_iff_count_le_one.mp o.distinct endpointId
    omega
  · exact le_refl 0

/-- How many new announcements a commit may make. -/
theorem Commit.total_announcement {min : ℤ} {log : List Ev} {now : ℕ} {d : Db} {it : Item}
    {ws : List Row} (h : Commit min log now d it ws) (id : Uuid) (type : EventType)
    (endpointId : Uuid) :
    Table.total (announcement id type endpointId) (d.install ws) ≤
      d.total (announcement id type endpointId) +
        (if Item.pays id it = true ∧ type = .payoutPaid then 1 else 0) +
        (if Item.reverses id it = true ∧ type = .payoutFailed then 1 else 0) := by
  have hnd := h.nodup
  have hsame : Table.total (announcement id type endpointId) (d.install ws) =
      d.total (announcement id type endpointId) → Table.total (announcement id type endpointId)
        (d.install ws) ≤ d.total (announcement id type endpointId) +
          (if Item.pays id it = true ∧ type = .payoutPaid then 1 else 0) +
          (if Item.reverses id it = true ∧ type = .payoutFailed then 1 else 0) := by
    intro heq
    rw [heq]
    split_ifs <;> omega
  cases h with
  | query | accountFind | bank | sweepSkip => exact hsame rfl
  | keyed s r ws hkey => exact hsame (hkey.total _ (fun _ => rfl))
  | walletCreate row shape owner fresh =>
    apply hsame
    rw [Table.install_cons, Table.install_nil, Table.total_put_new _ fresh]
    simp [announcement]
  | intentInsert row shape parsed fresh =>
    apply hsame
    rw [Table.install_cons, Table.install_nil, Table.total_put_new _ fresh]
    simp [announcement]
  | endpointInsert row shape fresh =>
    apply hsame
    rw [Table.install_cons, Table.install_nil, Table.total_put_new _ fresh]
    simp [announcement]
  | accountInsert row shape owner fresh =>
    apply hsame
    rw [Table.install_cons, Table.install_nil, Table.total_put_new _ fresh]
    simp [announcement]
  | claimDue limit m rows idle nodup claimed =>
    apply hsame
    apply total_same _ hnd
    intro r hr
    obtain ⟨p, hp, rfl⟩ := List.mem_map.mp hr
    obtain ⟨q, hq, -, -, -⟩ := claimed p hp
    rw [Row.key, Db.payout_eq_some.mp hq]
    rfl
  | markRetry p rest row message place remaining rowGet same =>
    have hid : row.id = p.id := Db.id_of_payout rowGet
    apply hsame
    apply total_same _ hnd
    intro r hr
    rw [List.mem_singleton] at hr
    subst hr
    simp only [Row.key, hid, Db.payout_eq_some.mp rowGet]
    rfl
  | transfer c =>
    apply hsame
    rw [c.total _ hnd]
    simp [announcement]
  | cancel c =>
    apply hsame
    rw [c.total _ hnd]
    simp [announcement]
  | sweep c =>
    apply hsame
    rw [c.total _ hnd]
    simp [announcement]
  | confirm c =>
    have hsum := c.outbox.sum_announcement id type endpointId
    rw [c.total _ hnd]
    simp only [announcement, Item.pays, Item.reverses, EventData.payoutId, reduceCtorEq, false_and,
      if_false, Bool.false_eq_true] at hsum ⊢
    omega
  | @paid p rest place c =>
    have hsum := c.outbox.sum_announcement id type endpointId
    rw [c.total _ hnd]
    simp only [announcement, Item.pays, Item.reverses, EventData.payoutId, Option.some.injEq,
      beq_iff_eq, Bool.false_eq_true, false_and, if_false, eq_comm (a := EventType.payoutPaid)]
      at hsum ⊢
    omega
  | @reversal p rest place c =>
    have hsum := c.outbox.sum_announcement id type endpointId
    rw [c.total _ hnd]
    simp only [announcement, Item.pays, Item.reverses, EventData.payoutId, Option.some.injEq,
      beq_iff_eq, Bool.false_eq_true, false_and, if_false, eq_comm (a := EventType.payoutFailed)]
      at hsum ⊢
    omega

/-! ## The tally of a payout -/

/-- How many reversals and how many payments a payout of this status has. -/
def PayoutStatus.tally : PayoutStatus → ℕ × ℕ
  | .pending => (0, 0)
  | .paid => (0, 1)
  | .failed => (1, 0)

/-- The tally a database shows for a payout. -/
def Db.tally (d : Db) (id : Uuid) : ℕ × ℕ := ((d.payout id).map (·.status.tally)).getD (0, 0)

theorem reversals_append (history : List (ℕ × Item)) (x : ℕ × Item) (id : Uuid) :
    reversals (history ++ [x]) id =
      reversals history id + if Item.reverses id x.2 = true then 1 else 0 := by
  simp [reversals, List.countP_append, List.countP_singleton]

theorem payments_append (history : List (ℕ × Item)) (x : ℕ × Item) (id : Uuid) :
    payments (history ++ [x]) id =
      payments history id + if Item.pays id x.2 = true then 1 else 0 := by
  simp [payments, List.countP_append, List.countP_singleton]

/-- A commit keeps the tally of every payout it does not settle. -/
theorem Commit.tally_other {min : ℤ} {log : List Ev} {now : ℕ} {d : Db} {it : Item}
    {ws : List Row} (h : Commit min log now d it ws) {id : Uuid}
    (hnot : ∀ p, Item.settles it = some p → p.id ≠ id) :
    Db.tally (d.install ws) id = d.tally id := by
  unfold Db.tally
  by_cases hkey : Loc.payout id ∈ ws.map Row.key
  · obtain ⟨r, hr, hrkey⟩ := List.mem_map.mp hkey
    cases r <;> simp only [Row.key, reduceCtorEq, Loc.payout.injEq] at hrkey
    rename_i x
    subst hrkey
    have hget : Db.payout (d.install ws) x.id = some x :=
      Db.payout_eq_some.mpr (Table.get_install_of_mem h.nodup hr)
    rw [hget]
    rcases h.payout_write hr with ⟨hnone, hpending, -⟩ | ⟨r₀, hr₀, hstatus, -⟩ |
      ⟨p, -, hsettles, hid, -⟩
    · rw [hnone, Option.map_some, hpending]
      rfl
    · rw [hr₀, Option.map_some, Option.map_some, hstatus]
    · exact absurd hid (hnot p hsettles)
  · have hget : Db.payout (d.install ws) id = d.payout id := by
      unfold Db.payout
      rw [Table.get_install_of_notMem hkey]
    rw [hget]

/-- Where the history and the database stand after a commit. -/
theorem Commit.tally {min : ℤ} {log : List Ev} {now : ℕ} {d : Db} {it : Item} {ws : List Row}
    (h : Commit min log now d it ws) (hpending : SettlesPending it d) (id : Uuid) :
    Db.tally (d.install ws) id = ((d.tally id).1 + (if Item.reverses id it = true then 1 else 0),
      (d.tally id).2 + (if Item.pays id it = true then 1 else 0)) := by
  have hbefore : ∀ p, Item.settles it = some p → d.tally p.id = (0, 0) := by
    intro p hp
    obtain ⟨r, hr, hstatus⟩ := hpending p hp
    rw [Db.tally, hr, Option.map_some, hstatus]
    rfl
  have hother : (∀ p, Item.settles it = some p → p.id ≠ id) →
      Db.tally (d.install ws) id = d.tally id := h.tally_other
  have hnd := h.nodup
  cases h with
  | query | accountFind | bank | sweepSkip | walletCreate | intentInsert | endpointInsert
  | accountInsert | claimDue | markRetry | keyed | transfer | confirm | cancel | sweep =>
    rw [hother (by simp [Item.settles])]
    simp [Item.reverses, Item.pays]
  | @paid p rest place c =>
    by_cases hid : p.id = id
    · subst hid
      have hrow : c.newRow.id = p.id := by
        show c.row.id = p.id
        exact Db.id_of_payout c.rowGet
      have hget : Db.payout (d.install c.writes) p.id = some c.newRow :=
        Db.payout_eq_some.mpr (hrow ▸ Table.get_install_of_mem hnd List.mem_cons_self)
      rw [hbefore p rfl, Db.tally, hget]
      simp [Item.reverses, Item.pays, PaidCommit.newRow, PayoutStatus.tally]
    · rw [hother (by rintro q ⟨⟩; exact hid)]
      simp [Item.reverses, Item.pays, hid]
  | @reversal p rest place c =>
    by_cases hid : p.id = id
    · subst hid
      have hrow : c.newRow.id = p.id := by
        show c.row.id = p.id
        exact Db.id_of_payout c.rowGet
      have hmem : Row.payout c.newRow ∈ c.writes := by simp [ReversalCommit.writes]
      have hget : Db.payout (d.install c.writes) p.id = some c.newRow :=
        Db.payout_eq_some.mpr (hrow ▸ Table.get_install_of_mem hnd hmem)
      rw [hbefore p rfl, Db.tally, hget]
      simp [Item.reverses, Item.pays, ReversalCommit.newRow, PayoutStatus.tally]
    · rw [hother (by rintro q ⟨⟩; exact hid)]
      simp [Item.reverses, Item.pays, hid]

/-! ## Every run -/

/-- A settled payout is not touched by any further step. -/
theorem keeps_settled {min : ℤ} {a a' : Abs} (hinv : BatchInv a)
    (hstep : TxStore.AStep (commits min) a a') {p : PayoutRow} (hp : p ∈ Db.payouts a.db)
    (hsettled : p.status ≠ .pending) : p ∈ Db.payouts a'.db := by
  cases hstep with
  | start | tick | fault | quiet => exact hp
  | commit i log it priv live hproc _ hg =>
    have hget := Db.mem_payouts.mp hp
    rw [Db.mem_payouts]
    show Table.get (Table.install a.db priv.writes) (.payout p.id) = some (.payout p)
    rw [Table.get_install_of_notMem, hget]
    intro hkey
    obtain ⟨r, hr, hrkey⟩ := List.mem_map.mp hkey
    cases r <;> simp only [Row.key, reduceCtorEq, Loc.payout.injEq] at hrkey
    rename_i x
    have hx : Db.payout a.db x.id = some p := by
      rw [hrkey]
      exact Db.payout_eq_some.mpr hget
    exact hsettled (hinv.rewrites_pending hproc hg hr hx)

/-- The books of the payouts. -/
structure Books (a : Abs) : Prop where
  tally : ∀ id, Db.tally a.db id = (reversals a.history id, payments a.history id)
  paid : ∀ id e, Db.announcements a.db id .payoutPaid e ≤ payments a.history id
  failed : ∀ id e, Db.announcements a.db id .payoutFailed e ≤ reversals a.history id

theorem Books.commit {min : ℤ} {a : Abs} (h : Books a) {log : List Ev} {it : Item} {ws : List Row}
    {procs : List (Bool × List Ev)} {i : ℕ} (hpending : SettlesPending it a.db)
    (hc : Commit min log a.now a.db it ws) :
    Books ⟨Table.install a.db ws, a.now, procs, a.history ++ [(i, it)]⟩ where
  tally := by
    intro id
    rw [hc.tally hpending id, h.tally id, reversals_append, payments_append]
  paid := by
    intro id e
    have htotal := hc.total_announcement id .payoutPaid e
    have hold := h.paid id e
    rw [total_announcement, total_announcement] at htotal
    rw [payments_append]
    simp only [and_true, reduceCtorEq, and_false, if_false, add_zero] at htotal
    split at htotal <;> simp_all <;> omega
  failed := by
    intro id e
    have htotal := hc.total_announcement id .payoutFailed e
    have hold := h.failed id e
    rw [total_announcement, total_announcement] at htotal
    rw [reversals_append]
    simp only [and_true, reduceCtorEq, and_false, if_false, add_zero] at htotal
    split at htotal <;> simp_all <;> omega

theorem books {min : ℤ} {a : Abs} (h : AReach min LeasesHold a) : Books a := by
  refine AReach.invariant Books ?_ ?_ h
  · exact ⟨fun _ => rfl, fun _ _ => le_refl 0, fun _ _ => le_refl 0⟩
  intro a a' hr hq hstep _
  cases hstep with
  | start | tick | fault | quiet => exact ⟨hq.tally, hq.paid, hq.failed⟩
  | commit i log it p live hproc _ hg =>
    exact hq.commit (settlesPending (batchInv (fun _ hl => hl) hr) hproc hg) hg

/-- A payout has a payment or a reversal, and one of them. -/
theorem Books.settled_le {a : Abs} (h : Books a) (id : Uuid) :
    reversals a.history id + payments a.history id ≤ 1 := by
  have htally := h.tally id
  have hle : ∀ st : PayoutStatus, st.tally.1 + st.tally.2 ≤ 1 := by
    intro st
    cases st <;> decide
  have hrev : (Db.tally a.db id).1 = reversals a.history id := congrArg Prod.fst htally
  have hpay : (Db.tally a.db id).2 = payments a.history id := congrArg Prod.snd htally
  rw [← hrev, ← hpay, Db.tally]
  cases Db.payout a.db id with
  | none => decide
  | some r => exact hle r.status

/-- As long as leases are not outlived: a settled payout never changes again,
it has one reversal exactly when it failed, and of all its events at most one
reaches each endpoint, all of them of one type. -/
theorem settled_once {min : ℤ} {s : Sys} (h : ReachBy min (fun _ _ s' => LeasesHold s'.abs) s) :
    (∀ l s', s.next min l = some s' → ∀ p ∈ Db.payouts s.db, p.status ≠ .pending →
      p ∈ Db.payouts s'.db) ∧
    (∀ p ∈ Db.payouts s.db, reversals s.history p.id = if p.status = .failed then 1 else 0) ∧
    (∀ id e, Db.announcements s.db id .payoutPaid e +
      Db.announcements s.db id .payoutFailed e ≤ 1) ∧
    (∀ id e e', ¬ (0 < Db.announcements s.db id .payoutPaid e ∧
      0 < Db.announcements s.db id .payoutFailed e')) := by
  have hreach : AReach min LeasesHold s.abs := reach_refines (fun _ _ _ hok => hok) h
  have hbooks := books hreach
  have hsum : ∀ id, reversals s.history id + payments s.history id ≤ 1 := hbooks.settled_le
  refine ⟨?_, ?_, ?_, ?_⟩
  · intro l s' hstep p hp hsettled
    exact keeps_settled (batchInv (fun _ hl => hl) hreach) (step_refines h hstep) hp hsettled
  · intro p hp
    have htally := hbooks.tally p.id
    have hget : Db.payout s.abs.db p.id = some p := Db.payout_eq_some.mpr (Db.mem_payouts.mp hp)
    rw [Db.tally, hget] at htally
    have h₁ := congrArg Prod.fst htally
    simp only [Option.map_some, Option.getD_some, Sys.abs] at h₁
    rw [← h₁]
    cases p.status <;> rfl
  · intro id e
    have hp := hbooks.paid id e
    have hf := hbooks.failed id e
    have hle := hsum id
    simp only [Sys.abs] at hp hf
    omega
  · rintro id e e' ⟨hpos, hpos'⟩
    have hp := hbooks.paid id e
    have hf := hbooks.failed id e'
    have hle := hsum id
    simp only [Sys.abs] at hp hf
    omega

theorem settled_once_reversed : ∃ s : Sys, (∀ p ∈ Db.payouts s.db, p.status = .failed) ∧
    ∀ p ∈ Db.payouts s.db, reversals s.history p.id = if p.status = .failed then 1 else 0 := by
  have hrun : (runWhile 10 (fun _ _ s' => decide (LeasesHold s'.abs))
      (refusedTwice ++ .start (.processDue 50 none) :: drive 7 11 50)).any
      (fun s : Sys => decide (∀ p ∈ Db.payouts s.db, p.status = .failed)) = true := by decide +kernel
  obtain ⟨s, hs, hfailed⟩ := exists_of_runWhile hrun
  have hleases : ReachBy 10 (fun _ _ s' => LeasesHold s'.abs) s :=
    hs.mono (fun _ _ _ htest => of_decide_eq_true htest)
  exact ⟨s, of_decide_eq_true hfailed, (settled_once hleases).2.1⟩

def Step.isFailure : Step → Bool
  | .fault _ _ => true
  | .crash _ => true
  | _ => false

/-- The third claimer outlives its lease, the fourth reverses the payout, and
then the third reverses it again. -/
def reversedTwice : List Step :=
  refusedTwice ++ .start (.processDue 50 none) :: drive 7 3 50 ++
    .tick (seconds 61) :: .start (.processDue 50 none) :: drive 8 11 60 ++ drive 7 8 80

/-- Without any failure of the database. -/
theorem reversed_twice : (∀ l ∈ reversedTwice, Step.isFailure l = false) ∧
    ∃ s, runFrom 10 reversedTwice = some s ∧ ∃ p ∈ Db.payouts s.db, reversals s.history p.id = 2 := by
  have hrun : (runFrom 10 reversedTwice).any
      (fun s : Sys => decide (∃ p ∈ Db.payouts s.db, reversals s.history p.id = 2)) = true := by
    decide +kernel
  refine ⟨by decide +kernel, ?_⟩
  cases hs : runFrom 10 reversedTwice with
  | none => simp [hs] at hrun
  | some s =>
    rw [hs, Option.any_some] at hrun
    exact ⟨s, rfl, of_decide_eq_true hrun⟩

end PaymentApis
