import PaymentApis.Settlement

/-!
# A payout's money leaves once

What the bank has accepted for a payout is either recorded as paid or still in
the hands of the worker that sent it. As long as no worker fails between the
two, the bank is asked once and the debit is never reversed.
-/

namespace PaymentApis

open TxStore

/-! ## What is counted -/

/-- A call that asks the bank to transfer a payout. -/
def Item.submits (id : Uuid) : Item → Bool
  | .call x _ => x.payoutId == id
  | _ => false

/-- A bank transfer that completed. -/
def Item.accepts (id : Uuid) : Item → Bool
  | .call x (.ok ()) => x.payoutId == id
  | _ => false

def acceptances (history : List (ℕ × Item)) (id : Uuid) : ℕ :=
  history.countP (fun x => Item.accepts id x.2)

theorem acceptances_append (history : List (ℕ × Item)) (x : ℕ × Item) (id : Uuid) :
    acceptances (history ++ [x]) id =
      acceptances history id + if Item.accepts id x.2 = true then 1 else 0 := by
  simp [acceptances, List.countP_append, List.countP_singleton]

/-- The bank has accepted the payout, which is not yet marked paid. -/
def Phase.between (id : Uuid) : Phase → Bool
  | .accepted p _ => p.id == id
  | _ => false

theorem Phase.between_eq_true {id : Uuid} {ph : Phase} :
    ph.between id = true ↔ ∃ p rest, ph = .accepted p rest ∧ p.id = id := by
  cases ph <;> simp [Phase.between]

@[simp] theorem Phase.between_ofBatch (id : Uuid) (rows : List PayoutRow) :
    (Phase.ofBatch rows).between id = false := by
  cases rows <;> rfl

theorem Phase.failing.between {ph : Phase} {p : PayoutRow} {rest : List PayoutRow}
    (h : ph.failing p rest) (id : Uuid) : ph.between id = false := by
  rcases h with rfl | rfl <;> rfl

/-- How many running workers stand between the bank's acceptance of a payout
and its record. -/
def Abs.between (a : Abs) (id : Uuid) : ℕ :=
  a.procs.countP (fun x => x.1 && (phase x.2).between id)

/-- A worker that has not failed to record an acceptance, nor stopped before
recording it. -/
def Phase.recording (live : Bool) : Phase → Bool
  | .unsettled _ _ => false
  | .accepted _ _ => live
  | _ => true

/-- No worker fails or stops while a payout the bank has accepted is in its
hands. -/
def RecordsAccepted (a : Abs) : Prop := ∀ x ∈ a.procs, (phase x.2).recording x.1 = true

instance (a : Abs) : Decidable (RecordsAccepted a) := inferInstanceAs (Decidable (∀ _ ∈ _, _))

/-! ## One commit -/

/-- A completed transfer puts its payout in hand, and the record takes it out. -/
theorem Commit.accepts_between {min : ℤ} {log : List Ev} {now : ℕ} {d : Db} {it : Item}
    {ws : List Row} (h : Commit min log now d it ws) (id : Uuid) :
    (if Item.accepts id it = true then 1 else 0) + ((phase log).between id).toNat =
      (if Item.pays id it = true then 1 else 0) +
        ((phase (log ++ it.events)).between id).toNat := by
  have hafter := phase_append log it.events
  cases h with
  | walletCreate | intentInsert | endpointInsert | accountInsert | transfer | confirm | cancel
  | sweepSkip | sweep =>
    rw [hafter]
    simp [Item.events, Item.accepts, Item.pays, TransferCommit.events, ConfirmCommit.events,
      CancelCommit.events, SweepCommit.events, Phase.observe]
  | query s r hs =>
    rw [Item.events, payoutService.phase_query hs]
    simp [Item.accepts, Item.pays]
  | keyed s r ws hkey =>
    rw [Item.events, hkey.phase_append]
    simp [Item.accepts, Item.pays]
  | claimDue limit m rows idle nodup claimed =>
    rw [hafter, idle]
    simp only [Item.events, List.foldl_cons, List.foldl_nil, Phase.observe, Phase.between_ofBatch]
    rfl
  | accountFind p rest place =>
    rw [hafter, place]
    simp only [Item.events, List.foldl_cons, List.foldl_nil, Phase.observe]
    cases d.account p.payoutAccountId with
    | none => rfl
    | some a =>
      cases ha : a.isActive <;> simp only [ha, if_true, if_false, Bool.false_eq_true] <;> rfl
  | bank p a rest place found active =>
    rw [hafter, place]
    simp only [Item.events, List.foldl_cons, List.foldl_nil]
    cases simulateBankTransfer ⟨p.id, a⟩ with
    | error e => rfl
    | ok u =>
      -- the acceptance is in the worker's hands
      have hmoved : (if (p.id == id) = true then 1 else 0) = (p.id == id).toNat := by
        cases p.id == id <;> rfl
      simpa [Item.accepts, Item.pays, Phase.between, Phase.observe] using hmoved
  | markRetry p rest row message place remaining rowGet same =>
    rw [hafter, place.between]
    simp only [Item.events, List.foldl_cons, List.foldl_nil, Phase.observe, place.finish,
      Phase.between_ofBatch]
    rfl
  | @paid p rest place c =>
    have hfinish : (Phase.accepted p rest).finish = .ofBatch rest := rfl
    rw [hafter, Item.events, c.observe_events, place, hfinish, Phase.between_ofBatch]
    by_cases hid : p.id = id <;> simp [Item.accepts, Item.pays, Phase.between, hid]
  | @reversal p rest place c =>
    rw [hafter, Item.events, c.observe_events, place.finish, place.between, Phase.between_ofBatch]
    rfl

/-- Whom the bank is asked to pay, and whose debit is reversed, is in the hands
of a worker that has no acceptance for it. -/
theorem Commit.submits_or_reverses {min : ℤ} {log : List Ev} {now : ℕ} {d : Db} {it : Item}
    {ws : List Row} (h : Commit min log now d it ws) {id : Uuid}
    (hit : Item.submits id it = true ∨ Item.reverses id it = true) :
    ∃ p ∈ (phase log).payouts, p.id = id ∧ (phase log).between id = false := by
  cases h with
  | bank p a rest place found active =>
    have hid : p.id = id := by simpa [Item.submits, Item.reverses] using hit
    exact ⟨p, by simp [place, Phase.payouts], hid, by simp [place, Phase.between]⟩
  | @reversal p rest place c =>
    have hid : p.id = id := by simpa [Item.submits, Item.reverses] using hit
    exact ⟨p, by simp [place.payouts], hid, place.between id⟩
  | _ => simp [Item.submits, Item.reverses] at hit

/-! ## Every run -/

theorem Phase.between_recording {id : Uuid} {ph : Phase} {live : Bool}
    (h : ph.recording live = true) : (live && ph.between id) = ph.between id := by
  cases ph <;> simp_all [Phase.recording, Phase.between]

/-- The count when one worker moves. -/
theorem between_set {a a' : Abs} {i : ℕ} {x y : Bool × List Ev} (hx : a.procs[i]? = some x)
    (h : a'.procs = a.procs.set i y) (hrec : RecordsAccepted a) (hrec' : RecordsAccepted a')
    (id : Uuid) :
    Abs.between a' id + ((phase x.2).between id).toNat =
      Abs.between a id + ((phase y.2).between id).toNat := by
  obtain ⟨hlt, hget⟩ := List.getElem?_eq_some_iff.mp hx
  have hxrec : (phase x.2).recording x.1 = true := hrec x (List.mem_of_getElem? hx)
  have hyrec : (phase y.2).recording y.1 = true := by
    apply hrec' y
    rw [h]
    exact List.mem_set hlt y
  have hite : ∀ b : Bool, (if b = true then 1 else 0) = b.toNat := by
    intro b
    cases b <;> rfl
  have hold : ((phase x.2).between id).toNat ≤ Abs.between a id := by
    cases hb : (phase x.2).between id with
    | false => exact Nat.zero_le _
    | true =>
      apply List.countP_pos_iff.mpr
      exact ⟨x, List.mem_of_getElem? hx, by rw [Phase.between_recording hxrec, hb]⟩
  have hset : Abs.between a' id = Abs.between a id - ((phase x.2).between id).toNat +
      ((phase y.2).between id).toNat := by
    unfold Abs.between
    rw [h, List.countP_set hlt, hget, Phase.between_recording hxrec, Phase.between_recording hyrec,
      hite, hite]
  omega

/-- What the bank has accepted is recorded as paid, or in hand. -/
def Accounted (a : Abs) : Prop :=
  ∀ id, acceptances a.history id = payments a.history id + Abs.between a id

theorem accounted {min : ℤ} {a : Abs} (h : AReach min RecordsAccepted a) : Accounted a := by
  refine AReach.invariant Accounted (fun _ => rfl) ?_ h
  intro a a' hr hinv hstep hrec'
  have hrec : RecordsAccepted a := hr.holds (by simp [RecordsAccepted, Abs.init])
  intro id
  have hold := hinv id
  cases hstep with
  | start live =>
    have hbetween : Abs.between { a with procs := a.procs ++ [(live, [])] } id =
        Abs.between a id := by
      simp [Abs.between, List.countP_append, Phase.between]
    rw [hbetween]
    exact hold
  | tick n => exact hold
  | commit i log it p live hproc _ hg =>
    have hmove := between_set hproc rfl hrec hrec' id
    have hcommit := hg.accepts_between id
    rw [acceptances_append, payments_append, hold]
    simp only at hmove ⊢
    omega
  | fault i log f live hproc =>
    have hmove := between_set hproc rfl hrec hrec' id
    have hafter : (phase (log ++ [.fault f])).recording live = true :=
      hrec' (live, log ++ [.fault f]) (List.mem_set (List.getElem?_eq_some_iff.mp hproc).1 _)
    -- the worker was not recording an acceptance
    have hsame : (phase (log ++ [.fault f])).between id = (phase log).between id := by
      rw [phase_append] at hafter ⊢
      cases hph : phase log <;> simp_all [Phase.observe, Phase.recording]
    rw [hsame] at hmove
    simp only at hmove ⊢
    omega
  | quiet i was log live hproc hwas =>
    have hmove := between_set hproc rfl hrec hrec' id
    simp only at hmove ⊢
    omega

/-- No lease is outlived, and no worker fails to record an acceptance. -/
def Careful (a : Abs) : Prop := LeasesHold a ∧ RecordsAccepted a

instance (a : Abs) : Decidable (Careful a) := inferInstanceAs (Decidable (_ ∧ _))

/-- What the books say of a payout that is in the hands of a worker. -/
theorem Books.of_working {a : Abs} (h : Books a) (hinv : BatchInv a) {i : ℕ} {p : PayoutRow}
    (hp : p ∈ Abs.working a i) : reversals a.history p.id = 0 ∧ payments a.history p.id = 0 := by
  obtain ⟨r, hr, hstatus, -⟩ := hinv.pending i p hp
  have htally := h.tally p.id
  rw [Db.tally, hr, Option.map_some, Option.getD_some, hstatus] at htally
  exact ⟨(congrArg Prod.fst htally).symm, (congrArg Prod.snd htally).symm⟩

theorem between_pos {a : Abs} {id : Uuid} (h : 0 < Abs.between a id) :
    ∃ (i : ℕ) (log : List Ev) (p : PayoutRow) (rest : List PayoutRow),
      a.procs[i]? = some (true, log) ∧ phase log = .accepted p rest ∧ p.id = id := by
  obtain ⟨⟨live, log⟩, hmem, hx⟩ := List.countP_pos_iff.mp h
  rw [Bool.and_eq_true, Phase.between_eq_true] at hx
  obtain ⟨rfl, p, rest, hph, hid⟩ := hx
  obtain ⟨i, hi⟩ := List.mem_iff_getElem?.mp hmem
  exact ⟨i, log, p, rest, hi, hph, hid⟩

/-- At most one worker has an acceptance of a payout in hand. -/
theorem LeasesHold.between_le {a : Abs} (h : LeasesHold a) (id : Uuid) : Abs.between a id ≤ 1 := by
  have hpairs : a.procs.Pairwise (fun x y => ¬ ((x.1 && (phase x.2).between id) = true ∧
      (y.1 && (phase y.2).between id) = true)) := by
    rw [List.pairwise_iff_getElem]
    rintro i j hi hj hij ⟨hx, hy⟩
    rw [Bool.and_eq_true, Phase.between_eq_true] at hx hy
    obtain ⟨hlive, p, rest, hp, hid⟩ := hx
    obtain ⟨hlive', q, rest', hq, hid'⟩ := hy
    have hwork : ∀ (k : ℕ) (hk : k < a.procs.length) (p : PayoutRow) (rest : List PayoutRow),
        a.procs[k].1 = true → phase a.procs[k].2 = .accepted p rest → p ∈ Abs.working a k := by
      intro k hk p rest hlive hp
      have hget : a.procs[k]? = some (true, a.procs[k].2) := by
        rw [List.getElem?_eq_getElem hk, ← hlive]
      rw [working_eq hget, hp]
      exact List.mem_cons_self
    exact h i j (by omega) p (hwork i hi p rest hlive hp) q (hwork j hj q rest' hlive' hq)
      (hid.trans hid'.symm)
  unfold Abs.between
  generalize a.procs = procs at hpairs
  induction procs with
  | nil => simp
  | cons x procs ih =>
    rw [List.pairwise_cons] at hpairs
    rw [List.countP_cons]
    split
    · rename_i hx
      have hzero : procs.countP (fun x => x.1 && (phase x.2).between id) = 0 := by
        rw [List.countP_eq_zero]
        intro y hy hby
        exact hpairs.1 y hy ⟨hx, hby⟩
      omega
    · have := ih hpairs.2
      omega

/-- The items of a history in which nothing follows an acceptance. -/
def LeavesOnce (x y : ℕ × Item) : Prop :=
  ∀ id, Item.accepts id x.2 = true →
    Item.submits id y.2 = false ∧ Item.reverses id y.2 = false

theorem acceptances_pos {history : List (ℕ × Item)} {x : ℕ × Item} (hx : x ∈ history) {id : Uuid}
    (h : Item.accepts id x.2 = true) : 0 < acceptances history id :=
  List.countP_pos_iff.mpr ⟨x, hx, h⟩

theorem nothing_follows {min : ℤ} {a : Abs} (h : AReach min Careful a) :
    a.history.Pairwise LeavesOnce := by
  refine AReach.invariant (fun a => a.history.Pairwise LeavesOnce) .nil ?_ h
  intro a a' hr hinv hstep _
  cases hstep with
  | start | tick | fault | quiet => exact hinv
  | commit i log it priv live hproc _ hg =>
    have hcareful : Careful a := hr.holds (by decide)
    have hbatch : BatchInv a := batchInv (fun _ hc => hc.1) hr
    rw [List.pairwise_append]
    refine ⟨hinv, List.pairwise_singleton _ _, ?_⟩
    intro x hx y hy id hacc
    rw [List.mem_singleton] at hy
    subst hy
    have hpos : 0 < acceptances a.history id := acceptances_pos hx hacc
    by_contra hnot
    have hit : Item.submits id it = true ∨ Item.reverses id it = true := by
      simp only [not_and_or, Bool.not_eq_false] at hnot
      exact hnot
    obtain ⟨p, hp, hid, hfree⟩ := hg.submits_or_reverses hit
    rw [← working_eq hproc] at hp
    have hpaid := (books (hr.mono (fun _ hc => hc.1))).of_working hbatch hp
    rw [accounted (hr.mono (fun _ hc => hc.2)) id, ← hid, hpaid.2, Nat.zero_add] at hpos
    obtain ⟨j, log', q, rest, hj, hph, hqid⟩ := between_pos hpos
    by_cases hij : i = j
    · -- the worker itself has no acceptance of this payout
      subst hij
      obtain rfl : log = log' := by simpa [hproc] using hj
      simp [hph, Phase.between, hqid.trans hid] at hfree
    · have hq : q ∈ Abs.working a j := by
        rw [working_eq hj, hph]
        exact List.mem_cons_self
      exact hcareful.1 i j hij p hp q hq hqid.symm

/-- In a run with no outlived lease, and in which no worker fails between the
bank's acceptance of a payout and its record, the money of every payout leaves
at most once: nothing is submitted or reversed after an acceptance. -/
theorem leaves_once {min : ℤ} {s : Sys} (h : ReachBy min (fun _ _ s' => Careful s'.abs) s) :
    (∀ id, acceptances s.history id + reversals s.history id ≤ 1) ∧
    s.history.Pairwise LeavesOnce ∧
    ∀ p ∈ Db.payouts s.db, 0 < acceptances s.history p.id → p.status ≠ .failed := by
  have hreach : AReach min Careful s.abs := reach_refines (fun _ _ _ hok => hok) h
  have hleases : LeasesHold s.abs := (hreach.holds (by decide) : Careful s.abs).1
  have hbatch : BatchInv s.abs := batchInv (fun _ hc => hc.1) hreach
  have hbooks : Books s.abs := books (hreach.mono (fun _ hc => hc.1))
  have hacc : Accounted s.abs := accounted (hreach.mono (fun _ hc => hc.2))
  have hhand : ∀ id, 0 < Abs.between s.abs id →
      reversals s.history id = 0 ∧ payments s.history id = 0 := by
    intro id hpos
    obtain ⟨i, log, p, rest, hi, hph, rfl⟩ := between_pos hpos
    apply hbooks.of_working hbatch (i := i)
    rw [working_eq hi, hph]
    exact List.mem_cons_self
  refine ⟨?_, nothing_follows hreach, ?_⟩
  · intro id
    have hle := hbooks.settled_le id
    have hbetween := hleases.between_le id
    have heq : acceptances s.history id = payments s.history id + Abs.between s.abs id := hacc id
    rcases Nat.eq_zero_or_pos (Abs.between s.abs id) with hzero | hpos
    · simp only [Sys.abs] at hle hzero heq
      omega
    · have hnone := hhand id hpos
      omega
  · intro p hp hpos hfailed
    have htally := hbooks.tally p.id
    have hget : Db.payout s.abs.db p.id = some p := Db.payout_eq_some.mpr (Db.mem_payouts.mp hp)
    rw [Db.tally, hget, Option.map_some, Option.getD_some, hfailed] at htally
    have hrev : 1 = reversals s.history p.id := congrArg Prod.fst htally
    have hpay : 0 = payments s.history p.id := congrArg Prod.snd htally
    have heq : acceptances s.history p.id = payments s.history p.id + Abs.between s.abs p.id :=
      hacc p.id
    have hbetween : 0 < Abs.between s.abs p.id := by omega
    have hnone := hhand p.id hbetween
    omega

theorem leaves_once_paid : ∃ s : Sys, (∀ p ∈ Db.payouts s.db, p.status = .paid) ∧
    ∀ id, acceptances s.history id + reversals s.history id ≤ 1 := by
  have hrun : (runWhile 10 (fun _ _ s' => decide (Careful s'.abs))
      (sweptPayout goodAccount ++ .start (.processDue 50 none) :: drive 5 7 40)).any
      (fun s : Sys => decide (∀ p ∈ Db.payouts s.db, p.status = .paid)) = true := by decide +kernel
  obtain ⟨s, hs, hpaid⟩ := exists_of_runWhile hrun
  have hcareful : ReachBy 10 (fun _ _ s' => Careful s'.abs) s :=
    hs.mono (fun _ _ _ htest => of_decide_eq_true htest)
  exact ⟨s, of_decide_eq_true hpaid, (leaves_once hcareful).1⟩

/-- The bank accepts, the COMMIT that marks the payout paid fails, and the
worker schedules a retry. The next worker sends the money again. -/
def sentTwice : List Step :=
  sweptPayout goodAccount ++ .start (.processDue 50 none) :: drive 5 6 30 ++
    .fault 5 (.connection "Connection terminated unexpectedly") :: drive 5 1 36 ++
    .tick (seconds 10) :: .start (.processDue 50 none) :: drive 6 3 40

/-- One worker at a time, and the bank has accepted one payout twice. -/
theorem sent_twice : ∃ s, ReachBy 10 (fun _ _ s' => LeasesHold s'.abs) s ∧
    ∃ p ∈ Db.payouts s.db, acceptances s.history p.id = 2 := by
  have hrun : (runWhile 10 (fun _ _ s' => decide (LeasesHold s'.abs)) sentTwice).any
      (fun s : Sys => decide (∃ p ∈ Db.payouts s.db, acceptances s.history p.id = 2)) = true := by
    decide +kernel
  obtain ⟨s, hs, htwice⟩ := exists_of_runWhile hrun
  exact ⟨s, hs.mono (fun _ _ _ htest => of_decide_eq_true htest), of_decide_eq_true htwice⟩

end PaymentApis
