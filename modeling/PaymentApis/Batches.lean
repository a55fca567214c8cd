import PaymentApis.Totals

/-!
# Payout batches

A payout claimed by a process that is still running is pending, as long as no
lease is outlived: no payout is in the hands of two running processes.
-/

namespace PaymentApis

open TxStore

/-- The payouts in the hands of process `i`, while it is running. -/
def Abs.working (a : Abs) (i : ℕ) : List PayoutRow :=
  match a.procs[i]? with
  | some (true, log) => (phase log).payouts
  | _ => []

/-- No payout is in the hands of two running processes. -/
def LeasesHold (a : Abs) : Prop :=
  ∀ i j, i ≠ j → ∀ p ∈ Abs.working a i, ∀ q ∈ Abs.working a j, p.id ≠ q.id

theorem working_of_ge {a : Abs} {i : ℕ} (h : a.procs.length ≤ i) : Abs.working a i = [] := by
  simp [Abs.working, List.getElem?_eq_none h]

instance (a : Abs) : Decidable (LeasesHold a) :=
  decidable_of_iff (∀ i < a.procs.length, ∀ j < a.procs.length, i ≠ j →
    ∀ p ∈ Abs.working a i, ∀ q ∈ Abs.working a j, p.id ≠ q.id) <| by
  constructor
  · intro h i j hij p hp q hq
    have hi : i < a.procs.length := by
      by_contra hge
      simp [working_of_ge (not_lt.mp hge)] at hp
    have hj : j < a.procs.length := by
      by_contra hge
      simp [working_of_ge (not_lt.mp hge)] at hq
    exact h i hi j hj hij p hp q hq
  · intro h i _ j _
    exact h i j

theorem working_eq {a : Abs} {i : ℕ} {log : List Ev} (h : a.procs[i]? = some (true, log)) :
    Abs.working a i = (phase log).payouts := by
  simp [Abs.working, h]

theorem working_of_procs {a a' : Abs} {i : ℕ} (h : a'.procs[i]? = a.procs[i]?) :
    Abs.working a' i = Abs.working a i := by
  simp [Abs.working, h]

theorem working_set_self {a a' : Abs} {i : ℕ} {x : Bool × List Ev} {live : Bool} {log : List Ev}
    (hx : a.procs[i]? = some x) (h : a'.procs = a.procs.set i (live, log)) :
    Abs.working a' i = if live then (phase log).payouts else [] := by
  have hlt : i < a.procs.length := (List.getElem?_eq_some_iff.mp hx).1
  cases live <;> simp [Abs.working, h, hlt]

theorem working_set_other {a a' : Abs} {i j : ℕ} {x : Bool × List Ev} (hij : j ≠ i)
    (h : a'.procs = a.procs.set i x) : Abs.working a' j = Abs.working a j := by
  apply working_of_procs
  rw [h, List.getElem?_set_ne (Ne.symm hij)]

/-- A process that starts holds nothing. -/
theorem working_append {a a' : Abs} {live : Bool} (h : a'.procs = a.procs ++ [(live, [])]) (i : ℕ) :
    Abs.working a' i = Abs.working a i := by
  by_cases hi : i < a.procs.length
  · apply working_of_procs
    rw [h, List.getElem?_append_left hi]
  · have hnone : a.procs[i]? = none := List.getElem?_eq_none (not_lt.mp hi)
    have hold : Abs.working a i = [] := by simp [Abs.working, hnone]
    rw [hold]
    unfold Abs.working
    rw [h, List.getElem?_append_right (not_lt.mp hi)]
    rcases i - a.procs.length with - | k
    · cases live <;> rfl
    · rfl

/-! ## What a commit does to a batch -/

/-- The payout a committed item brings to its end. -/
def Item.settles : Item → Option PayoutRow
  | .txn (.paid p) _ => some p
  | .txn (.reversal p) _ => some p
  | _ => none

/-- A commit claims a batch, finishes the first payout of its batch, or leaves
the batch as it is. -/
theorem Commit.batch {min : ℤ} {log : List Ev} {now : ℕ} {d : Db} {it : Item} {ws : List Row}
    (h : Commit min log now d it ws) :
    (∃ limit m rows, it = .auto (.payoutClaimDue limit 60 m) rows ∧
      (phase (log ++ it.events)).payouts = rows ∧ (rows.map (·.id)).Nodup ∧
      ∀ p ∈ rows, Row.payout p ∈ ws ∧ p.status = .pending) ∨
    (∃ p, (phase log).payouts = p :: (phase (log ++ it.events)).payouts ∧
      ∀ q, Item.settles it = some q → q = p) ∨
    (Item.settles it = none ∧ (phase (log ++ it.events)).payouts = (phase log).payouts) := by
  have hafter := phase_append log it.events
  cases h with
  | walletCreate | intentInsert | endpointInsert | accountInsert | transfer | confirm | cancel
  | sweepSkip | sweep =>
    refine Or.inr (Or.inr ⟨rfl, ?_⟩)
    rw [hafter]
    simp [Item.events, TransferCommit.events, ConfirmCommit.events, CancelCommit.events,
      SweepCommit.events, Phase.observe]
  | query s r hs =>
    refine Or.inr (Or.inr ⟨rfl, ?_⟩)
    rw [Item.events, payoutService.phase_query hs]
  | keyed s r ws hkey =>
    refine Or.inr (Or.inr ⟨rfl, ?_⟩)
    rw [Item.events, hkey.phase_append]
  | claimDue limit m rows idle nodup claimed =>
    have hrows : (phase (log ++ [.stmt (.payoutClaimDue limit 60 m) rows])).payouts = rows := by
      rw [phase_append]
      exact Phase.payouts_ofBatch rows
    refine Or.inl ⟨limit, m, rows, rfl, hrows, nodup, ?_⟩
    intro p hp
    obtain ⟨q, -, hstatus, -, hpq⟩ := claimed p hp
    refine ⟨List.mem_map_of_mem hp, ?_⟩
    rw [hpq]
    exact hstatus
  | accountFind p rest place =>
    refine Or.inr (Or.inr ⟨rfl, ?_⟩)
    rw [hafter, place]
    simp only [Item.events, List.foldl_cons, List.foldl_nil, Phase.observe]
    cases d.account p.payoutAccountId with
    | none => rfl
    | some a => cases ha : a.isActive <;> simp [Phase.payouts, ha]
  | bank p a rest place found active =>
    refine Or.inr (Or.inr ⟨rfl, ?_⟩)
    rw [hafter, place]
    simp only [Item.events, List.foldl_cons, List.foldl_nil]
    cases simulateBankTransfer ⟨p.id, a⟩ <;> rfl
  | markRetry p rest row message place remaining rowGet same =>
    refine Or.inr (Or.inl ⟨p, ?_, by simp [Item.settles]⟩)
    rw [hafter, place.payouts]
    simp only [Item.events, List.foldl_cons, List.foldl_nil, Phase.observe, place.finish,
      Phase.payouts_ofBatch]
  | @paid p rest place c =>
    refine Or.inr (Or.inl ⟨p, ?_, fun q hq => (Option.some.inj hq).symm⟩)
    rw [hafter, Item.events, c.observe_events, place, Phase.finish, Phase.payouts_ofBatch]
    rfl
  | @reversal p rest place c =>
    refine Or.inr (Or.inl ⟨p, ?_, fun q hq => (Option.some.inj hq).symm⟩)
    rw [hafter, Item.events, c.observe_events, place.finish, Phase.payouts_ofBatch, place.payouts]

/-- What a commit settles is in the hands of its process. -/
theorem Commit.settles_mem {min : ℤ} {log : List Ev} {now : ℕ} {d : Db} {it : Item}
    {ws : List Row} (h : Commit min log now d it ws) {p : PayoutRow}
    (hp : Item.settles it = some p) : p ∈ (phase log).payouts := by
  rcases h.batch with ⟨limit, m, rows, rfl, -⟩ | ⟨q, hbefore, hq⟩ | ⟨hnone, -⟩
  · simp [Item.settles] at hp
  · rw [hbefore, hq p hp]
    exact List.mem_cons_self
  · simp [hnone] at hp

/-- The wallet a payout was swept from, of its merchant and currency. -/
def Db.HasSource (d : Db) (p : PayoutRow) : Prop :=
  ∃ w, d.wallet p.walletId = some w ∧ w.merchantId = p.merchantId ∧ w.currency = p.currency

/-- The payout versions a commit writes: a new pending payout, a version with
the old status of a payout that was due or in hand, or the end of the payout it
settles. -/
theorem Commit.payout_write {min : ℤ} {log : List Ev} {now : ℕ} {d : Db} {it : Item}
    {ws : List Row} (h : Commit min log now d it ws) {x : PayoutRow} (hx : Row.payout x ∈ ws) :
    (d.payout x.id = none ∧ x.status = .pending ∧ d.HasSource x) ∨
    (∃ r, d.payout x.id = some r ∧ x.status = r.status ∧
      (r.status = .pending ∨ ∃ p ∈ (phase log).payouts, p.id = x.id)) ∨
    (∃ p r, Item.settles it = some p ∧ p.id = x.id ∧ d.payout x.id = some r) := by
  cases h with
  | query | accountFind | bank | sweepSkip | walletCreate | intentInsert | endpointInsert
  | accountInsert => simp at hx
  | keyed s r ws hkey => obtain rfl | ⟨slot, rfl⟩ := hkey.writes <;> simp at hx
  | transfer c => simp [TransferCommit.writes] at hx
  | confirm c => simp [ConfirmCommit.writes, Outbox.writes] at hx
  | cancel c => simp [CancelCommit.writes] at hx
  | claimDue limit m rows idle nodup claimed =>
    obtain ⟨p, hp, hpx⟩ := List.mem_map.mp hx
    obtain rfl : p = x := by simpa using hpx
    obtain ⟨q, hq, hstatus, -, hpq⟩ := claimed p hp
    exact Or.inr (Or.inl ⟨q, hq, by rw [hpq], Or.inl hstatus⟩)
  | markRetry p rest row message place remaining rowGet same =>
    obtain rfl := by simpa using hx
    have hid : row.id = p.id := Db.id_of_payout rowGet
    have hmem : p ∈ (phase log).payouts := by
      rw [place.payouts]
      exact List.mem_cons_self
    exact Or.inr (Or.inl ⟨row, hid ▸ rowGet, rfl, Or.inr ⟨p, hmem, hid.symm⟩⟩)
  | sweep c =>
    obtain rfl : x = c.payout := by simpa [SweepCommit.writes] using hx
    have hfresh : d.get (.payout c.payout.id) = none := c.payoutFresh
    refine Or.inl ⟨?_, rfl, c.wallet, c.walletGet, rfl, rfl⟩
    rw [Db.payout, hfresh]
    rfl
  | @paid p rest place c =>
    obtain rfl : x = c.newRow := by simpa [PaidCommit.writes, Outbox.writes] using hx
    have hid : c.newRow.id = p.id := by
      show c.row.id = p.id
      exact Db.id_of_payout c.rowGet
    exact Or.inr (Or.inr ⟨p, c.row, rfl, hid.symm, hid ▸ c.rowGet⟩)
  | @reversal p rest place c =>
    obtain rfl : x = c.newRow := by simpa [ReversalCommit.writes, Outbox.writes] using hx
    have hid : c.newRow.id = p.id := by
      show c.row.id = p.id
      exact Db.id_of_payout c.rowGet
    exact Or.inr (Or.inr ⟨p, c.row, rfl, hid.symm, hid ▸ c.rowGet⟩)

/-- A pending payout that a commit does not settle stays pending. -/
theorem Commit.stays_pending {min : ℤ} {log : List Ev} {now : ℕ} {d : Db} {it : Item}
    {ws : List Row} (h : Commit min log now d it ws) {id : Uuid} {r : PayoutRow}
    (hr : d.payout id = some r) (hp : r.status = .pending)
    (hnot : ∀ q, Item.settles it = some q → q.id ≠ id) :
    ∃ r', Db.payout (d.install ws) id = some r' ∧ r'.status = .pending ∧
      (Row.payout r').fixed = (Row.payout r).fixed := by
  obtain ⟨y, hy, hevolves⟩ := h.later _ _ (Db.payout_eq_some.mp hr)
  obtain ⟨r', rfl, hfixed⟩ := hevolves.of_payout
  have hget : Db.payout (d.install ws) id = some r' := Db.payout_eq_some.mpr hy
  refine ⟨r', hget, ?_, hfixed⟩
  have hid : r'.id = id := Db.id_of_payout hget
  rcases (Table.mem_install h.nodup).mp (Table.mem_of_get hy) with hmem | ⟨hmem, -⟩
  · rcases h.payout_write hmem with
      ⟨-, hpending, -⟩ | ⟨r₀, hr₀, hstatus, -⟩ | ⟨p, -, hsettles, hpid, -⟩
    · exact hpending
    · rw [hid, hr, Option.some.injEq] at hr₀
      rw [hstatus, ← hr₀, hp]
    · exact absurd (hpid.trans hid) (hnot p hsettles)
  · have hold := Table.get_of_mem hmem
    rw [Row.key, hid, Db.payout_eq_some.mp hr] at hold
    obtain rfl : r = r' := by simpa using hold
    exact hp

/-! ## The invariant -/

/-- What is in the hands of a running process is pending. -/
structure BatchInv (a : Abs) : Prop where
  pending : ∀ i, ∀ p ∈ Abs.working a i, ∃ r, Db.payout a.db p.id = some r ∧
    r.status = .pending ∧ (Row.payout r).fixed = (Row.payout p).fixed
  nodup : ∀ i, ((Abs.working a i).map (·.id)).Nodup

/-- Less work in hand, on the same payouts. -/
theorem BatchInv.shrink {a a' : Abs} (h : BatchInv a) (hdb : a'.db = a.db)
    (hw : ∀ i, Abs.working a' i = Abs.working a i ∨ Abs.working a' i = []) : BatchInv a' where
  pending := by
    intro i p hp
    rw [hdb]
    rcases hw i with hi | hi
    · exact h.pending i p (hi ▸ hp)
    · simp [hi] at hp
  nodup := by
    intro i
    rcases hw i with hi | hi
    · rw [hi]
      exact h.nodup i
    · simp [hi]

theorem BatchInv.commit {min : ℤ} {a : Abs} (h : BatchInv a) (hl : LeasesHold a) {i : ℕ}
    {log : List Ev} {it : Item} {ws : List Row} {live : Bool} {history : List (ℕ × Item)}
    (hproc : a.procs[i]? = some (true, log)) (hc : Commit min log a.now a.db it ws) :
    BatchInv ⟨Table.install a.db ws, a.now, a.procs.set i (live, log ++ it.events), history⟩ := by
  set a' : Abs := ⟨Table.install a.db ws, a.now, a.procs.set i (live, log ++ it.events), history⟩
    with ha'
  have hself : Abs.working a' i = if live then (phase (log ++ it.events)).payouts else [] :=
    working_set_self hproc rfl
  have hother : ∀ j, j ≠ i → Abs.working a' j = Abs.working a j :=
    fun j hj => working_set_other hj rfl
  have hmine : Abs.working a i = (phase log).payouts := working_eq hproc
  have hkeep : ∀ j, ∀ p ∈ Abs.working a j, (∀ q, Item.settles it = some q → q.id ≠ p.id) →
      ∃ r, Db.payout a'.db p.id = some r ∧ r.status = .pending ∧
        (Row.payout r).fixed = (Row.payout p).fixed := by
    intro j p hp hnot
    obtain ⟨r, hr, hpending, hfixed⟩ := h.pending j p hp
    obtain ⟨r', hr', hpending', hfixed'⟩ := hc.stays_pending hr hpending hnot
    exact ⟨r', hr', hpending', hfixed'.trans hfixed⟩
  have hnew : live = true → (∀ p ∈ (phase (log ++ it.events)).payouts, ∃ r,
      Db.payout a'.db p.id = some r ∧ r.status = .pending ∧
        (Row.payout r).fixed = (Row.payout p).fixed) ∧
      ((phase (log ++ it.events)).payouts.map (·.id)).Nodup := by
    intro _
    rcases hc.batch with ⟨limit, m, rows, -, hpayouts, hnodup, hrows⟩ | ⟨p, hbefore, hp⟩ |
      ⟨hnone, hsame⟩
    · rw [hpayouts]
      refine ⟨?_, hnodup⟩
      intro p hp
      obtain ⟨hmem, hpending⟩ := hrows p hp
      have hget := Table.get_install_of_mem (t := a.db) hc.nodup hmem
      exact ⟨p, Db.payout_eq_some.mpr hget, hpending, rfl⟩
    · have hnodup := h.nodup i
      rw [hmine, hbefore, List.map_cons, List.nodup_cons] at hnodup
      refine ⟨?_, hnodup.2⟩
      intro q hq
      apply hkeep i q (by rw [hmine, hbefore]; exact List.mem_cons_of_mem _ hq)
      intro x hx heq
      rw [hp x hx] at heq
      exact hnodup.1 (heq ▸ List.mem_map_of_mem hq)
    · rw [hsame, ← hmine]
      refine ⟨?_, h.nodup i⟩
      intro p hp
      exact hkeep i p hp (by simp [hnone])
  refine ⟨?_, ?_⟩
  · intro j p hp
    by_cases hj : j = i
    · subst hj
      rw [hself] at hp
      cases live with
      | false => simp at hp
      | true => exact (hnew rfl).1 p hp
    · rw [hother j hj] at hp
      apply hkeep j p hp
      intro q hq
      exact hl i j (Ne.symm hj) q (hmine ▸ hc.settles_mem hq) p hp
  · intro j
    by_cases hj : j = i
    · subst hj
      rw [hself]
      cases live with
      | false => simp
      | true => exact (hnew rfl).2
    · rw [hother j hj]
      exact h.nodup j

/-- A commit only rewrites payouts that are pending. -/
theorem BatchInv.rewrites_pending {a : Abs} (h : BatchInv a) {min : ℤ} {i : ℕ} {log : List Ev}
    {it : Item} {ws : List Row} (hproc : a.procs[i]? = some (true, log))
    (hc : Commit min log a.now a.db it ws) {x r : PayoutRow} (hx : Row.payout x ∈ ws)
    (hr : Db.payout a.db x.id = some r) : r.status = .pending := by
  have hhand : ∀ p ∈ (phase log).payouts, p.id = x.id → r.status = .pending := by
    intro p hp hid
    obtain ⟨r', hr', hstatus, -⟩ := h.pending i p (by rw [working_eq hproc]; exact hp)
    rw [hid, hr, Option.some.injEq] at hr'
    rw [hr', hstatus]
  rcases hc.payout_write hx with ⟨hnone, -⟩ | ⟨r₀, hr₀, -, hold⟩ | ⟨p, -, hsettles, hid, -⟩
  · simp [hr] at hnone
  · rw [hr, Option.some.injEq] at hr₀
    subst hr₀
    rcases hold with hpending | ⟨p, hp, hid⟩
    · exact hpending
    · exact hhand p hp hid
  · exact hhand p (hc.settles_mem hsettles) hid

/-- Observing the failure of a statement takes nothing into the hands. -/
theorem phase_fault (log : List Ev) (f : Fault) :
    (phase (log ++ [.fault f])).payouts = (phase log).payouts := by
  rw [phase_append]
  cases h : phase log <;> rfl

theorem batchInv {min : ℤ} {P : Abs → Prop} (hP : ∀ a, P a → LeasesHold a) {a : Abs}
    (h : AReach min P a) : BatchInv a := by
  refine AReach.invariant BatchInv ?_ ?_ h
  · refine ⟨?_, ?_⟩
    · intro i p hp
      simp [Abs.working, Abs.init] at hp
    · intro i
      simp [Abs.working, Abs.init]
  intro a a' hr hinv hstep hp
  have hl : LeasesHold a := by
    cases hr with
    | init =>
      intro i j _ p hp'
      simp [Abs.working, Abs.init] at hp'
    | step _ _ hp' => exact hP _ hp'
  cases hstep with
  | start live => exact hinv.shrink rfl (fun i => Or.inl (working_append rfl i))
  | tick n => exact hinv.shrink rfl (fun i => Or.inl rfl)
  | commit i log it p live hproc _ hg => exact hinv.commit hl hproc hg
  | fault i log f live hproc =>
    refine hinv.shrink rfl ?_
    intro j
    by_cases hj : j = i
    · subst hj
      rw [working_set_self hproc rfl, phase_fault, working_eq hproc]
      cases live <;> simp
    · exact Or.inl (working_set_other hj rfl)
  | quiet i was log live hproc hwas =>
    refine hinv.shrink rfl ?_
    intro j
    by_cases hj : j = i
    · subst hj
      rw [working_set_self hproc rfl]
      cases live with
      | false => exact Or.inr rfl
      | true =>
        obtain rfl := hwas rfl
        rw [working_eq hproc]
        exact Or.inl rfl
    · exact Or.inl (working_set_other hj rfl)

/-! ## Schedules with one payout -/

/-- A wallet with 50 from a confirmed intent is swept for a payout, number 26,
to the given account. -/
def sweptPayout (account : RegisterPayoutAccountDto) : List Step :=
  .start (.createWallet 1 .NGN) :: drive 0 1 1 ++
    .start (.registerAccount 1 account) :: drive 1 1 2 ++
    .start (.createIntent 1 ⟨fifty, .NGN, none, noReference⟩) :: drive 2 2 2 ++
    .start (.confirm 1 (smallId '3')) :: drive 3 10 10 ++
    .start (.sweep none) :: drive 4 8 20

def goodAccount : RegisterPayoutAccountDto :=
  ⟨.NGN, "First Bank", "1234567".toList, by decide +kernel, by decide +kernel⟩

/-- The bank refuses this one. -/
def badAccount : RegisterPayoutAccountDto :=
  ⟨.NGN, "First Bank", "1230000".toList, by decide +kernel, by decide +kernel⟩

/-- Two refused attempts, each in its lease. -/
def refusedTwice : List Step :=
  sweptPayout badAccount ++
    .start (.processDue 50 none) :: drive 5 4 30 ++
    .tick (seconds 10) :: .start (.processDue 50 none) :: drive 6 4 40 ++
    [.tick (seconds 20)]

end PaymentApis
