import PaymentApis.Batches

/-!
# The lease of a claimed payout

`claimDue` moves a payout 60 seconds into the future, and only takes payouts
that are due. What breaks the lease is `markRetry`, which matches on the id
only: a worker that has outlived its own lease can make a payout due again that
another worker has claimed since.
-/

namespace PaymentApis

open TxStore

/-! ## What is stated -/

/-- The payouts a process has claimed and not finished. -/
def Node.hands (n : Node) : List PayoutRow := (phase n.log).payouts

/-- If the step is a `markRetry`, it does not make its payout due before the end
of a lease that another process still works under. -/
def Sys.sparesLeases (s : Sys) : Step → Bool
  | .run i _ =>
    match (s.nodes[i]?).bind Node.query? with
    | some (.payoutMarkRetry id _ delay _) =>
      s.nodes.zipIdx.all (fun nj => nj.2 == i || (Node.hands nj.1).all (fun q =>
        q.id != id || decide (q.nextAttemptAt ≤ s.now + seconds delay)))
    | _ => true
  | _ => true

/-- The commit is a `markRetry` of the payout `id`. -/
def Item.retries (id : Uuid) (delay : ℕ) (it : Item) : Prop :=
  ∃ attempts message, it = .auto (.payoutMarkRetry id attempts delay message) ()

/-! ## One commit -/

section Commit

variable {min : ℤ} {log : List Ev} {now : ℕ} {d : Db} {it : Item} {ws : List Row}

/-- A payout that is pending after a commit was pending before, and its due time
has moved only because it was due, or by a `markRetry`. -/
theorem Commit.due_write (h : Commit min log now d it ws) {x r : PayoutRow}
    (hx : Row.payout x ∈ ws) (hr : d.payout x.id = some r) (hpending : x.status = .pending) :
    r.status = .pending ∧ (r.nextAttemptAt ≤ now ∨ ∃ delay, it.retries x.id delay ∧
      x.nextAttemptAt = now + seconds delay) := by
  cases h with
  | claimDue limit m rows idle nodup claimed =>
    obtain ⟨p, hp, hpx⟩ := List.mem_map.mp hx
    obtain rfl : p = x := by simpa using hpx
    obtain ⟨q, hq, hstatus, hdue, -⟩ := claimed p hp
    rw [hr, Option.some.injEq] at hq
    subst hq
    exact ⟨hstatus, Or.inl hdue⟩
  | markRetry p rest row message place remaining rowGet same =>
    obtain rfl := by simpa using hx
    have hid : row.id = p.id := Db.id_of_payout rowGet
    have hrow : r = row := by
      have hr : d.payout row.id = some r := hr
      rw [hid, rowGet, Option.some.injEq] at hr
      exact hr.symm
    subst hrow
    exact ⟨hpending, Or.inr ⟨_, ⟨_, _, by rw [hid]⟩, rfl⟩⟩
  | sweep c =>
    obtain rfl : x = c.payout := by simpa [SweepCommit.writes] using hx
    have hnone : d.payout c.payout.id = none := by
      rw [Db.payout, show d.get (.payout c.payout.id) = none from c.payoutFresh]
      rfl
    simp [hr] at hnone
  | paid rest place c =>
    obtain rfl : x = c.newRow := by simpa [PaidCommit.writes, Outbox.writes] using hx
    simp [PaidCommit.newRow] at hpending
  | reversal rest place c =>
    obtain rfl : x = c.newRow := by simpa [ReversalCommit.writes, Outbox.writes] using hx
    simp [ReversalCommit.newRow] at hpending
  | keyed s r ws hkey => obtain rfl | ⟨slot, rfl⟩ := hkey.writes <;> simp at hx
  | _ => simp [TransferCommit.writes, ConfirmCommit.writes, CancelCommit.writes,
      Outbox.writes] at hx

/-- A claimed payout was due, and its lease runs for 60 seconds. -/
theorem Commit.claimed_due {limit lease : ℕ} {m : Option Uuid} {rows : List PayoutRow}
    (h : Commit min log now d (.auto (.payoutClaimDue limit lease m) rows) ws) :
    lease = 60 ∧ ws = rows.map .payout ∧ (rows.map (·.id)).Nodup ∧
      ∀ p ∈ rows, p.nextAttemptAt = now + seconds 60 ∧
        ∃ q, d.payout p.id = some q ∧ q.status = .pending ∧ q.nextAttemptAt ≤ now := by
  cases h with
  | query s r hs => simp [Stmt.isQuery] at hs
  | keyed s r ws hkey => cases hkey
  | claimDue limit m rows idle nodup claimed =>
    refine ⟨rfl, rfl, nodup, ?_⟩
    intro p hp
    obtain ⟨q, hq, hstatus, hdue, hpq⟩ := claimed p hp
    exact ⟨by rw [hpq], q, hq, hstatus, hdue⟩

/-- What a commit leaves in the hands of its process is the batch it has just
claimed, or was there before. -/
theorem Commit.hands (h : Commit min log now d it ws) :
    (∃ limit m rows, it = .auto (.payoutClaimDue limit 60 m) rows ∧
      (phase (log ++ it.events)).payouts = rows) ∨
    (phase (log ++ it.events)).payouts.Sublist (phase log).payouts := by
  rcases h.batch with ⟨limit, m, rows, hit, hrows, -⟩ | ⟨p, hbefore, -⟩ | ⟨-, hsame⟩
  · exact Or.inl ⟨limit, m, rows, hit, hrows⟩
  · rw [hbefore]
    exact Or.inr (List.sublist_cons_self _ _)
  · rw [hsame]
    exact Or.inr (List.Sublist.refl _)

/-- A retried payout is out of hand. -/
theorem Commit.retried_out (h : Commit min log now d it ws)
    (hnodup : ((phase log).payouts.map (·.id)).Nodup) {id : Uuid} {delay : ℕ}
    (hit : it.retries id delay) : ∀ q ∈ (phase (log ++ it.events)).payouts, q.id ≠ id := by
  obtain ⟨attempts, message, rfl⟩ := hit
  cases h with
  | query s r hs => simp [Stmt.isQuery] at hs
  | keyed s r ws hkey => cases hkey
  | markRetry p rest row message place remaining rowGet same =>
    have hafter : (phase (log ++ [.stmt (.payoutMarkRetry p.id (p.attempts + 1)
        (payoutService.backoffSeconds (p.attempts + 1)) message) ()])).payouts = rest := by
      rw [phase_append]
      simp only [List.foldl_cons, List.foldl_nil, Phase.observe, place.finish,
        Phase.payouts_ofBatch]
    rw [place.payouts, List.map_cons, List.nodup_cons] at hnodup
    intro q hq heq
    rw [Item.events, hafter] at hq
    exact hnodup.1 (heq ▸ List.mem_map_of_mem hq)

end Commit

/-! ## The invariant -/

/-- The lease that `q` was claimed under: its payout is no longer pending, or it
is not due before the lease has run out. -/
def Abs.Leased (a : Abs) (q : PayoutRow) : Prop :=
  ∃ r, Db.payout a.db q.id = some r ∧
    (r.status = .pending → q.nextAttemptAt ≤ r.nextAttemptAt ∨ q.nextAttemptAt ≤ a.now)

structure LeaseInv (a : Abs) : Prop where
  nodup : ∀ (i : ℕ) (x : Bool × List Ev), a.procs[i]? = some x →
    ((phase x.2).payouts.map (·.id)).Nodup
  leased : ∀ (i : ℕ) (x : Bool × List Ev), a.procs[i]? = some x →
    ∀ q ∈ (phase x.2).payouts, Abs.Leased a q
  exclusive : ∀ (i j : ℕ) (x y : Bool × List Ev), i ≠ j → a.procs[i]? = some x →
    a.procs[j]? = some y → ∀ p ∈ (phase x.2).payouts, ∀ q ∈ (phase y.2).payouts,
    p.id = q.id → p.nextAttemptAt ≤ a.now ∨ q.nextAttemptAt ≤ a.now

/-- A commit that retries spares the leases of the other processes. -/
def Abs.Spares (a : Abs) (i : ℕ) (it : Item) : Prop :=
  ∀ id delay, it.retries id delay → ∀ (j : ℕ) (y : Bool × List Ev), j ≠ i →
    a.procs[j]? = some y → ∀ q ∈ (phase y.2).payouts, q.id = id →
    q.nextAttemptAt ≤ a.now + seconds delay

/-- The same or less work in hand, on the same tables, at the same time or later. -/
theorem LeaseInv.shrink {a a' : Abs} (h : LeaseInv a) (hdb : a'.db = a.db) (hnow : a.now ≤ a'.now)
    (hhands : ∀ (i : ℕ) (x : Bool × List Ev), a'.procs[i]? = some x →
      (phase x.2).payouts = [] ∨ ∃ y, a.procs[i]? = some y ∧
        (phase x.2).payouts = (phase y.2).payouts) : LeaseInv a' where
  nodup := by
    intro i x hx
    rcases hhands i x hx with hnone | ⟨y, hy, hsame⟩
    · simp [hnone]
    · rw [hsame]
      exact h.nodup i y hy
  leased := by
    intro i x hx q hq
    rcases hhands i x hx with hnone | ⟨y, hy, hsame⟩
    · simp [hnone] at hq
    · obtain ⟨r, hr, hlease⟩ := h.leased i y hy q (hsame ▸ hq)
      refine ⟨r, hdb ▸ hr, fun hpending => ?_⟩
      exact (hlease hpending).imp id (fun hle => hle.trans hnow)
  exclusive := by
    intro i j x y hij hx hy p hp q hq hid
    rcases hhands i x hx with hnone | ⟨x', hx', hsame⟩
    · simp [hnone] at hp
    · rcases hhands j y hy with hnone | ⟨y', hy', hsame'⟩
      · simp [hnone] at hq
      · exact (h.exclusive i j x' y' hij hx' hy' p (hsame ▸ hp) q (hsame' ▸ hq) hid).imp
          (fun hle => hle.trans hnow) (fun hle => hle.trans hnow)

/-- A lease outlasts a commit that does not retry its payout too early. -/
theorem Abs.Leased.commit {min : ℤ} {a : Abs} {log : List Ev} {it : Item} {ws : List Row}
    {procs : List (Bool × List Ev)} {history : List (ℕ × Item)} {q : PayoutRow}
    (hc : Commit min log a.now a.db it ws) (h : Abs.Leased a q)
    (hspare : ∀ delay, it.retries q.id delay → q.nextAttemptAt ≤ a.now + seconds delay) :
    Abs.Leased ⟨Table.install a.db ws, a.now, procs, history⟩ q := by
  obtain ⟨r, hr, hlease⟩ := h
  obtain ⟨y, hy, hevolves⟩ := hc.later _ _ (Db.payout_eq_some.mp hr)
  obtain ⟨r', rfl, -⟩ := hevolves.of_payout
  have hget : Db.payout (Table.install a.db ws) q.id = some r' := Db.payout_eq_some.mpr hy
  have hid : r'.id = q.id := Db.id_of_payout hget
  refine ⟨r', hget, fun hpending => ?_⟩
  rcases (Table.mem_install hc.nodup).mp (Table.mem_of_get hy) with hmem | ⟨hmem, -⟩
  · obtain ⟨hold, hdue⟩ := hc.due_write hmem (hid ▸ hr) hpending
    have hrun := hlease hold
    rcases hdue with hdue | ⟨delay, hretries, hnext⟩
    · refine Or.inr ?_
      show q.nextAttemptAt ≤ a.now
      omega
    · rw [hnext]
      exact Or.inl (hspare delay (hid ▸ hretries))
  · have hsame := Table.get_of_mem hmem
    rw [Row.key, hid, Db.payout_eq_some.mp hr] at hsame
    obtain rfl : r = r' := by simpa using hsame
    exact hlease hpending

theorem LeaseInv.commit {min : ℤ} {a : Abs} (h : LeaseInv a) {i : ℕ} {log : List Ev} {it : Item}
    {ws : List Row} {live : Bool} {history : List (ℕ × Item)}
    (hproc : a.procs[i]? = some (true, log)) (hc : Commit min log a.now a.db it ws)
    (hspares : Abs.Spares a i it) :
    LeaseInv ⟨Table.install a.db ws, a.now, a.procs.set i (live, log ++ it.events), history⟩ := by
  have hprocs : ∀ {j : ℕ} {x : Bool × List Ev},
      (a.procs.set i (live, log ++ it.events))[j]? = some x →
      (j = i ∧ x = (live, log ++ it.events)) ∨ (j ≠ i ∧ a.procs[j]? = some x) := by
    intro j x hx
    rw [List.getElem?_set] at hx
    split at hx
    · rename_i hij
      split at hx
      · exact Or.inl ⟨hij.symm, (Option.some.inj hx).symm⟩
      · simp at hx
    · rename_i hij
      exact Or.inr ⟨fun e => hij e.symm, hx⟩
  -- what the process itself holds after the commit
  have hnodup := h.nodup i _ hproc
  have hmine : ((phase (log ++ it.events)).payouts.map (·.id)).Nodup ∧
      ∀ p ∈ (phase (log ++ it.events)).payouts, (Row.payout p ∈ ws ∧
        ∃ r, Db.payout a.db p.id = some r ∧ r.status = .pending ∧ r.nextAttemptAt ≤ a.now) ∨
        (p ∈ (phase log).payouts ∧ ∀ delay, ¬ it.retries p.id delay) := by
    rcases hc.hands with ⟨limit, m, rows, rfl, hrows⟩ | hsub
    · obtain ⟨-, hws, hrowsNodup, hclaimed⟩ := Commit.claimed_due hc
      rw [hrows]
      refine ⟨hrowsNodup, fun p hp => Or.inl ⟨?_, (hclaimed p hp).2⟩⟩
      rw [hws]
      exact List.mem_map_of_mem hp
    · refine ⟨(hsub.map _).nodup hnodup, fun p hp => Or.inr ⟨hsub.subset hp, ?_⟩⟩
      intro delay hretries
      exact hc.retried_out hnodup hretries p hp rfl
  refine ⟨?_, ?_, ?_⟩
  · intro j x hx
    rcases hprocs hx with ⟨-, rfl⟩ | ⟨-, hold⟩
    · exact hmine.1
    · exact h.nodup j x hold
  · intro j x hx q hq
    rcases hprocs hx with ⟨-, rfl⟩ | ⟨hj, hold⟩
    · rcases hmine.2 q hq with ⟨hmem, -⟩ | ⟨hold, hnot⟩
      · refine ⟨q, ?_, fun _ => Or.inl (le_refl _)⟩
        exact Db.payout_eq_some.mpr (Table.get_install_of_mem (r := .payout q) hc.nodup hmem)
      · exact (h.leased i _ hproc q hold).commit hc (fun delay hr => absurd hr (hnot delay))
    · refine (h.leased j x hold q hq).commit hc ?_
      exact fun delay hretries => hspares _ _ hretries j x hj hold q hq rfl
  · -- a payout that has just been claimed was under no lease
    have hclaim : ∀ {j : ℕ} {y : Bool × List Ev}, j ≠ i → a.procs[j]? = some y →
        ∀ p ∈ (phase (log ++ it.events)).payouts, ∀ q ∈ (phase y.2).payouts, p.id = q.id →
        p.nextAttemptAt ≤ a.now ∨ q.nextAttemptAt ≤ a.now := by
      intro j y hj hy p hp q hq hid
      rcases hmine.2 p hp with ⟨-, r, hr, hpending, hdue⟩ | ⟨hold, -⟩
      · obtain ⟨r', hr', hlease⟩ := h.leased j y hy q hq
        rw [← hid, hr, Option.some.injEq] at hr'
        subst hr'
        have hrun := hlease hpending
        omega
      · exact h.exclusive i j _ y (Ne.symm hj) hproc hy p hold q hq hid
    intro j k x y hjk hx hy p hp q hq hid
    rcases hprocs hx with ⟨rfl, rfl⟩ | ⟨hj, hx'⟩
    · rcases hprocs hy with ⟨rfl, -⟩ | ⟨hk, hy'⟩
      · exact absurd rfl hjk
      · exact hclaim hk hy' p hp q hq hid
    · rcases hprocs hy with ⟨rfl, rfl⟩ | ⟨hk, hy'⟩
      · exact (hclaim hj hx' q hq p hp hid.symm).symm
      · exact h.exclusive j k x y hjk hx' hy' p hp q hq hid

theorem LeaseInv.astep {min : ℤ} {a a' : Abs} (h : LeaseInv a)
    (hs : TxStore.AStep (commits min) a a')
    (hspares : ∀ i it, a'.history = a.history ++ [(i, it)] → Abs.Spares a i it) : LeaseInv a' := by
  have hset : ∀ {i : ℕ} {was live : Bool} {log log' : List Ev}, a.procs[i]? = some (was, log) →
      (phase log').payouts = (phase log).payouts → ∀ (k : ℕ) (x : Bool × List Ev),
      (a.procs.set i (live, log'))[k]? = some x →
      (phase x.2).payouts = [] ∨ ∃ y, a.procs[k]? = some y ∧
        (phase x.2).payouts = (phase y.2).payouts := by
    intro i was live log log' hi hsame k x hk
    rw [List.getElem?_set] at hk
    split at hk
    · rename_i hik
      subst hik
      split at hk
      · cases hk
        exact Or.inr ⟨_, hi, hsame⟩
      · simp at hk
    · exact Or.inr ⟨x, hk, rfl⟩
  cases hs with
  | start live =>
    refine h.shrink rfl (le_refl _) ?_
    intro k x hk
    rw [List.getElem?_append] at hk
    split at hk
    · exact Or.inr ⟨x, hk, rfl⟩
    · rw [List.getElem?_singleton] at hk
      split at hk
      · cases hk
        exact Or.inl rfl
      · simp at hk
  | tick n => exact h.shrink rfl (Nat.le_add_right _ _) (fun k x hk => Or.inr ⟨x, hk, rfl⟩)
  | fault i log f live hi => exact h.shrink rfl (le_refl _) (hset hi (phase_fault log f))
  | quiet i was log live hi _ => exact h.shrink rfl (le_refl _) (hset hi rfl)
  | commit i log it p live hi _ hg => exact h.commit hi hg (hspares i it rfl)

/-! ## Every run -/

theorem Sys.sparesLeases_spec {min : ℤ} {s s' : Sys} {l : Step} (hstep : s.next min l = some s')
    (h : s.sparesLeases l = true) {i : ℕ} {it : Item} (hlast : s'.history = s.history ++ [(i, it)]) :
    Abs.Spares s.abs i it := by
  rintro id delay ⟨attempts, message, rfl⟩ j y hj hy q hq hid
  obtain ⟨u, n, k, ws, rfl, hn, hproc, -⟩ := Sys.step_auto hstep hlast
  have hquery : Node.query? n = some (.payoutMarkRetry id attempts delay message) := by
    rw [Node.query?, hproc]
  obtain ⟨n', hn', rfl⟩ : ∃ n', s.nodes[j]? = some n' ∧ (n'.live, n'.log) = y := by
    simpa [TxStore.Sys.abs] using hy
  simp only [Sys.sparesLeases, hn, Option.bind_some, hquery, List.all_eq_true] at h
  have hall := h (n', j) (List.mem_zipIdx_iff_getElem?.mpr hn')
  simp only [Bool.or_eq_true, beq_iff_eq, hj, false_or, List.all_eq_true, bne_iff_ne, ne_eq,
    decide_eq_true_eq] at hall
  rcases hall q hq with hne | hle
  · exact absurd hid hne
  · exact hle

theorem leaseInv {min : ℤ} {s : Sys} (h : ReachBy min (fun s l _ => s.sparesLeases l = true) s) :
    LeaseInv s.abs := by
  induction h with
  | init => refine ⟨?_, ?_, ?_⟩ <;> simp [TxStore.Sys.abs, TxStore.Sys.init]
  | step hr hstep hok ih =>
    exact ih.astep (step_refines hr hstep) (fun i it => Sys.sparesLeases_spec hstep hok)

/-- As long as no `markRetry` makes a payout due before the end of a lease that
another process works under, no `claimDue` returns a payout that somebody holds
under a running lease, and no two processes hold one payout under running
leases. -/
theorem lease_exclusive {min : ℤ} {s : Sys}
    (h : ReachBy min (fun s l _ => s.sparesLeases l = true) s) :
    (∀ (l : Step) (s' : Sys) (i limit lease : ℕ) (m : Option Uuid) (rows : List PayoutRow),
      s.next min l = some s' →
      s'.history = s.history ++ [(i, .auto (.payoutClaimDue limit lease m) rows)] →
      ∀ p ∈ rows, p.nextAttemptAt = s.now + seconds 60 ∧
        ∀ n ∈ s.nodes, ∀ q ∈ Node.hands n, q.id = p.id → q.nextAttemptAt ≤ s.now) ∧
      ∀ (i j : ℕ) (n n' : Node), i ≠ j → s.nodes[i]? = some n → s.nodes[j]? = some n' →
        ∀ p ∈ Node.hands n, ∀ q ∈ Node.hands n', p.id = q.id →
        p.nextAttemptAt ≤ s.now ∨ q.nextAttemptAt ≤ s.now := by
  have hinv := leaseInv h
  refine ⟨?_, ?_⟩
  · intro l s' i limit lease m rows hstep hlast p hp
    obtain ⟨log, ws, -, hc, -⟩ := step_commits h hstep hlast
    obtain ⟨-, -, -, hclaimed⟩ := Commit.claimed_due hc
    obtain ⟨hnext, r, hr, hpending, hdue⟩ := hclaimed p hp
    refine ⟨hnext, ?_⟩
    intro n hn q hq hid
    obtain ⟨j, hj⟩ := List.mem_iff_getElem?.mp hn
    obtain ⟨r', hr', hlease⟩ := hinv.leased j _ (abs_proc hj) q hq
    have hr : Db.payout s.abs.db p.id = some r := hr
    rw [hid, hr, Option.some.injEq] at hr'
    subst hr'
    have hrun : q.nextAttemptAt ≤ r.nextAttemptAt ∨ q.nextAttemptAt ≤ s.now := hlease hpending
    omega
  · intro i j n n' hij hn hn' p hp q hq hid
    exact hinv.exclusive i j _ _ hij (abs_proc hn) (abs_proc hn') p hp q hq hid

theorem lease_exclusive_refused : ∃ s : Sys, (∃ n ∈ s.nodes, Node.hands n ≠ []) ∧
    ∀ (i j : ℕ) (n n' : Node), i ≠ j → s.nodes[i]? = some n → s.nodes[j]? = some n' →
      ∀ p ∈ Node.hands n, ∀ q ∈ Node.hands n', p.id = q.id →
      p.nextAttemptAt ≤ s.now ∨ q.nextAttemptAt ≤ s.now := by
  have hrun : (runWhile 10 (fun s l _ => s.sparesLeases l)
      (refusedTwice ++ .start (.processDue 50 none) :: drive 7 2 50)).any
      (fun s : Sys => decide (∃ n ∈ s.nodes, Node.hands n ≠ [])) = true := by decide +kernel
  obtain ⟨s, hs, hhands⟩ := exists_of_runWhile hrun
  exact ⟨s, of_decide_eq_true hhands, (lease_exclusive hs).2⟩

/-- A worker claims a payout and comes to the bank only when its lease has run
out and another worker has claimed the payout; its `markRetry` then lets a third
worker claim it, 12 seconds after the second. -/
def shortenedLease : List Step :=
  sweptPayout badAccount ++
    .start (.processDue 50 none) :: drive 5 2 30 ++
    .tick (seconds 61) :: .start (.processDue 50 none) :: drive 6 2 40 ++
    drive 5 2 50 ++ [.tick (seconds 12), .start (.processDue 50 none), .run 7 60]

/-- The third claim has just returned a payout that the second worker holds for
another 48 seconds. -/
theorem claimed_under_lease : ∃ s : Sys, Reachable 10 s ∧ ∃ n n' : Node,
    s.nodes[6]? = some n ∧ s.nodes[7]? = some n' ∧ ∃ q ∈ Node.hands n, ∃ p ∈ Node.hands n',
      q.id = p.id ∧ p.nextAttemptAt = s.now + seconds 60 ∧ q.nextAttemptAt = s.now + seconds 48 := by
  have hrun : (runFrom 10 shortenedLease).any (fun s : Sys => s.nodes[6]?.any (fun n =>
      s.nodes[7]?.any (fun n' => decide (∃ q ∈ Node.hands n, ∃ p ∈ Node.hands n',
        q.id = p.id ∧ p.nextAttemptAt = s.now + seconds 60 ∧
          q.nextAttemptAt = s.now + seconds 48)))) = true := by
    decide +kernel
  obtain ⟨s, hs, hheld⟩ := exists_of_run hrun
  simp only [Option.any_eq_true] at hheld
  obtain ⟨n, hn, n', hn', hheld⟩ := hheld
  exact ⟨s, hs, n, n', hn, hn', of_decide_eq_true hheld⟩

end PaymentApis
