import PaymentApis.Lib.Earliest
import PaymentApis.Deliveries

/-!
# The backlog of the polling worker

A claim takes the events that have been due for longest, and whatever happens
to an event gives it a date no earlier than now. So what was overdue at some
time is worked off by full batches. Only an event whose transaction began before
that time, and commits after it, joins what is overdue.
-/

namespace PaymentApis.WebhookWorker

open TxStore Processes

/-! ## What is stated -/

/-- The row waits, with a date before `d`. -/
def overdue (d : ℕ) (r : WebhookEventRow) : Bool :=
  decide (r.status = .pending) && decide (r.nextAttemptAt < d)

def Outbox.backlog (w : Outbox) (d : ℕ) : ℕ := w.events.countP (overdue d)

/-- The part of it whose ids are among `ids`. -/
def Outbox.backlogOf (w : Outbox) (ids : List Uuid) (d : ℕ) : ℕ :=
  w.events.countP (fun r => overdue d r && decide (r.id ∈ ids))

/-- An event comes in whose transaction began before `d`. -/
def comesLate (d : ℕ) (_ : Tasks) (l : Turn) (_ : Tasks) : Bool :=
  match l with
  | .event (.enqueue _ _ _ _ since) => decide (since < d)
  | _ => false

/-- A claim takes effect, and no row is locked. -/
def claimsFreely (s : Tasks) (l : Turn) (_ : Tasks) : Bool :=
  match l with
  | .run i (.done []) =>
    decide ((s.nodes[i]?).bind Member.next = some (.eventClaimDue BATCH_SIZE leaseSeconds))
  | _ => false

section Step

variable {s t : Tasks} {l : Turn} {d : ℕ}

/-- A claim takes a full batch of what is overdue. -/
theorem backlog_claim (hk : s.world.Keyed) (hd : d ≤ s.world.now) (limit lease : ℕ) :
    (webhookEventRepository.claimDue limit lease [] s.world.toWorld).2.events.countP (overdue d) =
      s.world.backlog d - limit := by
  have hready : ∀ r : WebhookEventRow, overdue d r =
      (webhookEventRepository.due s.world.now [] r && decide (r.nextAttemptAt < d)) := by
    intro r
    by_cases hearly : r.nextAttemptAt < d
    · have hdue := hearly.le.trans hd
      simp [overdue, webhookEventRepository.due, hearly, hdue]
    · simp [overdue, hearly]
  have hlater : ∀ r, overdue d (webhookEventRepository.leasedUntil
      (s.world.now + seconds lease) s.world.now r) = false := by
    intro r
    have hlate : ¬ s.world.now + seconds lease < d := by omega
    simp [overdue, webhookEventRepository.leasedUntil, hlate]
  have hserve := Earliest.countP_serve_batch hk.nodup (n := limit) hready hlater
  rw [Outbox.backlog, ← hserve]
  congr 1
  simp only [Earliest.serve, webhookEventRepository.claimDue, webhookEventRepository.updateWhere,
    decide_eq_true_eq]
  rfl

/-- Whatever an action writes has a date no earlier than now. -/
theorem later_act (hd : d ≤ s.world.now) {st : Op} {o : Outcome} {w : Outbox}
    {r : Except String (Answer st)} (hacts : Outbox.act st o s.world = some (r, w)) :
    ∃ g : WebhookEventRow → WebhookEventRow, w.events = s.world.events.map g ∧
      ∀ r, (g r).id = r.id ∧ (overdue d (g r) = true → overdue d r = true) := by
  have hlater : ∀ n, ¬ s.world.now + n < d := fun n => by omega
  have hsame : w.events = s.world.events → ∃ g : WebhookEventRow → WebhookEventRow,
      w.events = s.world.events.map g ∧
        ∀ r, (g r).id = r.id ∧ (overdue d (g r) = true → overdue d r = true) :=
    fun heq => ⟨id, heq.trans (List.map_id _).symm, fun _ => ⟨rfl, fun h => h⟩⟩
  have hupdate : ∀ {p : WebhookEventRow → Bool} {g : WebhookEventRow → WebhookEventRow},
      w.events = (webhookEventRepository.updateWhere p g s.world.toWorld).events →
      (∀ r, (g r).id = r.id) → (∀ r, overdue d (g r) = true → overdue d r = true) →
      ∃ g : WebhookEventRow → WebhookEventRow, w.events = s.world.events.map g ∧
        ∀ r, (g r).id = r.id ∧ (overdue d (g r) = true → overdue d r = true) := by
    intro p g heq hid hg
    refine ⟨fun r => if p r then g r else r, heq, ?_⟩
    intro r
    by_cases hp : p r = true
    · simp only [hp, if_true]
      exact ⟨hid r, hg r⟩
    · simp [hp]
  cases st with
  | eventClaimDue limit lease =>
    rcases statement_cases hacts with ⟨locked, -, -, rfl⟩ | ⟨e, -, rfl⟩
    · refine hupdate rfl (fun _ => rfl) ?_
      intro r hr
      simp [overdue, webhookEventRepository.leasedUntil, hlater] at hr
    · exact hsame rfl
  | deliverAll events =>
    cases o with
    | done locked =>
      obtain ⟨-, rfl⟩ := Prod.mk.inj (Option.some.inj hacts)
      exact hsame rfl
    | failed message => cases hacts
    | status n => cases hacts
  | endpointFindById id =>
    rcases statement_cases hacts with ⟨locked, -, -, rfl⟩ | ⟨e, -, rfl⟩
    · exact hsame rfl
    · exact hsame rfl
  | fetch id post =>
    cases o with
    | done locked => cases hacts
    | failed message =>
      obtain ⟨-, rfl⟩ := Prod.mk.inj (Option.some.inj hacts)
      exact hsame rfl
    | status n =>
      obtain ⟨-, rfl⟩ := Prod.mk.inj (Option.some.inj hacts)
      exact hsame rfl
  | eventMarkDelivered id =>
    rcases statement_cases hacts with ⟨locked, -, -, rfl⟩ | ⟨e, -, rfl⟩
    · exact hupdate rfl (fun _ => rfl) (fun r hr => by simp [overdue] at hr)
    · exact hsame rfl
  | eventMarkRetry id n backoff e =>
    rcases statement_cases hacts with ⟨locked, -, -, rfl⟩ | ⟨e', -, rfl⟩
    · exact hupdate rfl (fun _ => rfl) (fun r hr => by simp [overdue, hlater] at hr)
    · exact hsame rfl
  | eventMarkFailed id n e =>
    rcases statement_cases hacts with ⟨locked, -, -, rfl⟩ | ⟨e', -, rfl⟩
    · exact hupdate rfl (fun _ => rfl) (fun r hr => by simp [overdue] at hr)
    · exact hsame rfl

/-- A step adds nothing to what is overdue but an event that comes in late, and
nothing at all to the part of it whose ids have been given out. -/
theorem backlog_move (hd : d ≤ s.world.now) (h : Move discipline s l t) {ids : List Uuid}
    (hids : ∀ id ∈ ids, id ∈ s.world.ids) :
    t.world.backlog d ≤ s.world.backlog d + (comesLate d s l t).toNat ∧
      t.world.backlogOf ids d ≤ s.world.backlogOf ids d := by
  have hsame : t.world.events = s.world.events →
      t.world.backlog d ≤ s.world.backlog d + (comesLate d s l t).toNat ∧
        t.world.backlogOf ids d ≤ s.world.backlogOf ids d := by
    intro heq
    rw [Outbox.backlog, Outbox.backlogOf, heq]
    exact ⟨Nat.le_add_right _ _, le_rfl⟩
  cases h with
  | start born =>
    rcases birth_cases born with ⟨rfl, rfl⟩ | ⟨event, hmem, rfl, rfl⟩
    · exact hsame rfl
    · exact hsame rfl
  | run here script knows may acts =>
    obtain ⟨g, heq, hg⟩ := later_act hd acts
    simp only [Outbox.backlog, Outbox.backlogOf, heq, List.countP_map]
    constructor
    · refine Nat.le_add_right_of_le (List.countP_mono_left ?_)
      intro r _ hr
      exact (hg r).2 hr
    · apply List.countP_mono_left
      intro r _ hr
      simp only [Function.comp_apply, Bool.and_eq_true, (hg r).1] at hr ⊢
      exact ⟨(hg r).2 hr.1, hr.2⟩
  | crash => exact hsame rfl
  | event happens =>
    cases Happens.of_event happens with
    | tick n eq =>
      subst eq
      exact hsame rfl
    | enqueue id endpointId type payload since e active begun fresh eq =>
      subst eq
      have hnot : id ∉ ids := fun hmem => fresh (hids id hmem)
      simp only [Outbox.backlog, Outbox.backlogOf, List.countP_append, List.countP_singleton,
        comesLate, overdue, WebhookEventRow.enqueued, hnot, decide_true, decide_false,
        Bool.true_and, Bool.and_false, Bool.false_eq_true, if_false, Nat.add_zero]
      refine ⟨Nat.add_le_add_left ?_ _, le_rfl⟩
      cases decide (since < d) <;> simp
    | register row fresh eq =>
      subst eq
      exact hsame rfl
    | deleteEndpoint id eq =>
      subst eq
      have hsub := List.filter_sublist (p := fun r : WebhookEventRow => decide (r.endpointId ≠ id))
        (l := s.world.events)
      exact ⟨Nat.le_add_right_of_le hsub.countP_le, hsub.countP_le⟩

/-- A free claim takes a full batch. -/
theorem backlog_free (hk : s.world.Keyed) (hd : d ≤ s.world.now) (h : Move discipline s l t)
    (hfree : claimsFreely s l t = true) :
    t.world.backlog d = s.world.backlog d - BATCH_SIZE ∧ comesLate d s l t = false := by
  cases h with
  | run here script knows may acts =>
    rename_i i o n st k r w
    have hthis : n.next = some st := by rw [Member.next, script]
    cases o with
    | done locked =>
      cases locked with
      | nil =>
        simp only [claimsFreely, here, Option.bind_some, hthis, Option.some.injEq,
          decide_eq_true_eq] at hfree
        subst hfree
        obtain ⟨-, rfl⟩ := Prod.mk.inj (Option.some.inj acts)
        exact ⟨backlog_claim hk hd BATCH_SIZE leaseSeconds, rfl⟩
      | cons id locked => simp [claimsFreely] at hfree
    | failed message => simp [claimsFreely] at hfree
    | status n => simp [claimsFreely] at hfree
  | _ => simp [claimsFreely] at hfree

theorem Outbox.backlogOf_le (w : Outbox) (ids : List Uuid) (d : ℕ) :
    w.backlogOf ids d ≤ w.backlog d := by
  apply List.countP_mono_left
  intro r _ hr
  exact (Bool.and_eq_true _ _ ▸ hr).1

end Step

/-- After `c` free claims and `e` late events: what is overdue has shrunk by full
batches, but for the late ones, and its old part is gone or all these batches were
full. -/
structure Drained (s : Tasks) (d c e : ℕ) (u : Tasks) : Prop where
  keyed : u.world.Keyed
  past : d ≤ u.world.now
  given : ∀ id ∈ s.world.ids, id ∈ u.world.ids
  all : u.world.backlog d ≤ s.world.backlog d - BATCH_SIZE * c + e
  old : u.world.backlogOf s.world.ids d = 0 ∨
    u.world.backlog d + BATCH_SIZE * c ≤ s.world.backlog d + e

theorem Drained.move {s u v : Tasks} {l : Turn} {d c e : ℕ} (h : Drained s d c e u)
    (hmove : Move discipline u l v) :
    Drained s d (c + (claimsFreely u l v).toNat) (e + (comesLate d u l v).toNat) v := by
  obtain ⟨hall, hold⟩ := backlog_move h.past hmove h.given
  have hle := v.world.backlogOf_le s.world.ids d
  have hbefore := h.all
  refine ⟨h.keyed.of_move hmove, h.past.trans (now_mono hmove),
    fun id hid => ids_mono hmove (h.given id hid), ?_, ?_⟩
  · cases hfree : claimsFreely u l v with
    | false =>
      rw [Bool.toNat_false, Nat.add_zero]
      omega
    | true =>
      obtain ⟨heq, -⟩ := backlog_free h.keyed h.past hmove hfree
      rw [Bool.toNat_true, Nat.mul_add]
      omega
  · cases hfree : claimsFreely u l v with
    | false =>
      rw [Bool.toNat_false, Nat.add_zero]
      rcases h.old with hnone | hfull
      · exact .inl (Nat.eq_zero_of_le_zero (hnone ▸ hold))
      · right
        omega
    | true =>
      -- the claim takes all that is overdue, or a full batch of it
      obtain ⟨heq, -⟩ := backlog_free h.keyed h.past hmove hfree
      rw [Bool.toNat_true, Nat.mul_add]
      by_cases hlast : u.world.backlog d ≤ BATCH_SIZE
      · left
        omega
      · rcases h.old with hnone | hfull
        · exact .inl (Nat.eq_zero_of_le_zero (hnone ▸ hold))
        · right
          omega

theorem Drained.of_run {ok : Tasks → Turn → Prop} {s t : Tasks} (h : s.Reach ok)
    {ls : List Turn} (hrun : s.run device program ls = some t) {d : ℕ} (hd : d ≤ s.world.now) :
    Drained s d (s.occurrences device program claimsFreely ls)
      (s.occurrences device program (comesLate d) ls) t := by
  refine Pool.run_counted_pair (K := discipline) (fun h hmove => h.move hmove)
    ((discipline.follows_begin _).runs h) hrun ?_
  exact ⟨h.allInReach.keyed, hd, fun _ hid => hid, le_rfl, .inr le_rfl⟩

/-- Of the old backlog only what the claims had no room for is left. -/
theorem Drained.old_le {s t : Tasks} {d c late : ℕ} (h : Drained s d c late t) :
    t.world.backlogOf s.world.ids d ≤ s.world.backlog d + late - BATCH_SIZE * c := by
  have hle := t.world.backlogOf_le s.world.ids d
  have hall := h.all
  rcases h.old with hnone | hfull
  · omega
  · omega

/-- What is overdue is worked off, ten events with each claim, whatever else
happens; only an event that comes in late is added to it, and of what was there
all is gone once the claims have room for both. -/
theorem backlog_drains {ok : Tasks → Turn → Prop} {s t : Tasks} (h : s.Reach ok)
    {ls : List Turn} (hrun : s.run device program ls = some t) {d : ℕ} (hd : d ≤ s.world.now) :
    t.world.backlog d ≤ s.world.backlog d -
        BATCH_SIZE * s.occurrences device program claimsFreely ls +
        s.occurrences device program (comesLate d) ls ∧
      t.world.backlogOf s.world.ids d ≤ s.world.backlog d +
        s.occurrences device program (comesLate d) ls -
        BATCH_SIZE * s.occurrences device program claimsFreely ls := by
  have hdrained := Drained.of_run h hrun hd
  exact ⟨hdrained.all, hdrained.old_le⟩

/-- Two events, of which a worker claims the first and crashes. -/
def crashOne : List Turn :=
  enqueueOne ++ [.start .tick, .run 0 (.done []), .crash 0,
    .event (.enqueue 2 7 .payoutPaid payloadPaid 0)]

/-- A third comes in late, and a worker claims all three. -/
def claimLate : List Turn :=
  [.event (.enqueue 3 7 .payoutPaid payloadPaid 5), .start .tick, .run 1 (.done [])]

theorem backlog_drains_crashed : ∃ s t : Tasks, s.world.backlog (seconds 61) = 2 ∧
    s.occurrences device program (comesLate (seconds 61)) claimLate = 1 ∧
    t.world.backlog (seconds 61) ≤ s.world.backlog (seconds 61) - BATCH_SIZE * 1 + 1 ∧
    t.world.backlogOf s.world.ids (seconds 61) ≤
      s.world.backlog (seconds 61) + 1 - BATCH_SIZE * 1 := by
  have hrun : (Pool.runWhile device program (fun _ _ => true) (Pool.begin .empty)
      (crashOne ++ [.event (.tick (seconds 61))])).any (fun s =>
        decide (s.world.backlog (seconds 61) = 2) && decide (seconds 61 ≤ s.world.now) &&
        (s.run device program claimLate).isSome &&
        decide (s.occurrences device program claimsFreely claimLate = 1) &&
        decide (s.occurrences device program (comesLate (seconds 61)) claimLate = 1)) =
          true := by decide +kernel
  obtain ⟨s, hs, hthen⟩ := Runs.exists_of_runWhile hrun
  simp only [Bool.and_eq_true, decide_eq_true_eq] at hthen
  obtain ⟨⟨⟨⟨hbacklog, hnow⟩, hsome⟩, hone⟩, hlate⟩ := hthen
  obtain ⟨t, ht⟩ := Option.isSome_iff_exists.mp hsome
  have hdrains := backlog_drains hs ht hnow
  rw [hone, hlate] at hdrains
  exact ⟨s, t, hbacklog, hlate, hdrains⟩

/-- No event is stuck: once a lease's time has passed, and the claims have had
room for the backlog of that moment and for what came in late, every event that
was pending is settled, or has been given a new date. -/
theorem nothing_stuck {ok : Tasks → Turn → Prop} {s t u : Tasks} (h : s.Reach ok)
    {ls ls' : List Turn} (hrun : s.run device program ls = some t)
    (hlate : s.world.now + seconds leaseSeconds < t.world.now)
    (hrun' : t.run device program ls' = some u)
    (hclaims : t.world.backlog t.world.now +
        t.occurrences device program (comesLate t.world.now) ls' ≤
      BATCH_SIZE * t.occurrences device program claimsFreely ls') :
    ∀ r ∈ s.world.events, r.status = .pending → ∀ r' ∈ u.world.events, r'.id = r.id →
      r'.status = .pending → r.nextAttemptAt < r'.nextAttemptAt := by
  intro r hr hpending r' hr' hsame hpending'
  have hsoon := (h.allInReach.rows r hr).soon hpending
  have ht : t.Reach (fun _ _ => True) :=
    Runs.trans (h.mono fun _ _ _ => trivial) ((Runs.of_runWhile hrun).mono fun _ _ _ => trivial)
  have hgiven : r'.id ∈ t.world.ids := by
    rw [hsame]
    exact (Drained.of_run h hrun le_rfl).given r.id (h.allInReach.keyed.given r hr)
  have hzero : u.world.backlogOf t.world.ids t.world.now = 0 := by
    have hdrains := (Drained.of_run ht hrun' le_rfl).old_le
    omega
  have hfree := List.countP_eq_zero.mp hzero r' hr'
  have hlater : t.world.now ≤ r'.nextAttemptAt := by
    by_contra hearly
    exact hfree (by simp [overdue, hpending', not_le.mp hearly, hgiven])
  omega

theorem nothing_stuck_crashed : ∃ s u : Tasks, ∃ r ∈ s.world.events, r.status = .pending ∧
    ∀ r' ∈ u.world.events, r'.id = r.id → r'.status = .pending →
      r.nextAttemptAt < r'.nextAttemptAt := by
  have hrun : (Pool.runWhile device program (fun _ _ => true) (Pool.begin .empty) crashOne).any
      (fun s => decide (s.world.status 1 = some .pending) &&
        (s.run device program [.event (.tick (seconds 61))]).any (fun t =>
          decide (s.world.now + seconds leaseSeconds < t.world.now) &&
          (t.run device program claimLate).isSome &&
          decide (t.world.backlog t.world.now +
              t.occurrences device program (comesLate t.world.now) claimLate ≤
            BATCH_SIZE * t.occurrences device program claimsFreely claimLate))) = true := by
    decide +kernel
  obtain ⟨s, hs, hthen⟩ := Runs.exists_of_runWhile hrun
  rw [Bool.and_eq_true, decide_eq_true_eq] at hthen
  obtain ⟨r, hr, -, hstatus⟩ := World.of_status hthen.1
  cases ht : s.run device program [.event (.tick (seconds 61))] with
  | none => simp [ht] at hthen
  | some t =>
    rw [ht, Option.any_some, Bool.and_eq_true, Bool.and_eq_true, decide_eq_true_eq,
      decide_eq_true_eq] at hthen
    obtain ⟨-, ⟨hlate, hsome⟩, hclaims⟩ := hthen
    obtain ⟨u, hu⟩ := Option.isSome_iff_exists.mp hsome
    exact ⟨s, u, r, hr, hstatus, nothing_stuck hs ht hlate hu hclaims r hr hstatus⟩

end PaymentApis.WebhookWorker
