import PaymentApis.InTime

/-!
# The posts of an event

Within leases, each post of an event (each call of `fetch`) is accounted for: it
is one of the row's attempts, or delivered it, or was never written down. So an
event is posted no more than five times but for the deliveries that broke off, no
post comes before its backoff has passed, and a 2xx that could be written down is
the last word.
-/

namespace PaymentApis.WebhookWorker

open TxStore Processes

/-! ## What is stated -/

/-- The delivery has posted the event, and has not written down what came of it. -/
def Task.unwritten (id : Uuid) (n : Task) : ℕ :=
  match n.job with
  | .tick => 0
  | .deliverOne q => if q.id = id ∧ n.log.any posts = true ∧ n.log.any marks = false then 1 else 0

/-- The delivery never will: it has ended, or its lease is over. -/
def Task.brokenOff (id : Uuid) (now : ℕ) (n : Task) : ℕ :=
  match n.job with
  | .tick => 0
  | .deliverOne q =>
    if q.id = id ∧ n.log.any posts = true ∧ n.log.any marks = false ∧
      (n.live = false ∨ q.nextAttemptAt ≤ now) then 1 else 0

def Tasks.brokenOff (s : Tasks) (id : Uuid) : ℕ := s.total (Task.brokenOff id s.world.now)

def delivered (r : WebhookEventRow) : ℕ := if r.status = .delivered then 1 else 0

/-- The posts of every event are accounted for. -/
structure Accounted (s : Tasks) : Prop where
  inHand : InOneHand s
  earned : Earned s
  reach : AllInReach s
  left : ∀ r ∈ s.world.events, r.attempts + delivered r ≤ MAX_ATTEMPTS
  rows : ∀ r ∈ s.world.events,
    s.world.posted r.id = r.attempts + delivered r + s.total (Task.unwritten r.id)

theorem attempt_given {s : Tasks} (hs : Agrees s) {a : Attempt} (ha : a ∈ s.world.attempts) :
    a.outboxId ∈ s.world.ids := by
  obtain ⟨n, hn, hsent⟩ := hs.attempts a ha
  obtain ⟨q, e, hjob, -, -, hevent, -⟩ := hs.sent n hn a hsent
  rw [hevent]
  exact hs.given q (.inr (hand_claimed hn hjob))

theorem posted_eq_zero {s : Tasks} (hs : Agrees s) {id : Uuid} (h : id ∉ s.world.ids) :
    s.world.posted id = 0 := by
  unfold Outbox.posted
  rw [List.countP_eq_zero]
  intro a ha hid
  exact h (of_decide_eq_true hid ▸ attempt_given hs ha)

theorem unwritten_eq_zero {s : Tasks} (hs : Agrees s) {id : Uuid} (h : id ∉ s.world.ids) :
    s.total (Task.unwritten id) = 0 := by
  unfold Pool.total
  rw [List.sum_eq_zero]
  intro x hx
  obtain ⟨n, hn, rfl⟩ := List.mem_map.mp hx
  unfold Task.unwritten
  cases hjob : n.job with
  | tick => rfl
  | deliverOne q =>
    have hgiven := hs.given q (.inr (hand_claimed hn hjob))
    have hne : q.id ≠ id := fun hid => h (hid ▸ hgiven)
    simp [hne]

/-! ## One step -/

section Step

variable {s t : Tasks} {l : Turn}

/-- An action that writes nothing down: what is posted is still to be written. -/
theorem unwritten_act {n : Task} {st : Op} {r : Except String (Answer st)}
    {c : Option (Script Unit)} (hmay : may n.job n.log st) (hmarks : marks ⟨st, r⟩ = false)
    (id : Uuid) :
    Task.unwritten id ⟨n.job, n.log ++ [⟨st, r⟩], c⟩ =
      Task.unwritten id n + (sends ⟨st, r⟩).countP (fun a => decide (a.outboxId = id)) := by
  obtain ⟨job, log, script⟩ := n
  cases job with
  | tick =>
    cases st with
    | fetch id post => exact hmay.elim
    | _ => rfl
  | deliverOne q =>
    cases st with
    | fetch id' post =>
      obtain ⟨rfl, e, rfl, -⟩ := hmay
      cases r with
      | ok status => simp [Task.unwritten, sends, posts, marks]
      | error e => simp [Task.unwritten, sends, posts, marks]
    | _ =>
      have hposts : posts (⟨_, r⟩ : Done) = false := rfl
      simp [Task.unwritten, hmarks, hposts, sends]

/-- The row of an action that writes nothing down. -/
theorem rows_act {st : Op} {o : Outcome} {w : Outbox} {r : Except String (Answer st)}
    (hacts : Outbox.act st o s.world = some (r, w)) (hmarks : marks ⟨st, r⟩ = false)
    {row : WebhookEventRow} (hrow : row ∈ w.events) :
    ∃ row' ∈ s.world.events, row'.id = row.id ∧ row'.attempts = row.attempts ∧
      row'.status = row.status := by
  have hkept : row ∈ s.world.events → ∃ row' ∈ s.world.events, row'.id = row.id ∧
      row'.attempts = row.attempts ∧ row'.status = row.status :=
    fun h => ⟨row, h, rfl, rfl, rfl⟩
  cases st with
  | eventClaimDue limit lease =>
    rcases statement_cases hacts with ⟨locked, -, -, rfl⟩ | ⟨e, -, rfl⟩
    · rcases mem_updateWhere hrow with hold | ⟨row', hrow', -, rfl⟩
      · exact hkept hold
      · exact ⟨row', hrow', rfl, rfl, rfl⟩
    · exact hkept hrow
  | deliverAll events =>
    cases o with
    | done locked =>
      obtain ⟨-, rfl⟩ := Prod.mk.inj (Option.some.inj hacts)
      exact hkept hrow
    | failed message => cases hacts
    | status n => cases hacts
  | fetch id post =>
    cases o with
    | done locked => cases hacts
    | failed message =>
      obtain ⟨-, rfl⟩ := Prod.mk.inj (Option.some.inj hacts)
      exact hkept hrow
    | status n =>
      obtain ⟨-, rfl⟩ := Prod.mk.inj (Option.some.inj hacts)
      exact hkept hrow
  | endpointFindById id =>
    rcases statement_cases hacts with ⟨locked, -, -, rfl⟩ | ⟨e, -, rfl⟩
    · exact hkept hrow
    · exact hkept hrow
  | _ =>
    rcases statement_cases hacts with ⟨locked, -, rfl, -⟩ | ⟨e, -, rfl⟩
    · cases hmarks
    · exact hkept hrow

/-- The rows after an outcome has been written down. -/
theorem marks_act {q : WebhookEventRow} {log : List Done} {st : Op} {o : Outcome}
    {r : Except String (Answer st)} {w : Outbox} (hmay : deliverMay q log st)
    (hacts : Outbox.act st o s.world = some (r, w)) (hmarks : marks ⟨st, r⟩ = true)
    (hcurrent : ∀ row ∈ s.world.events, row.id = q.id → row = q) (hpending : q.status = .pending)
    {row : WebhookEventRow} (hrow : row ∈ w.events) :
    (row ∈ s.world.events ∧ row.id ≠ q.id) ∨
      (q ∈ s.world.events ∧ row.id = q.id ∧ row.attempts + delivered row = q.attempts + 1) := by
  have hmap : ∀ {g : WebhookEventRow → WebhookEventRow},
      row ∈ s.world.events.map (fun x => if decide (x.id = q.id) then g x else x) →
      (∀ x, (g x).id = x.id) → (g q).attempts + delivered (g q) = q.attempts + 1 →
      (row ∈ s.world.events ∧ row.id ≠ q.id) ∨
        (q ∈ s.world.events ∧ row.id = q.id ∧ row.attempts + delivered row = q.attempts + 1) := by
    intro g hmem hg hsum
    obtain ⟨x, hx, rfl⟩ := List.mem_map.mp hmem
    by_cases hid : x.id = q.id
    · obtain rfl := hcurrent x hx hid
      rw [if_pos (by simp)]
      exact .inr ⟨hx, hg x, hsum⟩
    · rw [if_neg (by simpa using hid)]
      exact .inl ⟨hx, hid⟩
  cases st with
  | eventMarkDelivered id =>
    obtain ⟨rfl, -⟩ := hmay
    rcases statement_cases hacts with ⟨locked, -, -, rfl⟩ | ⟨e, rfl, -⟩
    · exact hmap hrow (fun _ => rfl) (by simp [delivered])
    · cases hmarks
  | eventMarkRetry id n backoff error =>
    obtain ⟨rfl, rfl, -⟩ := hmay
    rcases statement_cases hacts with ⟨locked, -, -, rfl⟩ | ⟨e, rfl, -⟩
    · exact hmap hrow (fun _ => rfl) (by simp [delivered, hpending])
    · cases hmarks
  | eventMarkFailed id n error =>
    obtain ⟨rfl, rfl, -⟩ := hmay
    rcases statement_cases hacts with ⟨locked, -, -, rfl⟩ | ⟨e, rfl, -⟩
    · exact hmap hrow (fun _ => rfl) (by simp [delivered])
    · cases hmarks
  | _ => simp [marks] at hmarks

/-- Writing the outcome of a post down. -/
theorem unwritten_marks {q : WebhookEventRow} {log : List Done} {st : Op}
    {r : Except String (Answer st)} (hmay : deliverMay q log st) (hmarks : marks ⟨st, r⟩ = true)
    (c c' : Option (Script Unit)) (id : Uuid) :
    Task.unwritten id ⟨.deliverOne q, log ++ [⟨st, r⟩], c'⟩ = 0 ∧ sends ⟨st, r⟩ = [] ∧
      (q.id ≠ id → Task.unwritten id ⟨.deliverOne q, log, c⟩ = 0) ∧
      (log.any misses = false → Task.unwritten q.id ⟨.deliverOne q, log, c⟩ = 1) := by
  have hpost : ∀ {log : List Done}, log.any answers = true → log.any posts = true := by
    intro log h
    obtain ⟨d, hd, hanswers⟩ := List.any_eq_true.mp h
    refine List.any_eq_true.mpr ⟨d, hd, ?_⟩
    obtain ⟨st, r⟩ := d
    cases st with
    | fetch id post => rfl
    | _ => cases hanswers
  have hlog : sends ⟨st, r⟩ = [] ∧ log.any marks = false ∧
      (log.any misses = false → log.any posts = true) := by
    cases st with
    | eventMarkDelivered id => exact ⟨rfl, hmay.2.2, fun _ => hpost hmay.2.1⟩
    | eventMarkRetry id n backoff e =>
      obtain ⟨-, -, -, -, hposted, -, hunmarked⟩ := hmay
      exact ⟨rfl, hunmarked, fun _ => hposted⟩
    | eventMarkFailed id n e =>
      obtain ⟨-, -, hwhy, -, hunmarked⟩ := hmay
      refine ⟨rfl, hunmarked, ?_⟩
      intro hfound
      rcases hwhy with hmiss | ⟨-, hposted⟩
      · rw [hfound] at hmiss
        cases hmiss
      · exact hposted
    | _ => simp [marks] at hmarks
  obtain ⟨hsends, hunmarked, hposted⟩ := hlog
  refine ⟨?_, hsends, ?_, ?_⟩
  · simp [Task.unwritten, hmarks]
  · intro hne
    simp [Task.unwritten, hne]
  · intro hfound
    simp only [Task.unwritten]
    rw [if_pos ⟨trivial, hposted hfound, hunmarked⟩]

theorem Accounted.run (hs : Accounted s) {i : ℕ} {o : Outcome} {n : Task} {st : Op}
    {k : Except String (Answer st) → Script Unit} {r : Except String (Answer st)} {w : Outbox}
    (here : s.nodes[i]? = some n) (script : n.script = some (.query st k))
    (hmay : may n.job n.log st) (hacts : Outbox.act st o s.world = some (r, w))
    (hin : InTime s (.run i o) = true) :
    ∀ row ∈ w.events, w.posted row.id = row.attempts + delivered row +
      Pool.total (Task.unwritten row.id)
        ⟨w, s.nodes.set i ⟨n.job, n.log ++ [⟨st, r⟩], some (k r)⟩⟩ := by
  intro row hrow
  have htotal := Pool.total_set (f := Task.unwritten row.id) here w
    ⟨n.job, n.log ++ [⟨st, r⟩], some (k r)⟩
  have hposted : w.posted row.id = s.world.posted row.id +
      (sends ⟨st, r⟩).countP (fun a => decide (a.outboxId = row.id)) := by
    unfold Outbox.posted
    rw [(Frame.of_act hacts).attempts, List.countP_append]
  cases hmarks : marks ⟨st, r⟩ with
  | false =>
    obtain ⟨row', hrow', hid, hattempts, hstatus⟩ := rows_act hacts hmarks hrow
    have hbefore := hs.rows row' hrow'
    have hunwritten := unwritten_act (c := some (k r)) hmay hmarks row.id
    have hdelivered : delivered row' = delivered row := by
      unfold delivered
      rw [hstatus]
    rw [hid, hattempts, hdelivered] at hbefore
    omega
  | true =>
    obtain ⟨job, log, c⟩ := n
    cases job with
    | tick =>
      cases st with
      | eventClaimDue limit lease => cases hmarks
      | deliverAll events => cases hmarks
      | _ => exact hmay.elim
    | deliverOne q =>
      have hn := List.mem_of_getElem? here
      have htime : s.world.now < q.nextAttemptAt := by simpa [InTime, here] using hin
      have hholds : s.Holds q := by
        refine .inr ⟨_, hn, ?_⟩
        rw [(holds_marks hmay hmarks c none).1]
        exact List.mem_singleton_self q
      obtain ⟨hafter, hsends, hother, hown⟩ :=
        unwritten_marks hmay hmarks c (some (k r)) row.id
      rw [hsends, List.countP_nil, Nat.add_zero] at hposted
      simp only at htotal ⊢
      rcases marks_act hmay hacts hmarks (hs.inHand.current q hholds htime)
        (hs.inHand.pending q hholds.claimed) hrow with ⟨hold, hne⟩ | ⟨hq, hid, hsum⟩
      · have hbefore := hs.rows row hold
        rw [hafter, hother (Ne.symm hne)] at htotal
        omega
      · have hfound : log.any misses = false := by
          cases hmiss : log.any misses with
          | false => rfl
          | true => exact absurd rfl (hs.earned.gone _ hn q rfl hmiss q hq)
        have hbefore := hs.rows q hq
        have hnone : delivered q = 0 := by
          rw [delivered, if_neg]
          rw [hs.inHand.pending q hholds.claimed]
          simp
        rw [hid] at hposted htotal hafter ⊢
        rw [hafter, hown hfound] at htotal
        omega

theorem Accounted.rows_move (hs : Accounted s) (h : Move discipline s l t)
    (hin : InTime s l = true) : ∀ row ∈ t.world.events,
      t.world.posted row.id = row.attempts + delivered row + t.total (Task.unwritten row.id) := by
  cases h with
  | start born =>
    rename_i j w c
    have hnew : ∀ id, Task.unwritten id ⟨j, [], some c⟩ = 0 := by
      intro id
      cases j <;> simp [Task.unwritten]
    intro row hrow
    rw [Pool.total_append, hnew, Nat.add_zero]
    rcases birth_cases born with ⟨-, rfl⟩ | ⟨event, -, -, rfl⟩
    · exact hs.rows row hrow
    · exact hs.rows row hrow
  | run here script knows may acts => exact hs.run here script may acts hin
  | crash here live =>
    rename_i i n
    intro row hrow
    have htotal := Pool.total_set (f := Task.unwritten row.id) here s.world
      { n with script := none }
    have hsame : Task.unwritten row.id { n with script := none } = Task.unwritten row.id n := rfl
    have hbefore := hs.rows row hrow
    simp only [hsame] at htotal
    exact hbefore.trans (congrArg _ (Nat.add_right_cancel htotal).symm)
  | event happens =>
    cases Happens.of_event happens with
    | tick n eq =>
      subst eq
      exact hs.rows
    | enqueue id endpointId type payload since e active begun fresh eq =>
      subst eq
      intro row hrow
      rcases List.mem_append.mp hrow with hold | hnew
      · exact hs.rows row hold
      · obtain rfl := List.mem_singleton.mp hnew
        have hposted := posted_eq_zero hs.inHand.agrees fresh
        have htotal := unwritten_eq_zero hs.inHand.agrees fresh
        show s.world.posted id = 0 + 0 + s.total (Task.unwritten id)
        rw [hposted, htotal]
    | register row fresh eq =>
      subst eq
      exact hs.rows
    | deleteEndpoint id eq =>
      subst eq
      exact fun row hrow => hs.rows row (List.mem_of_mem_filter hrow)

theorem Accounted.left_move (hs : Accounted s) (h : Move discipline s l t)
    (hin : InTime s l = true) : ∀ row ∈ t.world.events,
      row.attempts + delivered row ≤ MAX_ATTEMPTS := by
  intro row hrow
  cases Origin.of_move hs.reach.keyed h hrow with
  | kept old => exact hs.left row old
  | enqueued fresh begun => exact Nat.zero_le _
  | claimed old pending due =>
    have hleft := hs.left _ old
    exact hleft
  | delivered turn old same =>
    obtain rfl := turn.current hs.inHand hin rfl _ old same
    have hclaimed := hs.reach.claimed _ turn.claimed
    simp only [delivered, if_true]
    exact hclaimed
  | retried turn old same =>
    obtain rfl := turn.current hs.inHand hin rfl _ old same
    have hpending := hs.inHand.pending _ turn.claimed
    obtain ⟨-, rfl, hlast, -⟩ := turn.may
    simp only [delivered, hpending, reduceCtorEq, if_false]
    exact hlast.le
  | failed turn old same =>
    obtain rfl := turn.current hs.inHand hin rfl _ old same
    have hclaimed := hs.reach.claimed _ turn.claimed
    obtain ⟨-, rfl, -⟩ := turn.may
    simp only [delivered, reduceCtorEq, if_false]
    exact hclaimed

theorem Accounted.move (hs : Accounted s) (h : Move discipline s l t)
    (hin : InTime s l = true) : Accounted t where
  inHand := hs.inHand.move h hin
  earned := hs.earned.move h
  reach := hs.reach.move h
  left := hs.left_move h hin
  rows := hs.rows_move h hin

end Step

theorem Tasks.Reach.accounted {s : Tasks} (h : s.Reach (fun s l => InTime s l = true)) :
    Accounted s := by
  refine Runs.invariant (K := discipline) (I := Accounted) (fun hi hmove hin => hi.move hmove hin)
    (Discipline.follows_begin discipline .empty) h ?_
  have hbegin : Tasks.Reach (fun s l => InTime s l = true) (Pool.begin .empty) := .refl _
  refine ⟨hbegin.inOneHand, hbegin.earned, hbegin.allInReach, ?_, ?_⟩
  · exact fun r hr => by cases hr
  · exact fun r hr => by cases hr

/-- A post that is not written down: its delivery broke off, or is at work. -/
theorem unwritten_le (id : Uuid) (now : ℕ) (n : Task) :
    Task.unwritten id n ≤ Task.brokenOff id now n + (Task.holds n).countP (leased id now) := by
  obtain ⟨job, log, script⟩ := n
  cases job with
  | tick => exact Nat.zero_le _
  | deliverOne q =>
    by_cases hpost : q.id = id ∧ log.any posts = true ∧ log.any marks = false
    · by_cases hover : Member.live (⟨.deliverOne q, log, script⟩ : Task) = false ∨
        q.nextAttemptAt ≤ now
      · simp [Task.unwritten, Task.brokenOff, hpost.1, hpost.2.1, hpost.2.2, hover]
      · rw [not_or, not_le] at hover
        have hleased : leased id now q = true := leased_iff.mpr ⟨hpost.1, hover.2⟩
        have hholds : Task.holds ⟨.deliverOne q, log, script⟩ = [q] := by
          simp [Task.holds, hpost.2.2]
        rw [hholds, List.countP_singleton, if_pos hleased]
        simp only [Task.unwritten]
        split <;> omega
    · simp only [Task.unwritten]
      rw [if_neg hpost]
      exact Nat.zero_le _

/-- An event is posted at most five times, and once more for each delivery that
has posted it and broke off before it wrote the outcome down. -/
theorem posts_bounded {s : Tasks} (h : s.Reach (fun s l => InTime s l = true))
    {r : WebhookEventRow} (hr : r ∈ s.world.events) :
    s.world.posted r.id ≤ MAX_ATTEMPTS + s.brokenOff r.id := by
  have hs := h.accounted
  have hrows := hs.rows r hr
  have hsum : s.total (Task.unwritten r.id) ≤ s.brokenOff r.id + s.hands r.id := by
    have hle : s.total (Task.unwritten r.id) ≤ s.brokenOff r.id +
        s.total (fun n => (Task.holds n).countP (leased r.id s.world.now)) := by
      unfold Tasks.brokenOff Pool.total
      rw [← List.sum_map_add]
      exact List.sum_le_sum (fun n _ => unwritten_le r.id s.world.now n)
    exact hle.trans (Nat.add_le_add_left (Nat.le_add_left _ _) _)
  have hone := hs.inHand.one r.id
  rcases Nat.eq_zero_or_pos (s.hands r.id) with hzero | hpos
  · have hleft := hs.left r hr
    omega
  · -- The event is in a hand: its row is still pending.
    have hheld : ¬ ∀ q, s.Holds q → q.id = r.id → q.nextAttemptAt ≤ s.world.now :=
      fun hall => hpos.ne' (Tasks.hands_eq_zero.mpr hall)
    push Not at hheld
    obtain ⟨q, hq, hid, hlease⟩ := hheld
    obtain rfl := hs.inHand.current q hq hlease r hr hid.symm
    have hpending := hs.inHand.pending r hq.claimed
    have hclaimed := hs.reach.claimed r hq.claimed
    have hnone : delivered r = 0 := by simp [delivered, hpending]
    omega

/-- A worker crashes between the post and what it was to write down. -/
def breakOff : List Turn :=
  enqueueOne ++ round 0 0 0 none 500 ++ [.crash 1, .event (.tick (seconds 60))] ++
    round 1 0 (seconds 60) none 200 ++ record 1 0

theorem posts_bounded_crashed : ∃ s : Tasks, ∃ r ∈ s.world.events, s.world.posted r.id = 2 ∧
    s.world.posted r.id ≤ MAX_ATTEMPTS + s.brokenOff r.id := by
  have hrun : (Pool.runWhile device program InTime (Pool.begin .empty) breakOff).any
      (fun s => decide (s.world.status 1 = some .delivered) && decide (s.world.posted 1 = 2)) =
        true := by decide +kernel
  obtain ⟨s, hs, hthen⟩ := Runs.exists_of_runWhile hrun
  rw [Bool.and_eq_true, decide_eq_true_eq, decide_eq_true_eq] at hthen
  obtain ⟨r, hr, hid, -⟩ := World.of_status hthen.1
  exact ⟨s, r, hr, hid ▸ hthen.2, posts_bounded hs hr⟩

/-! ## No post before its time -/

section Step

variable {s t : Tasks} {l : Turn}

/-- An event in no hand is not posted. -/
theorem posted_free (h : Move discipline s l t) (hin : InTime s l = true) {id : Uuid}
    (hfree : s.hands id = 0) : t.world.posted id = s.world.posted id := by
  cases h with
  | start born =>
    rcases birth_cases born with ⟨rfl, rfl⟩ | ⟨event, hmem, rfl, rfl⟩
    · rfl
    · rfl
  | run here script knows may acts =>
    rename_i i o n st k r w
    have hnone : (sends ⟨st, r⟩).countP (fun a => decide (a.outboxId = id)) = 0 := by
      rw [List.countP_eq_zero]
      intro a ha hid
      obtain ⟨job, log, c⟩ := n
      cases job with
      | tick =>
        cases st with
        | fetch id post => exact may.elim
        | _ => cases ha
      | deliverOne q =>
        have hsent : log.any marks = false ∧ a.outboxId = q.id := by
          refine ⟨?_, (sends_act may ha).1⟩
          cases st with
          | fetch id post =>
            obtain ⟨-, e, rfl, -⟩ := may
            rfl
          | _ => cases ha
        have htime : s.world.now < q.nextAttemptAt := by simpa [InTime, here] using hin
        have hholds : s.Holds q := .inr ⟨_, List.mem_of_getElem? here, by
          simp [Task.holds, hsent.1]⟩
        have hlate := Tasks.hands_eq_zero.mp hfree q hholds
          (hsent.2.symm.trans (of_decide_eq_true hid))
        exact absurd hlate (not_le.mpr htime)
    show w.posted id = s.world.posted id
    unfold Outbox.posted
    rw [(Frame.of_act acts).attempts, List.countP_append, hnone, Nat.add_zero]
  | crash => rfl
  | event happens =>
    unfold Outbox.posted
    rw [(Happens.of_event happens).frame.2.1]

/-- The event is in no hand, and not due before `d`. -/
structure Resting (id : Uuid) (d : ℕ) (s : Tasks) : Prop where
  inHand : InOneHand s
  given : id ∈ s.world.ids
  free : s.hands id = 0
  later : ∀ r ∈ s.world.events, r.id = id → d ≤ r.nextAttemptAt

theorem Resting.move {id : Uuid} {d : ℕ} (hs : Resting id d s) (h : Move discipline s l t)
    (hin : InTime s l = true) (hd : s.world.now < d) : Resting id d t where
  inHand := hs.inHand.move h hin
  given := ids_mono h hs.given
  free := by
    rw [Tasks.hands_eq_zero]
    intro q hq hid
    rcases Holds.of_move hs.inHand.agrees.keyed h hq with hold | ⟨-, row, hrow, hsame, -, hdue⟩
    · exact (Tasks.hands_eq_zero.mp hs.free q hold hid).trans (now_mono h)
    · have hlater := hs.later row hrow (hsame.trans hid)
      omega
  later := by
    intro r hr hid
    have hwritten : ∀ {q log st}, At s l q log st → Op.marks st = true → q.id ≠ id := by
      intro q log st hat hst hsame
      obtain ⟨hholds, htime⟩ := hat.holds hin hst
      exact absurd (Tasks.hands_eq_zero.mp hs.free q hholds hsame) (not_le.mpr htime)
    cases Origin.of_move hs.inHand.agrees.keyed h hr with
    | kept old => exact hs.later r old hid
    | enqueued fresh begun =>
      have hgiven := hs.given
      rw [← hid] at hgiven
      exact absurd hgiven fresh
    | claimed old pending due =>
      have hlater := hs.later _ old hid
      omega
    | delivered turn old same => exact absurd (same.symm.trans hid) (hwritten turn rfl)
    | retried turn old same => exact absurd (same.symm.trans hid) (hwritten turn rfl)
    | failed turn old same => exact absurd (same.symm.trans hid) (hwritten turn rfl)

end Step

/-- An event in no hand is not posted before it is due. -/
theorem Resting.runs {s t : Tasks} {id : Uuid} {d : ℕ} (hs : Resting id d s)
    (hf : discipline.Follows s) (h : Runs device program (fun s l => InTime s l = true) s t)
    (hd : t.world.now < d) : Resting id d t ∧ t.world.posted id = s.world.posted id := by
  induction h with
  | refl => exact ⟨hs, rfl⟩
  | tail hrun hstep hin ih =>
    have hmove := ((hf.runs hrun).step hstep).1
    have hbefore := (now_mono hmove).trans_lt hd
    obtain ⟨hrest, hposted⟩ := ih hbefore
    exact ⟨hrest.move hmove hin hbefore, (posted_free hmove hin hrest.free).trans hposted⟩

/-- After a failed attempt has been written down, the event is not posted again
before the backoff of that attempt has passed. -/
theorem retry_waits {s s' t : Tasks} (h : s.Reach (fun s l => InTime s l = true)) {i : ℕ}
    {locked : List Uuid} (hstep : s.step device program (.run i (.done locked)) = some s')
    (hin : InTime s (.run i (.done locked)) = true) {id : Uuid} {n backoff : ℕ} {error : String}
    (hnext : (s.nodes[i]?).bind Member.next = some (.eventMarkRetry id n backoff error))
    (hrun : Runs device program (fun s l => InTime s l = true) s' t)
    (hearly : t.world.now < s.world.now + seconds (backoffSeconds n)) :
    t.world.posted id = s.world.posted id := by
  obtain ⟨hmove, hfollows⟩ := h.follows.step hstep
  have hs := h.inOneHand
  have hkept := hmove
  cases hmove with
  | run here script knows may acts =>
    rename_i m st k r w
    have hthis : m.next = some st := by rw [Member.next, script]
    rw [here, Option.bind_some, hthis, Option.some.injEq] at hnext
    subst hnext
    obtain ⟨job, log, c⟩ := m
    cases job with
    | tick => exact may.elim
    | deliverOne q =>
      have hat : At s (.run i (.done locked)) q log (.eventMarkRetry id n backoff error) :=
        ⟨⟨i, locked, c, rfl, here, hthis⟩, may⟩
      obtain ⟨rfl, rfl, -, rfl, -⟩ := may
      have hacts : Outbox.act (.eventMarkRetry q.id (q.attempts + 1)
          (backoffSeconds (q.attempts + 1)) error) (.done locked) s.world = some (r, w) := acts
      have hsame : w.posted q.id = s.world.posted q.id := by
        unfold Outbox.posted
        rw [(Frame.of_act hacts).attempts]
        simp [sends]
      rw [← hsame]
      refine (Resting.runs ⟨hs.move hkept hin, ?_, hat.freed hs hkept hin rfl, ?_⟩ hfollows hrun
        hearly).2
      · exact ids_mono hkept (hs.agrees.given q (.inr hat.claimed))
      · intro row hrow hid
        obtain ⟨-, rfl⟩ := Prod.mk.inj (Option.some.inj acts)
        obtain ⟨row', -, rfl⟩ := List.mem_map.mp hrow
        by_cases hown : row'.id = q.id
        · simp [hown]
        · simp only [hown, decide_false, Bool.false_eq_true, if_false] at hid

theorem retry_waits_once : ∃ s t : Tasks, s.world.now < t.world.now ∧
    t.world.posted 1 = s.world.posted 1 := by
  have hrun : (Pool.runWhile device program InTime (Pool.begin .empty)
      (enqueueOne ++ round 0 0 0 none 500)).any (fun s =>
        decide ((s.nodes[1]?).bind Member.next =
          some (.eventMarkRetry 1 1 5 "non-2xx response: 500")) &&
        InTime s (.run 1 (.done [])) &&
        (s.step device program (.run 1 (.done []))).any (fun s' =>
          (s'.runWhile device program InTime [.event (.tick (seconds 4)), .start .tick,
            .run 2 (.done [])]).any (fun t => decide (s.world.now < t.world.now ∧
              t.world.now < s.world.now + seconds (backoffSeconds 1))))) = true := by
    decide +kernel
  obtain ⟨s, hs, hthen⟩ := Runs.exists_of_runWhile hrun
  simp only [Bool.and_eq_true, decide_eq_true_eq] at hthen
  obtain ⟨⟨hnext, hin⟩, hany⟩ := hthen
  cases hstep : s.step device program (.run 1 (.done [])) with
  | none => simp [hstep] at hany
  | some s' =>
    rw [hstep, Option.any_some] at hany
    obtain ⟨t, ht, hearly⟩ := Runs.exists_of_runWhile hany
    rw [decide_eq_true_eq] at hearly
    exact ⟨s, t, hearly.1, retry_waits hs hstep hin hnext ht hearly.2⟩

/-! ## The last word -/

/-- The endpoint has answered with a 2xx, and that is not written down. -/
def Task.heard (n : Task) : Bool := n.log.any answers && !n.log.any marks

/-- A 2xx gets written down: its statement does not fail, its worker does not
crash before, and its lease does not run out. -/
def Recorded (s : Tasks) (l : Turn) : Bool :=
  InTime s l &&
  match l with
  | .run i (.failed _) =>
    match (s.nodes[i]?).bind Member.next with
    | some (.eventMarkDelivered _) => false
    | _ => true
  | .crash i => s.nodes[i]?.all (fun n => !Task.heard n)
  | .event (.tick k) => s.nodes.all (fun n =>
      match n.job with
      | .tick => true
      | .deliverOne q => !Task.heard n || decide (s.world.now + k < q.nextAttemptAt))
  | _ => true

theorem Recorded.inTime {s : Tasks} {l : Turn} (h : Recorded s l = true) : InTime s l = true := by
  unfold Recorded at h
  exact (Bool.and_eq_true_iff.mp h).1

/-- The event has been answered with a 2xx: the delivery is about to write it
down, or it is written down and nobody has the event. -/
def Answered (s : Tasks) (id : Uuid) : Prop :=
  (∃ n ∈ s.nodes, ∃ q, n.job = .deliverOne q ∧ q.id = id ∧ Task.heard n = true ∧
    s.world.now < q.nextAttemptAt) ∨
  (s.hands id = 0 ∧ ∀ r ∈ s.world.events, r.id = id → r.status = .delivered)

def Attempt.isOk (a : Attempt) : Bool := a.status.any PaymentApis.isOk

structure LastWord (s : Tasks) : Prop where
  inHand : InOneHand s
  tidy : ∀ n ∈ s.nodes, n.log.any slips = false
  answered : ∀ a ∈ s.world.attempts, Attempt.isOk a = true → Answered s a.outboxId
  last : s.world.attempts.Pairwise (fun a b => Attempt.isOk a = true → b.outboxId ≠ a.outboxId)

section Step

variable {s t : Tasks} {l : Turn}

theorem LastWord.tidy_move (hs : LastWord s) (h : Move discipline s l t)
    (hok : Recorded s l = true) : ∀ m ∈ t.nodes, m.log.any slips = false := by
  intro m hm
  cases h with
  | run here script knows may acts =>
    rename_i i o n st k r w
    rcases List.mem_or_eq_of_mem_set hm with hm | rfl
    · exact hs.tidy m hm
    · have hbefore := hs.tidy n (List.mem_of_getElem? here)
      have hthis : n.next = some st := by rw [Member.next, script]
      have hclean : slips ⟨st, r⟩ = false := by
        cases st with
        | eventMarkDelivered id =>
          rcases statement_cases acts with ⟨locked, -, rfl, -⟩ | ⟨e, rfl, -⟩
          · rfl
          · cases o with
            | done locked => cases acts
            | failed message => simp [Recorded, here, hthis] at hok
            | status n => cases acts
        | _ => rfl
      simp [hbefore, hclean]
  | start born =>
    rcases List.mem_append.mp hm with hm | hm
    · exact hs.tidy m hm
    · obtain rfl := List.mem_singleton.mp hm
      rfl
  | crash here live =>
    rename_i i n
    rcases List.mem_or_eq_of_mem_set hm with hm | rfl
    · exact hs.tidy m hm
    · exact hs.tidy n (List.mem_of_getElem? here)
  | event happens => exact hs.tidy m hm

/-- The next action of a delivery that has been answered. -/
theorem heard_next {q : WebhookEventRow} {log : List Done} {st : Op} {c : Option (Script Unit)}
    (hmay : deliverMay q log st) (htidy : log.any slips = false)
    (hheard : Task.heard ⟨.deliverOne q, log, c⟩ = true) : st = .eventMarkDelivered q.id := by
  rw [Task.heard, Bool.and_eq_true] at hheard
  have hanswers := hheard.1
  simp only at hanswers
  cases st with
  | endpointFindById id =>
    obtain ⟨-, rfl⟩ := hmay
    cases hanswers
  | fetch id post =>
    obtain ⟨-, e, rfl, -⟩ := hmay
    cases hanswers
  | eventMarkDelivered id => rw [hmay.1]
  | eventMarkRetry id n backoff e =>
    obtain ⟨-, -, -, -, -, hslips, -⟩ := hmay
    rw [hslips hanswers] at htidy
    cases htidy
  | eventMarkFailed id n e =>
    obtain ⟨-, -, -, hslips, -⟩ := hmay
    rw [hslips hanswers] at htidy
    cases htidy
  | _ => exact hmay.elim

/-- What is delivered and in no hand remains so. -/
theorem delivered_move (hs : LastWord s) (h : Move discipline s l t) (hin : InTime s l = true)
    {id : Uuid} (hgiven : id ∈ s.world.ids) (hfree : s.hands id = 0)
    (hrows : ∀ r ∈ s.world.events, r.id = id → r.status = .delivered) :
    t.hands id = 0 ∧ ∀ r ∈ t.world.events, r.id = id → r.status = .delivered := by
  constructor
  · rw [Tasks.hands_eq_zero]
    intro q hq hid
    rcases Holds.of_move hs.inHand.agrees.keyed h hq with hold |
      ⟨-, row, hrow, hsame, hpending, -⟩
    · exact (Tasks.hands_eq_zero.mp hfree q hold hid).trans (now_mono h)
    · rw [hrows row hrow (hsame.trans hid)] at hpending
      cases hpending
  · intro r hr hid
    have hwritten : ∀ {q log st}, At s l q log st → Op.marks st = true → q.id ≠ id := by
      intro q log st hat hst hsame
      obtain ⟨hholds, htime⟩ := hat.holds hin hst
      exact absurd (Tasks.hands_eq_zero.mp hfree q hholds hsame) (not_le.mpr htime)
    cases Origin.of_move hs.inHand.agrees.keyed h hr with
    | kept old => exact hrows r old hid
    | enqueued fresh begun =>
      rw [← hid] at hgiven
      exact absurd hgiven fresh
    | claimed old pending due =>
      rw [hrows _ old hid] at pending
      cases pending
    | delivered turn old same => rfl
    | retried turn old same => exact absurd (same.symm.trans hid) (hwritten turn rfl)
    | failed turn old same => exact absurd (same.symm.trans hid) (hwritten turn rfl)

/-- The 2xx is written down. -/
theorem delivered_run (hs : LastWord s) {i : ℕ} {o : Outcome} {n : Task} {st : Op}
    {k : Except String (Answer st) → Script Unit} {r : Except String (Answer st)} {w : Outbox}
    {q : WebhookEventRow} (here : s.nodes[i]? = some n) (script : n.script = some (.query st k))
    (hmay : may n.job n.log st) (hacts : Outbox.act st o s.world = some (r, w))
    (hjob : n.job = .deliverOne q) (hheard : Task.heard n = true)
    (hok : Recorded s (.run i o) = true) :
    Tasks.hands ⟨w, s.nodes.set i ⟨n.job, n.log ++ [⟨st, r⟩], some (k r)⟩⟩ q.id = 0 ∧
      ∀ row ∈ w.events, row.id = q.id → row.status = .delivered := by
  have hthis : n.next = some st := by rw [Member.next, script]
  obtain ⟨job, log, c⟩ := n
  simp only at hjob
  subst hjob
  obtain rfl := heard_next hmay (hs.tidy _ (List.mem_of_getElem? here)) hheard
  cases o with
  | done locked =>
    have hat : At s (.run i (.done locked)) q log (.eventMarkDelivered q.id) :=
      ⟨⟨i, locked, c, rfl, here, hthis⟩, hmay⟩
    have hmove : Move discipline s (.run i (.done locked)) ⟨w, s.nodes.set i ⟨.deliverOne q,
        log ++ [⟨.eventMarkDelivered q.id, r⟩], some (k r)⟩⟩ := .run here script trivial hmay hacts
    refine ⟨hat.freed hs.inHand hmove (Recorded.inTime hok) rfl, ?_⟩
    intro row hrow hid
    obtain ⟨-, rfl⟩ := Prod.mk.inj (Option.some.inj hacts)
    obtain ⟨row', -, rfl⟩ := List.mem_map.mp hrow
    by_cases hown : row'.id = q.id
    · simp [hown]
    · simp only [hown, decide_false, Bool.false_eq_true, if_false] at hid
  | failed message => simp [Recorded, here, hthis] at hok
  | status n => cases hacts

theorem Answered.move (hs : LastWord s) (h : Move discipline s l t) (hok : Recorded s l = true)
    {id : Uuid} (hgiven : id ∈ s.world.ids) (ha : Answered s id) : Answered t id := by
  have hin := Recorded.inTime hok
  rcases ha with ⟨n, hn, q, hjob, rfl, hheard, hlease⟩ | ⟨hfree, hrows⟩
  · obtain ⟨j, hj, rfl⟩ := List.getElem_of_mem hn
    have hget := List.getElem?_eq_getElem hj
    have hother : ∀ {i : ℕ} {m : Task}, i ≠ j → s.nodes[j] ∈ s.nodes.set i m := by
      intro i m hne
      rw [List.mem_iff_getElem?]
      exact ⟨j, by rw [List.getElem?_set_ne hne, hget]⟩
    cases h with
    | start born =>
      left
      refine ⟨s.nodes[j], List.mem_append_left _ hn, q, hjob, rfl, hheard, ?_⟩
      rcases birth_cases born with ⟨rfl, rfl⟩ | ⟨event, -, rfl, rfl⟩
      · exact hlease
      · exact hlease
    | run here script knows may acts =>
      rename_i i o n st k r w
      by_cases hij : i = j
      · subst hij
        obtain rfl := Option.some.inj (hget.symm.trans here)
        exact .inr (delivered_run hs here script may acts hjob hheard hok)
      · left
        refine ⟨s.nodes[j], hother hij, q, hjob, rfl, hheard, ?_⟩
        exact (Frame.of_act acts).now ▸ hlease
    | crash here live =>
      rename_i i n
      by_cases hij : i = j
      · subst hij
        obtain rfl := Option.some.inj (hget.symm.trans here)
        simp [Recorded, here, hheard] at hok
      · exact .inl ⟨s.nodes[j], hother hij, q, hjob, rfl, hheard, hlease⟩
    | event happens =>
      left
      refine ⟨s.nodes[j], hn, q, hjob, rfl, hheard, ?_⟩
      cases Happens.of_event happens with
      | tick k eq =>
        subst eq
        have hall := (Bool.and_eq_true_iff.mp hok).2
        simp only [List.all_eq_true] at hall
        have hlate := hall _ hn
        simpa [hjob, hheard] using hlate
      | enqueue id endpointId type payload since e active begun fresh eq =>
        subst eq
        exact hlease
      | register row fresh eq =>
        subst eq
        exact hlease
      | deleteEndpoint id eq =>
        subst eq
        exact hlease
  · exact .inr (delivered_move hs h hin hgiven hfree hrows)

/-- The delivery that sends a request holds its row, and has no answer yet. -/
theorem sends_held {n : Task} {st : Op} {r : Except String (Answer st)} (hn : n ∈ s.nodes)
    (hmay : may n.job n.log st) {a : Attempt} (ha : a ∈ sends ⟨st, r⟩) :
    ∃ q, n.job = .deliverOne q ∧ a.outboxId = q.id ∧ s.Holds q ∧ n.log.any answers = false ∧
      n.log.any marks = false ∧ answers ⟨st, r⟩ = Attempt.isOk a ∧ marks ⟨st, r⟩ = false := by
  obtain ⟨job, log, c⟩ := n
  cases job with
  | tick =>
    cases st with
    | fetch id post => exact hmay.elim
    | _ => cases ha
  | deliverOne q =>
    refine ⟨q, rfl, (sends_act hmay ha).1, .inr ⟨_, hn, ?_⟩, ?_⟩
    · cases st with
      | fetch id post =>
        obtain ⟨-, e, rfl, -⟩ := hmay
        exact List.mem_singleton_self q
      | _ => cases ha
    · cases st with
      | fetch id post =>
        obtain ⟨-, e, rfl, -⟩ := hmay
        cases r with
        | ok status =>
          obtain rfl := List.mem_singleton.mp ha
          exact ⟨rfl, rfl, rfl, rfl⟩
        | error e =>
          obtain rfl := List.mem_singleton.mp ha
          exact ⟨rfl, rfl, rfl, rfl⟩
      | _ => cases ha

/-- An event that has been answered with a 2xx is not posted. -/
theorem LastWord.silent (hs : LastWord s) {i : ℕ} {o : Outcome} {n : Task} {st : Op}
    {r : Except String (Answer st)} (here : s.nodes[i]? = some n) (hmay : may n.job n.log st)
    (hin : InTime s (.run i o) = true) {a b : Attempt} (ha : a ∈ s.world.attempts)
    (hok : Attempt.isOk a = true) (hb : b ∈ sends ⟨st, r⟩) : b.outboxId ≠ a.outboxId := by
  intro hsame
  obtain ⟨q, hjob, hid, hholds, hanswers, hmarks, -⟩ :=
    sends_held (List.mem_of_getElem? here) hmay hb
  have htime : s.world.now < q.nextAttemptAt := by simpa [InTime, here, hjob] using hin
  rcases hs.answered a ha hok with ⟨m, hm, q', hjob', hid', hheard, hlease⟩ | ⟨hfree, -⟩
  · obtain ⟨j, hj⟩ := List.mem_iff_getElem?.mp hm
    rw [Task.heard, Bool.and_eq_true, Bool.not_eq_true'] at hheard
    obtain rfl := hs.inHand.same here hj hjob hjob' (hid.symm.trans (hsame.trans hid'.symm))
      htime hlease hmarks hheard.2
    rw [Option.some.inj (here.symm.trans hj), hheard.1] at hanswers
    cases hanswers
  · exact absurd (Tasks.hands_eq_zero.mp hfree q hholds (hid.symm.trans hsame)) (not_le.mpr htime)

theorem LastWord.move (hs : LastWord s) (h : Move discipline s l t)
    (hok : Recorded s l = true) : LastWord t := by
  have hin := Recorded.inTime hok
  have hold : ∀ a ∈ s.world.attempts, Attempt.isOk a = true → Answered t a.outboxId :=
    fun a ha hanswered => (hs.answered a ha hanswered).move hs h hok
      (attempt_given hs.inHand.agrees ha)
  have hsame : t.world.attempts = s.world.attempts →
      (∀ a ∈ t.world.attempts, Attempt.isOk a = true → Answered t a.outboxId) ∧
        t.world.attempts.Pairwise (fun a b => Attempt.isOk a = true → b.outboxId ≠ a.outboxId) := by
    intro heq
    rw [heq]
    exact ⟨hold, hs.last⟩
  have hnew : (∀ a ∈ t.world.attempts, Attempt.isOk a = true → Answered t a.outboxId) ∧
      t.world.attempts.Pairwise (fun a b => Attempt.isOk a = true → b.outboxId ≠ a.outboxId) := by
    cases h with
    | start born =>
      rcases birth_cases born with ⟨rfl, rfl⟩ | ⟨event, -, rfl, rfl⟩
      · exact hsame rfl
      · exact hsame rfl
    | run here script knows may acts =>
      rename_i i o n st k r w
      have hn := List.mem_of_getElem? here
      have hattempts := (Frame.of_act acts).attempts
      constructor
      · intro a ha hanswered
        rw [hattempts] at ha
        rcases List.mem_append.mp ha with ha | ha
        · exact hold a ha hanswered
        · obtain ⟨q, hjob, hid, -, -, hmarks, hanswers, hunmarked⟩ := sends_held hn may ha
          have htime : s.world.now < q.nextAttemptAt := by simpa [InTime, here, hjob] using hin
          refine .inl ⟨_, List.mem_set (List.getElem?_eq_some_iff.mp here).1 _, q, hjob, hid.symm,
            ?_, (Frame.of_act acts).now ▸ htime⟩
          simp [Task.heard, hmarks, hunmarked, hanswers, hanswered]
      · show w.attempts.Pairwise _
        rw [hattempts, List.pairwise_append]
        refine ⟨hs.last, ?_, fun a ha b hb hanswered => hs.silent here may hin ha hanswered hb⟩
        cases st with
        | fetch id post =>
          cases r with
          | ok status => exact List.pairwise_singleton _ _
          | error e => exact List.pairwise_singleton _ _
        | _ => exact List.Pairwise.nil
    | crash => exact hsame rfl
    | event happens => exact hsame (Happens.of_event happens).frame.2.1
  exact ⟨hs.inHand.move h hin, hs.tidy_move h hok, hnew.1, hnew.2⟩

end Step

theorem LastWord.reach {s : Tasks} (h : s.Reach (fun s l => Recorded s l = true)) :
    LastWord s := by
  refine Runs.invariant (K := discipline) (I := LastWord) (fun hi hmove hok => hi.move hmove hok)
    (Discipline.follows_begin discipline .empty) h ⟨inOneHand_begin, ?_, ?_, List.Pairwise.nil⟩
  · exact fun n hn => by cases hn
  · exact fun a ha => by cases ha

theorem LastWord.not_posted {s : Tasks} (hs : LastWord s) {before after : List Attempt}
    {a : Attempt} (hsplit : s.world.attempts = before ++ a :: after) (hok : Attempt.isOk a = true) :
    ∀ b ∈ after, b.outboxId ≠ a.outboxId := by
  intro b hb
  have hlast := hs.last
  rw [hsplit, List.pairwise_append, List.pairwise_cons] at hlast
  exact hlast.2.1.1 b hb hok

theorem LastWord.not_failed {s : Tasks} (hs : LastWord s) {a : Attempt}
    (ha : a ∈ s.world.attempts) (hok : Attempt.isOk a = true) :
    ∀ r ∈ s.world.events, r.id = a.outboxId → r.status ≠ .failed := by
  intro r hr hid
  rcases hs.answered a ha hok with ⟨n, hn, q, hjob, hsame, hheard, hlease⟩ | ⟨-, hrows⟩
  · rw [Task.heard, Bool.and_eq_true, Bool.not_eq_true'] at hheard
    have hholds : s.Holds q := by
      refine .inr ⟨n, hn, ?_⟩
      simp [Task.holds, hjob, hheard.2]
    rw [hs.inHand.current q hholds hlease r hr (hid.trans hsame.symm),
      hs.inHand.pending q hholds.claimed]
    simp
  · rw [hrows r hr hid]
    simp

/-- Where every 2xx gets written down, a 2xx is the last word: the event is not
posted again, and is never given up. -/
theorem answered_last {s : Tasks} (h : s.Reach (fun s l => Recorded s l = true))
    {before after : List Attempt} {a : Attempt} (hsplit : s.world.attempts = before ++ a :: after)
    (hok : Attempt.isOk a = true) :
    (∀ b ∈ after, b.outboxId ≠ a.outboxId) ∧
      ∀ r ∈ s.world.events, r.id = a.outboxId → r.status ≠ .failed := by
  have hs := LastWord.reach h
  exact ⟨hs.not_posted hsplit hok, hs.not_failed (by simp [hsplit]) hok⟩

theorem answered_last_posted : ∃ s : Tasks, ∃ a b : Attempt, s.world.attempts = [a, b] ∧
    Attempt.isOk b = true ∧ (∀ c ∈ ([] : List Attempt), c.outboxId ≠ b.outboxId) ∧
    ∀ r ∈ s.world.events, r.id = b.outboxId → r.status ≠ .failed := by
  have hrun : (Pool.runWhile device program Recorded (Pool.begin .empty)
      (twoRounds.dropLast ++ [.run 3 (.status 204), .run 3 (.done [])])).any (fun s =>
        decide (s.world.attempts.length = 2) &&
          (s.world.attempts.getLast?).any Attempt.isOk) = true := by decide +kernel
  obtain ⟨s, hs, hthen⟩ := Runs.exists_of_runWhile hrun
  rw [Bool.and_eq_true, decide_eq_true_eq] at hthen
  obtain ⟨a, b, hab⟩ := List.length_eq_two.mp hthen.1
  have hok : Attempt.isOk b = true := by simpa [hab] using hthen.2
  have hsplit : s.world.attempts = [a] ++ b :: [] := hab
  exact ⟨s, a, b, hab, hok, answered_last hs hsplit hok⟩

end PaymentApis.WebhookWorker
