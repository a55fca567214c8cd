import PaymentApis.Deliveries

/-!
# Deliveries within their leases

As long as no delivery acts after its lease has run out, an event is in one
hand at a time, and the row in that hand is the row of the table. A worker may
still crash at any action and any statement may fail.
-/

namespace PaymentApis.WebhookWorker

open TxStore Processes

/-! ## What is stated -/

/-- A delivery acts only before the end of its lease. -/
def InTime (s : Tasks) (l : Turn) : Bool :=
  match l with
  | .run i _ => s.nodes[i]?.all (fun n =>
      match n.job with
      | .tick => true
      | .deliverOne event => decide (s.world.now < event.nextAttemptAt))
  | _ => true

/-- The rows a process holds: claimed and not passed on, or not yet written down. -/
def Task.holds (n : Task) : List WebhookEventRow :=
  match n.job with
  | .tick => if n.log.any starts then [] else n.log.flatMap claims
  | .deliverOne event => if n.log.any marks then [] else [event]

/-- A row of an event whose lease is running. -/
def leased (id : Uuid) (now : ℕ) (q : WebhookEventRow) : Bool :=
  decide (q.id = id ∧ now < q.nextAttemptAt)

/-- The hands an event is in. -/
def Tasks.hands (s : Tasks) (id : Uuid) : ℕ :=
  s.world.batch.countP (leased id s.world.now) +
    s.total (fun n => (Task.holds n).countP (leased id s.world.now))

/-- A process, or the batch, holds the row. -/
def Tasks.Holds (s : Tasks) (q : WebhookEventRow) : Prop :=
  q ∈ s.world.batch ∨ ∃ n ∈ s.nodes, q ∈ Task.holds n

/-- An event is in one hand, and the row in it is the row of the table. -/
structure InOneHand (s : Tasks) : Prop where
  agrees : Agrees s
  pending : ∀ q, s.Claimed q → q.status = .pending
  current : ∀ q, s.Holds q → s.world.now < q.nextAttemptAt →
    ∀ r ∈ s.world.events, r.id = q.id → r = q
  one : ∀ id, s.hands id ≤ 1

theorem holds_hand {n : Task} {q : WebhookEventRow} (h : q ∈ Task.holds n) : q ∈ Task.hand n := by
  unfold Task.holds at h
  unfold Task.hand
  cases hjob : n.job with
  | tick =>
    rw [hjob] at h
    simp only at h ⊢
    split at h
    · cases h
    · exact h
  | deliverOne event =>
    rw [hjob] at h
    simp only at h ⊢
    split at h
    · cases h
    · exact h

theorem Tasks.Holds.claimed {s : Tasks} {q : WebhookEventRow} (h : s.Holds q) : s.Claimed q := by
  rcases h with hbatch | ⟨n, hn, hq⟩
  · exact .inl hbatch
  · exact .inr ⟨n, hn, holds_hand hq⟩

theorem leased_iff {id : Uuid} {now : ℕ} {q : WebhookEventRow} :
    leased id now q = true ↔ q.id = id ∧ now < q.nextAttemptAt := by
  simp [leased]

/-- An event that is in no hand: no row of it that is held has its lease running. -/
theorem Tasks.hands_eq_zero {s : Tasks} {id : Uuid} :
    s.hands id = 0 ↔ ∀ q, s.Holds q → q.id = id → q.nextAttemptAt ≤ s.world.now := by
  have hzero : s.hands id = 0 ↔ (∀ q ∈ s.world.batch, leased id s.world.now q = false) ∧
      ∀ n ∈ s.nodes, ∀ q ∈ Task.holds n, leased id s.world.now q = false := by
    simp [Tasks.hands, Pool.total, List.countP_eq_zero, List.sum_eq_zero_iff]
  rw [hzero]
  constructor
  · rintro ⟨hbatch, hnodes⟩ q (hq | ⟨n, hn, hq⟩) hid
    · have hfree := hbatch q hq
      simpa [leased, hid] using hfree
    · have hfree := hnodes n hn q hq
      simpa [leased, hid] using hfree
  · intro hall
    constructor
    · intro q hq
      have hfree : q.id = id → q.nextAttemptAt ≤ s.world.now := hall q (.inl hq)
      simpa [leased] using hfree
    · intro n hn q hq
      have hfree : q.id = id → q.nextAttemptAt ≤ s.world.now := hall q (.inr ⟨n, hn, hq⟩)
      simpa [leased] using hfree

/-! ## One step -/

/-- The outcome of a delivery is written down. -/
def Op.marks : Op → Bool
  | .eventMarkDelivered _ => true
  | .eventMarkRetry _ _ _ _ => true
  | .eventMarkFailed _ _ _ => true
  | _ => false

/-- A delivery that writes its outcome down holds its row, and lets go of it. -/
theorem holds_marks {q : WebhookEventRow} {log : List Done} {st : Op}
    {r : Except String (Answer st)} (hmay : deliverMay q log st) (hmarks : marks ⟨st, r⟩ = true)
    (c c' : Option (Script Unit)) :
    Task.holds ⟨.deliverOne q, log, c⟩ = [q] ∧
      Task.holds ⟨.deliverOne q, log ++ [⟨st, r⟩], c'⟩ = [] ∧ begins ⟨st, r⟩ = [] := by
  have hunmarked : log.any marks = false ∧ begins ⟨st, r⟩ = [] := by
    cases st with
    | eventMarkDelivered id => exact ⟨hmay.2.2, rfl⟩
    | eventMarkRetry id n backoff e => exact ⟨hmay.2.2.2.2.2.2, rfl⟩
    | eventMarkFailed id n e => exact ⟨hmay.2.2.2.2, rfl⟩
    | _ => simp [marks] at hmarks
  exact ⟨by simp [Task.holds, hunmarked.1], by simp [Task.holds, hmarks], hunmarked.2⟩

/-- What an action does to what its process holds: it passes it on or keeps it,
or claims, or writes the outcome down. -/
theorem holds_act {n : Task} {st : Op} {r : Except String (Answer st)} {c : Option (Script Unit)}
    (hmay : may n.job n.log st) :
    Task.holds ⟨n.job, n.log ++ [⟨st, r⟩], c⟩ ++ begins ⟨st, r⟩ = Task.holds n ∨
      (Task.holds n = [] ∧ begins ⟨st, r⟩ = [] ∧
        Task.holds ⟨n.job, n.log ++ [⟨st, r⟩], c⟩ = claims ⟨st, r⟩) ∨
      (Task.holds ⟨n.job, n.log ++ [⟨st, r⟩], c⟩ = [] ∧ begins ⟨st, r⟩ = []) := by
  obtain ⟨job, log, script⟩ := n
  cases job with
  | tick =>
    cases st with
    | eventClaimDue limit lease =>
      obtain ⟨-, -, rfl⟩ := hmay
      exact .inr (.inl ⟨rfl, rfl, by simp [Task.holds, starts]⟩)
    | deliverAll events =>
      obtain ⟨rfl, hstarts⟩ := hmay
      left
      simp only at hstarts
      simp [Task.holds, hstarts, starts, begins]
    | _ => exact hmay.elim
  | deliverOne q =>
    cases hm : marks ⟨st, r⟩ with
    | false =>
      left
      have hbegins : begins ⟨st, r⟩ = [] := by
        cases st with
        | deliverAll events => exact hmay.elim
        | _ => rfl
      simp [Task.holds, hm, hbegins]
    | true => exact .inr (.inr (holds_marks hmay hm script c).2)

section Step

variable {s t : Tasks} {l : Turn}

/-- The hands after an action. -/
theorem hands_run {i : ℕ} {n m : Task} {w : Outbox} {passed : List WebhookEventRow}
    (here : s.nodes[i]? = some n) (hnow : w.now = s.world.now)
    (hbatch : w.batch = s.world.batch ++ passed) (id : Uuid) :
    Tasks.hands ⟨w, s.nodes.set i m⟩ id + (Task.holds n).countP (leased id s.world.now) =
      s.hands id + (Task.holds m ++ passed).countP (leased id s.world.now) := by
  have hset := Pool.total_set (f := fun n => (Task.holds n).countP (leased id s.world.now)) here w m
  unfold Tasks.hands
  simp only [hnow, hbatch, List.countP_append] at hset ⊢
  omega

/-- A claimed event is in no hand. -/
theorem InOneHand.free (hs : InOneHand s) {r : WebhookEventRow} (hr : r ∈ s.world.events)
    (hdue : r.nextAttemptAt ≤ s.world.now) : s.hands r.id = 0 := by
  rw [Tasks.hands_eq_zero]
  intro q hq hid
  by_contra hlate
  have hrow := hs.current q hq (not_le.mp hlate) r hr hid.symm
  exact hlate (hrow ▸ hdue)

/-- The rows of one claim are of different events that were due. -/
theorem claims_act {st : Op} {o : Outcome} {w : Outbox} {r : Except String (Answer st)}
    (hk : s.world.Keyed) (hacts : Outbox.act st o s.world = some (r, w)) :
    ((claims ⟨st, r⟩).map (·.id)).Nodup ∧ ∀ q ∈ claims ⟨st, r⟩, q ∈ w.events ∧
      ∃ row ∈ s.world.events, row.id = q.id ∧ row.status = .pending ∧
        row.nextAttemptAt ≤ s.world.now := by
  cases st with
  | eventClaimDue limit lease =>
    rcases statement_cases hacts with ⟨locked, -, rfl, rfl⟩ | ⟨e, rfl, -⟩
    · constructor
      · simp only [claims, webhookEventRepository.claimDue, List.map_map]
        exact hk.nodup.sublist (List.filter_sublist.map _)
      · intro q hq
        obtain ⟨row, hrow, rfl⟩ := List.mem_map.mp hq
        obtain ⟨hrow, hid⟩ := List.mem_filter.mp hrow
        refine ⟨List.mem_map.mpr ⟨row, hrow, ?_⟩, row, hrow, rfl, ?_⟩
        · rw [if_pos hid]
        · exact claimed_due hk hrow (of_decide_eq_true hid)
    · exact ⟨List.nodup_nil, fun q hq => by cases hq⟩
  | _ => exact ⟨List.nodup_nil, fun q hq => by cases hq⟩

theorem countP_leased_le {qs : List WebhookEventRow} (h : (qs.map (·.id)).Nodup) (id : Uuid)
    (now : ℕ) : qs.countP (leased id now) ≤ 1 := by
  have hle : qs.countP (leased id now) ≤ (qs.map (·.id)).count id := by
    rw [List.count, List.countP_map]
    apply List.countP_mono_left
    intro q _ hq
    simpa using (leased_iff.mp hq).1
  exact hle.trans (List.nodup_iff_count_le_one.mp h id)

/-- Nothing is held that was not held before, or claimed by the step. -/
theorem Holds.of_move (hk : s.world.Keyed) (h : Move discipline s l t) {q : WebhookEventRow}
    (hq : t.Holds q) : s.Holds q ∨ q ∈ t.world.events ∧ ∃ row ∈ s.world.events,
      row.id = q.id ∧ row.status = .pending ∧ row.nextAttemptAt ≤ s.world.now := by
  cases h with
  | start born =>
    left
    rcases birth_cases born with ⟨rfl, rfl⟩ | ⟨event, hmem, rfl, rfl⟩
    · rcases hq with hbatch | ⟨m, hm, hq⟩
      · exact .inl hbatch
      · rcases List.mem_append.mp hm with hm | hm
        · exact .inr ⟨m, hm, hq⟩
        · obtain rfl := List.mem_singleton.mp hm
          cases hq
    · rcases hq with hbatch | ⟨m, hm, hq⟩
      · exact .inl (List.mem_of_mem_erase hbatch)
      · rcases List.mem_append.mp hm with hm | hm
        · exact .inr ⟨m, hm, hq⟩
        · obtain rfl := List.mem_singleton.mp hm
          obtain rfl := List.mem_singleton.mp hq
          exact .inl hmem
  | run here script knows may acts =>
    have hn := List.mem_of_getElem? here
    rename_i i o n st k r w
    have hcases := holds_act (r := r) (c := some (k r)) may
    rcases hq with hbatch | ⟨m, hm, hq⟩
    · rw [(Frame.of_act acts).batch] at hbatch
      rcases List.mem_append.mp hbatch with hold | hnew
      · exact .inl (.inl hold)
      · rcases hcases with hsame | ⟨-, hnone, -⟩ | ⟨-, hnone⟩
        · exact .inl (.inr ⟨n, hn, hsame ▸ List.mem_append_right _ hnew⟩)
        · rw [hnone] at hnew
          cases hnew
        · rw [hnone] at hnew
          cases hnew
    · rcases List.mem_or_eq_of_mem_set hm with hm | rfl
      · exact .inl (.inr ⟨m, hm, hq⟩)
      · rcases hcases with hsame | ⟨-, -, hclaims⟩ | ⟨hnone, -⟩
        · exact .inl (.inr ⟨n, hn, hsame ▸ List.mem_append_left _ hq⟩)
        · exact .inr ((claims_act hk acts).2 q (hclaims ▸ hq))
        · rw [hnone] at hq
          cases hq
  | crash here live =>
    left
    rcases hq with hbatch | ⟨m, hm, hq⟩
    · exact .inl hbatch
    · rcases List.mem_or_eq_of_mem_set hm with hm | rfl
      · exact .inr ⟨m, hm, hq⟩
      · exact .inr ⟨_, List.mem_of_getElem? here, hq⟩
  | event happens =>
    left
    rcases hq with hbatch | hq
    · exact .inl ((Happens.of_event happens).frame.1 ▸ hbatch)
    · exact .inr hq

/-- An event whose outcome has been written down is in no hand. -/
theorem At.freed (hs : InOneHand s) (h : Move discipline s l t) (hin : InTime s l = true)
    {q : WebhookEventRow} {log : List Done} {st : Op} (hat : At s l q log st)
    (hst : Op.marks st = true) : t.hands q.id = 0 := by
  obtain ⟨i, locked, c, rfl, hn, hnext⟩ := hat.here
  have htime : s.world.now < q.nextAttemptAt := by
    simpa [InTime, hn] using hin
  cases h with
  | run here script knows may acts =>
    rename_i n st' k r w
    obtain rfl := Option.some.inj (hn.symm.trans here)
    have hsame : st' = st := by
      rw [Member.next] at hnext
      simp only at script
      rw [script] at hnext
      exact Option.some.inj hnext
    subst hsame
    have hok : marks ⟨st', r⟩ = true := by
      cases st' with
      | eventMarkDelivered id =>
        obtain ⟨rfl, -⟩ := Prod.mk.inj (Option.some.inj acts)
        rfl
      | eventMarkRetry id n backoff e =>
        obtain ⟨rfl, -⟩ := Prod.mk.inj (Option.some.inj acts)
        rfl
      | eventMarkFailed id n e =>
        obtain ⟨rfl, -⟩ := Prod.mk.inj (Option.some.inj acts)
        rfl
      | _ => cases hst
    obtain ⟨hbefore, hafter, hbegins⟩ := holds_marks may hok c (some (k r))
    have hframe := Frame.of_act acts
    have hcount := hands_run (m := ⟨.deliverOne q, log ++ [⟨st', r⟩], some (k r)⟩) here hframe.now
      hframe.batch q.id
    rw [hbefore, hafter, hbegins] at hcount
    have hone := hs.one q.id
    have hq : [q].countP (leased q.id s.world.now) = 1 := by
      rw [List.countP_singleton, if_pos (leased_iff.mpr ⟨rfl, htime⟩)]
    rw [hq, List.append_nil, List.countP_nil] at hcount
    have hzero : Tasks.hands ⟨w, s.nodes.set i ⟨.deliverOne q, log ++ [⟨st', r⟩], some (k r)⟩⟩
        q.id = 0 := by omega
    exact hzero

theorem countP_leased_mono (qs : List WebhookEventRow) (id : Uuid) {now now' : ℕ}
    (h : now ≤ now') : qs.countP (leased id now') ≤ qs.countP (leased id now) := by
  apply List.countP_mono_left
  intro q _ hq
  obtain ⟨hid, hlate⟩ := leased_iff.mp hq
  exact leased_iff.mpr ⟨hid, h.trans_lt hlate⟩

theorem InOneHand.one_move (hs : InOneHand s) (h : Move discipline s l t) (id : Uuid) :
    t.hands id ≤ 1 := by
  have hone := hs.one id
  unfold Tasks.hands at hone
  cases h with
  | start born =>
    rename_i j w c
    unfold Tasks.hands
    rcases birth_cases born with ⟨rfl, rfl⟩ | ⟨event, hmem, rfl, rfl⟩
    · rw [Pool.total_append]
      simpa [Task.holds] using hone
    · rw [Pool.total_append]
      have hperm := (List.perm_cons_erase hmem).countP_eq (leased id s.world.now)
      rw [List.countP_cons] at hperm
      have hborn : Task.holds ⟨.deliverOne event, [], some c⟩ = [event] := rfl
      rw [hborn, List.countP_singleton]
      simp only at hperm ⊢
      omega
  | run here script knows may acts =>
    rename_i i o n st k r w
    have hframe := Frame.of_act acts
    have hone := hs.one id
    have hcount := hands_run (m := ⟨n.job, n.log ++ [⟨st, r⟩], some (k r)⟩) here hframe.now
      hframe.batch id
    rcases holds_act (r := r) (c := some (k r)) may with hsame | ⟨hnone, hbegins, hclaims⟩ |
      ⟨hnone, hbegins⟩
    · rw [hsame] at hcount
      omega
    · rw [hnone, hbegins, hclaims, List.append_nil, List.countP_nil] at hcount
      obtain ⟨hnodup, hdue⟩ := claims_act hs.agrees.keyed acts
      rcases Nat.eq_zero_or_pos ((claims ⟨st, r⟩).countP (leased id s.world.now)) with hzero | hpos
      · omega
      · obtain ⟨q, hq, hleased⟩ := List.countP_pos_iff.mp hpos
        obtain ⟨-, row, hrow, hid, -, hlate⟩ := hdue q hq
        have hfree := hs.free hrow hlate
        rw [hid, (leased_iff.mp hleased).1] at hfree
        have hle := countP_leased_le hnodup id s.world.now
        omega
    · rw [hnone, hbegins, List.append_nil, List.countP_nil] at hcount
      omega
  | crash here live =>
    rename_i i n
    have hset := Pool.total_set (f := fun n => (Task.holds n).countP (leased id s.world.now)) here
      s.world { n with script := none }
    have hsame : Task.holds { n with script := none } = Task.holds n := rfl
    unfold Tasks.hands
    simp only [hsame] at hset ⊢
    exact (Nat.add_le_add_left (Nat.le_of_add_le_add_right hset.le) _).trans hone
  | event happens =>
    obtain ⟨hbatch, -, hnow⟩ := (Happens.of_event happens).frame
    unfold Tasks.hands
    rw [hbatch]
    refine (Nat.add_le_add (countP_leased_mono _ _ hnow) (List.sum_le_sum ?_)).trans hone
    exact fun n _ => countP_leased_mono _ _ hnow

theorem InOneHand.current_move (hs : InOneHand s) (h : Move discipline s l t)
    (hin : InTime s l = true) {q : WebhookEventRow} (hq : t.Holds q)
    (hlate : t.world.now < q.nextAttemptAt) {r : WebhookEventRow} (hr : r ∈ t.world.events)
    (hid : r.id = q.id) : r = q := by
  have hfreed : ∀ {q' log st}, At s l q' log st → Op.marks st = true → q'.id ≠ q.id := by
    intro q' log st hat hst hsame
    have hzero := hat.freed hs h hin hst
    rw [hsame, Tasks.hands_eq_zero] at hzero
    exact absurd (hzero q hq rfl) (not_le.mpr hlate)
  have hlate' : s.world.now < q.nextAttemptAt := (now_mono h).trans_lt hlate
  rcases Holds.of_move hs.agrees.keyed h hq with hold | ⟨hnew, -⟩
  · cases Origin.of_move hs.agrees.keyed h hr with
    | kept old => exact hs.current q hold hlate' r old hid
    | enqueued fresh begun =>
      have hgiven := hs.agrees.given q (.inr hold.claimed)
      rw [← hid] at hgiven
      exact absurd hgiven fresh
    | claimed old pending due =>
      have hrow := hs.current q hold hlate' _ old hid
      exact absurd (hrow ▸ due) (not_le.mpr hlate')
    | delivered turn old same => exact absurd (same.symm.trans hid) (hfreed turn rfl)
    | retried turn old same => exact absurd (same.symm.trans hid) (hfreed turn rfl)
    | failed turn old same => exact absurd (same.symm.trans hid) (hfreed turn rfl)
  · exact row_unique (hs.agrees.keyed.of_move h).nodup hr hnew hid

theorem InOneHand.move (hs : InOneHand s) (h : Move discipline s l t)
    (hin : InTime s l = true) : InOneHand t where
  agrees := hs.agrees.move h
  pending := by
    intro q hq
    rcases Claimed.of_move hs.agrees.keyed h hq with hold | ⟨row, -, hpending, -, rfl⟩
    · exact hs.pending q hold
    · exact hpending
  current := fun q hq hlate r hr hid => hs.current_move h hin hq hlate hr hid
  one := hs.one_move h

/-- A delivery that writes its outcome down holds its row, within the lease. -/
theorem At.holds (hin : InTime s l = true) {q : WebhookEventRow} {log : List Done} {st : Op}
    (hat : At s l q log st) (hst : Op.marks st = true) :
    s.Holds q ∧ s.world.now < q.nextAttemptAt := by
  obtain ⟨i, locked, c, rfl, hn, -⟩ := hat.here
  have htime : s.world.now < q.nextAttemptAt := by simpa [InTime, hn] using hin
  refine ⟨.inr ⟨_, List.mem_of_getElem? hn, ?_⟩, htime⟩
  have hmarks : ∃ r : Except String (Answer st), marks ⟨st, r⟩ = true := by
    cases st with
    | eventMarkDelivered id => exact ⟨.ok (), rfl⟩
    | eventMarkRetry id n backoff e => exact ⟨.ok (), rfl⟩
    | eventMarkFailed id n e => exact ⟨.ok (), rfl⟩
    | _ => cases hst
  obtain ⟨r, hr⟩ := hmarks
  rw [(holds_marks hat.may hr c none).1]
  exact List.mem_singleton_self q

theorem At.current (hs : InOneHand s) (hin : InTime s l = true) {q : WebhookEventRow}
    {log : List Done} {st : Op} (hat : At s l q log st) (hst : Op.marks st = true) :
    ∀ r ∈ s.world.events, r.id = q.id → r = q :=
  hs.current q (hat.holds hin hst).1 (hat.holds hin hst).2

end Step

theorem inOneHand_begin : InOneHand (Pool.begin .empty) where
  agrees := agrees_begin
  pending := by
    rintro q (hbatch | ⟨n, hn, -⟩)
    · cases hbatch
    · cases hn
  current := by
    rintro q (hbatch | ⟨n, hn, -⟩)
    · cases hbatch
    · cases hn
  one := fun _ => Nat.zero_le _

theorem InOneHand.runs {s t : Tasks} (hs : InOneHand s) (hf : discipline.Follows s)
    (h : Runs device program (fun s l => InTime s l = true) s t) : InOneHand t :=
  Runs.invariant (K := discipline) (I := InOneHand) (fun hi hmove hin => hi.move hmove hin)
    hf h hs

theorem Tasks.Reach.inOneHand {s : Tasks} (h : s.Reach (fun s l => InTime s l = true)) :
    InOneHand s :=
  inOneHand_begin.runs (Discipline.follows_begin discipline .empty) h

theorem Tasks.Reach.follows {ok : Tasks → Turn → Prop} {s : Tasks} (h : s.Reach ok) :
    discipline.Follows s :=
  (Discipline.follows_begin discipline .empty).runs h

/-! ## One delivery at a time -/

theorem countP_holds {n : Task} {q : WebhookEventRow} {id : Uuid} {now : ℕ}
    (hjob : n.job = .deliverOne q) (hid : q.id = id) (hlease : now < q.nextAttemptAt)
    (hopen : n.log.any marks = false) : (Task.holds n).countP (leased id now) = 1 := by
  have hholds : Task.holds n = [q] := by simp [Task.holds, hjob, hopen]
  rw [hholds, List.countP_singleton, if_pos (leased_iff.mpr ⟨hid, hlease⟩)]

/-- Two deliveries of an event whose leases both run, and neither of which has
written its outcome down, are the same. -/
theorem InOneHand.same {s : Tasks} (hs : InOneHand s) {i j : ℕ} {n m : Task}
    {q q' : WebhookEventRow} (hi : s.nodes[i]? = some n) (hj : s.nodes[j]? = some m)
    (hn : n.job = .deliverOne q) (hm : m.job = .deliverOne q') (hid : q.id = q'.id)
    (hlease : s.world.now < q.nextAttemptAt) (hlease' : s.world.now < q'.nextAttemptAt)
    (hopen : n.log.any marks = false) (hopen' : m.log.any marks = false) : i = j := by
  by_contra hne
  have hone := hs.one q.id
  have hpair := Pool.add_le_total
    (fun n : Task => (Task.holds n).countP (leased q.id s.world.now)) hi hj hne
  simp only [countP_holds hn rfl hlease hopen, countP_holds hm hid.symm hlease' hopen'] at hpair
  have htwo : 2 ≤ s.hands q.id := hpair.trans (Nat.le_add_left _ _)
  omega

/-- An event is in one hand at a time, from its claim to the end of the lease or
until its outcome is written down, and the row in that hand is the row of the
table. -/
theorem one_hand {s : Tasks} (h : s.Reach (fun s l => InTime s l = true)) (id : Uuid) :
    s.hands id ≤ 1 ∧ ∀ q, s.Holds q → s.world.now < q.nextAttemptAt →
      ∀ r ∈ s.world.events, r.id = q.id → r = q :=
  ⟨h.inOneHand.one id, h.inOneHand.current⟩

theorem one_hand_posting : ∃ s : Tasks, s.hands 1 = 1 ∧ s.hands 1 ≤ 1 ∧
    ∀ q, s.Holds q → s.world.now < q.nextAttemptAt →
      ∀ r ∈ s.world.events, r.id = q.id → r = q := by
  have hrun : (Pool.runWhile device program InTime (Pool.begin .empty)
      (enqueueOne ++ round 0 0 0 none 500)).any (fun s => decide (Tasks.hands s 1 = 1)) = true := by
    decide +kernel
  obtain ⟨s, hs, hone⟩ := Runs.exists_of_runWhile hrun
  exact ⟨s, of_decide_eq_true hone, one_hand hs 1⟩

/-- A row that is delivered or failed stays as it is. -/
theorem settled_rows_keep {s t : Tasks} (h : s.Reach (fun s l => InTime s l = true))
    (hrun : Runs device program (fun s l => InTime s l = true) s t) {r : WebhookEventRow}
    (hr : r ∈ s.world.events) (hsettled : r.status ≠ .pending) :
    ∀ r' ∈ t.world.events, r'.id = r.id → r' = r := by
  have hall : r.id ∈ t.world.ids ∧ ∀ r' ∈ t.world.events, r'.id = r.id → r' = r := by
    refine Runs.invariant (K := discipline)
      (I := fun t => InOneHand t ∧ r.id ∈ t.world.ids ∧
        ∀ r' ∈ t.world.events, r'.id = r.id → r' = r) ?_ h.follows hrun ?_ |>.2
    · rintro u v l ⟨hu, hgiven, hsame⟩ hmove hin
      refine ⟨hu.move hmove hin, ids_mono hmove hgiven, ?_⟩
      intro r' hr' hid
      -- Only a pending row is claimed, and only a claimed row is written.
      have hwritten : ∀ {q log st r₀}, At u l q log st → Op.marks st = true →
          r₀ ∈ u.world.events → r₀.id = q.id → r₀.id = r.id → False := by
        intro q log st r₀ hat hst hold hq hid
        have hrow : r₀ = q := hat.current hu hin hst r₀ hold hq
        have hpending := hu.pending q hat.claimed
        rw [← hrow, hsame r₀ hold hid] at hpending
        exact hsettled hpending
      cases Origin.of_move hu.agrees.keyed hmove hr' with
      | kept old => exact hsame r' old hid
      | enqueued fresh begun =>
        rw [← hid] at hgiven
        exact absurd hgiven fresh
      | claimed old pending due =>
        rw [hsame _ old hid] at pending
        exact absurd pending hsettled
      | delivered turn old same => exact (hwritten turn rfl old same hid).elim
      | retried turn old same => exact (hwritten turn rfl old same hid).elim
      | failed turn old same => exact (hwritten turn rfl old same hid).elim
    · have hs := h.inOneHand
      refine ⟨hs, hs.agrees.keyed.given r hr, ?_⟩
      exact fun r' hr' hid => row_unique hs.agrees.keyed.nodup hr' hr hid
  exact hall.2

theorem settled_rows_keep_delivered : ∃ s t : Tasks, ∃ r ∈ s.world.events, r.status = .delivered ∧
    s.world.now < t.world.now ∧ ∀ r' ∈ t.world.events, r'.id = r.id → r' = r := by
  have hrun : (Pool.runWhile device program InTime (Pool.begin .empty)
      (enqueueOne ++ round 0 0 0 none 200 ++ record 0 0)).any (fun s =>
        decide (s.world.status 1 = some .delivered) &&
        (s.runWhile device program InTime [.event (.tick 1), .start .tick, .run 2 (.done [])]).any
          (fun t => decide (s.world.now < t.world.now))) = true := by decide +kernel
  obtain ⟨s, hs, hthen⟩ := Runs.exists_of_runWhile hrun
  rw [Bool.and_eq_true, decide_eq_true_eq] at hthen
  obtain ⟨t, ht, hnow⟩ := Runs.exists_of_runWhile hthen.2
  obtain ⟨r, hr, -, hdelivered⟩ := World.of_status hthen.1
  exact ⟨s, t, r, hr, hdelivered, of_decide_eq_true hnow,
    settled_rows_keep hs ht hr (by simp [hdelivered])⟩

end PaymentApis.WebhookWorker
