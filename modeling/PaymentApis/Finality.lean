import PaymentApis.Attempts
import PaymentApis.Origins

/-!
# Deliveries are final

A 2xx that gets written down is the last word on its message: the message is not
posted again, no copy of it is published, and its event is not given up.
-/

namespace PaymentApis

open TxStore Processes

namespace Origins

/-! ## What is stated -/

def marksDelivered : Op → Bool
  | .eventMarkDelivered _ => true
  | _ => false

/-- The action of the step takes effect, and its process learns so. -/
def succeeds : LossyTurn → Bool
  | .run _ (.plain .done) => true
  | _ => false

/-- No process crashes, no channel is lost, and every 2xx gets written down. -/
def recorded (s : Workers) (l : LossyTurn) : Bool :=
  unbroken s l && (succeeds l || !(s.turn l).any marksDelivered)

/-- Handler `i`, of a message of publication `p`, has been answered with a 2xx. -/
def Answered (i p : ℕ) (msg : Message) (g : Origins) (s : Workers) : Prop :=
  ∃ log, g.Handles s i p msg log ∧ log.any answers = true

theorem recorded_unbroken {s : Workers} {l : LossyTurn} (h : recorded s l = true) :
    unbroken s l = true := by
  unfold recorded at h
  exact (Bool.and_eq_true_iff.mp h).1

/-! ## The handler that was answered -/

/-- Every 2xx has been written down, and whoever has published a copy has had none. -/
structure Silent (s : Workers) : Prop where
  marked : ∀ n ∈ s.nodes, n.log.any unmarks = false
  unanswered : ∀ n ∈ s.nodes, ∀ c msg, n.job = .handle c msg →
    (fates n.log).any Fate.isCopy = true → n.log.any answers = false

section Step

variable {batch : ℕ} {s t : Workers} {g : Origins} {l : LossyTurn} {i p : ℕ} {msg : Message}

theorem unmarks_run {o : LossyOutcome} {n : Worker} {st : Op} {r : Except String (Answer st)}
    {w : World} (hl : recorded s (.run i o) = true) (hn : s.nodes[i]? = some n)
    (hnext : Member.next n = some st) (hacts : World.lossyAct i st o s.world = some (r, w)) :
    unmarks ⟨st, r⟩ = false := by
  cases st with
  | eventMarkDelivered id =>
    have hturn : s.turn (.run i o) = some (.eventMarkDelivered id) := by
      rw [Workers.turn, hn, Option.bind_some, hnext]
    have hdone : o = .plain .done := by
      cases o with
      | answerLost e => simp [recorded, succeeds, hturn, marksDelivered] at hl
      | plain o =>
        cases o with
        | done => rfl
        | _ => simp [recorded, succeeds, hturn, marksDelivered] at hl
    subst hdone
    obtain ⟨rfl, -⟩ := Prod.mk.inj (Option.some.inj hacts)
    rfl
  | _ => rfl

/-- A handler that has been answered publishes no copy. -/
theorem unanswered_act {log : List Done} {st : Op} {r : Except String (Answer st)}
    (hmay : handlePassage msg log st) (hmarked : log.any unmarks = false)
    (hbefore : (fates log).any Fate.isCopy = true → log.any answers = false)
    (hcopies : (fates (log ++ [(⟨st, r⟩ : Done)])).any Fate.isCopy = true) :
    (log ++ [(⟨st, r⟩ : Done)]).any answers = false := by
  have hlast : ∀ d : Done, log.any answers = false ∧ posts d = false →
      (log ++ [d]).any answers = false := by
    rintro d ⟨hlog, hposts⟩
    simp [hlog, answers_of_posts hposts]
  apply hlast
  cases hcopied : (fates log).any Fate.isCopy with
  | true =>
    -- who has published a copy calls `fetch` no more
    refine ⟨hbefore hcopied, ?_⟩
    cases st with
    | fetch id post =>
      rw [hmay.2.1] at hcopied
      cases hcopied
    | _ => rfl
  | false =>
    rw [fates_append, List.any_append, hcopied, Bool.false_or] at hcopies
    cases st with
    | publish x key m e =>
      -- and none is published after a 2xx, but where it could not be marked
      obtain ⟨-, -, -, hcopy⟩ := hmay
      refine ⟨?_, rfl⟩
      by_contra hanswered
      rw [hcopy.unheard (by simpa using hanswered)] at hmarked
      cases hmarked
    | _ =>
      rw [fateOf_uncopied (fun _ _ _ _ => Op.noConfusion)] at hcopies
      cases hcopies

theorem Silent.move (h : Silent s) (hclosed : s.world.closed = [])
    (hmove : Move (passageDiscipline batch) s l t) (hl : recorded s l = true) : Silent t := by
  constructor
  · intro m hm
    cases hmove with
    | start born =>
      rcases List.mem_append.mp hm with hm | hm
      · exact h.marked m hm
      · obtain rfl := List.mem_singleton.mp hm
        rfl
    | run here script knows may acts =>
      rcases List.mem_or_eq_of_mem_set hm with hm | rfl
      · exact h.marked m hm
      · have hbefore := h.marked _ (List.mem_of_getElem? here)
        have hnow := unmarks_run hl here (by rw [Member.next, script]) acts
        simp [hbefore, hnow]
    | crash here live => cases recorded_unbroken hl
    | event happens => exact h.marked m hm
  · intro m hm c msg hjob hcopies
    cases hmove.grown hm with
    | old mem job log =>
      rw [log] at hcopies ⊢
      exact h.unanswered _ mem c msg (job ▸ hjob) hcopies
    | born label born log => simp [log]
    | acted label here knows may acts job log =>
      rename_i i o n st r
      rw [job] at hjob
      rw [log] at hcopies ⊢
      have hn := List.mem_of_getElem? here
      rcases Worked.of_handle hjob knows may acts with ⟨hmay, -⟩ | hbarred
      · exact unanswered_act hmay (h.marked n hn) (h.unanswered n hn c msg hjob) hcopies
      · exact absurd hbarred.closed (by simp [hclosed])

theorem Silent.uncopied (h : Silent s) {n : Worker} {c : ℕ} (hn : s.nodes[i]? = some n)
    (hjob : n.job = .handle c msg) (hanswered : n.log.any answers = true) :
    (fates n.log).any Fate.isCopy = false := by
  by_contra hcopies
  rw [h.unanswered n (List.mem_of_getElem? hn) c msg hjob (by simpa using hcopies)] at hanswered
  cases hanswered

theorem note_hands {o : Option ℕ} {k : ℕ} (hk : g.hands[k]? = some o) :
    (note s l t g).hands[k]? = some o := by
  have hlt : k < g.hands.length := (List.getElem?_eq_some_iff.mp hk).1
  unfold note
  split
  · rw [List.getElem?_append_left hlt, hk]
  · rw [pop, List.getElem?_append_left hlt, hk]
  · split
    · exact hk
    · exact hk
    · exact hk
  · split
    · exact hk
    · exact hk
  · exact hk

theorem Answered.move (h : Answered i p msg g s)
    (hmove : Move (passageDiscipline batch) s l t) : Answered i p msg (note s l t g) t := by
  obtain ⟨log, ⟨hhand, n, c, hn, hjob, rfl⟩, hanswered⟩ := h
  obtain ⟨m, hm, hsame, rest, hlog⟩ := hmove.persistsAt hn
  refine ⟨m.log, ⟨note_hands hhand, m, c, hm, hsame.trans hjob, rfl⟩, ?_⟩
  rw [← hlog, List.any_append, hanswered, Bool.true_or]

/-- Its publication is in its hands, and nowhere else. -/
theorem Answered.alone (h : Answered i p msg g s) (hg : g.Sound s) (hs : Silent s) :
    g.atRest (mine p) = 0 ∧ ∀ {j : ℕ} {msg' : Message} {log : List Done},
      g.Handles s j p msg' log → fates log = [] → j = i := by
  obtain ⟨log, ⟨hhand, n, c, hn, hjob, rfl⟩, hanswered⟩ := h
  have hnone := hs.uncopied hn hjob hanswered
  -- so it makes up the whole account of its publication
  have hself : inHand (uncopied p) (some p) n = 1 := by simp [inHand, hjob, uncopied, hnone]
  have hmine := hg.mine p
  have hle : g.account (mine p) (uncopied p) s ≤ 1 := by
    rw [hmine]
    split <;> omega
  rw [account] at hle
  constructor
  · have hone := Pool.le_totalWith (f := inHand (uncopied p)) hhand hn
    omega
  · rintro j msg' log ⟨hhand', m, c', hm, hjob', rfl⟩ hfates
    by_contra hne
    have hother : inHand (uncopied p) (some p) m = 1 := by
      simp [inHand, hjob', uncopied, hfates]
    have htwo := Pool.add_le_totalWith (f := inHand (uncopied p)) hhand' hm hhand hn hne
    omega

theorem Answered.waiting_eq_zero (h : Answered i p msg g s) (hg : g.Sound s) (hs : Silent s)
    (q : Queue) : g.waiting p q = 0 := by
  have hzero := (h.alone hg hs).1
  rw [atRest_mine] at hzero
  cases q <;> omega

/-- Who has still to decide on a message of the publication has called `fetch`. -/
theorem Answered.posted (h : Answered i p msg g s) (hg : g.Sound s) (hs : Silent s) {j : ℕ}
    {msg' : Message} {log : List Done} (handles : g.Handles s j p msg' log)
    (hfates : fates log = []) : log.any posts = true := by
  obtain rfl := (h.alone hg hs).2 handles hfates
  obtain ⟨-, m, c', hm, -, rfl⟩ := handles
  obtain ⟨log, ⟨-, n, c, hn, -, rfl⟩, hanswered⟩ := h
  obtain rfl := Option.some.inj (hm.symm.trans hn)
  by_contra hposts
  rw [any_answers_of_posts (by simpa using hposts)] at hanswered
  cases hanswered

/-- So `fetch` is called for it no more. -/
theorem Answered.calls_eq (h : Answered i p msg g s) (hg : g.Sound s) (hs : Silent s)
    {g' : Origins} (hcarries : Carries s g t g') : g'.calls p t = g.calls p s := by
  have hcalls : ∀ (g : Origins) (s : Workers), g.calls p s = g.account (fun _ _ _ => 0)
      (fun p' _ log => if p' = p then log.countP posts else 0) s := by
    intro g s
    simp [calls, account, atRest]
  rw [hcalls, hcalls]
  generalize hcount : (fun (p' : ℕ) (_ : Message) (log : List Done) =>
    if p' = p then log.countP posts else 0) = count
  have hunposted : ∀ (p' : ℕ) (msg : Message) (log : List Done) (d : Done),
      (p' = p → posts d = false) → count p' msg (log ++ [d]) = count p' msg log := by
    intro p' msg log d hd
    subst hcount
    simp only [countP_posts]
    split
    · simp [hd ‹_›]
    · rfl
  cases hcarries with
  | published count account => rw [account, Nat.add_zero]
  | handed hpublished account =>
    rename_i p' m
    have hacc := account (fun _ _ _ => 0) count
    have hzero : count p' m [] = 0 := by simp [← hcount]
    omega
  | acted hpublished handles may uncopied account =>
    -- the answered handler is the only one to decide, and it has called `fetch`
    rename_i j p' msg' log st r
    have hacc := account (fun _ _ _ => 0) count
    rw [hunposted p' msg' log ⟨st, r⟩ ?_] at hacc
    · omega
    · rintro rfl
      cases st with
      | fetch id post =>
        have hposted := h.posted hg hs handles may.2.1
        rw [may.2.2.1] at hposted
        cases hposted
      | _ => rfl
  | copied hpublished handles may route account =>
    have hacc := account (fun _ _ _ => 0) count
    rw [hunposted _ _ _ _ (fun _ => rfl)] at hacc
    omega
  | expired hpublished account =>
    have hacc := account (fun _ _ _ => 0) count
    omega
  | still hpublished account => rw [account]

end Step

/-! ## The row of its event -/

/-- What a handler has done first with its message is to publish it there. -/
def copiedTo (x : Exchange) (log : List Done) : Bool :=
  match (fates log).head? with
  | some (.copied y _ _) => decide (y = x)
  | _ => false

theorem copiedTo_append {x : Exchange} {log : List Done} {d : Done}
    (hd : (fateOf d).any Fate.isCopy = false) : copiedTo x (log ++ [d]) = copiedTo x log := by
  unfold copiedTo
  rw [fates_append]
  cases hfates : fates log with
  | cons f fs => rfl
  | nil =>
    rw [List.nil_append]
    cases hf : fateOf d with
    | nil => rfl
    | cons f fs =>
      rw [hf, List.any_cons, Bool.or_eq_false_iff] at hd
      cases f with
      | copied y m e => cases hd.1
      | _ => rfl

theorem copiedTo_copy {x y : Exchange} {log : List Done} {key : String} {m : Message}
    {e : Option ℕ} (hfates : fates log = []) :
    copiedTo x (log ++ [⟨.publish y key m e, .ok ()⟩]) = decide (y = x) := by
  unfold copiedTo
  rw [fates_append, hfates]
  rfl

theorem isCopy_of_copiedTo {x : Exchange} {log : List Done} (h : copiedTo x log = true) :
    (fates log).any Fate.isCopy = true := by
  unfold copiedTo at h
  split at h
  · rename_i y m e hhead
    rw [List.any_eq_true]
    exact ⟨_, List.mem_of_mem_head? hhead, rfl⟩
  · cases h

theorem copiedTo_one {x y : Exchange} {log : List Done} (h : copiedTo x log = true) (hne : x ≠ y) :
    copiedTo y log = false := by
  unfold copiedTo at h ⊢
  split at h
  · rename_i z m e hhead
    obtain rfl := of_decide_eq_true h
    exact decide_eq_false hne
  · cases h

/-- A message that may still be posted counts for one. -/
def inPlay (id : Uuid) (q : Queue) (m : Message) : ℕ :=
  if q = Q_DEAD then 0 else (carries id m).toNat

/-- And so does the handler of a message, if it publishes no retry. -/
def handling (id : Uuid) (msg : Message) (log : List Done) : ℕ :=
  if copiedTo EXCHANGE_RETRY log then 0 else (carries id msg).toNat

theorem inPlay_conserves (id : Uuid) : Conserves id (inPlay id) (handling id) where
  arrived := fun _ => rfl
  handed := fun _ => rfl
  acted := fun msg log d hd => by rw [handling, copiedTo_append hd, handling]
  copied := by
    intro msg log q x m e hfates hcopy hroute
    have hbefore : handling id msg log = (carries id msg).toNat := by
      simp [handling, copiedTo, hfates]
    rw [hbefore, handling, copiedTo_copy hfates]
    cases hcopy with
    | retry posted unheard attempt =>
      obtain rfl : Queue.retry = q := List.singleton_inj.mp hroute
      rfl
    | orphan gone unposted =>
      obtain rfl : Queue.dead = q := List.singleton_inj.mp hroute
      exact Nat.zero_add _
    | dead posted unheard attempt =>
      obtain rfl : Queue.dead = q := List.singleton_inj.mp hroute
      exact Nat.zero_add _
  expired := fun _ => rfl

/-- A failed row has been written by a handler that had published a dead letter. -/
def Blamed (s : Workers) : Prop :=
  ∀ r ∈ s.world.events, r.status = .failed → ∃ n ∈ s.nodes, ∃ c msg, n.job = .handle c msg ∧
    msg.content.outboxId = r.id ∧ copiedTo EXCHANGE_DEAD n.log = true

theorem World.act_failed {i : ℕ} {st : Op} {o : Outcome} {w w' : World}
    {r : Except String (Answer st)} (hact : World.act i st o w = some (r, w'))
    {row : WebhookEventRow} (hrow : row ∈ w'.events) (hfailed : row.status = .failed) :
    row ∈ w.events ∨ ∃ n e, st = .eventMarkFailed row.id n e := by
  rcases World.act_edits hact with hevents | ⟨p, g, hedits, hevents⟩
  · exact .inl (hevents ▸ hrow)
  · rw [hevents] at hrow
    obtain ⟨old, hold, rfl⟩ := List.mem_map.mp hrow
    by_cases hp : p old = true
    · rw [if_pos hp] at hfailed ⊢
      cases hedits with
      | failed => exact .inr ⟨_, _, by rw [of_decide_eq_true hp]⟩
      | _ => cases hfailed
    · rw [if_neg hp]
      exact .inl hold

theorem copiedTo_mono {x : Exchange} {log log' : List Done} (h : copiedTo x log = true)
    (hlog : log <+: log') : copiedTo x log' = true := by
  obtain ⟨rest, rfl⟩ := hlog
  have happend : fates (log ++ rest) = fates log ++ fates rest := List.flatMap_append
  unfold copiedTo at h ⊢
  rw [happend]
  cases hfates : fates log with
  | nil => simp [hfates] at h
  | cons f fs => simpa [hfates] using h

theorem Blamed.move {batch : ℕ} {s t : Workers} {l : LossyTurn} (h : Blamed s)
    (hmove : Move (passageDiscipline batch) s l t) : Blamed t := by
  intro row hrow hfailed
  have hold : row ∈ s.world.events → ∃ n ∈ t.nodes, ∃ c msg, n.job = .handle c msg ∧
      msg.content.outboxId = row.id ∧ copiedTo EXCHANGE_DEAD n.log = true := by
    intro hrow
    obtain ⟨n, hn, c, msg, hjob, hid, hdead⟩ := h row hrow hfailed
    obtain ⟨m, hm, hsame, hlog⟩ := hmove.persists hn
    exact ⟨m, hm, c, msg, hsame.trans hjob, hid, copiedTo_mono hdead hlog⟩
  cases hmove with
  | start born =>
    rw [World.lossyBirth_events born] at hrow
    exact hold hrow
  | run here script knows may acts =>
    rename_i i o n st k r w
    -- a row is marked failed by a handler whose dead letter is out
    have hwritten : ∀ a e, st = .eventMarkFailed row.id a e →
        ∃ m ∈ s.nodes.set i ⟨n.job, n.log ++ [⟨st, r⟩], some (k r)⟩, ∃ c msg,
          m.job = .handle c msg ∧ msg.content.outboxId = row.id ∧
            copiedTo EXCHANGE_DEAD m.log = true := by
      rintro a e rfl
      refine ⟨_, List.mem_set (List.getElem?_eq_some_iff.mp here).1 _, ?_⟩
      cases hjob : n.job with
      | relayTick =>
        rw [hjob] at may
        exact may.elim
      | handle c msg =>
        rw [hjob] at may
        obtain ⟨hid, -, x, m, e', rfl, -, hfates⟩ | ⟨-, hchannel⟩ := may
        · refine ⟨c, msg, rfl, hid.symm, copiedTo_mono ?_ (List.prefix_append _ _)⟩
          simp [copiedTo, hfates]
        · cases hchannel
    rcases World.lossyAct_cases acts with
      ⟨o', -, -, hact⟩ | ⟨e, -, -, -, -, hsame⟩ | ⟨e, r', -, -, hact, -⟩
    · rcases World.act_failed hact hrow hfailed with hrow | ⟨a, e, hst⟩
      · exact hold hrow
      · exact hwritten a e hst
    · exact hold (hsame ▸ hrow)
    · rcases World.act_failed hact hrow hfailed with hrow | ⟨a, e, hst⟩
      · exact hold hrow
      · exact hwritten a e hst
  | crash here live =>
    rename_i i n
    have hevents : (World.crash i n.job s.world).events = s.world.events := by
      cases n.job <;> rfl
    exact hold (hevents ▸ hrow)
  | event happens =>
    rename_i e w
    cases e with
    | channelLost i =>
      obtain rfl := Option.some.inj happens
      exact hold hrow
    | plain e =>
      cases e with
      | tick k =>
        obtain rfl := Option.some.inj happens
        exact hold hrow
      | enqueue id m e type payload since =>
        obtain ⟨-, -, rfl⟩ := World.enqueue_eq_some happens
        rcases List.mem_append.mp hrow with hrow | hrow
        · exact hold hrow
        · obtain rfl := List.mem_singleton.mp hrow
          cases hfailed
      | register r =>
        obtain rfl := Option.some.inj happens
        exact hold hrow
      | expire =>
        obtain ⟨b, -, rfl⟩ := Option.map_eq_some_iff.mp happens
        exact hold hrow

/-! ## Every run -/

section Runs

variable {batch : ℕ} {ls ls' : List LossyTurn} {s t : Workers} {i p : ℕ} {msg : Message}

theorem silent_begin : Silent (Pool.begin .empty) where
  marked := fun n hn => by cases hn
  unanswered := fun n hn => by cases hn

theorem silent_along
    (h : (Pool.begin .empty).runWhile lossyDevice (workerProgramOf batch) recorded ls = some s) :
    (along batch ls).Sound s ∧ Silent s := by
  refine Pool.run_traced (K := passageDiscipline batch)
    (I := fun (g : Origins) s => g.Sound s ∧ Silent s) ?_
    ((passageDiscipline batch).follows_begin _) h ⟨.begin, silent_begin⟩
  rintro g s t l ⟨hg, hs⟩ hmove hl
  exact ⟨hg.move hmove (recorded_unbroken hl), hs.move hg.tracks.opened hmove hl⟩

theorem along_append
    (h : (Pool.begin .empty).runWhile lossyDevice (workerProgramOf batch) recorded ls = some s) :
    along batch (ls ++ ls') = s.trace lossyDevice (workerProgramOf batch) note ls'
      (along batch ls) :=
  Pool.trace_append (Pool.run_of_runWhile h)

/-- The answered handler stays, and its publication calls `fetch` no more. -/
theorem answered_runs
    (h : (Pool.begin .empty).runWhile lossyDevice (workerProgramOf batch) recorded ls = some s)
    (h' : s.runWhile lossyDevice (workerProgramOf batch) recorded ls' = some t)
    (ha : Answered i p msg (along batch ls) s) :
    Answered i p msg (along batch (ls ++ ls')) t ∧
      (along batch (ls ++ ls')).calls p t = (along batch ls).calls p s := by
  rw [along_append h]
  generalize hcalls : (along batch ls).calls p s = k
  have hfollows := ((passageDiscipline batch).follows_begin _).runs (Runs.of_runWhile h)
  obtain ⟨hg, hs⟩ := silent_along h
  refine (Pool.run_traced (K := passageDiscipline batch)
    (I := fun (g : Origins) s => (g.Sound s ∧ Silent s) ∧ Answered i p msg g s ∧ g.calls p s = k) ?_
    hfollows h' ⟨⟨hg, hs⟩, ha, hcalls⟩).2
  rintro g s t l ⟨⟨hg, hs⟩, ha, rfl⟩ hmove hl
  have hl' := recorded_unbroken hl
  refine ⟨⟨hg.move hmove hl', hs.move hg.tracks.opened hmove hl⟩, ha.move hmove, ?_⟩
  exact ha.calls_eq hg hs (hg.tracks.move hg.owed hmove hl').2

theorem blamed_begin : Blamed (Pool.begin .empty) := by
  intro r hr
  cases hr

theorem handsBack_unbroken {id : Uuid} {s t : Workers} {l : LossyTurn}
    (hl : unbroken s l = true) : handsBack id s l t = false := by
  unfold unbroken at hl
  split at hl
  · cases hl
  · cases hl
  · rename_i hcrash hlost
    unfold handsBack Workers.handedBack
    split
    · exact absurd rfl (hcrash _)
    · exact absurd rfl (hlost _)
    · rfl

/-- Each message of the event that is in play has been published. -/
theorem inPlay_le
    (h : (Pool.begin .empty).runWhile lossyDevice (workerProgramOf batch) recorded ls = some s)
    (id : Uuid) : s.account (inPlay id) (handling id) ≤ s.publications id ∧ Blamed s := by
  have hinv : AllOwed s ∧ Blamed s ∧
      s.account (inPlay id) (handling id) ≤ s.publications id := by
    refine Runs.invariant (K := passageDiscipline batch) (I := fun s => AllOwed s ∧ Blamed s ∧
      Workers.account (inPlay id) (handling id) s ≤ Workers.publications s id) ?_
      ((passageDiscipline batch).follows_begin _) (Runs.of_runWhile h)
      ⟨allOwed_begin, blamed_begin, Nat.le_refl 0⟩
    rintro s t l ⟨howed, hblamed, hle⟩ hmove hl
    refine ⟨howed.move hmove, hblamed.move hmove, ?_⟩
    rw [(Passage.of_move howed hmove).conserved (inPlay_conserves id)]
    have htakes : Workers.publications s id + (takes id s l t).toNat ≤ Workers.publications t id :=
      takes_publications hmove
    have harrives : (arrives id s l t).toNat ≤ (takes id s l t).toNat := by
      cases harrives : arrives id s l t with
      | false => exact Nat.zero_le _
      | true =>
        -- without crashes and lost channels only a relay brings a message in
        rcases arrives_of harrives with htakes | hback
        · rw [htakes]
        · rw [handsBack_unbroken (recorded_unbroken hl)] at hback
          cases hback
    omega
  exact ⟨hinv.2.2, hinv.2.1⟩

/-- No one gives its event up, unless its row was put back. -/
theorem Answered.not_failed {g : Origins} (ha : Answered i p msg g s)
    (h : (Pool.begin .empty).runWhile lossyDevice (workerProgramOf batch) recorded ls = some s)
    (hputs : putsBack batch msg.content.outboxId (Pool.begin .empty) ls = 0) :
    ∀ r ∈ s.world.events, r.id = msg.content.outboxId → r.status ≠ .failed := by
  intro r hr hid hfailed
  obtain ⟨hle, hblamed⟩ := inPlay_le h msg.content.outboxId
  have hpublished := publications_le (Pool.run_of_runWhile h) msg.content.outboxId
  obtain ⟨m, hm, c', msg', hjob', hsame, hdead⟩ := hblamed r hr hfailed
  obtain ⟨j, hj⟩ := List.mem_iff_getElem?.mp hm
  obtain ⟨log, ⟨-, n, c, hn, hjob, rfl⟩, hanswered⟩ := ha
  have huncopied : ∀ x, copiedTo x n.log = false := by
    intro x
    by_contra hcopied
    have hcopies := isCopy_of_copiedTo (x := x) (by simpa using hcopied)
    rw [(silent_along h).2.uncopied hn hjob hanswered] at hcopies
    cases hcopies
  have hne : j ≠ i := by
    rintro rfl
    obtain rfl := Option.some.inj (hj.symm.trans hn)
    rw [huncopied] at hdead
    cases hdead
  have hunretried := copiedTo_one hdead (y := EXCHANGE_RETRY) (by decide)
  -- two handlers of the event in play, and one publication
  have htwo := Pool.add_le_total (Worker.account (handling msg.content.outboxId)) hj hn hne
  have hself : Worker.account (handling msg.content.outboxId) n = 1 := by
    simp [Worker.account, hjob, handling, huncopied, carries]
  have hother : Worker.account (handling msg.content.outboxId) m = 1 := by
    simp [Worker.account, hjob', handling, hunretried, carries, hsame, hid]
  unfold Workers.account at hle
  omega

end Runs

end Origins

section Instances

variable {s : Workers} {g : Origins} {i p c : ℕ} {msg : Message}

theorem Origins.Answered.of_any (hhand : g.hands[i]? = some (some p))
    (hn : (s.nodes[i]?).any (fun n => decide (n.job = .handle c msg) && n.log.any answers) = true) :
    Answered i p msg g s := by
  obtain ⟨n, hget, hthen⟩ := (Option.any_eq_true _ _).mp hn
  obtain ⟨hjob, hanswered⟩ := Bool.and_eq_true_iff.mp hthen
  exact ⟨n.log, ⟨hhand, n, c, hget, of_decide_eq_true hjob, rfl⟩, hanswered⟩

end Instances

/-- Handler `i` is answered 200. -/
def answerOne (i : ℕ) : List Turn :=
  [.start (.handle 0 messageOne), .run i .done, .run i (.status 200)]

/-- Handler `i` is answered 503, and publishes a copy. -/
def refuseOne (i k : ℕ) : List Turn :=
  [.start (.handle 0 ⟨messageOne.content, some k⟩), .run i .done, .run i (.status 503),
    .run i .done, .run i .done, .event (.tick (milliseconds (backoffMs k)))]

def answeredOnce : List LossyTurn := List.map lossless (publishOne ++ answerOne 1)

/-- The event is marked delivered, and the message acknowledged. -/
def markedOnce : List LossyTurn := List.map lossless [.run 1 .done, .run 1 .done]

/-- The event is delivered at the second attempt. -/
def secondTime : List WebhookWorker.Turn :=
  WebhookWorker.twoRounds.dropLast ++ [.run 3 (.status 204), .run 3 (.done [])]

/-- The channel is closed before the message is acknowledged, and the message is
handled again. -/
def handledAgain : List LossyTurn :=
  .event (.channelLost 1) :: List.map lossless (refuseOne 2 1)

/-- The broker keeps the message of an event but confirms nothing, so the tick puts
the row back, and another publishes the event again. -/
def publishTwice : List Turn :=
  publishOne ++ [.run 0 (.failed "nacked"), .run 0 .done, .start .relayTick] ++
    List.replicate 5 (.run 1 .done)

/-- The first message is delivered, and the second is not in five attempts. -/
def givenUp : List Turn :=
  [.run 2 .done, .run 2 .done] ++ refuseOne 3 1 ++ [.event .expire] ++ refuseOne 4 2 ++
    [.event .expire] ++ refuseOne 5 3 ++ [.event .expire] ++ refuseOne 6 4 ++ [.event .expire] ++
    refuseOne 7 5

/-- A worker has claimed the event and is slow; its lease runs out, and another
worker delivers the event before the first posts it. -/
def lateOnce : List WebhookWorker.Turn :=
  WebhookWorker.enqueueOne ++ (WebhookWorker.round 0 0 0 none 500).dropLast ++
    [.event (.tick (seconds 60))] ++ WebhookWorker.round 1 0 (seconds 60) none 200 ++
    WebhookWorker.record 1 0 ++ [.run 1 (.status 500)]

/-- No process crashes, and no statement fails. -/
def WebhookWorker.faultless (_ : WebhookWorker.Tasks) : WebhookWorker.Turn → Bool
  | .crash _ => false
  | .run _ (.failed _) => false
  | _ => true

end PaymentApis
