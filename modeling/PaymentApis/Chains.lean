import PaymentApis.Fates

/-!
# Retry chains

A publication of an event starts a chain: the message is handled, and each
handler that fails to deliver it publishes one copy that carries the next
attempt. Chains do not fork, and each takes at most five attempts.
-/

namespace PaymentApis

open TxStore Processes

/-! ## Accounts -/

/-- The weights of all messages at rest. -/
def World.account (f : Queue → Message → ℕ) (w : World) : ℕ :=
  w.broker.weigh (f .deliver) .deliver + w.broker.weigh (f .retry) .retry +
    w.broker.weigh (f .dead) .dead

/-- The weight of a handler, from its message and its record. -/
def Worker.account (g : Message → List Done → ℕ) (n : Worker) : ℕ :=
  match n.job with
  | .relayTick => 0
  | .handle _ msg => g msg n.log

def Workers.account (f : Queue → Message → ℕ) (g : Message → List Done → ℕ) (s : Workers) : ℕ :=
  s.world.account f + s.total (Worker.account g)

/-- The message process `i` owes the broker an answer for. -/
def World.owed (w : World) (i : ℕ) : Option Message :=
  (w.broker.unacked.find? (fun d => decide (d.tag = i))).map (·.message)

/-- The message of a relay that a step puts into the main queue. -/
def Workers.taken (s : Workers) : LossyTurn → Option Message
  | .run i (.plain .done) =>
    match (s.nodes[i]?).bind Member.next with
    | some (.confirmPublish _ _ m) => some m
    | _ => none
  | _ => none

/-- The message a step hands back to the main queue. -/
def Workers.handedBack (s : Workers) : LossyTurn → Option Message
  | .crash i => s.world.owed i
  | .event (.channelLost i) => s.world.owed i
  | _ => none

def Workers.arrival (s : Workers) (l : LossyTurn) : Option Message := s.taken l <|> s.handedBack l

/-- The calls of `fetch` for an event. -/
def World.posted (w : World) (id : Uuid) : ℕ :=
  w.attempts.countP (fun a => decide (a.outboxId = id))

/-- What an action of a handler sends. -/
inductive Sent (msg : Message) (w w' : World) : Op → Prop
  | nothing {st} (quiet : ∀ id post, st ≠ .fetch id post) (attempts : w'.attempts = w.attempts) :
      Sent msg w w' st
  | request {post} (status : Option ℕ)
      (attempts : w'.attempts = w.attempts ++ [⟨msg.content.outboxId, post, status⟩]) :
      Sent msg w w' (.fetch msg.content.outboxId post)

/-- What a step does to the messages. -/
inductive Passage (s : Workers) (l : LossyTurn) (t : Workers) : Prop
  /-- A message comes into the main queue. -/
  | arrived {m} (arrival : s.arrival l = some m) (attempts : t.world.attempts = s.world.attempts)
      (account : ∀ f g, t.account f g = s.account f g + f .deliver m)
  /-- A message is handed to a handler. -/
  | handed {m} (arrival : s.arrival l = none) (attempts : t.world.attempts = s.world.attempts)
      (account : ∀ f g, t.account f g + f .deliver m = s.account f g + g m [])
  /-- A handler acts. -/
  | acted {c msg log st} {r : Except String (Answer st)} (arrival : s.arrival l = none)
      (mem : ∃ n ∈ s.nodes, n.job = .handle c msg ∧ n.log = log) (may : handlePassage msg log st)
      (sent : Sent msg s.world t.world st)
      (account : ∀ f g, t.account f g + g msg log = s.account f g + g msg (log ++ [⟨st, r⟩]))
      (uncopied : ∀ x key m e, st ≠ .publish x key m e)
  /-- A handler publishes a copy. -/
  | copied {c msg log q x key m e} (arrival : s.arrival l = none)
      (mem : ∃ n ∈ s.nodes, n.job = .handle c msg ∧ n.log = log)
      (may : handlePassage msg log (.publish x key m e)) (route : topology.route x key = [q])
      (attempts : t.world.attempts = s.world.attempts)
      (account : ∀ f g, t.account f g + g msg log =
        s.account f g + f q m + g msg (log ++ [⟨.publish x key m e, .ok ()⟩]))
  /-- A handler finds its channel closed. -/
  | barred {c msg log st} {e : String} (arrival : s.arrival l = none)
      (attempts : t.world.attempts = s.world.attempts) (channel : st.onChannel = true)
      (mem : ∃ n ∈ s.nodes, n.job = .handle c msg ∧ n.log = log)
      (account : ∀ f g, t.account f g + g msg log = s.account f g + g msg (log ++ [⟨st, .error e⟩]))
  /-- A copy has waited for its time. -/
  | expired {m} (arrival : s.arrival l = none) (attempts : t.world.attempts = s.world.attempts)
      (account : ∀ f g, t.account f g + f .retry m = s.account f g + f .deliver m)
  | still (arrival : s.arrival l = none) (attempts : t.world.attempts = s.world.attempts)
      (account : ∀ f g, t.account f g = s.account f g)

section Account

variable {f : Queue → Message → ℕ} {g : Message → List Done → ℕ} {s : Workers} {w : World} {i : ℕ}
  {n : Worker}

theorem World.account_congr {w w' : World} (h : w'.broker.ready = w.broker.ready) :
    w'.account f = w.account f := by
  simp only [World.account, Broker.State.weigh, h]

/-- A process takes a step in the world `w`. -/
theorem Workers.account_set (hn : s.nodes[i]? = some n) (m : Worker) :
    Workers.account f g ⟨w, s.nodes.set i m⟩ + s.world.account f + Worker.account g n =
      w.account f + s.account f g + Worker.account g m := by
  have htotal := Pool.total_set (f := Worker.account g) hn w m
  simp only [Workers.account]
  omega

theorem World.account_publish (q : Queue) {x : Exchange} {key : String}
    {m : Message} {e : Option ℕ} (hroute : topology.route x key = [q])
    (h : w.broker = s.world.broker.publish topology x key m e) :
    w.account f = s.world.account f + f q m := by
  simp only [World.account, h, Broker.State.weigh_publish, hroute, List.mem_singleton]
  cases q <;> simp <;> omega

theorem World.account_requeue {d : Broker.Delivery Queue Message}
    (hd : s.world.broker.unacked.find? (fun d => decide (d.tag = i)) = some d)
    (hqueue : d.queue = Q_DELIVER) (h : w.broker = s.world.broker.requeue i) :
    w.account f = s.world.account f + f .deliver d.message := by
  simp only [World.account, h, Broker.State.weigh_requeue hd, hqueue]
  simp
  omega

end Account

section Step

variable {s t : Workers} {l : LossyTurn} {i : ℕ} {n : Worker} {st : Op} {o : LossyOutcome}
  {w : World} {r : Except String (Answer st)} {script : Option (Script Unit)}

theorem Workers.arrival_run (hn : s.nodes[i]? = some n) (hnext : Member.next n = some st)
    (hst : ∀ x key m, st ≠ .confirmPublish x key m) : s.arrival (.run i o) = none := by
  have htaken : s.taken (.run i o) = none := by
    cases o with
    | answerLost e => rfl
    | plain o =>
      cases o with
      | done =>
        simp only [Workers.taken, hn, Option.bind_some, hnext]
        cases st with
        | confirmPublish x key m => exact absurd rfl (hst x key m)
        | _ => rfl
      | _ => rfl
  simp [Workers.arrival, htaken, Workers.handedBack]

/-- A relay acts. -/
theorem Passage.of_relay (hn : s.nodes[i]? = some n) (hjob : n.job = .relayTick)
    (hnext : Member.next n = some st) (hmay : relayPassage n.log st)
    (hworked : Worked i s.world st o r w ∨ Barred i s.world st o r w) :
    Passage s (.run i o) ⟨w, s.nodes.set i ⟨n.job, n.log ++ [⟨st, r⟩], script⟩⟩ := by
  have haccount : ∀ f g k, w.account f = s.world.account f + k →
      Workers.account f g ⟨w, s.nodes.set i ⟨n.job, n.log ++ [⟨st, r⟩], script⟩⟩ =
        s.account f g + k := by
    intro f g k hworld
    have hset := Workers.account_set (f := f) (g := g) (w := w) hn
      ⟨n.job, n.log ++ [⟨st, r⟩], script⟩
    simp only [Worker.account, hjob] at hset ⊢
    omega
  have hstill : w.broker = s.world.broker → w.attempts = s.world.attempts →
      (∀ x key m, st ≠ .confirmPublish x key m) →
      Passage s (.run i o) ⟨w, s.nodes.set i ⟨n.job, n.log ++ [⟨st, r⟩], script⟩⟩ := by
    intro hbroker hattempts hst
    refine .still (Workers.arrival_run hn hnext hst) hattempts ?_
    exact fun f g => haccount f g 0 (World.account_congr (by rw [hbroker]))
  rcases hworked with hworked | hbarred
  · cases hworked with
    | statement hst hbroker hattempts hclosed =>
      refine hstill hbroker hattempts ?_
      rintro x key m rfl
      cases hst
    | kept =>
      rename_i x key m
      obtain ⟨rfl, rfl, -⟩ := hmay
      refine .arrived (m := m) ?_ rfl ?_
      · simp [Workers.arrival, Workers.taken, hn, hnext]
      · exact fun f g => haccount f g _ (World.account_publish .deliver rfl rfl)
    | refused =>
      refine .still ?_ rfl ?_
      · simp [Workers.arrival, Workers.taken, Workers.handedBack]
      · exact fun f g => haccount f g 0 (World.account_congr rfl)
    | awaited => exact hstill rfl rfl (fun _ _ _ => Op.noConfusion)
    | _ => exact hmay.elim
  · obtain ⟨-, -, ⟨e, rfl, -⟩, rfl⟩ := hbarred
    exact .still rfl rfl (fun f g => haccount f g 0 rfl)

/-- A handler acts. -/
theorem Passage.of_handle {c : ℕ} {msg : Message} (hs : AllOwed s) (hn : s.nodes[i]? = some n)
    (hjob : n.job = .handle c msg) (hnext : Member.next n = some st)
    (hworked : handlePassage msg n.log st ∧ Worked i s.world st o r w ∨
      Barred i s.world st o r w) :
    Passage s (.run i o) ⟨w, s.nodes.set i ⟨n.job, n.log ++ [⟨st, r⟩], script⟩⟩ := by
  have hmem : ∃ m ∈ s.nodes, m.job = .handle c msg ∧ m.log = n.log :=
    ⟨n, List.mem_of_getElem? hn, hjob, rfl⟩
  have haccount : ∀ f g k, w.account f = s.world.account f + k →
      Workers.account f g ⟨w, s.nodes.set i ⟨n.job, n.log ++ [⟨st, r⟩], script⟩⟩ + g msg n.log =
        s.account f g + k + g msg (n.log ++ [⟨st, r⟩]) := by
    intro f g k hworld
    have hset := Workers.account_set (f := f) (g := g) (w := w) hn
      ⟨n.job, n.log ++ [⟨st, r⟩], script⟩
    simp only [Worker.account, hjob] at hset ⊢
    omega
  rcases hworked with ⟨hmay, hworked⟩ | hbarred
  · have hacted : w.broker.ready = s.world.broker.ready →
        (∀ x key m, st ≠ .confirmPublish x key m) → (∀ x key m e, st ≠ .publish x key m e) →
        Sent msg s.world w st →
        Passage s (.run i o) ⟨w, s.nodes.set i ⟨n.job, n.log ++ [⟨st, r⟩], script⟩⟩ := by
      intro hready hconfirm hpublish hsent
      refine .acted (r := r) (Workers.arrival_run hn hnext hconfirm) hmem hmay hsent ?_ hpublish
      exact fun f g => haccount f g 0 (World.account_congr hready)
    cases hworked with
    | statement hst hbroker hattempts hclosed =>
      refine hacted (by rw [hbroker]) ?_ ?_ (.nothing ?_ hattempts)
      · rintro x key m rfl
        cases hst
      · rintro x key m e rfl
        cases hst
      · rintro id post rfl
        cases hst
    | copied expiresAt =>
      rename_i x key m e
      have hroute : ∃ q, topology.route x key = [q] := by
        obtain ⟨rfl, -, -, hcopy⟩ := hmay
        cases hcopy with
        | retry posted unheard attempt => exact ⟨.retry, rfl⟩
        | orphan gone unposted => exact ⟨.dead, rfl⟩
        | dead posted unheard attempt => exact ⟨.dead, rfl⟩
      obtain ⟨q, hroute⟩ := hroute
      refine .copied (Workers.arrival_run hn hnext (fun _ _ _ => Op.noConfusion)) hmem hmay hroute
        rfl ?_
      exact fun f g => haccount f g _ (World.account_publish q hroute rfl)
    | fetched status =>
      rename_i id post
      obtain ⟨rfl, -⟩ := hmay
      exact hacted rfl (fun _ _ _ => Op.noConfusion) (fun _ _ _ _ => Op.noConfusion)
        (.request status rfl)
    | acked =>
      exact hacted rfl (fun _ _ _ => Op.noConfusion) (fun _ _ _ _ => Op.noConfusion)
        (.nothing (fun _ _ => Op.noConfusion) rfl)
    | nacked =>
      refine hacted ?_ (fun _ _ _ => Op.noConfusion) (fun _ _ _ _ => Op.noConfusion)
        (.nothing (fun _ _ => Op.noConfusion) rfl)
      exact (World.nack_broker (fun d hd => (hs d hd).queue) i).1
    | _ => exact hmay.elim
  · obtain ⟨hchannel, -, ⟨e, rfl, rfl⟩, rfl⟩ := hbarred
    exact .barred rfl rfl hchannel hmem (fun f g => haccount f g 0 rfl)

/-- A message is handed back, where there is one. -/
theorem Passage.of_requeue (hs : AllOwed s) {nodes : List Worker}
    (htotal : ∀ g, Pool.total (Worker.account g) ⟨w, nodes⟩ = s.total (Worker.account g))
    (hback : s.arrival l = s.world.owed i) (hw : w.attempts = s.world.attempts)
    (hbroker : w.broker = s.world.broker.requeue i) : Passage s l ⟨w, nodes⟩ := by
  cases hd : s.world.broker.unacked.find? (fun d => decide (d.tag = i)) with
  | none =>
    refine .still (by rw [hback, World.owed, hd, Option.map_none]) hw ?_
    intro f g
    have hworld : w.account f = s.world.account f :=
      World.account_congr (by rw [hbroker, Broker.State.requeue_of_none hd])
    simp only [Workers.account, htotal, hworld]
  | some d =>
    have hqueue := (hs d (List.mem_of_find?_eq_some hd)).queue
    refine .arrived (m := d.message) (by rw [hback, World.owed, hd, Option.map_some]) hw ?_
    intro f g
    have hworld : w.account f = s.world.account f + f .deliver d.message :=
      World.account_requeue hd hqueue hbroker
    simp only [Workers.account, htotal, hworld]
    omega

theorem World.owed_none (hs : AllOwed s) (hn : s.nodes[i]? = some n) (hjob : n.job = .relayTick) :
    s.world.owed i = none := by
  unfold World.owed
  cases hd : s.world.broker.unacked.find? (fun d => decide (d.tag = i)) with
  | none => rfl
  | some d =>
    have htag : d.tag = i := by simpa using List.find?_some hd
    obtain ⟨m, hm, hhandles, -⟩ := (hs d (List.mem_of_find?_eq_some hd)).handler
    rw [htag, hn, Option.some.injEq] at hm
    subst hm
    rw [hjob] at hhandles
    cases hhandles

/-- Every step is one of these. -/
theorem Passage.of_move {batch : ℕ} (hs : AllOwed s)
    (hmove : Move (passageDiscipline batch) s l t) : Passage s l t := by
  cases hmove with
  | start born =>
    rename_i j w c
    have htotal : ∀ g, Pool.total (Worker.account g) ⟨w, s.nodes ++ [⟨j, [], some c⟩]⟩ =
        s.total (Worker.account g) + Worker.account g ⟨j, [], some c⟩ :=
      fun g => Pool.total_append _ s w _
    obtain ⟨v, hv, rfl⟩ := World.lossyBirth_eq_some born
    cases j with
    | relayTick =>
      obtain rfl := Option.some.inj hv
      refine .still rfl rfl ?_
      intro f g
      simp only [Workers.account, htotal, Worker.account, Nat.add_zero]
      rfl
    | handle k msg =>
      simp only [World.birth] at hv
      split at hv
      · rename_i m b hdeliver
        split at hv
        · rename_i hm
          obtain rfl := Option.some.inj hv
          subst hm
          refine .handed (m := m) rfl rfl ?_
          intro f g
          have hd := Broker.State.weigh_deliver (f := f .deliver) .deliver hdeliver
          have hr := Broker.State.weigh_deliver (f := f .retry) .retry hdeliver
          have hx := Broker.State.weigh_deliver (f := f .dead) .dead hdeliver
          simp only [if_true, reduceCtorEq, if_false, Nat.add_zero] at hd hr hx
          simp only [Workers.account, htotal, Worker.account]
          simp only [World.account, World.opening]
          omega
        · cases hv
      · cases hv
  | run here script knows may acts =>
    rename_i i o n st k r w
    have hnext : Member.next n = some st := by rw [Member.next, script]
    cases hjob : n.job with
    | relayTick =>
      have hmay : relayPassage n.log st := by
        simpa only [passageDiscipline, hjob, passage] using may
      have hworked := (Worked.of_act acts).imp (fun h => h.2) id
      exact hjob ▸ Passage.of_relay here hjob hnext hmay hworked
    | handle c msg =>
      exact hjob ▸ Passage.of_handle hs here hjob hnext (Worked.of_handle hjob knows may acts)
  | crash here live =>
    rename_i i n
    have htotal : ∀ (w : World) g,
        Pool.total (Worker.account g) ⟨w, s.nodes.set i ⟨n.job, n.log, none⟩⟩ =
        s.total (Worker.account g) := by
      intro w g
      have hset := Pool.total_set (f := Worker.account g) here w ⟨n.job, n.log, none⟩
      have hsame : Worker.account g ⟨n.job, n.log, none⟩ = Worker.account g n := rfl
      omega
    cases hjob : n.job with
    | relayTick =>
      refine .still ?_ ?_ ?_
      · simp [Workers.arrival, Workers.taken, Workers.handedBack, World.owed_none hs here hjob]
      · simp [lossyDevice, World.crash]
      · intro f g
        simp only [Workers.account]
        rw [← hjob, htotal]
        simp [lossyDevice, World.crash, hjob]
    | handle c msg =>
      refine Passage.of_requeue (i := i) hs (fun g => ?_) ?_ ?_ ?_
      · rw [← hjob]
        exact htotal _ g
      · simp [Workers.arrival, Workers.taken, Workers.handedBack]
      · simp [lossyDevice, World.crash]
      · simp [lossyDevice, World.crash]
  | event happens =>
    rename_i e w
    cases e with
    | channelLost i =>
      obtain rfl := Option.some.inj happens
      exact Passage.of_requeue (i := i) hs (fun _ => rfl)
        (by simp [Workers.arrival, Workers.taken, Workers.handedBack]) rfl rfl
    | plain e =>
      have hnone : s.arrival (.event (.plain e)) = none := rfl
      cases e with
      | tick n =>
        obtain rfl := Option.some.inj happens
        exact .still hnone rfl (fun _ _ => rfl)
      | enqueue id m e type payload since =>
        obtain ⟨-, -, rfl⟩ := World.enqueue_eq_some happens
        exact .still hnone rfl (fun _ _ => rfl)
      | register row =>
        obtain rfl := Option.some.inj happens
        exact .still hnone rfl (fun _ _ => rfl)
      | expire =>
        obtain ⟨b, hb, rfl⟩ := Option.map_eq_some_iff.mp happens
        obtain ⟨y, -, hweigh⟩ := Broker.State.weigh_expire (x := EXCHANGE) (k := ROUTING_KEY) rfl hb
        refine .expired (m := y.message) hnone rfl ?_
        intro f g
        have hd := hweigh (f .deliver) .deliver
        have hr := hweigh (f .retry) .retry
        have hx := hweigh (f .dead) .dead
        simp only [route_webhooks, List.mem_singleton, reduceCtorEq, if_true, if_false,
          Nat.add_zero] at hd hr hx
        have hsame : ∀ w : World, Pool.total (Worker.account g) (⟨w, s.nodes⟩ : Workers) =
            s.total (Worker.account g) := fun _ => rfl
        simp only [Workers.account, World.account, hsame]
        omega

end Step

/-! ## The attempts of a message -/

/-- Every message in a queue, or being handled, satisfies `P`. -/
structure Everywhere (P : Queue → Message → Prop) (s : Workers) : Prop where
  broker : s.world.broker.Every P
  jobs : ∀ n ∈ s.nodes, ∀ c msg, n.job = .handle c msg → P Q_DELIVER msg

theorem Everywhere.mono {P P' : Queue → Message → Prop} {s : Workers} (h : Everywhere P s)
    (hp : ∀ q m, P q m → P' q m) : Everywhere P' s where
  broker := ⟨fun q x hx => hp q _ (h.broker.ready q x hx),
    fun d hd => hp d.queue _ (h.broker.unacked d hd)⟩
  jobs := fun n hn c msg hjob => hp _ _ (h.jobs n hn c msg hjob)

theorem everywhere_begin {P : Queue → Message → Prop} : Everywhere P (Pool.begin .empty) where
  broker := Broker.State.every_empty
  jobs := by
    intro n hn
    cases hn

/-- `P` of what a handler receives goes over to what it may publish, and to what
comes back of that. -/
structure Passes (P : Queue → Message → Prop) : Prop where
  retry : ∀ msg, P Q_DELIVER msg → msg.attempt < MAX_ATTEMPTS →
    P Q_RETRY ⟨msg.content, some (msg.attempt + 1)⟩
  orphan : ∀ msg, P Q_DELIVER msg → P Q_DEAD ⟨msg.content, none⟩
  dead : ∀ msg, P Q_DELIVER msg → P Q_DEAD ⟨msg.content, some msg.attempt⟩
  back : ∀ msg, P Q_RETRY msg → P Q_DELIVER msg

theorem Passes.copies {P : Queue → Message → Prop} (hP : Passes P) {msg m : Message}
    {log : List Done} {x : Exchange} {e : Option ℕ} {q : Queue} (h : P Q_DELIVER msg)
    (hcopy : Copies msg log (.copied x m e)) (hq : q ∈ topology.route x ROUTING_KEY) : P q m := by
  cases hcopy with
  | retry posted unheard attempt =>
    obtain rfl := List.mem_singleton.mp hq
    exact hP.retry msg h attempt
  | orphan gone unposted =>
    obtain rfl := List.mem_singleton.mp hq
    exact hP.orphan msg h
  | dead posted unheard attempt =>
    obtain rfl := List.mem_singleton.mp hq
    exact hP.dead msg h

theorem Passes.deadLetter {P : Queue → Message → Prop} (hP : Passes P) {m : Message} {q q' : Queue}
    {x : Exchange} {k : String} (h : P q m) (hdead : topology.deadLetter q = some (x, k))
    (hq : q' ∈ topology.route x k) : P q' m := by
  cases q with
  | retry =>
    obtain ⟨rfl, rfl⟩ := Prod.mk.inj (Option.some.inj hdead)
    obtain rfl := List.mem_singleton.mp hq
    exact hP.back m h
  | deliver => cases hdead
  | dead => cases hdead

/-- What a relay publishes and what a handler publishes again. -/
theorem Everywhere.move {P : Queue → Message → Prop} {batch : ℕ} {s t : Workers} {l : LossyTurn}
    (h : Everywhere P s) (hP : Passes P) (hmove : Move (passageDiscipline batch) s l t)
    (hrow : ∀ n ∈ s.nodes, ∀ row ∈ n.log.flatMap claimedRows, P Q_DELIVER (toMessage row)) :
    Everywhere P t := by
  have hrequeue : ∀ i, (s.world.broker.requeue i).Every P := fun i => h.broker.requeue i
  cases hmove with
  | start born =>
    rename_i j w c
    obtain ⟨v, hv, rfl⟩ := World.lossyBirth_eq_some born
    cases j with
    | relayTick =>
      obtain rfl := Option.some.inj hv
      refine ⟨h.broker, ?_⟩
      intro n hn k msg hjob
      rcases List.mem_append.mp hn with hn | hn
      · exact h.jobs n hn k msg hjob
      · obtain rfl := List.mem_singleton.mp hn
        cases hjob
    | handle k msg =>
      simp only [World.birth] at hv
      split at hv
      · rename_i m b hdeliver
        split at hv
        · rename_i hm
          obtain rfl := Option.some.inj hv
          subst hm
          obtain ⟨hbroker, hp⟩ := h.broker.deliver hdeliver
          refine ⟨hbroker, ?_⟩
          intro n hn k' msg' hjob
          rcases List.mem_append.mp hn with hn | hn
          · exact h.jobs n hn k' msg' hjob
          · obtain rfl := List.mem_singleton.mp hn
            cases hjob
            exact hp
        · cases hv
      · cases hv
  | run here script knows may acts =>
    rename_i i o n st k r w
    have hn := List.mem_of_getElem? here
    refine ⟨?_, ?_⟩
    · cases hjob : n.job with
      | relayTick =>
        have hmay : relayPassage n.log st := by
          simpa only [passageDiscipline, hjob, passage] using may
        rcases Worked.of_act acts with ⟨-, hworked⟩ | hbarred
        · cases hworked with
          | statement hst hbroker hattempts hclosed => exact hbroker ▸ h.broker
          | kept =>
            obtain ⟨rfl, rfl, row, hmem, rfl⟩ := hmay
            refine h.broker.publish none (fun q hq => ?_)
            obtain rfl := List.mem_singleton.mp hq
            exact hrow n hn row hmem
          | refused => exact h.broker
          | awaited => exact h.broker
          | _ => exact hmay.elim
        · exact hbarred.world ▸ h.broker
      | handle c msg =>
        rcases Worked.of_handle hjob knows may acts with ⟨hmay, hworked⟩ | hbarred
        · cases hworked with
          | statement hst hbroker hattempts hclosed => exact hbroker ▸ h.broker
          | copied expiresAt =>
            obtain ⟨rfl, -, -, hcopy⟩ := hmay
            exact h.broker.publish expiresAt
              (fun q hq => hP.copies (h.jobs n hn c msg hjob) hcopy hq)
          | fetched status => exact h.broker
          | acked => exact h.broker.ack i
          | nacked =>
            exact h.broker.nack i
              (fun d hd x k hdead q hq => hP.deadLetter (h.broker.unacked d hd) hdead hq)
          | _ => exact hmay.elim
        · exact hbarred.world ▸ h.broker
    · intro m hm c msg hjob
      rcases List.mem_or_eq_of_mem_set hm with hm | rfl
      · exact h.jobs m hm c msg hjob
      · exact h.jobs n hn c msg hjob
  | crash here live =>
    rename_i i n
    refine ⟨?_, ?_⟩
    · cases hjob : n.job with
      | relayTick => simpa [lossyDevice, World.crash] using h.broker
      | handle c msg => simpa [lossyDevice, World.crash] using hrequeue i
    · intro m hm c msg hjob
      rcases List.mem_or_eq_of_mem_set hm with hm | rfl
      · exact h.jobs m hm c msg hjob
      · exact h.jobs n (List.mem_of_getElem? here) c msg hjob
  | event happens =>
    rename_i e w
    refine ⟨?_, h.jobs⟩
    cases e with
    | channelLost i =>
      obtain rfl := Option.some.inj happens
      exact hrequeue i
    | plain e =>
      cases e with
      | tick n =>
        obtain rfl := Option.some.inj happens
        exact h.broker
      | enqueue id m e type payload since =>
        obtain ⟨-, -, rfl⟩ := World.enqueue_eq_some happens
        exact h.broker
      | register row =>
        obtain rfl := Option.some.inj happens
        exact h.broker
      | expire =>
        obtain ⟨b, hb, rfl⟩ := Option.map_eq_some_iff.mp happens
        exact h.broker.expire hb (fun m hm x k hdead q hq => hP.deadLetter hm hdead hq)

/-- The attempt of a message, which its `x-attempts` header says wherever it is
not a dead letter. -/
def InRange (q : Queue) (m : Message) : Prop :=
  (1 ≤ m.attempt ∧ m.attempt ≤ MAX_ATTEMPTS) ∧ (q ≠ Q_DEAD → m.xAttempts = some m.attempt)

theorem one_le_maxAttempts : 1 ≤ MAX_ATTEMPTS := by decide

theorem inRange_passes : Passes InRange where
  retry := fun msg h hattempt => ⟨⟨Nat.le_add_left 1 _, hattempt⟩, fun _ => rfl⟩
  orphan := fun msg h => ⟨⟨le_rfl, one_le_maxAttempts⟩, fun hq => absurd rfl hq⟩
  dead := fun msg h => ⟨h.1, fun hq => absurd rfl hq⟩
  back := fun msg h => ⟨h.1, fun _ => h.2 (by decide)⟩

theorem Everywhere.inRange {batch : ℕ} {s t : Workers} {l : LossyTurn} (h : Everywhere InRange s)
    (hmove : Move (passageDiscipline batch) s l t) : Everywhere InRange t :=
  h.move inRange_passes hmove (fun _ _ _ _ => ⟨⟨le_rfl, one_le_maxAttempts⟩, fun _ => rfl⟩)

/-! ## Chains do not fork -/

/-- A message of the event comes into the main queue. -/
def arrives (id : Uuid) (s : Workers) (l : LossyTurn) (_ : Workers) : Bool :=
  (s.arrival l).any (carries id)

/-- How often that happens along a schedule. -/
def arrivals (batch : ℕ) (id : Uuid) (s : Workers) (ls : List LossyTurn) : ℕ :=
  s.occurrences lossyDevice (workerProgramOf batch) (arrives id) ls

/-- The handlers of an event whose message has met these fates so far. -/
def Worker.met (id : Uuid) (fs : List Fate) (n : Worker) : Bool :=
  match n.job with
  | .relayTick => false
  | .handle _ msg => carries id msg && decide (fates n.log = fs)

def Workers.met (s : Workers) (id : Uuid) (fs : List Fate) : ℕ :=
  s.total (fun n => (Worker.met id fs n).toNat)

def Fate.isCopy : Fate → Bool
  | .copied _ _ _ => true
  | _ => false

/-- Each message of the event counts for one. -/
def oneEach (id : Uuid) (_ : Queue) (m : Message) : ℕ := (carries id m).toNat

/-- And so does each handler that has published no copy. -/
def oneUncopied (id : Uuid) (msg : Message) (log : List Done) : ℕ :=
  (carries id msg && !(fates log).any Fate.isCopy).toNat

theorem Ending.uncopied {msg : Message} {log : List Done} {fs : List Fate} (h : Ending msg log fs)
    (hcopies : fs.any Fate.isCopy = false) : fs = [.delivered] ∨ fs = [.dropped] := by
  cases h with
  | delivered answered => exact .inl rfl
  | copied copy => cases copy <;> cases hcopies
  | dropped unfound => exact .inr rfl
  | deadDropped copy dead => cases hcopies

theorem fateOf_error (st : Op) (e : String) : fateOf ⟨st, .error e⟩ = [] := by
  cases st <;> rfl

theorem fateOf_uncopied {st : Op} {r : Except String (Answer st)}
    (h : ∀ x key m e, st ≠ .publish x key m e) : (fateOf ⟨st, r⟩).any Fate.isCopy = false := by
  cases st with
  | publish x key m e => exact absurd rfl (h x key m e)
  | eventMarkDelivered id => cases r <;> rfl
  | nack => cases r <;> rfl
  | _ => rfl

/-- Weights that a message of the event keeps on its way, where only a copy changes
the weight of a handler. -/
structure Conserves (id : Uuid) (f : Queue → Message → ℕ) (g : Message → List Done → ℕ) : Prop where
  arrived : ∀ m, f .deliver m = (carries id m).toNat
  handed : ∀ m, g m [] = f .deliver m
  acted : ∀ msg log d, (fateOf d).any Fate.isCopy = false → g msg (log ++ [d]) = g msg log
  copied : ∀ {msg log q x m e}, fates log = [] → Copies msg log (.copied x m e) →
    topology.route x ROUTING_KEY = [q] →
      f q m + g msg (log ++ [⟨.publish x ROUTING_KEY m e, .ok ()⟩]) = g msg log
  expired : ∀ m, f .retry m = f .deliver m

/-- A step leaves such an account as it was, but for what comes in. -/
theorem Passage.conserved {id : Uuid} {f : Queue → Message → ℕ} {g : Message → List Done → ℕ}
    {s t : Workers} {l : LossyTurn} (hfg : Conserves id f g) (h : Passage s l t) :
    t.account f g = s.account f g + (arrives id s l t).toNat := by
  cases h with
  | arrived arrival attempts account =>
    rw [account, arrives, arrival, Option.any_some, hfg.arrived]
  | handed arrival attempts account =>
    rename_i m
    have hacc := account f g
    rw [hfg.handed m] at hacc
    simp only [arrives, arrival, Option.any_none, Bool.toNat_false]
    omega
  | acted arrival mem may sent account uncopied =>
    rename_i c msg log st r
    have hacc := account f g
    rw [hfg.acted msg log _ (fateOf_uncopied uncopied)] at hacc
    simp only [arrives, arrival, Option.any_none, Bool.toNat_false]
    omega
  | copied arrival mem may route attempts account =>
    obtain ⟨rfl, hfates, -, hcopy⟩ := may
    have hacc := account f g
    have hkept := hfg.copied hfates hcopy route
    simp only [arrives, arrival, Option.any_none, Bool.toNat_false]
    omega
  | barred arrival attempts channel mem account =>
    -- what throws has done nothing with the message
    rename_i c msg log st e
    have hnone : (fateOf ⟨st, .error e⟩).any Fate.isCopy = false := by rw [fateOf_error]; rfl
    have hacc := account f g
    rw [hfg.acted msg log _ hnone] at hacc
    simp only [arrives, arrival, Option.any_none, Bool.toNat_false]
    omega
  | expired arrival attempts account =>
    rename_i m
    have hacc := account f g
    rw [hfg.expired m] at hacc
    simp only [arrives, arrival, Option.any_none, Bool.toNat_false]
    omega
  | still arrival attempts account =>
    rw [account]
    simp [arrives, arrival]

theorem oneEach_conserves (id : Uuid) : Conserves id (oneEach id) (oneUncopied id) where
  arrived := fun _ => rfl
  handed := fun m => by simp [oneUncopied, oneEach]
  acted := fun msg log d hd => by simp [oneUncopied, hd]
  copied := by
    intro msg log q x m e hfates hcopy _
    have hcarries : carries id m = carries id msg := by
      cases hcopy <;> rfl
    have hbefore : oneUncopied id msg log = (carries id msg).toNat := by
      simp [oneUncopied, hfates]
    have hafter : oneUncopied id msg (log ++ [⟨.publish x ROUTING_KEY m e, .ok ()⟩]) = 0 := by
      simp [oneUncopied, fateOf, Fate.isCopy]
    rw [hbefore, hafter, oneEach, hcarries, Nat.add_zero]
  expired := fun _ => rfl

/-- A handler that has published no copy has met no fate yet, or one. -/
def Fated (s : Workers) : Prop :=
  ∀ n ∈ s.nodes, ∀ c msg, n.job = .handle c msg → (fates n.log).any Fate.isCopy = false →
    fates n.log = [] ∨ fates n.log = [.delivered] ∨ fates n.log = [.dropped]

theorem Fated.move {batch : ℕ} {s t : Workers} {l : LossyTurn} (h : Fated s)
    (hmove : Move (passageDiscipline batch) s l t) : Fated t := by
  intro m hm c msg hjob hcopies
  cases hmove.grown hm with
  | old mem job log =>
    rw [log] at hcopies ⊢
    exact h _ mem c msg (job ▸ hjob) hcopies
  | born label born log =>
    left
    rw [log, fates_nil]
  | acted label here knows may acts job log =>
    rename_i i o n st r
    rw [job] at hjob
    rw [log, fates_append] at hcopies ⊢
    rw [List.any_append, Bool.or_eq_false_iff] at hcopies
    obtain ⟨hbefore, hnow⟩ := hcopies
    have hold := h n (List.mem_of_getElem? here) c msg hjob hbefore
    cases r with
    | error e => simpa [fateOf_error] using hold
    | ok a =>
      have hmay : handlePassage msg n.log st := by
        rcases Worked.of_handle hjob knows may acts with ⟨hmay, -⟩ | hbarred
        · exact hmay
        · obtain ⟨e, -, hr⟩ := hbarred.failed
          cases hr
      cases st with
      | eventMarkDelivered id =>
        rw [hmay.2.1]
        exact .inr (.inl rfl)
      | publish x key m e => cases hnow
      | nack =>
        have hcopies : (fates n.log ++ [Fate.dropped]).any Fate.isCopy = false := by
          rw [List.any_append, hbefore]
          rfl
        exact .inr (hmay.2.uncopied hcopies)
      | _ => simpa [fateOf] using hold

theorem fated_begin : Fated (Pool.begin .empty) := by
  intro n hn
  cases hn

theorem Fated.total {s : Workers} (h : Fated s) (id : Uuid) :
    s.total (Worker.account (oneUncopied id)) =
      s.met id [] + s.met id [.delivered] + s.met id [.dropped] := by
  have hone : ∀ n ∈ s.nodes, Worker.account (oneUncopied id) n =
      (Worker.met id [] n).toNat + (Worker.met id [.delivered] n).toNat +
        (Worker.met id [.dropped] n).toNat := by
    intro n hn
    cases hjob : n.job with
    | relayTick => simp [Worker.account, Worker.met, hjob]
    | handle c msg =>
      simp only [Worker.account, Worker.met, hjob, oneUncopied]
      cases hcopies : (fates n.log).any Fate.isCopy with
      | false =>
        rcases h n hn c msg hjob hcopies with hf | hf | hf <;> simp [hf]
      | true =>
        have hnot : ∀ fs : List Fate, fs.any Fate.isCopy = false → fates n.log ≠ fs := by
          rintro fs hfs rfl
          rw [hcopies] at hfs
          cases hfs
        simp [hnot [] rfl, hnot [.delivered] rfl, hnot [.dropped] rfl]
  unfold Workers.met Pool.total
  rw [← List.sum_map_add, ← List.sum_map_add]
  congr 1
  exact List.map_congr_left hone

theorem World.account_oneEach (w : World) (id : Uuid) :
    w.account (oneEach id) = w.waiting id + w.broker.count (carries id) .dead := by
  have hcount : ∀ q, w.broker.count (carries id) q = w.broker.weigh (oneEach id q) q := by
    intro q
    rw [Broker.State.count_eq_weigh]
    congr 1
    funext m
    unfold oneEach
    cases carries id m <;> rfl
  rw [World.account, World.waiting, hcount, hcount, hcount]

section Runs

variable {batch : ℕ} {ls : List LossyTurn} {s : Workers}

theorem runs_of_run
    (h : (Pool.begin .empty).run lossyDevice (workerProgramOf batch) ls = some s) :
    Runs lossyDevice (workerProgramOf batch) (fun _ _ => True) (Pool.begin .empty) s :=
  (Runs.of_runWhile h).mono (fun _ _ _ => trivial)

/-- Chains neither fork nor get lost: each message of an event that has come
into the main queue waits, is in a handler's hands, or has ended in one way. It
stays in the hands of a handler that has crashed, or was cut off. -/
theorem chains_balance
    (h : (Pool.begin .empty).run lossyDevice (workerProgramOf batch) ls = some s) (id : Uuid) :
    arrivals batch id (Pool.begin .empty) ls = s.world.waiting id +
        s.world.broker.count (carries id) .dead + s.met id [] + s.met id [.delivered] +
          s.met id [.dropped] ∧
      ((∀ i n, s.nodes[i]? = some n → Worker.met id [] n = true →
        n.script.any Client.finished = true ∧ i ∉ s.world.closed) → s.met id [] = 0) := by
  refine ⟨?_, ?_⟩
  · have hinv : AllOwed s ∧ Fated s ∧ s.account (oneEach id) (oneUncopied id) =
        arrivals batch id (Pool.begin .empty) ls := by
      refine Pool.run_counted (K := passageDiscipline batch)
        (I := fun c s => AllOwed s ∧ Fated s ∧
          Workers.account (oneEach id) (oneUncopied id) s = c) ?_
        ((passageDiscipline batch).follows_begin _) h ⟨allOwed_begin, fated_begin, rfl⟩
      rintro c s t l ⟨howed, hfated, haccount⟩ hmove
      refine ⟨howed.move hmove, hfated.move hmove, ?_⟩
      rw [(Passage.of_move howed hmove).conserved (oneEach_conserves id), haccount]
    obtain ⟨-, hfated, haccount⟩ := hinv
    rw [← haccount, Workers.account, hfated.total, World.account_oneEach]
    omega
  · intro hdone
    unfold Workers.met Pool.total
    rw [List.sum_eq_zero_iff]
    intro k hk
    obtain ⟨n, hn, rfl⟩ := List.mem_map.mp hk
    by_contra hmet
    have hmet : Worker.met id [] n = true := by
      cases hb : Worker.met id [] n
      · simp [hb] at hmet
      · rfl
    obtain ⟨i, hi⟩ := List.mem_iff_getElem?.mp hn
    obtain ⟨hfinished, hopen⟩ := hdone i n hi hmet
    obtain ⟨script, hscript⟩ : ∃ script, n.script = some script :=
      Option.isSome_iff_exists.mp (by cases hs : n.script <;> simp [hs] at hfinished ⊢)
    rw [hscript, Option.any_some] at hfinished
    unfold Worker.met at hmet
    cases hjob : n.job with
    | relayTick => simp [hjob] at hmet
    | handle c msg =>
      simp only [hjob, Bool.and_eq_true, decide_eq_true_eq] at hmet
      cases script with
      | ret a =>
        have hending := (settled_runs (runs_of_run h) hi hjob hscript).fate
        rw [hmet.2] at hending
        cases hending
      | throw e => exact hopen (severed_runs (runs_of_run h) hi hjob hscript).2
      | _ => cases hfinished

/-- The copy is handled twice, since the first handler crashes after the
endpoint has answered 200. -/
def crashedOnce : List LossyTurn :=
  refusedOnce ++ List.map lossless [.event (.tick (milliseconds (backoffMs 1))), .event .expire,
    .start (.handle 0 ⟨messageOne.content, some 2⟩), .run 2 .done, .run 2 (.status 200), .crash 2,
    .start (.handle 0 ⟨messageOne.content, some 2⟩), .run 3 .done, .run 3 (.status 200),
    .run 3 .done, .run 3 .done]

theorem chains_balance_crashed : ∃ s : Workers, s.met 1 [.delivered] = 1 ∧ s.met 1 [] = 1 ∧
    arrivals RELAY_BATCH 1 (Pool.begin .empty) crashedOnce = s.world.waiting 1 +
      s.world.broker.count (carries 1) .dead + s.met 1 [] + s.met 1 [.delivered] +
        s.met 1 [.dropped] := by
  have hrun : ((Pool.begin .empty).run lossyDevice (workerProgramOf RELAY_BATCH) crashedOnce).any
      (fun s => decide (Workers.met s 1 [.delivered] = 1) && decide (Workers.met s 1 [] = 1)) =
        true := by decide +kernel
  cases hs : (Pool.begin .empty).run lossyDevice (workerProgramOf RELAY_BATCH) crashedOnce with
  | none => simp [hs] at hrun
  | some s =>
    rw [hs, Option.any_some, Bool.and_eq_true] at hrun
    exact ⟨s, of_decide_eq_true hrun.1, of_decide_eq_true hrun.2, (chains_balance hs 1).1⟩

end Runs

/-! ## Chains do not run away -/

/-- The attempts a message at rest may still take. -/
def restLeft (q : Queue) (m : Message) : ℕ :=
  if q = Q_DEAD then 0 else MAX_ATTEMPTS - (m.attempt - 1)

/-- The attempts a handler may still take, with those of its copy. -/
def handLeft (msg : Message) (log : List Done) : ℕ :=
  if fates log = [] then MAX_ATTEMPTS - (msg.attempt - 1) - (log.any posts).toNat else 0

theorem handLeft_nil (msg : Message) : handLeft msg [] = restLeft Q_DELIVER msg := by
  simp [handLeft, restLeft]

/-- What a handler posts was left to it. -/
theorem handLeft_act {msg : Message} {log : List Done} {st : Op} (hmay : handlePassage msg log st)
    (hattempt : msg.attempt ≤ MAX_ATTEMPTS) (r : Except String (Answer st)) :
    handLeft msg (log ++ [⟨st, r⟩]) + (posts ⟨st, r⟩).toNat ≤ handLeft msg log := by
  cases hposts : posts ⟨st, r⟩ with
  | true =>
    cases st with
    | fetch id post =>
      obtain ⟨-, hfates, hfirst, -⟩ := hmay
      have hpositive := one_le_maxAttempts
      simp [handLeft, hfates, hfirst, fateOf, posts]
      omega
    | _ => cases hposts
  | false =>
    by_cases hfates : fates log = [] ∧ fateOf ⟨st, r⟩ = []
    · simp [handLeft, hfates.1, hfates.2, hposts]
    · have hnot : fates (log ++ [⟨st, r⟩]) ≠ [] := by
        rw [fates_append]
        intro hnil
        exact hfates (List.append_eq_nil_iff.mp hnil)
      rw [handLeft, if_neg hnot]
      exact Nat.zero_le _

/-- What is left to its copy was left to a handler. -/
theorem handLeft_copy {msg m : Message} {log : List Done} {x : Exchange} {key : String}
    {e : Option ℕ} {q : Queue} (hmay : handlePassage msg log (.publish x key m e))
    (hroute : topology.route x key = [q]) (hattempt : 1 ≤ msg.attempt) :
    restLeft q m + handLeft msg (log ++ [⟨.publish x key m e, .ok ()⟩]) ≤ handLeft msg log := by
  obtain ⟨rfl, hfates, -, hcopy⟩ := hmay
  have hafter : handLeft msg (log ++ [⟨.publish x ROUTING_KEY m e, .ok ()⟩]) = 0 := by
    simp [handLeft, fateOf]
  rw [hafter, Nat.add_zero]
  cases hcopy with
  | retry hposts unheard attempt =>
    obtain rfl : Queue.retry = q := by simpa using hroute
    have hnext : Message.attempt ⟨msg.content, some (msg.attempt + 1)⟩ = msg.attempt + 1 := rfl
    simp [restLeft, handLeft, hnext, hfates, hposts]
    omega
  | orphan gone unposted =>
    obtain rfl : Queue.dead = q := by simpa using hroute
    simp [restLeft]
  | dead posted unheard attempt =>
    obtain rfl : Queue.dead = q := by simpa using hroute
    simp [restLeft]

/-- The same, of the messages of an event. -/
def attemptsLeft (id : Uuid) (q : Queue) (m : Message) : ℕ :=
  if carries id m = true then restLeft q m else 0

def handlerLeft (id : Uuid) (msg : Message) (log : List Done) : ℕ :=
  if carries id msg = true then handLeft msg log else 0

/-- What a step posts was left to post, or has come in. -/
theorem Passage.left {s t : Workers} {l : LossyTurn} (h : Passage s l t)
    (hrange : Everywhere InRange s) (id : Uuid) :
    t.world.posted id + t.account (attemptsLeft id) (handlerLeft id) ≤
      s.world.posted id + s.account (attemptsLeft id) (handlerLeft id) +
        MAX_ATTEMPTS * (arrives id s l t).toNat := by
  have hposted : t.world.attempts = s.world.attempts → t.world.posted id = s.world.posted id := by
    intro hattempts
    rw [World.posted, hattempts, World.posted]
  cases h with
  | arrived arrival attempts account =>
    rename_i m
    have hacc := account (attemptsLeft id) (handlerLeft id)
    have hle : attemptsLeft id .deliver m ≤ MAX_ATTEMPTS * (arrives id s l t).toNat := by
      rw [arrives, arrival, Option.any_some, attemptsLeft]
      cases carries id m <;> simp [restLeft]
    rw [hposted attempts]
    omega
  | handed arrival attempts account =>
    rename_i m
    have hacc := account (attemptsLeft id) (handlerLeft id)
    have hsame : handlerLeft id m [] = attemptsLeft id .deliver m := by
      rw [handlerLeft, attemptsLeft, handLeft_nil]
    rw [hsame] at hacc
    rw [hposted attempts]
    omega
  | acted arrival mem may sent account uncopied =>
    rename_i c msg log st r
    obtain ⟨n, hn, hjob, -⟩ := mem
    have hacc := account (attemptsLeft id) (handlerLeft id)
    have hact := handLeft_act may (hrange.jobs n hn c msg hjob).1.2 r
    have hle : handlerLeft id msg (log ++ [⟨st, r⟩]) + t.world.posted id ≤
        handlerLeft id msg log + s.world.posted id := by
      cases sent with
      | nothing quiet attempts =>
        rw [hposted attempts]
        refine Nat.add_le_add_right ?_ _
        unfold handlerLeft
        split
        · omega
        · exact le_rfl
      | request status attempts =>
        rw [World.posted, attempts, List.countP_append, ← World.posted, List.countP_singleton]
        by_cases hmine : msg.content.outboxId = id
        · have hcarries : carries id msg = true := by simp [carries, hmine]
          simp only [posts, Bool.toNat_true] at hact
          simp only [handlerLeft, hcarries, if_true, hmine, decide_true]
          omega
        · simp [handlerLeft, carries, hmine]
    omega
  | copied arrival mem may route attempts account =>
    rename_i c msg log q x key m e
    obtain ⟨n, hn, hjob, -⟩ := mem
    have hacc := account (attemptsLeft id) (handlerLeft id)
    have hcopy := handLeft_copy may route (hrange.jobs n hn c msg hjob).1.1
    have hcarries : carries id m = carries id msg := by
      obtain ⟨-, -, -, hcopy⟩ := may
      cases hcopy <;> rfl
    have hle : attemptsLeft id q m +
        handlerLeft id msg (log ++ [⟨.publish x key m e, .ok ()⟩]) ≤ handlerLeft id msg log := by
      simp only [attemptsLeft, handlerLeft, hcarries]
      split <;> omega
    rw [hposted attempts]
    omega
  | barred arrival attempts channel mem account =>
    rename_i c msg log st e
    have hposts : posts ⟨st, .error e⟩ = false := by
      cases st <;> first | rfl | cases channel
    have hsame : handlerLeft id msg (log ++ [⟨st, .error e⟩]) = handlerLeft id msg log := by
      simp [handlerLeft, handLeft, fateOf_error, hposts]
    have hacc := account (attemptsLeft id) (handlerLeft id)
    rw [hsame] at hacc
    rw [hposted attempts]
    omega
  | expired arrival attempts account =>
    rename_i m
    have hacc := account (attemptsLeft id) (handlerLeft id)
    have hsame : attemptsLeft id .retry m = attemptsLeft id .deliver m := by
      simp [attemptsLeft, restLeft]
    rw [hposted attempts]
    omega
  | still arrival attempts account =>
    rw [hposted attempts, account]
    exact Nat.le_add_right _ _

/-- The message of a handler is handed back to the main queue. -/
def handsBack (id : Uuid) (s : Workers) (l : LossyTurn) (_ : Workers) : Bool :=
  (s.handedBack l).any (carries id)

/-- How often that happens along a schedule. -/
def handsBacks (batch : ℕ) (id : Uuid) (s : Workers) (ls : List LossyTurn) : ℕ :=
  s.occurrences lossyDevice (workerProgramOf batch) (handsBack id) ls

/-- A message of a relay comes into the main queue. -/
def takes (id : Uuid) (s : Workers) (l : LossyTurn) (_ : Workers) : Bool :=
  (s.taken l).any (carries id)

theorem arrives_of {id : Uuid} {s : Workers} {l : LossyTurn} {t : Workers}
    (h : arrives id s l t = true) : takes id s l t = true ∨ handsBack id s l t = true := by
  unfold arrives Workers.arrival at h
  cases htaken : s.taken l with
  | none =>
    rw [htaken] at h
    exact .inr h
  | some m =>
    rw [htaken] at h
    left
    rw [takes, htaken]
    exact h

/-- What is taken has been published. -/
theorem takes_publications {batch : ℕ} {id : Uuid} {s t : Workers} {l : LossyTurn}
    (hmove : Move (passageDiscipline batch) s l t) :
    s.publications id + (takes id s l t).toNat ≤ t.publications id := by
  have hset : ∀ {i : ℕ} {n m : Worker} {w : World}, s.nodes[i]? = some n →
      Workers.publications ⟨w, s.nodes.set i m⟩ id + (published n.log).count id =
        s.publications id + (published m.log).count id :=
    fun hn => Pool.total_set (f := fun n : Worker => (published n.log).count id) hn _ _
  cases hmove with
  | start born =>
    rename_i j w c
    have happend : Workers.publications ⟨w, s.nodes ++ [⟨j, [], some c⟩]⟩ id =
        s.publications id + (published []).count id :=
      Pool.total_append (fun n : Worker => (published n.log).count id) s w _
    rw [happend]
    simp [takes, Workers.taken]
  | run here script knows may acts =>
    rename_i i o n st k r w
    have hsum := hset (w := w) (m := ⟨n.job, n.log ++ [⟨st, r⟩], some (k r)⟩) here
    simp only [published_append, List.count_append] at hsum
    have hle : (takes id s (.run i o)
        ⟨w, s.nodes.set i ⟨n.job, n.log ++ [⟨st, r⟩], some (k r)⟩⟩).toNat ≤
        (publishes ⟨st, r⟩).count id := by
      cases st with
      | confirmPublish x key m =>
        cases o with
        | answerLost e => exact Nat.zero_le _
        | plain o =>
          cases o with
          | done =>
            have hact : World.lossyAct i (.confirmPublish x key m) (.plain .done) s.world =
                some (r, w) := acts
            obtain rfl : r = .ok () := by
              rcases World.lossyAct_cases hact with
                ⟨o, ho, -, hopen⟩ | ⟨e, ho, -⟩ | ⟨e, r', ho, -⟩
              · cases ho
                cases hopen
                rfl
              · cases ho
              · cases ho
            simp only [takes, Workers.taken, here, Option.bind_some, Member.next, script,
              Option.any_some, carries, publishes]
            by_cases hid : m.content.outboxId = id <;> simp [hid]
          | _ => exact Nat.zero_le _
      | _ =>
        have hnone : s.taken (.run i o) = none := by
          cases o with
          | answerLost e => rfl
          | plain o => cases o <;> simp [Workers.taken, here, Member.next, script]
        rw [takes, hnone]
        exact Nat.zero_le _
    omega
  | crash here live =>
    rename_i i n
    have hsum := hset (w := lossyDevice.crash i n.job s.world) (m := { n with script := none }) here
    have hzero : ∀ t, (takes id s (.crash i) t).toNat = 0 := fun _ => rfl
    rw [hzero]
    simp only at hsum ⊢
    omega
  | event happens =>
    have hzero : ∀ e t, (takes id s (.event e) t).toNat = 0 := fun _ _ => rfl
    rw [hzero]
    exact le_rfl

/-- `fetch` is called for an event at most five times for the first publication, for
each time its row was put back to pending, and for each time its message was handed
back; and the attempt a message carries stays between one and five. -/
theorem event_posts_bounded {batch : ℕ} {ls : List LossyTurn} {s : Workers}
    (h : (Pool.begin .empty).run lossyDevice (workerProgramOf batch) ls = some s) (id : Uuid) :
    s.world.posted id ≤ MAX_ATTEMPTS * (1 + putsBack batch id (Pool.begin .empty) ls +
        handsBacks batch id (Pool.begin .empty) ls) ∧
      Everywhere InRange s := by
  have hleft : AllOwed s ∧ Everywhere InRange s ∧
      s.world.posted id + s.account (attemptsLeft id) (handlerLeft id) ≤
        MAX_ATTEMPTS * arrivals batch id (Pool.begin .empty) ls := by
    refine Pool.run_counted (K := passageDiscipline batch)
      (I := fun c (s : Workers) => AllOwed s ∧ Everywhere InRange s ∧
        s.world.posted id + Workers.account (attemptsLeft id) (handlerLeft id) s ≤
          MAX_ATTEMPTS * c) ?_
      ((passageDiscipline batch).follows_begin _) h ⟨allOwed_begin, everywhere_begin, le_rfl⟩
    rintro c s t l ⟨howed, hrange, hposted⟩ hmove
    refine ⟨howed.move hmove, hrange.inRange hmove, ?_⟩
    have hstep := (Passage.of_move howed hmove).left hrange id
    rw [Nat.mul_add]
    omega
  have hsplit : arrivals batch id (Pool.begin .empty) ls ≤
      (Pool.begin .empty).occurrences lossyDevice (workerProgramOf batch) (takes id) ls +
        handsBacks batch id (Pool.begin .empty) ls :=
    Pool.occurrences_le_add (fun _ _ _ => arrives_of)
  have htaken : (Pool.begin .empty).occurrences lossyDevice (workerProgramOf batch) (takes id) ls ≤
      s.publications id := by
    refine Pool.run_counted (K := passageDiscipline batch)
      (I := fun c s => c ≤ Workers.publications s id) ?_
      ((passageDiscipline batch).follows_begin _) h
      (Nat.zero_le _)
    intro c s t l hle hmove
    exact (Nat.add_le_add_right hle _).trans (takes_publications hmove)
  have hpublished := publications_le h id
  obtain ⟨-, hrange, hposted⟩ := hleft
  refine ⟨?_, hrange⟩
  have hmul := Nat.mul_le_mul_left MAX_ATTEMPTS (hsplit.trans
    (Nat.add_le_add_right (htaken.trans hpublished) _))
  omega

theorem event_posts_bounded_crashed : ∃ s : Workers, s.world.posted 1 = 3 ∧
    handsBacks RELAY_BATCH 1 (Pool.begin .empty) crashedOnce = 1 ∧
    s.world.posted 1 ≤ MAX_ATTEMPTS * (1 + putsBack RELAY_BATCH 1 (Pool.begin .empty) crashedOnce +
      handsBacks RELAY_BATCH 1 (Pool.begin .empty) crashedOnce) ∧ Everywhere InRange s := by
  have hrun : ((Pool.begin .empty).run lossyDevice (workerProgramOf RELAY_BATCH) crashedOnce).any
      (fun s => decide (s.world.posted 1 = 3)) = true := by decide +kernel
  cases hs : (Pool.begin .empty).run lossyDevice (workerProgramOf RELAY_BATCH) crashedOnce with
  | none => simp [hs] at hrun
  | some s =>
    rw [hs, Option.any_some] at hrun
    exact ⟨s, of_decide_eq_true hrun, by decide +kernel, event_posts_bounded hs 1⟩

end PaymentApis
