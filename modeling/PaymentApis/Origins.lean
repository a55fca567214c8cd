import PaymentApis.Chains

/-!
# Where a message comes from

While no process crashes and no channel is lost, every message comes from one
publication of a relay: it is the message published, or a copy of one that comes
from there. An observer of the run notes which.
-/

namespace PaymentApis

open TxStore Processes

/-- No process crashes, and no channel is lost. -/
def unbroken (_ : Workers) : LossyTurn → Bool
  | .crash _ => false
  | .event (.channelLost _) => false
  | _ => true

/-- The publications so far; the messages of the queues, each with the publication
it comes from; and for each process the publication of its message. -/
structure Origins where
  published : ℕ
  ready : Queue → List (ℕ × Message)
  hands : List (Option ℕ)

namespace Origins

def empty : Origins := ⟨0, fun _ => [], []⟩

/-- A message enters every queue it is routed to. -/
def publish (x : Exchange) (key : String) (p : ℕ) (m : Message) (g : Origins) : Origins :=
  { g with
    ready := fun q => if q ∈ topology.route x key then g.ready q ++ [(p, m)] else g.ready q }

/-- The head of a queue leaves it. -/
def pop (q : Queue) (g : Origins) : Origins :=
  { g with ready := Function.update g.ready q (g.ready q).tail }

/-- What the observer of a step notes. -/
def note (s : Workers) (l : LossyTurn) (_ : Workers) (g : Origins) : Origins :=
  match l with
  | .start .relayTick => { g with hands := g.hands ++ [none] }
  | .start (.handle _ _) =>
    { g.pop Q_DELIVER with hands := g.hands ++ [(g.ready Q_DELIVER).head?.map (·.1)] }
  | .run i (.plain .done) =>
    match (s.nodes[i]?).bind Member.next, g.hands[i]? with
    | some (.confirmPublish x key m), _ =>
      { g.publish x key g.published m with published := g.published + 1 }
    -- a copy comes from where its handler's message does
    | some (.publish x key m _), some (some p) => g.publish x key p m
    | _, _ => g
  | .event (.plain .expire) =>
    match g.ready Q_RETRY with
    | [] => g
    | (p, m) :: _ => (g.pop Q_RETRY).publish EXCHANGE ROUTING_KEY p m
  | _ => g

/-- What has been noted at the end of a schedule. -/
def along (batch : ℕ) (ls : List LossyTurn) : Origins :=
  (Pool.begin .empty).trace lossyDevice (workerProgramOf batch) note ls .empty

/-! ## Accounts -/

/-- The weights of the messages at rest. -/
def atRest (f : Queue → ℕ → Message → ℕ) (g : Origins) : ℕ :=
  ((g.ready .deliver).map (fun x => f .deliver x.1 x.2)).sum +
    ((g.ready .retry).map (fun x => f .retry x.1 x.2)).sum +
    ((g.ready .dead).map (fun x => f .dead x.1 x.2)).sum

/-- The weight of a process, from the publication and the message it has, and its
record. -/
def inHand (h : ℕ → Message → List Done → ℕ) : Option ℕ → Worker → ℕ
  | none, _ => 0
  | some p, n =>
    match n.job with
    | .relayTick => 0
    | .handle _ msg => h p msg n.log

def account (f : Queue → ℕ → Message → ℕ) (h : ℕ → Message → List Done → ℕ) (g : Origins)
    (s : Workers) : ℕ :=
  g.atRest f + s.totalWith (inHand h) g.hands

section

variable {f : Queue → ℕ → Message → ℕ} {h : ℕ → Message → List Done → ℕ} {g : Origins}
  {s : Workers} {w : World} {i p : ℕ} {m : Message} {n : Worker}

theorem atRest_publish (q : Queue) {x : Exchange} {key : String}
    (hroute : topology.route x key = [q]) :
    (g.publish x key p m).atRest f = g.atRest f + f q p m := by
  simp only [atRest, publish, hroute, List.mem_singleton]
  cases q <;> simp <;> omega

theorem atRest_pop (q : Queue) {rest : List (ℕ × Message)} (hready : g.ready q = (p, m) :: rest) :
    (g.pop q).atRest f + f q p m = g.atRest f := by
  have hsum : ((g.ready q).map (fun x => f q x.1 x.2)).sum =
      f q p m + (((g.ready q).tail).map (fun x => f q x.1 x.2)).sum := by
    rw [hready]
    rfl
  cases q <;> simp only [atRest, pop, Function.update_apply, reduceCtorEq, if_true, if_false] <;>
    omega

theorem account_set {o : Option ℕ} (ho : g.hands[i]? = some o) (hn : s.nodes[i]? = some n)
    (m : Worker) : g.account f h ⟨w, s.nodes.set i m⟩ + inHand h o n =
      g.account f h s + inHand h o m := by
  have htotal := Pool.totalWith_set (f := inHand h) ho hn w m
  simp only [account]
  omega

end

/-- The observer's queues are those of the broker. -/
def Aligned (g : Origins) (b : MessageBroker) : Prop :=
  ∀ q, (g.ready q).map (·.2) = (b.ready q).map (·.message)

section

variable {g : Origins} {b b' : MessageBroker} {p : ℕ} {m : Message}

theorem Aligned.congr (h : g.Aligned b) (hready : b'.ready = b.ready) : g.Aligned b' := by
  intro q
  rw [hready]
  exact h q

theorem Aligned.publish (h : g.Aligned b) (x : Exchange) (key : String) (e : Option ℕ) :
    (g.publish x key p m).Aligned (b.publish topology x key m e) := by
  intro q
  simp only [Origins.publish, Broker.State.publish]
  split
  · simp [h q]
  · exact h q

/-- The head of a queue has its origin noted. -/
theorem Aligned.head (h : g.Aligned b) {q : Queue} {x : Broker.Queued Message}
    {rest : List (Broker.Queued Message)} (hready : b.ready q = x :: rest) :
    ∃ p tail, g.ready q = (p, x.message) :: tail ∧ (g.pop q).Aligned (b.setReady q rest) := by
  have hq := h q
  rw [hready, List.map_cons] at hq
  cases hnoted : g.ready q with
  | nil => simp [hnoted] at hq
  | cons y tail =>
    obtain ⟨p, m⟩ := y
    rw [hnoted, List.map_cons, List.cons.injEq] at hq
    obtain ⟨rfl, htail⟩ := hq
    refine ⟨p, tail, rfl, ?_⟩
    intro q'
    simp only [pop, Broker.State.setReady, Function.update_apply]
    by_cases hsame : q' = q
    · rw [if_pos hsame, if_pos hsame, hnoted]
      exact htail
    · rw [if_neg hsame, if_neg hsame]
      exact h q'

end

/-- The observer knows where every message comes from. -/
structure Tracks (g : Origins) (s : Workers) : Prop where
  aligned : g.Aligned s.world.broker
  hands : g.hands.length = s.nodes.length
  handlers : ∀ (i : ℕ) (n : Worker) (c : ℕ) (msg : Message), s.nodes[i]? = some n →
    n.job = .handle c msg → ∃ p, g.hands[i]? = some (some p)
  opened : s.world.closed = []

/-- Process `i` is a handler of a message of publication `p`. -/
structure Handles (g : Origins) (s : Workers) (i p : ℕ) (msg : Message) (log : List Done) :
    Prop where
  hand : g.hands[i]? = some (some p)
  handler : ∃ n c, s.nodes[i]? = some n ∧ n.job = .handle c msg ∧ n.log = log

/-- What a step does to the messages and their origins. -/
inductive Carries (s : Workers) (g : Origins) (t : Workers) (g' : Origins) : Prop
  /-- A relay publishes a message. -/
  | published {m} (count : g'.published = g.published + 1)
      (account : ∀ f h, g'.account f h t = g.account f h s + f .deliver g.published m)
  /-- A message is handed to a handler. -/
  | handed {p m} (count : g'.published = g.published)
      (account : ∀ f h, g'.account f h t + f .deliver p m = g.account f h s + h p m [])
  /-- A handler acts. -/
  | acted {i p msg log st} {r : Except String (Answer st)} (count : g'.published = g.published)
      (handles : g.Handles s i p msg log) (may : handlePassage msg log st)
      (uncopied : ∀ x key m e, st ≠ .publish x key m e)
      (account : ∀ f h, g'.account f h t + h p msg log =
        g.account f h s + h p msg (log ++ [⟨st, r⟩]))
  /-- A handler publishes a copy. -/
  | copied {i p msg log q x key m e} (count : g'.published = g.published)
      (handles : g.Handles s i p msg log) (may : handlePassage msg log (.publish x key m e))
      (route : topology.route x key = [q])
      (account : ∀ f h, g'.account f h t + h p msg log =
        g.account f h s + f q p m + h p msg (log ++ [⟨.publish x key m e, .ok ()⟩]))
  /-- A copy has waited for its time. -/
  | expired {p m} (count : g'.published = g.published)
      (account : ∀ f h, g'.account f h t + f .retry p m = g.account f h s + f .deliver p m)
  | still (count : g'.published = g.published)
      (account : ∀ f h, g'.account f h t = g.account f h s)

section Step

variable {batch : ℕ} {s t : Workers} {g : Origins} {l : LossyTurn} {i : ℕ} {n : Worker} {st : Op}
  {o : LossyOutcome} {w : World} {r : Except String (Answer st)} {script : Option (Script Unit)}

theorem note_run (hn : s.nodes[i]? = some n) (hnext : Member.next n = some st)
    (hconfirm : ∀ x key m, st ≠ .confirmPublish x key m)
    (hpublish : ∀ x key m e, st ≠ .publish x key m e) : note s (.run i o) t g = g := by
  cases o with
  | answerLost e => rfl
  | plain o =>
    cases o with
    | done =>
      simp only [note, hn, Option.bind_some, hnext]
      cases st with
      | confirmPublish x key m => exact absurd rfl (hconfirm x key m)
      | publish x key m e => exact absurd rfl (hpublish x key m e)
      | _ => rfl
    | failed e => rfl
    | status k => rfl

theorem Tracks.set (h : g.Tracks s) (hn : s.nodes[i]? = some n) {g' : Origins} {m : Worker}
    (haligned : g'.Aligned w.broker) (hclosed : w.closed = s.world.closed)
    (hhands : g'.hands = g.hands) (hjob : m.job = n.job) :
    g'.Tracks ⟨w, s.nodes.set i m⟩ where
  aligned := haligned
  hands := by simpa [hhands] using h.hands
  handlers := by
    intro k m' c msg hk hmsg
    rw [hhands]
    by_cases hik : i = k
    · subst hik
      rw [List.getElem?_set_self (List.getElem?_eq_some_iff.mp hn).1, Option.some.injEq] at hk
      subst hk
      exact h.handlers i n c msg hn (hjob.symm.trans hmsg)
    · simp only at hk
      rw [List.getElem?_set_ne hik] at hk
      exact h.handlers k m' c msg hk hmsg
  opened := hclosed.trans h.opened

/-- A relay acts. -/
theorem Tracks.relay (h : g.Tracks s) (hn : s.nodes[i]? = some n) (hjob : n.job = .relayTick)
    (hnext : Member.next n = some st) (hmay : relayPassage n.log st)
    (hworked : Worked i s.world st o r w) :
    (note s (.run i o) t g).Tracks ⟨w, s.nodes.set i ⟨n.job, n.log ++ [⟨st, r⟩], script⟩⟩ ∧
      Carries s g ⟨w, s.nodes.set i ⟨n.job, n.log ++ [⟨st, r⟩], script⟩⟩
        (note s (.run i o) t g) := by
  obtain ⟨o', ho'⟩ : ∃ o', g.hands[i]? = some o' :=
    ⟨_, List.getElem?_eq_getElem (h.hands ▸ (List.getElem?_eq_some_iff.mp hn).1)⟩
  have hzero : ∀ (k : ℕ → Message → List Done → ℕ) (m : Worker), m.job = .relayTick →
      inHand k o' m = 0 := by
    intro k m hm
    cases o' with
    | none => rfl
    | some p => simp [inHand, hm]
  have haccount : ∀ f k, g.account f k ⟨w, s.nodes.set i ⟨n.job, n.log ++ [⟨st, r⟩], script⟩⟩ =
      g.account f k s := by
    intro f k
    have hset := account_set (f := f) (h := k) (w := w) ho' hn ⟨n.job, n.log ++ [⟨st, r⟩], script⟩
    have hbefore := hzero k n hjob
    have hafter := hzero k (⟨n.job, n.log ++ [⟨st, r⟩], script⟩ : Worker) hjob
    omega
  have hstill : w.broker = s.world.broker → (∀ x key m, st ≠ .confirmPublish x key m) →
      (∀ x key m e, st ≠ .publish x key m e) →
      (note s (.run i o) t g).Tracks ⟨w, s.nodes.set i ⟨n.job, n.log ++ [⟨st, r⟩], script⟩⟩ ∧
        Carries s g ⟨w, s.nodes.set i ⟨n.job, n.log ++ [⟨st, r⟩], script⟩⟩
          (note s (.run i o) t g) := by
    intro hbroker hconfirm hpublish
    rw [note_run hn hnext hconfirm hpublish]
    refine ⟨h.set hn ?_ hworked.closed_eq rfl rfl, .still rfl haccount⟩
    exact hbroker ▸ h.aligned
  cases hworked with
  | statement hst hbroker hattempts hclosed =>
    refine hstill hbroker ?_ ?_
    · rintro x key m rfl
      cases hst
    · rintro x key m e rfl
      cases hst
  | kept =>
    -- a new publication, counted by what it puts into the main queue
    rename_i x key m
    obtain ⟨rfl, rfl, -⟩ := hmay
    have hnote : note s (.run i (.plain .done)) t g =
        { g.publish EXCHANGE ROUTING_KEY g.published m with published := g.published + 1 } := by
      simp only [note, hn, Option.bind_some, hnext]
    rw [hnote]
    refine ⟨h.set hn (h.aligned.publish _ _ _) rfl rfl rfl, .published (m := m) rfl ?_⟩
    intro f k
    have hrest := atRest_publish (f := f) (g := g) (p := g.published) (m := m) .deliver
      route_webhooks
    have hold := haccount f k
    simp only [account] at hold ⊢
    simp only [atRest, publish] at hrest hold ⊢
    omega
  | refused =>
    refine ⟨h.set hn h.aligned rfl rfl rfl, .still rfl haccount⟩
  | awaited => exact hstill rfl (fun _ _ _ => Op.noConfusion) (fun _ _ _ _ => Op.noConfusion)
  | _ => exact hmay.elim

/-- A handler acts. -/
theorem Tracks.handler {c : ℕ} {msg : Message} (h : g.Tracks s) (hs : AllOwed s)
    (hn : s.nodes[i]? = some n) (hjob : n.job = .handle c msg) (hnext : Member.next n = some st)
    (hmay : handlePassage msg n.log st) (hworked : Worked i s.world st o r w) :
    (note s (.run i o) t g).Tracks ⟨w, s.nodes.set i ⟨n.job, n.log ++ [⟨st, r⟩], script⟩⟩ ∧
      Carries s g ⟨w, s.nodes.set i ⟨n.job, n.log ++ [⟨st, r⟩], script⟩⟩
        (note s (.run i o) t g) := by
  obtain ⟨p, hp⟩ := h.handlers i n c msg hn hjob
  have hhandles : g.Handles s i p msg n.log := ⟨hp, n, c, hn, hjob, rfl⟩
  have haccount : ∀ f k, g.account f k ⟨w, s.nodes.set i ⟨n.job, n.log ++ [⟨st, r⟩], script⟩⟩ +
      k p msg n.log = g.account f k s + k p msg (n.log ++ [⟨st, r⟩]) := by
    intro f k
    have hset := account_set (f := f) (h := k) (w := w) hp hn ⟨n.job, n.log ++ [⟨st, r⟩], script⟩
    simpa only [inHand, hjob] using hset
  have hacted : w.broker.ready = s.world.broker.ready →
      (∀ x key m, st ≠ .confirmPublish x key m) → (∀ x key m e, st ≠ .publish x key m e) →
      (note s (.run i o) t g).Tracks ⟨w, s.nodes.set i ⟨n.job, n.log ++ [⟨st, r⟩], script⟩⟩ ∧
        Carries s g ⟨w, s.nodes.set i ⟨n.job, n.log ++ [⟨st, r⟩], script⟩⟩
          (note s (.run i o) t g) := by
    intro hready hconfirm hpublish
    rw [note_run hn hnext hconfirm hpublish]
    refine ⟨h.set hn (h.aligned.congr hready) hworked.closed_eq rfl rfl, ?_⟩
    exact .acted rfl hhandles hmay hpublish haccount
  cases hworked with
  | statement hst hbroker hattempts hclosed =>
    refine hacted (by rw [hbroker]) ?_ ?_
    · rintro x key m rfl
      cases hst
    · rintro x key m e rfl
      cases hst
  | copied expiresAt =>
    -- the copy has the origin of the handler's message, whichever queue it enters
    rename_i x key m e
    have hnote : note s (.run i (.plain .done)) t g = g.publish x key p m := by
      simp only [note, hn, Option.bind_some, hnext, hp]
    have hroute : ∃ q, topology.route x key = [q] := by
      obtain ⟨rfl, -, -, hcopy⟩ := hmay
      cases hcopy with
      | retry posted unheard attempt => exact ⟨.retry, rfl⟩
      | orphan gone unposted => exact ⟨.dead, rfl⟩
      | dead posted unheard attempt => exact ⟨.dead, rfl⟩
    obtain ⟨q, hroute⟩ := hroute
    rw [hnote]
    refine ⟨h.set hn (h.aligned.publish _ _ _) rfl rfl rfl, .copied rfl hhandles hmay hroute ?_⟩
    intro f k
    have hrest := atRest_publish (f := f) (g := g) (p := p) (m := m) q hroute
    have hold := haccount f k
    simp only [account] at hold ⊢
    rw [hrest]
    simp only [publish]
    omega
  | fetched status =>
    exact hacted rfl (fun _ _ _ => Op.noConfusion) (fun _ _ _ _ => Op.noConfusion)
  | acked => exact hacted rfl (fun _ _ _ => Op.noConfusion) (fun _ _ _ _ => Op.noConfusion)
  | nacked =>
    refine hacted ?_ (fun _ _ _ => Op.noConfusion) (fun _ _ _ _ => Op.noConfusion)
    exact (World.nack_broker (fun d hd => (hs d hd).queue) i).1
  | _ => exact hmay.elim

/-- A process begins. -/
theorem Tracks.start (h : g.Tracks s) {j : WorkerJob}
    (hborn : World.lossyBirth s.nodes.length j s.world = some w) :
    (note s (.start j) t g).Tracks ⟨w, s.nodes ++ [⟨j, [], script⟩]⟩ ∧
      Carries s g ⟨w, s.nodes ++ [⟨j, [], script⟩]⟩ (note s (.start j) t g) := by
  obtain ⟨v, hv, rfl⟩ := World.lossyBirth_eq_some hborn
  have hopened : (v.opening s.nodes.length).closed = [] := by
    rw [World.opening, World.birth_closed hv, h.opened]
    rfl
  have hold : ∀ {o : Option ℕ} {k : ℕ} {n : Worker} {c : ℕ} {msg : Message},
      (∀ c msg, j = .handle c msg → ∃ p, o = some p) →
      (s.nodes ++ [⟨j, [], script⟩])[k]? = some n → n.job = .handle c msg →
      ∃ p, (g.hands ++ [o])[k]? = some (some p) := by
    intro o k n c msg ho hk hjob
    by_cases hlt : k < s.nodes.length
    · rw [List.getElem?_append_left hlt] at hk
      obtain ⟨p, hp⟩ := h.handlers k n c msg hk hjob
      exact ⟨p, by rw [List.getElem?_append_left (h.hands ▸ hlt), hp]⟩
    · rw [List.getElem?_append_right (not_lt.mp hlt)] at hk
      obtain ⟨hlast, rfl⟩ := List.getElem?_eq_some_iff.mp hk
      rw [List.length_singleton] at hlast
      have hsame : k = g.hands.length := by
        rw [h.hands]
        omega
      obtain ⟨p, rfl⟩ := ho c msg (by simpa using hjob)
      exact ⟨p, by simp [hsame]⟩
  cases j with
  | relayTick =>
    obtain rfl := Option.some.inj hv
    refine ⟨⟨h.aligned, by simp [note, h.hands], ?_, hopened⟩, .still rfl ?_⟩
    · intro k n c msg hk hjob
      exact hold (o := none) (fun _ _ h => by cases h) hk hjob
    · intro f k
      have htotal := Pool.totalWith_append (f := inHand k) (s := s) h.hands s.world none
        ⟨.relayTick, [], script⟩
      exact congrArg (g.atRest f + ·) htotal
  | handle c msg =>
    -- the head of the main queue, and its origin with it
    simp only [World.birth] at hv
    split at hv
    · rename_i m b hdeliver
      split at hv
      · rename_i hm
        subst hm
        obtain rfl := Option.some.inj hv
        obtain ⟨x, rest, hready, rfl, rfl⟩ := Broker.State.deliver_eq_some hdeliver
        obtain ⟨p, tail, hnoted, haligned⟩ := h.aligned.head hready
        have hnote : note s (.start (.handle c x.message)) t g =
            { g.pop Q_DELIVER with hands := g.hands ++ [some p] } := by
          simp only [note, hnoted, List.head?_cons, Option.map_some]
        rw [hnote]
        refine ⟨⟨haligned, by simp [h.hands], ?_, hopened⟩,
          .handed (p := p) (m := x.message) rfl ?_⟩
        · intro k n c' msg' hk hjob
          exact hold (o := some p) (fun _ _ _ => ⟨p, rfl⟩) hk hjob
        · intro f k
          have hrest : (g.pop Q_DELIVER).atRest f + f .deliver p x.message = g.atRest f :=
            atRest_pop Q_DELIVER hnoted
          have htotal : ∀ w : World, Pool.totalWith (inHand k) (g.hands ++ [some p])
              ⟨w, s.nodes ++ [⟨.handle c x.message, [], script⟩]⟩ =
              Pool.totalWith (inHand k) g.hands s + k p x.message [] :=
            fun w => Pool.totalWith_append h.hands w (some p) _
          have hnow : ∀ w : World, account f k { g.pop Q_DELIVER with hands := g.hands ++ [some p] }
              ⟨w, s.nodes ++ [⟨.handle c x.message, [], script⟩]⟩ = (g.pop Q_DELIVER).atRest f +
                (Pool.totalWith (inHand k) g.hands s + k p x.message []) :=
            fun w => congrArg ((g.pop Q_DELIVER).atRest f + ·) (htotal w)
          rw [hnow, account]
          omega
      · cases hv
    · cases hv

/-- A copy has waited for its time. -/
theorem Tracks.expire (h : g.Tracks s) {b : MessageBroker}
    (hb : s.world.broker.expire topology s.world.now Q_RETRY = some b) :
    (note s (.event (.plain .expire)) t g).Tracks ⟨{ s.world with broker := b }, s.nodes⟩ ∧
      Carries s g ⟨{ s.world with broker := b }, s.nodes⟩
        (note s (.event (.plain .expire)) t g) := by
  obtain ⟨x, rest, hready, rfl⟩ := Broker.State.expire_eq_some hb
  obtain ⟨p, tail, hnoted, haligned⟩ := h.aligned.head hready
  have hnote : note s (.event (.plain .expire)) t g =
      (g.pop Q_RETRY).publish EXCHANGE ROUTING_KEY p x.message := by
    simp only [note, hnoted]
  rw [hnote]
  refine ⟨⟨haligned.publish _ _ _, h.hands, h.handlers, h.opened⟩,
    .expired (p := p) (m := x.message) rfl ?_⟩
  intro f k
  have hpop : (g.pop Q_RETRY).atRest f + f .retry p x.message = g.atRest f :=
    atRest_pop Q_RETRY hnoted
  have hpublish := atRest_publish (f := f) (g := g.pop Q_RETRY) (p := p) (m := x.message) .deliver
    route_webhooks
  have hhands : ((g.pop Q_RETRY).publish EXCHANGE ROUTING_KEY p x.message).hands = g.hands := rfl
  have hsame : ∀ w : World, Pool.totalWith (inHand k) g.hands (⟨w, s.nodes⟩ : Workers) =
      Pool.totalWith (inHand k) g.hands s := fun _ => rfl
  simp only [account, hhands, hsame]
  omega

/-- Every step is one of these, and the observer goes on knowing. -/
theorem Tracks.move (h : g.Tracks s) (hs : AllOwed s)
    (hmove : Move (passageDiscipline batch) s l t) (hl : unbroken s l = true) :
    (note s l t g).Tracks t ∧ Carries s g t (note s l t g) := by
  cases hmove with
  | start born => exact h.start born
  | run here script knows may acts =>
    rename_i i o n st k r w
    have hnext : Member.next n = some st := by rw [Member.next, script]
    rcases Worked.of_act acts with ⟨-, hworked⟩ | hbarred
    · cases hjob : n.job with
      | relayTick =>
        have hmay : relayPassage n.log st := by
          simpa only [passageDiscipline, hjob, passage] using may
        exact hjob ▸ h.relay here hjob hnext hmay hworked
      | handle c msg =>
        rcases Worked.of_handle hjob knows may acts with ⟨hmay, -⟩ | hbarred
        · exact hjob ▸ h.handler hs here hjob hnext hmay hworked
        · exact absurd hbarred.closed (by simp [h.opened])
    · exact absurd hbarred.closed (by simp [h.opened])
  | crash here live => cases hl
  | event happens =>
    rename_i e w
    cases e with
    | channelLost i => cases hl
    | plain e =>
      have hstill : w.broker = s.world.broker → w.closed = s.world.closed →
          g.Tracks { s with world := w } ∧ Carries s g { s with world := w } g := by
        intro hbroker hclosed
        refine ⟨⟨hbroker ▸ h.aligned, h.hands, h.handlers, hclosed.trans h.opened⟩, ?_⟩
        exact .still rfl (fun _ _ => rfl)
      cases e with
      | tick n =>
        obtain rfl := Option.some.inj happens
        exact hstill rfl rfl
      | enqueue id m e type payload since =>
        obtain ⟨-, -, rfl⟩ := World.enqueue_eq_some happens
        exact hstill rfl rfl
      | register row =>
        obtain rfl := Option.some.inj happens
        exact hstill rfl rfl
      | expire =>
        obtain ⟨b, hb, rfl⟩ := Option.map_eq_some_iff.mp happens
        exact h.expire hb

end Step

/-! ## One place for each publication -/

/-- The messages of a publication in a queue. -/
def waiting (p : ℕ) (q : Queue) (g : Origins) : ℕ := (g.ready q).countP (fun x => decide (x.1 = p))

/-- The handlers of a publication whose message has met these fates so far. -/
def met (p : ℕ) (fs : List Fate) (g : Origins) (s : Workers) : ℕ :=
  s.totalWith (inHand (fun p' _ log => if p' = p ∧ fates log = fs then 1 else 0)) g.hands

/-- How often `fetch` has been called for a publication. -/
def calls (p : ℕ) (g : Origins) (s : Workers) : ℕ :=
  s.totalWith (inHand (fun p' _ log => if p' = p then log.countP posts else 0)) g.hands

/-- How often a publication has come to an outcome: a dead letter, an event marked
delivered, or a message dropped. -/
def outcomes (p : ℕ) (g : Origins) (s : Workers) : ℕ :=
  g.waiting p .dead + g.met p [.delivered] s + g.met p [.dropped] s

/-- Nothing of the publication waits to be handled, or is being handled. -/
structure Ended (p : ℕ) (g : Origins) (s : Workers) : Prop where
  deliver : g.waiting p Q_DELIVER = 0
  retry : g.waiting p Q_RETRY = 0
  hands : ∀ (i : ℕ) (n : Worker), g.hands[i]? = some (some p) → s.nodes[i]? = some n →
    n.script.any Client.finished = true

/-- Each message of the publication counts for one. -/
def mine (p : ℕ) (_ : Queue) (p' : ℕ) (_ : Message) : ℕ := if p' = p then 1 else 0

/-- And so does each handler that has published no copy. -/
def uncopied (p p' : ℕ) (_ : Message) (log : List Done) : ℕ :=
  if p' = p ∧ (fates log).any Fate.isCopy = false then 1 else 0

/-- The attempts still to be taken, and those taken. -/
def left (p : ℕ) (q : Queue) (p' : ℕ) (m : Message) : ℕ := if p' = p then restLeft q m else 0

def taken (p p' : ℕ) (msg : Message) (log : List Done) : ℕ :=
  if p' = p then log.countP posts + handLeft msg log else 0

section Place

variable {s t : Workers} {g g' : Origins} {p : ℕ}

theorem atRest_mine : g.atRest (mine p) =
    g.waiting p .deliver + g.waiting p .retry + g.waiting p .dead := by
  have hcount : ∀ (q : Queue) (xs : List (ℕ × Message)),
      (xs.map (fun x => mine p q x.1 x.2)).sum = xs.countP (fun x => decide (x.1 = p)) := by
    intro q xs
    induction xs with
    | nil => rfl
    | cons x xs ih =>
      rw [List.map_cons, List.sum_cons, ih, List.countP_cons]
      simp [mine, Nat.add_comm]
  simp only [atRest, waiting, hcount]

/-- A publication counts for one from the moment it is made. -/
theorem Carries.mine (h : Carries s g t g') :
    g'.account (mine p) (uncopied p) t + (if p < g.published then 1 else 0) =
      g.account (Origins.mine p) (uncopied p) s + (if p < g'.published then 1 else 0) := by
  cases h with
  | published count account =>
    rename_i m
    have hacc := account (Origins.mine p) (uncopied p)
    rw [hacc, count]
    unfold Origins.mine
    split_ifs <;> omega
  | handed count account =>
    rename_i p' m
    have hacc := account (Origins.mine p) (uncopied p)
    have hsame : uncopied p p' m [] = Origins.mine p .deliver p' m := by
      simp [uncopied, Origins.mine]
    rw [count]
    omega
  | acted count handles may hcopy account =>
    rename_i i p' msg log st r
    have hacc := account (Origins.mine p) (uncopied p)
    have hsame : uncopied p p' msg (log ++ [⟨st, r⟩]) = uncopied p p' msg log := by
      simp [uncopied, fateOf_uncopied hcopy]
    rw [count]
    omega
  | copied count handles may route account =>
    -- the copy takes the place of its handler
    rename_i i p' msg log q x key m e
    obtain ⟨-, hfates, -⟩ := may
    have hacc := account (Origins.mine p) (uncopied p)
    have hbefore : uncopied p p' msg log = Origins.mine p q p' m := by
      simp [uncopied, Origins.mine, hfates]
    have hafter : uncopied p p' msg (log ++ [⟨.publish x key m e, .ok ()⟩]) = 0 := by
      simp [uncopied, fateOf, Fate.isCopy]
    rw [count]
    omega
  | expired count account =>
    rename_i p' m
    have hacc := account (Origins.mine p) (uncopied p)
    have hsame : Origins.mine p .retry p' m = Origins.mine p .deliver p' m := rfl
    rw [count]
    omega
  | still count account => rw [count, account]

theorem countP_posts (log : List Done) (d : Done) :
    (log ++ [d]).countP posts = log.countP posts + (posts d).toNat := by
  rw [List.countP_append, List.countP_singleton]
  cases posts d <;> rfl

/-- What a step calls `fetch` for was left to its publication. -/
theorem Carries.taken (h : Carries s g t g') (hrange : Everywhere InRange s) :
    g'.account (left p) (taken p) t + (if p < g.published then MAX_ATTEMPTS else 0) ≤
      g.account (left p) (Origins.taken p) s + (if p < g'.published then MAX_ATTEMPTS else 0) := by
  cases h with
  | published count account =>
    rename_i m
    have hacc := account (left p) (Origins.taken p)
    have hle : restLeft .deliver m ≤ MAX_ATTEMPTS := by
      simp [restLeft]
    rw [hacc, count]
    unfold left
    split_ifs <;> omega
  | handed count account =>
    rename_i p' m
    have hacc := account (left p) (Origins.taken p)
    have hsame : Origins.taken p p' m [] = left p .deliver p' m := by
      simp [Origins.taken, left, handLeft_nil]
    rw [count]
    omega
  | acted count handles may hcopy account =>
    rename_i i p' msg log st r
    obtain ⟨n, c, hn, hjob, -⟩ := handles.handler
    have hacc := account (left p) (Origins.taken p)
    have hact := handLeft_act may (hrange.jobs n (List.mem_of_getElem? hn) c msg hjob).1.2 r
    have hle : Origins.taken p p' msg (log ++ [⟨st, r⟩]) ≤ Origins.taken p p' msg log := by
      simp only [Origins.taken, countP_posts]
      split_ifs <;> omega
    rw [count]
    omega
  | copied count handles may route account =>
    rename_i i p' msg log q x key m e
    obtain ⟨n, c, hn, hjob, -⟩ := handles.handler
    have hacc := account (left p) (Origins.taken p)
    have hcopy := handLeft_copy may route (hrange.jobs n (List.mem_of_getElem? hn) c msg hjob).1.1
    have hle : left p q p' m + Origins.taken p p' msg (log ++ [⟨.publish x key m e, .ok ()⟩]) ≤
        Origins.taken p p' msg log := by
      simp only [left, Origins.taken, countP_posts, posts, Bool.toNat_false, Nat.add_zero]
      split_ifs <;> omega
    rw [count]
    omega
  | expired count account =>
    rename_i p' m
    have hacc := account (left p) (Origins.taken p)
    have hsame : left p .retry p' m = left p .deliver p' m := by
      simp [left, restLeft, Message.attempt]
    rw [count]
    omega
  | still count account =>
    rw [count, account]

/-- What is known at every state of a run. -/
structure Sound (g : Origins) (s : Workers) : Prop where
  owed : AllOwed s
  fated : Fated s
  range : Everywhere InRange s
  tracks : g.Tracks s
  mine : ∀ p, g.account (Origins.mine p) (uncopied p) s = if p < g.published then 1 else 0
  taken : ∀ p, g.account (left p) (Origins.taken p) s ≤
    if p < g.published then MAX_ATTEMPTS else 0

theorem Sound.move {batch : ℕ} {l : LossyTurn} (h : g.Sound s)
    (hmove : Move (passageDiscipline batch) s l t) (hl : unbroken s l = true) :
    (note s l t g).Sound t := by
  obtain ⟨htracks, hcarries⟩ := h.tracks.move h.owed hmove hl
  refine ⟨h.owed.move hmove, h.fated.move hmove, h.range.inRange hmove, htracks, ?_, ?_⟩
  · intro p
    have hstep := hcarries.mine (p := p)
    rw [h.mine p] at hstep
    omega
  · intro p
    have hstep := hcarries.taken (p := p) h.range
    have hbefore := h.taken p
    omega

theorem Sound.begin : empty.Sound (Pool.begin .empty) where
  owed := allOwed_begin
  fated := fated_begin
  range := everywhere_begin
  tracks := ⟨fun _ => rfl, rfl, fun i n c msg hn => by simp [Pool.begin] at hn, rfl⟩
  mine := fun _ => rfl
  taken := fun _ => Nat.zero_le _

theorem sound_along {batch : ℕ} {ls : List LossyTurn}
    (h : (Pool.begin .empty).runWhile lossyDevice (workerProgramOf batch) unbroken ls = some s) :
    (along batch ls).Sound s :=
  Pool.run_traced (K := passageDiscipline batch) (fun hg hmove hl => hg.move hmove hl)
    ((passageDiscipline batch).follows_begin _) h .begin

theorem Sound.calls_le (h : g.Sound s) (p : ℕ) : g.calls p s ≤ MAX_ATTEMPTS := by
  have hle : g.calls p s ≤ Pool.totalWith (inHand (Origins.taken p)) g.hands s := by
    refine Pool.totalWith_le ?_
    intro o n
    cases o with
    | none => exact le_rfl
    | some p' =>
      simp only [inHand]
      split
      · exact le_rfl
      · unfold Origins.taken
        split <;> omega
  have hbound := h.taken p
  rw [account] at hbound
  split at hbound
  · omega
  · omega

/-- A handler that has published no copy has met no fate, or one. -/
theorem Sound.uncopied_eq (h : g.Sound s) (p : ℕ) :
    Pool.totalWith (inHand (uncopied p)) g.hands s =
      g.met p [] s + g.met p [.delivered] s + g.met p [.dropped] s := by
  unfold met
  rw [← Pool.totalWith_add, ← Pool.totalWith_add]
  refine Pool.totalWith_congr ?_
  intro i o n ho hn
  cases o with
  | none => rfl
  | some p' =>
    simp only [inHand]
    cases hjob : n.job with
    | relayTick => rfl
    | handle c msg =>
      simp only [uncopied]
      by_cases hp : p' = p
      · cases hcopies : (fates n.log).any Fate.isCopy with
        | false =>
          rcases h.fated n (List.mem_of_getElem? hn) c msg hjob hcopies with hf | hf | hf <;>
            simp [hp, hf]
        | true =>
          have hnot : ∀ fs : List Fate, fs.any Fate.isCopy = false → fates n.log ≠ fs := by
            rintro fs hfs rfl
            rw [hcopies] at hfs
            cases hfs
          simp [hp, hnot [] rfl, hnot [.delivered] rfl, hnot [.dropped] rfl]
      · simp [hp]

end Place

/-! ## How a handler ends -/

def acknowledges : Done → Bool
  | ⟨.ack, .ok _⟩ => true
  | _ => false

def rejects : Done → Bool
  | ⟨.nack, .ok _⟩ => true
  | _ => false

inductive Way
  | acked
  | deadLettered
  | retried
  | nacked

/-- A handler with this record has ended in this way. A dead letter that could not
be marked failed is rejected, and is in the dead-letter queue all the same. -/
def EndsIn (msg : Message) (log : List Done) : Way → Prop
  | .acked => log.any acknowledges = true ∧ fates log = [.delivered]
  | .deadLettered => ∃ m, m.content = msg.content ∧
      (fates log = [.copied EXCHANGE_DEAD m none] ∨
        fates log = [.copied EXCHANGE_DEAD m none, .dropped])
  | .retried => log.any acknowledges = true ∧ fates log = [retryCopy msg]
  | .nacked => log.any rejects = true ∧ fates log = [.dropped]

/-- The way, read off the fates. -/
def wayOf : List Fate → Option Way
  | [.delivered] => some .acked
  | [.dropped] => some .nacked
  | .copied .webhooksDead _ _ :: _ => some .deadLettered
  | [.copied .webhooksRetry _ _] => some .retried
  | _ => none

section Ways

variable {msg : Message} {log : List Done}

theorem EndsIn.way {way : Way} (h : EndsIn msg log way) : wayOf (fates log) = some way := by
  cases way with
  | acked =>
    rw [h.2]
    rfl
  | deadLettered =>
    obtain ⟨m, -, hfates | hfates⟩ := h
    · rw [hfates]
      rfl
    · rw [hfates]
      rfl
  | retried =>
    rw [h.2]
    rfl
  | nacked =>
    rw [h.2]
    rfl

theorem rejects_iff : log.any rejects = true ↔ Fate.dropped ∈ fates log := by
  rw [List.any_eq_true, fates, List.mem_flatMap]
  refine exists_congr (fun d => and_congr_right (fun _ => ?_))
  unfold rejects fateOf
  split <;> split <;> simp_all

/-- What is settled and not rejected is acknowledged. -/
theorem acknowledges_of_settles (h : log.countP settles = 1) (hnot : Fate.dropped ∉ fates log) :
    log.any acknowledges = true := by
  obtain ⟨d, hd, hsettles⟩ := List.countP_pos_iff.mp (h ▸ Nat.one_pos)
  unfold settles at hsettles
  split at hsettles
  · exact List.any_eq_true.mpr ⟨_, hd, rfl⟩
  · exact absurd (rejects_iff.mp (List.any_eq_true.mpr ⟨_, hd, rfl⟩)) hnot
  · cases hsettles

/-- A handler that has settled its message has ended in one of the four ways. -/
theorem endsIn_of_settled (honce : log.countP settles = 1) (h : Ending msg log (fates log)) :
    ∃! way, EndsIn msg log way := by
  have hack := acknowledges_of_settles honce
  have hone : ∃ way, EndsIn msg log way := by
    generalize hfates : fates log = fs at h
    rw [hfates] at hack
    cases h with
    | delivered answered => exact ⟨.acked, hack (by simp), hfates⟩
    | dropped unfound => exact ⟨.nacked, rejects_iff.mpr (by simp [hfates]), hfates⟩
    | copied copy =>
      cases copy with
      | retry posted unheard attempt => exact ⟨.retried, hack (by simp [retryCopy]), hfates⟩
      | orphan gone unposted => exact ⟨.deadLettered, ⟨msg.content, none⟩, rfl, .inl hfates⟩
      | dead posted unheard attempt =>
        exact ⟨.deadLettered, ⟨msg.content, some msg.attempt⟩, rfl, .inl hfates⟩
    | deadDropped copy dead =>
      cases copy with
      | retry posted unheard attempt => cases dead
      | orphan gone unposted => exact ⟨.deadLettered, ⟨msg.content, none⟩, rfl, .inr hfates⟩
      | dead posted unheard attempt =>
        exact ⟨.deadLettered, ⟨msg.content, some msg.attempt⟩, rfl, .inr hfates⟩
  obtain ⟨way, hway⟩ := hone
  refine ⟨way, hway, ?_⟩
  intro way' hway'
  exact Option.some.inj (hway'.way.symm.trans hway.way)

end Ways

/-! ## The requests of a call -/

/-- The answer to a request, with its `Location`. -/
structure HttpAnswer where
  status : ℕ
  location : Option String

/-- The POST of a delivery, or the GET that a redirect has made of it. -/
inductive HttpRequest
  | post (call : Post)
  | get (url : String)

def HttpRequest.isPost : HttpRequest → Bool
  | .post _ => true
  | .get _ => false

/-- The redirects one call of `fetch` follows. -/
def MAX_REDIRECTS : ℕ := 20

/-- 307 and 308 keep the method and the body. -/
def HttpAnswer.resends (a : HttpAnswer) : Bool :=
  decide (a.status = 307 ∨ a.status = 308) && a.location.isSome

/-- The request that an answer redirects to. -/
def HttpRequest.next (a : HttpAnswer) : HttpRequest → Option HttpRequest
  | .post call => a.location.bind (fun url =>
      if a.status = 307 ∨ a.status = 308 then some (.post { call with url := url })
      else if a.status = 301 ∨ a.status = 302 ∨ a.status = 303 then some (.get url)
      else none)
  | .get _ => a.location.bind (fun url =>
      if a.status ∈ [301, 302, 303, 307, 308] then some (.get url) else none)

/-- The requests that a call sends, given the answers it gets one after the other,
and the status it comes back with; `n` more redirects are followed. -/
def requests : ℕ → HttpRequest → List HttpAnswer → List HttpRequest × Option ℕ
  | _, r, [] => ([r], none)
  | n, r, a :: as =>
    match r.next a, n with
    | none, _ => ([r], some a.status)
    | some _, 0 => ([r], none)
    | some r', n + 1 => (r :: (requests n r' as).1, (requests n r' as).2)

/-- The POSTs that an action sends. -/
def sends (as : List HttpAnswer) : Done → ℕ
  | ⟨.fetch _ post, _⟩ => (requests MAX_REDIRECTS (.post post) as).1.countP HttpRequest.isPost
  | _ => 0

/-- The POSTs that a publication has caused, where the call of process `i` gets the
answers `answers i`. -/
def sent (p : ℕ) (answers : ℕ → List HttpAnswer) (g : Origins) (s : Workers) : ℕ :=
  s.totalWith (fun o n => inHand (fun p' _ log =>
    if p' = p then (log.map (sends (answers o.2))).sum else 0) o.1 n) g.hands.zipIdx

section Requests

variable {n : ℕ} {r : HttpRequest} {as : List HttpAnswer}

theorem requests_get (url : String) (n : ℕ) (as : List HttpAnswer) :
    (requests n (.get url) as).1.countP HttpRequest.isPost = 0 := by
  induction as generalizing n url with
  | nil => simp [requests, HttpRequest.isPost]
  | cons a as ih =>
    cases hlocation : a.location with
    | none => simp [requests, HttpRequest.next, hlocation, HttpRequest.isPost]
    | some url' =>
      by_cases hstatus : a.status ∈ [301, 302, 303, 307, 308]
      · have hnext : (HttpRequest.get url).next a = some (.get url') := by
          simp only [HttpRequest.next, hlocation, Option.bind_some, if_pos hstatus]
        cases n with
        | zero => simp [requests, hnext, HttpRequest.isPost]
        | succ n => simp [requests, hnext, HttpRequest.isPost, ih url' n]
      · have hnext : (HttpRequest.get url).next a = none := by
          simp only [HttpRequest.next, hlocation, Option.bind_some, if_neg hstatus]
        simp [requests, hnext, HttpRequest.isPost]

/-- A call that no answer makes send its POST again sends one. -/
theorem requests_post (post : Post) (n : ℕ) (h : ∀ a ∈ as, a.resends = false) :
    (requests n (.post post) as).1.countP HttpRequest.isPost = 1 := by
  cases as with
  | nil => simp [requests, HttpRequest.isPost]
  | cons a as =>
    have ha := h a List.mem_cons_self
    cases hlocation : a.location with
    | none => simp [requests, HttpRequest.next, hlocation, HttpRequest.isPost]
    | some url =>
      have hkeeps : ¬ (a.status = 307 ∨ a.status = 308) := by
        simpa [HttpAnswer.resends, hlocation] using ha
      cases hnext : (HttpRequest.post post).next a with
      | none => simp [requests, hnext, HttpRequest.isPost]
      | some r' =>
        -- a redirect that does not keep the method makes a GET of the POST
        have hget : ∃ url', r' = .get url' := by
          simp only [HttpRequest.next, hlocation, Option.bind_some, if_neg hkeeps] at hnext
          split at hnext
          · exact ⟨url, (Option.some.inj hnext).symm⟩
          · cases hnext
        obtain ⟨url', rfl⟩ := hget
        cases n with
        | zero => simp [requests, hnext, HttpRequest.isPost]
        | succ n =>
          have hrest := requests_get url' n as
          simp [requests, hnext, List.countP_cons, HttpRequest.isPost, hrest]

/-- Without such an answer there are as many POSTs as calls. -/
theorem sent_eq_calls {p : ℕ} {answers : ℕ → List HttpAnswer} {g : Origins} {s : Workers}
    (h : ∀ i, ∀ a ∈ answers i, a.resends = false) : g.sent p answers s = g.calls p s := by
  have hlog : ∀ (i : ℕ) (log : List Done),
      (log.map (sends (answers i))).sum = log.countP posts := by
    intro i log
    induction log with
    | nil => rfl
    | cons d log ih =>
      rw [List.map_cons, List.sum_cons, ih, List.countP_cons, Nat.add_comm]
      congr 1
      obtain ⟨st, r⟩ := d
      cases st with
      | fetch id post => exact requests_post post _ (h i)
      | _ => rfl
  have hsame : (fun (o : Option ℕ × ℕ) (n : Worker) => inHand (fun p' _ log =>
      if p' = p then (log.map (sends (answers o.2))).sum else 0) o.1 n) =
      fun o n => inHand (fun p' _ log => if p' = p then log.countP posts else 0) o.1 n := by
    funext o n
    simp only [hlog]
  unfold sent
  rw [hsame, Pool.totalWith_map Prod.fst, List.zipIdx_map_fst]
  rfl

end Requests

/-! ## Chains settle -/

section Runs

variable {batch : ℕ} {ls : List LossyTurn} {s : Workers} {g : Origins}

theorem runs_of_unbroken
    (h : (Pool.begin .empty).runWhile lossyDevice (workerProgramOf batch) unbroken ls = some s) :
    Runs lossyDevice (workerProgramOf batch) (fun _ _ => True) (Pool.begin .empty) s :=
  (Runs.of_runWhile h).mono (fun _ _ _ => trivial)

/-- A handler that has come to its end has settled its message. -/
theorem Sound.settled (hg : g.Sound s)
    (h : Runs lossyDevice (workerProgramOf batch) (fun _ _ => True) (Pool.begin .empty) s)
    {i c : ℕ} {n : Worker} {msg : Message} (hn : s.nodes[i]? = some n)
    (hjob : n.job = .handle c msg) (hdone : n.script.any Client.finished = true) :
    Settled msg n.log := by
  obtain ⟨script, hscript, hfinished⟩ := (Option.any_eq_true _ _).mp hdone
  cases script with
  | ret a => exact settled_runs h hn hjob hscript
  | throw e =>
    have hclosed := (severed_runs h hn hjob hscript).2
    rw [hg.tracks.opened] at hclosed
    cases hclosed
  | _ => cases hfinished

/-- A publication whose chain has ended has come to one outcome. -/
theorem Sound.outcomes_eq (hg : g.Sound s)
    (h : Runs lossyDevice (workerProgramOf batch) (fun _ _ => True) (Pool.begin .empty) s) {p : ℕ}
    (hp : p < g.published) (hended : g.Ended p s) : g.outcomes p s = 1 := by
  have hone := hg.mine p
  rw [if_pos hp, account, atRest_mine, hg.uncopied_eq] at hone
  -- no handler of the publication is still to decide
  have hmet : g.met p [] s = 0 := by
    refine (Pool.totalWith_congr ?_).trans Pool.totalWith_zero
    intro i o n ho hn
    cases o with
    | none => rfl
    | some p' =>
      simp only [inHand]
      cases hjob : n.job with
      | relayTick => rfl
      | handle c msg =>
        refine if_neg ?_
        rintro ⟨rfl, hnone⟩
        have hending := (hg.settled h hn hjob (hended.hands i n ho hn)).fate
        rw [hnone] at hending
        cases hending
  have hdeliver : g.waiting p .deliver = 0 := hended.deliver
  have hretry : g.waiting p .retry = 0 := hended.retry
  unfold outcomes
  omega

/-- The handler of the copy is answered 200 and marks the event delivered. -/
def retriedOnce : List LossyTurn :=
  refusedOnce ++ List.map lossless [.event (.tick (milliseconds (backoffMs 1))), .event .expire,
    .start (.handle 0 ⟨messageOne.content, some 2⟩), .run 2 .done, .run 2 (.status 200),
    .run 2 .done, .run 2 .done]

/-- What a call came back with is what the answers lead to. -/
def agrees (as : List HttpAnswer) : Done → Bool
  | ⟨.fetch _ post, .ok status⟩ =>
    decide ((requests MAX_REDIRECTS (.post post) as).2 = some status)
  | _ => true

/-- The endpoint redirects a POST five times before it answers 200. -/
def redirectFive : List HttpAnswer :=
  [⟨307, some "https://merchant.test/a"⟩, ⟨307, some "https://merchant.test/b"⟩,
    ⟨308, some "https://merchant.test/c"⟩, ⟨307, some "https://merchant.test/d"⟩,
    ⟨307, some "https://merchant.test/e"⟩, ⟨200, none⟩]

def deliverOnce : List LossyTurn :=
  List.map lossless (publishOne ++ [.start (.handle 0 messageOne), .run 1 .done,
    .run 1 (.status 200), .run 1 .done, .run 1 .done])

end Runs

end Origins

end PaymentApis
