import PaymentApis.Chains

/-!
# One call of `fetch` an event

A message carries the content of its row, whichever way it has gone: through
the relay, the retry queue or a crash. So `fetch` is called in one and the same
way for an event.
-/

namespace PaymentApis

open TxStore Processes

/-- The contents of the messages of all rows. -/
def World.contents (w : World) : List MessageContent :=
  w.events.map (fun r => (toMessage r).content)

/-- What `findById` finds. -/
def World.endpoint? (w : World) (id : Uuid) : Option WebhookEndpointRow :=
  w.endpoints.find? (fun r => decide (r.id = id))

/-! ## Rows -/

section Rows

variable {w w' : World} {i : ℕ} {st : Op} {o : LossyOutcome} {r : Except String (Answer st)}

/-- An update changes no content. -/
theorem webhookEventRepository.contents_updateWhere {p : WebhookEventRow → Bool}
    {g : WebhookEventRow → WebhookEventRow}
    (hg : ∀ r, (toMessage (g r)).content = (toMessage r).content) (w : World) :
    (updateWhere p g w).contents = w.contents := by
  simp only [World.contents, updateWhere, List.map_map]
  apply List.map_congr_left
  intro r _
  by_cases hp : p r = true
  · simp only [Function.comp_apply, hp, if_true, hg]
  · simp [hp]

/-- What a statement keeps of the tables. -/
structure SameTables (w w' : World) : Prop where
  contents : w'.contents = w.contents
  endpoints : w'.endpoints = w.endpoints

theorem SameTables.refl (w : World) : SameTables w w := ⟨rfl, rfl⟩

theorem SameTables.updateWhere {p : WebhookEventRow → Bool}
    {g : WebhookEventRow → WebhookEventRow}
    (hg : ∀ r, (toMessage (g r)).content = (toMessage r).content) (w : World) :
    SameTables w (webhookEventRepository.updateWhere p g w) :=
  ⟨webhookEventRepository.contents_updateWhere hg w, rfl⟩

theorem SameTables.statement {α : Type} {o : Outcome} {x : α × World} {r : Except String α}
    (hx : SameTables w x.2) (h : PaymentApis.statement o w x = some (r, w')) : SameTables w w' := by
  cases o with
  | done =>
    obtain ⟨-, rfl⟩ := Prod.mk.inj (Option.some.inj h)
    exact hx
  | failed message =>
    obtain ⟨-, rfl⟩ := Prod.mk.inj (Option.some.inj h)
    exact .refl w
  | status n => cases h

theorem SameTables.of_statement {o : Outcome} (hst : st.isStatement = true)
    (h : World.act i st o w = some (r, w')) : SameTables w w' := by
  have hupdate : ∀ {p g}, (∀ r, (toMessage (g r)).content = (toMessage r).content) →
      SameTables w (webhookEventRepository.updateWhere p g w) := fun hg => .updateWhere hg w
  cases st with
  | eventReapStalePublishing n => exact .statement (by exact hupdate (fun _ => rfl)) h
  | eventClaimForPublishing n => exact .statement (by exact hupdate (fun _ => rfl)) h
  | eventMarkPublished ids => exact .statement (by exact hupdate (fun _ => rfl)) h
  | eventResetToPending ids => exact .statement (by exact hupdate (fun _ => rfl)) h
  | eventMarkDelivered id => exact .statement (by exact hupdate (fun _ => rfl)) h
  | eventMarkFailed id n e => exact .statement (by exact hupdate (fun _ => rfl)) h
  | endpointFindById id => exact .statement (.refl w) h
  | _ => cases hst

/-- No action changes a content or an endpoint. -/
theorem SameTables.of_act (h : World.lossyAct i st o w = some (r, w')) : SameTables w w' := by
  have hopen : ∀ {o : Outcome} {r : Except String (Answer st)},
      World.act i st o w = some (r, w') → SameTables w w' := by
    intro o r hact
    cases Worked.of_open hact with
    | statement hst hbroker hattempts hclosed => exact .of_statement hst hact
    | _ => exact ⟨rfl, rfl⟩
  rcases World.lossyAct_cases h with
    ⟨o, -, -, hact⟩ | ⟨e, -, -, -, -, rfl⟩ | ⟨e, r', -, -, hact, -⟩
  · exact hopen hact
  · exact .refl w'
  · exact hopen hact

/-- The rows a claim returns. -/
theorem World.claimed_contents (h : World.lossyAct i st o w = some (r, w')) :
    ∀ row ∈ claimedRows ⟨st, r⟩, (toMessage row).content ∈ w.contents := by
  intro row hrow
  cases st with
  | eventClaimForPublishing limit =>
    cases r with
    | error e => cases hrow
    | ok rows =>
      rcases World.lossyAct_cases h with
        ⟨o, -, -, hact⟩ | ⟨e, -, -, -, hr, -⟩ | ⟨e, r', -, -, -, hr⟩
      · cases o with
        | done =>
          cases hact
          obtain ⟨row', hrow', rfl⟩ := List.mem_map.mp hrow
          exact List.mem_map.mpr ⟨row', (List.mem_filter.mp hrow').1, rfl⟩
        | failed message => cases hact
        | status n => cases hact
      · cases hr
      · cases hr
  | _ => cases hrow

/-- The endpoint a look-up returns. -/
theorem World.found_endpoint {id : Uuid} {x : Option WebhookEndpointRow}
    (h : World.lossyAct i (.endpointFindById id) o w = some (.ok x, w')) :
    x = w.endpoint? id := by
  rcases World.lossyAct_cases h with ⟨o, -, -, hact⟩ | ⟨e, -, -, -, hr, -⟩ | ⟨e, r', -, -, -, hr⟩
  · cases o with
    | done =>
      cases hact
      rfl
    | failed message => cases hact
    | status n => cases hact
  · cases hr
  · cases hr

end Rows

/-! ## What is known of every message -/

/-- Whatever is told of an event is told of its row. -/
structure Told (s : Workers) : Prop where
  nodup : (s.world.events.map (·.id)).Nodup
  messages : Everywhere (fun _ m => m.content ∈ s.world.contents) s
  claimed : ∀ n ∈ s.nodes, ∀ row ∈ n.log.flatMap claimedRows,
    (toMessage row).content ∈ s.world.contents
  found : ∀ n ∈ s.nodes, ∀ id e, ⟨.endpointFindById id, .ok (some e)⟩ ∈ n.log →
    s.world.endpoint? id = some e
  requests : ∀ a ∈ s.world.attempts, ∃ msg : Message, msg.content ∈ s.world.contents ∧
    a.outboxId = msg.content.outboxId ∧
    ∃ e, s.world.endpoint? msg.content.endpointId = some e ∧ a.post = msg.post e

/-- The tables after a step. -/
structure Grows (w w' : World) : Prop where
  contents : ∀ c ∈ w.contents, c ∈ w'.contents
  endpoints : ∀ id e, w.endpoint? id = some e → w'.endpoint? id = some e

theorem SameTables.grows {w w' : World} (h : SameTables w w') : Grows w w' where
  contents := by
    intro c hc
    rw [h.contents]
    exact hc
  endpoints := by
    intro id e he
    rw [World.endpoint?, h.endpoints]
    exact he

theorem World.ids_eq (w : World) : w.events.map (·.id) = w.contents.map (·.outboxId) := by
  simp only [World.contents, List.map_map]
  rfl

section Step

variable {batch : ℕ} {s t : Workers} {l : LossyTurn}

/-- What a step does to the tables. -/
inductive Tabled (w : World) (l : LossyTurn) (w' : World) : Prop
  | same (tables : SameTables w w')
  | enqueued {id m e type payload since}
      (label : l = .event (.plain (.enqueue id m e type payload since)))
      (fresh : id ∉ w.events.map (·.id))
      (contents : w'.contents = w.contents ++ [⟨id, e, type, payload⟩])
      (endpoints : w'.endpoints = w.endpoints)
  | registered {row} (label : l = .event (.plain (.register row)))
      (contents : w'.contents = w.contents) (endpoints : w'.endpoints = w.endpoints ++ [row])

theorem Tabled.of_move (hmove : Move (passageDiscipline batch) s l t) :
    Tabled s.world l t.world := by
  cases hmove with
  | start born =>
    rename_i j w c
    obtain ⟨v, hv, rfl⟩ := World.lossyBirth_eq_some born
    cases j with
    | relayTick =>
      obtain rfl := Option.some.inj hv
      exact .same ⟨rfl, rfl⟩
    | handle k msg =>
      simp only [World.birth] at hv
      split at hv
      · split at hv
        · obtain rfl := Option.some.inj hv
          exact .same ⟨rfl, rfl⟩
        · cases hv
      · cases hv
  | run here script knows may acts => exact .same (.of_act acts)
  | crash here live =>
    rename_i i n
    refine .same ?_
    cases hjob : n.job <;> exact ⟨rfl, rfl⟩
  | event happens =>
    rename_i e w
    cases e with
    | channelLost i =>
      obtain rfl := Option.some.inj happens
      exact .same ⟨rfl, rfl⟩
    | plain e =>
      cases e with
      | tick n =>
        obtain rfl := Option.some.inj happens
        exact .same ⟨rfl, rfl⟩
      | enqueue id m e type payload since =>
        obtain ⟨-, hfresh, rfl⟩ := World.enqueue_eq_some happens
        exact .enqueued rfl hfresh (by simp [World.contents, toMessage]) rfl
      | register row =>
        obtain rfl := Option.some.inj happens
        exact .registered rfl rfl rfl
      | expire =>
        obtain ⟨b, hb, rfl⟩ := Option.map_eq_some_iff.mp happens
        exact .same ⟨rfl, rfl⟩

/-- No step loses a content or an endpoint, and the ids stay apart. -/
theorem Grows.of_move (hmove : Move (passageDiscipline batch) s l t) :
    Grows s.world t.world ∧
      ((s.world.events.map (·.id)).Nodup → (t.world.events.map (·.id)).Nodup) := by
  cases Tabled.of_move hmove with
  | same tables =>
    refine ⟨tables.grows, ?_⟩
    rw [World.ids_eq, World.ids_eq, tables.contents]
    exact id
  | enqueued label fresh contents endpoints =>
    refine ⟨⟨?_, ?_⟩, ?_⟩
    · intro c hc
      rw [contents]
      exact List.mem_append_left _ hc
    · intro id e he
      rw [World.endpoint?, endpoints]
      exact he
    · intro hnodup
      rw [World.ids_eq] at hnodup fresh ⊢
      rw [contents, List.map_append]
      refine List.Nodup.append hnodup (List.nodup_singleton _) ?_
      intro k hk hid
      obtain rfl := List.mem_singleton.mp hid
      exact fresh hk
  | registered label contents endpoints =>
    refine ⟨⟨?_, ?_⟩, ?_⟩
    · intro c hc
      rw [contents]
      exact hc
    · intro id e he
      rw [World.endpoint?, endpoints, List.find?_append, ← World.endpoint?, he]
      rfl
    · rw [World.ids_eq, World.ids_eq, contents]
      exact id

theorem Told.move (howed : AllOwed s) (h : Told s)
    (hmove : Move (passageDiscipline batch) s l t) : Told t := by
  obtain ⟨hgrows, hnodup⟩ := Grows.of_move hmove
  refine ⟨hnodup h.nodup, ?_, ?_, ?_, ?_⟩
  · -- messages
    have hpasses : Passes (fun _ m => m.content ∈ t.world.contents) :=
      ⟨fun _ h _ => h, fun _ h => h, fun _ h => h, fun _ h => h⟩
    refine (h.messages.mono (fun _ m hm => hgrows.contents _ hm)).move hpasses hmove ?_
    exact fun n hn row hrow => hgrows.contents _ (h.claimed n hn row hrow)
  · -- rows claimed
    intro m hm row hrow
    cases hmove.grown hm with
    | old mem job log => exact hgrows.contents _ (h.claimed _ mem row (log ▸ hrow))
    | born label born log =>
      rw [log] at hrow
      cases hrow
    | acted label here knows may acts job log =>
      rw [log, List.flatMap_append] at hrow
      rcases List.mem_append.mp hrow with hold | hnew
      · exact hgrows.contents _ (h.claimed _ (List.mem_of_getElem? here) row hold)
      · rw [List.flatMap_singleton] at hnew
        exact hgrows.contents _ (World.claimed_contents acts row hnew)
  · -- endpoints found
    intro m hm id e he
    cases hmove.grown hm with
    | old mem job log => exact hgrows.endpoints _ _ (h.found _ mem id e (log ▸ he))
    | born label born log =>
      rw [log] at he
      cases he
    | acted label here knows may acts job log =>
      rw [log] at he
      rcases List.mem_append.mp he with hold | hnew
      · exact hgrows.endpoints _ _ (h.found _ (List.mem_of_getElem? here) id e hold)
      · obtain ⟨rfl, heq⟩ := Did.mk.inj (List.mem_singleton.mp hnew)
        obtain rfl := eq_of_heq heq
        exact hgrows.endpoints _ _ (World.found_endpoint acts).symm
  · -- requests
    have hold : ∀ a ∈ s.world.attempts, ∃ msg : Message, msg.content ∈ t.world.contents ∧
        a.outboxId = msg.content.outboxId ∧
        ∃ e, t.world.endpoint? msg.content.endpointId = some e ∧ a.post = msg.post e := by
      intro a ha
      obtain ⟨msg, hmsg, hid, e, he, hpost⟩ := h.requests a ha
      exact ⟨msg, hgrows.contents _ hmsg, hid, e, hgrows.endpoints _ _ he, hpost⟩
    intro a ha
    cases Passage.of_move howed hmove with
    | acted arrival mem may sent account uncopied =>
      cases sent with
      | nothing quiet attempts => exact hold a (attempts ▸ ha)
      | request status attempts =>
        rw [attempts] at ha
        rcases List.mem_append.mp ha with ha | ha
        · exact hold a ha
        · obtain rfl := List.mem_singleton.mp ha
          obtain ⟨n, hn, hjob, rfl⟩ := mem
          obtain ⟨-, -, -, -, e, he, hpost⟩ := may
          exact ⟨_, hgrows.contents _ (h.messages.jobs n hn _ _ hjob), rfl, e,
            hgrows.endpoints _ _ (h.found n hn _ e he), hpost⟩
    | arrived arrival attempts account => exact hold a (attempts ▸ ha)
    | handed arrival attempts account => exact hold a (attempts ▸ ha)
    | copied arrival mem may route attempts account => exact hold a (attempts ▸ ha)
    | barred arrival attempts channel mem account => exact hold a (attempts ▸ ha)
    | expired arrival attempts account => exact hold a (attempts ▸ ha)
    | still arrival attempts account => exact hold a (attempts ▸ ha)

theorem told_begin : Told (Pool.begin .empty) where
  nodup := List.nodup_nil
  messages := everywhere_begin
  claimed := by
    intro n hn
    cases hn
  found := by
    intro n hn
    cases hn
  requests := by
    intro a ha
    cases ha

end Step

/-- All calls of `fetch` for an event are one and the same, whatever crashes, fails
or is lost: the payload of its row, signed for the endpoint of its row. -/
theorem one_request {batch : ℕ} {ok : Workers → LossyTurn → Prop} {s : Workers}
    (h : Runs lossyDevice (workerProgramOf batch) ok (Pool.begin .empty) s) {a : Attempt}
    (ha : a ∈ s.world.attempts) :
    (∃ r ∈ s.world.events, ∃ e, r.id = a.outboxId ∧ s.world.endpoint? r.endpointId = some e ∧
        a.post = ⟨e.url, r.eventType, signPayload e.secret r.payload, r.payload⟩) ∧
      ∀ b ∈ s.world.attempts, b.outboxId = a.outboxId → b.post = a.post := by
  have hs : AllOwed s ∧ Told s := by
    refine Runs.invariant (K := passageDiscipline batch) (I := fun s => AllOwed s ∧ Told s) ?_
      ((passageDiscipline batch).follows_begin _) h ⟨allOwed_begin, told_begin⟩
    rintro s t l ⟨howed, htold⟩ hmove -
    exact ⟨howed.move hmove, htold.move howed hmove⟩
  have hrow : ∀ b ∈ s.world.attempts, ∃ r ∈ s.world.events, ∃ e, r.id = b.outboxId ∧
      s.world.endpoint? r.endpointId = some e ∧
        b.post = ⟨e.url, r.eventType, signPayload e.secret r.payload, r.payload⟩ := by
    intro b hb
    obtain ⟨msg, hmsg, hid, e, he, hpost⟩ := hs.2.requests b hb
    obtain ⟨r, hr, hcontent⟩ := List.mem_map.mp hmsg
    rw [← hcontent] at hid he
    refine ⟨r, hr, e, hid.symm, he, ?_⟩
    rw [hpost, Message.post, ← hcontent]
    rfl
  refine ⟨hrow a ha, ?_⟩
  intro b hb hsame
  obtain ⟨r, hr, e, hid, he, hpost⟩ := hrow a ha
  obtain ⟨r', hr', e', hid', he', hpost'⟩ := hrow b hb
  obtain rfl := row_unique hs.2.nodup hr' hr (by rw [hid, hid', hsame])
  rw [he, Option.some.injEq] at he'
  rw [hpost, hpost', he']

theorem one_request_crashed : ∃ s : Workers, ∃ a ∈ s.world.attempts, s.world.attempts.length = 3 ∧
    (∃ r ∈ s.world.events, ∃ e, r.id = a.outboxId ∧ s.world.endpoint? r.endpointId = some e ∧
        a.post = ⟨e.url, r.eventType, signPayload e.secret r.payload, r.payload⟩) ∧
      ∀ b ∈ s.world.attempts, b.outboxId = a.outboxId → b.post = a.post := by
  have hrun : (Pool.runWhile lossyDevice (workerProgramOf RELAY_BATCH) (fun _ _ => true)
      (Pool.begin .empty) crashedOnce).any (fun s =>
        decide (s.world.attempts.length = 3)) = true := by decide +kernel
  obtain ⟨s, hs, hthree⟩ := Runs.exists_of_runWhile hrun
  have hthree := of_decide_eq_true hthree
  obtain ⟨a, ha⟩ := List.exists_mem_of_length_pos (l := s.world.attempts) (by omega)
  exact ⟨s, a, ha, hthree, one_request hs ha⟩

end PaymentApis
