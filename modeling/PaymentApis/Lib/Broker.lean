import Mathlib.Tactic

/-!
# A message broker

Direct exchanges route a message by its key to the queues bound to them. A
queue is first in, first out. A consumer is handed the head of a queue and owes
the broker an acknowledgement; what it rejects, and what outlives its time to
live at the head of a queue, goes to the queue's dead-letter exchange, or is
discarded where the queue has none.
-/

namespace Broker

/-- The declared bindings, and the dead-letter exchange of each queue. -/
structure Topology (X Q K : Type) where
  bindings : List (Q × X × K)
  deadLetter : Q → Option (X × K)

/-- A message at rest in a queue. -/
structure Queued (M : Type) where
  message : M
  expiresAt : Option ℕ
deriving DecidableEq

/-- A message handed to a consumer and not yet acknowledged. -/
structure Delivery (Q M : Type) where
  tag : ℕ
  consumer : ℕ
  queue : Q
  message : M
deriving DecidableEq

structure State (Q M : Type) where
  ready : Q → List (Queued M)
  unacked : List (Delivery Q M)

section

variable {X Q K M : Type} [DecidableEq X] [DecidableEq Q] [DecidableEq K]

/-- The queues an exchange routes a key to. -/
def Topology.route (T : Topology X Q K) (x : X) (k : K) : List Q :=
  T.bindings.filterMap (fun b => if b.2.1 = x ∧ b.2.2 = k then some b.1 else none)

namespace State

def empty : State Q M := ⟨fun _ => [], []⟩

def setReady (b : State Q M) (q : Q) (ms : List (Queued M)) : State Q M :=
  { b with ready := Function.update b.ready q ms }

/-- A message enters every queue it is routed to. -/
def publish (T : Topology X Q K) (x : X) (k : K) (m : M) (expiresAt : Option ℕ)
    (b : State Q M) : State Q M :=
  { b with ready := fun q =>
      if q ∈ T.route x k then b.ready q ++ [⟨m, expiresAt⟩] else b.ready q }

/-- The head of a queue is handed to a consumer that has fewer than `prefetch`
messages to acknowledge. -/
def deliver (prefetch tag consumer : ℕ) (q : Q) (b : State Q M) : Option (M × State Q M) :=
  match b.ready q with
  | [] => none
  | h :: rest =>
    if b.unacked.countP (fun d => decide (d.consumer = consumer)) < prefetch then
      some (h.message,
        { b.setReady q rest with unacked := b.unacked ++ [⟨tag, consumer, q, h.message⟩] })
    else none

def ack (tag : ℕ) (b : State Q M) : State Q M :=
  { b with unacked := b.unacked.filter (fun d => decide (d.tag ≠ tag)) }

/-- Where a message of a queue goes when it is rejected or expires. -/
def bury (T : Topology X Q K) (q : Q) (m : M) (b : State Q M) : State Q M :=
  match T.deadLetter q with
  | none => b
  | some (x, k) => b.publish T x k m none

/-- `nack` with `requeue = false`. -/
def nack (T : Topology X Q K) (tag : ℕ) (b : State Q M) : State Q M :=
  match b.unacked.find? (fun d => decide (d.tag = tag)) with
  | none => b
  | some d => (b.ack tag).bury T d.queue d.message

/-- The channel of a consumer is gone: what it owed returns to the head. -/
def requeue (tag : ℕ) (b : State Q M) : State Q M :=
  match b.unacked.find? (fun d => decide (d.tag = tag)) with
  | none => b
  | some d => (b.ack tag).setReady d.queue (⟨d.message, none⟩ :: b.ready d.queue)

/-- The head of a queue has outlived its time. -/
def expire (T : Topology X Q K) (now : ℕ) (q : Q) (b : State Q M) : Option (State Q M) :=
  match b.ready q with
  | [] => none
  | h :: rest =>
    if h.expiresAt.any (fun t => decide (t ≤ now)) then
      some ((b.setReady q rest).bury T q h.message)
    else none

/-! ## Counting the messages of a queue -/

/-- The messages of a kind waiting in a queue. -/
def count (p : M → Bool) (q : Q) (b : State Q M) : ℕ := (b.ready q).countP (fun x => p x.message)

variable {T : Topology X Q K} {p : M → Bool} {b : State Q M} {q : Q}

omit [DecidableEq Q] in
theorem count_pos_iff {M : Type} {p : M → Bool} {b : State Q M} :
    0 < b.count p q ↔ ∃ x ∈ b.ready q, p x.message = true := by
  simp [count, List.countP_pos_iff]

omit [DecidableEq Q] in
@[simp] theorem count_empty : (empty : State Q M).count p q = 0 := rfl

theorem count_publish (x : X) (k : K) (m : M) (e : Option ℕ) :
    (b.publish T x k m e).count p q =
      b.count p q + if q ∈ T.route x k ∧ p m = true then 1 else 0 := by
  simp only [count, publish]
  by_cases hq : q ∈ T.route x k
  · simp [hq, List.countP_append, List.countP_singleton]
  · simp [hq]

@[simp] theorem publish_unacked (x : X) (k : K) (m : M) (e : Option ℕ) :
    (b.publish T x k m e).unacked = b.unacked := rfl

omit [DecidableEq Q] in
@[simp] theorem count_ack (tag : ℕ) : (b.ack tag).count p q = b.count p q := rfl

theorem count_setReady (q' : Q) (ms : List (Queued M)) :
    (b.setReady q' ms).count p q =
      if q = q' then ms.countP (fun x => p x.message) else b.count p q := by
  simp only [count, setReady]
  by_cases hq : q = q'
  · simp [hq]
  · simp [hq]

theorem count_bury_some {q' : Q} {x : X} {k : K} (h : T.deadLetter q' = some (x, k)) (m : M) :
    (b.bury T q' m).count p q =
      b.count p q + if q ∈ T.route x k ∧ p m = true then 1 else 0 := by
  simp only [bury, h]
  exact count_publish x k m none

theorem deliver_eq_some {prefetch tag consumer : ℕ} {m : M} {b' : State Q M}
    (h : b.deliver prefetch tag consumer q = some (m, b')) :
    ∃ x rest, b.ready q = x :: rest ∧ x.message = m ∧
      b' = { b.setReady q rest with unacked := b.unacked ++ [⟨tag, consumer, q, m⟩] } := by
  unfold deliver at h
  split at h
  · simp at h
  · rename_i x rest hready
    split at h
    · cases h
      exact ⟨x, rest, hready, rfl, rfl⟩
    · simp at h

/-- A message handed over leaves its queue. -/
theorem count_deliver {prefetch tag consumer : ℕ} {m : M} {b' : State Q M} (q' : Q)
    (h : b.deliver prefetch tag consumer q = some (m, b')) :
    b'.count p q' + (if q' = q ∧ p m = true then 1 else 0) = b.count p q' := by
  obtain ⟨x, rest, hready, rfl, rfl⟩ := deliver_eq_some h
  have hcount := count_setReady (p := p) (b := b) (q := q') q rest
  simp only [count] at hcount ⊢
  rw [hcount]
  by_cases hq : q' = q
  · subst hq
    simp [hready, List.countP_cons]
  · simp [hq]

/-- Only a message whose time has passed expires. -/
theorem expire_due {now : ℕ} {b' : State Q M} (h : b.expire T now q = some b') {x : Queued M}
    {rest : List (Queued M)} (hready : b.ready q = x :: rest) :
    x.expiresAt.any (fun t => decide (t ≤ now)) = true := by
  unfold expire at h
  rw [hready] at h
  by_contra hdue
  simp [hdue] at h

theorem expire_eq_some {now : ℕ} {b' : State Q M} (h : b.expire T now q = some b') :
    ∃ x rest, b.ready q = x :: rest ∧ b' = (b.setReady q rest).bury T q x.message := by
  unfold expire at h
  split at h
  · simp at h
  · rename_i x rest hready
    split at h
    · cases h
      exact ⟨x, rest, hready, rfl⟩
    · simp at h

/-! ## Weighing the messages of a queue -/

/-- The weights of the messages waiting in a queue. -/
def weigh (f : M → ℕ) (q : Q) (b : State Q M) : ℕ := ((b.ready q).map (fun x => f x.message)).sum

section Weigh

variable {f : M → ℕ}

omit [DecidableEq Q] in
@[simp] theorem weigh_empty : (empty : State Q M).weigh f q = 0 := rfl

omit [DecidableEq Q] in
@[simp] theorem weigh_ack (tag : ℕ) : (b.ack tag).weigh f q = b.weigh f q := rfl

omit [DecidableEq Q] in
theorem count_eq_weigh (p : M → Bool) (q : Q) (b : State Q M) :
    b.count p q = b.weigh (fun m => if p m then 1 else 0) q := by
  unfold count weigh
  induction b.ready q with
  | nil => rfl
  | cons x xs ih => rw [List.countP_cons, List.map_cons, List.sum_cons, ih, Nat.add_comm]

theorem weigh_publish (x : X) (k : K) (m : M) (e : Option ℕ) :
    (b.publish T x k m e).weigh f q = b.weigh f q + if q ∈ T.route x k then f m else 0 := by
  simp only [weigh, publish]
  by_cases hq : q ∈ T.route x k
  · simp [hq]
  · simp [hq]

theorem weigh_setReady (q' : Q) (ms : List (Queued M)) :
    (b.setReady q' ms).weigh f q =
      if q = q' then (ms.map (fun x => f x.message)).sum else b.weigh f q := by
  simp only [weigh, setReady]
  by_cases hq : q = q'
  · simp [hq]
  · simp [hq]

theorem weigh_deliver {prefetch tag consumer : ℕ} {m : M} {b' : State Q M} (q' : Q)
    (h : b.deliver prefetch tag consumer q = some (m, b')) :
    b'.weigh f q' + (if q' = q then f m else 0) = b.weigh f q' := by
  obtain ⟨x, rest, hready, rfl, rfl⟩ := deliver_eq_some h
  have hweigh := weigh_setReady (f := f) (b := b) (q := q') q rest
  simp only [weigh] at hweigh ⊢
  rw [hweigh]
  by_cases hq : q' = q
  · subst hq
    simp [hready, Nat.add_comm]
  · simp [hq]

/-- An expired message leaves its queue for where the queue dead-letters. -/
theorem weigh_expire {now : ℕ} {b' : State Q M} {x : X} {k : K}
    (hdead : T.deadLetter q = some (x, k)) (h : b.expire T now q = some b') :
    ∃ y ∈ b.ready q, ∀ (f : M → ℕ) (q' : Q), b'.weigh f q' + (if q' = q then f y.message else 0) =
      b.weigh f q' + if q' ∈ T.route x k then f y.message else 0 := by
  obtain ⟨y, rest, hready, rfl⟩ := expire_eq_some h
  refine ⟨y, by simp [hready], ?_⟩
  intro f q'
  have hbury : ((b.setReady q rest).bury T q y.message) =
      (b.setReady q rest).publish T x k y.message none := by simp [bury, hdead]
  rw [hbury, weigh_publish, weigh_setReady]
  by_cases hq : q' = q
  · subst hq
    simp only [if_true, weigh, hready, List.map_cons, List.sum_cons]
    omega
  · simp [hq]

/-- What is handed back stands in its queue again. -/
theorem weigh_requeue {tag : ℕ} {d : Delivery Q M}
    (h : b.unacked.find? (fun d => decide (d.tag = tag)) = some d) (f : M → ℕ) (q' : Q) :
    (b.requeue tag).weigh f q' = b.weigh f q' + if q' = d.queue then f d.message else 0 := by
  simp only [requeue, h]
  rw [weigh_setReady]
  by_cases hq : q' = d.queue
  · subst hq
    simp [weigh, Nat.add_comm]
  · simp [hq]

omit [DecidableEq X] [DecidableEq K] in
theorem requeue_of_none {tag : ℕ}
    (h : b.unacked.find? (fun d => decide (d.tag = tag)) = none) : b.requeue tag = b := by
  simp [requeue, h]

end Weigh

/-! ## What holds of every message -/

/-- Every message at rest or handed to a consumer satisfies `P` of its queue. -/
structure Every (P : Q → M → Prop) (b : State Q M) : Prop where
  ready : ∀ q, ∀ x ∈ b.ready q, P q x.message
  unacked : ∀ d ∈ b.unacked, P d.queue d.message

section Every

variable {P : Q → M → Prop}

omit [DecidableEq Q] in
theorem every_empty : (empty : State Q M).Every P where
  ready := by
    intro q x hx
    cases hx
  unacked := by
    intro d hd
    cases hd

theorem Every.publish (h : b.Every P) {x : X} {k : K} {m : M} (e : Option ℕ)
    (hm : ∀ q ∈ T.route x k, P q m) : (b.publish T x k m e).Every P where
  ready := by
    intro q y hy
    simp only [State.publish] at hy
    split at hy
    · rename_i hq
      rcases List.mem_append.mp hy with hy | hy
      · exact h.ready q y hy
      · obtain rfl := List.mem_singleton.mp hy
        exact hm q hq
    · exact h.ready q y hy
  unacked := h.unacked

omit [DecidableEq Q] in
theorem Every.ack (h : b.Every P) (tag : ℕ) : (b.ack tag).Every P where
  ready := h.ready
  unacked := fun d hd => h.unacked d (List.mem_filter.mp hd).1

theorem Every.setReady (h : b.Every P) {ms : List (Queued M)} (hms : ∀ x ∈ ms, P q x.message) :
    (b.setReady q ms).Every P where
  ready := by
    intro q' y hy
    simp only [State.setReady] at hy
    by_cases hq : q' = q
    · subst hq
      rw [Function.update_self] at hy
      exact hms y hy
    · rw [Function.update_of_ne hq] at hy
      exact h.ready q' y hy
  unacked := h.unacked

theorem Every.deliver (h : b.Every P) {prefetch tag consumer : ℕ} {m : M} {b' : State Q M}
    (hb : b.deliver prefetch tag consumer q = some (m, b')) : b'.Every P ∧ P q m := by
  obtain ⟨x, rest, hready, rfl, rfl⟩ := deliver_eq_some hb
  have hx : P q x.message := h.ready q x (by simp [hready])
  have hrest : (b.setReady q rest).Every P :=
    h.setReady (fun y hy => h.ready q y (by simp [hready, hy]))
  refine ⟨⟨hrest.ready, ?_⟩, hx⟩
  intro d hd
  rcases List.mem_append.mp hd with hd | hd
  · exact h.unacked d hd
  · obtain rfl := List.mem_singleton.mp hd
    exact hx

/-- Where a message goes that is rejected or expires. -/
theorem Every.bury (h : b.Every P) {m : M}
    (hm : ∀ x k, T.deadLetter q = some (x, k) → ∀ q' ∈ T.route x k, P q' m) :
    (b.bury T q m).Every P := by
  unfold State.bury
  split
  · exact h
  · rename_i x k hdead
    exact h.publish none (hm x k hdead)

theorem Every.nack (h : b.Every P) (tag : ℕ)
    (hm : ∀ d ∈ b.unacked, ∀ x k, T.deadLetter d.queue = some (x, k) →
      ∀ q' ∈ T.route x k, P q' d.message) : (b.nack T tag).Every P := by
  unfold State.nack
  split
  · exact h
  · rename_i d hd
    exact (h.ack tag).bury (hm d (List.mem_of_find?_eq_some hd))

theorem Every.requeue (h : b.Every P) (tag : ℕ) : (b.requeue tag).Every P := by
  unfold State.requeue
  split
  · exact h
  · rename_i d hd
    refine (h.ack tag).setReady ?_
    intro x hx
    rcases List.mem_cons.mp hx with rfl | hx
    · exact h.unacked d (List.mem_of_find?_eq_some hd)
    · exact h.ready d.queue x hx

theorem Every.expire (h : b.Every P) {now : ℕ} {b' : State Q M} (hb : b.expire T now q = some b')
    (hm : ∀ m, P q m → ∀ x k, T.deadLetter q = some (x, k) → ∀ q' ∈ T.route x k, P q' m) :
    b'.Every P := by
  obtain ⟨x, rest, hready, rfl⟩ := expire_eq_some hb
  refine (h.setReady ?_).bury (hm x.message (h.ready q x (by simp [hready])))
  exact fun y hy => h.ready q y (by simp [hready, hy])

end Every

end State

end

end Broker
