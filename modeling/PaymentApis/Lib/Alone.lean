import PaymentApis.Lib.Window

/-!
# One process by itself

What a program does while no other process moves: `Client.alone` evaluates it,
given what happens to each of its steps, and `Client.alone_runs` says that the
system takes exactly these steps.
-/

namespace TxStore

variable {Row Loc : Type} [DecidableEq Loc] {key : Row → Loc} {S : Type} {R : S → Type}
  {Fault ε τ X J α β : Type}

/-! ## The last process -/

section Last

variable {E : Engine Row Loc key S R Fault ε X} {program : J → Client S R ε τ X α}
  {s : Sys Row Loc key S R Fault ε τ X α} {n n' : Node Row Loc S R Fault ε τ X α}

/-- The state with one more process. -/
def Sys.join (s : Sys Row Loc key S R Fault ε τ X α) (n : Node Row Loc S R Fault ε τ X α) :
    Sys Row Loc key S R Fault ε τ X α := { s with nodes := s.nodes ++ [n] }

/-- The steps of a process inside one transaction, with nobody's locks in its way. -/
def Node.steps (E : Engine Row Loc key S R Fault ε X) (now : ℕ) (db : Table Row Loc key) :
    List ℕ → Node Row Loc S R Fault ε τ X α → Option (Node Row Loc S R Fault ε τ X α)
  | [], n => some n
  | u :: us, n =>
    match n.step E ⟨now, u⟩ (fun _ => false) db with
    | some (n', none) => n'.steps E now db us
    | _ => none

theorem Node.steps_opens {now u : ℕ} {us : List ℕ} {db : Table Row Loc key}
    {log : List (Ev S R Fault ε X)} {t : τ} {body : Body S R ε β}
    {k : Except ε β → Client S R ε τ X α} :
    Node.steps E now db (u :: us) ⟨log, .run (.txn t body k)⟩ =
      Node.steps E now db us ⟨log, .inTx t .begin body k⟩ := rfl

theorem Node.steps_stmt {now u : ℕ} {us : List ℕ} {db : Table Row Loc key}
    {log : List (Ev S R Fault ε X)} {t : τ} {p : Priv Row Loc S R Fault ε X} {q : S} {r : R q}
    {ws : List Row} {k' : R q → Body S R ε β} {k : Except ε β → Client S R ε τ X α}
    (hout : (E.exec q ⟨now, u⟩ (fun _ => false) (p.view db)).out = .ok (r, ws)) :
    Node.steps E now db (u :: us) ⟨log, .inTx t p (.stmt q k') k⟩ =
      Node.steps E now db us ⟨log, .inTx t (p.add q r
        ((E.exec q ⟨now, u⟩ (fun _ => false) (p.view db)).locked key) ws) (k' r) k⟩ := by
  simp [Node.steps, Node.step, hout]

theorem Sys.busy_join (h : ∀ m ∈ s.nodes, m.locks = []) :
    (s.join n).busy s.nodes.length = fun _ => false := by
  funext l
  rw [Sys.busy_eq_false]
  intro j m hj hm
  have hold : m ∈ s.nodes := by
    rw [Sys.join, List.getElem?_append] at hm
    split at hm
    · exact List.mem_of_getElem? hm
    · rw [List.getElem?_singleton] at hm
      split at hm
      · omega
      · cases hm
  simp [h m hold]

/-- The last process takes a step. -/
theorem Sys.step_join (h : ∀ m ∈ s.nodes, m.locks = []) {u : ℕ}
    {c : Option (Item S R Fault ε τ X × List Row)}
    (hstep : n.step E ⟨s.now, u⟩ (fun _ => false) s.db = some (n', c)) :
    (s.join n).step E program (.run s.nodes.length u) =
      some ((s.join n).advance s.nodes.length n' c) := by
  have hget : (s.join n).nodes[s.nodes.length]? = some n := by simp [Sys.join]
  have hstep' : n.step E ⟨(s.join n).now, u⟩ ((s.join n).busy s.nodes.length) (s.join n).db =
      some (n', c) := by
    rw [Sys.busy_join h]
    exact hstep
  simp only [Sys.step, hget, hstep', Option.map_some]

/-- The last process runs through its transaction. -/
theorem Sys.run_join (h : ∀ m ∈ s.nodes, m.locks = []) : ∀ {us : List ℕ}
    {n n' : Node Row Loc S R Fault ε τ X α}, n.steps E s.now s.db us = some n' →
    (s.join n).run E program (us.map (.run s.nodes.length)) = some (s.join n')
  | [], n, n', hsteps => by
      simp only [Node.steps, Option.some.injEq] at hsteps
      rw [hsteps]
      rfl
  | u :: us, n, n', hsteps => by
      simp only [Node.steps] at hsteps
      split at hsteps
      · rename_i n₁ hstep
        have hadvance : (s.join n).advance s.nodes.length n₁ none = s.join n₁ := by
          simp [Sys.advance, Sys.join]
        rw [List.map_cons, Sys.run, Sys.step_join h hstep, Option.bind_some, hadvance]
        exact Sys.run_join h hsteps
      · cases hsteps

theorem Sys.run_append (ls ls' : List (Label Fault J)) (s : Sys Row Loc key S R Fault ε τ X α) :
    s.run E program (ls ++ ls') = (s.run E program ls).bind (fun s' => s'.run E program ls') := by
  induction ls generalizing s with
  | nil => rfl
  | cons l ls ih =>
    rw [List.cons_append, Sys.run, Sys.run, Option.bind_assoc]
    congr 1
    funext s'
    exact ih s'

end Last

/-! ## The evaluation -/

/-- How a transaction ends. -/
inductive TxEnd (Row Loc S : Type) (R : S → Type) (Fault ε X β : Type)
  | fails (f : Fault)
  | throws (e : ε)
  | commits (b : β) (p : Priv Row Loc S R Fault ε X)

/-- Where a program has come: the number of its next step, the committed rows, what it
has observed, and its result. -/
structure Ended (Row Loc : Type) (key : Row → Loc) (S : Type) (R : S → Type)
    (Fault ε X α : Type) where
  next : ℕ
  db : Table Row Loc key
  log : List (Ev S R Fault ε X)
  result : Except ε α

def Ended.after (evs : List (Ev S R Fault ε X)) (o : Ended Row Loc key S R Fault ε X α) :
    Ended Row Loc key S R Fault ε X α := { o with log := evs ++ o.log }

/-- No statement fails, and the identifiers are drawn in order. -/
def drawing (ids : ℕ → ℕ) (k : ℕ) : Except Fault ℕ := .ok (ids k)

theorem drawing_ok (ids : ℕ → ℕ) (k : ℕ) : (drawing ids k : Except Fault ℕ) = .ok (ids k) := rfl

section Alone

variable (E : Engine Row Loc key S R Fault ε X) (now : ℕ) (fate : ℕ → Except Fault ℕ)

/-- A statement with nobody's locks in its way; `fate` says of each step whether it
fails by itself, or else the value of an identifier generated in it. -/
def Engine.attempt (s : S) (i : ℕ) (db : Table Row Loc key) : Except Fault (R s × List Row) :=
  match fate i with
  | .error f => .error f
  | .ok u => (E.exec s ⟨now, u⟩ (fun _ => false) db).out

variable {E now fate} in
omit [DecidableEq Loc] in
theorem Engine.attempt_error {s : S} {i : ℕ} {db : Table Row Loc key} {f : Fault}
    (h : fate i = .error f) : E.attempt now fate s i db = .error f := by
  rw [Engine.attempt, h]

variable {E now fate} in
omit [DecidableEq Loc] in
theorem Engine.attempt_ok {s : S} {i u : ℕ} {db : Table Row Loc key} (h : fate i = .ok u) :
    E.attempt now fate s i db = (E.exec s ⟨now, u⟩ (fun _ => false) db).out := by
  rw [Engine.attempt, h]

/-- The locks of a statement that has been executed. -/
def Engine.takes (s : S) (i : ℕ) (db : Table Row Loc key) : List Loc :=
  match fate i with
  | .error _ => []
  | .ok u => (E.exec s ⟨now, u⟩ (fun _ => false) db).locked key

def Body.alone (db : Table Row Loc key) : Body S R ε β → ℕ → Priv Row Loc S R Fault ε X →
    ℕ × TxEnd Row Loc S R Fault ε X β
  | .ret b, i, p =>
    match fate i with
    | .error f => (i + 1, .fails f)
    | .ok _ => (i + 1, .commits b p)
  | .throw e, i, _ =>
    match fate i with
    | .error f => (i + 1, .fails f)
    | .ok _ => (i + 1, .throws e)
  | .stmt s k, i, p =>
    match E.attempt now fate s i (p.view db) with
    | .error f => (i + 1, .fails f)
    | .ok (r, ws) => (k r).alone db (i + 1) (p.add s r (E.takes now fate s i (p.view db)) ws)

def Client.alone : Client S R ε τ X α → ℕ → Table Row Loc key →
    Ended Row Loc key S R Fault ε X α
  | .ret a, i, db => ⟨i, db, [], .ok a⟩
  | .throw e, i, db => ⟨i, db, [], .error e⟩
  | .query s k, i, db =>
    match E.attempt now fate s i db with
    | .error f => ((k (.error (E.raise f))).alone (i + 1) db).after [.fault f]
    | .ok (r, ws) => ((k (.ok r)).alone (i + 1) (db.install ws)).after [.stmt s r]
  | .txn _ body k, i, db =>
    match fate i with
    | .error f => ((k (.error (E.raise f))).alone (i + 1) db).after [.fault f]
    | .ok _ =>
      match body.alone E now fate db (i + 1) .begin with
      | (j, .fails f) => ((k (.error (E.raise f))).alone j db).after [.fault f]
      | (j, .throws e) => (k (.error e)).alone j db
      | (j, .commits b p) => ((k (.ok b)).alone j (db.install p.writes)).after p.events
  | .call x k, i, db => ((k (E.answer x)).alone (i + 1) db).after [.call x (E.answer x)]

/-! ## Its laws -/

section Laws

variable {E : Engine Row Loc key S R Fault ε X} {now : ℕ} {fate : ℕ → Except Fault ℕ}

/-- What comes next, when the program has returned. -/
def Ended.bind (o : Ended Row Loc key S R Fault ε X α)
    (g : α → ℕ → Table Row Loc key → Ended Row Loc key S R Fault ε X β) :
    Ended Row Loc key S R Fault ε X β :=
  match o.result with
  | .ok a => (g a o.next o.db).after o.log
  | .error e => ⟨o.next, o.db, o.log, .error e⟩

/-- What comes next, when it has thrown. -/
def Ended.tryCatch (o : Ended Row Loc key S R Fault ε X α)
    (g : ε → ℕ → Table Row Loc key → Ended Row Loc key S R Fault ε X α) :
    Ended Row Loc key S R Fault ε X α :=
  match o.result with
  | .ok _ => o
  | .error e => (g e o.next o.db).after o.log

omit [DecidableEq Loc] in
@[simp] theorem Ended.after_nil (o : Ended Row Loc key S R Fault ε X α) : o.after [] = o := rfl

omit [DecidableEq Loc] in
@[simp] theorem Ended.after_after (evs evs' : List (Ev S R Fault ε X))
    (o : Ended Row Loc key S R Fault ε X α) :
    (o.after evs').after evs = o.after (evs ++ evs') := by
  simp [Ended.after]

omit [DecidableEq Loc] in
theorem Ended.bind_after (evs : List (Ev S R Fault ε X)) (o : Ended Row Loc key S R Fault ε X α)
    (g : α → ℕ → Table Row Loc key → Ended Row Loc key S R Fault ε X β) :
    (o.after evs).bind g = (o.bind g).after evs := by
  obtain ⟨i, db, log, result⟩ := o
  cases result with
  | ok a => exact (Ended.after_after ..).symm
  | error e => rfl

omit [DecidableEq Loc] in
theorem Ended.tryCatch_after (evs : List (Ev S R Fault ε X))
    (o : Ended Row Loc key S R Fault ε X α)
    (g : ε → ℕ → Table Row Loc key → Ended Row Loc key S R Fault ε X α) :
    (o.after evs).tryCatch g = (o.tryCatch g).after evs := by
  obtain ⟨i, db, log, result⟩ := o
  cases result with
  | ok a => rfl
  | error e => exact (Ended.after_after ..).symm

omit [DecidableEq Loc] in
/-- A sequence throws what its first part throws, or else its second. -/
theorem Ended.bind_error {o : Ended Row Loc key S R Fault ε X α}
    {g : α → ℕ → Table Row Loc key → Ended Row Loc key S R Fault ε X β} {e : ε} :
    (o.bind g).result = .error e ↔
      o.result = .error e ∨ ∃ a, o.result = .ok a ∧ (g a o.next o.db).result = .error e := by
  obtain ⟨i, db, log, e' | a⟩ := o
  · simp [Ended.bind]
  · simp [Ended.bind, Ended.after]

omit [DecidableEq Loc] in
/-- What is caught is not thrown, except by the handler. -/
theorem Ended.tryCatch_error {o : Ended Row Loc key S R Fault ε X α}
    {g : ε → ℕ → Table Row Loc key → Ended Row Loc key S R Fault ε X α} {e : ε} :
    (o.tryCatch g).result = .error e ↔
      ∃ err, o.result = .error err ∧ (g err o.next o.db).result = .error e := by
  obtain ⟨i, db, log, e' | a⟩ := o
  · simp [Ended.tryCatch, Ended.after]
  · simp [Ended.tryCatch]

theorem Client.alone_exec {s : S} {i : ℕ} {db : Table Row Loc key} {r : R s} {ws : List Row}
    (h : E.attempt now fate s i db = .ok (r, ws)) :
    (Client.exec s : Client S R ε τ X (R s)).alone E now fate i db =
      ⟨i + 1, db.install ws, [.stmt s r], .ok r⟩ := by
  rw [Client.exec, Client.alone, h]
  rfl

/-- A statement of a transaction that nothing stands in the way of. -/
theorem Body.alone_stmt {q : S} {k : R q → Body S R ε β} {i u : ℕ} {db : Table Row Loc key}
    {p : Priv Row Loc S R Fault ε X} {r : R q} {ws : List Row} (hfate : fate i = .ok u)
    (hout : (E.exec q ⟨now, u⟩ (fun _ => false) (p.view db)).out = .ok (r, ws)) :
    (Body.stmt q k).alone E now fate db i p =
      (k r).alone E now fate db (i + 1) (p.add q r (E.takes now fate q i (p.view db)) ws) := by
  rw [Body.alone, Engine.attempt_ok hfate, hout]

theorem Client.alone_transaction {t : τ} {body : Body S R ε α} {i u j : ℕ}
    {db : Table Row Loc key} {a : α} {p : Priv Row Loc S R Fault ε X} (hfate : fate i = .ok u)
    (hbody : body.alone E now fate db (i + 1) .begin = (j, .commits a p)) :
    (Client.transaction t body : Client S R ε τ X α).alone E now fate i db =
      ⟨j, db.install p.writes, p.events, .ok a⟩ := by
  rw [Client.transaction, Client.alone, hfate]
  simp only [hbody, Ended.after, Client.ofExcept, Client.alone, List.append_nil]

theorem Client.alone_external {x : X} {i : ℕ} {db : Table Row Loc key} :
    (Client.external x : Client S R ε τ X Unit).alone E now fate i db =
      ⟨i + 1, db, [.call x (E.answer x)], E.answer x⟩ := by
  rw [Client.external, Client.alone]
  cases E.answer x <;> rfl

/-! A transaction that commits has gone through all of its statements. -/

/-- From here, the transaction comes to its COMMIT, and commits. -/
def Body.Commits (E : Engine Row Loc key S R Fault ε X) (now : ℕ) (fate : ℕ → Except Fault ℕ)
    (db : Table Row Loc key) (body : Body S R ε β) (i : ℕ) (p : Priv Row Loc S R Fault ε X) :
    Prop :=
  ∃ j b q, body.alone E now fate db i p = (j, .commits b q)

theorem Body.commits_ret {b : β} {i : ℕ} {db : Table Row Loc key}
    {p : Priv Row Loc S R Fault ε X} :
    (Body.ret b : Body S R ε β).Commits E now fate db i p ↔ ∃ u, fate i = .ok u := by
  constructor
  · rintro ⟨j, b', q, h⟩
    cases hfate : fate i with
    | error f =>
      rw [Body.alone, hfate] at h
      cases h
    | ok u => exact ⟨u, rfl⟩
  · rintro ⟨u, hfate⟩
    exact ⟨i + 1, b, p, by rw [Body.alone, hfate]⟩

/-- A statement that fails does not let its transaction commit. -/
theorem Body.not_commits_stmt {q : S} {k : R q → Body S R ε β} {i : ℕ} {db : Table Row Loc key}
    {p : Priv Row Loc S R Fault ε X} {f : Fault}
    (hfails : E.attempt now fate q i (p.view db) = .error f) :
    ¬ (Body.stmt q k).Commits E now fate db i p := by
  rintro ⟨j, b, p', h⟩
  rw [Body.alone, hfails] at h
  cases h

/-- A statement that fails only when it is made to. -/
theorem Body.commits_stmt {q : S} {k : R q → Body S R ε β} {i : ℕ} {db : Table Row Loc key}
    {p : Priv Row Loc S R Fault ε X} {r : R q} {ws : List Row}
    (hout : ∀ u, fate i = .ok u →
      (E.exec q ⟨now, u⟩ (fun _ => false) (p.view db)).out = .ok (r, ws)) :
    (Body.stmt q k).Commits E now fate db i p ↔ (∃ u, fate i = .ok u) ∧
      (k r).Commits E now fate db (i + 1) (p.add q r (E.takes now fate q i (p.view db)) ws) := by
  cases hfate : fate i with
  | error f =>
    refine iff_of_false (Body.not_commits_stmt (Engine.attempt_error hfate)) ?_
    rintro ⟨⟨u, hu⟩, -⟩
    cases hu
  | ok u =>
    rw [Body.Commits, Body.alone_stmt hfate (hout u hfate)]
    exact (and_iff_right ⟨u, rfl⟩).symm

theorem Client.exec_error {s : S} {i : ℕ} {db : Table Row Loc key} :
    (∃ e, ((Client.exec s : Client S R ε τ X (R s)).alone E now fate i db).result = .error e) ↔
      ∃ f, E.attempt now fate s i db = .error f := by
  cases hout : E.attempt now fate s i db with
  | error f =>
    refine iff_of_true ⟨E.raise f, ?_⟩ ⟨f, rfl⟩
    rw [Client.exec, Client.alone, hout]
    rfl
  | ok c =>
    rw [Client.alone_exec hout]
    constructor
    · rintro ⟨e, he⟩
      cases he
    · rintro ⟨f, hf⟩
      cases hf

theorem Client.transaction_error {t : τ} {body : Body S R ε α} {i : ℕ} {db : Table Row Loc key} :
    (∃ e, ((Client.transaction t body : Client S R ε τ X α).alone E now fate i db).result =
      .error e) ↔ ¬ ((∃ u, fate i = .ok u) ∧ body.Commits E now fate db (i + 1) .begin) := by
  constructor
  · rintro ⟨e, he⟩ ⟨⟨u, hfate⟩, j, b, q, hbody⟩
    rw [Client.alone_transaction hfate hbody] at he
    cases he
  · intro hnot
    rw [Client.transaction, Client.alone]
    cases hfate : fate i with
    | error f => exact ⟨E.raise f, rfl⟩
    | ok u =>
      cases hbody : body.alone E now fate db (i + 1) .begin with
      | mk j o =>
        cases o with
        | fails f => exact ⟨E.raise f, rfl⟩
        | throws e => exact ⟨e, rfl⟩
        | commits b q => exact absurd ⟨⟨u, hfate⟩, j, b, q, hbody⟩ hnot

/-- What it has not committed, a failed transaction leaves as it was. -/
theorem Client.transaction_error_db {t : τ} {body : Body S R ε α} {i : ℕ}
    {db : Table Row Loc key} {e : ε}
    (h : ((Client.transaction t body : Client S R ε τ X α).alone E now fate i db).result =
      .error e) : ((Client.transaction t body : Client S R ε τ X α).alone E now fate i db).db =
        db := by
  rw [Client.transaction, Client.alone] at h ⊢
  cases hfate : fate i with
  | error f => rfl
  | ok u =>
    simp only [hfate] at h ⊢
    generalize body.alone E now fate db (i + 1) .begin = o at h ⊢
    rcases o with ⟨j, f | e' | ⟨b, q⟩⟩
    · rfl
    · rfl
    · cases h

theorem Client.alone_bind (f : α → Client S R ε τ X β) :
    ∀ (c : Client S R ε τ X α) (i : ℕ) (db : Table Row Loc key), (c >>= f).alone E now fate i db =
      (c.alone E now fate i db).bind (fun a => (f a).alone E now fate)
  | .ret _, _, _ => rfl
  | .throw _, _, _ => rfl
  | .query s k, i, db => by
      show (Client.query s fun r => k r >>= f).alone E now fate i db = _
      rw [Client.alone, Client.alone]
      split
      · rw [Client.alone_bind f (k _), Ended.bind_after]
      · rw [Client.alone_bind f (k _), Ended.bind_after]
  | .txn t body k, i, db => by
      show (Client.txn t body fun r => k r >>= f).alone E now fate i db = _
      rw [Client.alone, Client.alone]
      split
      · rw [Client.alone_bind f (k _), Ended.bind_after]
      · split
        · rw [Client.alone_bind f (k _), Ended.bind_after]
        · exact Client.alone_bind f (k _) _ _
        · rw [Client.alone_bind f (k _), Ended.bind_after]
  | .call x k, i, db => by
      show (Client.call x fun r => k r >>= f).alone E now fate i db = _
      rw [Client.alone, Client.alone, Client.alone_bind f (k _), Ended.bind_after]

theorem Client.alone_tryCatch (g : ε → Client S R ε τ X α) :
    ∀ (c : Client S R ε τ X α) (i : ℕ) (db : Table Row Loc key),
      (c.tryCatch g).alone E now fate i db =
        (c.alone E now fate i db).tryCatch (fun e => (g e).alone E now fate)
  | .ret _, _, _ => rfl
  | .throw _, _, _ => rfl
  | .query s k, i, db => by
      rw [Client.tryCatch, Client.alone, Client.alone]
      split
      · rw [Client.alone_tryCatch g (k _), Ended.tryCatch_after]
      · rw [Client.alone_tryCatch g (k _), Ended.tryCatch_after]
  | .txn t body k, i, db => by
      rw [Client.tryCatch, Client.alone, Client.alone]
      split
      · rw [Client.alone_tryCatch g (k _), Ended.tryCatch_after]
      · split
        · rw [Client.alone_tryCatch g (k _), Ended.tryCatch_after]
        · exact Client.alone_tryCatch g (k _) _ _
        · rw [Client.alone_tryCatch g (k _), Ended.tryCatch_after]
  | .call x k, i, db => by
      rw [Client.tryCatch, Client.alone, Client.alone, Client.alone_tryCatch g (k _),
        Ended.tryCatch_after]

end Laws

end Alone

/-! ## What the system does -/

section Runs

variable {E : Engine Row Loc key S R Fault ε X} {program : J → Client S R ε τ X α}
  {s : Sys Row Loc key S R Fault ε τ X α} {n n' n'' : Node Row Loc S R Fault ε τ X α}
  {db db' db'' : Table Row Loc key} {fate : ℕ → Except Fault ℕ} {i i' i'' : ℕ}

/-- Steps of process `p` from step `i` on, as `fate` has them. -/
def Follows (p : ℕ) (fate : ℕ → Except Fault ℕ) (i : ℕ) (ls : List (Label Fault J)) : Prop :=
  ∀ k l, ls[k]? = some l → l.mover = some p ∧ ∀ u, fate (i + k) = .ok u → l = .run p u

omit [DecidableEq Loc] in
theorem Follows.one {p i : ℕ} {l : Label Fault J} (hmover : l.mover = some p)
    (hrun : ∀ u, fate i = .ok u → l = .run p u) : Follows p fate i [l] := by
  intro k l' hl
  rw [List.getElem?_singleton] at hl
  split at hl
  · rename_i hk
    obtain rfl : l = l' := Option.some.inj hl
    rw [hk, Nat.add_zero]
    exact ⟨hmover, hrun⟩
  · cases hl

omit [DecidableEq Loc] in
theorem Follows.append {p i : ℕ} {ls ls' : List (Label Fault J)} (h : Follows p fate i ls)
    (h' : Follows p fate (i + ls.length) ls') : Follows p fate i (ls ++ ls') := by
  intro k l hl
  rw [List.getElem?_append] at hl
  split at hl
  · exact h k l hl
  · rename_i hk
    have hrest := h' _ l hl
    rw [show i + ls.length + (k - ls.length) = i + k by omega] at hrest
    exact hrest

omit [DecidableEq Loc] in
/-- Where nothing fails, the steps are those that draw the identifiers in order. -/
theorem Follows.eq_map {p : ℕ} {ids : ℕ → ℕ} {ls : List (Label Fault J)}
    (h : Follows p (drawing ids) 0 ls) :
    ls = (List.range ls.length).map (fun k => .run p (ids k)) := by
  apply List.ext_getElem?
  intro k
  cases hl : ls[k]? with
  | none =>
    have hk := List.getElem?_eq_none_iff.mp hl
    rw [List.getElem?_eq_none]
    rw [List.length_map, List.length_range]
    exact hk
  | some l =>
    have hk : k < ls.length := (List.getElem?_eq_some_iff.mp hl).1
    rw [(h k l hl).2 (ids k) (by rw [Nat.zero_add, drawing]), List.getElem?_map,
      List.getElem?_range hk]
    rfl

/-- Beside the processes of `s`, the last one goes from `n` to `n'` by its steps from
`i` to `i'`, and the rows from `db` to `db'`. -/
def Sys.Comes (E : Engine Row Loc key S R Fault ε X) (program : J → Client S R ε τ X α)
    (s : Sys Row Loc key S R Fault ε τ X α) (fate : ℕ → Except Fault ℕ) (i : ℕ)
    (db : Table Row Loc key) (n : Node Row Loc S R Fault ε τ X α) (i' : ℕ) (db' : Table Row Loc key)
    (n' : Node Row Loc S R Fault ε τ X α) : Prop :=
  ∀ hist, ∃ (ls : List (Label Fault J)) (hist' : List (ℕ × Item S R Fault ε τ X)),
    Follows s.nodes.length fate i ls ∧ i' = i + ls.length ∧
    (⟨db, s.now, s.nodes ++ [n], hist⟩ : Sys Row Loc key S R Fault ε τ X α).run E program ls =
      some ⟨db', s.now, s.nodes ++ [n'], hist'⟩

theorem Sys.Comes.refl : s.Comes E program fate i db n i db n :=
  fun hist => ⟨[], hist, fun _ _ h => by simp at h, rfl, rfl⟩

theorem Sys.Comes.trans (h : s.Comes E program fate i db n i' db' n')
    (h' : s.Comes E program fate i' db' n' i'' db'' n'') :
    s.Comes E program fate i db n i'' db'' n'' := by
  intro hist
  obtain ⟨ls, hist₁, hown, hlen, hrun⟩ := h hist
  obtain ⟨ls', hist₂, hown', hlen', hrun'⟩ := h' hist₁
  subst hlen
  refine ⟨ls ++ ls', hist₂, hown.append hown', ?_, ?_⟩
  · rw [hlen', List.length_append, Nat.add_assoc]
  · rw [Sys.run_append, hrun, Option.bind_some, hrun']

theorem Sys.Comes.step (h : ∀ m ∈ s.nodes, m.locks = []) {u : ℕ} (hu : ∀ u', fate i = .ok u' → u' = u)
    {c : Option (Item S R Fault ε τ X × List Row)}
    (hstep : n.step E ⟨s.now, u⟩ (fun _ => false) db = some (n', c)) :
    s.Comes E program fate i db n (i + 1) (c.elim db fun o => db.install o.2) n' := by
  intro hist
  let s₁ : Sys Row Loc key S R Fault ε τ X α := { s with db := db, history := hist }
  have hjoin : (s₁.join n).step E program (.run s.nodes.length u) =
      some ((s₁.join n).advance s.nodes.length n' c) := Sys.step_join (s := s₁) h hstep
  refine ⟨[.run s.nodes.length u], ((s₁.join n).advance s.nodes.length n' c).history,
    .one rfl (fun u' h' => by rw [hu u' h']), rfl, ?_⟩
  show (s₁.join n).run E program _ = _
  rw [Sys.run, hjoin, Option.bind_some, Sys.run]
  cases c <;> simp [Sys.advance, Sys.join, s₁]

theorem Sys.Comes.quiet (h : ∀ m ∈ s.nodes, m.locks = []) {u : ℕ}
    (hu : ∀ u', fate i = .ok u' → u' = u)
    (hstep : n.step E ⟨s.now, u⟩ (fun _ => false) db = some (n', none)) :
    s.Comes E program fate i db n (i + 1) db n' := .step h hu hstep

theorem Sys.Comes.commit (h : ∀ m ∈ s.nodes, m.locks = []) {u : ℕ}
    (hu : ∀ u', fate i = .ok u' → u' = u) {it : Item S R Fault ε τ X}
    {ws : List Row} (hstep : n.step E ⟨s.now, u⟩ (fun _ => false) db = some (n', some (it, ws))) :
    s.Comes E program fate i db n (i + 1) (db.install ws) n' := .step h hu hstep

theorem Sys.Comes.fail {f : Fault} (hf : fate i = .error f) (hfail : n.fail E f = some n') :
    s.Comes E program fate i db n (i + 1) db n' := by
  intro hist
  refine ⟨[.fault s.nodes.length f], hist, .one rfl ?_, rfl, ?_⟩
  · intro u hu
    rw [hf] at hu
    cases hu
  · simp [Sys.run, Sys.step, hfail, Sys.advance]

omit [DecidableEq Loc] in
/-- Where a process stands when its transaction has ended. -/
def TxEnd.node (E : Engine Row Loc key S R Fault ε X) (log : List (Ev S R Fault ε X))
    (k : Except ε β → Client S R ε τ X α) :
    TxEnd Row Loc S R Fault ε X β → Node Row Loc S R Fault ε τ X α
  | .fails f => ⟨log ++ [.fault f], .run (k (.error (E.raise f)))⟩
  | .throws e => ⟨log, .run (k (.error e))⟩
  | .commits b p => ⟨log ++ p.events, .run (k (.ok b))⟩

def TxEnd.rows (db : Table Row Loc key) : TxEnd Row Loc S R Fault ε X β → Table Row Loc key
  | .commits _ p => db.install p.writes
  | _ => db

omit [DecidableEq Loc] in
theorem eq_of_ok {u u' : ℕ} (h : fate i = .ok u) (h' : fate i = .ok u') : u' = u := by
  rw [h] at h'
  exact (Except.ok.inj h').symm

/-- The system does what the evaluation of a body says. -/
theorem Body.alone_runs (h : ∀ m ∈ s.nodes, m.locks = []) {t : τ} {log : List (Ev S R Fault ε X)}
    {k : Except ε β → Client S R ε τ X α} :
    ∀ (b : Body S R ε β) (i : ℕ) (p : Priv Row Loc S R Fault ε X), s.Comes E program fate i db
      ⟨log, .inTx t p b k⟩ (b.alone E s.now fate db i p).1 ((b.alone E s.now fate db i p).2.rows db)
      ((b.alone E s.now fate db i p).2.node E log k)
  | .ret b, i, p => by
      rw [Body.alone]
      cases hfate : fate i with
      | error f => exact .fail hfate rfl
      | ok u => exact .commit h (fun _ => eq_of_ok hfate) rfl
  | .throw e, i, p => by
      rw [Body.alone]
      cases hfate : fate i with
      | error f => exact .fail hfate rfl
      | ok u => exact .quiet h (fun _ => eq_of_ok hfate) rfl
  | .stmt q k', i, p => by
      rw [Body.alone]
      cases hfate : fate i with
      | error f =>
        rw [Engine.attempt_error hfate]
        exact .fail hfate rfl
      | ok u =>
        rw [Engine.attempt_ok hfate]
        cases hout : (E.exec q ⟨s.now, u⟩ (fun _ => false) (p.view db)).out with
        | error f =>
          have hstep : Node.step E ⟨s.now, u⟩ (fun _ => false) db ⟨log, .inTx t p (.stmt q k') k⟩ =
              some (⟨log ++ [.fault f], .run (k (.error (E.raise f)))⟩, none) := by
            simp [Node.step, hout]
          exact .quiet h (fun _ => eq_of_ok hfate) hstep
        | ok rw =>
          obtain ⟨r, ws⟩ := rw
          have hstep : Node.step E ⟨s.now, u⟩ (fun _ => false) db ⟨log, .inTx t p (.stmt q k') k⟩ =
              some (⟨log, .inTx t (p.add q r (E.takes s.now fate q i (p.view db)) ws) (k' r) k⟩,
                none) := by
            simp [Node.step, hout, Engine.takes, hfate]
          exact Sys.Comes.trans (.quiet h (fun _ => eq_of_ok hfate) hstep)
            (Body.alone_runs h (k' r) _ _)

/-- The system does what the evaluation of a program says. -/
theorem Client.alone_runs (h : ∀ m ∈ s.nodes, m.locks = []) : ∀ (c : Client S R ε τ X α) (i : ℕ)
    (db : Table Row Loc key) (log : List (Ev S R Fault ε X)),
      s.Comes E program fate i db ⟨log, .run c⟩ (c.alone E s.now fate i db).next
        (c.alone E s.now fate i db).db ⟨log ++ (c.alone E s.now fate i db).log,
          .run (.ofExcept (c.alone E s.now fate i db).result)⟩
  | .ret a, i, db, log => by
      rw [Client.alone, List.append_nil]
      exact .refl
  | .throw e, i, db, log => by
      rw [Client.alone, List.append_nil]
      exact .refl
  | .query q k, i, db, log => by
      rw [Client.alone]
      cases hfate : fate i with
      | error f =>
        rw [Engine.attempt_error hfate]
        have hrest := Client.alone_runs h (k (.error (E.raise f))) (i + 1) db (log ++ [.fault f])
        rw [List.append_assoc] at hrest
        exact Sys.Comes.trans (.fail hfate rfl) hrest
      | ok u =>
        rw [Engine.attempt_ok hfate]
        cases hout : (E.exec q ⟨s.now, u⟩ (fun _ => false) db).out with
        | error f =>
          have hrest := Client.alone_runs h (k (.error (E.raise f))) (i + 1) db (log ++ [.fault f])
          rw [List.append_assoc] at hrest
          have hstep : Node.step E ⟨s.now, u⟩ (fun _ => false) db ⟨log, .run (.query q k)⟩ =
              some (⟨log ++ [.fault f], .run (k (.error (E.raise f)))⟩, none) := by
            simp [Node.step, hout]
          exact Sys.Comes.trans (.quiet h (fun _ => eq_of_ok hfate) hstep) hrest
        | ok rw =>
          obtain ⟨r, ws⟩ := rw
          have hrest := Client.alone_runs h (k (.ok r)) (i + 1) (db.install ws)
            (log ++ [.stmt q r])
          rw [List.append_assoc] at hrest
          have hstep : Node.step E ⟨s.now, u⟩ (fun _ => false) db ⟨log, .run (.query q k)⟩ =
              some (⟨log ++ [.stmt q r], .run (k (.ok r))⟩, some (.auto q r, ws)) := by
            simp [Node.step, hout]
          exact Sys.Comes.trans (.commit h (fun _ => eq_of_ok hfate) hstep) hrest
  | .txn t body k, i, db, log => by
      rw [Client.alone]
      cases hfate : fate i with
      | error f =>
        have hrest := Client.alone_runs h (k (.error (E.raise f))) (i + 1) db (log ++ [.fault f])
        rw [List.append_assoc] at hrest
        exact Sys.Comes.trans (.fail hfate rfl) hrest
      | ok u =>
        refine Sys.Comes.trans (.quiet h (fun _ => eq_of_ok hfate) rfl)
          (Sys.Comes.trans (Body.alone_runs h body (i + 1) .begin) ?_)
        rcases body.alone E s.now fate db (i + 1) .begin with ⟨j, f | e | ⟨b, p⟩⟩
        · have hrest := Client.alone_runs h (k (.error (E.raise f))) j db (log ++ [.fault f])
          rw [List.append_assoc] at hrest
          exact hrest
        · exact Client.alone_runs h (k (.error e)) j db log
        · have hrest := Client.alone_runs h (k (.ok b)) j (db.install p.writes) (log ++ p.events)
          rw [List.append_assoc] at hrest
          exact hrest
  | .call x k, i, db, log => by
      rw [Client.alone]
      have hrest := Client.alone_runs h (k (E.answer x)) (i + 1) db (log ++ [.call x (E.answer x)])
      rw [List.append_assoc] at hrest
      -- the outside answers whatever `fate` says
      obtain ⟨u, hu⟩ : ∃ u, ∀ u', fate i = .ok u' → u' = u := by
        cases hfate : fate i with
        | error f => exact ⟨0, fun _ hu => by cases hu⟩
        | ok u => exact ⟨u, fun _ hu => (Except.ok.inj hu).symm⟩
      exact Sys.Comes.trans (.commit h hu rfl) hrest

/-- A job that is started while nobody holds a lock, and then has the system for itself. -/
theorem Sys.alone_runs (h : ∀ m ∈ s.nodes, m.locks = []) (fate : ℕ → Except Fault ℕ) (j : J) :
    ∃ (ls : List (Label Fault J)) (s' : Sys Row Loc key S R Fault ε τ X α),
      Follows s.nodes.length fate 0 ls ∧
      ls.length = ((program j).alone E s.now fate 0 s.db).next ∧
      s.run E program (.start j :: ls) = some s' ∧
      s'.db = ((program j).alone E s.now fate 0 s.db).db ∧ s'.now = s.now ∧
      s'.nodes = s.nodes ++ [⟨((program j).alone E s.now fate 0 s.db).log,
        .run (.ofExcept ((program j).alone E s.now fate 0 s.db).result)⟩] := by
  obtain ⟨ls, hist, hown, hlen, hrun⟩ : ∃ (ls : List (Label Fault J)) (hist : _), _ ∧ _ ∧ _ :=
    Client.alone_runs h (program j) 0 s.db [] s.history
  rw [Nat.zero_add] at hlen
  exact ⟨ls, _, hown, hlen.symm, hrun, rfl, rfl, rfl⟩

end Runs

end TxStore
