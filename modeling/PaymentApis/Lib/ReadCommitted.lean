import PaymentApis.Lib.Table
import PaymentApis.Lib.Program

/-!
# Concurrent transactions under READ COMMITTED

The store holds the committed rows. An open transaction keeps its own row
versions and its row locks to itself; a statement sees the last committed rows
overlaid with the versions of its own transaction, waits while a row it locks
is locked by another open transaction, and locks every row it writes. COMMIT
installs the versions, ROLLBACK drops them; both release the locks.

Any number of client programs run interleaved, one statement at a time. The
scheduler also decides the values the server generates, the clock, which
statement or COMMIT fails, and which process crashes.
-/

namespace TxStore

/-- What the server supplies to a statement: its clock, and the value a
generated identifier takes. -/
structure Env where
  now : ℕ
  uuid : ℕ

/-- What a statement asks of the store: the rows it locks without writing them,
and its failure or its answer with the row versions it writes. -/
structure Effect (Row Loc Fault α : Type) where
  locks : List Loc
  out : Except Fault (α × List Row)

/-- Everything a process has observed. -/
inductive Ev (S : Type) (R : S → Type) (Fault ε X : Type) : Type
  | stmt (s : S) (r : R s)
  | call (x : X) (a : Except ε Unit)
  | fault (f : Fault)

/-- One committed unit of work. -/
inductive Item (S : Type) (R : S → Type) (Fault ε τ X : Type) : Type
  | auto (s : S) (r : R s)
  | txn (t : τ) (evs : List (Ev S R Fault ε X))
  | call (x : X) (a : Except ε Unit)

def Item.events {S : Type} {R : S → Type} {Fault ε τ X : Type} :
    Item S R Fault ε τ X → List (Ev S R Fault ε X)
  | .auto s r => [.stmt s r]
  | .txn _ evs => evs
  | .call x a => [.call x a]

/-- The private part of an open transaction. -/
structure Priv (Row Loc S : Type) (R : S → Type) (Fault ε X : Type) where
  events : List (Ev S R Fault ε X)
  writes : List Row
  locks : List Loc

def Priv.begin {Row Loc S : Type} {R : S → Type} {Fault ε X : Type} :
    Priv Row Loc S R Fault ε X := ⟨[], [], []⟩

/-- The semantics of the statements, and of the calls to the outside. -/
structure Engine (Row Loc : Type) (key : Row → Loc) (S : Type) (R : S → Type)
    (Fault ε X : Type) where
  exec : (s : S) → Env → (Loc → Bool) → Table Row Loc key → Effect Row Loc Fault (R s)
  raise : Fault → ε
  answer : X → Except ε Unit

inductive Proc (Row Loc S : Type) (R : S → Type) (Fault ε τ X α : Type) : Type 1
  | run (c : Client S R ε τ X α)
  | inTx {β : Type} (t : τ) (p : Priv Row Loc S R Fault ε X) (body : Body S R ε β)
      (k : Except ε β → Client S R ε τ X α)
  | crashed

/-- A process: what it has observed in committed work, and where it stands. -/
structure Node (Row Loc S : Type) (R : S → Type) (Fault ε τ X α : Type) : Type 1 where
  log : List (Ev S R Fault ε X)
  proc : Proc Row Loc S R Fault ε τ X α

structure Sys (Row Loc : Type) (key : Row → Loc) (S : Type) (R : S → Type)
    (Fault ε τ X α : Type) : Type 1 where
  db : Table Row Loc key
  now : ℕ
  nodes : List (Node Row Loc S R Fault ε τ X α)
  history : List (ℕ × Item S R Fault ε τ X)

/-- The scheduler's moves. `run i u` lets process `i` take its next step, with
`u` as the value of an identifier generated in it. -/
inductive Label (Fault J : Type) : Type
  | start (j : J)
  | tick (n : ℕ)
  | run (i : ℕ) (uuid : ℕ)
  | fault (i : ℕ) (f : Fault)
  | crash (i : ℕ)

section

variable {Row Loc : Type} [DecidableEq Loc] {key : Row → Loc} {S : Type} {R : S → Type}
  {Fault ε τ X J α : Type}

/-- All rows a statement must lock to take effect. -/
def Effect.locked {β : Type} (key : Row → Loc) (e : Effect Row Loc Fault β) : List Loc :=
  e.locks ++ match e.out with
    | .ok (_, ws) => ws.map key
    | .error _ => []

/-- The rows a statement of the transaction sees. -/
def Priv.view (p : Priv Row Loc S R Fault ε X) (db : Table Row Loc key) : Table Row Loc key :=
  db.install p.writes

def Priv.add (p : Priv Row Loc S R Fault ε X) (s : S) (r : R s) (locked : List Loc)
    (ws : List Row) : Priv Row Loc S R Fault ε X :=
  ⟨p.events ++ [.stmt s r], p.writes ++ ws, p.locks ++ locked⟩

def Node.locks (n : Node Row Loc S R Fault ε τ X α) : List Loc :=
  match n.proc with
  | .inTx _ p _ _ => p.locks
  | _ => []

/-- A process still has steps to take. -/
def Node.live (n : Node Row Loc S R Fault ε τ X α) : Bool :=
  match n.proc with
  | .run c => !c.finished
  | .inTx _ _ _ _ => true
  | .crashed => false

/-- The statement an open transaction is about to issue. -/
def Node.next (n : Node Row Loc S R Fault ε τ X α) : Option (Priv Row Loc S R Fault ε X × S) :=
  match n.proc with
  | .inTx _ p (.stmt s _) _ => some (p, s)
  | _ => none

/-- The next step of one process: its new state, and what it commits. -/
def Node.step (E : Engine Row Loc key S R Fault ε X) (env : Env) (busy : Loc → Bool)
    (db : Table Row Loc key) (n : Node Row Loc S R Fault ε τ X α) :
    Option (Node Row Loc S R Fault ε τ X α × Option (Item S R Fault ε τ X × List Row)) :=
  match n.proc with
  | .run (.query s k) =>
    let e := E.exec s env busy db
    if (e.locked key).any busy then none else
    match e.out with
    | .ok (r, ws) => some (⟨n.log ++ [.stmt s r], .run (k (.ok r))⟩, some (.auto s r, ws))
    | .error f => some (⟨n.log ++ [.fault f], .run (k (.error (E.raise f)))⟩, none)
  | .run (.txn t body k) => some (⟨n.log, .inTx t .begin body k⟩, none)
  | .run (.call x k) =>
    some (⟨n.log ++ [.call x (E.answer x)], .run (k (E.answer x))⟩, some (.call x (E.answer x), []))
  | .inTx t p (.stmt s k') k =>
    let e := E.exec s env busy (p.view db)
    if (e.locked key).any busy then none else
    match e.out with
    | .ok (r, ws) => some (⟨n.log, .inTx t (p.add s r (e.locked key) ws) (k' r) k⟩, none)
    | .error f => some (⟨n.log ++ [.fault f], .run (k (.error (E.raise f)))⟩, none)
  | .inTx t p (.ret b) k =>
    some (⟨n.log ++ p.events, .run (k (.ok b))⟩, some (.txn t p.events, p.writes))
  | .inTx _ _ (.throw e) k => some (⟨n.log, .run (k (.error e))⟩, none)
  | _ => none

/-- The failure of the next statement, of BEGIN, or of COMMIT. -/
def Node.fail (E : Engine Row Loc key S R Fault ε X) (f : Fault)
    (n : Node Row Loc S R Fault ε τ X α) : Option (Node Row Loc S R Fault ε τ X α) :=
  match n.proc with
  | .run (.query _ k) => some ⟨n.log ++ [.fault f], .run (k (.error (E.raise f)))⟩
  | .run (.txn _ _ k) => some ⟨n.log ++ [.fault f], .run (k (.error (E.raise f)))⟩
  | .inTx _ _ _ k => some ⟨n.log ++ [.fault f], .run (k (.error (E.raise f)))⟩
  | _ => none

/-- Rows locked by a transaction of another process. -/
def Sys.busy (s : Sys Row Loc key S R Fault ε τ X α) (i : ℕ) (l : Loc) : Bool :=
  s.nodes.zipIdx.any (fun nj => decide (nj.2 ≠ i) && decide (l ∈ nj.1.locks))

/-- Process `i` becomes `n`, and what it commits is installed and recorded. -/
def Sys.advance (s : Sys Row Loc key S R Fault ε τ X α) (i : ℕ)
    (n : Node Row Loc S R Fault ε τ X α) (c : Option (Item S R Fault ε τ X × List Row)) :
    Sys Row Loc key S R Fault ε τ X α :=
  { s with
    nodes := s.nodes.set i n
    db := match c with | some (_, ws) => s.db.install ws | none => s.db
    history := match c with | some (it, _) => s.history ++ [(i, it)] | none => s.history }

def Sys.step (E : Engine Row Loc key S R Fault ε X) (program : J → Client S R ε τ X α)
    (s : Sys Row Loc key S R Fault ε τ X α) :
    Label Fault J → Option (Sys Row Loc key S R Fault ε τ X α)
  | .start j => some { s with nodes := s.nodes ++ [⟨[], .run (program j)⟩] }
  | .tick n => some { s with now := s.now + n }
  | .run i u =>
    match s.nodes[i]? with
    | none => none
    | some n => (n.step E ⟨s.now, u⟩ (s.busy i) s.db).map (fun o => s.advance i o.1 o.2)
  | .fault i f =>
    match s.nodes[i]? with
    | none => none
    | some n => (n.fail E f).map (fun n' => s.advance i n' none)
  | .crash i => s.nodes[i]?.map (fun n => s.advance i { n with proc := .crashed } none)

/-- The row versions a step commits. -/
def Sys.written (E : Engine Row Loc key S R Fault ε X)
    (s : Sys Row Loc key S R Fault ε τ X α) : Label Fault J → List Row
  | .run i u =>
    match s.nodes[i]? with
    | some n =>
      match n.step E ⟨s.now, u⟩ (s.busy i) s.db with
      | some (_, some (_, ws)) => ws
      | _ => []
    | none => []
  | _ => []

/-- A whole schedule. -/
def Sys.run (E : Engine Row Loc key S R Fault ε X) (program : J → Client S R ε τ X α)
    (s : Sys Row Loc key S R Fault ε τ X α) :
    List (Label Fault J) → Option (Sys Row Loc key S R Fault ε τ X α)
  | [] => some s
  | l :: ls => (s.step E program l).bind (fun s' => s'.run E program ls)

def Sys.init : Sys Row Loc key S R Fault ε τ X α := ⟨.empty, 0, [], []⟩

/-- The states reached from the empty store by steps that satisfy `ok`. -/
inductive Reach (E : Engine Row Loc key S R Fault ε X) (program : J → Client S R ε τ X α)
    (ok : Sys Row Loc key S R Fault ε τ X α → Label Fault J →
      Sys Row Loc key S R Fault ε τ X α → Prop) :
    Sys Row Loc key S R Fault ε τ X α → Prop
  | init : Reach E program ok .init
  | step {s s' l} : Reach E program ok s → s.step E program l = some s' → ok s l s' →
      Reach E program ok s'

theorem Reach.mono {E : Engine Row Loc key S R Fault ε X} {program : J → Client S R ε τ X α}
    {ok ok' : Sys Row Loc key S R Fault ε τ X α → Label Fault J →
      Sys Row Loc key S R Fault ε τ X α → Prop}
    (h : ∀ s l s', ok s l s' → ok' s l s') {s : Sys Row Loc key S R Fault ε τ X α}
    (hs : Reach E program ok s) : Reach E program ok' s := by
  induction hs with
  | init => exact .init
  | step _ hstep hok ih => exact .step ih hstep (h _ _ _ hok)

/-- A schedule that the semantics accepts reaches its final state. -/
theorem Reach.of_run {E : Engine Row Loc key S R Fault ε X}
    {program : J → Client S R ε τ X α} : ∀ {ls : List (Label Fault J)}
    {s s' : Sys Row Loc key S R Fault ε τ X α},
    Reach E program (fun _ _ _ => True) s → s.run E program ls = some s' →
    Reach E program (fun _ _ _ => True) s'
  | [], s, s', hs, h => by
      simp only [Sys.run, Option.some.injEq] at h
      exact h ▸ hs
  | l :: ls, s, s', hs, h => by
      simp only [Sys.run, Option.bind_eq_some_iff] at h
      obtain ⟨m, hm, hrest⟩ := h
      exact Reach.of_run (.step hs hm trivial) hrest

/-- A schedule all of whose steps pass a test. -/
def Sys.runWhile (E : Engine Row Loc key S R Fault ε X) (program : J → Client S R ε τ X α)
    (test : Sys Row Loc key S R Fault ε τ X α → Label Fault J →
      Sys Row Loc key S R Fault ε τ X α → Bool) (s : Sys Row Loc key S R Fault ε τ X α) :
    List (Label Fault J) → Option (Sys Row Loc key S R Fault ε τ X α)
  | [] => some s
  | l :: ls => (s.step E program l).bind
      (fun s' => if test s l s' then s'.runWhile E program test ls else none)

theorem Reach.of_runWhile {E : Engine Row Loc key S R Fault ε X}
    {program : J → Client S R ε τ X α} {test : Sys Row Loc key S R Fault ε τ X α →
      Label Fault J → Sys Row Loc key S R Fault ε τ X α → Bool} :
    ∀ {ls : List (Label Fault J)} {s s' : Sys Row Loc key S R Fault ε τ X α},
    Reach E program (fun s l m => test s l m = true) s → s.runWhile E program test ls = some s' →
    Reach E program (fun s l m => test s l m = true) s'
  | [], s, s', hs, h => by
      simp only [Sys.runWhile, Option.some.injEq] at h
      exact h ▸ hs
  | l :: ls, s, s', hs, h => by
      simp only [Sys.runWhile, Option.bind_eq_some_iff] at h
      obtain ⟨m, hm, hrest⟩ := h
      split at hrest
      · rename_i htest
        exact Reach.of_runWhile (.step hs hm htest) hrest
      · simp at hrest

/-! ## What a step can do -/

/-- The moves of one process, with what each commits. -/
inductive Moves (E : Engine Row Loc key S R Fault ε X) (env : Env) (busy : Loc → Bool)
    (db : Table Row Loc key) : Node Row Loc S R Fault ε τ X α → Node Row Loc S R Fault ε τ X α →
      Option (Item S R Fault ε τ X × List Row) → Prop
  | query {log s k r ws} (free : ((E.exec s env busy db).locked key).any busy = false)
      (out : (E.exec s env busy db).out = .ok (r, ws)) :
      Moves E env busy db ⟨log, .run (.query s k)⟩ ⟨log ++ [.stmt s r], .run (k (.ok r))⟩
        (some (.auto s r, ws))
  | queryFails {log s k f} (out : (E.exec s env busy db).out = .error f) :
      Moves E env busy db ⟨log, .run (.query s k)⟩
        ⟨log ++ [.fault f], .run (k (.error (E.raise f)))⟩ none
  | call {log x k} :
      Moves E env busy db ⟨log, .run (.call x k)⟩
        ⟨log ++ [.call x (E.answer x)], .run (k (E.answer x))⟩ (some (.call x (E.answer x), []))
  | opens {log β t k} {body : Body S R ε β} :
      Moves E env busy db ⟨log, .run (.txn t body k)⟩ ⟨log, .inTx t .begin body k⟩ none
  | stmt {log β t p s k ws} {r : R s} {k' : R s → Body S R ε β}
      (free : ((E.exec s env busy (p.view db)).locked key).any busy = false)
      (out : (E.exec s env busy (p.view db)).out = .ok (r, ws)) :
      Moves E env busy db ⟨log, .inTx t p (.stmt s k') k⟩
        ⟨log, .inTx t (p.add s r ((E.exec s env busy (p.view db)).locked key) ws) (k' r) k⟩ none
  | stmtFails {log β t p s k f} {k' : R s → Body S R ε β}
      (out : (E.exec s env busy (p.view db)).out = .error f) :
      Moves E env busy db ⟨log, .inTx t p (.stmt s k') k⟩
        ⟨log ++ [.fault f], .run (k (.error (E.raise f)))⟩ none
  | commits {log β t p k} {b : β} :
      Moves E env busy db ⟨log, .inTx t p (.ret b) k⟩
        ⟨log ++ p.events, .run (k (.ok b))⟩ (some (.txn t p.events, p.writes))
  | throws {log t p β e} {k : Except ε β → Client S R ε τ X α} :
      Moves E env busy db ⟨log, .inTx t p (.throw e) k⟩ ⟨log, .run (k (.error e))⟩ none

theorem Node.moves {E : Engine Row Loc key S R Fault ε X} {env : Env} {busy : Loc → Bool}
    {db : Table Row Loc key} {n n' : Node Row Loc S R Fault ε τ X α}
    {c : Option (Item S R Fault ε τ X × List Row)} (h : n.step E env busy db = some (n', c)) :
    Moves E env busy db n n' c := by
  obtain ⟨log, proc⟩ := n
  cases proc with
  | crashed => simp [Node.step] at h
  | run prog =>
    cases prog with
    | ret a => simp [Node.step] at h
    | throw e => simp [Node.step] at h
    | call x k =>
      simp only [Node.step, Option.some.injEq, Prod.mk.injEq] at h
      obtain ⟨rfl, rfl⟩ := h
      exact .call
    | txn t body k =>
      simp only [Node.step, Option.some.injEq, Prod.mk.injEq] at h
      obtain ⟨rfl, rfl⟩ := h
      exact .opens
    | query s k =>
      simp only [Node.step] at h
      split at h
      · simp at h
      rename_i hfree
      split at h
      · rename_i r ws hout
        simp only [Option.some.injEq, Prod.mk.injEq] at h
        obtain ⟨rfl, rfl⟩ := h
        exact .query (by simpa using hfree) hout
      · rename_i f hout
        simp only [Option.some.injEq, Prod.mk.injEq] at h
        obtain ⟨rfl, rfl⟩ := h
        exact .queryFails hout
  | inTx t p body k =>
    cases body with
    | ret b =>
      simp only [Node.step, Option.some.injEq, Prod.mk.injEq] at h
      obtain ⟨rfl, rfl⟩ := h
      exact .commits
    | throw e =>
      simp only [Node.step, Option.some.injEq, Prod.mk.injEq] at h
      obtain ⟨rfl, rfl⟩ := h
      exact .throws
    | stmt s k' =>
      simp only [Node.step] at h
      split at h
      · simp at h
      rename_i hfree
      split at h
      · rename_i r ws hout
        simp only [Option.some.injEq, Prod.mk.injEq] at h
        obtain ⟨rfl, rfl⟩ := h
        exact .stmt (by simpa using hfree) hout
      · rename_i f hout
        simp only [Option.some.injEq, Prod.mk.injEq] at h
        obtain ⟨rfl, rfl⟩ := h
        exact .stmtFails hout

/-- The failures of one process from outside. -/
inductive Fails (E : Engine Row Loc key S R Fault ε X) (f : Fault) :
    Node Row Loc S R Fault ε τ X α → Node Row Loc S R Fault ε τ X α → Prop
  | query {log s k} :
      Fails E f ⟨log, .run (.query s k)⟩ ⟨log ++ [.fault f], .run (k (.error (E.raise f)))⟩
  | opens {log β t k} {body : Body S R ε β} :
      Fails E f ⟨log, .run (.txn t body k)⟩ ⟨log ++ [.fault f], .run (k (.error (E.raise f)))⟩
  | inTx {log β t p k} {body : Body S R ε β} :
      Fails E f ⟨log, .inTx t p body k⟩ ⟨log ++ [.fault f], .run (k (.error (E.raise f)))⟩

omit [DecidableEq Loc] in
theorem Node.fails {E : Engine Row Loc key S R Fault ε X} {f : Fault}
    {n n' : Node Row Loc S R Fault ε τ X α} (h : n.fail E f = some n') : Fails E f n n' := by
  obtain ⟨log, proc⟩ := n
  cases proc with
  | crashed => simp [Node.fail] at h
  | run prog =>
    cases prog with
    | ret a => simp [Node.fail] at h
    | throw e => simp [Node.fail] at h
    | call x k => simp [Node.fail] at h
    | query s k =>
      simp only [Node.fail, Option.some.injEq] at h
      subst h
      exact .query
    | txn t body k =>
      simp only [Node.fail, Option.some.injEq] at h
      subst h
      exact .opens
  | inTx t p body k =>
    simp only [Node.fail, Option.some.injEq] at h
    subst h
    exact .inTx

/-! ## What a step records -/

/-- A statement on its own is recorded with the answer it has got. -/
theorem Node.step_auto {E : Engine Row Loc key S R Fault ε X} {env : Env} {busy : Loc → Bool}
    {db : Table Row Loc key} {n n' : Node Row Loc S R Fault ε τ X α} {s : S} {r : R s}
    {ws : List Row} (h : n.step E env busy db = some (n', some (.auto s r, ws))) :
    (∃ k, n.proc = .run (.query s k)) ∧ (E.exec s env busy db).out = .ok (r, ws) := by
  cases Node.moves h with
  | query _ hout => exact ⟨⟨_, rfl⟩, hout⟩

/-- What a step adds to the history is what its process commits. -/
theorem Sys.step_history {E : Engine Row Loc key S R Fault ε X} {program : J → Client S R ε τ X α}
    {s s' : Sys Row Loc key S R Fault ε τ X α} {l : Label Fault J}
    (h : s.step E program l = some s') :
    (s'.history = s.history ∧ s'.db = s.db) ∨ ∃ i u n n' it ws, l = .run i u ∧ s.nodes[i]? = some n ∧
      n.step E ⟨s.now, u⟩ (s.busy i) s.db = some (n', some (it, ws)) ∧
      s'.history = s.history ++ [(i, it)] := by
  cases l with
  | start j =>
    simp only [Sys.step, Option.some.injEq] at h
    subst h
    exact Or.inl ⟨rfl, rfl⟩
  | tick n =>
    simp only [Sys.step, Option.some.injEq] at h
    subst h
    exact Or.inl ⟨rfl, rfl⟩
  | crash i =>
    simp only [Sys.step, Option.map_eq_some_iff] at h
    obtain ⟨n, -, rfl⟩ := h
    exact Or.inl ⟨rfl, rfl⟩
  | fault i f =>
    simp only [Sys.step] at h
    split at h
    · simp at h
    · obtain ⟨n', -, rfl⟩ := Option.map_eq_some_iff.mp h
      exact Or.inl ⟨rfl, rfl⟩
  | run i u =>
    simp only [Sys.step] at h
    split at h
    · simp at h
    · rename_i n hn
      obtain ⟨⟨n', c⟩, hstep, rfl⟩ := Option.map_eq_some_iff.mp h
      cases c with
      | none => exact Or.inl ⟨rfl, rfl⟩
      | some itws => exact Or.inr ⟨i, u, n, n', itws.1, itws.2, rfl, hn, hstep, rfl⟩

/-- A statement on its own that a step has committed is one its process was about
to issue. -/
theorem Sys.step_auto {E : Engine Row Loc key S R Fault ε X} {program : J → Client S R ε τ X α}
    {s s' : Sys Row Loc key S R Fault ε τ X α} {l : Label Fault J}
    (h : s.step E program l = some s') {i : ℕ} {q : S} {r : R q}
    (hs : s'.history = s.history ++ [(i, .auto q r)]) :
    ∃ u n k ws, l = .run i u ∧ s.nodes[i]? = some n ∧ n.proc = .run (.query q k) ∧
      (E.exec q ⟨s.now, u⟩ (s.busy i) s.db).out = .ok (r, ws) := by
  rcases Sys.step_history h with ⟨hsame, -⟩ | ⟨i', u, n, n', it, ws, rfl, hn, hnode, hlast⟩
  · rw [hsame] at hs
    simp at hs
  · rw [hlast] at hs
    have hitem := List.append_cancel_left hs
    simp only [List.cons.injEq, Prod.mk.injEq, and_true] at hitem
    obtain ⟨rfl, rfl⟩ := hitem
    obtain ⟨⟨k, hproc⟩, hout⟩ := Node.step_auto hnode
    exact ⟨u, n, k, ws, rfl, hn, hproc, hout⟩

/-! ## Locks -/

theorem Sys.busy_eq_false {s : Sys Row Loc key S R Fault ε τ X α} {i : ℕ} {l : Loc} :
    s.busy i l = false ↔
      ∀ (j : ℕ) (n : Node Row Loc S R Fault ε τ X α), j ≠ i → s.nodes[j]? = some n →
        l ∉ n.locks := by
  simp only [Sys.busy, List.any_eq_false, Bool.and_eq_true, decide_eq_true_eq, not_and]
  constructor
  · intro h j n hj hn
    exact h (n, j) (List.mem_zipIdx_iff_getElem?.mpr hn) hj
  · intro h nj hmem hj
    exact h nj.2 nj.1 hj (List.mem_zipIdx_iff_getElem?.mp hmem)

/-- A transaction has locked every row it wrote. -/
def Priv.Covered (key : Row → Loc) (p : Priv Row Loc S R Fault ε X) : Prop :=
  ∀ r ∈ p.writes, key r ∈ p.locks

def Node.Covered (key : Row → Loc) (n : Node Row Loc S R Fault ε τ X α) : Prop :=
  match n.proc with
  | .inTx _ p _ _ => p.Covered key
  | _ => True

/-- Row locks are exclusive, and cover the uncommitted writes. -/
structure Sys.Locked (s : Sys Row Loc key S R Fault ε τ X α) : Prop where
  exclusive : ∀ (i j : ℕ) (m n : Node Row Loc S R Fault ε τ X α), i ≠ j →
    s.nodes[i]? = some m → s.nodes[j]? = some n → ∀ l ∈ m.locks, l ∉ n.locks
  covered : ∀ (i : ℕ) (n : Node Row Loc S R Fault ε τ X α), s.nodes[i]? = some n →
    n.Covered key

omit [DecidableEq Loc] in
theorem Sys.locked_init : (Sys.init : Sys Row Loc key S R Fault ε τ X α).Locked where
  exclusive := by
    intro i j m n _ hm
    simp [Sys.init] at hm
  covered := by
    intro i n hn
    simp [Sys.init] at hn

/-- One process moving keeps the lock discipline when its new locks are old
locks or rows nobody else has locked. -/
theorem Sys.Locked.advance {s : Sys Row Loc key S R Fault ε τ X α} (h : s.Locked) {i : ℕ}
    {n : Node Row Loc S R Fault ε τ X α} (hn : s.nodes[i]? = some n)
    {n' : Node Row Loc S R Fault ε τ X α} {c : Option (Item S R Fault ε τ X × List Row)}
    (hlocks : ∀ l ∈ n'.locks, l ∈ n.locks ∨ s.busy i l = false) (hcov : n'.Covered key) :
    (s.advance i n' c).Locked := by
  have hnew : ∀ (j : ℕ) (m : Node Row Loc S R Fault ε τ X α), j ≠ i → s.nodes[j]? = some m →
      ∀ l ∈ n'.locks, l ∉ m.locks := by
    intro j m hj hm l hl
    rcases hlocks l hl with hold | hfree
    · exact h.exclusive i j n m (Ne.symm hj) hn hm l hold
    · exact Sys.busy_eq_false.mp hfree j m hj hm
  refine ⟨?_, ?_⟩
  · intro a b m₁ m₂ hab h₁ h₂ l hl
    simp only [Sys.advance, List.getElem?_set] at h₁ h₂
    by_cases ha : i = a
    · have hb : ¬ i = b := fun e => hab (ha.symm.trans e)
      simp only [ha, if_true] at h₁
      simp only [hb, if_false] at h₂
      split at h₁
      · cases h₁
        exact hnew b m₂ (fun e => hb e.symm) h₂ l hl
      · simp at h₁
    · simp only [ha, if_false] at h₁
      by_cases hb : i = b
      · simp only [hb, if_true] at h₂
        split at h₂
        · cases h₂
          exact fun hl' => hnew a m₁ (fun e => ha e.symm) h₁ l hl' hl
        · simp at h₂
      · simp only [hb, if_false] at h₂
        exact h.exclusive a b m₁ m₂ hab h₁ h₂ l hl
  · intro a m hm
    simp only [Sys.advance, List.getElem?_set] at hm
    by_cases ha : i = a
    · simp only [ha, if_true] at hm
      split at hm
      · cases hm
        exact hcov
      · simp at hm
    · simp only [ha, if_false] at hm
      exact h.covered a m hm

end

end TxStore
