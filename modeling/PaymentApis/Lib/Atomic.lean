import PaymentApis.Lib.Contract

/-!
# The atomic view of a run

Seen from the committed store, a run is a sequence of commits, each atomic and
each satisfying the guarantee of the contract, together with what every process
has observed so far. Uncommitted work and locks are gone. `Reach.refines` shows
that every reachable state has such a run; facts about committed states are
then proved by induction over commits alone.
-/

namespace TxStore

variable {Row Loc : Type} [DecidableEq Loc] {key : Row → Loc} {S : Type} {R : S → Type}
  {Fault ε τ X J α : Type}

/-- The committed store, the clock, each process's observations with whether it
is still running, and the committed work in commit order. -/
structure Abs (Row Loc : Type) (key : Row → Loc) (S : Type) (R : S → Type)
    (Fault ε τ X : Type) where
  db : Table Row Loc key
  now : ℕ
  procs : List (Bool × List (Ev S R Fault ε X))
  history : List (ℕ × Item S R Fault ε τ X)

def Abs.init : Abs Row Loc key S R Fault ε τ X := ⟨.empty, 0, [], []⟩

def Sys.abs (s : Sys Row Loc key S R Fault ε τ X α) : Abs Row Loc key S R Fault ε τ X :=
  ⟨s.db, s.now, s.nodes.map (fun n => (n.live, n.log)), s.history⟩

/-- One step of the atomic view. -/
inductive AStep (C : Contract Row Loc key S R Fault ε τ X) :
    Abs Row Loc key S R Fault ε τ X → Abs Row Loc key S R Fault ε τ X → Prop
  | start (a : Abs Row Loc key S R Fault ε τ X) (live : Bool) :
      AStep C a { a with procs := a.procs ++ [(live, [])] }
  | tick (a : Abs Row Loc key S R Fault ε τ X) (n : ℕ) : AStep C a { a with now := a.now + n }
  | commit (a : Abs Row Loc key S R Fault ε τ X) (i : ℕ) (log : List (Ev S R Fault ε X))
      (it : Item S R Fault ε τ X) (p : Priv Row Loc S R Fault ε X) (live : Bool) :
      a.procs[i]? = some (true, log) → C.Inv a.db → C.Guar log it p a.now a.db →
      AStep C a ⟨a.db.install p.writes, a.now, a.procs.set i (live, log ++ it.events),
        a.history ++ [(i, it)]⟩
  | fault (a : Abs Row Loc key S R Fault ε τ X) (i : ℕ) (log : List (Ev S R Fault ε X))
      (f : Fault) (live : Bool) : a.procs[i]? = some (true, log) →
      AStep C a { a with procs := a.procs.set i (live, log ++ [.fault f]) }
  | quiet (a : Abs Row Loc key S R Fault ε τ X) (i : ℕ) (was : Bool)
      (log : List (Ev S R Fault ε X)) (live : Bool) : a.procs[i]? = some (was, log) →
      (live = true → was = true) → AStep C a { a with procs := a.procs.set i (live, log) }

/-- A step that adds to the history is the commit of what it adds. -/
theorem AStep.of_history {C : Contract Row Loc key S R Fault ε τ X}
    {a a' : Abs Row Loc key S R Fault ε τ X} (h : AStep C a a') {i : ℕ}
    {it : Item S R Fault ε τ X} (hlast : a'.history = a.history ++ [(i, it)]) :
    ∃ log p, a.procs[i]? = some (true, log) ∧ C.Guar log it p a.now a.db ∧
      a'.db = a.db.install p.writes := by
  cases h with
  | start | tick | fault | quiet => simp at hlast
  | commit i' log it' p live hi _ hg =>
    have hitem := List.append_cancel_left hlast
    simp only [List.cons.injEq, Prod.mk.injEq, and_true] at hitem
    obtain ⟨rfl, rfl⟩ := hitem
    exact ⟨log, p, hi, hg, rfl⟩

/-- Atomic runs all of whose states after the first satisfy `P`. -/
inductive AReach (C : Contract Row Loc key S R Fault ε τ X)
    (P : Abs Row Loc key S R Fault ε τ X → Prop) : Abs Row Loc key S R Fault ε τ X → Prop
  | init : AReach C P .init
  | step {a a'} : AReach C P a → AStep C a a' → P a' → AReach C P a'

theorem AReach.holds {C : Contract Row Loc key S R Fault ε τ X}
    {P : Abs Row Loc key S R Fault ε τ X → Prop} (h0 : P .init)
    {a : Abs Row Loc key S R Fault ε τ X} (h : AReach C P a) : P a := by
  cases h with
  | init => exact h0
  | step _ _ hp => exact hp

theorem AReach.mono {C : Contract Row Loc key S R Fault ε τ X}
    {P Q : Abs Row Loc key S R Fault ε τ X → Prop} (h : ∀ a, P a → Q a)
    {a : Abs Row Loc key S R Fault ε τ X} (hr : AReach C P a) : AReach C Q a := by
  induction hr with
  | init => exact .init
  | step _ hs hp ih => exact .step ih hs (h _ hp)

/-- The invariant rule: an initial fact that every step keeps holds throughout. -/
theorem AReach.invariant {C : Contract Row Loc key S R Fault ε τ X}
    {P : Abs Row Loc key S R Fault ε τ X → Prop} (Q : Abs Row Loc key S R Fault ε τ X → Prop)
    (h0 : Q .init)
    (hstep : ∀ a a', AReach C P a → Q a → AStep C a a' → P a' → Q a')
    {a : Abs Row Loc key S R Fault ε τ X} (h : AReach C P a) : Q a := by
  induction h with
  | init => exact h0
  | step hr hs hp ih => exact hstep _ _ hr ih hs hp

/-- A fact about the committed store needs only the commits. -/
theorem AReach.db_invariant {C : Contract Row Loc key S R Fault ε τ X}
    {P : Abs Row Loc key S R Fault ε τ X → Prop} (Q : Table Row Loc key → Prop)
    (h0 : Q .empty)
    (hcommit : ∀ log it p now d, C.Inv d → C.Guar log it p now d → Q d → Q (d.install p.writes))
    {a : Abs Row Loc key S R Fault ε τ X} (h : AReach C P a) : Q a.db := by
  refine AReach.invariant (fun a => Q a.db) h0 ?_ h
  intro a a' _ hq hs _
  cases hs with
  | start live => exact hq
  | tick n => exact hq
  | commit i log it p live _ hinv hg => exact hcommit _ _ _ _ _ hinv hg hq
  | fault i log f live _ => exact hq
  | quiet i was log live _ _ => exact hq

theorem Sys.abs_advance_quiet (s : Sys Row Loc key S R Fault ε τ X α) (i : ℕ)
    (n : Node Row Loc S R Fault ε τ X α) :
    (s.advance i n none).abs = { s.abs with procs := s.abs.procs.set i (n.live, n.log) } := by
  simp [Sys.abs, Sys.advance, List.map_set]

omit [DecidableEq Loc] in
theorem Node.fail_log {E : Engine Row Loc key S R Fault ε X} {f : Fault}
    {n n' : Node Row Loc S R Fault ε τ X α} (h : n.fail E f = some n') :
    n.live = true ∧ n'.log = n.log ++ [.fault f] := by
  obtain ⟨log, proc⟩ := n
  cases proc with
  | crashed => simp [Node.fail] at h
  | run c =>
    cases c with
    | ret a => simp [Node.fail] at h
    | throw e => simp [Node.fail] at h
    | call x k => simp [Node.fail] at h
    | query q k =>
      simp only [Node.fail, Option.some.injEq] at h
      subst h
      exact ⟨rfl, rfl⟩
    | txn t body k =>
      simp only [Node.fail, Option.some.injEq] at h
      subst h
      exact ⟨rfl, rfl⟩
  | inTx t p body k =>
    simp only [Node.fail, Option.some.injEq] at h
    subst h
    exact ⟨rfl, rfl⟩

/-- One step of the system is one step of the atomic view. -/
theorem Sys.Safe.astep {E : Engine Row Loc key S R Fault ε X}
    {program : J → Client S R ε τ X α} {C : Contract Row Loc key S R Fault ε τ X} {side}
    (hC : C.Lawful side) {s s' : Sys Row Loc key S R Fault ε τ X α} {l : Label Fault J}
    {post : α → List (Ev S R Fault ε X) → Table Row Loc key → Prop}
    {epost : ε → List (Ev S R Fault ε X) → Table Row Loc key → Prop}
    (h : s.Safe E C post epost) (hstep : s.step E program l = some s') : AStep C s.abs s'.abs := by
  have habs : ∀ (i : ℕ) (n : Node Row Loc S R Fault ε τ X α), s.nodes[i]? = some n →
      s.abs.procs[i]? = some (n.live, n.log) := by
    intro i n hn
    simp [Sys.abs, hn]
  cases l with
  | start j =>
    simp only [Sys.step, Option.some.injEq] at hstep
    subst hstep
    have := AStep.start (C := C) s.abs (Node.live (⟨[], .run (program j)⟩ :
      Node Row Loc S R Fault ε τ X α))
    simpa [Sys.abs] using this
  | tick n =>
    simp only [Sys.step, Option.some.injEq] at hstep
    subst hstep
    exact AStep.tick s.abs n
  | crash i =>
    simp only [Sys.step, Option.map_eq_some_iff] at hstep
    obtain ⟨n, hn, rfl⟩ := hstep
    rw [Sys.abs_advance_quiet]
    exact AStep.quiet s.abs i n.live n.log _ (habs i n hn) (by simp [Node.live])
  | fault i f =>
    simp only [Sys.step] at hstep
    split at hstep
    · simp at hstep
    · rename_i n hn
      simp only [Option.map_eq_some_iff] at hstep
      obtain ⟨n', hn', rfl⟩ := hstep
      obtain ⟨hlive, hlog⟩ := Node.fail_log hn'
      rw [Sys.abs_advance_quiet, hlog]
      exact AStep.fault s.abs i n.log f _ (hlive ▸ habs i n hn)
  | run i u =>
    simp only [Sys.step] at hstep
    split at hstep
    · simp at hstep
    · rename_i n hn
      simp only [Option.map_eq_some_iff] at hstep
      obtain ⟨⟨n', c⟩, hn', rfl⟩ := hstep
      obtain ⟨_, _, hrest⟩ :=
        (h.nodes i n hn).step hC h.inv (h.locked.covered i n hn) hn'
      cases c with
      | none =>
        obtain ⟨hlog, hlive, _⟩ := hrest
        rw [Sys.abs_advance_quiet]
        rcases hlog with hlog | ⟨f, hlog⟩
        · rw [hlog]
          exact AStep.quiet s.abs i true n.log _ (hlive ▸ habs i n hn) (fun _ => rfl)
        · rw [hlog]
          exact AStep.fault s.abs i n.log f _ (hlive ▸ habs i n hn)
      | some itws =>
        obtain ⟨it, ws⟩ := itws
        obtain ⟨hlog, hlive, ⟨p, rfl, hg, _, _⟩, _⟩ := hrest
        have := AStep.commit (C := C) s.abs i n.log it p n'.live (hlive ▸ habs i n hn) h.inv hg
        simpa [Sys.abs, Sys.advance, List.map_set, hlog] using this

/-- **Refinement.** Every reachable state is the end of an atomic run. -/
theorem Reach.refines {E : Engine Row Loc key S R Fault ε X}
    {program : J → Client S R ε τ X α} {C : Contract Row Loc key S R Fault ε τ X} {side}
    (hC : C.Lawful side) (hinit : C.Inv .empty)
    {post : α → List (Ev S R Fault ε X) → Table Row Loc key → Prop}
    {epost : ε → List (Ev S R Fault ε X) → Table Row Loc key → Prop}
    (hprog : ∀ j d, C.Inv d →
      (program j).Safe E C post epost [] d)
    {ok : Sys Row Loc key S R Fault ε τ X α → Label Fault J →
      Sys Row Loc key S R Fault ε τ X α → Prop} (hside : SideOk E side ok)
    {P : Abs Row Loc key S R Fault ε τ X → Prop} (hP : ∀ s l s', ok s l s' → P s'.abs)
    {s : Sys Row Loc key S R Fault ε τ X α} (hs : Reach E program ok s) :
    AReach C P s.abs := by
  induction hs with
  | init => exact .init
  | step hr hstep hok ih =>
    exact .step ih ((hr.safe hC hinit hprog hside).astep hC hstep) (hP _ _ _ hok)

end TxStore
