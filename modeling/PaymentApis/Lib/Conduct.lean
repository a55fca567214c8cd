import PaymentApis.Lib.Atomic

/-!
# What each job may commit

A process runs the program of its job. `Client.Keeps` says of one program, by
itself, which work it commits after which observations, and what holds of them
where it ends; the rows it acts on are arbitrary. `Run` keeps the schedule, so
that the job of a process is known, and `Run.refines` gives the atomic run of
the committed store with every commit attributed to a job that may make it.
-/

namespace TxStore

variable {Row Loc : Type} [DecidableEq Loc] {key : Row → Loc} {S : Type} {R : S → Type}
  {Fault ε τ X J α β γ : Type}

/-! ## One program -/

/-- A run of the body that returns, with its statements and their answers. -/
def Body.Yields (E : Engine Row Loc key S R Fault ε X) :
    Body S R ε β → List (Ev S R Fault ε X) → β → Prop
  | .ret b, evs, c => evs = [] ∧ c = b
  | .throw _, _, _ => False
  | .stmt s k, evs, c => ∃ env busy d r ws rest, (E.exec s env busy d).out = .ok (r, ws) ∧
      evs = .stmt s r :: rest ∧ (k r).Yields E rest c

omit [DecidableEq Loc] in
theorem Body.Yields.of_stmt {E : Engine Row Loc key S R Fault ε X} {s : S} {k : R s → Body S R ε β}
    {evs : List (Ev S R Fault ε X)} {b : β} (h : (Body.stmt s k).Yields E evs b) :
    ∃ r rest, evs = .stmt s r :: rest ∧ (k r).Yields E rest b := by
  obtain ⟨_, _, _, r, _, rest, _, hevs, hrest⟩ := h
  exact ⟨r, rest, hevs, hrest⟩

/-- All that the program commits satisfies `May`, and where it returns or throws
`Q` or `T` holds of what it has observed. -/
def Client.Keeps (E : Engine Row Loc key S R Fault ε X)
    (May : List (Ev S R Fault ε X) → Item S R Fault ε τ X → Prop)
    (Q : List (Ev S R Fault ε X) → α → Prop) (T : List (Ev S R Fault ε X) → ε → Prop) :
    Client S R ε τ X α → List (Ev S R Fault ε X) → Prop
  | .ret a, log => Q log a
  | .throw e, log => T log e
  | .query s k, log => (∀ f, (k (.error (E.raise f))).Keeps E May Q T (log ++ [.fault f])) ∧
      ∀ env busy d r ws, (E.exec s env busy d).out = .ok (r, ws) →
        May log (.auto s r) ∧ (k (.ok r)).Keeps E May Q T (log ++ [.stmt s r])
  | .txn t body k, log => (∀ f, (k (.error (E.raise f))).Keeps E May Q T (log ++ [.fault f])) ∧
      (∀ evs b, body.Yields E evs b →
        May log (.txn t evs) ∧ (k (.ok b)).Keeps E May Q T (log ++ evs)) ∧
      ∀ e, (k (.error e)).Keeps E May Q T log
  | .call x k, log => May log (.call x (E.answer x)) ∧
      (k (E.answer x)).Keeps E May Q T (log ++ [.call x (E.answer x)])

section Rules

variable {E : Engine Row Loc key S R Fault ε X}
  {May : List (Ev S R Fault ε X) → Item S R Fault ε τ X → Prop}
  {Q : List (Ev S R Fault ε X) → α → Prop} {Q' : List (Ev S R Fault ε X) → β → Prop}
  {T T' : List (Ev S R Fault ε X) → ε → Prop}

omit [DecidableEq Loc] in
theorem Client.Keeps.bind {f : α → Client S R ε τ X β}
    (hf : ∀ log a, Q log a → (f a).Keeps E May Q' T log) :
    ∀ {c : Client S R ε τ X α} {log : List (Ev S R Fault ε X)}, c.Keeps E May Q T log →
      (c >>= f).Keeps E May Q' T log
  | .ret a, log, h => hf log a h
  | .throw _, _, h => h
  | .query _ _, _, h => ⟨fun g => Client.Keeps.bind hf (h.1 g), fun env busy d r ws hout =>
      ⟨(h.2 env busy d r ws hout).1, Client.Keeps.bind hf (h.2 env busy d r ws hout).2⟩⟩
  | .txn _ _ _, _, h => ⟨fun g => Client.Keeps.bind hf (h.1 g), fun evs b hb =>
      ⟨(h.2.1 evs b hb).1, Client.Keeps.bind hf (h.2.1 evs b hb).2⟩,
      fun e => Client.Keeps.bind hf (h.2.2 e)⟩
  | .call _ _, _, h => ⟨h.1, Client.Keeps.bind hf h.2⟩

omit [DecidableEq Loc] in
theorem Client.Keeps.tryCatch {g : ε → Client S R ε τ X α}
    (hg : ∀ log e, T log e → (g e).Keeps E May Q T' log) :
    ∀ {c : Client S R ε τ X α} {log : List (Ev S R Fault ε X)}, c.Keeps E May Q T log →
      (c.tryCatch g).Keeps E May Q T' log
  | .ret _, _, h => h
  | .throw e, log, h => hg log e h
  | .query _ _, _, h => ⟨fun f => Client.Keeps.tryCatch hg (h.1 f), fun env busy d r ws hout =>
      ⟨(h.2 env busy d r ws hout).1, Client.Keeps.tryCatch hg (h.2 env busy d r ws hout).2⟩⟩
  | .txn _ _ _, _, h => ⟨fun f => Client.Keeps.tryCatch hg (h.1 f), fun evs b hb =>
      ⟨(h.2.1 evs b hb).1, Client.Keeps.tryCatch hg (h.2.1 evs b hb).2⟩,
      fun e => Client.Keeps.tryCatch hg (h.2.2 e)⟩
  | .call _ _, _, h => ⟨h.1, Client.Keeps.tryCatch hg h.2⟩

omit [DecidableEq Loc] in
theorem Client.Keeps.imp {May' : List (Ev S R Fault ε X) → Item S R Fault ε τ X → Prop}
    {Q' : List (Ev S R Fault ε X) → α → Prop} (hm : ∀ log it, May log it → May' log it)
    (hq : ∀ log a, Q log a → Q' log a) (ht : ∀ log e, T log e → T' log e) :
    ∀ {c : Client S R ε τ X α} {log : List (Ev S R Fault ε X)}, c.Keeps E May Q T log →
      c.Keeps E May' Q' T' log
  | .ret a, log, h => hq log a h
  | .throw e, log, h => ht log e h
  | .query _ _, _, h => ⟨fun f => Client.Keeps.imp hm hq ht (h.1 f), fun env busy d r ws hout =>
      ⟨hm _ _ (h.2 env busy d r ws hout).1,
        Client.Keeps.imp hm hq ht (h.2 env busy d r ws hout).2⟩⟩
  | .txn _ _ _, _, h => ⟨fun f => Client.Keeps.imp hm hq ht (h.1 f), fun evs b hb =>
      ⟨hm _ _ (h.2.1 evs b hb).1, Client.Keeps.imp hm hq ht (h.2.1 evs b hb).2⟩,
      fun e => Client.Keeps.imp hm hq ht (h.2.2 e)⟩
  | .call _ _, _, h => ⟨hm _ _ h.1, Client.Keeps.imp hm hq ht h.2⟩

omit [DecidableEq Loc] in
theorem Client.Keeps.exec {s : S} {log : List (Ev S R Fault ε X)}
    {Q : List (Ev S R Fault ε X) → R s → Prop}
    (hf : ∀ f, T (log ++ [.fault f]) (E.raise f))
    (hs : ∀ env busy d r ws, (E.exec s env busy d).out = .ok (r, ws) →
      May log (.auto s r) ∧ Q (log ++ [.stmt s r]) r) :
    (Client.exec s : Client S R ε τ X (R s)).Keeps E May Q T log := ⟨hf, hs⟩

omit [DecidableEq Loc] in
theorem Client.Keeps.transaction {t : τ} {body : Body S R ε α} {log : List (Ev S R Fault ε X)}
    (hf : ∀ f, T (log ++ [.fault f]) (E.raise f))
    (hb : ∀ evs b, body.Yields E evs b → May log (.txn t evs) ∧ Q (log ++ evs) b)
    (he : ∀ e, T log e) : (Client.transaction t body).Keeps E May Q T log := ⟨hf, hb, he⟩

omit [DecidableEq Loc] in
theorem Client.Keeps.external {x : X} {log : List (Ev S R Fault ε X)}
    {Q : List (Ev S R Fault ε X) → Unit → Prop} (hm : May log (.call x (E.answer x)))
    (hq : ∀ u, E.answer x = .ok u → Q (log ++ [.call x (E.answer x)]) u)
    (ht : ∀ e, E.answer x = .error e → T (log ++ [.call x (E.answer x)]) e) :
    (Client.external x : Client S R ε τ X Unit).Keeps E May Q T log := by
  refine ⟨hm, ?_⟩
  generalize E.answer x = r at hq ht ⊢
  cases r with
  | ok u => exact hq u rfl
  | error e => exact ht e rfl

end Rules

/-! ## One process -/

/-- The process keeps to `May` from where it stands. -/
def Node.Keeps (E : Engine Row Loc key S R Fault ε X)
    (May : List (Ev S R Fault ε X) → Item S R Fault ε τ X → Prop)
    (Q : List (Ev S R Fault ε X) → α → Prop) (T : List (Ev S R Fault ε X) → ε → Prop)
    (n : Node Row Loc S R Fault ε τ X α) : Prop :=
  match n.proc with
  | .run c => c.Keeps E May Q T n.log
  | .inTx t p body k => (∀ f, (k (.error (E.raise f))).Keeps E May Q T (n.log ++ [.fault f])) ∧
      (∀ evs b, body.Yields E evs b → May n.log (.txn t (p.events ++ evs)) ∧
        (k (.ok b)).Keeps E May Q T (n.log ++ (p.events ++ evs))) ∧
      ∀ e, (k (.error e)).Keeps E May Q T n.log
  | .crashed => True

section Node

variable {E : Engine Row Loc key S R Fault ε X}
  {May : List (Ev S R Fault ε X) → Item S R Fault ε τ X → Prop}
  {Q : List (Ev S R Fault ε X) → α → Prop} {T : List (Ev S R Fault ε X) → ε → Prop}
  {n n' : Node Row Loc S R Fault ε τ X α}

theorem Node.Keeps.step {env : Env} {busy : Loc → Bool} {db : Table Row Loc key}
    {c : Option (Item S R Fault ε τ X × List Row)} (h : n.Keeps E May Q T)
    (hstep : n.step E env busy db = some (n', c)) :
    n'.Keeps E May Q T ∧ ∀ it ws, c = some (it, ws) → May n.log it := by
  obtain ⟨log, proc⟩ := n
  cases proc with
  | crashed => simp [Node.step] at hstep
  | run c =>
    cases c with
    | ret a => simp [Node.step] at hstep
    | throw e => simp [Node.step] at hstep
    | query s k =>
      simp only [Node.step] at hstep
      split at hstep
      · simp at hstep
      split at hstep
      · rename_i r ws hout
        simp only [Option.some.injEq, Prod.mk.injEq] at hstep
        obtain ⟨rfl, rfl⟩ := hstep
        refine ⟨(h.2 _ _ _ _ _ hout).2, ?_⟩
        rintro it ws' ⟨⟩
        exact (h.2 _ _ _ _ _ hout).1
      · simp only [Option.some.injEq, Prod.mk.injEq] at hstep
        obtain ⟨rfl, rfl⟩ := hstep
        exact ⟨h.1 _, by simp⟩
    | txn t body k =>
      simp only [Node.step, Option.some.injEq, Prod.mk.injEq] at hstep
      obtain ⟨rfl, rfl⟩ := hstep
      exact ⟨h, by simp⟩
    | call x k =>
      simp only [Node.step, Option.some.injEq, Prod.mk.injEq] at hstep
      obtain ⟨rfl, rfl⟩ := hstep
      refine ⟨h.2, ?_⟩
      rintro it ws ⟨⟩
      exact h.1
  | inTx t p body k =>
    cases body with
    | ret b =>
      simp only [Node.step, Option.some.injEq, Prod.mk.injEq] at hstep
      obtain ⟨rfl, rfl⟩ := hstep
      have hret := h.2.1 [] b ⟨rfl, rfl⟩
      rw [List.append_nil] at hret
      refine ⟨hret.2, ?_⟩
      rintro it ws ⟨⟩
      exact hret.1
    | throw e =>
      simp only [Node.step, Option.some.injEq, Prod.mk.injEq] at hstep
      obtain ⟨rfl, rfl⟩ := hstep
      exact ⟨h.2.2 e, by simp⟩
    | stmt s k' =>
      simp only [Node.step] at hstep
      split at hstep
      · simp at hstep
      split at hstep
      · rename_i r ws hout
        simp only [Option.some.injEq, Prod.mk.injEq] at hstep
        obtain ⟨rfl, rfl⟩ := hstep
        refine ⟨⟨h.1, ?_, h.2.2⟩, by simp⟩
        intro evs b hb
        have hall := h.2.1 (.stmt s r :: evs) b ⟨_, _, _, r, ws, evs, hout, rfl, hb⟩
        simpa [Priv.add] using hall
      · simp only [Option.some.injEq, Prod.mk.injEq] at hstep
        obtain ⟨rfl, rfl⟩ := hstep
        exact ⟨h.1 _, by simp⟩

omit [DecidableEq Loc] in
theorem Node.Keeps.fail {f : Fault} (h : n.Keeps E May Q T) (hfail : n.fail E f = some n') :
    n'.Keeps E May Q T := by
  obtain ⟨log, proc⟩ := n
  cases proc with
  | crashed => simp [Node.fail] at hfail
  | run c =>
    cases c with
    | ret a => simp [Node.fail] at hfail
    | throw e => simp [Node.fail] at hfail
    | call x k => simp [Node.fail] at hfail
    | query s k =>
      simp only [Node.fail, Option.some.injEq] at hfail
      subst hfail
      exact h.1 f
    | txn t body k =>
      simp only [Node.fail, Option.some.injEq] at hfail
      subst hfail
      exact h.1 f
  | inTx t p body k =>
    simp only [Node.fail, Option.some.injEq] at hfail
    subst hfail
    exact h.1 f

end Node

/-! ## Schedules and their jobs -/

/-- A schedule from the empty store whose steps satisfy `ok`, with its end. -/
inductive Run (E : Engine Row Loc key S R Fault ε X) (program : J → Client S R ε τ X α)
    (ok : Sys Row Loc key S R Fault ε τ X α → Label Fault J →
      Sys Row Loc key S R Fault ε τ X α → Prop) :
    List (Label Fault J) → Sys Row Loc key S R Fault ε τ X α → Prop
  | init : Run E program ok [] .init
  | step {ls s s' l} : Run E program ok ls s → s.step E program l = some s' → ok s l s' →
      Run E program ok (ls ++ [l]) s'

def Label.started : Label Fault J → List J
  | .start j => [j]
  | _ => []

/-- The process a label moves. -/
def Label.mover : Label Fault J → Option ℕ
  | .run i _ => some i
  | .fault i _ => some i
  | .crash i => some i
  | _ => none

/-- The job of each process a schedule has started. -/
def jobs (ls : List (Label Fault J)) : List J := ls.flatMap Label.started

@[simp] theorem jobs_append (ls : List (Label Fault J)) (l : Label Fault J) :
    jobs (ls ++ [l]) = jobs ls ++ l.started := by
  simp [jobs]

/-- One step of the atomic view, attributed to a job. -/
inductive JStep (C : Contract Row Loc key S R Fault ε τ X)
    (May : J → List (Ev S R Fault ε X) → Item S R Fault ε τ X → Prop) :
    List J → Abs Row Loc key S R Fault ε τ X → List J → Abs Row Loc key S R Fault ε τ X → Prop
  | start (js : List J) (a : Abs Row Loc key S R Fault ε τ X) (j : J) (live : Bool) :
      JStep C May js a (js ++ [j]) { a with procs := a.procs ++ [(live, [])] }
  | tick (js : List J) (a : Abs Row Loc key S R Fault ε τ X) (n : ℕ) :
      JStep C May js a js { a with now := a.now + n }
  | commit (js : List J) (a : Abs Row Loc key S R Fault ε τ X) (i : ℕ) (j : J)
      (log : List (Ev S R Fault ε X)) (it : Item S R Fault ε τ X)
      (p : Priv Row Loc S R Fault ε X) (live : Bool) :
      js[i]? = some j → a.procs[i]? = some (true, log) → C.Inv a.db →
      C.Guar log it p a.now a.db → May j log it →
      JStep C May js a js ⟨a.db.install p.writes, a.now, a.procs.set i (live, log ++ it.events),
        a.history ++ [(i, it)]⟩
  | fault (js : List J) (a : Abs Row Loc key S R Fault ε τ X) (i : ℕ)
      (log : List (Ev S R Fault ε X)) (f : Fault) (live : Bool) :
      a.procs[i]? = some (true, log) →
      JStep C May js a js { a with procs := a.procs.set i (live, log ++ [.fault f]) }
  | quiet (js : List J) (a : Abs Row Loc key S R Fault ε τ X) (i : ℕ) (was : Bool)
      (log : List (Ev S R Fault ε X)) (live : Bool) : a.procs[i]? = some (was, log) →
      (live = true → was = true) →
      JStep C May js a js { a with procs := a.procs.set i (live, log) }

/-- An attributed step changes nothing that is committed, or is one commit. -/
theorem JStep.effect {C : Contract Row Loc key S R Fault ε τ X}
    {May : J → List (Ev S R Fault ε X) → Item S R Fault ε τ X → Prop} {js js' : List J}
    {a a' : Abs Row Loc key S R Fault ε τ X} (h : JStep C May js a js' a') :
    (a'.db = a.db ∧ a'.history = a.history) ∨
      ∃ (i : ℕ) (j : J) (log : List (Ev S R Fault ε X)) (it : Item S R Fault ε τ X)
        (p : Priv Row Loc S R Fault ε X), js[i]? = some j ∧ a.procs[i]? = some (true, log) ∧
        C.Guar log it p a.now a.db ∧ May j log it ∧ a'.db = a.db.install p.writes ∧
        a'.history = a.history ++ [(i, it)] := by
  cases h with
  | start | tick | fault | quiet => exact Or.inl ⟨rfl, rfl⟩
  | commit i j log it p live hj hi _ hg hmay =>
    exact Or.inr ⟨i, j, log, it, p, hj, hi, hg, hmay, rfl, rfl⟩

/-- Atomic runs all of whose states after the first satisfy `P`. -/
inductive JReach (C : Contract Row Loc key S R Fault ε τ X)
    (May : J → List (Ev S R Fault ε X) → Item S R Fault ε τ X → Prop)
    (P : List J → Abs Row Loc key S R Fault ε τ X → Prop) :
    List J → Abs Row Loc key S R Fault ε τ X → Prop
  | init : JReach C May P [] .init
  | step {js a js' a'} : JReach C May P js a → JStep C May js a js' a' → P js' a' →
      JReach C May P js' a'

section Runs

variable {E : Engine Row Loc key S R Fault ε X} {program : J → Client S R ε τ X α}
  {C : Contract Row Loc key S R Fault ε τ X}
  {May : J → List (Ev S R Fault ε X) → Item S R Fault ε τ X → Prop}
  {ok : Sys Row Loc key S R Fault ε τ X α → Label Fault J →
    Sys Row Loc key S R Fault ε τ X α → Prop}
  {P : List J → Abs Row Loc key S R Fault ε τ X → Prop}

/-- An initial fact that every attributed step keeps holds throughout. -/
theorem JReach.invariant (I : List J → Abs Row Loc key S R Fault ε τ X → Prop) (h0 : I [] .init)
    (hstep : ∀ js a js' a', JReach C May P js a → I js a → JStep C May js a js' a' → P js' a' →
      I js' a')
    {js : List J} {a : Abs Row Loc key S R Fault ε τ X} (h : JReach C May P js a) : I js a := by
  induction h with
  | init => exact h0
  | step hr hs hp ih => exact hstep _ _ _ _ hr ih hs hp

/-- Every process has a job, and only processes commit. -/
theorem JReach.sized {js : List J} {a : Abs Row Loc key S R Fault ε τ X}
    (h : JReach C May P js a) :
    js.length = a.procs.length ∧ ∀ x ∈ a.history, x.1 < js.length := by
  induction h with
  | init => exact ⟨rfl, by simp [Abs.init]⟩
  | step _ hs _ ih =>
  obtain ⟨hlen, hknown⟩ := ih
  cases hs with
  | start j live =>
    refine ⟨by simp [hlen], ?_⟩
    intro x hx
    have := hknown x hx
    simp only [List.length_append, List.length_singleton]
    omega
  | tick n => exact ⟨hlen, hknown⟩
  | fault i log f live _ => exact ⟨by simp [hlen], hknown⟩
  | quiet i was log live _ _ => exact ⟨by simp [hlen], hknown⟩
  | commit i j log it p live hj _ _ _ _ =>
    refine ⟨by simp [hlen], ?_⟩
    intro x hx
    rcases List.mem_append.mp hx with hx | hx
    · exact hknown x hx
    · rw [List.mem_singleton] at hx
      subst hx
      exact (List.getElem?_eq_some_iff.mp hj).1

/-- What has been committed was allowed to a job. -/
theorem JReach.may_of_mem {js : List J} {a : Abs Row Loc key S R Fault ε τ X}
    (h : JReach C May P js a) {i : ℕ} {it : Item S R Fault ε τ X} (hmem : (i, it) ∈ a.history) :
    ∃ j log, js[i]? = some j ∧ May j log it := by
  induction h with
  | init => simp [Abs.init] at hmem
  | @step js a js' a' hr hs _ ih =>
    cases hs with
    | start j live =>
      obtain ⟨j', log, hj', hmay⟩ := ih hmem
      have hlt := (List.getElem?_eq_some_iff.mp hj').1
      exact ⟨j', log, by rw [List.getElem?_append_left hlt, hj'], hmay⟩
    | tick n => exact ih hmem
    | fault i log f live _ => exact ih hmem
    | quiet i was log live _ _ => exact ih hmem
    | commit i' j log it' p live hj _ _ _ hmay =>
      rcases List.mem_append.mp hmem with hmem | hmem
      · exact ih hmem
      · rw [List.mem_singleton, Prod.mk.injEq] at hmem
        obtain ⟨rfl, rfl⟩ := hmem
        exact ⟨j, log, hj, hmay⟩

/-- A process keeps its job, and does not go away. -/
theorem JStep.stays {js js' : List J} {a a' : Abs Row Loc key S R Fault ε τ X}
    (hs : JStep C May js a js' a') (hlen : js.length = a.procs.length) {i : ℕ} {j : J}
    {q : Bool × List (Ev S R Fault ε X)} (hj : js[i]? = some j) (hq : a.procs[i]? = some q) :
    js'[i]? = some j ∧ ∃ q', a'.procs[i]? = some q' := by
  have hset : ∀ (k : ℕ) (p : Bool × List (Ev S R Fault ε X)),
      ∃ q', (a.procs.set k p)[i]? = some q' := by
    intro k p
    have hlt : i < (a.procs.set k p).length := by
      rw [List.length_set]
      exact (List.getElem?_eq_some_iff.mp hq).1
    exact ⟨_, List.getElem?_eq_getElem hlt⟩
  cases hs with
  | start j' live =>
    have hlt := (List.getElem?_eq_some_iff.mp hj).1
    refine ⟨by rw [List.getElem?_append_left hlt, hj], q, ?_⟩
    rw [List.getElem?_append_left (hlen ▸ hlt), hq]
  | tick n => exact ⟨hj, q, hq⟩
  | fault | quiet | commit => exact ⟨hj, hset _ _⟩

/-- A process that is not running stays as it is. -/
theorem JStep.dead {js js' : List J} {a a' : Abs Row Loc key S R Fault ε τ X}
    (hs : JStep C May js a js' a') {i : ℕ} {log : List (Ev S R Fault ε X)}
    (hi : a.procs[i]? = some (false, log)) : a'.procs[i]? = some (false, log) := by
  -- another process has moved
  have hset : ∀ {k : ℕ} {log' : List (Ev S R Fault ε X)} (p : Bool × List (Ev S R Fault ε X)),
      a.procs[k]? = some (true, log') → (a.procs.set k p)[i]? = some (false, log) := by
    intro k log' p hk
    rw [List.getElem?_set_ne ?_, hi]
    rintro rfl
    rw [hi] at hk
    cases hk
  cases hs with
  | start j live =>
    rw [List.getElem?_append_left (List.getElem?_eq_some_iff.mp hi).1, hi]
  | tick n => exact hi
  | fault k log' f live hk => exact hset _ hk
  | commit k j log' it p live _ hk => exact hset _ hk
  | quiet k was log' live hk hlive =>
    cases was with
    | true => exact hset _ hk
    | false =>
      by_cases hik : k = i
      · subst hik
        rw [hi] at hk
        cases hk
        cases live with
        | true => cases hlive rfl
        | false =>
          show (a.procs.set k (false, log))[k]? = _
          rw [List.getElem?_set_self (List.getElem?_eq_some_iff.mp hi).1]
      · show (a.procs.set k (live, log'))[i]? = _
        rw [List.getElem?_set_ne hik, hi]

/-- What one step does to a fact about each process: its job, what it has observed,
and what has been committed. -/
theorem JStep.each {F : ℕ → J → List (Ev S R Fault ε X) → List (ℕ × Item S R Fault ε τ X) → Prop}
    {js js' : List J} {a a' : Abs Row Loc key S R Fault ε τ X} (hs : JStep C May js a js' a')
    (hlen : js.length = a.procs.length) (h0 : ∀ j, F js.length j [] a.history)
    (hfault : ∀ i j log f, F i j log a.history → F i j (log ++ [.fault f]) a.history)
    (hcommit : ∀ i j log it p, js[i]? = some j → a.procs[i]? = some (true, log) →
      C.Guar log it p a.now a.db → May j log it → a'.history = a.history ++ [(i, it)] →
      a'.db = a.db.install p.writes → F i j log a.history → F i j (log ++ it.events) a'.history)
    (hother : ∀ i j log k log' it, k ≠ i → a.procs[k]? = some (true, log') →
      a'.history = a.history ++ [(k, it)] → F i j log a.history → F i j log a'.history)
    (h : ∀ (i : ℕ) (j : J) (p : Bool × List (Ev S R Fault ε X)), js[i]? = some j →
      a.procs[i]? = some p → F i j p.2 a.history) :
    ∀ (i : ℕ) (j : J) (p : Bool × List (Ev S R Fault ε X)), js'[i]? = some j →
      a'.procs[i]? = some p → F i j p.2 a'.history := by
  -- a process that has moved, among those that have not
  have hset : ∀ {i : ℕ} {was live : Bool} {log log' : List (Ev S R Fault ε X)}
      {hist : List (ℕ × Item S R Fault ε τ X)}, a.procs[i]? = some (was, log) →
      (∀ j, js[i]? = some j → F i j log a.history → F i j log' hist) →
      (∀ k j log, i ≠ k → F k j log a.history → F k j log hist) →
      ∀ (k : ℕ) (j : J) (p : Bool × List (Ev S R Fault ε X)), js[k]? = some j →
        (a.procs.set i (live, log'))[k]? = some p → F k j p.2 hist := by
    intro i was live log log' hist hi hmove hrest k j p hj hk
    rw [List.getElem?_set] at hk
    split at hk
    · rename_i hik
      subst hik
      split at hk
      · cases hk
        exact hmove j hj (h i j _ hj hi)
      · simp at hk
    · rename_i hik
      exact hrest k j _ hik (h k j p hj hk)
  cases hs with
  | start j live =>
    intro k j' p hj' hk
    rw [List.getElem?_append] at hj' hk
    rw [hlen] at hj'
    split at hk
    · rename_i hlt
      rw [if_pos hlt] at hj'
      exact h k j' p hj' hk
    · rename_i hlt
      rw [if_neg hlt] at hj'
      rw [List.getElem?_singleton] at hk
      split at hk
      · cases hk
        obtain rfl : k = js.length := by omega
        exact h0 j'
      · simp at hk
  | tick n => exact h
  | fault i log f live hi => exact hset hi (fun j _ => hfault i j log f) (fun _ _ _ _ h => h)
  | quiet i was log live hi _ => exact hset hi (fun _ _ hF => hF) (fun _ _ _ _ h => h)
  | commit i j log it p live hj hi _ hg hmay =>
    refine hset hi ?_ (fun k j log' hik => hother k j log' i log it hik hi rfl)
    intro j' hj' hF
    rw [hj] at hj'
    cases hj'
    exact hcommit i j log it p hj hi hg hmay rfl rfl hF

/-- A fact about each process by itself: its job, what it has observed, and what
it has committed. -/
theorem JReach.each_committed
    {F : ℕ → J → List (Ev S R Fault ε X) → List (ℕ × Item S R Fault ε τ X) → Prop}
    (h0 : ∀ i j hist, (∀ x ∈ hist, x.1 < i) → F i j [] hist)
    (hfault : ∀ i j log f hist, F i j log hist → F i j (log ++ [.fault f]) hist)
    (hcommit : ∀ js a i j log it p now d hist, P js a → (i, it) ∈ a.history →
      C.Guar log it p now d → May j log it → F i j log hist →
      F i j (log ++ it.events) (hist ++ [(i, it)]))
    (hother : ∀ i j log k it hist, k ≠ i → F i j log hist → F i j log (hist ++ [(k, it)]))
    {js : List J} {a : Abs Row Loc key S R Fault ε τ X} (h : JReach C May P js a) :
    ∀ (i : ℕ) (j : J) (p : Bool × List (Ev S R Fault ε X)), js[i]? = some j →
      a.procs[i]? = some p → F i j p.2 a.history := by
  induction h with
  | init =>
    intro i j p hj
    simp at hj
  | @step js a js' a' hr hs hp ih =>
    obtain ⟨hlen, hknown⟩ := hr.sized
    refine hs.each hlen ?_ (fun i j log f => hfault i j log f _) ?_ ?_ ih
    · exact fun j => h0 _ j _ hknown
    · intro i j log it p _ _ hg hmay hlast _ hF
      rw [hlast]
      exact hcommit _ a' i j log it p _ _ _ hp (by simp [hlast]) hg hmay hF
    · intro i j log k _ it hik _ hlast hF
      rw [hlast]
      exact hother i j log k it _ hik hF

/-- A fact about each process by itself: its job, and what it has observed. -/
theorem JReach.each {F : J → List (Ev S R Fault ε X) → Prop} (h0 : ∀ j, F j [])
    (hfault : ∀ j log f, F j log → F j (log ++ [.fault f]))
    (hcommit : ∀ js a i j log it p now d, P js a → (i, it) ∈ a.history → C.Guar log it p now d →
      May j log it → F j log → F j (log ++ it.events))
    {js : List J} {a : Abs Row Loc key S R Fault ε τ X} (h : JReach C May P js a) :
    ∀ (i : ℕ) (j : J) (p : Bool × List (Ev S R Fault ε X)), js[i]? = some j →
      a.procs[i]? = some p → F j p.2 := by
  refine JReach.each_committed (F := fun _ j log _ => F j log) ?_ ?_ ?_ ?_ h
  · exact fun _ j _ _ => h0 j
  · exact fun _ j log f _ => hfault j log f
  · exact fun js a i j log it p now d _ hp hmem hg hmay =>
      hcommit js a i j log it p now d hp hmem hg hmay
  · exact fun _ _ _ _ _ _ _ hF => hF

theorem Run.reach {ls : List (Label Fault J)} {s : Sys Row Loc key S R Fault ε τ X α}
    (h : Run E program ok ls s) : Reach E program ok s := by
  induction h with
  | init => exact .init
  | step _ hstep hok ih => exact .step ih hstep hok

/-- A schedule that the semantics accepts is a run. -/
theorem Run.of_run : ∀ {ls ls' : List (Label Fault J)} {s s' : Sys Row Loc key S R Fault ε τ X α},
    Run E program (fun _ _ _ => True) ls s → s.run E program ls' = some s' →
    Run E program (fun _ _ _ => True) (ls ++ ls') s'
  | ls, [], s, s', hs, h => by
      simp only [Sys.run, Option.some.injEq] at h
      rw [List.append_nil]
      exact h ▸ hs
  | ls, l :: ls', s, s', hs, h => by
      simp only [Sys.run, Option.bind_eq_some_iff] at h
      obtain ⟨m, hm, hrest⟩ := h
      rw [List.append_cons]
      exact Run.of_run (.step hs hm trivial) hrest

/-- So is one all of whose steps pass a test. -/
theorem Run.of_runWhile {test : Sys Row Loc key S R Fault ε τ X α →
      Label Fault J → Sys Row Loc key S R Fault ε τ X α → Bool} :
    ∀ {ls ls' : List (Label Fault J)} {s s' : Sys Row Loc key S R Fault ε τ X α},
    Run E program (fun s l m => test s l m = true) ls s →
    s.runWhile E program test ls' = some s' →
    Run E program (fun s l m => test s l m = true) (ls ++ ls') s'
  | ls, [], s, s', hs, h => by
      simp only [Sys.runWhile, Option.some.injEq] at h
      rw [List.append_nil]
      exact h ▸ hs
  | ls, l :: ls', s, s', hs, h => by
      simp only [Sys.runWhile, Option.bind_eq_some_iff] at h
      obtain ⟨m, hm, hrest⟩ := h
      split at hrest
      · rename_i htest
        rw [List.append_cons]
        exact Run.of_runWhile (.step hs hm htest) hrest
      · simp at hrest

/-- Every reachable state has a schedule. -/
theorem Reach.exists_run {s : Sys Row Loc key S R Fault ε τ X α} (h : Reach E program ok s) :
    ∃ ls, Run E program ok ls s := by
  induction h with
  | init => exact ⟨[], .init⟩
  | step _ hstep hok ih =>
    obtain ⟨ls, hrun⟩ := ih
    exact ⟨_, .step hrun hstep hok⟩

variable {Q : J → List (Ev S R Fault ε X) → α → Prop} {T : J → List (Ev S R Fault ε X) → ε → Prop}

/-- Every process of a run keeps to what its job may do. -/
theorem Run.keeps (hprog : ∀ j, (program j).Keeps E (May j) (Q j) (T j) [])
    {ls : List (Label Fault J)} {s : Sys Row Loc key S R Fault ε τ X α}
    (h : Run E program ok ls s) :
    List.Forall₂ (fun j n => Node.Keeps E (May j) (Q j) (T j) n) (jobs ls) s.nodes := by
  induction h with
  | init => exact List.Forall₂.nil
  | @step ls s s' l _ hstep _ ih =>
    have hset : ∀ {i : ℕ} {n n' : Node Row Loc S R Fault ε τ X α}, s.nodes[i]? = some n →
        (∀ j, n.Keeps E (May j) (Q j) (T j) → n'.Keeps E (May j) (Q j) (T j)) →
        List.Forall₂ (fun j n => Node.Keeps E (May j) (Q j) (T j) n) (jobs ls)
          (s.nodes.set i n') := by
      intro i n n' hn hkeep
      rw [List.forall₂_iff_get] at ih ⊢
      refine ⟨by simpa using ih.1, ?_⟩
      intro k hk hk'
      simp only [List.get_eq_getElem, List.getElem_set]
      split
      · rename_i hik
        subst hik
        apply hkeep
        have hold := ih.2 i hk (by simpa using hk')
        obtain ⟨hi, hni⟩ := List.getElem?_eq_some_iff.mp hn
        simpa [hni] using hold
      · exact ih.2 k hk (by simpa using hk')
    rw [jobs_append]
    cases l with
    | start j =>
      simp only [Sys.step, Option.some.injEq] at hstep
      subst hstep
      exact List.rel_append ih (List.Forall₂.cons (hprog j) List.Forall₂.nil)
    | tick n =>
      simp only [Sys.step, Option.some.injEq] at hstep
      subst hstep
      simpa [Label.started] using ih
    | crash i =>
      simp only [Sys.step, Option.map_eq_some_iff] at hstep
      obtain ⟨n, hn, rfl⟩ := hstep
      have hcrash : ∀ j, n.Keeps E (May j) (Q j) (T j) →
          Node.Keeps E (May j) (Q j) (T j) { n with proc := .crashed } := fun _ _ => trivial
      simpa [Label.started, Sys.advance] using hset hn hcrash
    | fault i f =>
      simp only [Sys.step] at hstep
      split at hstep
      · simp at hstep
      · rename_i n hn
        obtain ⟨n', hn', rfl⟩ := Option.map_eq_some_iff.mp hstep
        simpa [Label.started, Sys.advance] using hset hn (fun j hj => hj.fail hn')
    | run i u =>
      simp only [Sys.step] at hstep
      split at hstep
      · simp at hstep
      · rename_i n hn
        obtain ⟨⟨n', c⟩, hn', rfl⟩ := Option.map_eq_some_iff.mp hstep
        simpa [Label.started, Sys.advance] using hset hn (fun j hj => (hj.step hn').1)

/-- One step of a run is one attributed atomic step. -/
theorem Sys.Safe.jstep {side} (hC : C.Lawful side)
    {post : α → List (Ev S R Fault ε X) → Table Row Loc key → Prop}
    {epost : ε → List (Ev S R Fault ε X) → Table Row Loc key → Prop}
    {s s' : Sys Row Loc key S R Fault ε τ X α} {l : Label Fault J} {js : List J}
    (h : s.Safe E C post epost)
    (hk : List.Forall₂ (fun j n => Node.Keeps E (May j) (Q j) (T j) n) js s.nodes)
    (hstep : s.step E program l = some s') : JStep C May js s.abs (js ++ l.started) s'.abs := by
  have habs : ∀ (i : ℕ) (n : Node Row Loc S R Fault ε τ X α), s.nodes[i]? = some n →
      s.abs.procs[i]? = some (n.live, n.log) := by
    intro i n hn
    simp [Sys.abs, hn]
  cases l with
  | start j =>
    simp only [Sys.step, Option.some.injEq] at hstep
    subst hstep
    have hstart : JStep C May js s.abs (js ++ [j]) _ := .start js s.abs j
      (Node.live (⟨[], .run (program j)⟩ : Node Row Loc S R Fault ε τ X α))
    simpa [Sys.abs, Label.started] using hstart
  | tick n =>
    simp only [Sys.step, Option.some.injEq] at hstep
    subst hstep
    show JStep C May js s.abs (js ++ []) _
    rw [List.append_nil]
    exact JStep.tick js s.abs n
  | crash i =>
    simp only [Sys.step, Option.map_eq_some_iff] at hstep
    obtain ⟨n, hn, rfl⟩ := hstep
    show JStep C May js s.abs (js ++ []) _
    rw [Sys.abs_advance_quiet, List.append_nil]
    exact JStep.quiet js s.abs i n.live n.log _ (habs i n hn) (by simp [Node.live])
  | fault i f =>
    simp only [Sys.step] at hstep
    split at hstep
    · simp at hstep
    · rename_i n hn
      obtain ⟨n', hn', rfl⟩ := Option.map_eq_some_iff.mp hstep
      obtain ⟨hlive, hlog⟩ := Node.fail_log hn'
      show JStep C May js s.abs (js ++ []) _
      rw [Sys.abs_advance_quiet, hlog, List.append_nil]
      exact JStep.fault js s.abs i n.log f _ (hlive ▸ habs i n hn)
  | run i u =>
    simp only [Sys.step] at hstep
    split at hstep
    · simp at hstep
    · rename_i n hn
      obtain ⟨⟨n', c⟩, hn', rfl⟩ := Option.map_eq_some_iff.mp hstep
      obtain ⟨_, _, hrest⟩ :=
        (h.nodes i n hn).step hC h.inv (h.locked.covered i n hn) hn'
      show JStep C May js s.abs (js ++ []) _
      rw [List.append_nil]
      cases c with
      | none =>
        obtain ⟨hlog, hlive, _⟩ := hrest
        rw [Sys.abs_advance_quiet]
        rcases hlog with hlog | ⟨f, hlog⟩
        · rw [hlog]
          exact JStep.quiet js s.abs i true n.log _ (hlive ▸ habs i n hn) (fun _ => rfl)
        · rw [hlog]
          exact JStep.fault js s.abs i n.log f _ (hlive ▸ habs i n hn)
      | some itws =>
        obtain ⟨it, ws⟩ := itws
        obtain ⟨hlog, hlive, ⟨p, rfl, hg, _, _⟩, _⟩ := hrest
        rw [List.forall₂_iff_get] at hk
        obtain ⟨hi, hni⟩ := List.getElem?_eq_some_iff.mp hn
        have hij : i < js.length := hk.1 ▸ hi
        have hmay : May js[i] n.log it := by
          have hkeep := hk.2 i hij hi
          simp only [List.get_eq_getElem, hni] at hkeep
          exact (hkeep.step hn').2 it p.writes rfl
        have hcommit : JStep C May js s.abs js _ := .commit js s.abs i js[i] n.log it p n'.live
          (List.getElem?_eq_getElem hij) (hlive ▸ habs i n hn) h.inv hg hmay
        simpa [Sys.abs, Sys.advance, List.map_set, hlog] using hcommit

/-- **Refinement.** A run is an atomic run of its jobs. -/
theorem Run.refines {side} (hC : C.Lawful side) (hinit : C.Inv .empty)
    {post : α → List (Ev S R Fault ε X) → Table Row Loc key → Prop}
    {epost : ε → List (Ev S R Fault ε X) → Table Row Loc key → Prop}
    (hprog : ∀ j d, C.Inv d → (program j).Safe E C post epost [] d)
    (hkeep : ∀ j, (program j).Keeps E (May j) (Q j) (T j) []) (hside : SideOk E side ok)
    {P : List J → Abs Row Loc key S R Fault ε τ X → Prop}
    (hP : ∀ ls s l s', Run E program ok ls s → ok s l s' → s.step E program l = some s' →
      P (jobs ls ++ l.started) s'.abs)
    {ls : List (Label Fault J)} {s : Sys Row Loc key S R Fault ε τ X α}
    (h : Run E program ok ls s) : JReach C May P (jobs ls) s.abs := by
  induction h with
  | init => exact .init
  | step hr hstep hok ih =>
    rw [jobs_append]
    exact .step ih ((hr.reach.safe hC hinit hprog hside).jstep hC (hr.keeps hkeep) hstep)
      (hP _ _ _ _ hr hok hstep)

end Runs

/-! ## Sums over the processes -/

/-- The sum over all processes of a quantity of their jobs and observations. -/
def tally (f : J → List (Ev S R Fault ε X) → ℕ) (js : List J)
    (procs : List (Bool × List (Ev S R Fault ε X))) : ℕ :=
  (List.zipWith (fun j p => f j p.2) js procs).sum

section Tally

variable {f g : J → List (Ev S R Fault ε X) → ℕ} {j j' : J} {was was' live : Bool}
  {log log' : List (Ev S R Fault ε X)}

theorem tally_append {js : List J} {procs : List (Bool × List (Ev S R Fault ε X))}
    (h : js.length = procs.length) :
    tally f (js ++ [j]) (procs ++ [(live, log)]) = tally f js procs + f j log := by
  rw [tally, List.zipWith_append h, List.sum_append]
  simp [tally]

theorem tally_set : ∀ {js : List J} {procs : List (Bool × List (Ev S R Fault ε X))} {i : ℕ},
    js[i]? = some j → procs[i]? = some (was, log) →
    tally f js (procs.set i (live, log')) + f j log = tally f js procs + f j log'
  | [], _, _, hj, _ => by simp at hj
  | _ :: _, [], _, _, hp => by simp at hp
  | k :: js, p :: procs, 0, hj, hp => by
      simp only [List.getElem?_cons_zero, Option.some.injEq] at hj hp
      subst hj hp
      simp only [tally, List.set_cons_zero, List.zipWith_cons_cons, List.sum_cons]
      omega
  | k :: js, p :: procs, i + 1, hj, hp => by
      simp only [List.getElem?_cons_succ] at hj hp
      have ih := tally_set hj hp
      simp only [tally, List.set_cons_succ, List.zipWith_cons_cons, List.sum_cons] at ih ⊢
      omega

theorem tally_set_same {js : List J} {procs : List (Bool × List (Ev S R Fault ε X))} {i : ℕ}
    (hlen : js.length = procs.length) (hp : procs[i]? = some (was, log))
    (h : ∀ j, f j log' = f j log) : tally f js (procs.set i (live, log')) = tally f js procs := by
  obtain ⟨hlt, -⟩ := List.getElem?_eq_some_iff.mp hp
  rw [← hlen] at hlt
  have hset : tally f js (procs.set i (live, log')) + f js[i] log =
      tally f js procs + f js[i] log' := tally_set (List.getElem?_eq_getElem hlt) hp
  rw [h] at hset
  omega

/-- A quantity of the jobs alone. -/
theorem tally_jobs {g : J → ℕ} : ∀ {js : List J} {procs : List (Bool × List (Ev S R Fault ε X))},
    js.length = procs.length → tally (fun j _ => g j) js procs = (js.map g).sum
  | [], _, _ => by simp [tally]
  | j :: js, p :: procs, hlen => by
      have htail : tally (fun j _ => g j) js procs = (js.map g).sum :=
        tally_jobs (Nat.succ.inj hlen)
      simp only [tally, List.zipWith_cons_cons, List.map_cons, List.sum_cons] at htail ⊢
      rw [htail]

theorem tally_le : ∀ {js : List J} {procs : List (Bool × List (Ev S R Fault ε X))},
    (∀ (i : ℕ) (j : J) (p : Bool × List (Ev S R Fault ε X)), js[i]? = some j →
      procs[i]? = some p → f j p.2 ≤ g j p.2) → tally f js procs ≤ tally g js procs
  | [], _, _ => by simp [tally]
  | _ :: _, [], _ => by simp [tally]
  | j :: js, p :: procs, h => by
      have hhead := h 0 j p rfl rfl
      have htail : tally f js procs ≤ tally g js procs :=
        tally_le (fun i j' p' hj hp => h (i + 1) j' p' hj hp)
      simp only [tally, List.zipWith_cons_cons, List.sum_cons] at htail ⊢
      omega

theorem le_tally : ∀ {js : List J} {procs : List (Bool × List (Ev S R Fault ε X))} {i : ℕ},
    js[i]? = some j → procs[i]? = some (was, log) → f j log ≤ tally f js procs
  | [], _, _, hj, _ => by simp at hj
  | _ :: _, [], _, _, hp => by simp at hp
  | k :: js, p :: procs, 0, hj, hp => by
      simp only [List.getElem?_cons_zero, Option.some.injEq] at hj hp
      subst hj hp
      simp [tally]
  | k :: js, p :: procs, i + 1, hj, hp => by
      simp only [List.getElem?_cons_succ] at hj hp
      have ih := le_tally hj hp
      simp only [tally, List.zipWith_cons_cons, List.sum_cons] at ih ⊢
      omega

theorem exists_of_tally_pos : ∀ {js : List J} {procs : List (Bool × List (Ev S R Fault ε X))},
    0 < tally f js procs → ∃ (i : ℕ) (j : J) (p : Bool × List (Ev S R Fault ε X)),
      js[i]? = some j ∧ procs[i]? = some p ∧ 0 < f j p.2
  | [], _, h => by simp [tally] at h
  | _ :: _, [], h => by simp [tally] at h
  | j :: js, p :: procs, h => by
      by_cases hpos : 0 < f j p.2
      · exact ⟨0, j, p, rfl, rfl, hpos⟩
      · have htail : 0 < tally f js procs := by
          simp only [tally, List.zipWith_cons_cons, List.sum_cons] at h ⊢
          omega
        obtain ⟨i, j', p', hj, hp, hf⟩ := exists_of_tally_pos htail
        exact ⟨i + 1, j', p', hj, hp, hf⟩

/-- Two processes contribute separately. -/
theorem add_le_tally : ∀ {js : List J} {procs : List (Bool × List (Ev S R Fault ε X))}
    {i i' : ℕ}, i ≠ i' → js[i]? = some j → procs[i]? = some (was, log) → js[i']? = some j' →
    procs[i']? = some (was', log') → f j log + f j' log' ≤ tally f js procs
  | [], _, _, _, _, hj, _, _, _ => by simp at hj
  | _ :: _, [], _, _, _, _, hp, _, _ => by simp at hp
  | k :: js, p :: procs, 0, 0, hne, _, _, _, _ => absurd rfl hne
  | k :: js, p :: procs, 0, i' + 1, _, hj, hp, hj', hp' => by
      simp only [List.getElem?_cons_zero, List.getElem?_cons_succ, Option.some.injEq]
        at hj hp hj' hp'
      subst hj hp
      have hle := le_tally (f := f) hj' hp'
      simp only [tally, List.zipWith_cons_cons, List.sum_cons] at hle ⊢
      omega
  | k :: js, p :: procs, i + 1, 0, _, hj, hp, hj', hp' => by
      simp only [List.getElem?_cons_zero, List.getElem?_cons_succ, Option.some.injEq]
        at hj hp hj' hp'
      subst hj' hp'
      have hle := le_tally (f := f) hj hp
      simp only [tally, List.zipWith_cons_cons, List.sum_cons] at hle ⊢
      omega
  | k :: js, p :: procs, i + 1, i' + 1, hne, hj, hp, hj', hp' => by
      simp only [List.getElem?_cons_succ] at hj hp hj' hp'
      have hle := add_le_tally (fun e => hne (congrArg _ e)) hj hp hj' hp'
      simp only [tally, List.zipWith_cons_cons, List.sum_cons] at hle ⊢
      omega

/-- Only one process has a share of a sum of one. -/
theorem eq_of_tally_le_one {js : List J} {procs : List (Bool × List (Ev S R Fault ε X))}
    {i i' : ℕ} (h : tally f js procs ≤ 1) (hj : js[i]? = some j)
    (hp : procs[i]? = some (was, log)) (hf : 1 ≤ f j log) (hj' : js[i']? = some j')
    (hp' : procs[i']? = some (was', log')) (hf' : 1 ≤ f j' log') : i = i' := by
  by_contra hne
  have hle := add_le_tally (f := f) hne hj hp hj' hp'
  omega

end Tally

end TxStore
