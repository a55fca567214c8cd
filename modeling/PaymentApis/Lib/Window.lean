import PaymentApis.Lib.Conduct

/-!
# Inside one transaction

What a process does between BEGIN and the end of one transaction. `Body.Issues`
says of a body, by itself, which statements it issues after which observations.
`Stays` is a schedule during which a process stays in one transaction; every
observation of the transaction was made at a state inside it, and what has
changed in the store between two such states was committed by another process.
-/

namespace TxStore

variable {Row Loc : Type} [DecidableEq Loc] {key : Row → Loc} {S : Type} {R : S → Type}
  {Fault ε τ X J α β γ : Type}

/-- The open transaction of a process: its name and its private part. -/
def Node.txn? (n : Node Row Loc S R Fault ε τ X α) : Option (τ × Priv Row Loc S R Fault ε X) :=
  match n.proc with
  | .inTx t p _ _ => some (t, p)
  | _ => none

/-- The error that an open transaction is about to throw. -/
def Node.throws? (n : Node Row Loc S R Fault ε τ X α) :
    Option (τ × Priv Row Loc S R Fault ε X × ε) :=
  match n.proc with
  | .inTx t p (.throw e) _ => some (t, p, e)
  | _ => none

def Sys.txn? (s : Sys Row Loc key S R Fault ε τ X α) (i : ℕ) :
    Option (τ × Priv Row Loc S R Fault ε X) :=
  s.nodes[i]?.bind Node.txn?

omit [DecidableEq Loc] in
theorem Node.priv_of_txn? {n : Node Row Loc S R Fault ε τ X α} {t : τ}
    {p : Priv Row Loc S R Fault ε X} (h : n.txn? = some (t, p)) : n.priv = p := by
  unfold Node.txn? at h
  split at h
  · rename_i hproc
    simp only [Option.some.injEq, Prod.mk.injEq] at h
    rw [Node.priv, hproc]
    exact h.2
  · simp at h

omit [DecidableEq Loc] in
theorem Node.locks_of_txn? {n : Node Row Loc S R Fault ε τ X α} {t : τ}
    {p : Priv Row Loc S R Fault ε X} (h : n.txn? = some (t, p)) : n.locks = p.locks := by
  unfold Node.txn? at h
  split at h
  · rename_i hproc
    simp only [Option.some.injEq, Prod.mk.injEq] at h
    rw [Node.locks, hproc]
    exact congrArg Priv.locks h.2
  · simp at h

omit [DecidableEq Loc] in
theorem Node.txn?_of_throws {n : Node Row Loc S R Fault ε τ X α} {t : τ}
    {p : Priv Row Loc S R Fault ε X} {e : ε} (h : n.throws? = some (t, p, e)) :
    n.txn? = some (t, p) := by
  unfold Node.throws? at h
  split at h
  · rename_i hproc
    simp only [Option.some.injEq, Prod.mk.injEq] at h
    obtain ⟨rfl, rfl, -⟩ := h
    rw [Node.txn?, hproc]
  · simp at h

/-! ## What a body issues -/

section Issues

variable (E : Engine Row Loc key S R Fault ε X)
  (Ok : τ → Priv Row Loc S R Fault ε X → S → Prop)
  (Thrown : τ → Priv Row Loc S R Fault ε X → ε → Prop)

/-- Every statement the body issues is `Ok`, and every error it throws `Thrown`,
after what it has observed; the rows it acts on are arbitrary. -/
def Body.Issues (Ok : Priv Row Loc S R Fault ε X → S → Prop)
    (Thrown : Priv Row Loc S R Fault ε X → ε → Prop) :
    Body S R ε β → Priv Row Loc S R Fault ε X → Prop
  | .ret _, _ => True
  | .throw e, p => Thrown p e
  | .stmt s k, p => Ok p s ∧ ∀ env busy d r ws, (E.exec s env busy d).out = .ok (r, ws) →
      (k r).Issues Ok Thrown (p.add s r ((E.exec s env busy d).locked key) ws)

/-- The process only opens transactions that issue what they may, and so does
the one it has open. -/
def Node.Issues (n : Node Row Loc S R Fault ε τ X α) : Prop :=
  match n.proc with
  | .run c => c.Opens (fun _ t b => b.Issues E (Ok t) (Thrown t) .begin)
  | .inTx t p body k => body.Issues E (Ok t) (Thrown t) p ∧
      ∀ r, (k r).Opens (fun _ t b => b.Issues E (Ok t) (Thrown t) .begin)
  | .crashed => True

end Issues

section Node

variable {E : Engine Row Loc key S R Fault ε X}
  {Ok : τ → Priv Row Loc S R Fault ε X → S → Prop}
  {Thrown : τ → Priv Row Loc S R Fault ε X → ε → Prop}
  {n n' : Node Row Loc S R Fault ε τ X α} {env : Env} {busy : Loc → Bool}
  {db : Table Row Loc key} {c : Option (Item S R Fault ε τ X × List Row)} {t t' : τ}
  {p p' : Priv Row Loc S R Fault ε X}

omit [DecidableEq Loc] in
theorem Body.Issues.of_forall {Ok : Priv Row Loc S R Fault ε X → S → Prop}
    {Thrown : Priv Row Loc S R Fault ε X → ε → Prop} (hok : ∀ p s, Ok p s)
    (hthrown : ∀ p e, Thrown p e) : ∀ {b : Body S R ε β} {p : Priv Row Loc S R Fault ε X},
      b.Issues E Ok Thrown p
  | .ret _, _ => trivial
  | .throw e, p => hthrown p e
  | .stmt s _, p => ⟨hok p s, fun _ _ _ _ _ _ => Body.Issues.of_forall hok hthrown⟩

omit [DecidableEq Loc] in
theorem Body.Issues.bind {Ok : Priv Row Loc S R Fault ε X → S → Prop}
    {Thrown : Priv Row Loc S R Fault ε X → ε → Prop} {f : β → Body S R ε γ}
    (hf : ∀ a p, (f a).Issues E Ok Thrown p) : ∀ {b : Body S R ε β}
      {p : Priv Row Loc S R Fault ε X}, b.Issues E Ok Thrown p → (b >>= f).Issues E Ok Thrown p
  | .ret a, p, _ => hf a p
  | .throw _, _, h => h
  | .stmt _ _, _, h => ⟨h.1, fun env busy d r ws hout =>
      Body.Issues.bind hf (h.2 env busy d r ws hout)⟩

theorem Node.Issues.step (h : n.Issues E Ok Thrown) (hstep : n.step E env busy db = some (n', c)) :
    n'.Issues E Ok Thrown := by
  cases Node.moves hstep with
  | query | queryFails | call => exact h _
  | opens => exact h
  | stmt _ hout => exact ⟨h.1.2 _ _ _ _ _ hout, h.2⟩
  | stmtFails | commits | throws => exact h.2 _

omit [DecidableEq Loc] in
theorem Node.Issues.fail {f : Fault} (h : n.Issues E Ok Thrown) (hfail : n.fail E f = some n') :
    n'.Issues E Ok Thrown := by
  cases Node.fails hfail with
  | query => exact h _
  | opens | inTx => exact h.2 _

omit [DecidableEq Loc] in
/-- The statement that an open transaction is about to issue. -/
theorem Node.Issues.ok {q : S} (h : n.Issues E Ok Thrown) (hnext : n.next = some (p, q)) :
    ∃ t, n.txn? = some (t, p) ∧ Ok t p q := by
  obtain ⟨log, proc⟩ := n
  cases proc with
  | run c => simp [Node.next] at hnext
  | crashed => simp [Node.next] at hnext
  | inTx t p' body k =>
    cases body with
    | ret b => simp [Node.next] at hnext
    | throw e => simp [Node.next] at hnext
    | stmt q' k' =>
      simp only [Node.next, Option.some.injEq, Prod.mk.injEq] at hnext
      obtain ⟨rfl, rfl⟩ := hnext
      exact ⟨t, rfl, h.1.1⟩

omit [DecidableEq Loc] in
theorem Node.Issues.thrown {e : ε} (h : n.Issues E Ok Thrown)
    (hthrow : n.throws? = some (t, p, e)) : Thrown t p e := by
  obtain ⟨log, proc⟩ := n
  cases proc with
  | run c => simp [Node.throws?] at hthrow
  | crashed => simp [Node.throws?] at hthrow
  | inTx t' p' body k =>
    cases body with
    | ret b => simp [Node.throws?] at hthrow
    | stmt q k' => simp [Node.throws?] at hthrow
    | throw e' =>
      simp only [Node.throws?, Option.some.injEq, Prod.mk.injEq] at hthrow
      obtain ⟨rfl, rfl, rfl⟩ := hthrow
      exact h.1

omit [DecidableEq Loc] in
/-- A process about to issue a statement is in a transaction. -/
theorem Node.txn?_of_next {q : S} (h : n.next = some (p, q)) : ∃ t, n.txn? = some (t, p) := by
  obtain ⟨log, proc⟩ := n
  cases proc with
  | run c => simp [Node.next] at h
  | crashed => simp [Node.next] at h
  | inTx t p' body k =>
    cases body with
    | ret b => simp [Node.next] at h
    | throw e => simp [Node.next] at h
    | stmt q' k' =>
      simp only [Node.next, Option.some.injEq, Prod.mk.injEq] at h
      obtain ⟨rfl, -⟩ := h
      exact ⟨t, rfl⟩

/-- What commits under a transaction's name is that transaction, as it was. -/
theorem Node.step_commits {evs : List (Ev S R Fault ε X)} {ws : List Row}
    (hstep : n.step E env busy db = some (n', some (.txn t evs, ws))) :
    ∃ p, n.txn? = some (t, p) ∧ p.events = evs := by
  generalize hc : some ((.txn t evs : Item S R Fault ε τ X), ws) = c at hstep
  cases Node.moves hstep with
  | query | queryFails | call | opens | stmt | stmtFails | throws => simp at hc
  | commits =>
    simp only [Option.some.injEq, Prod.mk.injEq, Item.txn.injEq] at hc
    obtain ⟨⟨rfl, rfl⟩, -⟩ := hc
    exact ⟨_, rfl, rfl⟩

/-- A process that stays in its transaction has executed a statement of it. -/
theorem Node.step_inTx (hstep : n.step E env busy db = some (n', c)) (ht : n.txn? = some (t, p))
    (ht' : n'.txn? = some (t', p')) :
    c = none ∧ t' = t ∧ ∃ q r ws, n.next = some (p, q) ∧
      (E.exec q env busy (p.view db)).out = .ok (r, ws) ∧
      p' = p.add q r ((E.exec q env busy (p.view db)).locked key) ws := by
  cases Node.moves hstep with
  | query | queryFails | call | opens => simp [Node.txn?] at ht
  | stmtFails | commits | throws => simp [Node.txn?] at ht'
  | stmt _ hout =>
    simp only [Node.txn?, Option.some.injEq, Prod.mk.injEq] at ht ht'
    obtain ⟨rfl, rfl⟩ := ht
    exact ⟨rfl, ht'.1.symm, _, _, _, rfl, hout, ht'.2.symm⟩

/-- A process comes into a transaction by its BEGIN. -/
theorem Node.step_begin (hstep : n.step E env busy db = some (n', c)) (ht : n.txn? = none)
    (ht' : n'.txn? = some (t, p)) : c = none ∧ p = .begin := by
  cases Node.moves hstep with
  | stmt | stmtFails | commits | throws => simp [Node.txn?] at ht
  | query | queryFails | call => simp [Node.txn?] at ht'
  | opens =>
    simp only [Node.txn?, Option.some.injEq, Prod.mk.injEq] at ht'
    exact ⟨rfl, ht'.2.symm⟩

theorem Node.step_throws {e : ε} (hstep : n.step E env busy db = some (n', c))
    (hthrow : n.throws? = some (t, p, e)) : n'.txn? = none := by
  cases Node.moves hstep with
  | throws => rfl
  | _ => simp [Node.throws?] at hthrow

omit [DecidableEq Loc] in
theorem Node.fail_txn? {f : Fault} (h : n.fail E f = some n') : n'.txn? = none := by
  cases Node.fails h with
  | query | opens | inTx => rfl

end Node

/-! ## Every process -/

section Steps

variable {E : Engine Row Loc key S R Fault ε X} {program : J → Client S R ε τ X α}
  {s s' : Sys Row Loc key S R Fault ε τ X α} {l : Label Fault J} {i : ℕ} {t t' : τ}
  {p p' : Priv Row Loc S R Fault ε X}

/-- Where each node of the next state comes from. -/
theorem Sys.step_node (h : s.step E program l = some s') {n' : Node Row Loc S R Fault ε τ X α}
    (hn' : s'.nodes[i]? = some n') :
    (s.nodes[i]? = some n' ∧ l.mover ≠ some i) ∨
    (∃ j, l = .start j ∧ i = s.nodes.length ∧ n' = ⟨[], .run (program j)⟩) ∨
    ∃ n, s.nodes[i]? = some n ∧ l.mover = some i ∧
      ((∃ u c, l = .run i u ∧ n.step E ⟨s.now, u⟩ (s.busy i) s.db = some (n', c) ∧
        s' = s.advance i n' c) ∨
      (∃ f, l = .fault i f ∧ n.fail E f = some n') ∨
      (l = .crash i ∧ n' = { n with proc := .crashed })) := by
  -- a node that has been set, among those that have not
  have hset : ∀ {k : ℕ} {m : Node Row Loc S R Fault ε τ X α}
      {c : Option (Item S R Fault ε τ X × List Row)}, (s.advance k m c).nodes[i]? = some n' →
      (k ≠ i ∧ s.nodes[i]? = some n') ∨ (k = i ∧ m = n') := by
    intro k m c hm
    simp only [Sys.advance, List.getElem?_set] at hm
    split at hm
    · rename_i hk
      split at hm
      · exact Or.inr ⟨hk, Option.some.inj hm⟩
      · simp at hm
    · rename_i hk
      exact Or.inl ⟨hk, hm⟩
  cases l with
  | start j =>
    simp only [Sys.step, Option.some.injEq] at h
    subst h
    simp only [List.getElem?_append, List.getElem?_singleton] at hn'
    split at hn'
    · exact Or.inl ⟨hn', by simp [Label.mover]⟩
    · rename_i hlt
      split at hn'
      · exact Or.inr (Or.inl ⟨j, rfl, by omega, (Option.some.inj hn').symm⟩)
      · simp at hn'
  | tick n =>
    simp only [Sys.step, Option.some.injEq] at h
    subst h
    exact Or.inl ⟨hn', by simp [Label.mover]⟩
  | crash k =>
    simp only [Sys.step, Option.map_eq_some_iff] at h
    obtain ⟨n, hn, rfl⟩ := h
    rcases hset hn' with ⟨hk, hold⟩ | ⟨rfl, rfl⟩
    · exact Or.inl ⟨hold, by simpa [Label.mover] using hk⟩
    · exact Or.inr (Or.inr ⟨n, hn, rfl, Or.inr (Or.inr ⟨rfl, rfl⟩)⟩)
  | fault k f =>
    simp only [Sys.step] at h
    split at h
    · simp at h
    rename_i n hn
    obtain ⟨n₁, hfail, rfl⟩ := Option.map_eq_some_iff.mp h
    rcases hset hn' with ⟨hk, hold⟩ | ⟨rfl, rfl⟩
    · exact Or.inl ⟨hold, by simpa [Label.mover] using hk⟩
    · exact Or.inr (Or.inr ⟨n, hn, rfl, Or.inr (Or.inl ⟨f, rfl, hfail⟩)⟩)
  | run k u =>
    simp only [Sys.step] at h
    split at h
    · simp at h
    rename_i n hn
    obtain ⟨⟨n₁, c⟩, hmove, rfl⟩ := Option.map_eq_some_iff.mp h
    rcases hset hn' with ⟨hk, hold⟩ | ⟨rfl, rfl⟩
    · exact Or.inl ⟨hold, by simpa [Label.mover] using hk⟩
    · exact Or.inr (Or.inr ⟨n, hn, rfl, Or.inl ⟨u, c, rfl, hmove, rfl⟩⟩)

theorem Sys.step_size (h : s.step E program l = some s') :
    s'.nodes.length = s.nodes.length + l.started.length := by
  cases l with
  | start j =>
    simp only [Sys.step, Option.some.injEq] at h
    simp [← h, Label.started]
  | tick n =>
    simp only [Sys.step, Option.some.injEq] at h
    simp [← h, Label.started]
  | crash i =>
    simp only [Sys.step, Option.map_eq_some_iff] at h
    obtain ⟨n, -, rfl⟩ := h
    simp [Sys.advance, Label.started]
  | fault i f =>
    simp only [Sys.step] at h
    split at h
    · simp at h
    · obtain ⟨n, -, rfl⟩ := Option.map_eq_some_iff.mp h
      simp [Sys.advance, Label.started]
  | run i u =>
    simp only [Sys.step] at h
    split at h
    · simp at h
    · obtain ⟨o, -, rfl⟩ := Option.map_eq_some_iff.mp h
      simp [Sys.advance, Label.started]

theorem Sys.step_length (h : s.step E program l = some s') :
    s.nodes.length ≤ s'.nodes.length := by
  rw [Sys.step_size h]
  exact Nat.le_add_right _ _

omit [DecidableEq Loc] in
theorem Sys.txn?_eq_some : s.txn? i = some (t, p) ↔
    ∃ n, s.nodes[i]? = some n ∧ n.txn? = some (t, p) := by
  rw [Sys.txn?, Option.bind_eq_some_iff]

/-- A process in a transaction before and after a step: it has executed one of
its statements, or another has moved. -/
theorem Sys.step_inTx (h : s.step E program l = some s') (hs : s.txn? i = some (t, p))
    (hs' : s'.txn? i = some (t', p')) : t' = t ∧
      ((p' = p ∧ l.mover ≠ some i) ∨ ∃ u n q r ws, l = .run i u ∧ s.nodes[i]? = some n ∧
        n.next = some (p, q) ∧ (E.exec q ⟨s.now, u⟩ (s.busy i) (p.view s.db)).out = .ok (r, ws) ∧
        p' = p.add q r ((E.exec q ⟨s.now, u⟩ (s.busy i) (p.view s.db)).locked key) ws ∧
        s'.db = s.db) := by
  obtain ⟨n, hn, ht⟩ := Sys.txn?_eq_some.mp hs
  obtain ⟨n', hn', ht'⟩ := Sys.txn?_eq_some.mp hs'
  rcases Sys.step_node h hn' with ⟨hsame, hmover⟩ | ⟨j, rfl, -, rfl⟩ | ⟨m, hm, -, hmoved⟩
  · rw [hn, Option.some.injEq] at hsame
    subst hsame
    rw [ht, Option.some.injEq, Prod.mk.injEq] at ht'
    exact ⟨ht'.1.symm, Or.inl ⟨ht'.2.symm, hmover⟩⟩
  · simp [Node.txn?] at ht'
  rw [hn, Option.some.injEq] at hm
  subst hm
  rcases hmoved with ⟨u, c, rfl, hmove, rfl⟩ | ⟨f, -, hfail⟩ | ⟨-, rfl⟩
  · obtain ⟨rfl, rfl, q, r, ws, hnext, hout, rfl⟩ := Node.step_inTx hmove ht ht'
    exact ⟨rfl, Or.inr ⟨u, n, q, r, ws, rfl, hn, hnext, hout, rfl, rfl⟩⟩
  · rw [Node.fail_txn? hfail] at ht'
    cases ht'
  · simp [Node.txn?] at ht'

theorem Sys.step_begin (h : s.step E program l = some s') (hs : s.txn? i = none)
    (hs' : s'.txn? i = some (t, p)) : p = .begin ∧ ∃ u, l = .run i u := by
  obtain ⟨n', hn', ht'⟩ := Sys.txn?_eq_some.mp hs'
  rcases Sys.step_node h hn' with ⟨hsame, -⟩ | ⟨j, rfl, -, rfl⟩ | ⟨n, hn, -, hmoved⟩
  · rw [Sys.txn?, hsame, Option.bind_some, ht'] at hs
    cases hs
  · simp [Node.txn?] at ht'
  rw [Sys.txn?, hn, Option.bind_some] at hs
  rcases hmoved with ⟨u, c, rfl, hmove, rfl⟩ | ⟨f, -, hfail⟩ | ⟨-, rfl⟩
  · exact ⟨(Node.step_begin hmove hs ht').2, u, rfl⟩
  · rw [Node.fail_txn? hfail] at ht'
    cases ht'
  · simp [Node.txn?] at ht'

/-- Every process issues what it may. -/
theorem Reach.issues {Ok : τ → Priv Row Loc S R Fault ε X → S → Prop}
    {Thrown : τ → Priv Row Loc S R Fault ε X → ε → Prop}
    {ok : Sys Row Loc key S R Fault ε τ X α → Label Fault J →
      Sys Row Loc key S R Fault ε τ X α → Prop}
    (hprog : ∀ j, (program j).Opens (fun _ t b => b.Issues E (Ok t) (Thrown t) .begin))
    (h : Reach E program ok s) : ∀ n ∈ s.nodes, n.Issues E Ok Thrown := by
  induction h with
  | init => simp [Sys.init]
  | step _ hstep _ ih =>
    intro n' hmem
    obtain ⟨i, hn'⟩ := List.mem_iff_getElem?.mp hmem
    rcases Sys.step_node hstep hn' with ⟨hsame, -⟩ | ⟨j, -, -, rfl⟩ | ⟨n, hn, -, hmoved⟩
    · exact ih n' (List.mem_of_getElem? hsame)
    · exact hprog j
    have hissues := ih n (List.mem_of_getElem? hn)
    rcases hmoved with ⟨u, c, -, hmove, -⟩ | ⟨f, -, hfail⟩ | ⟨-, rfl⟩
    · exact hissues.step hmove
    · exact hissues.fail hfail
    · trivial

section Each

variable {ok : Sys Row Loc key S R Fault ε τ X α → Label Fault J →
    Sys Row Loc key S R Fault ε τ X α → Prop} {ls : List (Label Fault J)}

theorem Run.length_jobs (h : Run E program ok ls s) : (jobs ls).length = s.nodes.length := by
  induction h with
  | init => rfl
  | step _ hstep _ ih => rw [jobs_append, List.length_append, ih, Sys.step_size hstep]

theorem Run.of_concat (h : Run E program ok (ls ++ [l]) s') :
    ∃ s, Run E program ok ls s ∧ s.step E program l = some s' ∧ ok s l s' := by
  generalize hall : ls ++ [l] = all at h
  cases h with
  | init => simp at hall
  | step hrun hstep hok =>
    obtain ⟨rfl, hl⟩ := List.append_inj' hall rfl
    obtain rfl := List.singleton_inj.mp hl
    exact ⟨_, hrun, hstep, hok⟩

/-- A schedule has one end. -/
theorem Run.unique {ok' : Sys Row Loc key S R Fault ε τ X α → Label Fault J →
    Sys Row Loc key S R Fault ε τ X α → Prop} (h : Run E program ok ls s)
    (h' : Run E program ok' ls s') : s' = s := by
  induction h generalizing s' with
  | init =>
    generalize hnil : ([] : List (Label Fault J)) = ls at h'
    cases h' with
    | init => rfl
    | step => simp at hnil
  | step _ hstep _ ih =>
    obtain ⟨m, hm, hstep', -⟩ := h'.of_concat
    rw [ih hm, hstep] at hstep'
    exact (Option.some.inj hstep').symm

/-- A fact about each process by itself, of its job and of where it stands. -/
theorem Run.each {F : ℕ → J → Node Row Loc S R Fault ε τ X α → Prop}
    (hstart : ∀ i j, F i j ⟨[], .run (program j)⟩)
    (hmove : ∀ {ls s l s' i j n n'}, Run E program ok ls s → s.step E program l = some s' →
      ok s l s' → (jobs ls)[i]? = some j → s.nodes[i]? = some n → F i j n →
      ((∃ u c, l = .run i u ∧ n.step E ⟨s.now, u⟩ (s.busy i) s.db = some (n', c) ∧
        s' = s.advance i n' c) ∨
      (∃ f, l = .fault i f ∧ n.fail E f = some n') ∨
      (l = .crash i ∧ n' = { n with proc := .crashed })) → F i j n')
    (h : Run E program ok ls s) : ∀ {i : ℕ} {j : J} {n : Node Row Loc S R Fault ε τ X α},
      (jobs ls)[i]? = some j → s.nodes[i]? = some n → F i j n := by
  induction h with
  | init =>
    intro i j n hj
    simp [jobs] at hj
  | @step ls s s' l hrun hstep hok ih =>
    intro i j n' hj hn'
    rw [jobs_append, List.getElem?_append, Run.length_jobs hrun] at hj
    rcases Sys.step_node hstep hn' with ⟨hsame, -⟩ | ⟨j', rfl, hi, rfl⟩ | ⟨n, hn, -, hmoved⟩
    · rw [if_pos (List.getElem?_eq_some_iff.mp hsame).1] at hj
      exact ih hj hsame
    · subst hi
      rw [if_neg (lt_irrefl _), Nat.sub_self] at hj
      obtain rfl := Option.some.inj hj
      exact hstart _ j'
    · rw [if_pos (List.getElem?_eq_some_iff.mp hn).1] at hj
      exact hmove hrun hstep hok hj hn (ih hj hn) hmoved

theorem Run.imp {ok' : Sys Row Loc key S R Fault ε τ X α → Label Fault J →
      Sys Row Loc key S R Fault ε τ X α → Prop} (h : Run E program ok ls s)
    (himp : ∀ s l s', ok s l s' → ok' s l s') : Run E program ok' ls s := by
  induction h with
  | init => exact .init
  | step _ hstep hok ih => exact ih.step hstep (himp _ _ _ hok)

/-- Of the programs, only those of the jobs matter. -/
theorem Run.congr {program' : J → Client S R ε τ X α} (h : Run E program ok ls s)
    (hsame : ∀ j ∈ jobs ls, program j = program' j) : Run E program' ok ls s := by
  induction h with
  | init => exact .init
  | @step ls s s' l _ hstep hok ih =>
    have hstarted : ∀ j ∈ l.started, program j = program' j :=
      fun j hj => hsame j (by simp [hj])
    refine (ih (fun j hj => hsame j (by simp [hj]))).step ?_ hok
    cases l with
    | start j =>
      rw [Sys.step, ← hstarted j (List.mem_singleton_self j)]
      exact hstep
    | tick | run | fault | crash => exact hstep

/-- What holds in a state, and is kept by each step after it. -/
theorem Run.after {ok' : Sys Row Loc key S R Fault ε τ X α → Label Fault J →
      Sys Row Loc key S R Fault ε τ X α → Prop}
    {P : List (Label Fault J) → Sys Row Loc key S R Fault ε τ X α → Prop}
    (h : Run E program ok ls s) (hstart : P [] s)
    (hmove : ∀ ls' s₁ l s₂, Run E program ok' (ls ++ ls') s₁ → s₁.step E program l = some s₂ →
      ok' s₁ l s₂ → P ls' s₁ → P (ls' ++ [l]) s₂) {ls' : List (Label Fault J)}
    {s' : Sys Row Loc key S R Fault ε τ X α} (h' : Run E program ok' (ls ++ ls') s') : P ls' s' := by
  induction ls' using List.reverseRecOn generalizing s' with
  | nil =>
    rw [List.append_nil] at h'
    obtain rfl := h'.unique h
    exact hstart
  | append_singleton ls' l ih =>
    rw [← List.append_assoc] at h'
    obtain ⟨s₁, hrun, hstep, hok⟩ := h'.of_concat
    exact hmove ls' s₁ l s' hrun hstep hok (ih hrun)

/-- The step of a run that has made a commit. -/
theorem Run.located (h : Run E program ok ls s) {h₁ h₂ : List (ℕ × Item S R Fault ε τ X)}
    {x : ℕ × Item S R Fault ε τ X} (hx : s.history = h₁ ++ x :: h₂) :
    ∃ before l after s₁ s₂, ls = before ++ l :: after ∧ Run E program ok before s₁ ∧
      s₁.step E program l = some s₂ ∧ ok s₁ l s₂ ∧ s₁.history = h₁ ∧ s₂.history = h₁ ++ [x] := by
  induction h generalizing h₂ with
  | init => simp [Sys.init] at hx
  | @step ls s s' l hrun hstep hok ih =>
    rcases Sys.step_history hstep with ⟨hsame, -⟩ | ⟨c, u, n, n', it, ws, rfl, -, -, hlast⟩
    · obtain ⟨before, l', after, s₁, s₂, rfl, hrest⟩ := ih (hsame ▸ hx)
      exact ⟨before, l', after ++ [l], s₁, s₂, by simp, hrest⟩
    rw [hlast] at hx
    rcases List.eq_nil_or_concat h₂ with rfl | ⟨h₂, y, rfl⟩
    · obtain ⟨hfirst, hx⟩ := List.append_inj' hx rfl
      obtain rfl := List.singleton_inj.mp hx
      exact ⟨ls, .run c u, [], s, s', rfl, hrun, hstep, hok, hfirst, by rw [hlast, hfirst]⟩
    · have hearlier : s.history ++ [(c, it)] = (h₁ ++ x :: h₂) ++ [y] := by simpa using hx
      obtain ⟨before, l', after, s₁, s₂, rfl, hrest⟩ := ih (List.append_inj' hearlier rfl).1
      exact ⟨before, l', after ++ [.run c u], s₁, s₂, by simp, hrest⟩

/-- The history of a run goes on. -/
theorem Run.history_prefix {ok' : Sys Row Loc key S R Fault ε τ X α → Label Fault J →
      Sys Row Loc key S R Fault ε τ X α → Prop} (h : Run E program ok ls s)
    {ls' : List (Label Fault J)} {s' : Sys Row Loc key S R Fault ε τ X α}
    (h' : Run E program ok' (ls ++ ls') s') : s.history <+: s'.history := by
  refine Run.after (P := fun _ s' => s.history <+: s'.history) h (List.prefix_refl _) ?_ h'
  intro ls' s₁ l s₂ _ hstep _ ih
  rcases Sys.step_history hstep with ⟨hsame, -⟩ | ⟨c, u, n, n', it, ws, -, -, -, hlast⟩
  · rwa [hsame]
  · rw [hlast]
    exact ih.trans (List.prefix_append _ _)

/-- A process that has started after a run moves after it. -/
theorem Run.split_later {ls' before after : List (Label Fault J)} {l : Label Fault J}
    {s₁ : Sys Row Loc key S R Fault ε τ X α} (h : Run E program ok ls s)
    {ok' : Sys Row Loc key S R Fault ε τ X α → Label Fault J →
      Sys Row Loc key S R Fault ε τ X α → Prop} (hsplit : ls ++ ls' = before ++ l :: after)
    (h₁ : Run E program ok' before s₁) (hlater : s.nodes.length ≤ i) (hi : i < s₁.nodes.length) :
    ∃ ls'', before = ls ++ ls'' ∧ ls' = ls'' ++ l :: after := by
  rcases List.append_eq_append_iff.mp hsplit with ⟨ls'', hbefore, hrest⟩ | ⟨early, hls, -⟩
  · exact ⟨ls'', hbefore, hrest⟩
  · -- the process would have started before
    have hsize : (jobs ls).length = (jobs before).length + (jobs early).length := by
      rw [hls, jobs, List.flatMap_append, List.length_append]
      rfl
    rw [h.length_jobs, h₁.length_jobs] at hsize
    omega

end Each

end Steps

/-! ## The stay of a process in one transaction -/

/-- A schedule during which process `i` stays in one transaction. -/
inductive Stays (E : Engine Row Loc key S R Fault ε X) (program : J → Client S R ε τ X α) (i : ℕ) :
    Sys Row Loc key S R Fault ε τ X α → List (Label Fault J) →
      Sys Row Loc key S R Fault ε τ X α → Prop
  | here {s} : (s.txn? i).isSome → Stays E program i s [] s
  | step {s ls s' l s''} : Stays E program i s ls s' → s'.step E program l = some s'' →
      (s''.txn? i).isSome → Stays E program i s (ls ++ [l]) s''

section Stays

variable {E : Engine Row Loc key S R Fault ε X} {program : J → Client S R ε τ X α}
  {s s' : Sys Row Loc key S R Fault ε τ X α} {ls : List (Label Fault J)} {i : ℕ} {t t' : τ}
  {p p' : Priv Row Loc S R Fault ε X}

theorem Stays.last (h : Stays E program i s ls s') : (s'.txn? i).isSome := by
  cases h with
  | here hs => exact hs
  | step _ _ hs => exact hs

theorem Stays.first (h : Stays E program i s ls s') : (s.txn? i).isSome := by
  induction h with
  | here hs => exact hs
  | step _ _ _ ih => exact ih

/-- A stay that goes on after a step. -/
theorem Stays.append {s₁ s₂ : Sys Row Loc key S R Fault ε τ X α} {l : Label Fault J}
    {ls' : List (Label Fault J)} (h : Stays E program i s ls s₁)
    (hstep : s₁.step E program l = some s₂) (h' : Stays E program i s₂ ls' s') :
    Stays E program i s (ls ++ l :: ls') s' := by
  induction h' with
  | here hs => exact h.step hstep hs
  | step _ hlast hs ih =>
    rw [← List.cons_append, ← List.append_assoc]
    exact ih.step hlast hs

/-- In one transaction, the name stays and the observations grow. -/
theorem Stays.grows (h : Stays E program i s ls s') (hs : s.txn? i = some (t, p))
    (hs' : s'.txn? i = some (t', p')) : t' = t ∧ p.events <+: p'.events := by
  induction h generalizing t' p' with
  | here _ =>
    rw [hs, Option.some.injEq, Prod.mk.injEq] at hs'
    exact ⟨hs'.1.symm, by rw [hs'.2]⟩
  | step hprev hstep _ ih =>
    obtain ⟨⟨t₁, p₁⟩, hs₁⟩ := Option.isSome_iff_exists.mp hprev.last
    obtain ⟨rfl, hprefix⟩ := ih hs₁
    obtain ⟨rfl, ⟨rfl, -⟩ | ⟨u, n, q, r, ws, -, -, -, -, rfl, -⟩⟩ := Sys.step_inTx hstep hs₁ hs'
    · exact ⟨rfl, hprefix⟩
    · exact ⟨rfl, hprefix.trans (List.prefix_append _ _)⟩

theorem Stays.run {ok : Sys Row Loc key S R Fault ε τ X α → Label Fault J →
      Sys Row Loc key S R Fault ε τ X α → Prop} (hok : ∀ s l s', ok s l s')
    {before : List (Label Fault J)} (hs : Run E program ok before s)
    (h : Stays E program i s ls s') : Run E program ok (before ++ ls) s' := by
  induction h with
  | here _ => simpa using hs
  | step _ hstep _ ih =>
    rw [← List.append_assoc]
    exact .step ih hstep (hok _ _ _)

/-- A process in a transaction has opened it, and stayed since. -/
theorem Run.opened {ok : Sys Row Loc key S R Fault ε τ X α → Label Fault J →
      Sys Row Loc key S R Fault ε τ X α → Prop} (h : Run E program ok ls s)
    (hs : s.txn? i = some (t, p)) :
    ∃ before l after s₀ s₁, ls = before ++ l :: after ∧ Run E program ok before s₀ ∧
      s₀.step E program l = some s₁ ∧ ok s₀ l s₁ ∧ s₁.txn? i = some (t, .begin) ∧
      Stays E program i s₁ after s := by
  induction h generalizing p with
  | init => simp [Sys.init, Sys.txn?] at hs
  | @step ls s s' l hrun hstep hok ih =>
    cases hold : s.txn? i with
    | none =>
      obtain ⟨rfl, -⟩ := Sys.step_begin hstep hold hs
      exact ⟨ls, l, [], s, s', rfl, hrun, hstep, hok, hs, .here (by rw [hs]; rfl)⟩
    | some tp =>
      obtain ⟨rfl, -⟩ := Sys.step_inTx hstep hold hs
      obtain ⟨before, l', after, s₀, s₁, rfl, hrun₀, hstep₀, hok₀, hopen, hstays⟩ := ih hold
      exact ⟨before, l', after ++ [l], s₀, s₁, by simp, hrun₀, hstep₀, hok₀, hopen,
        hstays.step hstep (by rw [hs]; rfl)⟩

/-- What a process has observed during its stay, it has observed at a state of
its stay. -/
theorem Stays.executed {q : S} {r : R q} {evs rest : List (Ev S R Fault ε X)}
    (h : Stays E program i s ls s') (hs : s.txn? i = some (t, .begin))
    (hs' : s'.txn? i = some (t', p)) (hev : p.events = evs ++ .stmt q r :: rest) :
    ∃ before u after s₁ s₂ n p₁ p₂ ws, ls = before ++ .run i u :: after ∧
      Stays E program i s before s₁ ∧ s₁.step E program (.run i u) = some s₂ ∧
      Stays E program i s₂ after s' ∧ s₁.nodes[i]? = some n ∧ n.next = some (p₁, q) ∧
      p₁.events = evs ∧ s₂.txn? i = some (t, p₂) ∧ p₂.events = evs ++ [.stmt q r] ∧
      s₂.db = s₁.db ∧
      (E.exec q ⟨s₁.now, u⟩ (s₁.busy i) (p₁.view s₁.db)).out = .ok (r, ws) := by
  induction h generalizing p t' rest with
  | here _ =>
    rw [hs, Option.some.injEq, Prod.mk.injEq] at hs'
    rw [← hs'.2] at hev
    simp [Priv.begin] at hev
  | @step ls s₁ l s₂ hstays hstep hopen ih =>
    obtain ⟨⟨t₁, p₁⟩, hs₁⟩ := Option.isSome_iff_exists.mp hstays.last
    obtain ⟨rfl, -⟩ := (hstays.step hstep hopen).grows hs hs'
    obtain ⟨-, ⟨rfl, -⟩ | ⟨u, n, q', r', ws, rfl, hn, hnext, hout, rfl, hdb⟩⟩ :=
      Sys.step_inTx hstep hs₁ hs'
    · obtain ⟨before, u, after, a, b, n, p', p'', ws, rfl, hbefore, hmove, hafter, hrest⟩ :=
        ih hs₁ hev
      exact ⟨before, u, after ++ [l], a, b, n, p', p'', ws, by simp, hbefore, hmove,
        hafter.step hstep hopen, hrest⟩
    · simp only [Priv.add] at hev
      rcases List.eq_nil_or_concat rest with rfl | ⟨rest', e, rfl⟩
      · -- the last step itself
        obtain ⟨hevs, hlast⟩ := List.append_inj' hev rfl
        simp only [List.cons.injEq, Ev.stmt.injEq, and_true] at hlast
        obtain ⟨rfl, hr⟩ := hlast
        cases hr
        exact ⟨ls, u, [], s₁, s₂, n, p₁, _, ws, rfl, hstays, hstep, .here hopen, hn, hnext, hevs,
          hs', hev, hdb, hout⟩
      · -- an earlier one
        have hev' : p₁.events ++ [.stmt q' r'] = (evs ++ .stmt q r :: rest') ++ [e] := by
          rw [hev]
          simp
        obtain ⟨hevs, -⟩ := List.append_inj' hev' rfl
        obtain ⟨before, u', after, a, b, n, p', p'', ws, rfl, hbefore, hmove, hafter, hrest⟩ :=
          ih hs₁ hevs
        exact ⟨before, u', after ++ [.run i u], a, b, n, p', p'', ws, by simp, hbefore, hmove,
          hafter.step hstep hopen, hrest⟩

/-- What a process has written during its stay, a statement that it has observed
has written. -/
theorem Stays.wrote (h : Stays E program i s ls s') (hs : s.txn? i = some (t, .begin))
    (hs' : s'.txn? i = some (t', p)) : ∀ w ∈ p.writes, ∃ (q : S) (r : R q) (env : Env)
      (busy : Loc → Bool) (v : Table Row Loc key) (ws : List Row),
      .stmt q r ∈ p.events ∧ (E.exec q env busy v).out = .ok (r, ws) ∧ w ∈ ws := by
  induction h generalizing p t' with
  | here _ =>
    rw [hs, Option.some.injEq, Prod.mk.injEq] at hs'
    simp [← hs'.2, Priv.begin]
  | step hstays hstep _ ih =>
    obtain ⟨⟨t₁, p₁⟩, hs₁⟩ := Option.isSome_iff_exists.mp hstays.last
    intro w hw
    obtain ⟨-, ⟨rfl, -⟩ | ⟨u, n, q, r, ws, -, -, -, hout, rfl, -⟩⟩ := Sys.step_inTx hstep hs₁ hs'
    · exact ih hs₁ w hw
    rcases List.mem_append.mp hw with hold | hnew
    · obtain ⟨q', r', env, busy, v, ws', hev, hwrote⟩ := ih hs₁ w hold
      exact ⟨q', r', env, busy, v, ws', List.mem_append_left _ hev, hwrote⟩
    · exact ⟨q, r, _, _, _, ws, List.mem_append_right _ (List.mem_singleton_self _), hout, hnew⟩

/-- A committed transaction was opened by its process, which stayed in it until
the commit. -/
theorem Run.committed {ok : Sys Row Loc key S R Fault ε τ X α → Label Fault J →
      Sys Row Loc key S R Fault ε τ X α → Prop} (h : Run E program ok ls s)
    {evs : List (Ev S R Fault ε X)} (hx : (i, .txn t evs) ∈ s.history) :
    ∃ before l during u after s₀ s₁ s₂ s₃ p,
      ls = before ++ l :: (during ++ .run i u :: after) ∧ Run E program ok before s₀ ∧
      s₀.step E program l = some s₁ ∧ ok s₀ l s₁ ∧ s₁.txn? i = some (t, .begin) ∧
      Stays E program i s₁ during s₂ ∧ s₂.txn? i = some (t, p) ∧ p.events = evs ∧
      s₂.step E program (.run i u) = some s₃ ∧ s₃.history = s₂.history ++ [(i, .txn t evs)] := by
  obtain ⟨h₁, h₂, hsplit⟩ := List.append_of_mem hx
  obtain ⟨first, l, after, s₂, s₃, rfl, hrun, hstep, -, rfl, hlast⟩ := h.located hsplit
  rcases Sys.step_history hstep with ⟨hsame, -⟩ | ⟨c, u, n, n', it, ws, rfl, hn, hmove, hitem⟩
  · rw [hsame] at hlast
    simp at hlast
  have hnew : (c, it) = (i, .txn t evs) := by simpa [hitem] using hlast
  simp only [Prod.mk.injEq] at hnew
  obtain ⟨rfl, rfl⟩ := hnew
  obtain ⟨p, htxn, hevents⟩ := Node.step_commits hmove
  have hs : s₂.txn? c = some (t, p) := Sys.txn?_eq_some.mpr ⟨n, hn, htxn⟩
  obtain ⟨before, l, during, s₀, s₁, rfl, hrun₀, hstep₀, hok₀, hopen, hstays⟩ := hrun.opened hs
  exact ⟨before, l, during, u, after, s₀, s₁, s₂, s₃, p, by simp, hrun₀, hstep₀, hok₀, hopen,
    hstays, hs, hevents, hstep, hlast⟩

/-- What has changed in the store during the stay of a process was committed by
another. -/
theorem Stays.changed {f : Table Row Loc key → γ} (h : Stays E program i s ls s')
    (hne : f s'.db ≠ f s.db) : ∃ before l after s₁ s₂ c it,
      ls = before ++ l :: after ∧ Stays E program i s before s₁ ∧
      s₁.step E program l = some s₂ ∧ Stays E program i s₂ after s' ∧ f s₂.db ≠ f s₁.db ∧
      c ≠ i ∧ s₂.history = s₁.history ++ [(c, it)] := by
  induction h with
  | here _ => exact absurd rfl hne
  | @step ls s₁ l s₂ hstays hstep hopen ih =>
    by_cases heq : f s₂.db = f s₁.db
    · obtain ⟨before, l', after, a, b, c, it, rfl, hbefore, hmove, hafter, hrest⟩ :=
        ih (heq ▸ hne)
      exact ⟨before, l', after ++ [l], a, b, c, it, by simp, hbefore, hmove,
        hafter.step hstep hopen, hrest⟩
    · rcases Sys.step_history hstep with ⟨-, hdb⟩ | ⟨c, u, n, n', it, ws, rfl, hn, hmove, hlast⟩
      · exact absurd (congrArg f hdb) heq
      refine ⟨ls, .run c u, [], s₁, s₂, c, it, rfl, hstays, hstep, .here hopen, heq, ?_, hlast⟩
      rintro rfl
      -- a process that commits is out of its transaction
      obtain ⟨⟨t₁, p₁⟩, hs₁⟩ := Option.isSome_iff_exists.mp hstays.last
      obtain ⟨⟨t₂, p₂⟩, hs₂⟩ := Option.isSome_iff_exists.mp hopen
      obtain ⟨-, ⟨-, hmover⟩ | ⟨-, -, -, -, -, -, -, -, -, -, hdb⟩⟩ :=
        Sys.step_inTx hstep hs₁ hs₂
      · exact hmover rfl
      · exact heq (congrArg f hdb)

end Stays

/-! ## Counting the transactions that threw -/

section Counts

variable (E : Engine Row Loc key S R Fault ε X) (hit : τ → ε → Bool)

/-- The program after `n` of its transactions have thrown a hit: where it returns
or throws, `Q` or `T` holds of their number and of what it has observed. -/
def Client.Counts (Q : ℕ → List (Ev S R Fault ε X) → α → Prop)
    (T : ℕ → List (Ev S R Fault ε X) → ε → Prop) :
    Client S R ε τ X α → ℕ → List (Ev S R Fault ε X) → Prop
  | .ret a, n, log => Q n log a
  | .throw e, n, log => T n log e
  | .query s k, n, log => (∀ f, (k (.error (E.raise f))).Counts Q T n (log ++ [.fault f])) ∧
      ∀ r, (k (.ok r)).Counts Q T n (log ++ [.stmt s r])
  | .txn t _ k, n, log => (∀ f, (k (.error (E.raise f))).Counts Q T n (log ++ [.fault f])) ∧
      (∀ evs b, (k (.ok b)).Counts Q T n (log ++ evs)) ∧
      ∀ e, (k (.error e)).Counts Q T (n + (hit t e).toNat) log
  | .call x k, n, log => (k (E.answer x)).Counts Q T n (log ++ [.call x (E.answer x)])

/-- The same of a process, from where it stands. -/
def Node.Counts (Q : ℕ → List (Ev S R Fault ε X) → α → Prop)
    (T : ℕ → List (Ev S R Fault ε X) → ε → Prop) (n : Node Row Loc S R Fault ε τ X α) (c : ℕ) :
    Prop :=
  match n.proc with
  | .run prog => prog.Counts E hit Q T c n.log
  | .inTx t _ _ k => (∀ f, (k (.error (E.raise f))).Counts E hit Q T c (n.log ++ [.fault f])) ∧
      (∀ evs b, (k (.ok b)).Counts E hit Q T c (n.log ++ evs)) ∧
      ∀ e, (k (.error e)).Counts E hit Q T (c + (hit t e).toNat) n.log
  | .crashed => True

/-- Whether the process is about to throw a hit. -/
def Node.hits (n : Node Row Loc S R Fault ε τ X α) : Bool :=
  match n.throws? with
  | some (t, _, e) => hit t e
  | none => false

variable {E hit} {Q : ℕ → List (Ev S R Fault ε X) → α → Prop}
  {Q' : ℕ → List (Ev S R Fault ε X) → β → Prop} {T T' : ℕ → List (Ev S R Fault ε X) → ε → Prop}

omit [DecidableEq Loc] in
theorem Client.Counts.bind {f : α → Client S R ε τ X β}
    (hf : ∀ n log a, Q n log a → (f a).Counts E hit Q' T n log) :
    ∀ {c : Client S R ε τ X α} {n : ℕ} {log : List (Ev S R Fault ε X)},
      c.Counts E hit Q T n log → (c >>= f).Counts E hit Q' T n log
  | .ret a, n, log, h => hf n log a h
  | .throw _, _, _, h => h
  | .query _ _, _, _, h => ⟨fun g => Client.Counts.bind hf (h.1 g),
      fun r => Client.Counts.bind hf (h.2 r)⟩
  | .txn _ _ _, _, _, h => ⟨fun g => Client.Counts.bind hf (h.1 g),
      fun evs b => Client.Counts.bind hf (h.2.1 evs b), fun e => Client.Counts.bind hf (h.2.2 e)⟩
  | .call x k, _, _, h => Client.Counts.bind (c := k (E.answer x)) hf h

omit [DecidableEq Loc] in
theorem Client.Counts.tryCatch {g : ε → Client S R ε τ X α}
    (hg : ∀ n log e, T n log e → (g e).Counts E hit Q T' n log) :
    ∀ {c : Client S R ε τ X α} {n : ℕ} {log : List (Ev S R Fault ε X)},
      c.Counts E hit Q T n log → (c.tryCatch g).Counts E hit Q T' n log
  | .ret _, _, _, h => h
  | .throw e, n, log, h => hg n log e h
  | .query _ _, _, _, h => ⟨fun f => Client.Counts.tryCatch hg (h.1 f),
      fun r => Client.Counts.tryCatch hg (h.2 r)⟩
  | .txn _ _ _, _, _, h => ⟨fun f => Client.Counts.tryCatch hg (h.1 f),
      fun evs b => Client.Counts.tryCatch hg (h.2.1 evs b),
      fun e => Client.Counts.tryCatch hg (h.2.2 e)⟩
  | .call x k, _, _, h => Client.Counts.tryCatch (c := k (E.answer x)) hg h

omit [DecidableEq Loc] in
theorem Client.Counts.exec {s : S} {n : ℕ} {log : List (Ev S R Fault ε X)}
    {Q : ℕ → List (Ev S R Fault ε X) → R s → Prop}
    (hf : ∀ f, T n (log ++ [.fault f]) (E.raise f)) (hs : ∀ r, Q n (log ++ [.stmt s r]) r) :
    (Client.exec s : Client S R ε τ X (R s)).Counts E hit Q T n log := ⟨hf, hs⟩

omit [DecidableEq Loc] in
theorem Client.Counts.transaction {t : τ} {body : Body S R ε α} {n : ℕ}
    {log : List (Ev S R Fault ε X)} (hf : ∀ f, T n (log ++ [.fault f]) (E.raise f))
    (hb : ∀ evs b, Q n (log ++ evs) b) (he : ∀ e, T (n + (hit t e).toNat) log e) :
    (Client.transaction t body).Counts E hit Q T n log := ⟨hf, hb, he⟩

variable {n n' : Node Row Loc S R Fault ε τ X α} {c : ℕ}

theorem Node.Counts.step {env : Env} {busy : Loc → Bool} {db : Table Row Loc key}
    {o : Option (Item S R Fault ε τ X × List Row)} (h : n.Counts E hit Q T c)
    (hstep : n.step E env busy db = some (n', o)) :
    n'.Counts E hit Q T (c + (n.hits hit).toNat) := by
  cases Node.moves hstep with
  | query => exact h.2 _
  | queryFails => exact h.1 _
  | call => exact h
  | opens => exact h
  | stmt => exact h
  | stmtFails => exact h.1 _
  | commits => exact h.2.1 _ _
  | throws => exact h.2.2 _

omit [DecidableEq Loc] in
theorem Node.Counts.fail {f : Fault} (h : n.Counts E hit Q T c) (hfail : n.fail E f = some n') :
    n'.Counts E hit Q T c := by
  cases Node.fails hfail with
  | query | opens | inTx => exact h.1 f

end Counts

end TxStore
