import PaymentApis.Lib.ReadCommitted

/-!
# Rely/guarantee proofs about client programs

A `Contract` says what the committed rows always satisfy (`Inv`), what the
other processes may do to them while a transaction is open (`Rely`), what must
hold where a statement runs (`Pre`), and what a commit may do (`Guar`).

`Body.Safe` and `Client.Safe` walk a program once, from a state, allowing the
others a `Rely` step before each of its own. `Reach.safe` turns walks of the
single programs into a fact about every interleaving: the invariant holds, and
every open program is still safe from where it stands. `Reach.refines` gives
the same for a reader who only wants the committed work: every reachable state
is reached by a sequence of atomic commits, each satisfying the guarantee.
-/

namespace TxStore

variable {Row Loc : Type} [DecidableEq Loc] {key : Row → Loc} {S : Type} {R : S → Type}
  {Fault ε τ X J α β γ : Type}

/-- The contract of one proof. -/
structure Contract (Row Loc : Type) (key : Row → Loc) (S : Type) (R : S → Type)
    (Fault ε τ X : Type) where
  Inv : Table Row Loc key → Prop
  Rely : Priv Row Loc S R Fault ε X → Table Row Loc key → Table Row Loc key → Prop
  Pre : List (Ev S R Fault ε X) → Priv Row Loc S R Fault ε X → S → Table Row Loc key → Prop
  Guar : List (Ev S R Fault ε X) → Item S R Fault ε τ X → Priv Row Loc S R Fault ε X → ℕ →
    Table Row Loc key → Prop

/-- The body runs safely from a private state and a store. -/
def Body.Safe (E : Engine Row Loc key S R Fault ε X) (C : Contract Row Loc key S R Fault ε τ X)
    (log : List (Ev S R Fault ε X))
    (post : β → Priv Row Loc S R Fault ε X → Table Row Loc key → Prop)
    (epost : ε → Priv Row Loc S R Fault ε X → Table Row Loc key → Prop) :
    Body S R ε β → Priv Row Loc S R Fault ε X → Table Row Loc key → Prop
  | .ret b, p, d => ∀ d', C.Rely p d d' → C.Inv d' → post b p d'
  | .throw e, p, d => ∀ d', C.Rely p d d' → C.Inv d' → epost e p d'
  | .stmt s k, p, d => ∀ d', C.Rely p d d' → C.Inv d' → C.Pre log p s d' ∧
      ∀ env busy r ws, (E.exec s env busy (p.view d')).out = .ok (r, ws) →
        (k r).Safe E C log post epost
          (p.add s r ((E.exec s env busy (p.view d')).locked key) ws) d'

/-- The private state of a single auto-committed statement. -/
def Priv.auto (s : S) (r : R s) (locked : List Loc) (ws : List Row) :
    Priv Row Loc S R Fault ε X := Priv.begin.add s r locked ws

/-- The program runs safely from what its process has observed and a store. -/
def Client.Safe (E : Engine Row Loc key S R Fault ε X)
    (C : Contract Row Loc key S R Fault ε τ X)
    (post : α → List (Ev S R Fault ε X) → Table Row Loc key → Prop)
    (epost : ε → List (Ev S R Fault ε X) → Table Row Loc key → Prop) :
    Client S R ε τ X α → List (Ev S R Fault ε X) → Table Row Loc key → Prop
  | .ret a, log, d => ∀ d', C.Rely .begin d d' → C.Inv d' → post a log d'
  | .throw e, log, d => ∀ d', C.Rely .begin d d' → C.Inv d' → epost e log d'
  | .query s k, log, d => ∀ d', C.Rely .begin d d' → C.Inv d' →
      (∀ f, (k (.error (E.raise f))).Safe E C post epost (log ++ [.fault f]) d') ∧
      ∀ env busy r ws, (E.exec s env busy d').out = .ok (r, ws) →
        C.Guar log (.auto s r) (.auto s r ((E.exec s env busy d').locked key) ws) env.now d' ∧
        (k (.ok r)).Safe E C post epost (log ++ [.stmt s r]) (d'.install ws)
  | .txn t body k, log, d => ∀ d', C.Rely .begin d d' → C.Inv d' →
      (∀ f, (k (.error (E.raise f))).Safe E C post epost (log ++ [.fault f]) d') ∧
      body.Safe E C log
        (fun b p d'' => (∀ now, C.Guar log (.txn t p.events) p now d'') ∧
          (k (.ok b)).Safe E C post epost (log ++ p.events) (d''.install p.writes))
        (fun e _ d'' => (k (.error e)).Safe E C post epost log d'') .begin d'
  | .call x k, log, d => ∀ d', C.Rely .begin d d' → C.Inv d' →
      (∀ now, C.Guar log (.call x (E.answer x)) .begin now d') ∧
      (k (E.answer x)).Safe E C post epost (log ++ [.call x (E.answer x)]) d'

/-- The laws of a contract. `side` is what the schedules under consideration
promise about the open transactions of the others at a commit. -/
structure Contract.Lawful (C : Contract Row Loc key S R Fault ε τ X)
    (side : Priv Row Loc S R Fault ε X → Priv Row Loc S R Fault ε X → Prop) : Prop where
  refl : ∀ p d, C.Rely p d d
  trans : ∀ p d₁ d₂ d₃, C.Rely p d₁ d₂ → C.Rely p d₂ d₃ → C.Rely p d₁ d₃
  drop : ∀ p d d', C.Rely p d d' → C.Rely .begin d d'
  inv : ∀ log it p now d, C.Inv d → C.Guar log it p now d → C.Inv (d.install p.writes)
  rely : ∀ log it p now d q, C.Inv d → C.Guar log it p now d → p.Covered key →
    (∀ l ∈ p.locks, l ∉ q.locks) → side p q → C.Rely q d (d.install p.writes)

section Rules

variable {E : Engine Row Loc key S R Fault ε X} {C : Contract Row Loc key S R Fault ε τ X}

theorem Body.Safe.rely {side} (hC : C.Lawful side) {log : List (Ev S R Fault ε X)}
    {post : β → Priv Row Loc S R Fault ε X → Table Row Loc key → Prop}
    {epost : ε → Priv Row Loc S R Fault ε X → Table Row Loc key → Prop}
    {b : Body S R ε β} {p : Priv Row Loc S R Fault ε X} {d d' : Table Row Loc key}
    (h : b.Safe E C log post epost p d) (hd : C.Rely p d d') :
    b.Safe E C log post epost p d' := by
  cases b with
  | ret b => exact fun d'' hr hi => h d'' (hC.trans _ _ _ _ hd hr) hi
  | throw e => exact fun d'' hr hi => h d'' (hC.trans _ _ _ _ hd hr) hi
  | stmt s k => exact fun d'' hr hi => h d'' (hC.trans _ _ _ _ hd hr) hi

theorem Client.Safe.rely {side} (hC : C.Lawful side)
    {post : α → List (Ev S R Fault ε X) → Table Row Loc key → Prop}
    {epost : ε → List (Ev S R Fault ε X) → Table Row Loc key → Prop}
    {c : Client S R ε τ X α} {log : List (Ev S R Fault ε X)} {d d' : Table Row Loc key}
    (h : c.Safe E C post epost log d) (hd : C.Rely .begin d d') :
    c.Safe E C post epost log d' := by
  cases c with
  | ret a => exact fun d'' hr hi => h d'' (hC.trans _ _ _ _ hd hr) hi
  | throw e => exact fun d'' hr hi => h d'' (hC.trans _ _ _ _ hd hr) hi
  | query s k => exact fun d'' hr hi => h d'' (hC.trans _ _ _ _ hd hr) hi
  | txn t body k => exact fun d'' hr hi => h d'' (hC.trans _ _ _ _ hd hr) hi
  | call x k => exact fun d'' hr hi => h d'' (hC.trans _ _ _ _ hd hr) hi

/-- Sequencing inside a transaction. -/
theorem Body.Safe.bind {side} (hC : C.Lawful side) {log : List (Ev S R Fault ε X)}
    {mid : γ → Priv Row Loc S R Fault ε X → Table Row Loc key → Prop}
    {post : β → Priv Row Loc S R Fault ε X → Table Row Loc key → Prop}
    {epost : ε → Priv Row Loc S R Fault ε X → Table Row Loc key → Prop}
    {f : γ → Body S R ε β}
    (hf : ∀ c p d, C.Inv d → mid c p d → (f c).Safe E C log post epost p d) :
    ∀ {b : Body S R ε γ} {p : Priv Row Loc S R Fault ε X} {d : Table Row Loc key},
      C.Inv d → b.Safe E C log mid epost p d → (b >>= f).Safe E C log post epost p d
  | .ret c, p, d, hi, h => hf c p d hi (h d (hC.refl p d) hi)
  | .throw _, _, _, _, h => h
  | .stmt _ _, _, _, _, h => fun d' hr hi' => by
      obtain ⟨hpre, hstep⟩ := h d' hr hi'
      exact ⟨hpre, fun env busy r ws hout => Body.Safe.bind hC hf hi' (hstep env busy r ws hout)⟩

/-- A transaction throws only what its body throws. -/
theorem Body.Safe.imp {log : List (Ev S R Fault ε X)}
    {post post' : β → Priv Row Loc S R Fault ε X → Table Row Loc key → Prop}
    {epost epost' : ε → Priv Row Loc S R Fault ε X → Table Row Loc key → Prop}
    (hp : ∀ b p d, C.Inv d → post b p d → post' b p d)
    (he : ∀ e p d, C.Inv d → epost e p d → epost' e p d) :
    ∀ {b : Body S R ε β} {p : Priv Row Loc S R Fault ε X} {d : Table Row Loc key},
      b.Safe E C log post epost p d → b.Safe E C log post' epost' p d
  | .ret b, p, _, h => fun d' hr hi => hp b p d' hi (h d' hr hi)
  | .throw e, p, _, h => fun d' hr hi => he e p d' hi (h d' hr hi)
  | .stmt _ _, _, _, h => fun d' hr hi => by
      obtain ⟨hpre, hstep⟩ := h d' hr hi
      exact ⟨hpre, fun env busy r ws hout => Body.Safe.imp hp he (hstep env busy r ws hout)⟩

/-- Where a transaction ends, the store has moved from where it began only as
the others may move it. -/
theorem Body.Safe.since {side} (hC : C.Lawful side) {log : List (Ev S R Fault ε X)}
    {post : β → Priv Row Loc S R Fault ε X → Table Row Loc key → Prop}
    {epost : ε → Priv Row Loc S R Fault ε X → Table Row Loc key → Prop} {d₀ : Table Row Loc key} :
    ∀ {b : Body S R ε β} {p : Priv Row Loc S R Fault ε X} {d : Table Row Loc key},
      C.Rely .begin d₀ d → b.Safe E C log post epost p d →
      b.Safe E C log (fun c p d => C.Rely .begin d₀ d ∧ post c p d)
        (fun e p d => C.Rely .begin d₀ d ∧ epost e p d) p d
  | .ret _, _, _, h₀, h => fun d' hr hi => ⟨hC.trans _ _ _ _ h₀ (hC.drop _ _ _ hr), h d' hr hi⟩
  | .throw _, _, _, h₀, h => fun d' hr hi => ⟨hC.trans _ _ _ _ h₀ (hC.drop _ _ _ hr), h d' hr hi⟩
  | .stmt _ _, _, _, h₀, h => fun d' hr hi => by
      obtain ⟨hpre, hstep⟩ := h d' hr hi
      exact ⟨hpre, fun env busy r ws hout =>
        Body.Safe.since hC (hC.trans _ _ _ _ h₀ (hC.drop _ _ _ hr)) (hstep env busy r ws hout)⟩

/-- Sequencing of client programs. -/
theorem Client.Safe.bind {side} (hC : C.Lawful side) {δ : Type}
    {mid : γ → List (Ev S R Fault ε X) → Table Row Loc key → Prop}
    {post : δ → List (Ev S R Fault ε X) → Table Row Loc key → Prop}
    {epost : ε → List (Ev S R Fault ε X) → Table Row Loc key → Prop}
    {f : γ → Client S R ε τ X δ}
    (hf : ∀ c log d, C.Inv d → mid c log d → (f c).Safe E C post epost log d) :
    ∀ {c : Client S R ε τ X γ} {log : List (Ev S R Fault ε X)} {d : Table Row Loc key},
      C.Inv d → c.Safe E C mid epost log d → (c >>= f).Safe E C post epost log d
  | .ret c, log, d, hi, h => hf c log d hi (h d (hC.refl _ d) hi)
  | .throw _, _, _, _, h => h
  | .query _ _, log, _, _, h => fun d' hr hi' => by
      obtain ⟨hfault, hstep⟩ := h d' hr hi'
      refine ⟨fun f => Client.Safe.bind hC hf hi' (hfault f), fun env busy r ws hout => ?_⟩
      obtain ⟨hg, hk⟩ := hstep env busy r ws hout
      exact ⟨hg, Client.Safe.bind hC hf (hC.inv _ _ _ _ _ hi' hg) hk⟩
  | .txn _ _ _, log, _, _, h => fun d' hr hi' => by
      obtain ⟨hfault, hbody⟩ := h d' hr hi'
      refine ⟨fun f => Client.Safe.bind hC hf hi' (hfault f), hbody.imp ?_ ?_⟩
      · intro b p d'' hi'' hpost
        exact ⟨hpost.1,
          Client.Safe.bind hC hf (hC.inv _ _ _ 0 _ hi'' (hpost.1 0)) hpost.2⟩
      · intro e p d'' hi'' hpost
        exact Client.Safe.bind hC hf hi'' hpost
  | .call _ _, log, _, _, h => fun d' hr hi' => by
      obtain ⟨hg, hk⟩ := h d' hr hi'
      exact ⟨hg, Client.Safe.bind hC hf hi' hk⟩

/-- Exception handling in client programs. -/
theorem Client.Safe.tryCatch {side} (hC : C.Lawful side)
    {post : α → List (Ev S R Fault ε X) → Table Row Loc key → Prop}
    {mid epost : ε → List (Ev S R Fault ε X) → Table Row Loc key → Prop}
    {h : ε → Client S R ε τ X α}
    (hh : ∀ e log d, C.Inv d → mid e log d → (h e).Safe E C post epost log d) :
    ∀ {c : Client S R ε τ X α} {log : List (Ev S R Fault ε X)} {d : Table Row Loc key},
      C.Inv d → c.Safe E C post mid log d → (c.tryCatch h).Safe E C post epost log d
  | .ret _, _, _, _, hc => hc
  | .throw e, log, d, hi, hc => hh e log d hi (hc d (hC.refl _ d) hi)
  | .query _ _, log, _, _, hc => fun d' hr hi' => by
      obtain ⟨hfault, hstep⟩ := hc d' hr hi'
      refine ⟨fun f => Client.Safe.tryCatch hC hh hi' (hfault f), fun env busy r ws hout => ?_⟩
      obtain ⟨hg, hk⟩ := hstep env busy r ws hout
      exact ⟨hg, Client.Safe.tryCatch hC hh (hC.inv _ _ _ _ _ hi' hg) hk⟩
  | .txn _ _ _, log, _, _, hc => fun d' hr hi' => by
      obtain ⟨hfault, hbody⟩ := hc d' hr hi'
      refine ⟨fun f => Client.Safe.tryCatch hC hh hi' (hfault f), hbody.imp ?_ ?_⟩
      · intro b p d'' hi'' hpost
        exact ⟨hpost.1,
          Client.Safe.tryCatch hC hh (hC.inv _ _ _ 0 _ hi'' (hpost.1 0)) hpost.2⟩
      · intro e p d'' hi'' hpost
        exact Client.Safe.tryCatch hC hh hi'' hpost
  | .call _ _, log, _, _, hc => fun d' hr hi' => by
      obtain ⟨hg, hk⟩ := hc d' hr hi'
      exact ⟨hg, Client.Safe.tryCatch hC hh hi' hk⟩

theorem Client.Safe.imp {post post' : α → List (Ev S R Fault ε X) → Table Row Loc key → Prop}
    {epost epost' : ε → List (Ev S R Fault ε X) → Table Row Loc key → Prop}
    (hp : ∀ a log d, C.Inv d → post a log d → post' a log d)
    (he : ∀ e log d, C.Inv d → epost e log d → epost' e log d) :
    ∀ {c : Client S R ε τ X α} {log : List (Ev S R Fault ε X)} {d : Table Row Loc key},
      c.Safe E C post epost log d → c.Safe E C post' epost' log d
  | .ret a, log, _, h => fun d' hr hi => hp a log d' hi (h d' hr hi)
  | .throw e, log, _, h => fun d' hr hi => he e log d' hi (h d' hr hi)
  | .query _ _, _, _, h => fun d' hr hi => by
      obtain ⟨hfault, hstep⟩ := h d' hr hi
      refine ⟨fun f => Client.Safe.imp hp he (hfault f), fun env busy r ws hout => ?_⟩
      obtain ⟨hg, hk⟩ := hstep env busy r ws hout
      exact ⟨hg, Client.Safe.imp hp he hk⟩
  | .txn _ _ _, _, _, h => fun d' hr hi => by
      obtain ⟨hfault, hbody⟩ := h d' hr hi
      refine ⟨fun f => Client.Safe.imp hp he (hfault f), hbody.imp ?_ ?_⟩
      · exact fun b p d'' _ hpost => ⟨hpost.1, Client.Safe.imp hp he hpost.2⟩
      · exact fun e p d'' _ hpost => Client.Safe.imp hp he hpost
  | .call _ _, _, _, h => fun d' hr hi => by
      obtain ⟨hg, hk⟩ := h d' hr hi
      exact ⟨hg, Client.Safe.imp hp he hk⟩

/-- A body none of whose statements needs a precondition. -/
theorem Body.Safe.of_all {P : S → Prop} (hP : ∀ log p s d, P s → C.Pre log p s d)
    {log : List (Ev S R Fault ε X)} : ∀ {b : Body S R ε β}, b.All P →
    ∀ (p : Priv Row Loc S R Fault ε X) (d : Table Row Loc key),
      b.Safe E C log (fun _ _ _ => True) (fun _ _ _ => True) p d
  | .ret _, _, _, _ => fun _ _ _ => trivial
  | .throw _, _, _, _ => fun _ _ _ => trivial
  | .stmt s _, h, p, _ => fun d' _ _ => ⟨hP log p s d' h.1, fun _ _ r _ _ =>
      Body.Safe.of_all hP (h.2 r) _ d'⟩

end Rules

/-! ## Adding preconditions -/

section Strengthen

variable {E : Engine Row Loc key S R Fault ε X} {C₀ C : Contract Row Loc key S R Fault ε τ X}

/-- A walk under a weaker contract, and one for the preconditions alone. -/
theorem Body.Safe.strengthen (hinv : ∀ d, C.Inv d → C₀.Inv d)
    (hrely : ∀ p d d', C.Rely p d d' → C₀.Rely p d d') {log : List (Ev S R Fault ε X)}
    {post : β → Priv Row Loc S R Fault ε X → Table Row Loc key → Prop}
    {epost : ε → Priv Row Loc S R Fault ε X → Table Row Loc key → Prop} :
    ∀ {b : Body S R ε β} {p : Priv Row Loc S R Fault ε X} {d : Table Row Loc key},
      b.Safe E C₀ log post epost p d →
      b.Safe E C log (fun _ _ _ => True) (fun _ _ _ => True) p d → b.Safe E C log post epost p d
  | .ret _, _, _, h, _ => fun d' hr hi => h d' (hrely _ _ _ hr) (hinv _ hi)
  | .throw _, _, _, h, _ => fun d' hr hi => h d' (hrely _ _ _ hr) (hinv _ hi)
  | .stmt _ _, _, _, h, hpre => fun d' hr hi =>
      ⟨(hpre d' hr hi).1, fun env busy r ws hout => Body.Safe.strengthen hinv hrely
        ((h d' (hrely _ _ _ hr) (hinv _ hi)).2 env busy r ws hout)
        ((hpre d' hr hi).2 env busy r ws hout)⟩

theorem Client.Safe.strengthen (hinv : ∀ d, C.Inv d → C₀.Inv d)
    (hrely : ∀ p d d', C.Rely p d d' → C₀.Rely p d d')
    (hguar : ∀ log it p now d, C₀.Guar log it p now d → C.Guar log it p now d)
    {post : α → List (Ev S R Fault ε X) → Table Row Loc key → Prop}
    {epost : ε → List (Ev S R Fault ε X) → Table Row Loc key → Prop} :
    ∀ {c : Client S R ε τ X α} {log : List (Ev S R Fault ε X)} {d : Table Row Loc key},
      c.Safe E C₀ post epost log d →
      c.Bodies (fun _ body => ∀ log d,
        body.Safe E C log (fun _ _ _ => True) (fun _ _ _ => True) .begin d) →
      c.Safe E C post epost log d
  | .ret _, _, _, h, _ => fun d' hr hi => h d' (hrely _ _ _ hr) (hinv _ hi)
  | .throw _, _, _, h, _ => fun d' hr hi => h d' (hrely _ _ _ hr) (hinv _ hi)
  | .query _ _, _, _, h, hb => fun d' hr hi => by
      obtain ⟨hfault, hok⟩ := h d' (hrely _ _ _ hr) (hinv _ hi)
      refine ⟨fun f => Client.Safe.strengthen hinv hrely hguar (hfault f) (hb _), ?_⟩
      intro env busy r ws hout
      obtain ⟨hg, hk⟩ := hok env busy r ws hout
      exact ⟨hguar _ _ _ _ _ hg, Client.Safe.strengthen hinv hrely hguar hk (hb _)⟩
  | .txn _ _ _, log, _, h, hb => fun d' hr hi => by
      obtain ⟨hfault, hbody⟩ := h d' (hrely _ _ _ hr) (hinv _ hi)
      refine ⟨fun f => Client.Safe.strengthen hinv hrely hguar (hfault f) (hb.2 _), ?_⟩
      refine (hbody.strengthen hinv hrely (hb.1 log d')).imp ?_ ?_
      · rintro b p d'' _ ⟨hg, hk⟩
        exact ⟨fun now => hguar _ _ _ _ _ (hg now),
          Client.Safe.strengthen hinv hrely hguar hk (hb.2 _)⟩
      · intro e p d'' _ hk
        exact Client.Safe.strengthen hinv hrely hguar hk (hb.2 _)
  | .call _ _, _, _, h, hb => fun d' hr hi => by
      obtain ⟨hg, hk⟩ := h d' (hrely _ _ _ hr) (hinv _ hi)
      exact ⟨fun now => hguar _ _ _ _ _ (hg now),
        Client.Safe.strengthen hinv hrely hguar hk (hb _)⟩

end Strengthen

/-! ## Every interleaving -/

section Interleaving

variable {post : α → List (Ev S R Fault ε X) → Table Row Loc key → Prop}
  {epost : ε → List (Ev S R Fault ε X) → Table Row Loc key → Prop}

/-- A process is safe from where it stands. -/
def Node.Safe (E : Engine Row Loc key S R Fault ε X) (C : Contract Row Loc key S R Fault ε τ X)
    (post : α → List (Ev S R Fault ε X) → Table Row Loc key → Prop)
    (epost : ε → List (Ev S R Fault ε X) → Table Row Loc key → Prop)
    (n : Node Row Loc S R Fault ε τ X α) (d : Table Row Loc key) : Prop :=
  match n.proc with
  | .run c => c.Safe E C post epost n.log d
  | .inTx t p body k =>
      (∀ f d', C.Rely .begin d d' → C.Inv d' →
        (k (.error (E.raise f))).Safe E C post epost (n.log ++ [.fault f]) d') ∧
      body.Safe E C n.log
        (fun b p d'' => (∀ now, C.Guar n.log (.txn t p.events) p now d'') ∧
          (k (.ok b)).Safe E C post epost (n.log ++ p.events) (d''.install p.writes))
        (fun e _ d'' => (k (.error e)).Safe E C post epost n.log d'') p d
  | .crashed => True

/-- The private part of a process; a process outside a transaction has none. -/
def Node.priv (n : Node Row Loc S R Fault ε τ X α) : Priv Row Loc S R Fault ε X :=
  match n.proc with
  | .inTx _ p _ _ => p
  | _ => .begin

omit [DecidableEq Loc] in
theorem Node.locks_eq (n : Node Row Loc S R Fault ε τ X α) : n.locks = n.priv.locks := by
  unfold Node.locks Node.priv
  cases n.proc <;> rfl

theorem Node.Safe.rely {E : Engine Row Loc key S R Fault ε X}
    {C : Contract Row Loc key S R Fault ε τ X} {side} (hC : C.Lawful side)
    {n : Node Row Loc S R Fault ε τ X α} {d d' : Table Row Loc key}
    (h : n.Safe E C post epost d) (hd : C.Rely n.priv d d') : n.Safe E C post epost d' := by
  obtain ⟨log, proc⟩ := n
  cases proc with
  | run c => exact Client.Safe.rely hC h hd
  | inTx t p body k =>
    exact ⟨fun f d'' hr hi => h.1 f d'' (hC.trans _ _ _ _ (hC.drop _ _ _ hd) hr) hi,
      Body.Safe.rely hC h.2 hd⟩
  | crashed => trivial

/-- What the next step of a safe process does. -/
theorem Node.Safe.step {E : Engine Row Loc key S R Fault ε X}
    {C : Contract Row Loc key S R Fault ε τ X} {side} (hC : C.Lawful side)
    {env : Env} {busy : Loc → Bool} {d : Table Row Loc key}
    {n n' : Node Row Loc S R Fault ε τ X α} {c : Option (Item S R Fault ε τ X × List Row)}
    (h : n.Safe E C post epost d) (hi : C.Inv d) (hcov : n.Covered key)
    (hstep : n.step E env busy d = some (n', c)) :
    (∀ l ∈ n'.locks, l ∈ n.locks ∨ busy l = false) ∧ n'.Covered key ∧
    match c with
    | some (it, ws) => n'.log = n.log ++ it.events ∧ n.live = true ∧
        (∃ p : Priv Row Loc S R Fault ε X, p.writes = ws ∧ C.Guar n.log it p env.now d ∧
          p.Covered key ∧ ∀ l ∈ p.locks, l ∈ n.locks ∨ busy l = false) ∧
        n'.Safe E C post epost (d.install ws)
    | none => (n'.log = n.log ∨ ∃ f, n'.log = n.log ++ [.fault f]) ∧ n.live = true ∧
        n'.Safe E C post epost d := by
  obtain ⟨log, proc⟩ := n
  have hcovAdd : ∀ (p : Priv Row Loc S R Fault ε X) (s : S) (r : R s) (ws : List Row)
      (e : Effect Row Loc Fault (R s)), e.out = .ok (r, ws) → p.Covered key →
      (p.add s r (e.locked key) ws).Covered key := by
    intro p s r ws e hout hp x hx
    simp only [Priv.add, List.mem_append, Effect.locked, hout, List.mem_map] at hx ⊢
    rcases hx with hx | hx
    · exact Or.inl (hp x hx)
    · exact Or.inr (Or.inr ⟨x, hx, rfl⟩)
  cases proc with
  | crashed => simp [Node.step] at hstep
  | run c₀ =>
    cases c₀ with
    | ret a => simp [Node.step] at hstep
    | throw e => simp [Node.step] at hstep
    | query s k =>
      obtain ⟨hfault, hok⟩ := h d (hC.refl _ d) hi
      simp only [Node.step] at hstep
      split at hstep
      · simp at hstep
      · rename_i hfree
        split at hstep
        · rename_i r ws hout
          obtain ⟨hg, hk⟩ := hok env busy r ws hout
          simp only [Option.some.injEq, Prod.mk.injEq] at hstep
          obtain ⟨rfl, rfl⟩ := hstep
          refine ⟨by simp [Node.locks], trivial, rfl, rfl, ⟨_, ?_, hg, ?_, ?_⟩, hk⟩
          · simp [Priv.auto, Priv.add, Priv.begin]
          · exact hcovAdd _ _ _ _ _ hout (by simp [Priv.Covered, Priv.begin])
          · intro l hl
            simp only [Priv.auto, Priv.add, Priv.begin, List.nil_append] at hl
            simp only [List.any_eq_true, not_exists, not_and, Bool.not_eq_true] at hfree
            exact Or.inr (hfree l hl)
        · rename_i f hout
          simp only [Option.some.injEq, Prod.mk.injEq] at hstep
          obtain ⟨rfl, rfl⟩ := hstep
          exact ⟨by simp [Node.locks], trivial, Or.inr ⟨f, rfl⟩, rfl, hfault f⟩
    | txn t body k =>
      simp only [Node.step, Option.some.injEq, Prod.mk.injEq] at hstep
      obtain ⟨rfl, rfl⟩ := hstep
      refine ⟨by simp [Node.locks, Priv.begin], by simp [Node.Covered, Priv.Covered, Priv.begin],
        Or.inl rfl, rfl, ?_, ?_⟩
      · exact fun f d' hr hi' => (h d' hr hi').1 f
      · exact (h d (hC.refl _ d) hi).2
    | call x k =>
      obtain ⟨hg, hk⟩ := h d (hC.refl _ d) hi
      simp only [Node.step, Option.some.injEq, Prod.mk.injEq] at hstep
      obtain ⟨rfl, rfl⟩ := hstep
      exact ⟨by simp [Node.locks], trivial, rfl, rfl,
        ⟨.begin, rfl, hg _, by simp [Priv.Covered, Priv.begin], by simp [Priv.begin]⟩, hk⟩
  | inTx t p body k =>
    obtain ⟨hfault, hbody⟩ := h
    cases body with
    | ret b =>
      obtain ⟨hg, hk⟩ := hbody d (hC.refl _ d) hi
      simp only [Node.step, Option.some.injEq, Prod.mk.injEq] at hstep
      obtain ⟨rfl, rfl⟩ := hstep
      exact ⟨by simp [Node.locks], trivial, rfl, rfl,
        ⟨p, rfl, hg _, hcov, fun l hl => Or.inl hl⟩, hk⟩
    | throw e =>
      simp only [Node.step, Option.some.injEq, Prod.mk.injEq] at hstep
      obtain ⟨rfl, rfl⟩ := hstep
      exact ⟨by simp [Node.locks], trivial, Or.inl rfl, rfl, hbody d (hC.refl _ d) hi⟩
    | stmt s k' =>
      obtain ⟨_, hok⟩ := hbody d (hC.refl _ d) hi
      simp only [Node.step] at hstep
      split at hstep
      · simp at hstep
      · rename_i hfree
        simp only [List.any_eq_true, not_exists, not_and, Bool.not_eq_true] at hfree
        split at hstep
        · rename_i r ws hout
          simp only [Option.some.injEq, Prod.mk.injEq] at hstep
          obtain ⟨rfl, rfl⟩ := hstep
          refine ⟨?_, hcovAdd _ _ _ _ _ hout hcov, Or.inl rfl, rfl, hfault, hok env busy r ws hout⟩
          intro l hl
          simp only [Node.locks, Priv.add, List.mem_append] at hl
          exact hl.imp id (fun hl => hfree l hl)
        · rename_i f hout
          simp only [Option.some.injEq, Prod.mk.injEq] at hstep
          obtain ⟨rfl, rfl⟩ := hstep
          exact ⟨by simp [Node.locks], trivial, Or.inr ⟨f, rfl⟩, rfl, hfault f d (hC.refl _ d) hi⟩

/-- The state invariant behind a contract. -/
structure Sys.Safe (E : Engine Row Loc key S R Fault ε X)
    (C : Contract Row Loc key S R Fault ε τ X)
    (post : α → List (Ev S R Fault ε X) → Table Row Loc key → Prop)
    (epost : ε → List (Ev S R Fault ε X) → Table Row Loc key → Prop)
    (s : Sys Row Loc key S R Fault ε τ X α) : Prop where
  inv : C.Inv s.db
  locked : s.Locked
  nodes : ∀ (i : ℕ) (n : Node Row Loc S R Fault ε τ X α), s.nodes[i]? = some n →
    n.Safe E C post epost s.db

/-- Where a safe process stands before a statement, its precondition holds. -/
theorem Node.Safe.pre {E : Engine Row Loc key S R Fault ε X}
    {C : Contract Row Loc key S R Fault ε τ X} {side} (hC : C.Lawful side)
    {n : Node Row Loc S R Fault ε τ X α} {d : Table Row Loc key}
    (h : n.Safe E C post epost d) (hi : C.Inv d)
    {p : Priv Row Loc S R Fault ε X} {s : S} (hn : n.next = some (p, s)) : C.Pre n.log p s d := by
  obtain ⟨log, proc⟩ := n
  unfold Node.next at hn
  split at hn
  · rename_i hproc
    simp only at hproc
    subst hproc
    obtain ⟨rfl, rfl⟩ := by simpa using hn
    exact (h.2 d (hC.refl _ d) hi).1
  · simp at hn

/-- The schedules under consideration keep the promise `side` at every commit. -/
def SideOk (E : Engine Row Loc key S R Fault ε X)
    (side : Priv Row Loc S R Fault ε X → Priv Row Loc S R Fault ε X → Prop)
    (ok : Sys Row Loc key S R Fault ε τ X α → Label Fault J →
      Sys Row Loc key S R Fault ε τ X α → Prop) : Prop :=
  ∀ s i u n o, s.Locked → s.nodes[i]? = some n →
    n.step E ⟨s.now, u⟩ (s.busy i) s.db = some o → ok s (.run i u) (s.advance i o.1 o.2) →
    ∀ it ws, o.2 = some (it, ws) → ∀ (j : ℕ) (m : Node Row Loc S R Fault ε τ X α), j ≠ i →
      s.nodes[j]? = some m → ∀ p : Priv Row Loc S R Fault ε X, p.writes = ws → side p m.priv

theorem Sys.Safe.advance_quiet {E : Engine Row Loc key S R Fault ε X}
    {C : Contract Row Loc key S R Fault ε τ X} {s : Sys Row Loc key S R Fault ε τ X α}
    (h : s.Safe E C post epost) {i : ℕ} {n n' : Node Row Loc S R Fault ε τ X α}
    (hn : s.nodes[i]? = some n) (hlocks : ∀ l ∈ n'.locks, l ∈ n.locks ∨ s.busy i l = false)
    (hcov : n'.Covered key) (hsafe : n'.Safe E C post epost s.db) :
    (s.advance i n' none).Safe E C post epost := by
  refine ⟨h.inv, h.locked.advance hn hlocks hcov, ?_⟩
  intro j m hm
  simp only [Sys.advance, List.getElem?_set] at hm
  by_cases hj : i = j
  · simp only [hj, if_true] at hm
    split at hm
    · cases hm
      exact hsafe
    · simp at hm
  · simp only [hj, if_false] at hm
    exact h.nodes j m hm

/-- **Rely/guarantee.** Programs that are safe on their own are safe together:
in every reachable state the invariant holds and every process is safe. -/
theorem Reach.safe {E : Engine Row Loc key S R Fault ε X} {program : J → Client S R ε τ X α}
    {C : Contract Row Loc key S R Fault ε τ X} {side} (hC : C.Lawful side)
    (hinit : C.Inv .empty)
    (hprog : ∀ j d, C.Inv d →
      (program j).Safe E C post epost [] d)
    {ok : Sys Row Loc key S R Fault ε τ X α → Label Fault J →
      Sys Row Loc key S R Fault ε τ X α → Prop} (hside : SideOk E side ok)
    {s : Sys Row Loc key S R Fault ε τ X α} (hs : Reach E program ok s) : s.Safe E C post epost := by
  induction hs with
  | init => exact ⟨hinit, Sys.locked_init, by intro i n hn; simp [Sys.init] at hn⟩
  | @step s s' l _ hstep hok ih =>
    cases l with
    | start j =>
      simp only [Sys.step, Option.some.injEq] at hstep
      subst hstep
      have hsafe := hprog j s.db ih.inv
      refine ⟨ih.inv, ⟨?_, ?_⟩, ?_⟩
      · intro a b m n hab hm hn l hl
        simp only [List.getElem?_append] at hm hn
        split at hm
        · split at hn
          · exact ih.locked.exclusive a b m n hab hm hn l hl
          · rw [List.getElem?_singleton] at hn
            split at hn
            · cases hn
              simp [Node.locks]
            · simp at hn
        · rw [List.getElem?_singleton] at hm
          split at hm
          · cases hm
            simp [Node.locks] at hl
          · simp at hm
      · intro a m hm
        simp only [List.getElem?_append] at hm
        split at hm
        · exact ih.locked.covered a m hm
        · rw [List.getElem?_singleton] at hm
          split at hm
          · cases hm
            trivial
          · simp at hm
      · intro a m hm
        simp only [List.getElem?_append] at hm
        split at hm
        · exact ih.nodes a m hm
        · rw [List.getElem?_singleton] at hm
          split at hm
          · cases hm
            exact hsafe
          · simp at hm
    | tick n =>
      simp only [Sys.step, Option.some.injEq] at hstep
      subst hstep
      exact ⟨ih.inv, ⟨ih.locked.exclusive, ih.locked.covered⟩, ih.nodes⟩
    | crash i =>
      simp only [Sys.step, Option.map_eq_some_iff] at hstep
      obtain ⟨n, hn, rfl⟩ := hstep
      exact ih.advance_quiet hn (by simp [Node.locks]) trivial trivial
    | fault i f =>
      simp only [Sys.step] at hstep
      split at hstep
      · simp at hstep
      · rename_i n hn
        simp only [Option.map_eq_some_iff] at hstep
        obtain ⟨n', hn', rfl⟩ := hstep
        have hsafe := ih.nodes i n hn
        obtain ⟨log, proc⟩ := n
        cases proc with
        | crashed => simp [Node.fail] at hn'
        | run c =>
          cases c with
          | ret a => simp [Node.fail] at hn'
          | throw e => simp [Node.fail] at hn'
          | call x k => simp [Node.fail] at hn'
          | query q k =>
            simp only [Node.fail, Option.some.injEq] at hn'
            subst hn'
            exact ih.advance_quiet hn (by simp [Node.locks]) trivial
              ((hsafe s.db (hC.refl _ _) ih.inv).1 f)
          | txn t body k =>
            simp only [Node.fail, Option.some.injEq] at hn'
            subst hn'
            exact ih.advance_quiet hn (by simp [Node.locks]) trivial
              ((hsafe s.db (hC.refl _ _) ih.inv).1 f)
        | inTx t p body k =>
          simp only [Node.fail, Option.some.injEq] at hn'
          subst hn'
          exact ih.advance_quiet hn (by simp [Node.locks]) trivial
            (hsafe.1 f s.db (hC.refl _ _) ih.inv)
    | run i u =>
      simp only [Sys.step] at hstep
      split at hstep
      · simp at hstep
      · rename_i n hn
        simp only [Option.map_eq_some_iff] at hstep
        obtain ⟨⟨n', c⟩, hn', rfl⟩ := hstep
        obtain ⟨hlocks, hcov, hrest⟩ :=
          (ih.nodes i n hn).step hC ih.inv (ih.locked.covered i n hn) hn'
        cases c with
        | none => exact ih.advance_quiet hn hlocks hcov hrest.2.2
        | some itws =>
          obtain ⟨it, ws⟩ := itws
          obtain ⟨_, _, ⟨p, rfl, hg, hpcov, hplocks⟩, hsafe⟩ := hrest
          refine ⟨hC.inv _ _ _ _ _ ih.inv hg, ih.locked.advance hn hlocks hcov, ?_⟩
          intro j m hm
          simp only [Sys.advance, List.getElem?_set] at hm
          by_cases hj : i = j
          · simp only [hj, if_true] at hm
            split at hm
            · cases hm
              exact hsafe
            · simp at hm
          · simp only [hj, if_false] at hm
            refine (ih.nodes j m hm).rely hC (hC.rely _ _ _ _ _ _ ih.inv hg hpcov ?_ ?_)
            · intro l hl
              rw [← Node.locks_eq]
              rcases hplocks l hl with hold | hfree
              · exact ih.locked.exclusive i j n m hj hn hm l hold
              · exact Sys.busy_eq_false.mp hfree j m (fun e => hj e.symm) hm
            · exact hside s i u n _ ih.locked hn hn' hok it _ rfl j m (fun e => hj e.symm) hm p rfl

end Interleaving

end TxStore
