import PaymentApis.Lib.Window

/-!
# The last statement of a program

`Client.Closes p` says of a program, by itself, that the last thing it does is a
statement, which it reaches whatever its transactions and calls answer; `p`
relates the statement and what the program returns then, whatever the statement
answers. A process that is to close is running.
-/

namespace TxStore

variable {Row Loc : Type} [DecidableEq Loc] {key : Row → Loc} {S : Type} {R : S → Type}
  {Fault ε τ X J α β : Type}

/-! ## One program -/

/-- After transactions and calls only, the program issues a statement and returns
with it, as `p` says, or returns or throws where `Q` or `T` holds. -/
def Client.Closes (p : S → α → Prop) (Q : α → Prop) (T : ε → Prop) : Client S R ε τ X α → Prop
  | .ret a => Q a
  | .throw e => T e
  | .query s k => ∃ a, p s a ∧ ∀ r, k r = .ret a
  | .txn _ _ k => ∀ r, (k r).Closes p Q T
  | .call _ k => ∀ r, (k r).Closes p Q T

section Rules

variable {p : S → α → Prop} {p' : S → β → Prop} {Q : α → Prop} {Q' : β → Prop} {T T' : ε → Prop}

/-- What comes before the last statement issues none by itself. -/
theorem Client.Closes.bind {f : α → Client S R ε τ X β} (hf : ∀ a, Q a → (f a).Closes p' Q' T) :
    ∀ {c : Client S R ε τ X α}, c.Closes (fun _ _ => False) Q T → (c >>= f).Closes p' Q' T
  | .ret a, h => hf a h
  | .throw _, h => h
  | .query _ _, h => h.choose_spec.1.elim
  | .txn _ _ _, h => fun r => Client.Closes.bind hf (h r)
  | .call _ _, h => fun r => Client.Closes.bind hf (h r)

theorem Client.Closes.tryCatch {g : ε → Client S R ε τ X α}
    (hg : ∀ e, T e → (g e).Closes p Q T') : ∀ {c : Client S R ε τ X α},
      c.Closes (fun _ _ => False) Q T → (c.tryCatch g).Closes p Q T'
  | .ret _, h => h
  | .throw e, h => hg e h
  | .query _ _, h => h.choose_spec.1.elim
  | .txn _ _ _, h => fun r => Client.Closes.tryCatch hg (h r)
  | .call _ _, h => fun r => Client.Closes.tryCatch hg (h r)

theorem Client.Closes.map {g : α → β} (hp : ∀ s a, p s a → p' s (g a)) (hq : ∀ a, Q a → Q' (g a)) :
    ∀ {c : Client S R ε τ X α}, c.Closes p Q T → (c >>= fun a => pure (g a)).Closes p' Q' T
  | .ret a, h => hq a h
  | .throw _, h => h
  | .query s k, ⟨a, ha, hret⟩ => by
      refine ⟨g a, hp s a ha, ?_⟩
      intro r
      show (k r).bind _ = _
      rw [hret r]
      rfl
  | .txn _ _ _, h => fun r => Client.Closes.map hp hq (h r)
  | .call _ _, h => fun r => Client.Closes.map hp hq (h r)

theorem Client.Closes.orReturn {g : ε → α} (hg : ∀ e, T e → Q (g e)) :
    ∀ {c : Client S R ε τ X α}, c.Closes p Q T →
      (c.tryCatch fun e => pure (g e)).Closes p Q T'
  | .ret _, h => h
  | .throw e, h => hg e h
  | .query s k, ⟨a, ha, hret⟩ => by
      refine ⟨a, ha, ?_⟩
      intro r
      show (k r).tryCatch _ = _
      rw [hret r]
      rfl
  | .txn _ _ _, h => fun r => Client.Closes.orReturn hg (h r)
  | .call _ _, h => fun r => Client.Closes.orReturn hg (h r)

end Rules

/-! ## One process -/

/-- The process is to close with a statement, and return as `p` says. -/
def Node.Closes (p : S → α → Prop) (n : Node Row Loc S R Fault ε τ X α) : Prop :=
  match n.proc with
  | .run c => c.Closes p (fun _ => False) (fun _ => False)
  | .inTx _ _ _ k => ∀ r, (k r).Closes p (fun _ => False) (fun _ => False)
  | .crashed => False

section Node

variable {E : Engine Row Loc key S R Fault ε X} {p : S → α → Prop}
  {n n' : Node Row Loc S R Fault ε τ X α}

omit [DecidableEq Loc] in
theorem Node.Closes.live (h : n.Closes p) : n.live = true := by
  obtain ⟨log, proc⟩ := n
  cases proc with
  | crashed => exact absurd h id
  | inTx t q body k => rfl
  | run c =>
    cases c with
    | ret a => exact absurd h id
    | throw e => exact absurd h id
    | query | txn | call => rfl

/-- A step leaves a process that is to close so, or is its last statement. -/
theorem Node.Closes.step {env : Env} {busy : Loc → Bool} {db : Table Row Loc key}
    {c : Option (Item S R Fault ε τ X × List Row)} (h : n.Closes p)
    (hstep : n.step E env busy db = some (n', c)) :
    (n'.Closes p ∧ ∀ s r ws, c ≠ some (.auto s r, ws)) ∨
      ∃ s k a, n.proc = .run (.query s k) ∧ p s a ∧ n'.proc = .run (.ret a) ∧
        ((∃ r ws, c = some (.auto s r, ws)) ∨ ∃ f, (E.exec s env busy db).out = .error f) := by
  cases Node.moves hstep with
  | @query _ s k r ws _ _ =>
    obtain ⟨a, ha, hret⟩ := h
    exact .inr ⟨s, k, a, rfl, ha, by rw [hret], .inl ⟨r, ws, rfl⟩⟩
  | @queryFails _ s k f hout =>
    obtain ⟨a, ha, hret⟩ := h
    exact .inr ⟨s, k, a, rfl, ha, by rw [hret], .inr ⟨f, hout⟩⟩
  | call => exact .inl ⟨h _, by simp⟩
  | opens => exact .inl ⟨h, by simp⟩
  | stmt => exact .inl ⟨h, by simp⟩
  | stmtFails => exact .inl ⟨h _, by simp⟩
  | commits => exact .inl ⟨h _, by simp⟩
  | throws => exact .inl ⟨h _, by simp⟩

omit [DecidableEq Loc] in
theorem Node.Closes.fail {f : Fault} (h : n.Closes p) (hfail : n.fail E f = some n') :
    n'.Closes p ∨ ∃ s k a, n.proc = .run (.query s k) ∧ p s a ∧ n'.proc = .run (.ret a) := by
  cases Node.fails hfail with
  | @query _ s k =>
    obtain ⟨a, ha, hret⟩ := h
    exact .inr ⟨s, k, a, rfl, ha, by rw [hret]⟩
  | opens => exact .inl (h _)
  | inTx => exact .inl (h _)

theorem Node.live_of_step {env : Env} {busy : Loc → Bool} {db : Table Row Loc key}
    {c : Option (Item S R Fault ε τ X × List Row)} (hstep : n.step E env busy db = some (n', c)) :
    n.live = true := by
  cases Node.moves hstep <;> rfl

omit [DecidableEq Loc] in
theorem Node.live_of_fail {f : Fault} (hfail : n.fail E f = some n') : n.live = true := by
  cases Node.fails hfail <;> rfl

end Node

end TxStore
