import Mathlib.Tactic

/-!
# Client programs of a transactional store

`Body` is the body of one database transaction: a tree of statements, each
answered by the store. `Client` is the program around the transactions: single
auto-committed statements, whole transactions, and calls to the outside world.
A client sees the failure of a statement, of a transaction or of a call as an
`Except` answer; a transaction body never continues after a failed statement.

Both are trees that branch on the answers, so a program is plain data: what it
does next in a state is read off its root.
-/

namespace TxStore

inductive Body (S : Type) (R : S → Type) (ε α : Type) : Type
  | ret (a : α)
  | throw (e : ε)
  | stmt (s : S) (k : R s → Body S R ε α)

namespace Body

variable {S : Type} {R : S → Type} {ε α β γ : Type}

def bind : Body S R ε α → (α → Body S R ε β) → Body S R ε β
  | .ret a, f => f a
  | .throw e, _ => .throw e
  | .stmt s k, f => .stmt s (fun r => (k r).bind f)

instance : Monad (Body S R ε) where
  pure := .ret
  bind := bind

/-- One statement, returning its answer. -/
def call (s : S) : Body S R ε (R s) := .stmt s .ret

def ofExcept : Except ε α → Body S R ε α
  | .ok a => .ret a
  | .error e => .throw e

/-- Every statement the body can issue satisfies `P`. -/
def All (P : S → Prop) : Body S R ε α → Prop
  | .ret _ => True
  | .throw _ => True
  | .stmt s k => P s ∧ ∀ r, (k r).All P

@[simp] theorem ret_bind (a : α) (f : α → Body S R ε β) : (ret a >>= f) = f a := rfl

@[simp] theorem pure_eq (a : α) : (pure a : Body S R ε α) = ret a := rfl

@[simp] theorem throw_bind (e : ε) (f : α → Body S R ε β) : (throw e >>= f) = throw e := rfl

@[simp] theorem call_bind (s : S) (f : R s → Body S R ε β) : (call s >>= f) = stmt s f := rfl

@[simp] theorem stmt_bind (s : S) (k : R s → Body S R ε α) (f : α → Body S R ε β) :
    (stmt s k >>= f) = stmt s (fun r => k r >>= f) := rfl

theorem bind_ret : ∀ b : Body S R ε α, (b >>= fun a => ret a) = b
  | .ret _ => rfl
  | .throw _ => rfl
  | .stmt s k => by
      rw [stmt_bind]
      exact congrArg (stmt s) (funext fun r => bind_ret (k r))

theorem All.bind {P : S → Prop} {f : α → Body S R ε β} (hf : ∀ a, (f a).All P) :
    ∀ {b : Body S R ε α}, b.All P → (b >>= f).All P
  | .ret a, _ => hf a
  | .throw _, _ => trivial
  | .stmt _ _, h => ⟨h.1, fun r => All.bind hf (h.2 r)⟩

theorem All.map {P : S → Prop} {g : α → β} {b : Body S R ε α} (h : b.All P) :
    (b >>= fun a => pure (g a)).All P := by
  refine All.bind ?_ h
  exact fun _ => trivial

end Body

inductive Client (S : Type) (R : S → Type) (ε τ X α : Type) : Type 1
  | ret (a : α)
  | throw (e : ε)
  | query (s : S) (k : Except ε (R s) → Client S R ε τ X α)
  | txn {β : Type} (t : τ) (body : Body S R ε β) (k : Except ε β → Client S R ε τ X α)
  | call (x : X) (k : Except ε Unit → Client S R ε τ X α)

namespace Client

variable {S : Type} {R : S → Type} {ε τ X α β : Type}

def bind : Client S R ε τ X α → (α → Client S R ε τ X β) → Client S R ε τ X β
  | .ret a, f => f a
  | .throw e, _ => .throw e
  | .query s k, f => .query s (fun r => (k r).bind f)
  | .txn t body k, f => .txn t body (fun r => (k r).bind f)
  | .call x k, f => .call x (fun r => (k r).bind f)

instance : Monad (Client S R ε τ X) where
  pure := .ret
  bind := bind

/-- `try c catch h`. -/
def tryCatch : Client S R ε τ X α → (ε → Client S R ε τ X α) → Client S R ε τ X α
  | .ret a, _ => .ret a
  | .throw e, h => h e
  | .query s k, h => .query s (fun r => (k r).tryCatch h)
  | .txn t body k, h => .txn t body (fun r => (k r).tryCatch h)
  | .call x k, h => .call x (fun r => (k r).tryCatch h)

def ofExcept : Except ε α → Client S R ε τ X α
  | .ok a => .ret a
  | .error e => .throw e

/-- One auto-committed statement; its failure is thrown. -/
def exec (s : S) : Client S R ε τ X (R s) := .query s ofExcept

/-- One transaction; the error that ended it is thrown. -/
def transaction (t : τ) (body : Body S R ε α) : Client S R ε τ X α := .txn t body ofExcept

/-- One call to the outside world; its failure is thrown. -/
def external (x : X) : Client S R ε τ X Unit := .call x ofExcept

/-- A finished program takes no further step. -/
def finished : Client S R ε τ X α → Bool
  | .ret _ => true
  | .throw _ => true
  | _ => false

/-- Every transaction body the program can open satisfies `Q`. -/
def Bodies (Q : (β : Type) → Body S R ε β → Prop) : Client S R ε τ X α → Prop
  | .ret _ => True
  | .throw _ => True
  | .query _ k => ∀ r, (k r).Bodies Q
  | .txn _ body k => Q _ body ∧ ∀ r, (k r).Bodies Q
  | .call _ k => ∀ r, (k r).Bodies Q

/-- Every transaction the program can open is, with its name, one of `Q`. -/
def Opens (Q : (β : Type) → τ → Body S R ε β → Prop) : Client S R ε τ X α → Prop
  | .ret _ => True
  | .throw _ => True
  | .query _ k => ∀ r, (k r).Opens Q
  | .txn t body k => Q _ t body ∧ ∀ r, (k r).Opens Q
  | .call _ k => ∀ r, (k r).Opens Q

@[simp] theorem ret_bind (a : α) (f : α → Client S R ε τ X β) : (ret a >>= f) = f a := rfl

@[simp] theorem pure_eq (a : α) : (pure a : Client S R ε τ X α) = ret a := rfl

@[simp] theorem throw_bind (e : ε) (f : α → Client S R ε τ X β) : (throw e >>= f) = throw e := rfl

@[simp] theorem query_bind (s : S) (k : Except ε (R s) → Client S R ε τ X α)
    (f : α → Client S R ε τ X β) : (query s k >>= f) = query s (fun r => k r >>= f) := rfl

@[simp] theorem txn_bind {γ : Type} (t : τ) (body : Body S R ε γ)
    (k : Except ε γ → Client S R ε τ X α) (f : α → Client S R ε τ X β) :
    (txn t body k >>= f) = txn t body (fun r => k r >>= f) := rfl

@[simp] theorem call_bind (x : X) (k : Except ε Unit → Client S R ε τ X α)
    (f : α → Client S R ε τ X β) : (call x k >>= f) = call x (fun r => k r >>= f) := rfl

section Opens

variable {Q : (β : Type) → τ → Body S R ε β → Prop}

theorem Opens.ofExcept (r : Except ε α) : (ofExcept r : Client S R ε τ X α).Opens Q := by
  cases r <;> trivial

theorem Opens.exec (s : S) : (exec s : Client S R ε τ X (R s)).Opens Q := Opens.ofExcept

theorem Opens.external (x : X) : (external x : Client S R ε τ X Unit).Opens Q := Opens.ofExcept

theorem Opens.transaction {t : τ} {body : Body S R ε α} (h : Q α t body) :
    (transaction t body : Client S R ε τ X α).Opens Q := ⟨h, Opens.ofExcept⟩

theorem Opens.bind {f : α → Client S R ε τ X β} (hf : ∀ a, (f a).Opens Q) :
    ∀ {c : Client S R ε τ X α}, c.Opens Q → (c >>= f).Opens Q
  | .ret a, _ => hf a
  | .throw _, _ => trivial
  | .query _ _, h => fun r => Opens.bind hf (h r)
  | .txn _ _ _, h => ⟨h.1, fun r => Opens.bind hf (h.2 r)⟩
  | .call _ _, h => fun r => Opens.bind hf (h r)

theorem Opens.map {g : α → β} {c : Client S R ε τ X α} (h : c.Opens Q) :
    (c >>= fun a => pure (g a)).Opens Q := by
  refine Opens.bind ?_ h
  exact fun _ => trivial

theorem Opens.tryCatch {g : ε → Client S R ε τ X α} (hg : ∀ e, (g e).Opens Q) :
    ∀ {c : Client S R ε τ X α}, c.Opens Q → (c.tryCatch g).Opens Q
  | .ret _, _ => trivial
  | .throw e, _ => hg e
  | .query _ _, h => fun r => Opens.tryCatch hg (h r)
  | .txn _ _ _, h => ⟨h.1, fun r => Opens.tryCatch hg (h.2 r)⟩
  | .call _ _, h => fun r => Opens.tryCatch hg (h r)

theorem Opens.imp {Q' : (β : Type) → τ → Body S R ε β → Prop} (hq : ∀ β t b, Q β t b → Q' β t b) :
    ∀ {c : Client S R ε τ X α}, c.Opens Q → c.Opens Q'
  | .ret _, _ => trivial
  | .throw _, _ => trivial
  | .query _ _, h => fun r => Opens.imp hq (h r)
  | .txn _ _ _, h => ⟨hq _ _ _ h.1, fun r => Opens.imp hq (h.2 r)⟩
  | .call _ _, h => fun r => Opens.imp hq (h r)

/-- What holds of the transactions a program opens holds of their bodies. -/
theorem Opens.bodies {Q' : (β : Type) → Body S R ε β → Prop}
    (hq : ∀ β t (b : Body S R ε β), Q β t b → Q' β b) :
    ∀ {c : Client S R ε τ X α}, c.Opens Q → c.Bodies Q'
  | .ret _, _ => trivial
  | .throw _, _ => trivial
  | .query _ _, h => fun r => Opens.bodies hq (h r)
  | .txn _ _ _, h => ⟨hq _ _ _ h.1, fun r => Opens.bodies hq (h.2 r)⟩
  | .call _ _, h => fun r => Opens.bodies hq (h r)

end Opens

end Client

end TxStore
