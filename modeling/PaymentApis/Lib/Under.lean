import PaymentApis.Lib.Window

/-!
# Programs on tables of a domain

`Body.Under` and `Client.Under` say of one program, by itself, that it issues only
statements that are `Ok` on the rows they see, as long as every committed table it
acts on lies in the domain `D`. `Run.under` brings this to every process of a run
that stays in the domain.
-/

namespace TxStore

variable {Row Loc : Type} [DecidableEq Loc] {key : Row → Loc} {S : Type} {R : S → Type}
  {Fault ε τ X J α β γ : Type}

section Under

variable (E : Engine Row Loc key S R Fault ε X) (D : Table Row Loc key → Prop)
  (Ok : Table Row Loc key → S → Prop)

/-- On committed tables of the domain, every statement the body issues is `Ok`. -/
def Body.Under : Body S R ε β → Priv Row Loc S R Fault ε X → Prop
  | .ret _, _ => True
  | .throw _, _ => True
  | .stmt s k, p => (∀ d, D d → Ok (p.view d) s) ∧ ∀ env busy d r ws, D d →
      (E.exec s env busy (p.view d)).out = .ok (r, ws) →
      (k r).Under (p.add s r ((E.exec s env busy (p.view d)).locked key) ws)

/-- The same of a program, whose result satisfies `Q`. -/
def Client.Under (Q : α → Prop) : Client S R ε τ X α → Prop
  | .ret a => Q a
  | .throw _ => True
  | .query s k => (∀ d, D d → Ok d s) ∧ (∀ f, (k (.error (E.raise f))).Under Q) ∧
      ∀ env busy d r ws, D d → (E.exec s env busy d).out = .ok (r, ws) → (k (.ok r)).Under Q
  | .txn _ body k => body.Under E D Ok .begin ∧ ∀ r, (k r).Under Q
  | .call x k => (k (E.answer x)).Under Q

/-- The same of the rest of a process. -/
def Node.Under (n : Node Row Loc S R Fault ε τ X α) : Prop :=
  match n.proc with
  | .run c => c.Under E D Ok (fun _ => True)
  | .inTx _ p body k => body.Under E D Ok p ∧ ∀ r, (k r).Under E D Ok (fun _ => True)
  | .crashed => True

end Under

/-- The statement a process is about to issue, with the rows it will see. -/
def Node.upcoming (n : Node Row Loc S R Fault ε τ X α) (db : Table Row Loc key) :
    Option (Table Row Loc key × S) :=
  match n.proc with
  | .run (.query s _) => some (db, s)
  | .inTx _ p (.stmt s _) _ => some (p.view db, s)
  | _ => none

variable {E : Engine Row Loc key S R Fault ε X} {D : Table Row Loc key → Prop}
  {Ok : Table Row Loc key → S → Prop} {Q : α → Prop} {Q' : β → Prop}

section Rules

theorem Body.Under.bind {f : β → Body S R ε γ} (hf : ∀ a p, (f a).Under E D Ok p) :
    ∀ {b : Body S R ε β} {p : Priv Row Loc S R Fault ε X}, b.Under E D Ok p →
      (b >>= f).Under E D Ok p
  | .ret a, p, _ => hf a p
  | .throw _, _, h => h
  | .stmt _ _, _, h => ⟨h.1, fun env busy d r ws hd hout =>
      Body.Under.bind hf (h.2 env busy d r ws hd hout)⟩

theorem Client.Under.ofExcept (hq : ∀ a, Q a) (r : Except ε α) :
    (Client.ofExcept r : Client S R ε τ X α).Under E D Ok Q := by
  cases r with
  | ok a => exact hq a
  | error e => trivial

theorem Client.Under.bind {f : α → Client S R ε τ X β} (hf : ∀ a, Q a → (f a).Under E D Ok Q') :
    ∀ {c : Client S R ε τ X α}, c.Under E D Ok Q → (c >>= f).Under E D Ok Q'
  | .ret a, h => hf a h
  | .throw _, h => h
  | .query _ _, h => ⟨h.1, fun g => Client.Under.bind hf (h.2.1 g), fun env busy d r ws hd hout =>
      Client.Under.bind hf (h.2.2 env busy d r ws hd hout)⟩
  | .txn _ _ _, h => ⟨h.1, fun r => Client.Under.bind hf (h.2 r)⟩
  | .call _ k, h => Client.Under.bind (c := k _) hf h

theorem Client.Under.map {g : α → β} {c : Client S R ε τ X α}
    (h : c.Under E D Ok (fun _ => True)) :
    (c >>= fun a => pure (g a)).Under E D Ok (fun _ => True) := by
  refine Client.Under.bind ?_ h
  exact fun _ _ => trivial

theorem Client.Under.tryCatch {g : ε → Client S R ε τ X α} (hg : ∀ e, (g e).Under E D Ok Q) :
    ∀ {c : Client S R ε τ X α}, c.Under E D Ok Q → (c.tryCatch g).Under E D Ok Q
  | .ret _, h => h
  | .throw e, _ => hg e
  | .query _ _, h => ⟨h.1, fun f => Client.Under.tryCatch hg (h.2.1 f),
      fun env busy d r ws hd hout => Client.Under.tryCatch hg (h.2.2 env busy d r ws hd hout)⟩
  | .txn _ _ _, h => ⟨h.1, fun r => Client.Under.tryCatch hg (h.2 r)⟩
  | .call _ k, h => Client.Under.tryCatch (c := k _) hg h

theorem Client.Under.exec {s : S} {Q : R s → Prop} (hok : ∀ d, D d → Ok d s)
    (hq : ∀ env busy d r ws, D d → (E.exec s env busy d).out = .ok (r, ws) → Q r) :
    (Client.exec s : Client S R ε τ X (R s)).Under E D Ok Q :=
  ⟨hok, fun _ => trivial, hq⟩

theorem Client.Under.transaction {t : τ} {body : Body S R ε α}
    (h : body.Under E D Ok .begin) :
    (Client.transaction t body : Client S R ε τ X α).Under E D Ok (fun _ => True) :=
  ⟨h, Client.Under.ofExcept (fun _ => trivial)⟩

theorem Client.Under.external (x : X) :
    (Client.external x : Client S R ε τ X Unit).Under E D Ok (fun _ => True) :=
  Client.Under.ofExcept (fun _ => trivial) _

end Rules

section Node

variable {n n' : Node Row Loc S R Fault ε τ X α} {env : Env} {busy : Loc → Bool}
  {db v : Table Row Loc key} {c : Option (Item S R Fault ε τ X × List Row)} {q : S}

theorem Node.Under.step (h : n.Under E D Ok) (hdb : D db)
    (hstep : n.step E env busy db = some (n', c)) : n'.Under E D Ok := by
  cases Node.moves hstep with
  | query _ hout => exact h.2.2 _ _ _ _ _ hdb hout
  | queryFails => exact h.2.1 _
  | call => exact h
  | opens => exact h
  | stmt _ hout => exact ⟨h.1.2 _ _ _ _ _ hdb hout, h.2⟩
  | stmtFails | commits | throws => exact h.2 _

theorem Node.Under.fail {f : Fault} (h : n.Under E D Ok) (hfail : n.fail E f = some n') :
    n'.Under E D Ok := by
  cases Node.fails hfail with
  | query => exact h.2.1 _
  | opens | inTx => exact h.2 _

/-- What a process is about to issue is `Ok`. -/
theorem Node.Under.ok (h : n.Under E D Ok) (hdb : D db) (hnext : n.upcoming db = some (v, q)) :
    Ok v q := by
  obtain ⟨log, proc⟩ := n
  cases proc with
  | crashed => cases hnext
  | run c =>
    cases c with
    | query s k =>
      cases hnext
      exact h.1 db hdb
    | ret | throw | txn | call => cases hnext
  | inTx t p body k =>
    cases body with
    | stmt s k' =>
      cases hnext
      exact h.1.1 db hdb
    | ret | throw => cases hnext

end Node

/-- In a run through the domain, every process whose program is `Under` stays so. -/
theorem Run.under {program : J → Client S R ε τ X α}
    {ok : Sys Row Loc key S R Fault ε τ X α → Label Fault J →
      Sys Row Loc key S R Fault ε τ X α → Prop} {ls : List (Label Fault J)}
    {s : Sys Row Loc key S R Fault ε τ X α} (h : Run E program ok ls s)
    (hok : ∀ s l s', ok s l s' → D s.db) {i : ℕ} {j : J} {n : Node Row Loc S R Fault ε τ X α}
    (hj : (jobs ls)[i]? = some j) (hn : s.nodes[i]? = some n)
    (hprog : (program j).Under E D Ok (fun _ => True)) : n.Under E D Ok := by
  refine Run.each (F := fun _ j n => (program j).Under E D Ok (fun _ => True) → n.Under E D Ok)
    (fun _ _ hprog => hprog) ?_ h hj hn hprog
  intro ls s l s' i j n n' _ _ hdomain _ _ ih hmoved hprog
  rcases hmoved with ⟨u, c, -, hstep, -⟩ | ⟨f, -, hfail⟩ | ⟨-, rfl⟩
  · exact (ih hprog).step (hok s l s' hdomain) hstep
  · exact (ih hprog).fail hfail
  · trivial

end TxStore
