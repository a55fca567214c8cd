import PaymentApis.Lib.Window
import Mathlib.Logic.Relation

/-!
# Waiting for locks

A process waits for another when the next statement of its transaction locks a
row that the other has locked. Along a cycle of such waits every row is held by a
process that wants the next one, so that a lock order which all transactions keep
to rules the cycle out.
-/

namespace TxStore

open Relation

variable {Row Loc : Type} [DecidableEq Loc] {key : Row → Loc} {S : Type} {R : S → Type}
  {Fault ε τ X J α : Type}

/-- The next statement of the transaction of process `i` locks the row. -/
def Sys.Wants (E : Engine Row Loc key S R Fault ε X) (s : Sys Row Loc key S R Fault ε τ X α)
    (i : ℕ) (l : Loc) : Prop :=
  ∃ n p q u, s.nodes[i]? = some n ∧ n.next = some (p, q) ∧
    l ∈ (E.exec q ⟨s.now, u⟩ (s.busy i) (p.view s.db)).locked key

def Sys.Holds (s : Sys Row Loc key S R Fault ε τ X α) (i : ℕ) (l : Loc) : Prop :=
  ∃ n, s.nodes[i]? = some n ∧ l ∈ n.locks

/-- Process `i` waits for process `j` to release one of the rows. -/
def Sys.Waits (E : Engine Row Loc key S R Fault ε X) (s : Sys Row Loc key S R Fault ε τ X α)
    (rows : Loc → Prop) (i j : ℕ) : Prop :=
  j ≠ i ∧ ∃ l, rows l ∧ s.Wants E i l ∧ s.Holds j l

/-- A process that holds the first row wants the second, which another holds. -/
def Sys.Precedes (E : Engine Row Loc key S R Fault ε X) (s : Sys Row Loc key S R Fault ε τ X α)
    (rows : Loc → Prop) (l l' : Loc) : Prop :=
  rows l ∧ rows l' ∧ l ≠ l' ∧ ∃ i, s.Holds i l ∧ s.Wants E i l'

/-- The error with which process `i` would leave its transaction in its next step. -/
def Sys.raised (E : Engine Row Loc key S R Fault ε X) (s : Sys Row Loc key S R Fault ε τ X α)
    (i u : ℕ) : Option ε :=
  (s.nodes[i]?).bind (fun n =>
    match n.proc with
    | .inTx _ p (.stmt q _) _ =>
      match (E.exec q ⟨s.now, u⟩ (s.busy i) (p.view s.db)).out with
      | .error f => some (E.raise f)
      | .ok _ => none
    | .inTx _ _ (.throw e) _ => some e
    | _ => none)

section

variable {E : Engine Row Loc key S R Fault ε X} {s : Sys Row Loc key S R Fault ε τ X α}
  {rows : Loc → Prop} {i j u : ℕ} {l l' : Loc} {t : τ} {p : Priv Row Loc S R Fault ε X} {e : ε}

omit [DecidableEq Loc] in
theorem Sys.Holds.ne (h : s.Holds i l) (h' : s.Holds j l') (hlocked : s.Locked) (hij : i ≠ j) :
    l ≠ l' := by
  obtain ⟨n, hn, hl⟩ := h
  obtain ⟨m, hm, hl'⟩ := h'
  rintro rfl
  exact hlocked.exclusive i j n m hij hn hm l hl hl'

/-- Along a path of waits, from the row its first process wants to one that its
last process holds. -/
theorem Sys.Waits.path (hlocked : s.Locked) (h : TransGen (s.Waits E rows) i j) :
    ∃ l l' k, rows l ∧ rows l' ∧ s.Wants E i l ∧ k ≠ i ∧ s.Holds k l ∧ s.Holds j l' ∧
      ReflTransGen (s.Precedes E rows) l l' := by
  induction h with
  | @single j hwaits =>
    obtain ⟨hj, l, hrow, hwants, hholds⟩ := hwaits
    exact ⟨l, l, j, hrow, hrow, hwants, hj, hholds, hholds, .refl⟩
  | @tail j j' _ hwaits ih =>
    obtain ⟨l, l', k, hrow, hrow', hwants, hk, hheld, hholds, hpath⟩ := ih
    obtain ⟨hj, l'', hrow'', hwants', hholds'⟩ := hwaits
    have hprecedes : s.Precedes E rows l' l'' :=
      ⟨hrow', hrow'', hholds.ne hholds' hlocked hj.symm, j, hholds, hwants'⟩
    exact ⟨l, l'', k, hrow, hrow'', hwants, hk, hheld, hholds', hpath.tail hprecedes⟩

/-- A cycle of waits is a cycle of rows. -/
theorem Sys.Waits.rows_cycle (hlocked : s.Locked) (h : TransGen (s.Waits E rows) i i) :
    ∃ l, TransGen (s.Precedes E rows) l l := by
  obtain ⟨l, l', k, hrow, hrow', hwants, hk, hheld, hholds, hpath⟩ := Sys.Waits.path hlocked h
  have hlast : s.Precedes E rows l' l :=
    ⟨hrow', hrow, hholds.ne hheld hlocked hk.symm, i, hholds, hwants⟩
  exact ⟨l, .tail' hpath hlast⟩

/-- No process waits for itself, through others, when the rows are wanted along a
relation without cycles. -/
theorem Sys.Waits.acyclic (hlocked : s.Locked) {r : Loc → Loc → Prop}
    (hr : ∀ l l', s.Precedes E rows l l' → r l l') (hacyclic : ∀ l, ¬ TransGen r l l) :
    ¬ TransGen (s.Waits E rows) i i := by
  intro hcycle
  obtain ⟨l, hrows⟩ := Sys.Waits.rows_cycle hlocked hcycle
  exact hacyclic l (TransGen.mono hr _ _ hrows)

/-- An error is thrown by the body of the transaction, or is the fault of its next
statement. -/
theorem Sys.raised_eq_some (h : s.raised E i u = some e) : ∃ n, s.nodes[i]? = some n ∧
    ((∃ t p, n.throws? = some (t, p, e)) ∨ ∃ p q f, n.next = some (p, q) ∧
      (E.exec q ⟨s.now, u⟩ (s.busy i) (p.view s.db)).out = .error f ∧ e = E.raise f) := by
  obtain ⟨⟨log, proc⟩, hn, hraised⟩ := Option.bind_eq_some_iff.mp h
  refine ⟨⟨log, proc⟩, hn, ?_⟩
  cases proc with
  | run c => simp at hraised
  | crashed => simp at hraised
  | inTx t p body k =>
    cases body with
    | ret b => simp at hraised
    | throw e' =>
      simp only [Option.some.injEq] at hraised
      subst hraised
      exact Or.inl ⟨t, p, rfl⟩
    | stmt q k' =>
      simp only at hraised
      split at hraised
      · rename_i f hout
        simp only [Option.some.injEq] at hraised
        exact Or.inr ⟨p, q, f, rfl, hout, hraised.symm⟩
      · cases hraised

end

end TxStore
