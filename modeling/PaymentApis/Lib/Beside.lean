import Mathlib.Tactic

/-!
# Two systems side by side

One system takes its steps on its own. The other takes only the steps that the
state of the first allows: it reads what the first has written.
-/

namespace Beside

universe u v

variable {A : Type u} {B : Type v} {L M : Type} {step : A → L → A → Prop} {next : B → M → B → Prop}
  {allows : A → M → Prop} {a₀ : A} {b₀ : B}

/-- The pairs of states reached from `a₀` and `b₀`. -/
inductive Reach (step : A → L → A → Prop) (next : B → M → B → Prop) (allows : A → M → Prop) (a₀ : A)
    (b₀ : B) : A → B → Prop
  | begin : Reach step next allows a₀ b₀ a₀ b₀
  | first {a b l a'} : Reach step next allows a₀ b₀ a b → step a l a' →
      Reach step next allows a₀ b₀ a' b
  | second {a b m b'} : Reach step next allows a₀ b₀ a b → next b m b' → allows a m →
      Reach step next allows a₀ b₀ a b'

/-- What holds along the runs of each system for itself. -/
theorem Reach.each {P : A → Prop} {Q : B → Prop} (hp : P a₀) (hq : Q b₀)
    (hfirst : ∀ {a l a'}, P a → step a l a' → P a')
    (hsecond : ∀ {b m b'}, Q b → next b m b' → Q b') {a : A} {b : B}
    (h : Reach step next allows a₀ b₀ a b) : P a ∧ Q b := by
  induction h with
  | begin => exact ⟨hp, hq⟩
  | first _ hstep ih => exact ⟨hfirst ih.1 hstep, ih.2⟩
  | second _ hnext _ ih => exact ⟨ih.1, hsecond ih.2 hnext⟩

/-- What holds between the two: the steps of the first keep it, and the steps of
the second that it allows. -/
theorem Reach.between {P : A → Prop} {Q : B → Prop} {I : A → B → Prop} (hp : P a₀) (hq : Q b₀)
    (hi : I a₀ b₀) (hfirst : ∀ {a l a'}, P a → step a l a' → P a')
    (hsecond : ∀ {b m b'}, Q b → next b m b' → Q b')
    (hkeeps : ∀ {a l a' b}, P a → step a l a' → I a b → I a' b)
    (hmoves : ∀ {a b m b'}, Q b → next b m b' → allows a m → I a b → I a b') {a : A} {b : B}
    (h : Reach step next allows a₀ b₀ a b) : I a b := by
  induction h with
  | begin => exact hi
  | first hreach hstep ih => exact hkeeps (hreach.each hp hq hfirst hsecond).1 hstep ih
  | second hreach hnext hallows ih =>
    exact hmoves (hreach.each hp hq hfirst hsecond).2 hnext hallows ih

end Beside
