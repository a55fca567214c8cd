import Mathlib.Tactic

/-!
# Waiting in line

A queue in which every entry has a time it is due, and only the entry at the
head may leave, once it is due. Where the head leaves as soon as it may, an
entry leaves when it and all that were ahead of it are due.
-/

namespace Fifo

structure Entry (M : Type) where
  message : M
  due : ℕ
  /-- The due times of what is in the queue when it enters. -/
  ahead : List ℕ

/-- What has entered, in that order, and what has left, with the time. -/
structure Journal (M : Type) where
  entered : List (Entry M)
  left : List (M × ℕ)

section

variable {M : Type}

/-- The time at which the entry, and all that were ahead of it, are due. -/
def Entry.leaves (e : Entry M) : ℕ := e.ahead.foldr max e.due

theorem Entry.le_leaves {e : Entry M} {t : ℕ} : t ≤ e.leaves ↔ t ≤ e.due ∨ ∃ d ∈ e.ahead, t ≤ d := by
  unfold Entry.leaves
  induction e.ahead with
  | nil => simp
  | cons d ds ih =>
    rw [List.foldr_cons, le_max_iff, ih, List.exists_mem_cons_iff]
    tauto

theorem Entry.leaves_le {e : Entry M} {t : ℕ} : e.leaves ≤ t ↔ e.due ≤ t ∧ ∀ d ∈ e.ahead, d ≤ t := by
  unfold Entry.leaves
  induction e.ahead with
  | nil => simp
  | cons d ds ih =>
    rw [List.foldr_cons, max_le_iff, ih, List.forall_mem_cons]
    tauto

theorem Entry.leaves_eq_due {e : Entry M} : e.leaves = e.due ↔ ∀ d ∈ e.ahead, d ≤ e.due := by
  constructor
  · intro h
    exact (Entry.leaves_le.mp h.le).2
  · intro h
    exact le_antisymm (Entry.leaves_le.mpr ⟨le_rfl, h⟩) (Entry.le_leaves.mpr (.inl le_rfl))

namespace Journal

def empty : Journal M := ⟨[], []⟩

def enter (j : Journal M) (e : Entry M) : Journal M := { j with entered := j.entered ++ [e] }

def leave (j : Journal M) (m : M) (now : ℕ) : Journal M := { j with left := j.left ++ [(m, now)] }

/-- What has entered and not left. -/
def pending (j : Journal M) : List (Entry M) := j.entered.drop j.left.length

/-- The journal of a queue whose head leaves as soon as it is due. `waiting` is
what is in the queue, with the due times. -/
structure Prompt (now : ℕ) (waiting : List (M × ℕ)) (j : Journal M) : Prop where
  length_le : j.left.length ≤ j.entered.length
  waiting : waiting = j.pending.map (fun e => (e.message, e.due))
  left : ∀ k < j.left.length, j.left[k]? = j.entered[k]?.map (fun e => (e.message, e.leaves))
  past : ∀ x ∈ j.left, x.2 ≤ now
  /-- An entry leaves no earlier than now. -/
  here : ∀ e ∈ j.pending, now ≤ e.leaves
  /-- What was ahead of it is due, or still ahead of it. -/
  ahead : ∀ k e, j.pending[k]? = some e →
    ∀ d ∈ e.ahead, d ≤ now ∨ d ∈ (j.pending.take k).map (·.due)
  behind : ∀ k e, j.pending[k]? = some e → ∀ e' ∈ j.pending.take k, e'.due ∈ e.ahead
  order : j.entered.Pairwise (fun a b => a.due ≤ b.due ∨ a.due ∈ b.ahead)

variable {now : ℕ} {waiting : List (M × ℕ)} {j : Journal M}

theorem Prompt.empty : Prompt now [] (empty : Journal M) := by
  constructor <;> simp [Journal.empty, pending]

theorem pending_enter (h : j.left.length ≤ j.entered.length) (e : Entry M) :
    (j.enter e).pending = j.pending ++ [e] := by
  simp only [pending, enter]
  rw [List.drop_append_of_le_length h]

theorem pending_leave (m : M) (t : ℕ) : (j.leave m t).pending = j.pending.tail := by
  simp [pending, leave, List.tail_drop]

theorem Prompt.enter (h : Prompt now waiting j) {e : Entry M} (hdue : now ≤ e.due)
    (hahead : e.ahead = waiting.map Prod.snd) :
    Prompt now (waiting ++ [(e.message, e.due)]) (j.enter e) := by
  have hpending := pending_enter h.length_le e
  have hdues : e.ahead = j.pending.map (·.due) := by
    rw [hahead, h.waiting, List.map_map]
    rfl
  have hsplit : ∀ {k e'}, (j.enter e).pending[k]? = some e' →
      j.pending[k]? = some e' ∧ (j.enter e).pending.take k = j.pending.take k ∨
        e' = e ∧ (j.enter e).pending.take k = j.pending := by
    intro k e' hk
    rw [hpending] at hk ⊢
    rcases Nat.lt_or_ge k j.pending.length with hlt | hge
    · rw [List.getElem?_append_left hlt] at hk
      exact .inl ⟨hk, List.take_append_of_le_length hlt.le⟩
    · rw [List.getElem?_append_right hge, List.getElem?_singleton] at hk
      split at hk
      · rename_i hzero
        obtain rfl := Option.some.inj hk
        refine .inr ⟨rfl, ?_⟩
        rw [show k = j.pending.length by omega, List.take_left]
      · cases hk
  refine ⟨?_, ?_, ?_, h.past, ?_, ?_, ?_, ?_⟩
  · simp only [Journal.enter, List.length_append]
    exact Nat.le_add_right_of_le h.length_le
  · rw [hpending, List.map_append, h.waiting]
    rfl
  · intro k hk
    have hk' : k < j.entered.length := lt_of_lt_of_le hk h.length_le
    simp only [Journal.enter]
    rw [List.getElem?_append_left hk']
    exact h.left k hk
  · intro e' he'
    rw [hpending, List.mem_append, List.mem_singleton] at he'
    rcases he' with he' | rfl
    · exact h.here e' he'
    · exact Entry.le_leaves.mpr (.inl hdue)
  · intro k e' hk d hd
    rcases hsplit hk with ⟨hk, htake⟩ | ⟨rfl, htake⟩
    · rw [htake]
      exact h.ahead k e' hk d hd
    · rw [htake, ← hdues]
      exact .inr hd
  · intro k e' hk a ha
    rcases hsplit hk with ⟨hk, htake⟩ | ⟨rfl, htake⟩
    · rw [htake] at ha
      exact h.behind k e' hk a ha
    · rw [htake] at ha
      rw [hdues]
      exact List.mem_map_of_mem ha
  · refine List.pairwise_append.mpr ⟨h.order, List.pairwise_singleton _ _, ?_⟩
    intro a ha b hb
    obtain rfl := List.mem_singleton.mp hb
    rw [← List.take_append_drop j.left.length j.entered, List.mem_append] at ha
    rcases ha with ha | ha
    · left
      obtain ⟨k, hk, rfl⟩ := List.mem_take_iff_getElem.mp ha
      have hleft := h.left k (by omega)
      rw [List.getElem?_eq_getElem (by omega), List.getElem?_eq_getElem (by omega)] at hleft
      have hpast := h.past _ (List.getElem_mem (show k < j.left.length by omega))
      rw [Option.some.inj hleft] at hpast
      exact ((Entry.leaves_le.mp hpast).1).trans hdue
    · right
      rw [hdues]
      exact List.mem_map_of_mem ha

theorem Prompt.leave (h : Prompt now waiting j) {m : M} {due : ℕ} {rest : List (M × ℕ)}
    (hw : waiting = (m, due) :: rest) (hdue : due ≤ now) :
    Prompt now rest (j.leave m now) := by
  have hpending := pending_leave (j := j) m now
  have hwaiting := h.waiting
  rw [hw] at hwaiting
  obtain ⟨e, es, hcons, he, hes⟩ := List.map_eq_cons_iff.mp hwaiting.symm
  obtain ⟨rfl, rfl⟩ := Prod.mk.inj he
  have htail : (j.leave e.message now).pending = es := by rw [hpending, hcons, List.tail_cons]
  have hlt : j.left.length < j.entered.length := by
    by_contra hge
    rw [pending, List.drop_of_length_le (by omega)] at hcons
    cases hcons
  have hhead : j.entered[j.left.length]? = some e := by
    rw [← List.head?_drop, ← pending, hcons, List.head?_cons]
  -- everything that was ahead of the head is due
  have hleaves : e.leaves = now := by
    refine le_antisymm (Entry.leaves_le.mpr ⟨hdue, ?_⟩) (h.here e (by rw [hcons]; simp))
    intro d hd
    rcases h.ahead 0 e (by rw [hcons]; rfl) d hd with hd | hd
    · exact hd
    · simp at hd
  refine ⟨?_, ?_, ?_, ?_, ?_, ?_, ?_, h.order⟩
  · simp only [Journal.leave, List.length_append, List.length_singleton]
    omega
  · rw [htail, hes]
  · intro k hk
    simp only [Journal.leave, List.length_append, List.length_singleton] at hk ⊢
    rcases Nat.lt_or_ge k j.left.length with hk' | hk'
    · rw [List.getElem?_append_left hk', h.left k hk']
    · obtain rfl : k = j.left.length := by omega
      rw [List.getElem?_concat_length, hhead, Option.map_some, hleaves]
  · intro x hx
    rcases List.mem_append.mp hx with hx | hx
    · exact h.past x hx
    · rw [List.mem_singleton.mp hx]
  · intro e' he'
    refine h.here e' ?_
    rw [htail] at he'
    rw [hcons]
    exact List.mem_cons_of_mem _ he'
  · intro k e' hk d hd
    rw [htail] at hk ⊢
    rcases h.ahead (k + 1) e' (by rw [hcons]; exact hk) d hd with hd | hd
    · exact .inl hd
    · rw [hcons, List.take_succ_cons, List.map_cons, List.mem_cons] at hd
      rcases hd with rfl | hd
      · exact .inl hdue
      · exact .inr hd
  · intro k e' hk a ha
    rw [htail] at hk ha
    refine h.behind (k + 1) e' (by rw [hcons]; exact hk) a ?_
    rw [hcons, List.take_succ_cons]
    exact List.mem_cons_of_mem _ ha

/-- The clock does not pass the time at which the head may leave. -/
theorem Prompt.tick (h : Prompt now waiting j) {n : ℕ}
    (hhead : ∀ x ∈ waiting.head?, now + n ≤ x.2) : Prompt (now + n) waiting j := by
  refine ⟨h.length_le, h.waiting, h.left, ?_, ?_, ?_, h.behind, h.order⟩
  · exact fun x hx => (h.past x hx).trans (Nat.le_add_right _ _)
  · intro e he
    obtain ⟨k, hk⟩ := List.mem_iff_getElem?.mp he
    cases hpending : j.pending with
    | nil =>
      rw [hpending] at he
      cases he
    | cons e₀ es =>
      have hdue : now + n ≤ e₀.due := by
        refine hhead (e₀.message, e₀.due) ?_
        rw [h.waiting, hpending]
        rfl
      rw [Entry.le_leaves]
      cases k with
      | zero =>
        rw [hpending] at hk
        obtain rfl := Option.some.inj hk
        exact .inl hdue
      | succ k =>
        refine .inr ⟨e₀.due, h.behind (k + 1) e hk e₀ ?_, hdue⟩
        rw [hpending, List.take_succ_cons]
        exact List.mem_cons_self
  · exact fun k e hk d hd => (h.ahead k e hk d hd).imp_left (fun hd => hd.trans (by omega))

/-- An entry leaves at the time it is due, after all that were due before it,
exactly when nothing that is due later was ahead of it. -/
theorem Prompt.on_time_iff (h : Prompt now waiting j) {k : ℕ} {e : Entry M}
    (he : j.entered[k]? = some e) (hdue : e.due < now) :
    (j.left[k]? = some (e.message, e.due) ∧
      ∀ i < k, ∀ e' ∈ j.entered[i]?, e'.due ≤ e.due) ↔ ∀ d ∈ e.ahead, d ≤ e.due := by
  constructor
  · rintro ⟨hleft, -⟩
    have hk : k < j.left.length := (List.getElem?_eq_some_iff.mp hleft).1
    rw [h.left k hk, he, Option.map_some, Option.some.injEq, Prod.mk.injEq] at hleft
    exact Entry.leaves_eq_due.mp hleft.2
  · intro hahead
    have hleaves := Entry.leaves_eq_due.mpr hahead
    refine ⟨?_, ?_⟩
    · have hk : k < j.left.length := by
        by_contra hge
        have hmem : e ∈ j.pending := by
          refine List.mem_of_getElem? (i := k - j.left.length) ?_
          rw [pending, List.getElem?_drop, Nat.add_sub_cancel' (by omega), he]
        have hnow := h.here e hmem
        omega
      rw [h.left k hk, he, Option.map_some, hleaves]
    · intro i hi e' he'
      have hpair := List.pairwise_iff_getElem.mp h.order
      obtain ⟨hk, rfl⟩ := List.getElem?_eq_some_iff.mp he
      obtain ⟨hi', rfl⟩ := List.getElem?_eq_some_iff.mp he'
      rcases hpair i k hi' hk hi with hle | hmem
      · exact hle
      · exact hahead _ hmem

end Journal

end

end Fifo
