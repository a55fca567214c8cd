import Mathlib.Tactic

/-!
# Serving the earliest first

A queue is a list of jobs with a date each. What is served is a batch of the
jobs that are ready, those with the earliest dates first, and a job that is
served gets another date. Of the jobs with a date before a given one, a batch
takes as many as it has room for, so new jobs do not hold the old ones up.
-/

namespace Earliest

section

variable {J I : Type} {date : J → ℕ} {id : J → I}

/-- At most `n` of the jobs, the earliest first. -/
def batch (date : J → ℕ) (n : ℕ) (js : List J) : List J :=
  (js.insertionSort (fun a b => date a ≤ date b)).take n

theorem batch_subperm (n : ℕ) (js : List J) : (batch date n js).Subperm js :=
  (List.take_sublist n _).subperm.trans (List.perm_insertionSort _ js).subperm

theorem mem_of_mem_batch {n : ℕ} {js : List J} {j : J} (h : j ∈ batch date n js) : j ∈ js :=
  (batch_subperm n js).subset h

/-- In a list in the order of the dates, the early jobs come first. -/
theorem countP_take {js : List J} (h : js.Pairwise (fun a b => date a ≤ date b)) (n d : ℕ) :
    (js.take n).countP (fun j => decide (date j < d)) =
      min n (js.countP (fun j => decide (date j < d))) := by
  induction js generalizing n with
  | nil => simp
  | cons a js ih =>
    obtain ⟨hle, hrest⟩ := List.pairwise_cons.mp h
    cases n with
    | zero => simp
    | succ n =>
      rw [List.take_succ_cons, List.countP_cons, List.countP_cons, ih hrest]
      by_cases ha : date a < d
      · simp only [ha, decide_true, if_true]
        omega
      · have hnone : js.countP (fun j => decide (date j < d)) = 0 := by
          rw [List.countP_eq_zero]
          intro b hb hearly
          exact ha ((hle b hb).trans_lt (of_decide_eq_true hearly))
        simp [ha, hnone]

theorem countP_batch (n d : ℕ) (js : List J) :
    (batch date n js).countP (fun j => decide (date j < d)) =
      min n (js.countP (fun j => decide (date j < d))) := by
  have hle : ∀ a b : J, date a ≤ date b ∨ date b ≤ date a := fun a b => le_total _ _
  have hsorted : (js.insertionSort (fun a b => date a ≤ date b)).Pairwise
      (fun a b => date a ≤ date b) := by
    have : Std.Total (fun a b : J => date a ≤ date b) := ⟨hle⟩
    have : IsTrans J (fun a b => date a ≤ date b) := ⟨fun _ _ _ => le_trans⟩
    exact List.pairwise_insertionSort _ js
  rw [batch, countP_take hsorted, (List.perm_insertionSort _ js).countP_eq]

variable [DecidableEq I]

/-- The jobs of a batch get another date. -/
def serve (id : J → I) (js : List J) (served : List I) (f : J → J) : List J :=
  js.map (fun j => if id j ∈ served then f j else j)

/-- What was served is no longer among the jobs of a kind. -/
theorem countP_serve {js sub : List J} (hnodup : (js.map id).Nodup) (hsub : sub.Subperm js)
    {p : J → Bool} {f : J → J} (hf : ∀ j, p (f j) = false) :
    (serve id js (sub.map id) f).countP p + sub.countP p = js.countP p := by
  have hjs : js.Nodup := hnodup.of_map
  have hperm : sub.Perm (js.filter (fun j => decide (id j ∈ sub.map id))) := by
    obtain ⟨l, hl, hsublist⟩ := hsub
    refine (List.perm_ext_iff_of_nodup (hl.nodup_iff.mp (hjs.sublist hsublist))
      (hjs.filter _)).mpr ?_
    intro j
    rw [List.mem_filter, decide_eq_true_eq]
    constructor
    · intro hj
      exact ⟨hsublist.subset (hl.mem_iff.mpr hj), List.mem_map_of_mem hj⟩
    · rintro ⟨hj, hid⟩
      obtain ⟨j', hj', hsame⟩ := List.mem_map.mp hid
      rwa [List.inj_on_of_nodup_map hnodup hj (hsublist.subset (hl.mem_iff.mpr hj')) hsame.symm]
  have hserved : (serve id js (sub.map id) f).countP p =
      (js.filter (fun j => !decide (id j ∈ sub.map id))).countP p := by
    rw [serve, List.countP_map, List.countP_filter]
    apply List.countP_congr
    intro j _
    by_cases hid : id j ∈ sub.map id
    · rw [Function.comp_apply, if_pos hid, hf]
      simp only [hid, decide_true, Bool.not_true, Bool.and_false]
    · rw [Function.comp_apply, if_neg hid]
      simp only [hid, decide_false, Bool.not_false, Bool.and_true]
  rw [hserved, hperm.countP_eq, Nat.add_comm]
  exact (List.countP_eq_countP_filter_add js p (fun j => decide (id j ∈ sub.map id))).symm

/-- One service: of the jobs with a date before `d`, which are all ready, a full
batch is gone. -/
theorem countP_serve_batch {js : List J} (hnodup : (js.map id).Nodup) {ready : J → Bool} {n d : ℕ}
    {p : J → Bool} (hp : ∀ j, p j = (ready j && decide (date j < d))) {f : J → J}
    (hf : ∀ j, p (f j) = false) :
    (serve id js ((batch date n (js.filter ready)).map id) f).countP p = js.countP p - n := by
  have hsub : (batch date n (js.filter ready)).Subperm js :=
    (batch_subperm n _).trans List.filter_sublist.subperm
  have hcount := countP_serve hnodup hsub hf
  have hbatch : (batch date n (js.filter ready)).countP p = min n (js.countP p) := by
    have hready : ∀ {l : List J}, (∀ j ∈ l, ready j = true) →
        l.countP p = l.countP (fun j => decide (date j < d)) := by
      intro l hl
      apply List.countP_congr
      intro j hj
      simp [hp, hl j hj]
    have hall : ∀ j ∈ js.filter ready, ready j = true := fun j hj => (List.mem_filter.mp hj).2
    rw [hready (fun j hj => hall j (mem_of_mem_batch hj)), countP_batch, ← hready hall,
      List.countP_filter]
    congr 1
    apply List.countP_congr
    intro j _
    simp [hp, Bool.and_comm]
  omega

end

end Earliest
