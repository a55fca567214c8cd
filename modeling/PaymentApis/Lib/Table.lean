import Mathlib.Algebra.BigOperators.Group.List.Basic
import Mathlib.Data.List.Nodup
import Mathlib.Tactic

/-!
# Keyed tables

A table is a list of rows with pairwise distinct keys. A row *version* is
stored with `put`: it replaces the row of its key, or is appended when the key
is new. What a transaction commits is a list of row versions, stored in order
by `install`.

Totals over a table are the accounting half of the library: `put` changes a
total by the new row minus the row it replaces.
-/

namespace TxStore

/-- Replace the first row that has the key of `r`, or append `r`. -/
def upsert {ρ κ : Type} [DecidableEq κ] (key : ρ → κ) (r : ρ) : List ρ → List ρ
  | [] => [r]
  | x :: xs => if key x = key r then r :: xs else x :: upsert key r xs

section Upsert

variable {ρ κ : Type} [DecidableEq κ] {key : ρ → κ}

theorem mem_upsert_of_mem {r x : ρ} : ∀ {l : List ρ},
    x ∈ upsert key r l → x = r ∨ x ∈ l
  | [], h => by simpa [upsert] using h
  | y :: ys, h => by
      by_cases hy : key y = key r
      · simp only [upsert, if_pos hy, List.mem_cons] at h
        rcases h with rfl | h
        · exact Or.inl rfl
        · exact Or.inr (List.mem_cons_of_mem _ h)
      · simp only [upsert, if_neg hy, List.mem_cons] at h
        rcases h with rfl | h
        · exact Or.inr List.mem_cons_self
        · exact (mem_upsert_of_mem h).imp id (List.mem_cons_of_mem _)

theorem upsert_keys_nodup {r : ρ} : ∀ {l : List ρ},
    (l.map key).Nodup → ((upsert key r l).map key).Nodup
  | [], _ => by simp [upsert]
  | y :: ys, h => by
      rw [List.map_cons, List.nodup_cons] at h
      by_cases hy : key y = key r
      · simp only [upsert, if_pos hy, List.map_cons, List.nodup_cons]
        exact ⟨hy ▸ h.1, h.2⟩
      · simp only [upsert, if_neg hy, List.map_cons, List.nodup_cons]
        refine ⟨?_, upsert_keys_nodup h.2⟩
        intro hmem
        obtain ⟨x, hx, hkey⟩ := List.mem_map.mp hmem
        rcases mem_upsert_of_mem hx with rfl | hx
        · exact hy hkey.symm
        · exact h.1 (List.mem_map.mpr ⟨x, hx, hkey⟩)

theorem upsert_new {r : ρ} : ∀ {l : List ρ},
    l.find? (fun x => decide (key x = key r)) = none → upsert key r l = l ++ [r]
  | [], _ => rfl
  | y :: ys, h => by
      simp only [List.find?_eq_none, List.mem_cons, decide_eq_true_eq, forall_eq_or_imp] at h
      rw [upsert, if_neg h.1, upsert_new, List.cons_append]
      simpa [List.find?_eq_none] using h.2

theorem find_upsert {r : ρ} (k : κ) : ∀ l : List ρ,
    (upsert key r l).find? (fun x => decide (key x = k)) =
      if key r = k then some r else l.find? (fun x => decide (key x = k))
  | [] => by by_cases h : key r = k <;> simp [upsert, h]
  | y :: ys => by
      by_cases hy : key y = key r
      · by_cases h : key r = k
        · simp [upsert, hy, h]
        · simp [upsert, hy, h]
      · by_cases h : key y = k
        · have hr : key r ≠ k := fun e => hy (h.trans e.symm)
          simp [upsert, h, hr, show k ≠ key r from fun e => hr e.symm]
        · simp only [upsert, if_neg hy, List.find?_cons, h, decide_false]
          exact find_upsert k ys

/-- The accounting identity of a stored row version. -/
theorem sum_upsert {M : Type} [AddCommMonoid M] (f : ρ → M) (r : ρ) : ∀ l : List ρ,
    ((upsert key r l).map f).sum +
        ((l.find? (fun x => decide (key x = key r))).map f).getD 0 =
      (l.map f).sum + f r
  | [] => by simp [upsert]
  | y :: ys => by
      by_cases hy : key y = key r
      · simp [upsert, hy, add_comm, add_left_comm]
      · have ih := sum_upsert f r ys
        have hfind : (y :: ys).find? (fun x => decide (key x = key r)) =
            ys.find? (fun x => decide (key x = key r)) := by simp [hy]
        rw [hfind, upsert, if_neg hy, List.map_cons, List.sum_cons, add_assoc, ih,
          List.map_cons, List.sum_cons, add_assoc]

/-- The rows of one kind after storing a row of that kind. -/
theorem filterMap_upsert {α κ' : Type} [DecidableEq κ'] {as : ρ → Option α} {key' : α → κ'} {r : ρ}
    {a : α} (hr : as r = some a) (hkey : ∀ x b, as x = some b → (key x = key r ↔ key' b = key' a))
    (hnone : ∀ x, as x = none → key x ≠ key r) : ∀ l : List ρ,
    (upsert key r l).filterMap as = upsert key' a (l.filterMap as)
  | [] => by simp [upsert, hr]
  | x :: xs => by
      have ih := filterMap_upsert hr hkey hnone xs
      by_cases hx : key x = key r
      · cases hax : as x with
        | none => exact absurd hx (hnone x hax)
        | some b => simp [upsert, hx, hr, hax, (hkey x b hax).mp hx]
      · cases hax : as x with
        | none => simp [upsert, hx, hax, ih]
        | some b =>
          have hb : key' b ≠ key' a := fun e => hx ((hkey x b hax).mpr e)
          simp [upsert, hx, hax, hb, ih]

/-- The rows of one kind after storing a row of another. -/
theorem filterMap_upsert_other {α : Type} {as : ρ → Option α} {r : ρ} (hr : as r = none)
    (hkey : ∀ x, key x = key r → as x = none) : ∀ l : List ρ,
    (upsert key r l).filterMap as = l.filterMap as
  | [] => by simp [upsert, hr]
  | x :: xs => by
      have ih := filterMap_upsert_other hr hkey xs
      by_cases hx : key x = key r
      · simp [upsert, hx, hr, hkey x hx]
      · simp [upsert, hx, List.filterMap_cons, ih]

end Upsert

/-- Rows with pairwise distinct keys. -/
structure Table (ρ κ : Type) (key : ρ → κ) where
  rows : List ρ
  nodup : (rows.map key).Nodup

namespace Table

variable {ρ κ : Type} {key : ρ → κ}

@[ext] theorem ext {t t' : Table ρ κ key} (h : t.rows = t'.rows) : t = t' := by
  cases t
  cases t'
  simpa using h

def empty : Table ρ κ key := ⟨[], List.nodup_nil⟩

def total {M : Type} [AddCommMonoid M] (f : ρ → M) (t : Table ρ κ key) : M :=
  (t.rows.map f).sum

@[simp] theorem total_empty {M : Type} [AddCommMonoid M] (f : ρ → M) :
    (empty : Table ρ κ key).total f = 0 := rfl

variable [DecidableEq κ]

/-- The row stored under a key. -/
def get (t : Table ρ κ key) (k : κ) : Option ρ :=
  t.rows.find? (fun r => decide (key r = k))

def put (t : Table ρ κ key) (r : ρ) : Table ρ κ key :=
  ⟨upsert key r t.rows, upsert_keys_nodup t.nodup⟩

/-- Store row versions in order. -/
def install (t : Table ρ κ key) (ws : List ρ) : Table ρ κ key :=
  ws.foldl put t

@[simp] theorem install_nil (t : Table ρ κ key) : t.install [] = t := rfl

@[simp] theorem install_cons (t : Table ρ κ key) (r : ρ) (ws : List ρ) :
    t.install (r :: ws) = (t.put r).install ws := rfl

theorem install_append (t : Table ρ κ key) (ws vs : List ρ) :
    t.install (ws ++ vs) = (t.install ws).install vs := by
  simp [install, List.foldl_append]

theorem get_put (t : Table ρ κ key) (r : ρ) (k : κ) :
    (t.put r).get k = if key r = k then some r else t.get k :=
  find_upsert k t.rows

@[simp] theorem get_put_self (t : Table ρ κ key) (r : ρ) : (t.put r).get (key r) = some r := by
  simp [get_put]

theorem get_put_of_ne {t : Table ρ κ key} {r : ρ} {k : κ} (h : key r ≠ k) :
    (t.put r).get k = t.get k := by
  simp [get_put, h]

@[simp] theorem get_empty (k : κ) : (empty : Table ρ κ key).get k = none := rfl

theorem key_of_get {t : Table ρ κ key} {k : κ} {r : ρ} (h : t.get k = some r) : key r = k := by
  simpa using List.find?_some h

theorem mem_of_get {t : Table ρ κ key} {k : κ} {r : ρ} (h : t.get k = some r) : r ∈ t.rows :=
  List.mem_of_find?_eq_some h

/-- Distinct keys make lookup complete. -/
theorem get_of_mem {t : Table ρ κ key} {r : ρ} (h : r ∈ t.rows) : t.get (key r) = some r := by
  obtain ⟨rows, hnd⟩ := t
  simp only [get] at *
  induction rows with
  | nil => simp at h
  | cons x xs ih =>
    rw [List.map_cons, List.nodup_cons] at hnd
    rcases List.mem_cons.mp h with rfl | hx
    · simp
    · have hne : key x ≠ key r := fun e => hnd.1 (List.mem_map.mpr ⟨r, hx, e.symm⟩)
      simp only [List.find?_cons, hne, decide_false]
      exact ih hnd.2 hx

theorem mem_iff_get {t : Table ρ κ key} {r : ρ} : r ∈ t.rows ↔ t.get (key r) = some r :=
  ⟨get_of_mem, mem_of_get⟩

theorem mem_put {t : Table ρ κ key} {r x : ρ} :
    x ∈ (t.put r).rows ↔ x = r ∨ (x ∈ t.rows ∧ key x ≠ key r) := by
  rw [mem_iff_get, get_put]
  by_cases h : key r = key x
  · simp only [if_pos h, Option.some.injEq]
    constructor
    · rintro rfl
      exact Or.inl rfl
    · rintro (rfl | ⟨_, hne⟩)
      · rfl
      · exact absurd h.symm hne
  · simp only [if_neg h, mem_iff_get]
    constructor
    · exact fun hx => Or.inr ⟨hx, fun e => h e.symm⟩
    · rintro (rfl | ⟨hx, _⟩)
      · exact absurd rfl h
      · exact hx

/-- Keys that are not written keep their row. -/
theorem get_install_of_notMem {k : κ} : ∀ {ws : List ρ} {t : Table ρ κ key},
    k ∉ ws.map key → (t.install ws).get k = t.get k
  | [], _, _ => rfl
  | r :: ws, t, h => by
      rw [List.map_cons, List.mem_cons, not_or] at h
      rw [install_cons, get_install_of_notMem h.2, get_put_of_ne (Ne.symm h.1)]

theorem mem_of_mem_install {x : ρ} : ∀ {ws : List ρ} {t : Table ρ κ key},
    x ∈ (t.install ws).rows → x ∈ ws ∨ x ∈ t.rows
  | [], _, h => Or.inr h
  | r :: ws, t, h => by
      rw [install_cons] at h
      rcases mem_of_mem_install h with h | h
      · exact Or.inl (List.mem_cons_of_mem _ h)
      · rcases mem_put.mp h with rfl | ⟨h, _⟩
        · exact Or.inl List.mem_cons_self
        · exact Or.inr h

theorem get_install_eq_none {k : κ} : ∀ {ws : List ρ} {t : Table ρ κ key},
    (t.install ws).get k = none ↔ t.get k = none ∧ k ∉ ws.map key
  | [], t => by simp
  | r :: ws, t => by
      rw [install_cons, get_install_eq_none, get_put, List.map_cons, List.mem_cons]
      by_cases h : key r = k
      · simp [h]
      · simp [h, Ne.symm h]

theorem get_install_of_mem {r : ρ} : ∀ {ws : List ρ} {t : Table ρ κ key},
    (ws.map key).Nodup → r ∈ ws → (t.install ws).get (key r) = some r
  | x :: ws, t, hnd, h => by
      rw [List.map_cons, List.nodup_cons] at hnd
      rw [install_cons]
      rcases List.mem_cons.mp h with rfl | h
      · rw [get_install_of_notMem hnd.1, get_put_self]
      · exact get_install_of_mem hnd.2 h

/-- Row versions of distinct keys: the table after is the versions over the
table before. -/
theorem mem_install {ws : List ρ} {t : Table ρ κ key} (hnd : (ws.map key).Nodup) {x : ρ} :
    x ∈ (t.install ws).rows ↔ x ∈ ws ∨ (x ∈ t.rows ∧ key x ∉ ws.map key) := by
  by_cases h : key x ∈ ws.map key
  · obtain ⟨r, hr, hkey⟩ := List.mem_map.mp h
    have hget := get_install_of_mem (t := t) hnd hr
    rw [hkey] at hget
    rw [mem_iff_get, hget]
    constructor
    · intro hx
      exact Or.inl (Option.some.inj hx ▸ hr)
    · rintro (hx | ⟨_, hx⟩)
      · rw [← get_install_of_mem (t := t) hnd hx, hget]
      · exact absurd h hx
  · have hx : x ∉ ws := fun hx => h (List.mem_map_of_mem hx)
    rw [mem_iff_get, get_install_of_notMem h, ← mem_iff_get]
    simp [hx, h]

/-- The rows of a kind that is only inserted: new ones come after the old. -/
theorem filterMap_install {α : Type} {as : ρ → Option α}
    (hkind : ∀ x y, key x = key y → as x = none → as y = none) :
    ∀ {ws : List ρ} {t : Table ρ κ key}, (ws.map key).Nodup →
      (∀ r ∈ ws, as r = none ∨ t.get (key r) = none) →
      (t.install ws).rows.filterMap as = t.rows.filterMap as ++ ws.filterMap as
  | [], t, _, _ => by simp
  | r :: ws, t, hnd, hnew => by
      rw [List.map_cons, List.nodup_cons] at hnd
      have hrest : ∀ x ∈ ws, as x = none ∨ (t.put r).get (key x) = none := by
        intro x hx
        have hne : key r ≠ key x := fun e => hnd.1 (e ▸ List.mem_map_of_mem hx)
        rw [get_put_of_ne hne]
        exact hnew x (List.mem_cons_of_mem _ hx)
      rw [install_cons, filterMap_install hkind hnd.2 hrest]
      cases hr : as r with
      | none =>
        show (upsert key r t.rows).filterMap as ++ _ = _
        rw [List.filterMap_cons_none hr,
          filterMap_upsert_other hr (fun x hx => hkind r x hx.symm hr)]
      | some a =>
        have hfresh : t.get (key r) = none := by
          rcases hnew r List.mem_cons_self with hnone | hfresh
          · simp [hr] at hnone
          · exact hfresh
        show (upsert key r t.rows).filterMap as ++ _ = _
        rw [List.filterMap_cons_some hr, upsert_new hfresh, List.filterMap_append]
        simp [hr]

/-- The rows of one kind after storing rows of others. -/
theorem filterMap_install_other {α : Type} {as : ρ → Option α}
    (hkind : ∀ x y, key x = key y → as x = none → as y = none) :
    ∀ {ws : List ρ} {t : Table ρ κ key}, (∀ r ∈ ws, as r = none) →
      (t.install ws).rows.filterMap as = t.rows.filterMap as
  | [], _, _ => rfl
  | r :: ws, t, h => by
      have hr := h r List.mem_cons_self
      rw [install_cons, filterMap_install_other hkind fun x hx => h x (List.mem_cons_of_mem _ hx)]
      exact filterMap_upsert_other hr (fun x hx => hkind r x hx.symm hr) t.rows

/-! ## Tables that grow -/

/-- Every row of `t` is still there in `t'`, as a version that `R` relates to it. -/
def Extends (R : ρ → ρ → Prop) (t t' : Table ρ κ key) : Prop :=
  ∀ k r, t.get k = some r → ∃ r', t'.get k = some r' ∧ R r r'

namespace Extends

variable {R : ρ → ρ → Prop} {t t' t'' : Table ρ κ key}

theorem refl (hR : ∀ r, R r r) : t.Extends R t := fun _ r h => ⟨r, h, hR r⟩

theorem trans (hR : ∀ a b c, R a b → R b c → R a c) (h : t.Extends R t') (h' : t'.Extends R t'') :
    t.Extends R t'' := by
  intro k r hr
  obtain ⟨r', hr', h₁⟩ := h k r hr
  obtain ⟨r'', hr'', h₂⟩ := h' k r' hr'
  exact ⟨r'', hr'', hR _ _ _ h₁ h₂⟩

/-- Each version written over an old row is related to it. -/
theorem install (hR : ∀ r, R r r) {ws : List ρ} (hnd : (ws.map key).Nodup)
    (h : ∀ r ∈ ws, ∀ o, t.get (key r) = some o → R o r) : t.Extends R (t.install ws) := by
  intro k r hr
  by_cases hk : k ∈ ws.map key
  · obtain ⟨x, hx, rfl⟩ := List.mem_map.mp hk
    exact ⟨x, get_install_of_mem hnd hx, h x hx r hr⟩
  · exact ⟨r, (get_install_of_notMem hk).trans hr, hR r⟩

end Extends

section Totals

variable {M : Type} [AddCommMonoid M] (f : ρ → M)

theorem total_put (t : Table ρ κ key) (r : ρ) :
    (t.put r).total f + ((t.get (key r)).map f).getD 0 = t.total f + f r :=
  sum_upsert f r t.rows

theorem total_put_new {t : Table ρ κ key} {r : ρ} (h : t.get (key r) = none) :
    (t.put r).total f = t.total f + f r := by
  simpa [h] using total_put f t r

end Totals

omit [DecidableEq κ] in
/-- A total over the rows of one kind. -/
theorem total_filterMap {M α : Type} [AddCommMonoid M] (as : ρ → Option α) (f : α → M)
    (t : Table ρ κ key) :
    t.total (fun r => ((as r).map f).getD 0) = ((t.rows.filterMap as).map f).sum := by
  unfold total
  induction t.rows with
  | nil => rfl
  | cons r rows ih =>
    rw [List.map_cons, List.sum_cons, ih]
    cases h : as r with
    | none => simp [h]
    | some a => simp [h]

/-- A summand that sees the row of one key only. -/
theorem total_eq_get {M : Type} [AddCommMonoid M] {f : ρ → M} {k : κ} :
    ∀ (t : Table ρ κ key), (∀ r, key r ≠ k → f r = 0) → t.total f = ((t.get k).map f).getD 0
  | ⟨[], _⟩, _ => rfl
  | ⟨x :: xs, hnd⟩, h => by
      have hnd' := List.nodup_cons.mp hnd
      have ih := total_eq_get (⟨xs, hnd'.2⟩ : Table ρ κ key) h
      simp only [total, get, List.map_cons, List.sum_cons, List.find?_cons] at ih ⊢
      by_cases hx : key x = k
      · have hnone : xs.find? (fun r => decide (key r = k)) = none := by
          rw [List.find?_eq_none]
          intro y hy
          rw [decide_eq_true_eq]
          intro hk
          exact hnd'.1 (List.mem_map.mpr ⟨y, hy, hk.trans hx.symm⟩)
        rw [ih, hnone]
        simp [hx]
      · rw [h x hx, zero_add, ih]
        simp [hx]

/-- Row versions of distinct keys change a total by what each adds to the row
it replaces. -/
theorem total_install {M : Type} [AddCommGroup M] (f : ρ → M) : ∀ {ws : List ρ}
    {t : Table ρ κ key}, (ws.map key).Nodup → (t.install ws).total f =
      t.total f + (ws.map (fun r => f r - ((t.get (key r)).map f).getD 0)).sum
  | [], t, _ => by simp
  | r :: ws, t, hnd => by
      rw [List.map_cons, List.nodup_cons] at hnd
      have hrest : ws.map (fun x => f x - (((t.put r).get (key x)).map f).getD 0) =
          ws.map (fun x => f x - ((t.get (key x)).map f).getD 0) := by
        apply List.map_congr_left
        intro x hx
        have hne : key r ≠ key x := fun e => hnd.1 (e ▸ List.mem_map_of_mem hx)
        rw [get_put_of_ne hne]
      have hput : (t.put r).total f = t.total f + f r - ((t.get (key r)).map f).getD 0 :=
        eq_sub_of_add_eq (total_put f t r)
      rw [install_cons, total_install f hnd.2, hrest, hput, List.map_cons, List.sum_cons,
        add_sub_assoc, add_assoc]

end Table

end TxStore
