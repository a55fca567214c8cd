import Mathlib.Tactic

/-!
# Decimal texts and 64-bit integers

Numbers travel between a program and its database as decimal texts. `natText`
and `intText` write them, `parseInt` reads them back. A `Bigint` is a value of
a signed 64-bit column: it carries its range, and reading one from a text fails
outside it.
-/

namespace TxStore

abbrev Text := List Char

def natText (n : ℕ) : Text := Nat.toDigits 10 n

def intText : ℤ → Text
  | .ofNat n => natText n
  | .negSucc n => '-' :: natText (n + 1)

def parseNat (t : Text) : Option ℕ :=
  if t ≠ [] ∧ t.all Char.isDigit = true then some (Nat.ofDigitChars 10 t 0) else none

/-- An optional minus sign and decimal digits. -/
def parseInt : Text → Option ℤ
  | [] => none
  | c :: t =>
    if c = '-' then (parseNat t).map (fun n => -(n : ℤ)) else
    (parseNat (c :: t)).map (fun n => (n : ℤ))

theorem natText_digits (n : ℕ) : (natText n).all Char.isDigit = true := by
  rw [List.all_eq_true]
  intro c hc
  exact Nat.isDigit_of_mem_toDigits (by decide) (by decide) hc

theorem natText_ne_nil (n : ℕ) : natText n ≠ [] := Nat.toDigits_ne_nil

theorem parseNat_natText (n : ℕ) : parseNat (natText n) = some n := by
  rw [parseNat, if_pos ⟨natText_ne_nil n, natText_digits n⟩, natText,
    Nat.ofDigitChars_ten_toDigits]

theorem parseInt_natText (n : ℕ) : parseInt (natText n) = some (n : ℤ) := by
  have hparse := parseNat_natText n
  have hdigits := natText_digits n
  cases ht : natText n with
  | nil => exact absurd ht (natText_ne_nil n)
  | cons c t =>
    rw [ht] at hparse hdigits
    have hc : c ≠ '-' := by
      rintro rfl
      simp at hdigits
    rw [parseInt, if_neg hc, hparse]
    rfl

theorem parseInt_intText (z : ℤ) : parseInt (intText z) = some z := by
  cases z with
  | ofNat n => exact parseInt_natText n
  | negSucc n =>
    rw [intText, parseInt, if_pos rfl, parseNat_natText]
    rfl

/-- A text with a character that is neither a digit nor a sign is no integer. -/
theorem parseInt_of_mem {t : Text} {c : Char} (hc : c ∈ t) (hd : c.isDigit = false)
    (hm : c ≠ '-') : parseInt t = none := by
  have hbad : ∀ u : Text, c ∈ u → parseNat u = none := by
    intro u hu
    rw [parseNat, if_neg]
    rintro ⟨_, hall⟩
    rw [List.all_eq_true] at hall
    exact Bool.noConfusion (hd.symm.trans (hall c hu))
  cases t with
  | nil => rfl
  | cons a t =>
    rw [parseInt]
    split_ifs with ha
    · have hct : c ∈ t := by
        rcases List.mem_cons.mp hc with rfl | hct
        · exact absurd ha hm
        · exact hct
      rw [hbad t hct]
      rfl
    · rw [hbad _ hc]
      rfl

/-- A value of a signed 64-bit column. -/
structure Bigint where
  val : ℤ
  lo : -2 ^ 63 ≤ val
  hi : val < 2 ^ 63
deriving DecidableEq

namespace Bigint

@[ext] theorem ext {a b : Bigint} (h : a.val = b.val) : a = b := by
  cases a
  cases b
  simpa using h

def ofInt? (z : ℤ) : Option Bigint :=
  if h : -2 ^ 63 ≤ z ∧ z < 2 ^ 63 then some ⟨z, h.1, h.2⟩ else none

def zero : Bigint := ⟨0, by decide, by decide⟩

@[simp] theorem zero_val : zero.val = 0 := rfl

theorem zero_nonneg : 0 ≤ zero.val := le_refl 0

/-- The text the database sends, and the program sends back. -/
def text (b : Bigint) : Text := intText b.val

/-- Text to column value; fails on a malformed text and outside the range. -/
def parse (t : Text) : Option Bigint := (parseInt t).bind ofInt?

def add? (a b : Bigint) : Option Bigint := ofInt? (a.val + b.val)

theorem ofInt?_eq_some {z : ℤ} {b : Bigint} : ofInt? z = some b ↔ b.val = z := by
  unfold ofInt?
  constructor
  · intro h
    split at h
    · cases h
      rfl
    · simp at h
  · rintro rfl
    rw [dif_pos ⟨b.lo, b.hi⟩]

theorem parse_intText (z : ℤ) : parse (intText z) = ofInt? z := by
  simp [parse, parseInt_intText]

@[simp] theorem parse_text (b : Bigint) : parse b.text = some b := by
  rw [text, parse_intText, ofInt?_eq_some]

theorem add?_eq_some {a b c : Bigint} : a.add? b = some c ↔ c.val = a.val + b.val :=
  ofInt?_eq_some

end Bigint

end TxStore
