import PaymentApis.Lib.Decimal

/-!
# Integer-valued double-precision numbers

An integer-valued double is a natural number with at most 53 significant bits.
`roundDouble` is round-to-nearest, ties to even, on naturals. `shortest` is the
decimal value that the shortest text of a double denotes: the multiple of the
largest power of ten that still reads back as the same double, and the closest
one where two do. `numText` is that text: plain digits below 10^21, exponent
notation from there on.
-/

namespace TxStore

/-- The nearest natural with 53 significant bits. -/
def roundDouble (n : ℕ) : ℕ :=
  if n < 2 ^ 53 then n else
  let e := Nat.log2 n - 52
  let q := n / 2 ^ e
  let r := n % 2 ^ e
  (if r < 2 ^ (e - 1) ∨ (r = 2 ^ (e - 1) ∧ q % 2 = 0) then q else q + 1) * 2 ^ e

/-- A positive integer-valued finite double. -/
structure IntDouble where
  val : ℕ
  pos : 0 < val
  exact : roundDouble val = val
  finite : val < 2 ^ 1024
deriving DecidableEq

/-- Search for the shortest decimal of `x`, from `10 ^ j` downwards. -/
def shortestFrom (x : ℕ) : ℕ → ℕ
  | 0 => x
  | j + 1 =>
    let u := 10 ^ (j + 1)
    let lo := x / u * u
    let hi := lo + u
    if roundDouble lo = x then
      -- both neighbours read back: the closest, then the even one
      if roundDouble hi = x ∧ (hi - x < x - lo ∨ (hi - x = x - lo ∧ x / u % 2 = 1)) then hi
      else lo
    else if roundDouble hi = x then hi
    else shortestFrom x j

def shortest (x : ℕ) : ℕ := shortestFrom x (natText x).length

/-- Exponent notation: the significant digits, a point after the first when
there are more, and the decimal exponent. -/
def expText (v : ℕ) : Text :=
  let ds := natText v
  let sig := (ds.reverse.dropWhile (· == '0')).reverse
  (match sig with
    | [] => []
    | [d] => [d]
    | d :: rest => d :: '.' :: rest) ++ 'e' :: '+' :: natText (ds.length - 1)

/-- `Number.prototype.toString` on an integer-valued double. -/
def numText (x : ℕ) : Text :=
  if shortest x < 10 ^ 21 then natText (shortest x) else expText (shortest x)

theorem roundDouble_of_lt {n : ℕ} (h : n < 2 ^ 53) : roundDouble n = n := by
  rw [roundDouble, if_pos h]

/-- Rounding does not cross a power of two downwards. -/
theorem log2_le_roundDouble {n : ℕ} (h : 2 ^ 53 ≤ n) : 2 ^ Nat.log2 n ≤ roundDouble n := by
  have hlog : 53 ≤ Nat.log2 n := (Nat.le_log2 (by omega)).mpr h
  have hself : 2 ^ Nat.log2 n ≤ n := Nat.log2_self_le (by omega)
  set e := Nat.log2 n - 52 with he
  have hpow : 2 ^ Nat.log2 n = 2 ^ 52 * 2 ^ e := by
    rw [← pow_add]
    congr 1
    omega
  have hq : 2 ^ 52 ≤ n / 2 ^ e := by
    rw [Nat.le_div_iff_mul_le (by positivity)]
    omega
  have hround : n / 2 ^ e * 2 ^ e ≤ roundDouble n := by
    rw [roundDouble, if_neg (by omega)]
    simp only [← he]
    split
    · exact le_refl _
    · exact Nat.mul_le_mul_right _ (Nat.le_succ _)
  calc 2 ^ Nat.log2 n = 2 ^ 52 * 2 ^ e := hpow
    _ ≤ n / 2 ^ e * 2 ^ e := Nat.mul_le_mul_right _ hq
    _ ≤ roundDouble n := hround

theorem le_roundDouble {n k : ℕ} (hk : 53 ≤ k) (h : 2 ^ k ≤ n) : 2 ^ k ≤ roundDouble n := by
  have hmin : 2 ^ 53 ≤ 2 ^ k := Nat.pow_le_pow_right (by decide) hk
  have hpos : 0 < 2 ^ k := by positivity
  have hlog : k ≤ Nat.log2 n := (Nat.le_log2 (by omega)).mpr h
  calc 2 ^ k ≤ 2 ^ Nat.log2 n := Nat.pow_le_pow_right (by decide) hlog
    _ ≤ roundDouble n := log2_le_roundDouble (by omega)

/-- Below 2^53 a double is read back from no other natural. -/
theorem eq_of_roundDouble_eq {v x : ℕ} (hx : x < 2 ^ 53) (h : roundDouble v = x) : v = x := by
  by_cases hv : v < 2 ^ 53
  · rw [roundDouble_of_lt hv] at h
    exact h
  · have := le_roundDouble (le_refl _) (Nat.le_of_not_lt hv)
    omega

/-- The shortest text reads back as the double it was written for. -/
theorem roundDouble_shortestFrom {x : ℕ} (hx : roundDouble x = x) : ∀ j,
    roundDouble (shortestFrom x j) = x
  | 0 => hx
  | j + 1 => by
      simp only [shortestFrom]
      split_ifs with hlo hboth hhi
      · exact hboth.1
      · exact hlo
      · exact hhi
      · exact roundDouble_shortestFrom hx j

theorem roundDouble_shortest {x : ℕ} (hx : roundDouble x = x) : roundDouble (shortest x) = x :=
  roundDouble_shortestFrom hx _

/-- Small numbers are written exactly. -/
theorem shortest_of_lt {x : ℕ} (hx : x < 2 ^ 53) : shortest x = x :=
  eq_of_roundDouble_eq hx (roundDouble_shortest (roundDouble_of_lt hx))

/-- Exponent notation is no integer literal. -/
theorem parseInt_expText (v : ℕ) : parseInt (expText v) = none :=
  parseInt_of_mem (show 'e' ∈ expText v by simp [expText]) (by decide) (by decide)

/-- A number sent as text and read as a 64-bit integer is the value of its
shortest decimal, or out of range. -/
theorem Bigint.parse_numText (x : ℕ) : Bigint.parse (numText x) = Bigint.ofInt? (shortest x) := by
  by_cases h : shortest x < 10 ^ 21
  · rw [numText, if_pos h, Bigint.parse, parseInt_natText, Option.bind_some]
  · have hout : ¬ (-2 ^ 63 ≤ (shortest x : ℤ) ∧ (shortest x : ℤ) < 2 ^ 63) := by
      generalize shortest x = v at h
      omega
    have hnone : Bigint.ofInt? (shortest x) = none := dif_neg hout
    rw [numText, if_neg h, Bigint.parse, parseInt_expText, Option.bind_none, hnone]

/-- A double below 2^63 is written as a text that fits into 64 bits. -/
theorem shortest_lt {x : ℕ} (hx : roundDouble x = x) (h : x < 2 ^ 63) : shortest x < 2 ^ 63 := by
  by_contra hlarge
  have hround : 2 ^ 63 ≤ roundDouble (shortest x) :=
    le_roundDouble (by decide) (Nat.le_of_not_lt hlarge)
  rw [roundDouble_shortest hx] at hround
  omega

theorem shortest_pos {x : ℕ} (hx : roundDouble x = x) (h : 0 < x) : 0 < shortest x := by
  by_contra hzero
  have hround := roundDouble_shortest hx
  rw [Nat.eq_zero_of_not_pos hzero, roundDouble_of_lt (by decide)] at hround
  omega

end TxStore
