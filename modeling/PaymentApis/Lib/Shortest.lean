import Mathlib.Data.Nat.Dist
import PaymentApis.Lib.Double

/-!
# The decimals of a double

Rounding is monotone and leaves doubles as they are, so the naturals that are read
as one double lie together. Of these, `shortest` is the one that `IsShortest`
describes: as many trailing zeros as any, and as close to the double as can be.
-/

namespace TxStore

/-! ## Rounding -/

/-- Rounding to a multiple of `2 ^ e`. -/
def roundAt (e n : ℕ) : ℕ :=
  (if n % 2 ^ e < 2 ^ (e - 1) ∨ (n % 2 ^ e = 2 ^ (e - 1) ∧ n / 2 ^ e % 2 = 0) then n / 2 ^ e
    else n / 2 ^ e + 1) * 2 ^ e

theorem roundDouble_eq {n : ℕ} (h : 2 ^ 53 ≤ n) :
    roundDouble n = roundAt (Nat.log2 n - 52) n := by
  rw [roundDouble, if_neg (by omega)]
  rfl

theorem roundAt_le (e n : ℕ) : roundAt e n ≤ (n / 2 ^ e + 1) * 2 ^ e := by
  refine Nat.mul_le_mul_right _ ?_
  split <;> omega

theorem le_roundAt (e n : ℕ) : n / 2 ^ e * 2 ^ e ≤ roundAt e n := by
  refine Nat.mul_le_mul_right _ ?_
  split <;> omega

theorem roundAt_mono (e : ℕ) {a b : ℕ} (h : a ≤ b) : roundAt e a ≤ roundAt e b := by
  rcases Nat.eq_or_lt_of_le (Nat.div_le_div_right (c := 2 ^ e) h) with hq | hq
  · -- in the same place, the greater remainder rounds up if the smaller does
    have hr : a % 2 ^ e ≤ b % 2 ^ e := by
      have ha := Nat.div_add_mod a (2 ^ e)
      have hb := Nat.div_add_mod b (2 ^ e)
      rw [hq] at ha
      omega
    refine Nat.mul_le_mul_right _ ?_
    rw [hq]
    split_ifs with hup hdown
    · exact le_refl _
    · omega
    · omega
    · exact le_refl _
  · calc roundAt e a ≤ (a / 2 ^ e + 1) * 2 ^ e := roundAt_le e a
      _ ≤ b / 2 ^ e * 2 ^ e := Nat.mul_le_mul_right _ hq
      _ ≤ roundAt e b := le_roundAt e b

theorem roundAt_of_dvd {e n : ℕ} (h : 2 ^ e ∣ n) : roundAt e n = n := by
  have hmod : n % 2 ^ e = 0 := Nat.mod_eq_zero_of_dvd h
  have hdown : n % 2 ^ e < 2 ^ (e - 1) ∨ (n % 2 ^ e = 2 ^ (e - 1) ∧ n / 2 ^ e % 2 = 0) := by
    left
    rw [hmod]
    positivity
  rw [roundAt, if_pos hdown, Nat.div_mul_cancel h]

/-- Rounding does not cross a power of two upwards. -/
theorem roundDouble_le {n k : ℕ} (hk : 53 ≤ k) (h : n < 2 ^ k) : roundDouble n ≤ 2 ^ k := by
  by_cases hn : n < 2 ^ 53
  · rw [roundDouble_of_lt hn]
    omega
  · have hlog : Nat.log2 n < k := (Nat.log2_lt (by omega)).mpr h
    rw [roundDouble_eq (by omega)]
    set e := Nat.log2 n - 52
    have hpow : 2 ^ k = 2 ^ (k - e) * 2 ^ e := by
      rw [← pow_add]
      congr 1
      omega
    have hq : n / 2 ^ e < 2 ^ (k - e) := by
      rw [Nat.div_lt_iff_lt_mul (by positivity), ← hpow]
      exact h
    calc roundAt e n ≤ (n / 2 ^ e + 1) * 2 ^ e := roundAt_le e n
      _ ≤ 2 ^ (k - e) * 2 ^ e := Nat.mul_le_mul_right _ hq
      _ = 2 ^ k := hpow.symm

theorem roundDouble_mono {a b : ℕ} (h : a ≤ b) : roundDouble a ≤ roundDouble b := by
  by_cases hb : b < 2 ^ 53
  · rw [roundDouble_of_lt hb, roundDouble_of_lt (by omega)]
    exact h
  have hlarge : 2 ^ 53 ≤ roundDouble b := le_roundDouble (le_refl _) (by omega)
  by_cases ha : a < 2 ^ 53
  · rw [roundDouble_of_lt ha]
    omega
  -- both have an exponent
  have hmono : Nat.log2 a ≤ Nat.log2 b :=
    (Nat.le_log2 (by omega)).mpr ((Nat.log2_self_le (by omega)).trans h)
  rcases Nat.eq_or_lt_of_le hmono with hlog | hlog
  · rw [roundDouble_eq (Nat.le_of_not_lt ha), roundDouble_eq (Nat.le_of_not_lt hb), hlog]
    exact roundAt_mono _ h
  · have hexp : 53 ≤ Nat.log2 a := (Nat.le_log2 (by omega)).mpr (by omega)
    calc roundDouble a ≤ 2 ^ (Nat.log2 a + 1) := roundDouble_le (by omega) Nat.lt_log2_self
      _ ≤ 2 ^ Nat.log2 b := Nat.pow_le_pow_right (by decide) hlog
      _ ≤ roundDouble b := log2_le_roundDouble (by omega)

/-- 53 significant bits are a double. -/
theorem roundDouble_of_bits {m e : ℕ} (hm : m ≤ 2 ^ 53) : roundDouble (m * 2 ^ e) = m * 2 ^ e := by
  by_cases hsmall : m * 2 ^ e < 2 ^ 53
  · exact roundDouble_of_lt hsmall
  rw [roundDouble_eq (by omega)]
  apply roundAt_of_dvd
  rcases Nat.eq_or_lt_of_le hm with rfl | hlt
  · -- a power of two
    have hlog : Nat.log2 (2 ^ 53 * 2 ^ e) = 53 + e := by
      rw [← pow_add]
      exact Nat.log2_two_pow
    rw [hlog, ← pow_add]
    exact Nat.pow_dvd_pow 2 (by omega)
  · have hbound : m * 2 ^ e < 2 ^ (53 + e) := by
      rw [pow_add]
      exact Nat.mul_lt_mul_of_pos_right hlt (by positivity)
    have hlog : Nat.log2 (m * 2 ^ e) < 53 + e := (Nat.log2_lt (by omega)).mpr hbound
    exact Dvd.dvd.mul_left (Nat.pow_dvd_pow 2 (by omega)) m

theorem roundDouble_roundDouble (n : ℕ) : roundDouble (roundDouble n) = roundDouble n := by
  by_cases hn : n < 2 ^ 53
  · rw [roundDouble_of_lt hn, roundDouble_of_lt hn]
  have hlog : Nat.log2 n < 53 + (Nat.log2 n - 52) := by omega
  have hself := (Nat.log2_lt (by omega)).mp hlog
  rw [roundDouble_eq (Nat.le_of_not_lt hn), roundAt]
  apply roundDouble_of_bits
  set e := Nat.log2 n - 52
  have hq : n / 2 ^ e < 2 ^ 53 := by
    rw [Nat.div_lt_iff_lt_mul (by positivity), ← pow_add]
    exact hself
  split <;> omega

theorem roundDouble_pos {n : ℕ} (h : 0 < n) : 0 < roundDouble n := by
  calc 0 < 1 := Nat.one_pos
    _ = roundDouble 1 := (roundDouble_of_lt (by decide)).symm
    _ ≤ roundDouble n := roundDouble_mono h

/-- The doubles below 2^63 are those of the naturals that are nearer to one of them. -/
theorem roundDouble_lt_iff {n : ℕ} : roundDouble n < 2 ^ 63 ↔ n < 2 ^ 63 - 512 := by
  have hup : roundDouble (2 ^ 63 - 512) = 2 ^ 63 := by decide +kernel
  have hdown : roundDouble (2 ^ 63 - 513) < 2 ^ 63 := by decide +kernel
  constructor
  · intro h
    by_contra hn
    have hmono := roundDouble_mono (Nat.le_of_not_lt hn)
    omega
  · intro h
    have hmono : roundDouble n ≤ roundDouble (2 ^ 63 - 513) := roundDouble_mono (by omega)
    omega

/-- What lies between two naturals of one double is of that double. -/
theorem roundDouble_between {x a b c : ℕ} (ha : roundDouble a = x) (hb : roundDouble b = x)
    (hac : a ≤ c) (hcb : c ≤ b) : roundDouble c = x := by
  have hlo := roundDouble_mono hac
  have hhi := roundDouble_mono hcb
  omega

/-! ## The shortest decimal -/

/-- `v` is the decimal of the double `x`: of the naturals read as `x` one with the most
trailing zeros, and of these the closest to `x`, or the even one of two. -/
def IsShortest (x v : ℕ) : Prop :=
  roundDouble v = x ∧ ∃ j, 10 ^ j ∣ v ∧ (∀ m i, roundDouble m = x → 10 ^ i ∣ m → i ≤ j) ∧
    ∀ m, roundDouble m = x → 10 ^ j ∣ m → Nat.dist v x < Nat.dist m x ∨
      (Nat.dist v x = Nat.dist m x ∧ (m = v ∨ v / 10 ^ j % 2 = 0))

/-- The multiples of `u` below and above `x`. -/
theorem multiple_split {x u m : ℕ} (h : u ∣ m) : m ≤ x / u * u ∨ x / u * u + u ≤ m := by
  obtain ⟨q, rfl⟩ := h
  rcases Nat.lt_or_ge (x / u) q with hq | hq
  · right
    calc x / u * u + u = (x / u + 1) * u := by ring
      _ ≤ q * u := Nat.mul_le_mul_right _ hq
      _ = u * q := Nat.mul_comm q u
  · left
    rw [Nat.mul_comm u q]
    exact Nat.mul_le_mul_right _ hq

theorem isShortest_from {x : ℕ} (hx : roundDouble x = x) : ∀ j,
    (∀ m i, roundDouble m = x → 10 ^ i ∣ m → i ≤ j) → IsShortest x (shortestFrom x j)
  | 0, h => by
      refine ⟨hx, 0, one_dvd _, h, ?_⟩
      intro m hm _
      rw [shortestFrom, Nat.dist_self]
      rcases Nat.eq_zero_or_pos (Nat.dist m x) with hzero | hpos
      · exact .inr ⟨hzero.symm, .inl (Nat.eq_of_dist_eq_zero hzero)⟩
      · exact .inl hpos
  | j + 1, h => by
      have hu : 0 < 10 ^ (j + 1) := by positivity
      simp only [shortestFrom]
      generalize hlo : x / 10 ^ (j + 1) * 10 ^ (j + 1) = lo
      have hdiv := Nat.div_add_mod' x (10 ^ (j + 1))
      have hmod := Nat.mod_lt x hu
      have hdlo : 10 ^ (j + 1) ∣ lo := hlo ▸ Dvd.intro_left _ rfl
      have hqlo : lo / 10 ^ (j + 1) = x / 10 ^ (j + 1) := by
        rw [← hlo, Nat.mul_div_cancel _ hu]
      have hqhi : (lo + 10 ^ (j + 1)) / 10 ^ (j + 1) = x / 10 ^ (j + 1) + 1 := by
        rw [Nat.add_div_right _ hu, hqlo]
      have hsplit : ∀ m, 10 ^ (j + 1) ∣ m → m ≤ lo ∨ lo + 10 ^ (j + 1) ≤ m := fun m hm =>
        hlo ▸ multiple_split hm
      -- a multiple that is read as `x` is not nearer than its neighbour, which is read so too
      have hbelow : ∀ m, roundDouble m = x → m ≤ lo → roundDouble lo = x := fun m hm hle =>
        roundDouble_between hm hx hle (by omega)
      have habove : ∀ m, roundDouble m = x → lo + 10 ^ (j + 1) ≤ m →
          roundDouble (lo + 10 ^ (j + 1)) = x := fun m hm hle =>
        roundDouble_between hx hm (by omega) hle
      have hdhi : 10 ^ (j + 1) ∣ lo + 10 ^ (j + 1) := Dvd.dvd.add hdlo (dvd_refl _)
      split_ifs with hreads hboth hhi
      · refine ⟨hboth.1, j + 1, hdhi, h, ?_⟩
        intro m hm hdvd
        rw [hqhi]
        rcases hsplit m hdvd with hle | hle
        · simp only [Nat.dist]
          omega
        · simp only [Nat.dist]
          omega
      · refine ⟨hreads, j + 1, hdlo, h, ?_⟩
        intro m hm hdvd
        rw [hqlo]
        rcases hsplit m hdvd with hle | hle
        · simp only [Nat.dist]
          omega
        · have hnot := not_and.mp hboth (habove m hm hle)
          simp only [Nat.dist]
          omega
      · refine ⟨hhi, j + 1, hdhi, h, ?_⟩
        intro m hm hdvd
        rcases hsplit m hdvd with hle | hle
        · exact absurd (hbelow m hm hle) hreads
        · simp only [Nat.dist]
          omega
      · refine isShortest_from hx j ?_
        intro m i hm hdvd
        have hi := h m i hm hdvd
        rcases Nat.eq_or_lt_of_le hi with rfl | hlt
        · rcases hsplit m hdvd with hle | hle
          · exact absurd (hbelow m hm hle) hreads
          · exact absurd (habove m hm hle) hhi
        · omega

/-- No natural with more trailing zeros than `x` has digits is read as `x`. -/
theorem zeros_le_length {x m i : ℕ} (hpos : 0 < x) (hm : roundDouble m = x) (hdvd : 10 ^ i ∣ m) :
    i ≤ (natText x).length := by
  have hlen : x < 10 ^ (natText x).length :=
    (Nat.length_toDigits_le_iff (by decide) Nat.length_toDigits_pos).mp (le_refl _)
  have hmpos : 0 < m := by
    rcases Nat.eq_zero_or_pos m with rfl | h
    · rw [roundDouble_of_lt (by decide)] at hm
      omega
    · exact h
  by_contra hi
  have hten : 10 * 10 ^ (natText x).length ≤ m := by
    calc 10 * 10 ^ (natText x).length = 10 ^ ((natText x).length + 1) := (pow_succ' 10 _).symm
      _ ≤ 10 ^ i := Nat.pow_le_pow_right (by decide) (by omega)
      _ ≤ m := Nat.le_of_dvd hmpos hdvd
  by_cases hx : x < 2 ^ 53
  · have heq := eq_of_roundDouble_eq hx hm
    omega
  · -- a power of two lies between `x` and `m`
    have hself := Nat.log2_self_le (n := x) (by omega)
    have hlog : 53 ≤ Nat.log2 x := (Nat.le_log2 (by omega)).mpr (by omega)
    have hnext : x < 2 ^ (Nat.log2 x + 1) := Nat.lt_log2_self
    have hpow : 2 ^ (Nat.log2 x + 1) ≤ m := by
      rw [pow_succ]
      omega
    have hle := le_roundDouble (by omega) hpow
    omega

theorem isShortest_shortest {x : ℕ} (hx : roundDouble x = x) (hpos : 0 < x) :
    IsShortest x (shortest x) :=
  isShortest_from hx _ (fun _ _ hm hdvd => zeros_le_length hpos hm hdvd)

/-- Between two multiples that are equally far from `x` there are closer ones. -/
theorem closer_between {x u a b : ℕ} (hu : 0 < u) (ha : roundDouble (u * a) = x)
    (hb : roundDouble (u * b) = x) (hlt : a + 1 < b)
    (hdist : Nat.dist (u * a) x = Nat.dist (u * b) x) :
    roundDouble (u * (a + 1)) = x ∧ Nat.dist (u * (a + 1)) x < Nat.dist (u * a) x := by
  have hnext : u * (a + 1) = u * a + u := Nat.mul_succ u a
  have hlast : u * a + u + u ≤ u * b := by
    calc u * a + u + u = u * (a + 2) := by ring
      _ ≤ u * b := Nat.mul_le_mul_left u hlt
  rw [hnext]
  refine ⟨roundDouble_between ha hb (by omega) (by omega), ?_⟩
  simp only [Nat.dist] at hdist ⊢
  omega

/-- There is one shortest decimal. -/
theorem IsShortest.unique {x v v' : ℕ} (h : IsShortest x v) (h' : IsShortest x v') : v = v' := by
  obtain ⟨hv, j, hdvd, hmax, hnear⟩ := h
  obtain ⟨hv', j', hdvd', hmax', hnear'⟩ := h'
  obtain rfl : j = j' := le_antisymm (hmax' v j hv hdvd) (hmax v' j' hv' hdvd')
  have hdist := hnear v' hv' hdvd'
  have hdist' := hnear' v hv hdvd
  by_contra hne
  obtain ⟨q, rfl⟩ := hdvd
  obtain ⟨q', rfl⟩ := hdvd'
  have hu : 0 < 10 ^ j := by positivity
  rw [Nat.mul_div_cancel_left _ hu] at hdist hdist'
  have hq : q ≠ q' := fun heq => hne (by rw [heq])
  have heq : Nat.dist (10 ^ j * q) x = Nat.dist (10 ^ j * q') x := by omega
  -- both quotients are even, so there is a multiple between them
  rcases Nat.lt_or_gt_of_ne hq with hlt | hlt
  · obtain ⟨hread, hcloser⟩ := closer_between hu hv hv' (by omega) heq
    have hfar := hnear _ hread (Dvd.intro _ rfl)
    omega
  · obtain ⟨hread, hcloser⟩ := closer_between hu hv' hv (by omega) heq.symm
    have hfar := hnear' _ hread (Dvd.intro _ rfl)
    omega

theorem shortest_eq_iff {x v : ℕ} (hx : roundDouble x = x) (hpos : 0 < x) :
    shortest x = v ↔ IsShortest x v := by
  constructor
  · rintro rfl
    exact isShortest_shortest hx hpos
  · exact fun h => (isShortest_shortest hx hpos).unique h

/-- Small numbers are their own decimals. -/
theorem isShortest_of_lt {v : ℕ} (hpos : 0 < v) (hv : v < 2 ^ 53) : IsShortest (roundDouble v) v := by
  rw [roundDouble_of_lt hv, ← shortest_eq_iff (roundDouble_of_lt hv) hpos]
  exact shortest_of_lt hv

/-- A double is below 2^63 when its text is. -/
theorem shortest_lt_iff {x : ℕ} (hx : roundDouble x = x) : shortest x < 2 ^ 63 ↔ x < 2 ^ 63 := by
  refine ⟨fun h => ?_, shortest_lt hx⟩
  by_contra hlarge
  have hmono : roundDouble (shortest x) ≤ roundDouble (2 ^ 63) := roundDouble_mono (by omega)
  have hself : roundDouble (2 ^ 63) = 2 ^ 63 := by decide +kernel
  rw [roundDouble_shortest hx, hself] at hmono
  obtain rfl : x = 2 ^ 63 := by omega
  have htext : shortest (2 ^ 63) = 9223372036854776000 := by decide +kernel
  omega

end TxStore
