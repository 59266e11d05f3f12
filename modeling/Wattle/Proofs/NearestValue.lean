import Mathlib.Data.Int.Log
import Mathlib.Data.Rat.Floor
import Mathlib.Tactic.Linarith
import Wattle.Text.FloatFormat

/-!
# Rounding to floating values

This module says what the value of a floating format nearest to a rational number is, and shows that
rounding a quotient of natural numbers gives it. Rounding goes on as if there were no largest value,
and a result that is too large stands for infinity. So there is a least number that is rounded to
infinity: it lies half-way between the largest finite value and the power of two above it.
-/

namespace Wattle

/-- The nearest integer; of two, the even one. -/
def nearestInt (x : ℚ) : ℤ :=
  if Int.fract x < 1 / 2 ∨ Int.fract x = 1 / 2 ∧ Even ⌊x⌋ then ⌊x⌋ else ⌊x⌋ + 1

theorem le_nearestInt {x : ℚ} {n : ℤ} (h : n ≤ x) : n ≤ nearestInt x := by
  have hfloor : n ≤ ⌊x⌋ := Int.le_floor.mpr h
  rw [nearestInt]
  split
  · exact hfloor
  · omega

/-- An even number is reached from half a unit below it on. -/
theorem nearestInt_lt_iff {x : ℚ} {n : ℤ} (hn : Even n) : nearestInt x < n ↔ x < n - 1 / 2 := by
  have hfract : x = ⌊x⌋ + Int.fract x := (Int.floor_add_fract x).symm
  have hnonneg := Int.fract_nonneg x
  have hlt := Int.fract_lt_one x
  rcases lt_trichotomy ⌊x⌋ (n - 1) with hbelow | hnear | habove
  · have hbelow' : (⌊x⌋ : ℚ) + 2 ≤ n := by exact_mod_cast (by omega : ⌊x⌋ + 2 ≤ n)
    have hint : nearestInt x < n := by
      rw [nearestInt]
      split <;> omega
    exact ⟨fun _ => by linarith, fun _ => hint⟩
  · have hodd : ¬ Even ⌊x⌋ := by
      rw [hnear]
      intro heven
      exact absurd (hn.sub heven) (by simp)
    have hnear' : (⌊x⌋ : ℚ) = n - 1 := by exact_mod_cast hnear
    rw [nearestInt]
    split
    · next hdown =>
      have hhalf : Int.fract x < 1 / 2 := hdown.resolve_right fun h => hodd h.2
      exact ⟨fun _ => by linarith, fun _ => by omega⟩
    · next hup =>
      have hhalf : 1 / 2 ≤ Int.fract x := le_of_not_gt fun h => hup (.inl h)
      exact ⟨fun h => by omega, fun h => by linarith⟩
  · have hle : (n : ℚ) ≤ x := Int.le_floor.mp (by omega)
    have hint := le_nearestInt hle
    exact ⟨fun h => by omega, fun h => by linarith⟩

namespace FloatFormat

variable (f : FloatFormat) {x : ℚ}

/-- The exponent of the distance between values of the size of `x`. -/
def spacing (x : ℚ) : ℤ :=
  max (Int.log 2 x + 1 - f.precision) f.least

/-- The value nearest to `x`, as if there were no largest one. -/
def nearest (x : ℚ) : ℚ :=
  nearestInt (x / 2 ^ f.spacing x) * 2 ^ f.spacing x

/-- Where values are closer than the power of two above them all, rounding stays below it up to half
their distance. -/
theorem nearest_lt_top_of_spacing (h : f.spacing x < f.top) :
    f.nearest x < 2 ^ f.top ↔ x < 2 ^ f.top - 2 ^ (f.spacing x - 1) := by
  have hpos : (0 : ℚ) < 2 ^ f.spacing x := zpow_pos two_pos _
  obtain ⟨k, hk⟩ : ∃ k : ℕ, f.top = f.spacing x + (k + 1 : ℕ) :=
    ⟨(f.top - f.spacing x - 1).toNat, by omega⟩
  have htop : (2 : ℚ) ^ f.top = ((2 ^ (k + 1) : ℤ) : ℚ) * 2 ^ f.spacing x := by
    rw [hk, zpow_add₀ two_ne_zero, zpow_natCast, mul_comm]
    push_cast
    rfl
  have heven : Even (2 ^ (k + 1) : ℤ) := (even_two).pow_of_ne_zero k.succ_ne_zero
  have hhalf : (2 : ℚ) ^ (f.spacing x - 1) = 1 / 2 * 2 ^ f.spacing x := by
    rw [zpow_sub_one₀ two_ne_zero]
    ring
  rw [nearest, htop, mul_lt_mul_iff_left₀ hpos, Int.cast_lt, nearestInt_lt_iff heven,
    div_lt_iff₀ hpos, sub_mul, hhalf]

/-- Rounding does not fall below a power of two. -/
theorem zpow_log_le_nearest (hx : 0 < x) (h : f.least + f.precision ≤ Int.log 2 x + 1) :
    2 ^ Int.log 2 x ≤ f.nearest x := by
  have hpos : (0 : ℚ) < 2 ^ f.spacing x := zpow_pos two_pos _
  have hspacing : f.spacing x = Int.log 2 x + 1 - f.precision := max_eq_left (by omega)
  have hprecision := f.precision_pos
  have hlog : (2 : ℚ) ^ Int.log 2 x = ((2 ^ (f.precision - 1) : ℤ) : ℚ) * 2 ^ f.spacing x := by
    rw [hspacing]
    push_cast
    rw [← zpow_natCast, ← zpow_add₀ two_ne_zero]
    congr 1
    omega
  have hle : (2 : ℚ) ^ Int.log 2 x ≤ x := Int.zpow_log_le_self one_lt_two hx
  rw [nearest, hlog]
  refine mul_le_mul_of_nonneg_right ?_ hpos.le
  rw [hlog, ← le_div_iff₀ hpos] at hle
  exact_mod_cast le_nearestInt hle

/-- Numbers are rounded to infinity from the middle between the largest finite value and the power
of two above it on. -/
theorem nearest_lt_top_iff (hx : 0 ≤ x) :
    f.nearest x < 2 ^ f.top ↔ x < 2 ^ f.top - 2 ^ (f.top - f.precision - 1) := by
  have hprecision := f.precision_pos
  have hleast := f.least_le
  have hdouble : (2 : ℚ) ^ f.top = 2 * 2 ^ (f.top - 1) := by
    rw [zpow_sub_one₀ two_ne_zero]
    ring
  have hmiddle : (2 : ℚ) ^ (f.top - f.precision - 1) ≤ 2 ^ (f.top - 1) :=
    zpow_le_zpow_right₀ one_le_two (by omega)
  have htop : (0 : ℚ) < 2 ^ f.top := zpow_pos two_pos _
  have hhalf : (0 : ℚ) < 2 ^ (f.top - 1) := zpow_pos two_pos _
  rcases hx.eq_or_lt with rfl | hx
  · have hzero : f.nearest 0 = 0 := by simp [nearest, nearestInt]
    rw [hzero]
    exact ⟨fun _ => by linarith, fun _ => htop⟩
  rcases le_or_gt (2 ^ f.top) x with habove | hbelow
  · have hlog : f.top ≤ Int.log 2 x := (Int.zpow_le_iff_le_log one_lt_two hx).mp habove
    have hpower : (2 : ℚ) ^ f.top ≤ 2 ^ Int.log 2 x := zpow_le_zpow_right₀ one_le_two hlog
    have hnearest := f.zpow_log_le_nearest hx (by omega)
    have hdistance : (0 : ℚ) < 2 ^ (f.top - f.precision - 1) := zpow_pos two_pos _
    exact ⟨fun h => by linarith, fun h => by linarith⟩
  · have hlog : Int.log 2 x < f.top := (Int.lt_zpow_iff_log_lt one_lt_two hx).mp hbelow
    have hspacing : f.spacing x ≤ f.top - f.precision := max_le (by omega) (by omega)
    rw [f.nearest_lt_top_of_spacing (by omega)]
    rcases le_or_gt (2 ^ (f.top - 1)) x with hupper | hlower
    · -- in the upper half, the distance is that of the largest values
      have hlog' : f.top - 1 ≤ Int.log 2 x := (Int.zpow_le_iff_le_log one_lt_two hx).mp hupper
      have hequal : f.spacing x = f.top - f.precision := by
        rw [spacing, max_eq_left (by omega)]
        omega
      rw [hequal]
    · have hdistance : (2 : ℚ) ^ (f.spacing x - 1) ≤ 2 ^ (f.top - 1) :=
        zpow_le_zpow_right₀ one_le_two (by omega)
      exact ⟨fun _ => by linarith, fun _ => by linarith⟩

theorem nearest_lt_pow_iff (hx : 0 ≤ x) {n k : ℕ} (hn : f.top = n)
    (hk : f.top - f.precision - 1 = k) : f.nearest x < 2 ^ n ↔ x < 2 ^ n - 2 ^ k := by
  have hiff := f.nearest_lt_top_iff hx
  rwa [hk, hn, zpow_natCast, zpow_natCast] at hiff

end FloatFormat

/-! ## Rounding a quotient -/

theorem cast_twoTo (exponent : ℕ) : (Text.twoTo exponent : ℚ) = 2 ^ exponent :=
  Nat.cast_pow 2 exponent

/-- Powers of two with natural exponents on both sides of a quotient stand for any power of two. -/
theorem twoTo_div_twoTo (exponent : ℤ) :
    (Text.twoTo exponent.toNat : ℚ) / Text.twoTo (-exponent).toNat = 2 ^ exponent := by
  rw [cast_twoTo, cast_twoTo]
  rcases le_total 0 exponent with hpos | hneg
  · obtain ⟨n, rfl⟩ := Int.eq_ofNat_of_zero_le hpos
    simp
  · obtain ⟨n, hn⟩ := Int.eq_ofNat_of_zero_le (Int.neg_nonneg_of_nonpos hneg)
    obtain rfl : exponent = -n := by omega
    simp

theorem twoTo_pos (exponent : ℕ) : (0 : ℚ) < Text.twoTo exponent := by
  rw [cast_twoTo]
  exact pow_pos two_pos _

section

variable {n d : ℕ}

theorem nearestQuotient_eq (hd : 0 < d) : (nearestQuotient n d : ℤ) = nearestInt (n / d) := by
  have hd' : (0 : ℚ) < d := Nat.cast_pos.mpr hd
  have hfloor : ⌊(n / d : ℚ)⌋ = (n / d : ℕ) := Rat.floor_natCast_div_natCast n d
  have hless : Int.fract (n / d : ℚ) < 1 / 2 ↔ 2 * (n % d) < d := by
    rw [Int.fract_div_natCast_eq_div_natCast_mod, div_lt_div_iff₀ hd' two_pos, one_mul, mul_comm]
    exact_mod_cast Iff.rfl
  have hequal : Int.fract (n / d : ℚ) = 1 / 2 ↔ 2 * (n % d) = d := by
    rw [Int.fract_div_natCast_eq_div_natCast_mod, div_eq_div_iff hd'.ne' two_ne_zero, one_mul,
      mul_comm]
    exact_mod_cast Iff.rfl
  have heven : Even ((n / d : ℕ) : ℤ) ↔ n / d % 2 = 0 := by
    rw [Int.even_coe_nat, Nat.even_iff]
  simp only [nearestQuotient, nearestInt, hfloor, hless, hequal, heven]
  split <;> push_cast <;> rfl

theorem quotientLog_eq (hn : 0 < n) (hd : 0 < d) : quotientLog n d = Int.log 2 (n / d : ℚ) := by
  have hd' : (0 : ℚ) < d := Nat.cast_pos.mpr hd
  have hquotient : (0 : ℚ) < n / d := div_pos (Nat.cast_pos.mpr hn) hd'
  have hbetween : ∀ {m : ℕ}, 0 < m →
      (2 : ℚ) ^ (m.log2 : ℤ) ≤ m ∧ (m : ℚ) < 2 ^ (m.log2 + 1 : ℤ) := by
    intro m hm
    constructor
    · exact_mod_cast Nat.log2_self_le hm.ne'
    · exact_mod_cast Nat.lt_log2_self
  obtain ⟨hnlow, hnhigh⟩ := hbetween hn
  obtain ⟨hdlow, hdhigh⟩ := hbetween hd
  have hnear : ∀ k : ℤ, Text.twoTo k.toNat * d ≤ n * Text.twoTo (-k).toNat ↔
      k ≤ Int.log 2 (n / d : ℚ) := by
    intro k
    rw [← Int.zpow_le_iff_le_log one_lt_two hquotient, Nat.cast_ofNat, ← twoTo_div_twoTo,
      div_le_div_iff₀ (twoTo_pos _) hd']
    exact_mod_cast Iff.rfl
  have hlower : (n.log2 : ℤ) - d.log2 - 1 ≤ Int.log 2 (n / d : ℚ) := by
    rw [← Int.zpow_le_iff_le_log one_lt_two hquotient, Nat.cast_ofNat, sub_sub,
      zpow_sub₀ two_ne_zero]
    exact div_le_div₀ (Nat.cast_nonneg n) hnlow hd' hdhigh.le
  have hupper : Int.log 2 (n / d : ℚ) < (n.log2 : ℤ) - d.log2 + 1 := by
    rw [← Int.lt_zpow_iff_log_lt one_lt_two hquotient, Nat.cast_ofNat, sub_add_eq_add_sub,
      zpow_sub₀ two_ne_zero]
    exact div_lt_div₀ hnhigh hdlow (zpow_nonneg zero_le_two _) (zpow_pos two_pos _)
  simp only [quotientLog, mul_comm d, hnear]
  split <;> omega

/-- What a rounded number is worth, if it is finite. -/
def Rounded.value? : Rounded → Option ℚ
  | finite mantissa exponent => some (mantissa * 2 ^ exponent)
  | infinite => none

theorem Rounded.isFinite_iff {r : Rounded} : r.isFinite = true ↔ ∃ x, r.value? = some x := by
  cases r <;> simp [isFinite, value?]

/-- A multiple of a power of two is below another power of two. -/
theorem mul_zpow_lt_iff {mantissa : ℕ} {exponent top : ℤ} :
    (mantissa * 2 ^ exponent : ℚ) < 2 ^ top ↔ mantissa < Text.twoTo (top - exponent).toNat := by
  have hpos : (0 : ℚ) < 2 ^ exponent := zpow_pos two_pos _
  rw [← lt_div_iff₀ hpos, ← zpow_sub₀ two_ne_zero]
  rcases le_or_gt exponent top with hle | hlt
  · obtain ⟨k, hk⟩ := Int.eq_ofNat_of_zero_le (Int.sub_nonneg_of_le hle)
    rw [hk, zpow_natCast, Int.toNat_natCast, ← cast_twoTo, Nat.cast_lt]
  · have hone : (2 : ℚ) ^ (top - exponent) < 1 := zpow_lt_one_of_neg₀ one_lt_two (by omega)
    have hzero : (top - exponent).toNat = 0 := Int.toNat_of_nonpos (by omega)
    rw [hzero]
    change _ ↔ mantissa < 1
    rw [Nat.lt_one_iff]
    constructor
    · intro h
      exact Nat.lt_one_iff.mp (by exact_mod_cast h.trans hone)
    · rintro rfl
      rw [Nat.cast_zero]
      exact zpow_pos two_pos _

/-- Rounding a quotient gives the nearest value, or infinity if that is too large. -/
theorem FloatFormat.value?_round (f : FloatFormat) (hd : 0 < d) :
    (f.round n d).value? =
      if f.nearest (n / d) < 2 ^ f.top then some (f.nearest (n / d)) else none := by
  have hvalue : f.nearest (n / d) = nearestQuotient (n * Text.twoTo (-(f.unit n d)).toNat)
      (d * Text.twoTo (f.unit n d).toNat) * 2 ^ f.unit n d := by
    have hpos : 0 < d * Text.twoTo (f.unit n d).toNat :=
      Nat.mul_pos hd (Nat.cast_pos.mp (twoTo_pos _))
    rcases Nat.eq_zero_or_pos n with rfl | hn
    · have hzero : nearestQuotient 0 (d * Text.twoTo (f.unit 0 d).toNat) = 0 := by
        simp [nearestQuotient, hpos]
      rw [Nat.zero_mul, hzero]
      simp [nearest, nearestInt]
    · have hspacing : f.spacing (n / d) = f.unit n d := by
        rw [spacing, unit, quotientLog_eq hn hd]
      have hscaled : ((n * Text.twoTo (-(f.unit n d)).toNat : ℕ) /
          (d * Text.twoTo (f.unit n d).toNat : ℕ) : ℚ) = n / d / 2 ^ f.unit n d := by
        rw [← twoTo_div_twoTo, div_div_eq_mul_div, div_mul_eq_mul_div, div_div]
        push_cast
        rfl
      rw [nearest, hspacing, ← hscaled, ← nearestQuotient_eq hpos, Int.cast_natCast]
  simp only [round, hvalue, mul_zpow_lt_iff]
  split <;> rfl

end

end Wattle
