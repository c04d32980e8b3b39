import Mathlib.Algebra.Order.Field.Power
import Mathlib.Data.Rat.Defs
import Mathlib.Tactic.FieldSimp
import Mathlib.Tactic.Linarith
import Mathlib.Tactic.NormNum
import Mathlib.Tactic.Positivity
import Mathlib.Tactic.Ring
import Manifest.Number.Shortest

/-!
# Decimals that read back

A decimal reads back to a number if it lies in the interval of the rationals that round to it
(`Number.ReadsBack`).  The intervals of two magnitudes have no decimal in common
(`ReadsBack.unique`): they meet in an end at most, and then one of the two mantissas is odd, so that
the end does not belong to its interval.

The digits that are written for a number read back to it (`readsBack_shortest`), so they determine
its magnitude.
-/

namespace Manifest.Number

/-! ### Exact values -/

/-- The magnitude of a finite number. -/
def magnitude (x : Number) : ℚ := x.mantissa * 2 ^ x.scale

/-- The value of `c · 10 ^ t`. -/
def decimalValue (c : Nat) (t : Int) : ℚ := c * 10 ^ t

theorem pow_toNat_eq {b : ℚ} (hb : b ≠ 0) (n : Int) : b ^ n.toNat = b ^ n * b ^ (-n).toNat := by
  have h : (n.toNat : Int) = n + ((-n).toNat : Int) := by omega
  rw [← zpow_natCast b n.toNat, h, zpow_add₀ hb, zpow_natCast]

theorem tenTo_eq (t : Int) : (tenTo t : ℚ) = 10 ^ t * tenTo (-t) := by
  simp only [tenTo, Nat.pow_eq, Nat.cast_pow, Nat.cast_ofNat]
  exact pow_toNat_eq (by norm_num) t

theorem twoTo_eq (p : Int) : (twoTo p : ℚ) = 2 ^ p * twoTo (-p) := by
  simp only [twoTo, Nat.pow_eq, Nat.cast_pow, Nat.cast_ofNat]
  exact pow_toNat_eq (by norm_num) p

theorem tenTo_pos (t : Int) : (0 : ℚ) < tenTo t := by
  simp only [tenTo, Nat.pow_eq]
  positivity

theorem twoTo_pos (p : Int) : (0 : ℚ) < twoTo p := by
  simp only [twoTo, Nat.pow_eq]
  positivity

/-- **Cross-multiplication compares the exact values**: both sides carry one positive factor. -/
theorem compareDecimal_eq (c : Nat) (t : Int) (a : Nat) (p : Int) :
    compareDecimal c t a p = compare (decimalValue c t) ((a : ℚ) * 2 ^ p) := by
  have hk : (0 : ℚ) < tenTo (-t) * twoTo (-p) := mul_pos (tenTo_pos _) (twoTo_pos _)
  have hl : ((c * tenTo t * twoTo (-p) : Nat) : ℚ) =
      decimalValue c t * (tenTo (-t) * twoTo (-p)) := by
    rw [decimalValue]
    push_cast
    rw [tenTo_eq t]
    ring
  have hr : ((a * twoTo p * tenTo (-t) : Nat) : ℚ) = a * 2 ^ p * (tenTo (-t) * twoTo (-p)) := by
    push_cast
    rw [twoTo_eq p]
    ring
  calc compareDecimal c t a p
      = cmp (c * tenTo t * twoTo (-p)) (a * twoTo p * tenTo (-t)) := (cmp_eq_compare _ _).symm
    _ = cmp ((c * tenTo t * twoTo (-p) : Nat) : ℚ) ((a * twoTo p * tenTo (-t) : Nat) : ℚ) :=
        (Nat.strictMono_cast.cmp_map_eq _ _).symm
    _ = cmp (decimalValue c t) ((a : ℚ) * 2 ^ p) := by rw [hl, hr, cmp_mul_pos_right hk]
    _ = _ := cmp_eq_compare _ _

/-! ### The interval of a number -/

/-- The lower end of the interval, in quarters of the unit of the mantissa: half-way to the next
number below, which is nearer if the mantissa is the least of its scale. -/
def low (x : Number) : Nat :=
  if x.fractionBits = 0 ∧ 1 < x.exponentBits then 4 * x.mantissa - 1 else 4 * x.mantissa - 2

/-- The upper end of the interval, in quarters of the unit of the mantissa. -/
def high (x : Number) : Nat := 4 * x.mantissa + 2

/-- A rational lies in the interval of a number.  The ends belong to it if the mantissa is even. -/
structure ReadsBack (x : Number) (d : ℚ) : Prop where
  above : x.low * 2 ^ (x.scale - 2) < d ∨
    (x.mantissa % 2 = 0 ∧ (x.low : ℚ) * 2 ^ (x.scale - 2) = d)
  below : d < x.high * 2 ^ (x.scale - 2) ∨
    (x.mantissa % 2 = 0 ∧ (x.high : ℚ) * 2 ^ (x.scale - 2) = d)

theorem readsBack_iff (x : Number) (c : Nat) (t : Int) :
    x.readsBack c t = true ↔ x.ReadsBack (decimalValue c t) := by
  have hlow : (if x.fractionBits = 0 && 1 < x.exponentBits then 4 * x.mantissa - 1
      else 4 * x.mantissa - 2) = x.low := by
    simp [low]
  have hsplit : x.readsBack c t = true ↔
      (compareDecimal c t x.low (x.scale - 2) = .gt ∨
        (x.mantissa % 2 = 0 ∧ compareDecimal c t x.low (x.scale - 2) = .eq)) ∧
      (compareDecimal c t x.high (x.scale - 2) = .lt ∨
        (x.mantissa % 2 = 0 ∧ compareDecimal c t x.high (x.scale - 2) = .eq)) := by
    rw [← hlow, high]
    simp [readsBack]
  simp only [hsplit, compareDecimal_eq, compare_gt_iff_gt, compare_lt_iff_lt, compare_eq_iff_eq,
    eq_comm (a := decimalValue c t)]
  exact ⟨fun h => ⟨h.1, h.2⟩, fun h => ⟨h.above, h.below⟩⟩

theorem readsBack_magnitude {x : Number} (hm : 0 < x.mantissa) : x.ReadsBack x.magnitude := by
  have hu : (0 : ℚ) < 2 ^ (x.scale - 2) := by positivity
  have hmag : x.magnitude = ((4 * x.mantissa : Nat) : ℚ) * 2 ^ (x.scale - 2) := by
    rw [magnitude, zpow_sub₀ (by norm_num)]
    push_cast
    ring
  have hlow : x.low < 4 * x.mantissa := by
    unfold low
    split <;> omega
  have hhigh : 4 * x.mantissa < x.high := by
    unfold high
    omega
  rw [hmag]
  exact ⟨Or.inl (mul_lt_mul_of_pos_right (Nat.cast_lt.mpr hlow) hu),
    Or.inl (mul_lt_mul_of_pos_right (Nat.cast_lt.mpr hhigh) hu)⟩

/-! ### Intervals are apart -/

theorem fractionBits_lt (x : Number) : x.fractionBits < 0x10000000000000 :=
  Nat.mod_lt _ (by decide)

theorem mantissa_lt (x : Number) : x.mantissa < 0x20000000000000 := by
  have hf := x.fractionBits_lt
  unfold mantissa
  split <;> omega

/-- The lower end lies one or two quarters below the mantissa; one only above a power of two. -/
theorem low_cases (x : Number) :
    x.low = 4 * x.mantissa - 2 ∨ x.low = 4 * x.mantissa - 1 := by
  unfold low
  split
  · exact Or.inr rfl
  · exact Or.inl rfl

theorem le_low_of_lt_scale {x : Number} (h : -1074 < x.scale) : 0x3fffffffffffff ≤ x.low := by
  have he : 1 < x.exponentBits := by
    unfold scale at h
    omega
  have hm : x.mantissa = x.fractionBits + 0x10000000000000 := by
    rw [mantissa, if_neg (by omega)]
  unfold low
  split
  · omega
  · omega

theorem ReadsBack.pos {x : Number} {d : ℚ} (h : x.ReadsBack d) (hm : 0 < x.mantissa) : 0 < d := by
  have hlow : (0 : ℚ) < x.low * 2 ^ (x.scale - 2) := by
    have hcases := x.low_cases
    have hpos : 0 < x.low := by omega
    positivity
  rcases h.above with hlt | ⟨-, heq⟩
  · exact hlow.trans hlt
  · rwa [heq] at hlow

section Apart
variable {x y : Number} {d : ℚ} (hx : x.ReadsBack d) (hy : y.ReadsBack d)
include hx hy

/-- Two intervals with a common rational overlap, or they meet in an end that belongs to both. -/
theorem ReadsBack.low_le_high (hs : x.scale ≤ y.scale) :
    y.low * 2 ^ (y.scale - x.scale).toNat < x.high ∨
      (x.mantissa % 2 = 0 ∧ y.mantissa % 2 = 0 ∧
        y.low * 2 ^ (y.scale - x.scale).toNat = x.high) := by
  have hu : (0 : ℚ) < 2 ^ (x.scale - 2) := by positivity
  have hscale : (2 : ℚ) ^ (y.scale - 2) =
      ((2 ^ (y.scale - x.scale).toNat : Nat) : ℚ) * 2 ^ (x.scale - 2) := by
    have h : y.scale - 2 = ((y.scale - x.scale).toNat : Int) + (x.scale - 2) := by omega
    rw [h, zpow_add₀ (by norm_num), zpow_natCast]
    push_cast
    rfl
  have hends : (y.low : ℚ) * 2 ^ (y.scale - 2) < x.high * 2 ^ (x.scale - 2) ∨
      (x.mantissa % 2 = 0 ∧ y.mantissa % 2 = 0 ∧
        (y.low : ℚ) * 2 ^ (y.scale - 2) = x.high * 2 ^ (x.scale - 2)) := by
    rcases hy.above with hlt | ⟨hye, heq⟩
    · rcases hx.below with hlt' | ⟨-, heq'⟩
      · exact Or.inl (hlt.trans hlt')
      · exact Or.inl (heq' ▸ hlt)
    · rcases hx.below with hlt' | ⟨hxe, heq'⟩
      · exact Or.inl (heq ▸ hlt')
      · exact Or.inr ⟨hxe, hye, heq.trans heq'.symm⟩
  rw [hscale, ← mul_assoc, ← Nat.cast_mul] at hends
  rcases hends with hlt | ⟨hxe, hye, heq⟩
  · exact Or.inl (Nat.cast_lt.mp (lt_of_mul_lt_mul_right hlt hu.le))
  · exact Or.inr ⟨hxe, hye, Nat.cast_inj.mp (mul_right_cancel₀ hu.ne' heq)⟩

/-- The number with the higher scale has no decimal in common with the other. -/
theorem ReadsBack.scale_le : y.scale ≤ x.scale := by
  by_contra hlt
  rw [not_le] at hlt
  have hends := hx.low_le_high hy hlt.le
  have hlow : 0x3fffffffffffff ≤ y.low := by
    refine le_low_of_lt_scale (lt_of_le_of_lt ?_ hlt)
    unfold scale
    omega
  have hm := x.mantissa_lt
  have htwo : y.low * 2 ≤ y.low * 2 ^ (y.scale - x.scale).toNat := by
    refine Nat.mul_le_mul_left _ ?_
    calc 2 = 2 ^ 1 := rfl
      _ ≤ 2 ^ (y.scale - x.scale).toNat := Nat.pow_le_pow_right (by decide) (by omega)
  -- The ends meet if `x` has the greatest mantissa of its scale, which is odd.
  unfold high at hends
  omega

/-- Of two numbers of one scale the one with the higher mantissa has no decimal in common with the
other. -/
theorem ReadsBack.mantissa_le (hs : x.scale = y.scale) : y.mantissa ≤ x.mantissa := by
  by_contra hlt
  have hends := hx.low_le_high hy hs.le
  have hone : (2 : Nat) ^ (y.scale - x.scale).toNat = 1 := by
    rw [hs]
    simp
  have hlow := y.low_cases
  rw [hone, Nat.mul_one] at hends
  unfold high at hends
  omega

/-- **A decimal reads back to one magnitude only.** -/
theorem ReadsBack.unique : x.scale = y.scale ∧ x.mantissa = y.mantissa := by
  have hs : x.scale = y.scale := le_antisymm (hy.scale_le hx) (hx.scale_le hy)
  exact ⟨hs, le_antisymm (hy.mantissa_le hx hs.symm) (hx.mantissa_le hy hs)⟩

end Apart

theorem eq_of_parts {x y : Number} (hn : x.negative = y.negative) (hs : x.scale = y.scale)
    (hm : x.mantissa = y.mantissa) : x = y := by
  have hfx := x.fractionBits_lt
  have hfy := y.fractionBits_lt
  have hparts : x.exponentBits = y.exponentBits ∧ x.fractionBits = y.fractionBits := by
    unfold scale at hs
    unfold mantissa at hm
    split at hm <;> split at hm <;> omega
  have hbits : x.bits.toNat = y.bits.toNat := by
    have hx : x.bits.toNat < 2 ^ 64 := x.bits.toNat_lt
    have hy : y.bits.toNat < 2 ^ 64 := y.bits.toNat_lt
    simp only [negative, decide_eq_decide, exponentBits, fractionBits] at hn hparts
    omega
  cases x
  cases y
  exact congrArg Number.mk (UInt64.toNat_inj.mp hbits)

/-! ### The shortest digits -/

theorem onGrid?_of_searchGrids {x : Number} {order : Int} {digits more c : Nat} {t : Int}
    (h : x.searchGrids order digits more = some (c, t)) : x.onGrid? t = some c := by
  induction more generalizing digits with
  | zero => cases h
  | succ more ih =>
    rw [searchGrids] at h
    cases hg : x.onGrid? (order - digits) with
    | none =>
      rw [hg] at h
      exact ih h
    | some c' =>
      rw [hg] at h
      cases h
      exact hg

theorem onGrid?_eq_some {x : Number} {c : Nat} {t : Int} (h : x.onGrid? t = some c) :
    x.readsBack c t = true ∧
      x.numerator * tenTo (-t) / (x.denominator * tenTo t) ≤ c := by
  simp only [onGrid?] at h
  generalize x.numerator * tenTo (-t) / (x.denominator * tenTo t) = q at h ⊢
  cases hq : x.readsBack q t with
  | true =>
    cases hn : x.readsBack (q + 1) t with
    | true =>
      simp only [hq, hn] at h
      split at h
      · cases h
        exact ⟨hq, le_rfl⟩
      · cases h
        exact ⟨hn, Nat.le_succ q⟩
      · split at h <;> cases h
        · exact ⟨hq, le_rfl⟩
        · exact ⟨hn, Nat.le_succ q⟩
    | false =>
      simp only [hq, hn, Option.some.injEq] at h
      subst h
      exact ⟨hq, le_rfl⟩
  | false =>
    cases hn : x.readsBack (q + 1) t with
    | true =>
      simp only [hq, hn, Option.some.injEq] at h
      subst h
      exact ⟨hn, Nat.le_succ q⟩
    | false => simp [hq, hn] at h

theorem numerator_eq (x : Number) : (x.numerator : ℚ) = x.magnitude * x.denominator := by
  rw [numerator, denominator, magnitude, Nat.cast_mul, twoTo_eq x.scale]
  ring

theorem magnitude_lt (x : Number) (t : Int) :
    x.magnitude <
      decimalValue (x.numerator * tenTo (-t) / (x.denominator * tenTo t) + 1) t := by
  have hden : (0 : ℚ) < x.denominator := twoTo_pos _
  have hpos : 0 < x.denominator * tenTo t := by
    rw [← Nat.cast_pos (α := ℚ)]
    push_cast
    exact mul_pos hden (tenTo_pos t)
  have hlt := Nat.lt_mul_div_succ (x.numerator * tenTo (-t)) hpos
  rw [← Nat.cast_lt (α := ℚ)] at hlt
  push_cast at hlt
  rw [numerator_eq, tenTo_eq t] at hlt
  rw [decimalValue]
  push_cast
  have hk : (0 : ℚ) < x.denominator * tenTo (-t) := mul_pos hden (tenTo_pos _)
  refine lt_of_mul_lt_mul_right ?_ hk.le
  calc x.magnitude * (x.denominator * tenTo (-t))
      = x.magnitude * x.denominator * tenTo (-t) := by ring
    _ < _ := hlt
    _ = _ := by ring

theorem exact_eq (x : Number) :
    decimalValue (x.numerator * Nat.pow 5 (-x.scale).toNat) (-((-x.scale).toNat : Int)) =
      x.magnitude := by
  have hden : (x.denominator : ℚ) = 2 ^ (-x.scale).toNat := by
    simp [denominator, twoTo]
  have hten : (10 : ℚ) ^ (-x.scale).toNat = 5 ^ (-x.scale).toNat * 2 ^ (-x.scale).toNat := by
    rw [← mul_pow]
    norm_num
  rw [decimalValue, Nat.cast_mul, numerator_eq, hden, zpow_neg, zpow_natCast, hten]
  simp only [Nat.pow_eq, Nat.cast_pow, Nat.cast_ofNat]
  field_simp

/-- The value of the digits that are written. -/
def shortestValue (x : Number) : ℚ := decimalValue x.shortestDigits.1 x.shortestDigits.2

/-- **The digits that are written read back**, and one more of the last place is beyond the
number. -/
theorem readsBack_shortest {x : Number} (hm : 0 < x.mantissa) :
    x.ReadsBack x.shortestValue ∧
      x.magnitude < decimalValue (x.shortestDigits.1 + 1) x.shortestDigits.2 := by
  rw [shortestValue]
  cases hs : x.searchGrids x.decimalOrder 1 17 with
  | some found =>
    obtain ⟨c, t⟩ := found
    have hd : x.shortestDigits = (c, t) := by rw [shortestDigits, hs, Option.getD_some]
    obtain ⟨hr, hle⟩ := onGrid?_eq_some (onGrid?_of_searchGrids hs)
    rw [hd]
    refine ⟨(readsBack_iff x c t).mp hr, lt_of_lt_of_le (x.magnitude_lt t) ?_⟩
    exact mul_le_mul_of_nonneg_right (Nat.cast_le.mpr (Nat.succ_le_succ hle)) (by positivity)
  | none =>
    have hd : x.shortestDigits =
        (x.numerator * Nat.pow 5 (-x.scale).toNat, -((-x.scale).toNat : Int)) := by
      rw [shortestDigits, hs, Option.getD_none]
    rw [hd, exact_eq]
    refine ⟨readsBack_magnitude hm, ?_⟩
    conv_lhs => rw [← exact_eq]
    exact mul_lt_mul_of_pos_right (Nat.cast_lt.mpr (Nat.lt_succ_self _)) (by positivity)

/-- **The written digits determine a number** up to its sign. -/
theorem eq_of_shortestValue {x y : Number} (hx : 0 < x.mantissa) (hy : 0 < y.mantissa)
    (hn : x.negative = y.negative) (hv : x.shortestValue = y.shortestValue) : x = y := by
  have hrx := (readsBack_shortest hx).1
  have hry := (readsBack_shortest hy).1
  rw [← hv] at hry
  obtain ⟨hs, hm⟩ := hrx.unique hry
  exact eq_of_parts hn hs hm

end Manifest.Number
