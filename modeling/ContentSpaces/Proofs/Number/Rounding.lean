import ContentSpaces.Number.Shortest
import Mathlib.Algebra.Order.Field.Rat
import Mathlib.Tactic.FieldSimp
import Mathlib.Tactic.Linarith
import Mathlib.Tactic.Positivity
import Mathlib.Tactic.Ring

/-!
# Which reals round to a double

The reals that round to a magnitude make an interval (`Double.Covers`), and the intervals of two
doubles have nothing in common. The shortest decimal lies in the interval of its double, because the
grid of seventeen digits, which is tried last, is finer than the intervals are wide.
-/

namespace ContentSpaces

namespace Double

variable {x y : Double} {q : ℚ}

structure WellFormed (x : Double) : Prop where
  significand_lt : x.significand < 2 ^ 53
  normal : 0 < x.scale → 2 ^ 52 ≤ x.significand

/-- A quarter of the distance from the magnitude to the next one. -/
def quarter (x : Double) : ℚ := 2 ^ x.scale / 2 ^ 1076

/-- The lower end of the reals that round to the magnitude, in quarters. Below a power of two the
doubles lie closer. -/
def low (x : Double) : Nat :=
  if x.significand = 2 ^ 52 ∧ 0 < x.scale then 4 * x.significand - 1 else 4 * x.significand - 2

def high (x : Double) : Nat := 4 * x.significand + 2

/-- The reals that round to the magnitude, the ends among them if the significand is even. -/
def Covers (x : Double) (q : ℚ) : Prop :=
  if x.significand % 2 = 0 then x.low * x.quarter ≤ q ∧ q ≤ x.high * x.quarter
  else x.low * x.quarter < q ∧ q < x.high * x.quarter

theorem quarter_pos (x : Double) : 0 < x.quarter := by
  unfold quarter
  positivity

theorem Covers.low_le (h : x.Covers q) : x.low * x.quarter ≤ q := by
  unfold Covers at h
  split at h
  · exact h.1
  · exact h.1.le

theorem Covers.le_high (h : x.Covers q) : q ≤ x.high * x.quarter := by
  unfold Covers at h
  split at h
  · exact h.2
  · exact h.2.le

theorem covers_zero (h : x.significand = 0) : x.Covers 0 := by
  have hquarter := x.quarter_pos
  rw [Covers, if_pos (by rw [h]), low, high, h]
  constructor
  · simp
  · simp only [Nat.mul_zero, Nat.zero_add]
    positivity

/-- Of two magnitudes the smaller one ends where the greater begins or before, and a common end
belongs to at most one of them. -/
theorem high_le_low (hx : x.WellFormed) (hy : y.WellFormed)
    (h : x.scale < y.scale ∨ x.scale = y.scale ∧ x.significand < y.significand) :
    x.high * 2 ^ x.scale ≤ y.low * 2 ^ y.scale ∧
      (x.high * 2 ^ x.scale = y.low * 2 ^ y.scale →
        x.significand % 2 ≠ 0 ∨ y.significand % 2 ≠ 0) := by
  have hpositive : 0 < 2 ^ x.scale := Nat.two_pow_pos _
  obtain hscale | ⟨hscale, hsignificand⟩ := h
  · have hbelow := hx.significand_lt
    have hnormal := hy.normal (by omega)
    have hhigh : x.high ≤ 2 ^ 55 - 2 := by
      unfold high
      omega
    have hlow : 2 ^ 54 - 1 ≤ y.low := by
      unfold low
      split <;> omega
    have hpow : 2 * 2 ^ x.scale ≤ 2 ^ y.scale := by
      rw [← Nat.pow_succ']
      exact Nat.pow_le_pow_right (by decide) hscale
    have hleft := Nat.mul_le_mul_right (2 ^ x.scale) hhigh
    have hright := Nat.mul_le_mul hlow hpow
    refine ⟨by omega, fun heq => .inl ?_⟩
    -- Only the greatest significand comes this close to the next scale, and it is odd.
    have hgreatest : 2 ^ 55 - 2 ≤ x.high := Nat.le_of_mul_le_mul_right (by omega) hpositive
    unfold high at hgreatest
    omega
  · have hends : x.high ≤ y.low := by
      unfold high low
      split <;> omega
    rw [← hscale]
    refine ⟨Nat.mul_le_mul_right _ hends, fun heq => ?_⟩
    have hmeet : x.high = y.low := Nat.eq_of_mul_eq_mul_right hpositive heq
    unfold high low at hmeet
    split at hmeet <;> omega

theorem mul_quarter_le_iff {a b : Nat} :
    a * x.quarter ≤ b * y.quarter ↔ a * 2 ^ x.scale ≤ b * 2 ^ y.scale := by
  unfold quarter
  rw [← mul_div_assoc, ← mul_div_assoc, div_le_div_iff_of_pos_right (by positivity)]
  exact_mod_cast Iff.rfl

theorem not_covers_of_lt (hx : x.WellFormed) (hy : y.WellFormed)
    (h : x.scale < y.scale ∨ x.scale = y.scale ∧ x.significand < y.significand)
    (hcovers : x.Covers q) : ¬ y.Covers q := by
  intro hcovers'
  obtain ⟨hle, hmeet⟩ := high_le_low hx hy h
  have hends : x.high * x.quarter ≤ y.low * y.quarter := mul_quarter_le_iff.mpr hle
  have hcommon : y.low * y.quarter ≤ x.high * x.quarter := hcovers'.low_le.trans hcovers.le_high
  obtain hodd | hodd := hmeet (Nat.le_antisymm hle (mul_quarter_le_iff.mp hcommon))
  · rw [Covers, if_neg hodd] at hcovers
    exact absurd (hcovers.2.trans_le hends) hcovers'.low_le.not_gt
  · rw [Covers, if_neg hodd] at hcovers'
    exact absurd (hends.trans_lt hcovers'.1) hcovers.le_high.not_gt

/-- A real rounds to one magnitude only. -/
theorem Covers.unique (hx : x.WellFormed) (hy : y.WellFormed) (hcovers : x.Covers q)
    (hcovers' : y.Covers q) : x.significand = y.significand ∧ x.scale = y.scale := by
  by_contra hne
  have hapart : (x.scale < y.scale ∨ x.scale = y.scale ∧ x.significand < y.significand) ∨
      y.scale < x.scale ∨ y.scale = x.scale ∧ y.significand < x.significand := by
    omega
  obtain h | h := hapart
  · exact not_covers_of_lt hx hy h hcovers hcovers'
  · exact not_covers_of_lt hy hx h hcovers' hcovers

/-! ## Grids -/

/-- The decimals of a grid and the ends of the interval as whole numbers, as `onGrid` compares
them. -/
def gridStep (k : Int) : Nat := Nat.pow 10 k.toNat * Nat.pow 2 1076

def gridQuarter (x : Double) (k : Int) : Nat := Nat.pow 10 (-k).toNat * Nat.pow 2 x.scale

theorem gridStep_eq {d : Nat} (hd : d = 1076) (k : Int) : gridStep k = 10 ^ k.toNat * 2 ^ d := by
  unfold gridStep
  rw [← hd]
  rfl

theorem gridStep_pos (k : Int) : 0 < gridStep k := by
  unfold gridStep
  simp only [Nat.pow_eq, -Nat.reducePow]
  positivity

theorem gridQuarter_pos (x : Double) (k : Int) : 0 < x.gridQuarter k := by
  unfold gridQuarter
  simp only [Nat.pow_eq]
  positivity

theorem cast_grid (x : Double) (k : Int) : ∃ widening : ℚ, 0 < widening ∧
    (gridStep k : ℚ) = 10 ^ k * widening ∧ (x.gridQuarter k : ℚ) = x.quarter * widening := by
  refine ⟨10 ^ (-k).toNat * 2 ^ 1076, by positivity, ?_, ?_⟩
  · have hten : (10 : ℚ) ^ k.toNat = 10 ^ k * 10 ^ (-k).toNat := by
      rw [← zpow_natCast, ← zpow_natCast, ← zpow_add₀ (by norm_num)]
      congr 1
      omega
    unfold gridStep
    simp only [Nat.pow_eq, Nat.cast_mul, Nat.cast_pow, Nat.cast_ofNat]
    rw [← mul_assoc, ← hten]
  · unfold gridQuarter quarter
    simp only [Nat.pow_eq, Nat.cast_mul, Nat.cast_pow, Nat.cast_ofNat]
    field_simp

/-- Whether a decimal of a grid rounds to the magnitude is decided in whole numbers. -/
theorem covers_grid_iff (x : Double) (c : Nat) (k : Int) : x.Covers (c * 10 ^ k) ↔
    if x.significand % 2 = 0 then
      x.low * x.gridQuarter k ≤ c * gridStep k ∧ c * gridStep k ≤ x.high * x.gridQuarter k
    else x.low * x.gridQuarter k < c * gridStep k ∧ c * gridStep k < x.high * x.gridQuarter k := by
  obtain ⟨widening, hpositive, hstep, hquarter⟩ := cast_grid x k
  have hlow (a : Nat) : a * x.quarter ≤ c * 10 ^ k ↔ a * x.gridQuarter k ≤ c * gridStep k := by
    rw [← Nat.cast_le (α := ℚ), Nat.cast_mul, Nat.cast_mul, hstep, hquarter, ← mul_assoc,
      ← mul_assoc, mul_le_mul_iff_of_pos_right hpositive]
  have hhigh (a : Nat) : c * 10 ^ k ≤ a * x.quarter ↔ c * gridStep k ≤ a * x.gridQuarter k := by
    rw [← Nat.cast_le (α := ℚ), Nat.cast_mul, Nat.cast_mul, hstep, hquarter, ← mul_assoc,
      ← mul_assoc, mul_le_mul_iff_of_pos_right hpositive]
  unfold Covers
  simp only [← not_le, hlow, hhigh]

/-- The neighbours of the magnitude on a grid are found if they round to it, and nothing else is. -/
theorem onGrid_spec (x : Double) (k : Int) :
    (∀ d, x.onGrid k = some d → x.Covers (d.digits * 10 ^ d.exponent)) ∧
      (x.onGrid k = none → ∀ c, c = 4 * x.significand * x.gridQuarter k / gridStep k ∨
        c = 4 * x.significand * x.gridQuarter k / gridStep k + 1 → ¬ x.Covers (c * 10 ^ k)) := by
  unfold onGrid
  extract_lets m step unit value low high inside below above down up nearerBelow
  have hinside (c : Nat) : inside c = true ↔ x.Covers (c * 10 ^ k) := by
    have hlow : low = x.low * x.gridQuarter k := by
      refine congrArg (· * x.gridQuarter k) (if_congr ?_ rfl rfl)
      simp [m, Nat.pos_iff_ne_zero]
    have hhigh : high = x.high * x.gridQuarter k := rfl
    have hstep : step = gridStep k := rfl
    have hunfolded : inside c = if x.significand % 2 == 0 then
        decide (low ≤ c * step) && decide (c * step ≤ high)
      else decide (low < c * step) && decide (c * step < high) := rfl
    rw [covers_grid_iff, hunfolded, hlow, hhigh, hstep]
    by_cases heven : x.significand % 2 = 0 <;> simp [heven]
  constructor
  · intro d hd
    split at hd
    · rename_i hbelow
      cases hd
      exact (hinside below).mp (Bool.and_eq_true_iff.mp hbelow).1
    · split at hd
      · rename_i habove
        cases hd
        exact (hinside above).mp habove
      · cases hd
  · intro hnone
    split at hnone
    · cases hnone
    · rename_i hbelow
      split at hnone
      · cases hnone
      · rename_i habove
        rintro c (rfl | rfl) hcovers
        · have hfound : inside below = true := (hinside below).mpr hcovers
          simp [hfound, habove] at hbelow
        · exact habove ((hinside above).mpr hcovers)

theorem covers_grid_of_lt {c : Nat} {k : Int} (hlow : x.low * x.gridQuarter k < c * gridStep k)
    (hhigh : c * gridStep k < x.high * x.gridQuarter k) : x.Covers (c * 10 ^ k) := by
  rw [covers_grid_iff]
  split
  · exact ⟨hlow.le, hhigh.le⟩
  · exact ⟨hlow, hhigh⟩

/-- Of the two neighbours of a value one is at most half a step away. -/
theorem exists_neighbour (value : Nat) {step : Nat} (hstep : 0 < step) :
    ∃ c, (c = value / step ∨ c = value / step + 1) ∧ 2 * value ≤ 2 * (c * step) + step ∧
      2 * (c * step) ≤ 2 * value + step := by
  have hsplit := Nat.div_add_mod' value step
  have hrest := Nat.mod_lt value hstep
  by_cases hnearer : 2 * (value % step) ≤ step
  · exact ⟨_, .inl rfl, by omega, by omega⟩
  · have hnext := Nat.add_one_mul (value / step) step
    exact ⟨_, .inr rfl, by omega, by omega⟩

/-- The lower end is a quarter below the magnitude or more, and two quarters unless the magnitude
is a power of two. -/
theorem low_add_le (hpositive : 0 < x.significand) (u : Nat) :
    x.low * u + u ≤ 4 * (x.significand * u) ∧
      (x.significand ≠ 2 ^ 52 → x.low * u + 2 * u ≤ 4 * (x.significand * u)) := by
  rw [← Nat.add_one_mul, ← Nat.add_mul, ← Nat.mul_assoc]
  unfold low
  constructor
  · refine Nat.mul_le_mul_right _ ?_
    split <;> omega
  · intro hne
    refine Nat.mul_le_mul_right _ ?_
    rw [if_neg fun h => hne h.1]
    omega

/-- On a grid finer than the `10 ^ 16`-th part of the magnitude a neighbour rounds to it: it is less
than two quarters away, and less than one if the magnitude is a power of two. -/
theorem exists_onGrid (hx : x.WellFormed) (hpositive : 0 < x.significand) {k : Int}
    (hfine : gridStep k * 10 ^ 16 ≤ 4 * x.significand * x.gridQuarter k) :
    ∃ d, x.onGrid k = some d := by
  cases hgrid : x.onGrid k with
  | some d => exact ⟨d, rfl⟩
  | none =>
    exfalso
    obtain ⟨c, hneighbour, hbelow, habove⟩ :=
      exists_neighbour (4 * x.significand * x.gridQuarter k) (gridStep_pos k)
    refine (onGrid_spec x k).2 hgrid c hneighbour ?_
    have hquarter := x.gridQuarter_pos k
    have hlow := low_add_le hpositive (x.gridQuarter k)
    have hhigh : x.high * x.gridQuarter k =
        4 * x.significand * x.gridQuarter k + 2 * x.gridQuarter k := Nat.add_mul ..
    have hmost := Nat.mul_le_mul_right (x.gridQuarter k) (Nat.le_sub_one_of_lt hx.significand_lt)
    rw [Nat.mul_assoc] at hfine hbelow habove hhigh
    by_cases hpower : x.significand = 2 ^ 52
    · rw [hpower] at hfine hbelow habove hlow hhigh
      exact covers_grid_of_lt (by omega) (by omega)
    · have hlow := hlow.2 hpower
      exact covers_grid_of_lt (by omega) (by omega)

/-! ## The shortest decimal -/

theorem two_pow_le_ten_pow {a b : Nat} (h : a ≤ 3 * b) : 2 ^ a ≤ 10 ^ b :=
  calc 2 ^ a
    _ ≤ 2 ^ (3 * b) := Nat.pow_le_pow_right (by decide) h
    _ = (2 ^ 3) ^ b := Nat.pow_mul 2 3 b
    _ ≤ 10 ^ b := Nat.pow_le_pow_left (by decide) b

theorem ten_pow_le_of_length_toDigits {n count : Nat} (hn : 0 < n)
    (hcount : (Nat.toDigits 10 n).length = count + 1) : 10 ^ count ≤ n := by
  by_contra hlt
  cases count with
  | zero => omega
  | succ count =>
    have hshort : (Nat.toDigits 10 n).length ≤ count + 1 :=
      (Nat.length_toDigits_le_iff (by decide) (Nat.succ_pos count)).mpr (not_le.mp hlt)
    omega

/-- An exponent that is counted on the digits of a scaled magnitude is that of a digit that is not
zero. -/
theorem exists_leading {e : Int} {m a b : Nat}
    (he : e = (Nat.toDigits 10 (m * Nat.pow 10 b / Nat.pow 2 a)).length - 401)
    (hab : a ≤ 3 * b) (hm : 0 < m) :
    ∃ count : Nat, e = count - 400 ∧ 10 ^ count * 2 ^ a ≤ m * 10 ^ b := by
  have hlength := Nat.length_toDigits_pos (b := 10) (n := m * 10 ^ b / 2 ^ a)
  obtain ⟨count, hcount⟩ := Nat.exists_eq_add_of_lt hlength
  rw [Nat.zero_add] at hcount
  have hpositive : 0 < m * 10 ^ b / 2 ^ a :=
    Nat.div_pos ((two_pow_le_ten_pow hab).trans (Nat.le_mul_of_pos_left _ hm)) (Nat.two_pow_pos a)
  refine ⟨count, ?_, ?_⟩
  · simp only [Nat.pow_eq] at he
    omega
  · calc 10 ^ count * 2 ^ a
      _ ≤ m * 10 ^ b / 2 ^ a * 2 ^ a :=
        Nat.mul_le_mul_right _ (ten_pow_le_of_length_toDigits hpositive hcount)
      _ ≤ m * 10 ^ b := Nat.div_mul_le_self _ _

theorem scaled_step_le {m a b c up down count : Nat} (hle : 10 ^ count * 2 ^ a ≤ m * c * 10 ^ b)
    (hexponents : up + 16 + b = down + count) :
    10 ^ up * 2 ^ (a + 2) * 10 ^ 16 ≤ 4 * m * (10 ^ down * c) := by
  have hten : 10 ^ up * 10 ^ 16 * 10 ^ b = 10 ^ down * 10 ^ count := by
    rw [← Nat.pow_add, ← Nat.pow_add, ← Nat.pow_add, hexponents]
  refine Nat.le_of_mul_le_mul_right ?_ (Nat.pow_pos (a := 10) (n := b) (by decide))
  calc 10 ^ up * 2 ^ (a + 2) * 10 ^ 16 * 10 ^ b
    _ = 10 ^ up * 10 ^ 16 * 10 ^ b * (4 * 2 ^ a) := by ring
    _ = 4 * 10 ^ down * (10 ^ count * 2 ^ a) := by rw [hten]; ring
    _ ≤ 4 * 10 ^ down * (m * c * 10 ^ b) := Nat.mul_le_mul_left _ hle
    _ = 4 * m * (10 ^ down * c) * 10 ^ b := by ring

theorem leadingExponent_eq {a : Nat} (ha : a = 1074) (x : Double) :
    x.leadingExponent = (Nat.toDigits 10
      (x.significand * Nat.pow 2 x.scale * Nat.pow 10 400 / Nat.pow 2 a)).length - 401 := by
  unfold leadingExponent
  rw [← ha]

/-- Seventeen digits make a grid that is fine enough. -/
theorem gridStep_le (hpositive : 0 < x.significand) :
    gridStep (x.leadingExponent - 16) * 10 ^ 16 ≤
      4 * x.significand * x.gridQuarter (x.leadingExponent - 16) := by
  -- The power stays a variable: nothing is to compute it.
  obtain ⟨a, ha⟩ : ∃ a, a = 1074 := ⟨_, rfl⟩
  obtain ⟨count, hcount, hle⟩ := exists_leading (leadingExponent_eq ha x) (by omega)
    (Nat.mul_pos hpositive (Nat.two_pow_pos _))
  have hexponents : (x.leadingExponent - 16).toNat + 16 + 400 =
      (-(x.leadingExponent - 16)).toNat + count := by
    clear hle
    omega
  have hfour : a + 2 = 1076 := by omega
  rw [gridStep_eq hfour]
  exact scaled_step_le hle hexponents

/-- The search ends on a grid where it has found a decimal, if there is one among those it tries. -/
theorem onGrid_shortestFrom {leading : Int} {n fuel tried : Nat} (htried : tried < fuel)
    (hfound : ∃ d, x.onGrid (leading + 1 - (n + tried : Nat)) = some d) :
    ∃ k, x.onGrid k = some (x.shortestFrom leading n fuel) := by
  induction fuel generalizing n tried with
  | zero => omega
  | succ fuel ih =>
    rw [shortestFrom]
    cases hgrid : x.onGrid (leading + 1 - n) with
    | some d => exact ⟨_, hgrid⟩
    | none =>
      cases tried with
      | zero =>
        obtain ⟨d, hd⟩ := hfound
        cases hgrid.symm.trans hd
      | succ tried =>
        rw [← Nat.succ_add_eq_add_succ] at hfound
        exact ih (Nat.lt_of_succ_lt_succ htried) hfound

/-- The shortest decimal rounds to the magnitude. -/
theorem covers_shortest (hx : x.WellFormed) (hpositive : 0 < x.significand) :
    x.Covers (x.shortest.digits * 10 ^ x.shortest.exponent) := by
  have hfound := exists_onGrid hx hpositive (gridStep_le hpositive)
  have hseventeen : x.leadingExponent - 16 = x.leadingExponent + 1 - (1 + 16 : Nat) := by omega
  rw [hseventeen] at hfound
  obtain ⟨k, hk⟩ : ∃ k, x.onGrid k = some x.shortest :=
    onGrid_shortestFrom (by decide : 16 < 17) hfound
  exact (onGrid_spec x k).1 _ hk

theorem digits_shortest_pos (hx : x.WellFormed) (hpositive : 0 < x.significand) :
    0 < x.shortest.digits := by
  by_contra hzero
  have hcovers := covers_shortest hx hpositive
  rw [Nat.eq_zero_of_not_pos hzero, Nat.cast_zero, zero_mul] at hcovers
  have hlow : 0 < x.low := by
    unfold low
    split <;> omega
  have hends : 0 < x.low * x.quarter := mul_pos (Nat.cast_pos.mpr hlow) x.quarter_pos
  exact absurd hcovers.low_le hends.not_ge

end Double

end ContentSpaces
