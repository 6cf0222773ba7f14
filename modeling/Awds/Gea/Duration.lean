import Awds.Gea.FixNum

/-!
# Rational durations: `gea/include/gea/Time.h`

| here | there |
| --- | --- |
| `FixNum.offset`    | `FixNum::offset` (:22), ticks per second |
| `Duration.ofRatio` | `Duration::Duration(long, long)` (:184) |

The product is a `long long`. Where it overflows it is taken modulo 2⁶⁴, as the processor does it.
`duration_exact`: that is where a duration goes wrong, and nowhere else, however small the fraction is.
-/

namespace Gea

/-- `FixNum::offset` (`Time.h:22`). -/
def FixNum.offset : Int64 := 0x10000000

/-- `operator <=` (`Time.h:55`). -/
instance : LE FixNum := ⟨fun f g => f.v ≤ g.v⟩

/-- `Duration(a, b)` (`Time.h:184`). -/
def Duration.ofRatio (a b : Int64) : FixNum := ⟨a * FixNum.offset / b⟩

namespace Duration

variable {a b c d : Int64}

/-- The product of `a` and `offset`, and whether it is a `long long`. -/
def ticks (a : Int64) : Int := a.toInt * 2 ^ 28

def Fits (a : Int64) : Prop := -2 ^ 63 ≤ ticks a ∧ ticks a < 2 ^ 63

instance (a : Int64) : Decidable (Fits a) := inferInstanceAs (Decidable (_ ∧ _))

/-- What `Duration(a, b)` should be. -/
structure Exact (a b : Int64) : Prop where
  value : (ofRatio a b).v.toInt = (ticks a).tdiv b.toInt
  near : |((ofRatio a b).v.toInt : ℚ) / 2 ^ 28 - (a.toInt : ℚ) / b.toInt| < 1 / 2 ^ 28

/-! ## Truncated division -/

/-- A quotient is off by less than one. -/
theorem tdiv_near (x : Int) {y : Int} (hy : 0 < y) : |x - x.tdiv y * y| < y := by
  have hmod : x - x.tdiv y * y = x.tmod y := by rw [Int.tmod_def, mul_comm]
  have hlt : |x.tmod y| < |y| := by
    rw [Int.abs_eq_natAbs, Int.abs_eq_natAbs, Int.natAbs_tmod]
    exact_mod_cast Nat.mod_lt _ (Int.natAbs_pos.2 hy.ne')
  rw [hmod]
  rwa [abs_of_pos hy] at hlt

/-- Numbers with one quotient are not further apart than twice the divisor. -/
theorem near_of_tdiv_eq {x x' y : Int} (hy : 0 < y) (h : x.tdiv y = x'.tdiv y) : |x - x'| < 2 * y := by
  have hx := abs_lt.1 (tdiv_near x hy)
  have hx' := abs_lt.1 (tdiv_near x' hy)
  rw [h] at hx
  exact abs_lt.2 ⟨by omega, by omega⟩

theorem tdiv_mono {x x' y y' : Int} (hy : 0 < y) (hy' : 0 < y') (h : x * y' ≤ x' * y) : x.tdiv y ≤ x'.tdiv y' := by
  rcases lt_or_ge x 0 with hx | hx
  · rcases lt_or_ge x' 0 with hx' | hx'
    · -- both are negative, and the quotients of their opposites are floors
      have hneg : (-x').tdiv y' ≤ (-x).tdiv y := by
        rw [Int.tdiv_eq_ediv_of_nonneg (by omega), Int.tdiv_eq_ediv_of_nonneg (by omega)]
        rw [Int.le_ediv_iff_mul_le hy]
        have hfloor := Int.ediv_mul_le (-x') hy'.ne'
        nlinarith
      rw [Int.neg_tdiv, Int.neg_tdiv] at hneg
      omega
    · have hleft : 0 ≤ (-x).tdiv y := Int.tdiv_nonneg (by omega) hy.le
      have hright := Int.tdiv_nonneg hx' hy'.le
      rw [Int.neg_tdiv] at hleft
      omega
  · have hx' : 0 ≤ x' := by
      by_contra hneg
      nlinarith
    rw [Int.tdiv_eq_ediv_of_nonneg hx, Int.tdiv_eq_ediv_of_nonneg hx', Int.le_ediv_iff_mul_le hy']
    have hfloor := Int.ediv_mul_le x hy.ne'
    nlinarith

/-! ## `Duration(a, b)` -/

theorem ofRatio_toInt (hb : 0 < b) : (ofRatio a b).v.toInt = ((ticks a).bmod (2 ^ 64)).tdiv b.toInt := by
  have hne : b ≠ -1 := by
    rintro rfl
    exact absurd hb (by decide)
  have hoffset : FixNum.offset.toInt = 2 ^ 28 := by decide
  rw [ofRatio, Int64.toInt_div_of_ne_right _ _ hne, Int64.toInt_mul, hoffset, ticks]

theorem bmod_of_fits (h : Fits a) : (ticks a).bmod (2 ^ 64) = ticks a := by
  obtain ⟨hle, hlt⟩ := h
  exact Int.bmod_eq_of_le_mul_two (by omega) (by omega)

/-- A product that does not fit is off by 2⁶⁴ at least. -/
theorem bmod_far (h : ¬Fits a) : 2 ^ 64 ≤ |ticks a - (ticks a).bmod (2 ^ 64)| := by
  have hle := Int.le_bmod (x := ticks a) (m := 2 ^ 64) (by decide)
  have hlt := Int.bmod_lt (x := ticks a) (m := 2 ^ 64) (by decide)
  have hsub := Int.bmod_eq_self_sub_mul_bdiv (ticks a) (2 ^ 64)
  unfold Fits at h
  rw [le_abs]
  omega

theorem value_iff (hb : 0 < b) : (ofRatio a b).v.toInt = (ticks a).tdiv b.toInt ↔ Fits a := by
  have hpos : 0 < b.toInt := Int64.lt_iff_toInt_lt.1 hb
  rw [ofRatio_toInt hb]
  constructor
  · intro h
    by_contra hfits
    have hfar := bmod_far hfits
    have hnear := near_of_tdiv_eq hpos h.symm
    have hlt := b.toInt_lt
    omega
  · intro h
    rw [bmod_of_fits h]

theorem exact_of_fits (hb : 0 < b) (h : Fits a) : Exact a b := by
  have hpos : 0 < b.toInt := Int64.lt_iff_toInt_lt.1 hb
  have hvalue := (value_iff hb).2 h
  refine ⟨hvalue, ?_⟩
  have hnear := tdiv_near (ticks a) hpos
  have hq : |((ticks a : ℚ)) - (ticks a).tdiv b.toInt * b.toInt| < b.toInt := by exact_mod_cast hnear
  have hb' : (0 : ℚ) < b.toInt := by exact_mod_cast hpos
  have heq : ((ofRatio a b).v.toInt : ℚ) / 2 ^ 28 - (a.toInt : ℚ) / b.toInt =
      -((ticks a : ℚ) - (ticks a).tdiv b.toInt * b.toInt) / (2 ^ 28 * b.toInt) := by
    rw [hvalue, ticks]
    push_cast
    field_simp
    ring
  rw [heq, abs_div, abs_neg, abs_of_pos (by positivity : (0 : ℚ) < 2 ^ 28 * b.toInt),
    div_lt_div_iff₀ (by positivity) (by positivity)]
  linarith

theorem ofRatio_mono (hb : 0 < b) (hd : 0 < d) (ha : Fits a) (hc : Fits c)
    (h : (a.toInt : ℚ) / b.toInt ≤ (c.toInt : ℚ) / d.toInt) : ofRatio a b ≤ ofRatio c d := by
  have hb' : 0 < b.toInt := Int64.lt_iff_toInt_lt.1 hb
  have hd' : 0 < d.toInt := Int64.lt_iff_toInt_lt.1 hd
  have hcross : a.toInt * d.toInt ≤ c.toInt * b.toInt := by
    rw [div_le_div_iff₀ (by exact_mod_cast hb') (by exact_mod_cast hd')] at h
    exact_mod_cast h
  apply Int64.le_iff_toInt_le.2
  rw [(value_iff hb).2 ha, (value_iff hd).2 hc]
  refine tdiv_mono hb' hd' ?_
  unfold ticks
  linarith

/-- **A fraction becomes its whole ticks, and greater fractions longer durations, exactly if the numerators can be
multiplied by `offset`; the size of the fractions does not matter.** -/
theorem duration_exact (a b c d : Int64) (hb : 0 < b) (hd : 0 < d) :
    (Exact a b ∧ Exact c d ∧ ((a.toInt : ℚ) / b.toInt ≤ (c.toInt : ℚ) / d.toInt → ofRatio a b ≤ ofRatio c d)) ↔
      Fits a ∧ Fits c := by
  constructor
  · rintro ⟨hab, hcd, -⟩
    exact ⟨(value_iff hb).1 hab.value, (value_iff hd).1 hcd.value⟩
  · rintro ⟨ha, hc⟩
    exact ⟨exact_of_fits hb ha, exact_of_fits hd hc, ofRatio_mono hb hd ha hc⟩

/-- A third of a second, and half a second in milliseconds. -/
theorem duration_exact_third : Exact 1 3 ∧ Exact 500 1000 ∧
    (((1 : Int64).toInt : ℚ) / (3 : Int64).toInt ≤ ((500 : Int64).toInt : ℚ) / (1000 : Int64).toInt →
      ofRatio 1 3 ≤ ofRatio 500 1000) :=
  (duration_exact 1 3 500 1000 (by decide) (by decide)).2 (by decide)

/-- A hundred seconds in nanoseconds are 31 seconds and a half. -/
theorem nanoseconds_overflow : ¬∀ a b : Int64, 0 < b → |(a.toInt : ℚ) / b.toInt| < 2 ^ 35 → Exact a b := by
  intro hall
  have hb : (1000000000 : Int64).toInt = 1000000000 := by decide
  have ha : (100000000000 : Int64).toInt = 100000000000 := by decide
  have h := (hall 100000000000 1000000000 (by decide) (by rw [ha, hb]; norm_num)).value
  exact absurd h (by decide)

end Duration

end Gea
