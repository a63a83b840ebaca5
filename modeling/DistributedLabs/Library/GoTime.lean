import Mathlib.Algebra.Ring.Int.Defs

/-!
Times and durations of Go in nanoseconds. A difference of two times saturates at the
limits of a 64 bit `Duration`, and `Milliseconds` truncates toward zero.
-/

namespace GoTime

/-- The zero `time.Time`, relative to the Unix epoch. -/
def zeroTime : Int := -62135596800000000000

def timeSub (t u : Int) : Int := max (-2 ^ 63) (min (2 ^ 63 - 1) (t - u))

def milliseconds (d : Int) : Int := d.tdiv 1000000

structure Duration where
  ns : Int
  min_le : -2 ^ 63 ≤ ns
  lt_max : ns < 2 ^ 63
  deriving DecidableEq

/-- A reading of the monotonic clock, an `int64` of nanoseconds. -/
structure Reading where
  ns : Int
  nonneg : 0 ≤ ns
  lt_max : ns < 2 ^ 63
  deriving DecidableEq

/-- Between two readings no difference saturates. -/
theorem Reading.milliseconds_timeSub {t u : Reading} (h : u.ns ≤ t.ns) :
    milliseconds (timeSub t.ns u.ns) = (t.ns - u.ns) / 1000000 := by
  have hu := u.nonneg
  have ht := t.lt_max
  have hsub : timeSub t.ns u.ns = t.ns - u.ns := by
    simp only [timeSub]
    omega
  rw [milliseconds, hsub, Int.tdiv_eq_ediv_of_nonneg (by omega)]

/-- The whole milliseconds of a duration have passed if and only if their length has. -/
theorem le_milliseconds_timeSub (d : Duration) {t u : Int} (h : u ≤ t) :
    milliseconds d.ns ≤ milliseconds (timeSub t u) ↔
      milliseconds d.ns * 1000000 ≤ t - u := by
  have hmin := d.min_le
  have hmax := d.lt_max
  have hpos : 0 ≤ timeSub t u := by
    simp only [timeSub]
    omega
  simp only [milliseconds, Int.tdiv_eq_ediv_of_nonneg hpos]
  rcases Int.le_total 0 d.ns with hd | hd
  · rw [Int.tdiv_eq_ediv_of_nonneg hd]
    simp only [timeSub]
    omega
  · have hneg : 0 ≤ (-d.ns).tdiv 1000000 := Int.tdiv_nonneg (by omega) (by omega)
    rw [Int.neg_tdiv] at hneg
    omega

theorem milliseconds_timeSub_mono {t t' u : Int} (h : t ≤ t') :
    milliseconds (timeSub t u) ≤ milliseconds (timeSub t' u) := by
  have hsub : timeSub t u ≤ timeSub t' u := by
    simp only [timeSub]
    omega
  exact Int.tdiv_le_tdiv (by decide) hsub

end GoTime
