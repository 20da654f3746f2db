import Arvolo.Lib.Word

/-!
The relay's clock. A moment is read as `u64` seconds and compared with columns of
`i64`; up to the end of `i64` the two agree.
-/

namespace Arvolo.Relay

open Lib

/-- `now_unix`: seconds that `i64` holds. -/
structure Clock where
  secs : ℕ
  lt : secs < 2 ^ 63
  deriving DecidableEq

namespace Clock

/-- `now as i64`. -/
def i64 (c : Clock) : ℤ := asI64 c.secs

def tick (c : Clock) (secs : ℕ) : Clock :=
  if h : c.secs + secs < 2 ^ 63 then ⟨c.secs + secs, h⟩ else c

theorem i64_eq (c : Clock) : c.i64 = c.secs := asI64_of_lt c.lt

theorem secs_le_tick (c : Clock) (secs : ℕ) : c.secs ≤ (c.tick secs).secs := by
  unfold tick
  split_ifs <;> simp

theorem i64_le_tick (c : Clock) (secs : ℕ) : c.i64 ≤ (c.tick secs).i64 := by
  rw [i64_eq, i64_eq, tick]
  split_ifs <;> simp

end Clock

end Arvolo.Relay
