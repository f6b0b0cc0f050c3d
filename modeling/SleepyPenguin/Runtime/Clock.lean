import Mathlib.Algebra.GroupWithZero.Nat
import Mathlib.Algebra.Group.Int.Defs
import Mathlib.Data.List.Basic
import Mathlib.Tactic.Common

namespace SleepyPenguin

structure Timespec where
  sec : Int
  nsec : Int
  deriving DecidableEq, Repr

namespace Timespec

def nanoPerSec : Int := 1000000000

-- The whole of it in nanoseconds.
def nanos (t : Timespec) : Int := t.sec * nanoPerSec + t.nsec

def Normal (t : Timespec) : Prop := 0 ≤ t.nsec ∧ t.nsec < nanoPerSec

instance (t : Timespec) : Decidable t.Normal := inferInstanceAs (Decidable (_ ∧ _))

-- Readings that never go back.
def Forward (readings : List Timespec) : Prop :=
  readings.Pairwise fun earlier later => earlier.nanos ≤ later.nanos

instance (readings : List Timespec) : Decidable (Forward readings) :=
  inferInstanceAs (Decidable (List.Pairwise _ _))

end Timespec

end SleepyPenguin
