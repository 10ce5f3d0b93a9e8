/-!
# Reminders

A recurring reminder fires every `interval` units of time. Times are signed 64-bit numbers, and a
product that does not fit is held at the nearest end of the range.
-/

namespace Stepwise

inductive TimeUnit where
  | seconds
  | minutes
  | hours
  deriving DecidableEq, Repr

namespace TimeUnit

def secondsPerUnit : TimeUnit → Int
  | .seconds => 1
  | .minutes => 60
  | .hours => 3600

def symbol : TimeUnit → String
  | .seconds => "s"
  | .minutes => "m"
  | .hours => "h"

/-- The number of this size nearest to `i`. -/
def saturate (i : Int) : Int64 :=
  .ofInt (max Int64.minValue.toInt (min Int64.maxValue.toInt i))

def toSeconds (unit : TimeUnit) (value : Int64) : Int64 :=
  saturate (value.toInt * unit.secondsPerUnit)

end TimeUnit

structure Reminder where
  interval : Int64
  unit : TimeUnit
  deriving DecidableEq, Repr

def Reminder.seconds (r : Reminder) : Int64 := r.unit.toSeconds r.interval

end Stepwise
