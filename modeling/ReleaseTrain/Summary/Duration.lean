/-!
Durations for people: one whole number of seconds, minutes or hours.
-/

namespace ReleaseTrain

def counted (n : Nat) (singular plural : String) : String :=
  s!"{n} {if n = 1 then singular else plural}"

/-- A negative duration counts as none. -/
def durationText (seconds : Int) : String :=
  let n := seconds.toNat
  if n < 60 then counted n "second" "seconds"
  else if n < 3600 then counted (n / 60) "minute" "minutes"
  else counted (n / 3600) "hour" "hours"

example : durationText 90 = "1 minute" := by decide

end ReleaseTrain
