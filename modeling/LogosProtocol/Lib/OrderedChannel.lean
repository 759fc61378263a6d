import Mathlib.Data.List.Basic

/-!
# Assignments through an ordered channel

A replica is kept by messages that each assign a value to a key and are delivered in the
order they were sent.  What matters is not what the replica holds now but what it will hold
once everything in flight has arrived: sending changes that at one key, delivering does not
change it, and on a drained channel the two are the same.

## Main definitions

* `afterDelivery` — the value of a key once the channel is drained.
-/

namespace LogosProtocol

variable {K V : Type} [DecidableEq K]

/-- The value of a key once the messages in flight have been delivered, from the value it
has now. -/
def afterDelivery (inFlight : List (K × V)) (k : K) (now : V) : V :=
  inFlight.foldl (fun v m => if m.1 = k then m.2 else v) now

@[simp] theorem afterDelivery_nil (k : K) (now : V) : afterDelivery [] k now = now := rfl

/-- Delivering a message changes what is held, not what will be. -/
@[simp] theorem afterDelivery_cons (m : K × V) (inFlight : List (K × V)) (k : K) (now : V) :
    afterDelivery (m :: inFlight) k now =
      afterDelivery inFlight k (if m.1 = k then m.2 else now) := rfl

/-- Sending a message decides its key and leaves the others. -/
@[simp] theorem afterDelivery_concat (inFlight : List (K × V)) (m : K × V) (k : K) (now : V) :
    afterDelivery (inFlight ++ [m]) k now =
      if m.1 = k then m.2 else afterDelivery inFlight k now := by
  simp [afterDelivery, List.foldl_append]

end LogosProtocol
