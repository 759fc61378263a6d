import LogosProtocol.Async.AsyncCall

/-!
# Calls on the event loop

The two Qt transports run on the event loop of their consumer.  A call on one of their handles is
sent, answered, and when the answer is a sentinel waits for its completion: a synchronous call in a
nested event loop, an asynchronous one through its callback.  What is posted is posted with the
event helper of the handle as its context, and is dropped with it.

## Main definitions

* `CallPc`, `Call` — how far a call has got.
* `Call.Outstanding` — it was made, and its caller is still to be answered.
-/

namespace LogosProtocol

namespace Qt

open Async

/-- What a call on the proxy of the provider has come to. -/
inductive Answer
  | value (v : QVariant)
  /-- The transport failed the call, with this error. -/
  | error (code : Int)

/-- The call id of an answer that is a sentinel. -/
def Answer.callId : Answer → Option QString
  | .value v => isPendingCallSentinel v
  | .error _ => none

inductive CallPc
  | idle
  /-- The dispatch is posted, with a helper as its context. -/
  | posted (helper : ℕ)
  | sent
  /-- The answer is there, and has not been looked at. -/
  | finished (answer : Answer)
  /-- In a nested loop, or as a callback, waiting for a completion. -/
  | waiting (callId : QString)
  /-- The delivery is posted, with a helper as its context. -/
  | queued (o : Outcome) (helper : ℕ)
  | resolved (o : Outcome)
  /-- The helper was deleted first: the callback is gone. -/
  | dropped

structure Call where
  /-- Made with a callback. -/
  async : Bool := false
  method : Bytes := []
  timeoutMs : Int := 0
  /-- The helper that the handle had when the call was made, where the call keeps it. -/
  helper : Option ℕ := none
  pc : CallPc := .idle
  /-- The deadline of the wait for a completion, with the helper it is posted with. -/
  timer : Option (QString × Option ℕ) := none

/-- The caller is still to be answered. -/
def Call.Outstanding (call : Call) : Prop :=
  match call.pc with
  | .idle | .resolved _ | .dropped => False
  | _ => True

/-- The completion may be waited for: the provider has the call, or has answered it with the
sentinel. -/
def Call.Awaits (callId : QString) (call : Call) : Prop :=
  match call.pc with
  | .sent => True
  | .finished answer => answer.callId = some callId
  | .waiting callId' => callId' = callId
  | _ => False

/-- A helper is deleted, and what was posted with it is dropped. -/
def Call.drop (helper : ℕ) (call : Call) : Call :=
  { call with
    pc := match call.pc with
      | .posted helper' => if helper' = helper then .dropped else call.pc
      | .queued _ helper' => if helper' = helper then .dropped else call.pc
      | _ => call.pc
    timer := match call.timer with
      | some (_, some helper') => if helper' = helper then none else call.timer
      | _ => call.timer }

/-- Only what is posted is dropped. -/
theorem Call.pc_drop (helper : ℕ) (call : Call) : (call.drop helper).pc = call.pc ∨
    (call.drop helper).pc = .dropped ∧
      ((∃ helper', call.pc = .posted helper') ∨ ∃ o helper', call.pc = .queued o helper') := by
  unfold Call.drop
  cases hpc : call.pc with
  | posted helper' =>
    by_cases hsame : helper' = helper
    · exact .inr ⟨by simp [hsame], .inl ⟨helper', rfl⟩⟩
    · exact .inl (by simp [hsame])
  | queued o helper' =>
    by_cases hsame : helper' = helper
    · exact .inr ⟨by simp [hsame], .inr ⟨o, helper', rfl⟩⟩
    · exact .inl (by simp [hsame])
  | _ => exact .inl rfl

/-- One call moves. -/
def setPc (calls : ℕ → Call) (n : ℕ) (pc : CallPc) : ℕ → Call :=
  Function.update calls n { calls n with pc := pc }

section setPc
variable (calls : ℕ → Call) (n : ℕ) (pc : CallPc)

@[simp] theorem setPc_self : setPc calls n pc n = { calls n with pc := pc } :=
  Function.update_self ..

end setPc

end Qt

end LogosProtocol
