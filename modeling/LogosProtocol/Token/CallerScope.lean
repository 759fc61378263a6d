import LogosProtocol.Token.CallRemoteMethod

/-!
# The caller of a dispatch

The caller document of the dispatch that runs on a thread is ambient: the proxy puts it there
around the provider's own dispatch and puts the former one back.  A provider may call into further
modules on the same thread, which answer or throw before it goes on, and may look at the document
at any time.

A run of nested dispatches is a tree.  A provider's code is a program that reads the document or
dispatches further, goes on in any way with what it reads and with how an inner dispatch ended,
and returns or throws in the end; an exception that it does not catch is one that it throws.

## Main definitions

* `Dispatch`, `Handler` — a dispatch, and what its provider does.
* `Dispatch.run`, `Handler.run` — the documents that are seen.
-/

namespace LogosProtocol.CallerScope

open Scoped

/-- A provider's look at the caller document, during its own dispatch. -/
structure Look where
  /-- The dispatch in which the provider runs. -/
  dispatch : CallRequest
  seen : Option CallerDocument

mutual

/-- One dispatch, and what the provider does if it gets that far. -/
inductive Dispatch (ε : Type)
  | mk (req : CallRequest) (handler : Handler ε)

/-- What a provider's code does next. -/
inductive Handler (ε : Type)
  | ends (outcome : Except ε QVariant)
  /-- It looks at the caller document. -/
  | look (next : Option CallerDocument → Handler ε)
  /-- It calls into a further module on the same thread. -/
  | dispatch (inner : Dispatch ε) (next : Except ε CallAnswer → Handler ε)

end

variable {ε : Type}

mutual

def Dispatch.run : Dispatch ε → Comp (Option CallerDocument) ε Look CallAnswer
  | .mk req handler => callRemoteMethod req (handler.run req)

def Handler.run (req : CallRequest) : Handler ε → Comp (Option CallerDocument) ε Look QVariant
  | .ends outcome => Comp.ofExcept outcome
  | .look next => do
    let document ← Comp.read
    Comp.log ⟨req, document⟩
    (next document).run req
  | .dispatch inner next => do
    let outcome ← inner.run.attempt
    (next outcome).run req

end

/-! ## What is seen -/

/-- The provider sees the document that `authorize` has computed for its own dispatch. -/
def Look.Own (l : Look) : Prop := l.seen = some l.dispatch.authorization.caller

/-- The proxy puts back the document it has found, if what it runs does so under its own. -/
theorem restores_callRemoteMethod {pre : Option CallerDocument → Prop} {ω : Type} {good : ω → Prop}
    {req : CallRequest} {callMethod : Comp (Option CallerDocument) ε ω QVariant}
    (h : Restores (· = some req.authorization.caller) good callMethod) :
    Restores pre good (callRemoteMethod req callMethod) := by
  unfold callRemoteMethod
  cases req.provider with
  | none => exact .pure _
  | some provider =>
    dsimp only
    split_ifs
    · exact .pure _
    · exact .pure _
    · exact .pure _
    · exact .pure _
    · exact .pure _
    · exact .scope (h.bind fun result => .pure _)

mutual

/-- A dispatch leaves the document as it was, and everyone in it sees their own. -/
theorem restores_dispatch : ∀ (d : Dispatch ε) (pre : Option CallerDocument → Prop),
    Restores pre Look.Own d.run
  | .mk req handler, _ => restores_callRemoteMethod (restores_handler req handler)

theorem restores_handler (req : CallRequest) : ∀ handler : Handler ε,
    Restores (· = some req.authorization.caller) Look.Own (handler.run req)
  | .ends outcome => .ofExcept outcome
  | .look next => by
    refine .read_bind ?_
    rintro document rfl
    exact Restores.bind (.log rfl) fun _ => restores_handler req (next _)
  | .dispatch inner next =>
    Restores.bind (restores_dispatch inner _).attempt fun outcome =>
      restores_handler req (next outcome)

end

/-- **Caller identity under nested dispatch.**  In every tree of nested dispatches, whether they
return or throw, each provider sees, whenever it looks, the document that `authorize` has computed
for its own dispatch; and once the outermost dispatch has ended, no document is visible. -/
theorem dispatch_sees_own (d : Dispatch ε) :
    (∀ l ∈ (d.run none).log, l.seen = some l.dispatch.authorization.caller) ∧
      (d.run none).ambient = none := by
  obtain ⟨hambient, hlog⟩ := restores_dispatch d (fun _ => True) none trivial
  exact ⟨hlog, hambient⟩

/-- A provider that looks around a call into a further module, whose own provider looks and then
throws. -/
def nestedThrow : Dispatch Unit :=
  .mk
    { proxy := ⟨∅, TokenManager.empty.adoptCredential (qstr "c"), none⟩
      provider := some ⟨[], [], []⟩, authToken := qstr "c", methodName := qstr "run" }
    (.look fun _ => .dispatch
      (.mk
        { proxy := ⟨AList.singleton (qstr "chat") (qstr "t"), .empty, none⟩
          provider := some ⟨[], [], []⟩, authToken := qstr "t", methodName := qstr "run" }
        (.look fun _ => .ends (.error ())))
      fun _ => .look fun _ => .ends (.ok .invalid))

example : (nestedThrow.run none).log.map Look.seen =
    [some callerHostAnchorJson, some (.module (QString.toUtf8 (qstr "chat"))),
      some callerHostAnchorJson] := by decide

end LogosProtocol.CallerScope
