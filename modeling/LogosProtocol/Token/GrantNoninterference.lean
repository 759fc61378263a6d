import LogosProtocol.Token.TokenAbi

/-!
# What a caller may present stays out of the roster

A token recorded for a caller while the image does not hold the token registry is inbound only,
and it stays so: whatever is granted later, no answer of `lp_token_get` or `lp_token_keys`
depends on it.  The two runs compared here make the same calls, apart from what such calls of
`lp_token_save_inbound` are given.

## Main definitions

* `SameButInbound` — the calls that may stand in the same place of the two runs.
* `QtImage.LowEquivalent`, `WasmImage.LowEquivalent` — the same grant and outbound entries.
-/

namespace LogosProtocol

/-- The call reads the outbound half. -/
def TokenCall.readsOutbound : TokenCall → Bool
  | .get _ | .keys => true
  | .save .. | .saveInbound .. | .grant _ => false

/-- One call, or two recordings of a caller while the token registry is not granted. -/
def SameButInbound (hostServices : UInt32) (call call' : TokenCall) : Prop :=
  call = call' ∨ hostServiceGranted hostServices serviceTokenRegistry = false ∧
    ∃ caller token caller' token',
      call = .saveInbound caller token ∧ call' = .saveInbound caller' token'

/-! ## The Qt image -/

namespace QtImage

/-- The same grant and the same outbound entries. -/
structure LowEquivalent (image image' : QtImage) : Prop where
  hostServices : image.hostServices = image'.hostServices
  outbound : image.tokens.maps.outbound = image'.tokens.maps.outbound

namespace LowEquivalent
variable {fromUtf8 : Bytes → QString} {parse : Bytes → Option Json} {image image' : QtImage}

theorem refl (image : QtImage) : image.LowEquivalent image := ⟨rfl, rfl⟩

theorem symm (h : image.LowEquivalent image') : image'.LowEquivalent image :=
  ⟨h.hostServices.symm, h.outbound.symm⟩

theorem trans {image'' : QtImage} (h : image.LowEquivalent image')
    (h' : image'.LowEquivalent image'') : image.LowEquivalent image'' :=
  ⟨h.hostServices.trans h'.hostServices, h.outbound.trans h'.outbound⟩

theorem saveToken (h : image.LowEquivalent image') (key token : QString) :
    LowEquivalent { image with tokens := image.tokens.saveToken key token }
      { image' with tokens := image'.tokens.saveToken key token } := by
  refine ⟨h.hostServices, ?_⟩
  simp only [TokenManager.maps_saveToken, TokenMaps.save]
  split_ifs
  · exact h.outbound
  · rw [h.outbound]

theorem lpTokenSave (h : image.LowEquivalent image') (moduleName token : Option Bytes) :
    (image.lpTokenSave fromUtf8 moduleName token).2.LowEquivalent
      (image'.lpTokenSave fromUtf8 moduleName token).2 := by
  match moduleName, token with
  | none, _ => exact h
  | some _, none => exact h
  | some name, some token =>
    simp only [QtImage.lpTokenSave]
    split_ifs
    · exact h
    · exact h.saveToken ..

/-- Without the grant, recording a caller leaves the outbound entries alone. -/
theorem lpTokenSaveInbound_notGranted (image : QtImage)
    (h : hostServiceGranted image.hostServices serviceTokenRegistry = false)
    (caller token : Option Bytes) :
    (image.lpTokenSaveInbound fromUtf8 caller token).2.LowEquivalent image := by
  match caller, token with
  | none, _ => exact .refl image
  | some _, none => exact .refl image
  | some caller, some token =>
    simp only [QtImage.lpTokenSaveInbound, h, Bool.false_eq_true, if_false]
    split_ifs
    · exact .refl image
    · exact ⟨rfl, image.tokens.outbound_saveInboundToken _ _⟩

theorem lpTokenSaveInbound (h : image.LowEquivalent image') (caller token : Option Bytes) :
    (image.lpTokenSaveInbound fromUtf8 caller token).2.LowEquivalent
      (image'.lpTokenSaveInbound fromUtf8 caller token).2 := by
  match caller, token with
  | none, _ => exact h
  | some _, none => exact h
  | some caller, some token =>
    have hret : (image.tokens.saveInboundToken (fromUtf8 caller) (fromUtf8 token)).1 =
        (image'.tokens.saveInboundToken (fromUtf8 caller) (fromUtf8 token)).1 := by
      simp only [TokenManager.saveInboundToken]
      split_ifs <;> rfl
    have hsaved : LowEquivalent
        { image with tokens := (image.tokens.saveInboundToken (fromUtf8 caller) (fromUtf8 token)).2 }
        { image' with
          tokens := (image'.tokens.saveInboundToken (fromUtf8 caller) (fromUtf8 token)).2 } := by
      refine ⟨h.hostServices, ?_⟩
      simp only [TokenManager.outbound_saveInboundToken]
      exact h.outbound
    simp only [QtImage.lpTokenSaveInbound, hret]
    rw [show hostServiceGranted image.hostServices serviceTokenRegistry =
      hostServiceGranted image'.hostServices serviceTokenRegistry by rw [h.hostServices]]
    split_ifs
    · exact h
    · exact hsaved.saveToken ..
    · exact hsaved

theorem lpTokenGet (h : image.LowEquivalent image') (moduleName : Option Bytes) :
    image.lpTokenGet fromUtf8 moduleName = image'.lpTokenGet fromUtf8 moduleName := by
  cases moduleName with
  | none => rfl
  | some name =>
    simp only [QtImage.lpTokenGet, image.tokens.reads_maps.getToken,
      image'.tokens.reads_maps.getToken, h.outbound]

/-- The hashes may list the names in different orders. -/
theorem lpTokenKeys (h : image.LowEquivalent image') : image.lpTokenKeys.Same image'.lpTokenKeys := by
  rw [QtImage.lpTokenKeys, QtImage.lpTokenKeys, h.hostServices]
  split_ifs
  · exact .refl _
  · have hreads := image.tokens.reads_maps
    have hreads' := image'.tokens.reads_maps
    refine .reorder (List.Perm.map _ ?_)
    refine (List.perm_ext_iff_of_nodup hreads.getTokenKeys_nodup hreads'.getTokenKeys_nodup).mpr ?_
    intro k
    rw [hreads.mem_getTokenKeys, hreads'.mem_getTokenKeys, h.outbound]

theorem lpGrantHostServices (h : image.LowEquivalent image') (servicesJson : Option Bytes) :
    (image.lpGrantHostServices parse servicesJson).2.LowEquivalent
      (image'.lpGrantHostServices parse servicesJson).2 := by
  simp only [QtImage.lpGrantHostServices]
  cases grantedBy parse servicesJson with
  | none => exact h
  | some granted => exact ⟨rfl, h.outbound⟩

/-- One call keeps two images alike, and what it reads of them is the same. -/
theorem apply (h : image.LowEquivalent image') (call : TokenCall) :
    (image.apply fromUtf8 parse call).2.LowEquivalent (image'.apply fromUtf8 parse call).2 ∧
      (call.readsOutbound = true →
        (image.apply fromUtf8 parse call).1.Same (image'.apply fromUtf8 parse call).1) := by
  cases call with
  | save moduleName token => exact ⟨h.lpTokenSave moduleName token, nofun⟩
  | saveInbound caller token => exact ⟨h.lpTokenSaveInbound caller token, nofun⟩
  | get moduleName =>
    refine ⟨h, fun _ => ?_⟩
    simp only [QtImage.apply, h.lpTokenGet]
    exact .refl _
  | keys => exact ⟨h, fun _ => h.lpTokenKeys⟩
  | grant servicesJson => exact ⟨h.lpGrantHostServices servicesJson, nofun⟩

end LowEquivalent

/-- What may be called in one run in place of the other keeps the images alike. -/
theorem LowEquivalent.paired {fromUtf8 : Bytes → QString} {parse : Bytes → Option Json}
    {image image' : QtImage} (h : image.LowEquivalent image') {call call' : TokenCall}
    (hcalls : SameButInbound image.hostServices call call') :
    (call.readsOutbound = call'.readsOutbound ∧ (call.readsOutbound = true →
        (image.apply fromUtf8 parse call).1.Same (image'.apply fromUtf8 parse call').1)) ∧
      (image.apply fromUtf8 parse call).2.LowEquivalent (image'.apply fromUtf8 parse call').2 := by
  rcases hcalls with rfl | ⟨hgrant, caller, token, caller', token', rfl, rfl⟩
  · exact ⟨⟨rfl, (h.apply call).2⟩, (h.apply call).1⟩
  · have hgrant' : hostServiceGranted image'.hostServices serviceTokenRegistry = false :=
      h.hostServices ▸ hgrant
    have hleft : (image.lpTokenSaveInbound fromUtf8 caller token).2.LowEquivalent image :=
      lpTokenSaveInbound_notGranted image hgrant caller token
    have hright : (image'.lpTokenSaveInbound fromUtf8 caller' token').2.LowEquivalent image' :=
      lpTokenSaveInbound_notGranted image' hgrant' caller' token'
    exact ⟨⟨rfl, nofun⟩, hleft.trans (h.trans hright.symm)⟩

end QtImage

/-! ## The wasm image -/

namespace WasmImage

/-- The same grant and the same outbound entries. -/
structure LowEquivalent (image image' : WasmImage) : Prop where
  hostServices : image.hostServices = image'.hostServices
  outbound : image.store.outbound = image'.store.outbound

namespace LowEquivalent
variable {parse : Bytes → Option Json} {image image' : WasmImage}

theorem refl (image : WasmImage) : image.LowEquivalent image := ⟨rfl, rfl⟩

theorem symm (h : image.LowEquivalent image') : image'.LowEquivalent image :=
  ⟨h.hostServices.symm, h.outbound.symm⟩

theorem trans {image'' : WasmImage} (h : image.LowEquivalent image')
    (h' : image'.LowEquivalent image'') : image.LowEquivalent image'' :=
  ⟨h.hostServices.trans h'.hostServices, h.outbound.trans h'.outbound⟩

/-- Both stores take an outbound token or both refuse it. -/
theorem saveOutbound (h : image.LowEquivalent image') (name token : Bytes) :
    (image.store.saveOutbound name token).1 = (image'.store.saveOutbound name token).1 ∧
      LowEquivalent { image with store := (image.store.saveOutbound name token).2 }
        { image' with store := (image'.store.saveOutbound name token).2 } := by
  simp only [WasmTokenStore.saveOutbound]
  split_ifs
  · exact ⟨rfl, h⟩
  · refine ⟨rfl, h.hostServices, ?_⟩
    simp only [h.outbound]

theorem lpTokenSave (h : image.LowEquivalent image') (moduleName token : Option Bytes) :
    (image.lpTokenSave moduleName token).2.LowEquivalent
      (image'.lpTokenSave moduleName token).2 := by
  match moduleName, token with
  | none, _ => exact h
  | some _, none => exact h
  | some name, some token =>
    obtain ⟨hret, hsaved⟩ := h.saveOutbound name token
    simp only [WasmImage.lpTokenSave, hret]
    split_ifs
    · exact hsaved
    · exact h

/-- Without the grant, recording a caller leaves the outbound entries alone. -/
theorem lpTokenSaveInbound_notGranted (image : WasmImage)
    (h : hostServiceGranted image.hostServices serviceTokenRegistry = false)
    (caller token : Option Bytes) :
    (image.lpTokenSaveInbound caller token).2.LowEquivalent image := by
  match caller, token with
  | none, _ => exact .refl image
  | some _, none => exact .refl image
  | some caller, some token =>
    simp only [WasmImage.lpTokenSaveInbound, h, Bool.false_eq_true, if_false]
    split_ifs
    · exact .refl image
    · exact ⟨rfl, image.store.outbound_saveInbound _ _⟩

theorem lpTokenSaveInbound (h : image.LowEquivalent image') (caller token : Option Bytes) :
    (image.lpTokenSaveInbound caller token).2.LowEquivalent
      (image'.lpTokenSaveInbound caller token).2 := by
  match caller, token with
  | none, _ => exact h
  | some _, none => exact h
  | some caller, some token =>
    have hret : (image.store.saveInbound caller token).1 =
        (image'.store.saveInbound caller token).1 := by
      simp only [WasmTokenStore.saveInbound]
      split_ifs <;> rfl
    have hsaved : LowEquivalent { image with store := (image.store.saveInbound caller token).2 }
        { image' with store := (image'.store.saveInbound caller token).2 } := by
      refine ⟨h.hostServices, ?_⟩
      simp only [WasmTokenStore.outbound_saveInbound]
      exact h.outbound
    simp only [WasmImage.lpTokenSaveInbound, hret]
    rw [show hostServiceGranted image.hostServices serviceTokenRegistry =
      hostServiceGranted image'.hostServices serviceTokenRegistry by rw [h.hostServices]]
    split_ifs
    · exact h
    · exact (hsaved.saveOutbound caller token).2
    · exact hsaved

theorem lpTokenGet (h : image.LowEquivalent image') (moduleName : Option Bytes) :
    image.lpTokenGet moduleName = image'.lpTokenGet moduleName := by
  cases moduleName with
  | none => rfl
  | some name =>
    have htoken : image.store.outboundToken name = image'.store.outboundToken name := by
      rw [WasmTokenStore.outboundToken, WasmTokenStore.outboundToken, h.outbound]
    simp only [WasmImage.lpTokenGet, htoken]

theorem lpTokenKeys (h : image.LowEquivalent image') : image.lpTokenKeys = image'.lpTokenKeys := by
  simp only [WasmImage.lpTokenKeys, WasmTokenStore.outboundKeys, h.hostServices, h.outbound]

theorem lpGrantHostServices (h : image.LowEquivalent image') (servicesJson : Option Bytes) :
    (image.lpGrantHostServices parse servicesJson).2.LowEquivalent
      (image'.lpGrantHostServices parse servicesJson).2 := by
  simp only [WasmImage.lpGrantHostServices]
  cases grantedBy parse servicesJson with
  | none => exact h
  | some granted => exact ⟨rfl, h.outbound⟩

/-- One call keeps two images alike, and what it reads of them is the same. -/
theorem apply (h : image.LowEquivalent image') (call : TokenCall) :
    (image.apply parse call).2.LowEquivalent (image'.apply parse call).2 ∧
      (call.readsOutbound = true → (image.apply parse call).1 = (image'.apply parse call).1) := by
  cases call with
  | save moduleName token => exact ⟨h.lpTokenSave moduleName token, nofun⟩
  | saveInbound caller token => exact ⟨h.lpTokenSaveInbound caller token, nofun⟩
  | get moduleName => exact ⟨h, fun _ => h.lpTokenGet moduleName⟩
  | keys => exact ⟨h, fun _ => h.lpTokenKeys⟩
  | grant servicesJson => exact ⟨h.lpGrantHostServices servicesJson, nofun⟩

/-- What may be called in one run in place of the other keeps the images alike. -/
theorem paired (h : image.LowEquivalent image') {call call' : TokenCall}
    (hcalls : SameButInbound image.hostServices call call') :
    (call.readsOutbound = call'.readsOutbound ∧ (call.readsOutbound = true →
        (image.apply parse call).1 = (image'.apply parse call').1)) ∧
      (image.apply parse call).2.LowEquivalent (image'.apply parse call').2 := by
  rcases hcalls with rfl | ⟨hgrant, caller, token, caller', token', rfl, rfl⟩
  · exact ⟨⟨rfl, (h.apply call).2⟩, (h.apply call).1⟩
  · have hgrant' : hostServiceGranted image'.hostServices serviceTokenRegistry = false :=
      h.hostServices ▸ hgrant
    have hleft := lpTokenSaveInbound_notGranted image hgrant caller token
    have hright := lpTokenSaveInbound_notGranted image' hgrant' caller' token'
    exact ⟨⟨rfl, nofun⟩, hleft.trans (h.trans hright.symm)⟩

end LowEquivalent

end WasmImage

/-! ## Runs -/

open Lockstep

theorem TokenAnswer.Same.equivalence : Equivalence TokenAnswer.Same := ⟨.refl, .symm, .trans⟩

/-- The answers a Qt image may give to the calls that read the outbound half. -/
def QtImage.outboundAnswers (fromUtf8 : Bytes → QString) (parse : Bytes → Option Json)
    (image : QtImage) (calls : List TokenCall) : Set (List TokenAnswer) :=
  answersTo TokenCall.readsOutbound ''
    upTo TokenAnswer.Same (trace (QtImage.apply fromUtf8 parse) image calls)

/-- The answers of a wasm image to the calls that read the outbound half. -/
def WasmImage.outboundAnswers (parse : Bytes → Option Json) (image : WasmImage)
    (calls : List TokenCall) : List TokenAnswer :=
  answersTo TokenCall.readsOutbound (trace (WasmImage.apply parse) image calls)

/-- **What is recorded for a caller without the grant is never read.** Of two runs of a Qt or a
wasm image whose calls are the same, apart from the callers and tokens recorded while the token
registry is not granted, the answers to `lp_token_get` and `lp_token_keys` are the same (a Qt
image lists its names in any order: what it may answer is the same); and a grant that is rejected
leaves the image as it was. -/
theorem inbound_not_read (parse : Bytes → Option Json) :
    (∀ (fromUtf8 : Bytes → QString) (image : QtImage) (calls calls' : List TokenCall),
      Paired (QtImage.apply fromUtf8 parse) (fun image => SameButInbound image.hostServices)
          image calls calls' →
        image.outboundAnswers fromUtf8 parse calls = image.outboundAnswers fromUtf8 parse calls' ∧
        ∀ answers ∈ image.outboundAnswers fromUtf8 parse calls,
          ∀ answers' ∈ image.outboundAnswers fromUtf8 parse calls',
            List.Forall₂ TokenAnswer.Same answers answers') ∧
    (∀ (image : WasmImage) (calls calls' : List TokenCall),
      Paired (WasmImage.apply parse) (fun image => SameButInbound image.hostServices)
          image calls calls' →
        image.outboundAnswers parse calls = image.outboundAnswers parse calls') ∧
    (∀ (fromUtf8 : Bytes → QString) (image : QtImage) (servicesJson : Option Bytes),
      (image.apply fromUtf8 parse (.grant servicesJson)).1 ≠ .code lpOk →
        (image.apply fromUtf8 parse (.grant servicesJson)).2 = image) ∧
    (∀ (image : WasmImage) (servicesJson : Option Bytes),
      (image.apply parse (.grant servicesJson)).1 ≠ .code lpOk →
        (image.apply parse (.grant servicesJson)).2 = image) := by
  refine ⟨?_, ?_, ?_, ?_⟩
  · intro fromUtf8 image calls calls' hcalls
    have htraces := hcalls.forall₂_trace (g := QtImage.apply fromUtf8 parse)
      (R := QtImage.LowEquivalent) (A := fun x y => x.1.readsOutbound = y.1.readsOutbound ∧
        (x.1.readsOutbound = true → x.2.Same y.2))
      (fun _ _ _ _ h hpair => h.paired hpair) (.refl image)
    have hanswers := forall₂_answersTo htraces
    have hlists := forall₂_equivalence TokenAnswer.Same.equivalence
    refine ⟨answersTo_image_upTo_eq TokenAnswer.Same.equivalence hanswers, ?_⟩
    intro answers ha answers' ha'
    rw [QtImage.outboundAnswers, answersTo_image_upTo TokenAnswer.Same.refl] at ha ha'
    exact hlists.trans (hlists.symm ha) (hlists.trans hanswers ha')
  · intro image calls calls' hcalls
    have htraces := hcalls.forall₂_trace (g := WasmImage.apply parse)
      (R := WasmImage.LowEquivalent) (A := fun x y => x.1.readsOutbound = y.1.readsOutbound ∧
        (x.1.readsOutbound = true → x.2 = y.2))
      (fun _ _ _ _ h hpair => h.paired hpair) (.refl image)
    exact List.forall₂_eq_eq_eq ▸ forall₂_answersTo htraces
  · intro fromUtf8 image servicesJson h
    simp only [QtImage.apply, QtImage.lpGrantHostServices] at h ⊢
    cases hgranted : grantedBy parse servicesJson with
    | none => rfl
    | some granted =>
      rw [hgranted] at h
      exact absurd rfl h
  · intro image servicesJson h
    simp only [WasmImage.apply, WasmImage.lpGrantHostServices] at h ⊢
    cases hgranted : grantedBy parse servicesJson with
    | none => rfl
    | some granted =>
      rw [hgranted] at h
      exact absurd rfl h

/-- Two runs record different callers before the grant and list the same names after it. -/
theorem inbound_not_read_granted :
    QtImage.outboundAnswers asciiFromUtf8 parseRegistry {}
        [.saveInbound (some (bstr "chat")) (some (bstr "t")), .grant (some registryJson), .keys] =
      QtImage.outboundAnswers asciiFromUtf8 parseRegistry {}
        [.saveInbound (some (bstr "wallet")) (some (bstr "u")), .grant (some registryJson), .keys] := by
  refine ((inbound_not_read parseRegistry).1 asciiFromUtf8 {} _ _ ?_).1
  refine .cons (.inr ⟨by decide, _, _, _, _, rfl, rfl⟩) ?_
  exact .cons (.inl rfl) (.cons (.inl rfl) (.nil _))

end LogosProtocol
