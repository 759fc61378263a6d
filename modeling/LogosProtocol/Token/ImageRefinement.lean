import LogosProtocol.Token.TokenAbi

/-!
# Where the wasm image answers as the Qt image does

The two images hold the same outbound entries as long as no name is empty, so they answer every
call alike until `lp_token_save` is called with an empty name: the Qt image takes it and the wasm
image refuses it.

## Main definitions

* `TokenCall.Lossless` — its strings survive `QString::fromUtf8`.
* `Matches` — the entries of one image are those of the other.
-/

namespace LogosProtocol

/-- The string is what its `QString` is written back as. -/
def Lossless (fromUtf8 : Bytes → QString) (b : Bytes) : Prop := (fromUtf8 b).toUtf8 = b

/-- The strings of a call that a Qt image converts. -/
def TokenCall.strings : TokenCall → List Bytes
  | .save moduleName token => moduleName.toList ++ token.toList
  | .saveInbound caller token => caller.toList ++ token.toList
  | .get moduleName => moduleName.toList
  | .keys | .grant _ => []

def TokenCall.Lossless (fromUtf8 : Bytes → QString) (call : TokenCall) : Prop :=
  ∀ b ∈ call.strings, LogosProtocol.Lossless fromUtf8 b

instance (fromUtf8 : Bytes → QString) (b : Bytes) : Decidable (Lossless fromUtf8 b) :=
  inferInstanceAs (Decidable ((fromUtf8 b).toUtf8 = b))

instance (fromUtf8 : Bytes → QString) (call : TokenCall) : Decidable (call.Lossless fromUtf8) :=
  inferInstanceAs (Decidable (∀ b ∈ call.strings, Lossless fromUtf8 b))

/-- A token is saved outbound under the empty name. -/
def TokenCall.savesEmptyName : TokenCall → Bool
  | .save (some []) (some _) => true
  | _ => false

/-- The two images have the same grant and the same outbound entries. -/
structure Matches (fromUtf8 : Bytes → QString) (qt : QtImage) (wasm : WasmImage) : Prop where
  hostServices : qt.hostServices = wasm.hostServices
  get : ∀ b, Lossless fromUtf8 b →
    Fields.get? b wasm.store.outbound =
      (qt.tokens.maps.outbound (fromUtf8 b)).map QString.toUtf8
  ofQt : ∀ k, (qt.tokens.maps.outbound k).isSome → fromUtf8 k.toUtf8 = k
  ofWasm : ∀ b, (Fields.get? b wasm.store.outbound).isSome → Lossless fromUtf8 b

namespace Lossless
variable {fromUtf8 : Bytes → QString} {b b' : Bytes}

theorem eq_nil_iff (h : Lossless fromUtf8 b) : fromUtf8 b = [] ↔ b = [] := by
  rw [← QString.toUtf8_eq_nil_iff, h]

theorem inj (h : Lossless fromUtf8 b) (h' : Lossless fromUtf8 b') :
    fromUtf8 b = fromUtf8 b' ↔ b = b' := by
  refine ⟨fun heq => ?_, congrArg fromUtf8⟩
  rw [← h, heq, h']

/-- The reserved character is one byte of UTF-8. -/
theorem isReservedKey_eq (h : Lossless fromUtf8 b) :
    isReservedKey (fromUtf8 b) = WasmTokenStore.isReservedKey b := by
  have hmem := QString.one_mem_toUtf8_iff (fromUtf8 b)
  rw [h] at hmem
  rw [Bool.eq_iff_iff]
  simpa [isReservedKey, namespaceChar, WasmTokenStore.isReservedKey,
    WasmTokenStore.kNamespaceChar] using hmem.symm

end Lossless

namespace Matches
variable {fromUtf8 : Bytes → QString} {parse : Bytes → Option Json} {qt : QtImage}
  {wasm : WasmImage}

theorem fresh (fromUtf8 : Bytes → QString) : Matches fromUtf8 {} {} := by
  refine ⟨rfl, ?_, ?_, ?_⟩
  · intro b _
    simp [TokenMaps.empty, Fields.get?]
  · intro k hk
    rw [TokenManager.maps_empty] at hk
    cases hk
  · intro b hb
    cases hb

/-! ## The stores -/

/-- A save that both stores take. -/
theorem save (h : Matches fromUtf8 qt wasm) {name token : Bytes} (hname : Lossless fromUtf8 name)
    (htoken : Lossless fromUtf8 token) (hne : name ≠ [])
    (hreserved : isReservedKey (fromUtf8 name) = false) :
    Matches fromUtf8 { qt with tokens := qt.tokens.saveToken (fromUtf8 name) (fromUtf8 token) }
      { wasm with store := (wasm.store.saveOutbound name token).2 } := by
  have hwasm : WasmTokenStore.isReservedKey name = false := hname.isReservedKey_eq ▸ hreserved
  have hset : (wasm.store.saveOutbound name token).2.outbound =
      Fields.set name token wasm.store.outbound := by
    simp [WasmTokenStore.saveOutbound, hne, hwasm]
  have hmaps : (qt.tokens.saveToken (fromUtf8 name) (fromUtf8 token)).maps.outbound =
      Function.update qt.tokens.maps.outbound (fromUtf8 name) (some (fromUtf8 token)) := by
    rw [TokenManager.maps_saveToken, TokenMaps.save, hreserved]
    rfl
  refine ⟨h.hostServices, ?_, ?_, ?_⟩
  · intro b hb
    simp only [hset, hmaps, Fields.get?_set]
    by_cases heq : b = name
    · rw [if_pos heq, heq, Function.update_self, Option.map_some, htoken]
    · rw [if_neg heq, Function.update_of_ne (mt (hb.inj hname).mp heq)]
      exact h.get b hb
  · intro k hk
    simp only [hmaps] at hk
    by_cases heq : k = fromUtf8 name
    · rw [heq, hname]
    · rw [Function.update_of_ne heq] at hk
      exact h.ofQt k hk
  · intro b hb
    simp only [hset, Fields.get?_set] at hb
    by_cases heq : b = name
    · rwa [heq]
    · rw [if_neg heq] at hb
      exact h.ofWasm b hb

/-- The inbound entries are not compared. -/
theorem congr (h : Matches fromUtf8 qt wasm) {tokens : TokenManager} {store : WasmTokenStore}
    (hqt : tokens.maps.outbound = qt.tokens.maps.outbound)
    (hwasm : store.outbound = wasm.store.outbound) :
    Matches fromUtf8 { qt with tokens := tokens } { wasm with store := store } := by
  refine ⟨h.hostServices, ?_, ?_, ?_⟩
  · simpa only [hqt, hwasm] using h.get
  · simpa only [hqt] using h.ofQt
  · simpa only [hwasm] using h.ofWasm

theorem grant (h : Matches fromUtf8 qt wasm) (granted : UInt32) :
    Matches fromUtf8 { qt with hostServices := granted }
      { wasm with hostServices := granted } :=
  ⟨rfl, h.get, h.ofQt, h.ofWasm⟩

/-- The two stores list the same names. -/
theorem keys_perm (h : Matches fromUtf8 qt wasm) :
    (qt.tokens.getTokenKeys.map QString.toUtf8).Perm wasm.store.outboundKeys := by
  have hreads := qt.tokens.reads_maps
  refine (List.perm_ext_iff_of_nodup ?_ ?_).mpr ?_
  · refine List.Nodup.map_on ?_ hreads.getTokenKeys_nodup
    intro k hk k' hk' heq
    rw [← h.ofQt k ((hreads.mem_getTokenKeys k).mp hk), heq,
      h.ofQt k' ((hreads.mem_getTokenKeys k').mp hk')]
  · exact wasm.store.outbound_ordered.nodup_keys
  · intro b
    rw [WasmTokenStore.outboundKeys, ← Fields.isSome_get?_iff, List.mem_map]
    constructor
    · intro ⟨k, hk, heq⟩
      have hsome := (hreads.mem_getTokenKeys k).mp hk
      have hkey := h.ofQt k hsome
      have hb : Lossless fromUtf8 b := by rw [Lossless, ← heq, hkey]
      rw [h.get b hb, ← heq, hkey, Option.isSome_map]
      exact hsome
    · intro hb
      have hlossless := h.ofWasm b hb
      rw [h.get b hlossless, Option.isSome_map] at hb
      exact ⟨fromUtf8 b, (hreads.mem_getTokenKeys _).mpr hb, hlossless⟩

/-! ## The calls -/

/-- The same answer, from images that still match. -/
def Alike (fromUtf8 : Bytes → QString) (qt : TokenAnswer × QtImage)
    (wasm : TokenAnswer × WasmImage) : Prop :=
  qt.1.Same wasm.1 ∧ Matches fromUtf8 qt.2 wasm.2

theorem lpTokenSave (h : Matches fromUtf8 qt wasm) {name token : Bytes}
    (hname : Lossless fromUtf8 name) (htoken : Lossless fromUtf8 token) (hne : name ≠ []) :
    Alike fromUtf8 (qt.lpTokenSave fromUtf8 (some name) (some token))
      (wasm.lpTokenSave (some name) (some token)) := by
  have hwasm := hname.isReservedKey_eq
  cases hreserved : isReservedKey (fromUtf8 name) with
  | true =>
    rw [hreserved] at hwasm
    simp only [QtImage.lpTokenSave, WasmImage.lpTokenSave, WasmTokenStore.saveOutbound, hreserved,
      ← hwasm, Bool.or_true, if_true]
    exact ⟨.refl _, h⟩
  | false =>
    have htaken : (wasm.store.saveOutbound name token).1 = true := by
      simp [WasmTokenStore.saveOutbound, hne, ← hwasm, hreserved]
    simp only [QtImage.lpTokenSave, WasmImage.lpTokenSave, hreserved, htaken, if_true]
    exact ⟨.refl _, h.save hname htoken hne hreserved⟩

theorem lpTokenSaveInbound (h : Matches fromUtf8 qt wasm) {name token : Bytes}
    (hname : Lossless fromUtf8 name) (htoken : Lossless fromUtf8 token) :
    Alike fromUtf8 (qt.lpTokenSaveInbound fromUtf8 (some name) (some token))
      (wasm.lpTokenSaveInbound (some name) (some token)) := by
  have hwasm := hname.isReservedKey_eq
  by_cases hempty : name = [] ∨ token = []
  · have hqt : fromUtf8 name = [] ∨ fromUtf8 token = [] := by
      rwa [hname.eq_nil_iff, htoken.eq_nil_iff]
    have hqt' : ((fromUtf8 name).isEmpty || (fromUtf8 token).isEmpty) = true := by simpa using hqt
    have hwasm' : (name.isEmpty || token.isEmpty) = true := by simpa using hempty
    simp only [QtImage.lpTokenSaveInbound, WasmImage.lpTokenSaveInbound,
      TokenManager.saveInboundToken, WasmTokenStore.saveInbound, hqt', hwasm', Bool.true_or,
      if_true, Bool.not_false]
    exact ⟨.refl _, h⟩
  obtain ⟨hne, htne⟩ := not_or.mp hempty
  cases hreserved : isReservedKey (fromUtf8 name) with
  | true =>
    rw [hreserved] at hwasm
    simp [QtImage.lpTokenSaveInbound, WasmImage.lpTokenSaveInbound,
      TokenManager.saveInboundToken, WasmTokenStore.saveInbound, hreserved, ← hwasm]
    exact ⟨.refl _, h⟩
  | false =>
    have hqt : (qt.tokens.saveInboundToken (fromUtf8 name) (fromUtf8 token)).1 = true := by
      simp [TokenManager.saveInboundToken, hreserved, hname.eq_nil_iff, htoken.eq_nil_iff, hne,
        htne]
    have htaken : (wasm.store.saveInbound name token).1 = true := by
      simp [WasmTokenStore.saveInbound, hne, htne, ← hwasm, hreserved]
    have hsaved := h.congr (qt.tokens.outbound_saveInboundToken (fromUtf8 name) (fromUtf8 token))
      (wasm.store.outbound_saveInbound name token)
    simp only [QtImage.lpTokenSaveInbound, WasmImage.lpTokenSaveInbound, hqt, htaken,
      ← h.hostServices, Bool.not_true, Bool.false_eq_true, if_false]
    rw [h.hostServices] at hsaved ⊢
    split_ifs
    · exact ⟨.refl _, hsaved.save hname htoken hne hreserved⟩
    · exact ⟨.refl _, hsaved⟩

theorem lpTokenGet (h : Matches fromUtf8 qt wasm) {name : Bytes} (hname : Lossless fromUtf8 name) :
    qt.lpTokenGet fromUtf8 (some name) = wasm.lpTokenGet (some name) := by
  have hget := h.get name hname
  simp only [QtImage.lpTokenGet, WasmImage.lpTokenGet, WasmTokenStore.outboundToken, hget,
    qt.tokens.reads_maps.getToken]
  cases qt.tokens.maps.outbound (fromUtf8 name) with
  | none => rfl
  | some token => by_cases htoken : token = [] <;> simp [htoken]

theorem lpTokenKeys (h : Matches fromUtf8 qt wasm) : qt.lpTokenKeys.Same wasm.lpTokenKeys := by
  rw [QtImage.lpTokenKeys, WasmImage.lpTokenKeys, h.hostServices]
  split_ifs
  · exact .refl _
  · exact .reorder h.keys_perm

theorem lpGrantHostServices (h : Matches fromUtf8 qt wasm) (servicesJson : Option Bytes) :
    Alike fromUtf8 (qt.lpGrantHostServices parse servicesJson)
      (wasm.lpGrantHostServices parse servicesJson) := by
  rw [QtImage.lpGrantHostServices, WasmImage.lpGrantHostServices]
  cases grantedBy parse servicesJson with
  | none => exact ⟨.refl _, h⟩
  | some granted => exact ⟨.refl _, h.grant granted⟩

/-- A call other than a save under the empty name. -/
theorem apply (h : Matches fromUtf8 qt wasm) {call : TokenCall}
    (hcall : call.Lossless fromUtf8) (hgood : call.savesEmptyName = false) :
    Alike fromUtf8 (qt.apply fromUtf8 parse call) (wasm.apply parse call) := by
  cases call with
  | save moduleName token =>
    match moduleName, token with
    | none, token => exact ⟨.refl _, h⟩
    | some _, none => exact ⟨.refl _, h⟩
    | some name, some token =>
      have hne : name ≠ [] := by
        rintro rfl
        cases hgood
      exact h.lpTokenSave (hcall name (by simp [TokenCall.strings]))
        (hcall token (by simp [TokenCall.strings])) hne
  | saveInbound caller token =>
    match caller, token with
    | none, token => exact ⟨.refl _, h⟩
    | some _, none => exact ⟨.refl _, h⟩
    | some name, some token =>
      exact h.lpTokenSaveInbound (hcall name (by simp [TokenCall.strings]))
        (hcall token (by simp [TokenCall.strings]))
  | get moduleName =>
    cases moduleName with
    | none => exact ⟨.refl _, h⟩
    | some name =>
      have heq := h.lpTokenGet (hcall name (by simp [TokenCall.strings]))
      simp only [QtImage.apply, WasmImage.apply, heq]
      exact ⟨.refl _, h⟩
  | keys => exact ⟨h.lpTokenKeys, h⟩
  | grant servicesJson => exact h.lpGrantHostServices servicesJson

end Matches

/-- The Qt image takes a token under the empty name and the wasm image refuses it. -/
theorem not_same_of_empty {fromUtf8 : Bytes → QString} {call : TokenCall}
    (hcall : call.Lossless fromUtf8) (h : call.savesEmptyName = true) (parse : Bytes → Option Json)
    (qt : QtImage) (wasm : WasmImage) :
    ¬ (qt.apply fromUtf8 parse call).1.Same (wasm.apply parse call).1 := by
  match call, h with
  | .save (some []) (some token), _ =>
    have hempty : fromUtf8 [] = [] := by
      rw [Lossless.eq_nil_iff (hcall [] (by simp [TokenCall.strings]))]
    have hqt : (qt.apply fromUtf8 parse (.save (some []) (some token))).1 = .code lpOk := by
      simp [QtImage.apply, QtImage.lpTokenSave, hempty, isReservedKey]
    have hwasm : (wasm.apply parse (.save (some []) (some token))).1 = .code lpErrInvalidArg := by
      simp [WasmImage.apply, WasmImage.lpTokenSave, WasmTokenStore.saveOutbound]
    rw [hqt, hwasm]
    intro hsame
    cases hsame

/-- **The wasm image answers as the Qt image does exactly until a token is saved under the empty
name.** From fresh images, in any sequence of calls whose strings survive the conversion,
corresponding calls return the same code, the same token or null and the same names if and only
if no call is `lp_token_save` with the empty name. -/
theorem wasm_answers_qt_iff (fromUtf8 : Bytes → QString) (parse : Bytes → Option Json)
    (calls : List TokenCall) (hcalls : ∀ call ∈ calls, call.Lossless fromUtf8) :
    List.Forall₂ (fun qt wasm => qt.2.Same wasm.2)
        (Lockstep.trace (QtImage.apply fromUtf8 parse) {} calls)
        (Lockstep.trace (WasmImage.apply parse) {} calls) ↔
      ∀ call ∈ calls, call.savesEmptyName = false := by
  refine Lockstep.forall₂_trace_iff (R := Matches fromUtf8) ?_ ?_ (.fresh fromUtf8) hcalls
  · intro qt wasm call h hcall
    constructor
    · intro hsame
      by_contra hempty
      exact not_same_of_empty hcall (by simpa using hempty) parse qt wasm hsame
    · intro hgood
      exact (h.apply hcall hgood).1
  · intro qt wasm call h hcall hgood
    exact (h.apply hcall hgood).2

/-- A token is recorded for a caller, filed as the registry's own, and listed. -/
theorem wasm_answers_qt_registry :
    let calls := [.grant (some registryJson),
      .saveInbound (some (bstr "chat")) (some (bstr "t")), .keys, .get (some (bstr "chat"))]
    List.Forall₂ (fun qt wasm => qt.2.Same wasm.2)
      (Lockstep.trace (QtImage.apply asciiFromUtf8 parseRegistry) {} calls)
      (Lockstep.trace (WasmImage.apply parseRegistry) {} calls) :=
  (wasm_answers_qt_iff asciiFromUtf8 _ _ (by decide)).mpr (by decide)

/-- A token is saved under the empty name and read back. -/
theorem wasm_answers_qt_not_empty :
    ¬ List.Forall₂ (fun qt wasm => qt.2.Same wasm.2)
      (Lockstep.trace (QtImage.apply asciiFromUtf8 fun _ => none) {}
        [.save (some []) (some (bstr "t")), .get (some [])])
      (Lockstep.trace (WasmImage.apply fun _ => none) {}
        [.save (some []) (some (bstr "t")), .get (some [])]) := by
  intro h
  cases h with
  | cons hsave hget => cases hsave

end LogosProtocol
