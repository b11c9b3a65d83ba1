import Searpc.PyDecodeProofs
import Searpc.ServerProofs
import Searpc.Utf8Proofs

/-! # Error replies of dispatch — complete, unless a character is cut

    The three error branches of `searpc_server_call_function` format a name or
    a text into a buffer of fixed size.  `snprintf` counts bytes, the JSON
    encoder wants whole characters: a message that ends inside a character is
    no string, `json_string` makes no value of it and the reply goes out
    without `err_msg`.  The C client then reports `(null)`, and every Python
    decoder raises a `KeyError`. -/

namespace SearpcDispatchError

open ByteMemory JsonValue SearpcJansson SearpcReply SearpcServer PySearpcDecode Utf8Text

variable {F M ρ : Type}

/-! ## What is relied on -/

/-- The texts of `json_error_t`: UTF-8 in a field of `JSON_ERROR_TEXT_LENGTH`
    (160) bytes, the terminating NUL included. -/
def ErrorTexts (J : Jansson) : Prop :=
  ∀ s text, J.loadb s = .error text → utf8Valid (cstr text) = true ∧ (cstr text).length < 160

/-- Strings of parsed text are UTF-8. -/
def NameIsUtf8 (J : Jansson) (func : Bytes) : Prop :=
  ∀ name rest, J.loadb func = .ok (.arr (.str name :: rest)) → utf8Valid (cstr name) = true

/-- Python's parser reads an object that the C library printed as the C library
    does. -/
def ReadsObjects (J : Jansson) (Good : Json → Prop) (loads : Bytes → Option Json) : Prop :=
  ∀ ms c, (∀ m ∈ ms, Text m.1 ∧ Good m.2) → (ms.map Prod.fst).Nodup →
    loads (J.dumps (.obj ms) c) = some (.obj ms)

/-! ## The branches -/

/-- The error branch a call takes: its code and the message it formats. -/
inductive Branch (J : Jansson) (R : Registry F M) (svcName func : Bytes) :
    Int → Bytes → Prop where
  | service : lookup R.serviceTable svcName = none →
      Branch J R svcName func 501
        (snprintf 255 (ascii "cannot find service " ++ svcName ++ ascii "."))
  | load {service : Service F M} {text : Bytes} :
      lookup R.serviceTable svcName = some service → J.loadb func = .error text →
      Branch J R svcName func 511
        (snprintf 511 (ascii "failed to load RPC call: " ++ cstr text ++ ascii "\n"))
  | function {service : Service F M} {name : Bytes} {rest : List Json} :
      lookup R.serviceTable svcName = some service →
      J.loadb func = .ok (.arr (.str name :: rest)) →
      lookup service.funcTable (cstr name) = none →
      Branch J R svcName func 500
        (snprintf 255 (ascii "cannot find function " ++ cstr name ++ ascii "."))

/-- A complete error reply: an object with the code and the message, for which
    the C client sets that error and every Python decoder raises
    `SearpcError`. -/
def CompleteReply (J : Jansson) (loads : Bytes → Option Json) (code : Int) (msg text : Bytes) :
    Prop :=
  ∃ members, J.loadb text = .ok (.obj members)
    ∧ memberGet members (ascii "err_code") = some (.int code)
    ∧ memberGet members (ascii "err_msg") = some (.str msg)
    ∧ (∀ C gtype type, searpcClientFret J C gtype text type
        = some (failedRet type, some ⟨.dft, Int32.ofInt code, msg⟩))
    ∧ ∀ type, fret loads text type = .error (.searpcError (.str msg))

/-- No message is cut inside a character: 254 bytes fit, 20 or 21 of them
    before the name. -/
structure Uncut (J : Jansson) (R : Registry F M) (svcName func : Bytes) : Prop where
  service : lookup R.serviceTable svcName = none → utf8Valid (svcName.take 234) = true
  function : ∀ service name rest, lookup R.serviceTable svcName = some service →
    J.loadb func = .ok (.arr (.str name :: rest)) → lookup service.funcTable (cstr name) = none →
    utf8Valid ((cstr name).take 233) = true

/-! ## Messages -/

theorem errorMembers_valid (code : Int) {msg : Bytes} (h : utf8Valid msg = true) :
    errorMembers code msg = [(ascii "err_code", .int code), (ascii "err_msg", .str msg)] := by
  have hne : ascii "err_code" ≠ ascii "err_msg" := by decide
  simp only [errorMembers, jsonObjectSetStringOrNullMember, jsonString_of_valid h,
    jsonObjectSetNew, memberSet, if_neg hne]

theorem errorMembers_invalid (code : Int) {msg : Bytes} (h : ¬ utf8Valid msg = true) :
    errorMembers code msg = [(ascii "err_code", .int code)] := by
  simp only [errorMembers, jsonObjectSetStringOrNullMember, jsonString, if_neg h,
    jsonObjectSetNew, memberSet]

section Reply

variable {J : Jansson} {Good : Json → Prop} {loads : Bytes → Option Json}

/-- What `error_to_json` prints, with and without a message, parses back. -/
theorem loadb_errorToJson (hJ : RoundTrips J Good) (hpy : ReadsObjects J Good loads) {code : Int}
    (hcode : IntRange code) {msg : Bytes} (hnul : (0 : UInt8) ∉ msg) :
    J.loadb (errorToJson J code msg) = .ok (.obj (errorMembers code msg))
      ∧ loads (errorToJson J code msg) = some (.obj (errorMembers code msg)) := by
  have hkeys : Text (ascii "err_code") ∧ Text (ascii "err_msg")
      ∧ [ascii "err_code", ascii "err_msg"].Nodup ∧ [ascii "err_code"].Nodup := by decide
  have hgood : (∀ m ∈ errorMembers code msg, Text m.1 ∧ Good m.2)
      ∧ ((errorMembers code msg).map Prod.fst).Nodup := by
    by_cases h : utf8Valid msg = true
    · rw [errorMembers_valid code h]
      refine ⟨?_, hkeys.2.2.1⟩
      intro m hm
      rcases List.mem_cons.mp hm with rfl | hm
      · exact ⟨hkeys.1, hJ.int code hcode⟩
      · rw [List.mem_singleton.mp hm]
        exact ⟨hkeys.2.1, hJ.str msg ⟨h, hnul⟩⟩
    · rw [errorMembers_invalid code h]
      refine ⟨?_, hkeys.2.2.2⟩
      intro m hm
      rw [List.mem_singleton.mp hm]
      exact ⟨hkeys.1, hJ.int code hcode⟩
  exact ⟨hJ.object _ true hgood.1 hgood.2, hpy _ true hgood.1 hgood.2⟩

/-- A message that is UTF-8 makes a complete reply. -/
theorem completeReply_of_valid (hJ : RoundTrips J Good) (hpy : ReadsObjects J Good loads)
    {code : Int} (hcode : IntRange code) {msg : Bytes} (h : Text msg) :
    CompleteReply J loads code msg (errorToJson J code msg) := by
  obtain ⟨hload, hpyload⟩ := loadb_errorToJson hJ hpy hcode h.2
  have hne : ascii "err_code" ≠ ascii "err_msg" := by decide
  rw [errorMembers_valid code h.1] at hload hpyload
  have hget : memberGet [(ascii "err_code", .int code), (ascii "err_msg", .str msg)]
        (ascii "err_code") = some (.int code)
      ∧ memberGet [(ascii "err_code", .int code), (ascii "err_msg", .str msg)]
        (ascii "err_msg") = some (.str msg) := by
    simp only [memberGet_cons, if_neg hne, if_true, and_self]
  have hcommon : handleRetCommon J (errorToJson J code msg)
      = .error ⟨.dft, Int32.ofInt code, msg⟩ := by
    simp only [handleRetCommon, hload, jsonObjectGet, hget, jsonIntegerValue, jsonStringValue,
      cstr_eq_self h.2]
    rfl
  exact ⟨_, hload, hget.1, hget.2, searpcClientFret_of_common hcommon,
    fret_error hpyload hget.1 hget.2⟩

/-- A message that is not UTF-8 is lost: the C client reports `(null)`, and
    every Python decoder raises a `KeyError`. -/
theorem lostMessage_of_invalid (hJ : RoundTrips J Good) (hpy : ReadsObjects J Good loads)
    {code : Int} (hcode : IntRange code) {msg : Bytes} (hnul : (0 : UInt8) ∉ msg)
    (hinv : ¬ utf8Valid msg = true) :
    (∀ C gtype type, searpcClientFret J C gtype (errorToJson J code msg) type
        = some (failedRet type, some ⟨.dft, Int32.ofInt code, ascii "(null)"⟩))
      ∧ ∀ type, fret loads (errorToJson J code msg) type = .error .keyError := by
  obtain ⟨hload, hpyload⟩ := loadb_errorToJson hJ hpy hcode hnul
  have hne : ascii "err_code" ≠ ascii "err_msg" := by decide
  rw [errorMembers_invalid code hinv] at hload hpyload
  have hget : memberGet [(ascii "err_code", .int code)] (ascii "err_code") = some (.int code)
      ∧ memberGet [(ascii "err_code", .int code)] (ascii "err_msg") = none := by
    simp only [memberGet_cons, if_neg hne, if_true, memberGet_nil, and_self]
  have hcommon : handleRetCommon J (errorToJson J code msg)
      = .error ⟨.dft, Int32.ofInt code, ascii "(null)"⟩ := by
    simp only [handleRetCommon, hload, jsonObjectGet, hget, jsonIntegerValue, jsonStringValue]
    rfl
  exact ⟨searpcClientFret_of_common hcommon, fret_error_no_msg hpyload hget.1 hget.2⟩

/-- A message that is not UTF-8 makes no complete reply, with any message. -/
theorem valid_of_completeReply (hJ : RoundTrips J Good) (hpy : ReadsObjects J Good loads)
    {code : Int} (hcode : IntRange code) {msg m : Bytes} (hnul : (0 : UInt8) ∉ msg)
    (h : CompleteReply J loads code m (errorToJson J code msg)) : utf8Valid msg = true := by
  by_contra hinv
  obtain ⟨-, -, -, -, -, hpython⟩ := h
  have hlost := (lostMessage_of_invalid hJ hpy hcode hnul hinv).2 .int
  rw [hpython] at hlost
  cases hlost

end Reply

/-- A name in a message of the size of the buffer: well-formed exactly when the
    name is not cut inside a character. -/
theorem snprintf_valid {before name : Bytes} (hbefore : Text before)
    (hname : utf8Valid name = true) {size n : Nat} (hsize : size - 1 = before.length + n) :
    utf8Valid (snprintf size (before ++ name ++ ascii ".")) = utf8Valid (name.take n) := by
  have hafter : ∀ k, utf8Valid ((ascii ".").take k) = true := by
    intro k
    cases k with
    | zero => rfl
    | succ k =>
        rw [List.take_of_length_le (Nat.le_add_left 1 k)]
        decide
  rw [snprintf, hsize]
  exact utf8Valid_take_message n hbefore.1 hname hafter

theorem snprintf_no_nul (size : Nat) {before name after : Bytes} (hbefore : (0 : UInt8) ∉ before)
    (hname : (0 : UInt8) ∉ name) (hafter : (0 : UInt8) ∉ after) :
    (0 : UInt8) ∉ snprintf size (before ++ name ++ after) := by
  intro h
  have hmem := List.mem_of_mem_take h
  simp only [List.mem_append] at hmem
  rcases hmem with (hmem | hmem) | hmem
  · exact hbefore hmem
  · exact hname hmem
  · exact hafter hmem

/-- The parser's text always fits. -/
theorem snprintf_load {text : Bytes} (hutf : utf8Valid (cstr text) = true)
    (hlen : (cstr text).length < 160) :
    Text (snprintf 511 (ascii "failed to load RPC call: " ++ cstr text ++ ascii "\n")) := by
  have hfix : Text (ascii "failed to load RPC call: ") ∧ Text (ascii "\n")
      ∧ (ascii "failed to load RPC call: ").length = 25 ∧ (ascii "\n").length = 1 := by decide
  obtain ⟨hbefore, hafter, hblen, halen⟩ := hfix
  refine ⟨?_, snprintf_no_nul 511 hbefore.2 (zero_not_mem_cstr text) hafter.2⟩
  rw [snprintf, List.take_of_length_le, List.append_assoc, utf8Valid_append _ hbefore.1,
    utf8Valid_append _ hutf]
  · exact hafter.1
  · simp only [List.length_append, hblen, halen]
    omega

/-! ## The exact condition -/

/-- The error branches are the only source of error replies. -/
theorem callFunction_errorReply_iff (J : Jansson) (R : Registry F M) (mfunc : M → F → Json → ρ)
    (slowLog : Option SlowLog) (clock : Clock) (svcName func : Bytes) (code : Int)
    (text : Bytes) :
    (searpcServerCallFunction J R mfunc slowLog clock svcName func).outcome
        = .errorReply code text
      ↔ ∃ msg, Branch J R svcName func code msg ∧ text = errorToJson J code msg := by
  constructor
  · intro h
    cases hsvc : lookup R.serviceTable svcName with
    | none =>
        simp only [searpcServerCallFunction, hsvc, Outcome.errorReply.injEq] at h
        obtain ⟨rfl, rfl⟩ := h
        exact ⟨_, .service hsvc, rfl⟩
    | some service =>
        cases hload : J.loadb func with
        | error e =>
            simp only [searpcServerCallFunction, hsvc, hload, Outcome.errorReply.injEq] at h
            obtain ⟨rfl, rfl⟩ := h
            exact ⟨_, .load hsvc hload, rfl⟩
        | ok array =>
            simp only [searpcServerCallFunction, hsvc, hload] at h
            cases hname : jsonStringValue (jsonArrayGet (some array) 0) with
            | none =>
                rw [hname] at h
                cases h
            | some fname =>
                obtain ⟨name, rest, rfl, rfl⟩ := jsonStringValue_head hname
                simp only [hname] at h
                cases hfunc : lookup service.funcTable (cstr name) with
                | none =>
                    simp only [hfunc, Outcome.errorReply.injEq] at h
                    obtain ⟨rfl, rfl⟩ := h
                    exact ⟨_, .function hsvc hload hfunc, rfl⟩
                | some fitem =>
                    simp only [hfunc] at h
                    cases h
  · rintro ⟨msg, hbranch, rfl⟩
    cases hbranch with
    | service hsvc => simp only [searpcServerCallFunction, hsvc]
    | load hsvc hload => simp only [searpcServerCallFunction, hsvc, hload]
    | function hsvc hload hfunc =>
        simp only [searpcServerCallFunction, hsvc, hload, jsonArrayGet, List.getElem?_cons_zero,
          jsonStringValue, hfunc]

/-- **ERROR REPLIES OF DISPATCH, EXACTLY**: a call that ends in an error branch
    gets a complete reply with the branch's code and message, if and only if
    the name in the message is not cut inside a character.  The keys of the
    registry are live (`SearpcRegistryCells.callFunction_agree`). -/
theorem dispatchError_complete_iff {J : Jansson} {Good : Json → Prop} (hJ : RoundTrips J Good)
    {loads : Bytes → Option Json} (hpy : ReadsObjects J Good loads) (htexts : ErrorTexts J)
    (R : Registry F M) (mfunc : M → F → Json → ρ) (slowLog : Option SlowLog) (clock : Clock)
    {svcName func : Bytes} (hsvc : Text svcName) (hname : NameIsUtf8 J func) :
    (∀ code text,
        (searpcServerCallFunction J R mfunc slowLog clock svcName func).outcome
          = .errorReply code text →
        ∃ msg, Branch J R svcName func code msg ∧ CompleteReply J loads code msg text)
      ↔ Uncut J R svcName func := by
  have hfix : Text (ascii "cannot find service ") ∧ Text (ascii "cannot find function ")
      ∧ Text (ascii ".") ∧ 255 - 1 = (ascii "cannot find service ").length + 234
      ∧ 255 - 1 = (ascii "cannot find function ").length + 233 := by decide
  obtain ⟨hs, hf, hdot, hslen, hflen⟩ := hfix
  have hcodes : IntRange 501 ∧ IntRange 511 ∧ IntRange 500 := by decide
  constructor
  · intro h
    have hvalid : ∀ code msg, IntRange code → (0 : UInt8) ∉ msg →
        Branch J R svcName func code msg → utf8Valid msg = true := by
      intro code msg hcode hnul hbranch
      obtain ⟨m, -, hreply⟩ := h code _
        ((callFunction_errorReply_iff J R mfunc slowLog clock svcName func code _).mpr
          ⟨msg, hbranch, rfl⟩)
      exact valid_of_completeReply hJ hpy hcode hnul hreply
    constructor
    · intro hlook
      rw [← snprintf_valid hs hsvc.1 hslen]
      exact hvalid 501 _ hcodes.1 (snprintf_no_nul 255 hs.2 hsvc.2 hdot.2) (.service hlook)
    · intro service name rest hlook hload hfunc
      rw [← snprintf_valid hf (hname name rest hload) hflen]
      exact hvalid 500 _ hcodes.2.2
        (snprintf_no_nul 255 hf.2 (zero_not_mem_cstr name) hdot.2) (.function hlook hload hfunc)
  · intro huncut code text hout
    obtain ⟨msg, hbranch, rfl⟩ :=
      (callFunction_errorReply_iff J R mfunc slowLog clock svcName func code text).mp hout
    refine ⟨msg, hbranch, ?_⟩
    cases hbranch with
    | service hlook =>
        refine completeReply_of_valid hJ hpy hcodes.1 ⟨?_, snprintf_no_nul 255 hs.2 hsvc.2 hdot.2⟩
        rw [snprintf_valid hs hsvc.1 hslen]
        exact huncut.service hlook
    | load hlook hload =>
        obtain ⟨hutf, hlen⟩ := htexts _ _ hload
        exact completeReply_of_valid hJ hpy hcodes.2.1 (snprintf_load hutf hlen)
    | function hlook hload hfunc =>
        refine completeReply_of_valid hJ hpy hcodes.2.2
          ⟨?_, snprintf_no_nul 255 hf.2 (zero_not_mem_cstr _) hdot.2⟩
        rw [snprintf_valid hf (hname _ _ hload) hflen]
        exact huncut.function _ _ _ hlook hload hfunc

/-! ## One name that is cut and one that is not -/

theorem textCodec_errorTexts : ErrorTexts textCodec := by
  intro s text h
  cases hload : JsonText.load s with
  | none =>
      rw [textCodec_loadb_none hload] at h
      obtain rfl := Except.error.inj h
      decide
  | some v =>
      rw [textCodec_loadb hload] at h
      cases h

/-- JSON text read by the same parser on both sides. -/
theorem textCodec_readsObjects : ReadsObjects textCodec carried JsonText.load := by
  intro ms c hgood hnodup
  have hload := textCodec_roundTrips.object ms c hgood hnodup
  cases hv : JsonText.load (textCodec.dumps (.obj ms) c) with
  | none =>
      rw [textCodec_loadb_none hv] at hload
      cases hload
  | some v =>
      rw [textCodec_loadb hv] at hload
      rw [Except.ok.inj hload]

/-- The call `[]` names nothing. -/
theorem nameIsUtf8_empty : NameIsUtf8 textCodec (ascii "[]") := by
  intro name rest h
  have hload : textCodec.loadb (ascii "[]") = .ok (.arr []) := by decide +kernel
  rw [hload] at h
  cases h

/-- A name of 300 letters is cut, between two letters. -/
theorem dispatchError_complete_letters :
    ∃ text msg,
      (searpcServerCallFunction textCodec emptyService (fun _ _ _ => ()) none ⟨0, 0⟩
        (List.replicate 300 0x61) (ascii "[]")).outcome = .errorReply 501 text
      ∧ Branch textCodec emptyService (List.replicate 300 0x61) (ascii "[]") 501 msg
      ∧ CompleteReply textCodec JsonText.load 501 msg text := by
  have hunknown : lookup emptyService.serviceTable (List.replicate 300 0x61) = none := by decide
  have huncut : Uncut textCodec emptyService (List.replicate 300 0x61) (ascii "[]") := by
    refine ⟨fun _ => by decide +kernel, ?_⟩
    intro service name rest hsvc
    rw [hunknown] at hsvc
    cases hsvc
  have hout := (callFunction_errorReply_iff textCodec emptyService (fun _ _ _ => ()) none ⟨0, 0⟩
    (List.replicate 300 0x61) (ascii "[]") 501 _).mpr ⟨_, .service hunknown, rfl⟩
  obtain ⟨msg, hbranch, hreply⟩ := (dispatchError_complete_iff textCodec_roundTrips
    textCodec_readsObjects textCodec_errorTexts emptyService (fun _ _ _ => ()) none ⟨0, 0⟩
    (by decide +kernel) nameIsUtf8_empty).mpr huncut 501 _ hout
  exact ⟨_, msg, hout, hbranch, hreply⟩

/-- A name of 233 letters and an `é`, of which the buffer keeps one byte. -/
def cutName : Bytes := List.replicate 233 0x61 ++ [0xC3, 0xA9]

/-- The reply to a call of an unknown service with that name has no message. -/
theorem dispatchError_cut :
    ¬ ∀ (svcName func : Bytes), Text svcName → NameIsUtf8 textCodec func → ∀ code text,
        (searpcServerCallFunction textCodec emptyService (fun _ _ _ => ()) none ⟨0, 0⟩ svcName
          func).outcome = .errorReply code text →
        ∃ msg, Branch textCodec emptyService svcName func code msg
          ∧ CompleteReply textCodec JsonText.load code msg text := by
  intro h
  have hname : Text cutName ∧ lookup emptyService.serviceTable cutName = none
      ∧ ¬ utf8Valid (cutName.take 234) = true ∧ IntRange 501 := by decide +kernel
  have hfix : Text (ascii "cannot find service ") ∧ Text (ascii ".")
      ∧ 255 - 1 = (ascii "cannot find service ").length + 234 := by decide
  have hout := (callFunction_errorReply_iff textCodec emptyService (fun _ _ _ => ()) none ⟨0, 0⟩
    cutName (ascii "[]") 501 _).mpr ⟨_, .service hname.2.1, rfl⟩
  obtain ⟨msg, -, hreply⟩ := h cutName (ascii "[]") hname.1 nameIsUtf8_empty 501 _ hout
  have hvalid := valid_of_completeReply textCodec_roundTrips textCodec_readsObjects hname.2.2.2
    (snprintf_no_nul 255 hfix.1.2 hname.1.2 hfix.2.1.2) hreply
  rw [snprintf_valid hfix.1 hname.1.1 hfix.2.2] at hvalid
  exact hname.2.2.1 hvalid

end SearpcDispatchError
