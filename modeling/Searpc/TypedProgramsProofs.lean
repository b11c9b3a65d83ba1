import Searpc.ClientProofs
import Searpc.DispatchErrorProofs
import Searpc.MixedClientsProofs

/-! # Typed programs — calls with values, in two languages

    Above the transports a C program makes calls of `searpc_client_call__X`, and
    a Python program calls the stubs that `searpc_func` made for it.  Both name a
    function and pass values; what comes back is a value, or an error.

    What a function answers (`Answer`) and what a program makes of it
    (`Lang.Gets`) is said here without a text.  That the decoders do just that
    with every reply that says the answer is `gets`. -/

namespace SearpcMixed

open ByteMemory JsonValue SearpcJansson SearpcFcall SearpcCodegen SearpcGObject SearpcReply
open SearpcClient PyJson Utf8Text PySearpcDecode PySearpcServer
open SearpcPipeEnds (replyRet)

/-! ## Calls -/

/-- A call of `searpc_client_call__X`: the name, the arguments, and the return
    type, with the class of the objects to be made. -/
structure TypedCall where
  fname : Bytes
  args  : List CValue
  type  : RpcType
  gtype : GType

/-- A call of a stub: the name, the arguments, and the return type. -/
structure StubCall where
  fname : PyStr
  args  : List PyValue
  type  : RpcType

/-- A call, and for a C program what `g_malloc` hands out in it. -/
def Lang.Typed : Lang → Type
  | .c => TypedCall × Mem
  | .python => StubCall

/-- What a call returns, or raises. -/
def Lang.Outcome : Lang → Type
  | .c => Fret
  | .python => Except PyError PyRet

def Lang.fname : (l : Lang) → l.Typed → Bytes
  | .c, x => x.1.fname
  | .python, x => utf8 x.fname

def Lang.type : (l : Lang) → l.Typed → RpcType
  | .c, x => x.1.type
  | .python, x => x.type

/-- The arguments as JSON values. -/
def Lang.elements : (l : Lang) → l.Typed → List Json
  | .c, x => x.1.args.map (fun v => v.param.element)
  | .python, x => x.args.map PyValue.json

section

variable (J : Jansson) (M : JsonModule) (C : Classes)

/-- The text of a call: `fcall_to_str`. -/
def TypedCall.text (t : TypedCall) : Bytes :=
  (fcallToStr J t.fname (t.args.map (fun v => .param v.param))).getD []

/-- The text of a stub's call: `json.dumps`. -/
def StubCall.text (t : StubCall) : Bytes :=
  utf8 (M.dumps (.arr (.str (utf8 t.fname) :: t.args.map PyValue.json)))

def Lang.text : (l : Lang) → l.Typed → Bytes
  | .c, x => x.1.text J
  | .python, x => x.text M

/-- The call as it is handed to the transport. -/
def Lang.job (svcName : PyStr) : (l : Lang) → l.Typed → l.Job
  | .c, x => ((utf8 svcName, x.1.text J), x.2)
  | .python, x => (utf8 svcName, x.text M)

/-- What the call makes of what the transport returns. -/
def Lang.decode : (l : Lang) → l.Typed → l.Result → l.Outcome
  | .c, x, ret => searpcClientCallTyped J C (fun _ => ret) x.1.fname x.1.gtype
      (x.1.args.map (fun v => .param v.param)) x.1.type
  | .python, x, r => newfunc M x.type (fun _ => r) (utf8 x.fname) (x.args.map PyValue.json)

/-- A call that can be carried: name and arguments are text, or values that the
    codec carries, and a C program knows the class of the objects it asks for. -/
def Lang.Proper (Good : Json → Prop) : (l : Lang) → l.Typed → Prop
  | .c, x => Text x.1.fname ∧ (∀ v ∈ x.1.args, v.Carried Good)
      ∧ (x.1.type = .object ∨ x.1.type = .objlist → x.1.gtype ≠ 0)
      ∧ (x.1.type = .objlist → (C x.1.gtype).isSome)
  | .python, x => NoNul x.fname ∧ ∀ v ∈ x.args, v.Proper ∧ Good v.json

end

/-! ## Answers -/

/-- What a function answers. -/
inductive Answer where
  | value (v : RetVal)
  | error (code : Int32) (msg : Bytes)

/-- An answer to a call of a type, which can be carried. -/
def Answer.Carried (Good : Json → Prop) (type : RpcType) : Answer → Prop
  | .value v => v.type = type ∧ v.Carried Good
  | .error _ msg => Text msg

/-- The members of a reply say an answer. -/
def Answer.Said : Answer → List (Bytes × Json) → Prop
  | .value v, ms => ms = [(ascii "ret", v.element)]
  | .error code msg, ms => memberGet ms (ascii "err_code") = some (.int code.toInt)
      ∧ memberGet ms (ascii "err_msg") = some (.str msg)

/-- `key.replace('-', '_')`. -/
def underscore (key : Bytes) : Bytes := key.map (fun b => if b = 0x2D then 0x5F else b)

/-- The `_dict` of a `_SearpcObj`. -/
def attributes (members : List (Bytes × Json)) : PyObj :=
  members.foldl (fun obj m => memberSet obj (underscore m.1) m.2) []

/-- The value a stub gives for a function's: `None` for `NULL` and for what is
    false in Python, where the stub asks for that, and the attributes of an
    object. -/
def pyReceived : RetVal → PyRet
  | .string none => .value .null
  | .string (some s) => .value (.str s)
  | .int ret => .value (.int ret.toInt)
  | .int64 ret => .value (.int ret.toInt)
  | .object none => .none
  | .object (some o) =>
      if (serializeProps [] o.props).isEmpty then .none
      else .object (attributes (serializeProps [] o.props))
  | .objlist os => .objlist (os.map (fun o => attributes (serializeProps [] o.props)))
  | .json none => .none
  | .json (some v) => if truthy v then .value v else .none

/-- What a program should get for an answer: in C the value with its objects
    rebuilt, or the error; in Python the value, or `SearpcError`. -/
def Lang.Gets (C : Classes) : (l : Lang) → l.Typed → Answer → l.Outcome → Prop
  | .c, x, .value v, o => ∃ got, o = some (got, none) ∧ v.Received C x.1.gtype got
  | .c, x, .error code msg, o => o = some (failedRet x.1.type, some ⟨.dft, code, msg⟩)
  | .python, _, .value v, o => o = Except.ok (pyReceived v)
  | .python, _, .error _ msg, o => o = Except.error (.searpcError (.str msg))

/-! ## Python's objects -/

theorem memberGet_mem {ms : List (Bytes × Json)} (hnd : (ms.map Prod.fst).Nodup)
    {m : Bytes × Json} (hm : m ∈ ms) : memberGet ms m.1 = some m.2 := by
  induction ms with
  | nil => exact absurd hm List.not_mem_nil
  | cons n ms ih =>
      obtain ⟨k, v⟩ := n
      obtain ⟨hfresh, hnd⟩ := List.nodup_cons.mp hnd
      rw [memberGet_cons]
      rcases List.mem_cons.mp hm with rfl | hm
      · exact if_pos rfl
      · have hmem : m.1 ∈ ms.map Prod.fst := List.mem_map_of_mem hm
        have hne : k ≠ m.1 := fun heq => hfresh (heq ▸ hmem)
        rw [if_neg hne]
        exact ih hnd hm

theorem searpcObjLoop_foldl {ms : List (Bytes × Json)} (hnd : (ms.map Prod.fst).Nodup) :
    ∀ (sub : List (Bytes × Json)) (newDict : PyObj), (∀ m ∈ sub, m ∈ ms) →
      searpcObjLoop (.obj ms) newDict (sub.map (fun m => .str m.1))
        = .ok (sub.foldl (fun obj m => memberSet obj (underscore m.1) m.2) newDict) := by
  intro sub
  induction sub with
  | nil => exact fun _ _ => rfl
  | cons m sub ih =>
      intro newDict hsub
      obtain ⟨hm, hsub⟩ := List.forall_mem_cons.mp hsub
      refine Eq.trans ?_ (ih (memberSet newDict (underscore m.1) m.2) hsub)
      simp only [List.map_cons, searpcObjLoop, subscript, memberGet_mem hnd hm]
      rfl

/-- A dict makes an object with its members for attributes. -/
theorem searpcObj_dict {ms : List (Bytes × Json)} (hnd : (ms.map Prod.fst).Nodup) :
    searpcObj (.obj ms) = .ok (attributes ms) :=
  searpcObjLoop_foldl hnd ms [] (fun _ hm => hm)

theorem memberSet_fst (ms : List (Bytes × Json)) (k : Bytes) (v : Json) :
    (memberSet ms k v).map Prod.fst = ms.map Prod.fst
      ∨ k ∉ ms.map Prod.fst ∧ (memberSet ms k v).map Prod.fst = ms.map Prod.fst ++ [k] := by
  induction ms with
  | nil => exact Or.inr ⟨List.not_mem_nil, rfl⟩
  | cons m ms ih =>
      obtain ⟨j, w⟩ := m
      by_cases hj : j = k
      · rw [memberSet, if_pos hj]
        exact Or.inl rfl
      · rw [memberSet, if_neg hj]
        rcases ih with hsame | ⟨hfresh, hmore⟩
        · exact Or.inl (congrArg (j :: ·) hsame)
        · refine Or.inr ⟨?_, congrArg (j :: ·) hmore⟩
          rw [List.map_cons, List.mem_cons, not_or]
          exact ⟨Ne.symm hj, hfresh⟩

/-- Setting a member keeps the keys distinct. -/
theorem memberSet_nodup {ms : List (Bytes × Json)} (h : (ms.map Prod.fst).Nodup) (k : Bytes)
    (v : Json) : ((memberSet ms k v).map Prod.fst).Nodup := by
  rcases memberSet_fst ms k v with hsame | ⟨hfresh, hmore⟩
  · rw [hsame]
    exact h
  · rw [hmore]
    exact List.nodup_append_comm.mp (List.nodup_cons.mpr ⟨hfresh, h⟩)

/-- The members of a serialised object are distinct. -/
theorem serializeProps_nodup {props : List (Bytes × GValue)} :
    ∀ {ms : List (Bytes × Json)}, (ms.map Prod.fst).Nodup →
      ((serializeProps ms props).map Prod.fst).Nodup := by
  induction props with
  | nil => exact fun h => h
  | cons p props ih =>
      intro ms h
      obtain ⟨name, value⟩ := p
      rw [serializeProps]
      cases jsonSerializePspec value with
      | none => exact ih h
      | some v => exact ih (memberSet_nodup h name v)

theorem searpcObj_serialize (o : GObject) :
    searpcObj (jsonGobjectSerialize o) = .ok (attributes (serializeProps [] o.props)) :=
  searpcObj_dict (serializeProps_nodup List.nodup_nil)

theorem mapM_serialize (os : List GObject) : (os.map jsonGobjectSerialize).mapM searpcObj
    = .ok (os.map (fun o => attributes (serializeProps [] o.props))) := by
  induction os with
  | nil => rfl
  | cons o os ih =>
      rw [List.map_cons, List.mapM_cons, searpcObj_serialize, ih]
      rfl

/-! ## Decoders on what a function says -/

/-- **A STUB'S VALUE**: what it makes of a reply that says a value of its type. -/
theorem fret_ret {loads : Bytes → Option Json} {r : Bytes} (v : RetVal)
    (hload : loads r = some (.obj [(ascii "ret", v.element)])) :
    fret loads r v.type = .ok (pyReceived v) := by
  have hne : ascii "ret" ≠ ascii "err_code" := by decide
  have hcommon : fretCommon loads r = .ok (.obj [(ascii "ret", v.element)]) := by
    simp only [fretCommon, hload, contains, memberGet_cons, if_neg hne, memberGet_nil]
    rfl
  have hsub : subscript (.obj [(ascii "ret", v.element)]) (.str (ascii "ret"))
      = .ok v.element := by
    simp only [subscript, memberGet_cons, if_pos]
  have hmember : retMember (.obj [(ascii "ret", v.element)]) = .ok (.value v.element) := by
    simp only [retMember, contains, memberGet_cons, if_pos, hsub]
    rfl
  have htail : fret loads r v.type = fretTail v.type (.obj [(ascii "ret", v.element)]) := by
    rw [fret_eq, hcommon]
    rfl
  cases v with
  | string ret => cases ret <;> exact htail.trans hmember
  | int ret => exact htail.trans hmember
  | int64 ret => exact htail.trans hmember
  | object ret =>
      rw [htail, RetVal.type, fretTail, hsub]
      cases ret with
      | none => rfl
      | some o =>
          simp only [bind, Except.bind, RetVal.element, searpcObj_serialize]
          rw [jsonGobjectSerialize, truthy, pyReceived]
          cases (serializeProps [] o.props).isEmpty <;> rfl
  | objlist ret =>
      rw [htail, RetVal.type, fretTail, hsub]
      cases ret with
      | nil => rfl
      | cons o os =>
          have htrue : truthy (RetVal.objlist (o :: os)).element = true := rfl
          have hiter : iterate (RetVal.objlist (o :: os)).element
              = .ok ((o :: os).map jsonGobjectSerialize) := rfl
          simp only [bind, Except.bind, htrue, if_true, hiter, mapM_serialize]
          rfl
  | json ret =>
      cases ret with
      | none => exact fretJson_valueReply hload
      | some v => exact fretJson_valueReply hload

/-- The C library's reading of a reply, and Python's. -/
def Lang.Reads (J : Jansson) (M : JsonModule) : Lang → Bytes → List (Bytes × Json) → Prop
  | .c, r, ms => J.loadb r = .ok (.obj ms)
  | .python, r, ms => M.loads r = some (.obj ms)

/-- `handle_ret_common` on a reply that says an answer. -/
theorem handleRetCommon_said {J : Jansson} {r : Bytes} {ms : List (Bytes × Json)} {a : Answer}
    {Good : Json → Prop} {type : RpcType} (ha : a.Carried Good type) (hsaid : a.Said ms)
    (hload : J.loadb r = .ok (.obj ms)) :
    handleRetCommon J r = match a with
      | .value v => .ok (.obj [(ascii "ret", v.element)])
      | .error code msg => .error ⟨.dft, code, msg⟩ := by
  cases a with
  | value v =>
      obtain rfl : ms = [(ascii "ret", v.element)] := hsaid
      have hne : ascii "ret" ≠ ascii "err_code" := by decide
      simp only [handleRetCommon, hload, jsonObjectGet, memberGet_cons, if_neg hne, memberGet_nil]
  | error code msg =>
      obtain ⟨hcode, hmsg⟩ := hsaid
      have htext : Text msg := ha
      simp only [handleRetCommon, hload, jsonObjectGet, hcode, hmsg, jsonIntegerValue,
        Int32.ofInt_toInt, jsonStringValue, cstr_eq_self htext.2]
      rfl

variable {J : Jansson} {Good : Json → Prop} {M : JsonModule} {C : Classes}

/-- **DECODED AS ANSWERED**: a call whose reply says an answer gets that answer. -/
theorem gets (hJ : RoundTrips J Good) (l : Lang) {x : l.Typed} (hx : l.Proper C Good x)
    {a : Answer} (ha : a.Carried Good (l.type x)) {r : Bytes} {ms : List (Bytes × Json)}
    (hsaid : a.Said ms) (hread : l.Reads J M r ms) (hne : r ≠ []) :
    l.Gets C x a (l.decode J M C x (l.result r)) := by
  cases l with
  | c =>
      obtain ⟨hname, hargs, htype, hclass⟩ := hx
      obtain ⟨text, htext, -⟩ := fcallToStr_load hJ hname hargs
      have hret : replyRet r = some (r, r.length) :=
        if_neg (Nat.ne_of_gt (List.length_pos_iff.mpr hne))
      have hdecode : Lang.decode J M C .c x (replyRet r)
          = searpcClientFret J C x.1.gtype r x.1.type := by
        refine (typedExchange_run htype J C _ x.1.fname _).symm.trans ?_
        simp only [typedExchange, exchangeWith, htext, Exchange.run, hret, List.take_length]
      have hcommon := handleRetCommon_said ha hsaid hread
      show Lang.Gets C .c x a (Lang.decode J M C .c x (replyRet r))
      rw [hdecode]
      cases a with
      | value v =>
          obtain ⟨hv, hcarried⟩ := ha
          have hv' : v.type = x.1.type := hv
          rw [← hv']
          exact decode_element (fun h => hclass (hv' ▸ h)) hcarried hcommon
      | error code msg => exact searpcClientFret_of_common hcommon _ _ _
  | python =>
      show Lang.Gets C .python x a (fret M.loads r x.type)
      cases a with
      | value v =>
          obtain ⟨hv, -⟩ := ha
          have hv' : v.type = x.type := hv
          rw [← hv']
          exact fret_ret v (hsaid ▸ hread)
      | error code msg => exact fret_error hread hsaid.1 hsaid.2 _

/-! ## Texts of calls -/

/-- The stub's text is that of the printer for Python's own values. -/
theorem stub_text (floatRepr : UInt64 → PyStr) (loads : Bytes → Option Json) (t : StubCall) :
    t.text (pyModule floatRepr loads) = utf8 (PyClient.stubFcallStr t.fname t.args) := by
  have h := dumpsJson_json floatRepr (.list (.str t.fname :: t.args))
  rw [PyValue.json, jsonList_eq] at h
  exact congrArg utf8 h

/-- **A C TEXT** is the call printed, and is text. -/
theorem c_text (hJ : RoundTrips J Good) (hutf : PrintsUtf8 J Good) {t : TypedCall}
    (hname : Text t.fname) (hargs : ∀ v ∈ t.args, v.Carried Good) :
    t.text J = J.dumps (.arr (.str t.fname :: t.args.map (fun v => v.param.element))) true
      ∧ Text (t.text J)
      ∧ ∀ v ∈ Json.str t.fname :: t.args.map (fun v => v.param.element), Good v := by
  have hps : ∀ p ∈ t.args.map CValue.param, p.Utf8 := by
    intro p hp
    obtain ⟨v, hv, rfl⟩ := List.mem_map.mp hp
    exact (hargs v hv).utf8
  have harr := fcallArray_params t.fname (t.args.map CValue.param)
  rw [elements_eq hps, cstr_eq_self hname.2, if_pos hname.1, List.map_map, List.map_map] at harr
  have htext : t.text J
      = J.dumps (.arr (.str t.fname :: t.args.map (fun v => v.param.element))) true := by
    rw [TypedCall.text, fcallToStr, show (fun v : CValue => Arg.param v.param)
      = Arg.param ∘ CValue.param from rfl, harr]
    rfl
  have hgood : ∀ v ∈ Json.str t.fname :: t.args.map (fun v => v.param.element), Good v := by
    refine List.forall_mem_cons.mpr ⟨hJ.str _ hname, fun v hv => ?_⟩
    obtain ⟨u, hu, rfl⟩ := List.mem_map.mp hv
    exact (hargs u hu).good hJ
  refine ⟨htext, ?_, hgood⟩
  rw [htext]
  exact ⟨hutf _ true hgood, hJ.text_no_nul _ _⟩

/-- A job that is properly spelled. -/
theorem job_spelled (hJ : RoundTrips J Good) (hutf : PrintsUtf8 J Good)
    (floatRepr : UInt64 → PyStr) (loads : Bytes → Option Json) {svcName : PyStr}
    (hsvc : NoNul svcName) (l : Lang) {x : l.Typed} (hx : l.Proper C Good x) :
    l.Spelled (l.job J (pyModule floatRepr loads) svcName x) := by
  cases l with
  | c => exact ⟨text_utf8 hsvc, (c_text hJ hutf hx.1 hx.2.1).2.1⟩
  | python =>
      obtain ⟨hname, hargs⟩ := hx
      refine ⟨svcName, PyClient.stubFcallStr x.fname x.args, hsvc,
        noNul_dumps (PyClient.proper_call hname (fun v hv => (hargs v hv).1)), ?_⟩
      exact congrArg (Prod.mk (utf8 svcName)) (stub_text floatRepr loads x)

/-- The call of a job. -/
theorem job_call (svcName : PyStr) (l : Lang) (x : l.Typed) :
    l.call (l.job J M svcName x) = (utf8 svcName, l.text J M x) := by
  cases l <;> rfl

end SearpcMixed
