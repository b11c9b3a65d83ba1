import Mathlib.Data.List.Forall2
import Searpc.GObjectProofs
import Searpc.JanssonProofs

/-! # Replies — from the value a function returns to the value a caller gets

    The server puts the value under `ret` and, when the function reported an
    error, adds `err_code` and `err_msg` to the same object; the client takes
    the PRESENCE of `err_code` for an error, whatever `ret` holds.  Six encoders
    and six decoders share this convention, one pair for each return type.

    User data never reaches the level of `err_code`: it sits below `ret`, which
    is why a value may contain anything and still come through. -/

namespace SearpcReply

open ByteMemory JsonValue SearpcJansson SearpcGObject

/-- The types of the RPC layer. -/
inductive RpcType where
  | string
  | int
  | int64
  | object
  | objlist
  | json
deriving DecidableEq, Repr

/-- What a function returns, or a caller gets.  A `NULL` list is the empty
    list. -/
inductive RetVal where
  | string (ret : Option Bytes)
  | int (ret : Int32)
  | int64 (ret : Int64)
  | object (ret : Option GObject)
  | objlist (ret : List GObject)
  | json (ret : Option Json)

/-- The return type a value belongs to. -/
def RetVal.type : RetVal → RpcType
  | .string _ => .string
  | .int _ => .int
  | .int64 _ => .int64
  | .object _ => .object
  | .objlist _ => .objlist
  | .json _ => .json

/-- The two error domains in use. -/
inductive Domain where
  | dft
  | searpcJson
deriving DecidableEq, Repr

/-- A `GError`. -/
structure GError where
  domain  : Domain
  code    : Int32
  message : Bytes
deriving DecidableEq

/-! ## The server side -/

/-- `searpc_set_string_to_ret_object`. -/
def searpcSetStringToRetObject (object : List (Bytes × Json)) :
    Option Bytes → List (Bytes × Json)
  | none => jsonObjectSetNew object (ascii "ret") (some .null)
  | some ret => jsonObjectSetNew object (ascii "ret") (jsonString (cstr ret))

/-- `searpc_set_int_to_ret_object`. -/
def searpcSetIntToRetObject (object : List (Bytes × Json)) (ret : Int) : List (Bytes × Json) :=
  jsonObjectSetNew object (ascii "ret") (some (.int ret))

/-- `searpc_set_object_to_ret_object`. -/
def searpcSetObjectToRetObject (object : List (Bytes × Json)) :
    Option GObject → List (Bytes × Json)
  | none => jsonObjectSetNew object (ascii "ret") (some .null)
  | some ret => jsonObjectSetNew object (ascii "ret") (some (jsonGobjectSerialize ret))

/-- The loop of `searpc_set_objlist_to_ret_object`. -/
def serializeList (array : List Json) : List GObject → List Json
  | [] => array
  | gobject :: rest =>
      serializeList (jsonArrayAppendNew array (some (jsonGobjectSerialize gobject))) rest

/-- `searpc_set_objlist_to_ret_object`. -/
def searpcSetObjlistToRetObject (object : List (Bytes × Json)) :
    List GObject → List (Bytes × Json)
  | [] => jsonObjectSetNew object (ascii "ret") (some .null)
  | gobject :: rest =>
      jsonObjectSetNew object (ascii "ret") (some (.arr (serializeList [] (gobject :: rest))))

/-- `searpc_set_json_to_ret_object`. -/
def searpcSetJsonToRetObject (object : List (Bytes × Json)) : Option Json → List (Bytes × Json)
  | none => jsonObjectSetNew object (ascii "ret") (some .null)
  | some ret => jsonObjectSetNew object (ascii "ret") (some ret)

/-- The members `searpc_marshal_set_ret_common` adds for an error. -/
def setError (object : List (Bytes × Json)) : Option GError → List (Bytes × Json)
  | none => object
  | some error =>
      jsonObjectSetNew
        (jsonObjectSetNew object (ascii "err_code") (some (.int error.code.toInt)))
        (ascii "err_msg") (jsonString (cstr error.message))

/-- `searpc_marshal_set_ret_common`. -/
def searpcMarshalSetRetCommon (J : Jansson) (object : List (Bytes × Json))
    (error : Option GError) : Bytes :=
  J.dumps (.obj (setError object error)) true

/-! ## The client side -/

/-- What `printf` makes of a string that may be `NULL`. -/
def printfString (s : Option Bytes) : Bytes := s.getD (ascii "(null)")

/-- `handle_ret_common`: the object, or the error it sets. -/
def handleRetCommon (J : Jansson) (data : Bytes) : Except GError Json :=
  match J.loadb data with
  | .error text => .error ⟨.searpcJson, 0, cstr text⟩
  | .ok object =>
      match jsonObjectGet (some object) (ascii "err_code") with
      | some code =>
          .error ⟨.dft, Int32.ofInt (jsonIntegerValue (some code)),
            printfString (jsonStringValue (jsonObjectGet (some object) (ascii "err_msg")))⟩
      | none => .ok object

/-- What a decoder leaves: a value and maybe an error, or nothing when an
    assertion fails. -/
abbrev Fret := Option (RetVal × Option GError)

/-- The value a decoder returns beside an error. -/
def failedRet : RpcType → RetVal
  | .string => .string none
  | .int => .int (-1)
  | .int64 => .int64 (-1)
  | .object => .object none
  | .objlist => .objlist []
  | .json => .json none

/-- What all decoders share: the error convention first, then the member
    `ret`. -/
def fretWith (J : Jansson) (data : Bytes) (type : RpcType) (decode : Option Json → Fret) : Fret :=
  match handleRetCommon J data with
  | .error error => some (failedRet type, some error)
  | .ok object => decode (jsonObjectGet (some object) (ascii "ret"))

def decodeString (ret : Option Json) : Fret := some (.string (jsonStringValue ret), none)

/-- `searpc_client_fret__string`. -/
def searpcClientFretString (J : Jansson) (data : Bytes) : Fret :=
  fretWith J data .string decodeString

def decodeInt (ret : Option Json) : Fret :=
  some (.int (Int32.ofInt (jsonIntegerValue ret)), none)

/-- `searpc_client_fret__int`. -/
def searpcClientFretInt (J : Jansson) (data : Bytes) : Fret := fretWith J data .int decodeInt

def decodeInt64 (ret : Option Json) : Fret :=
  some (.int64 (Int64.ofInt (jsonIntegerValue ret)), none)

/-- `searpc_client_fret__int64`. -/
def searpcClientFretInt64 (J : Jansson) (data : Bytes) : Fret := fretWith J data .int64 decodeInt64

/-- `json_gobject_deserialize` reads a missing member like any value that is
    not an object. -/
def decodeObject (C : Classes) (gtype : GType) (ret : Option Json) : Fret :=
  if jsonIsNull ret then some (.object none, none)
  else some (.object (jsonGobjectDeserialize C gtype (ret.getD .null)), none)

/-- `searpc_client_fret__object`. -/
def searpcClientFretObject (J : Jansson) (C : Classes) (gtype : GType) (data : Bytes) : Fret :=
  fretWith J data .object (decodeObject C gtype)

/-- `json_array_size` and the elements below it. -/
def jsonArrayElements : Json → List Json
  | .arr vs => vs
  | _ => []

/-- The loop of `searpc_client_fret__objlist`: prepend each object, give up at
    the first that is `NULL`. -/
def deserializeList (C : Classes) (gtype : GType) (ret : List GObject) :
    List Json → Option (List GObject)
  | [] => some ret
  | member :: rest =>
      match jsonGobjectDeserialize C gtype member with
      | none => none
      | some obj => deserializeList C gtype (obj :: ret) rest

/-- A missing member fails `g_assert`. -/
def decodeObjlist (C : Classes) (gtype : GType) (ret : Option Json) : Fret :=
  if jsonIsNull ret then some (.objlist [], none)
  else
    match ret with
    | none => none
    | some array =>
        match deserializeList C gtype [] (jsonArrayElements array) with
        | none =>
            some (.objlist [],
              some ⟨.dft, 503, ascii "Invalid data: object list contains null"⟩)
        | some list => some (.objlist list.reverse, none)

/-- `searpc_client_fret__objlist`. -/
def searpcClientFretObjlist (J : Jansson) (C : Classes) (gtype : GType) (data : Bytes) : Fret :=
  fretWith J data .objlist (decodeObjlist C gtype)

/-- Here the guard before `g_assert` also catches a missing member. -/
def decodeJson (ret : Option Json) : Fret :=
  if ret.isNone ∨ jsonIsNull ret then some (.json none, none)
  else
    match ret with
    | none => none
    | some retObj => some (.json (some retObj), none)

/-- `searpc_client_fret__json`. -/
def searpcClientFretJson (J : Jansson) (data : Bytes) : Fret := fretWith J data .json decodeJson

/-- The decoder of a return type. -/
def searpcClientFret (J : Jansson) (C : Classes) (gtype : GType) (data : Bytes) : RpcType → Fret
  | .string => searpcClientFretString J data
  | .int => searpcClientFretInt J data
  | .int64 => searpcClientFretInt64 J data
  | .object => searpcClientFretObject J C gtype data
  | .objlist => searpcClientFretObjlist J C gtype data
  | .json => searpcClientFretJson J data

/-! ## Encoders and decoders together -/

/-- The encoder of a value's own type. -/
def setRet (v : RetVal) : List (Bytes × Json) :=
  match v with
  | .string ret => searpcSetStringToRetObject [] ret
  | .int ret => searpcSetIntToRetObject [] ret.toInt
  | .int64 ret => searpcSetIntToRetObject [] ret.toInt
  | .object ret => searpcSetObjectToRetObject [] ret
  | .objlist ret => searpcSetObjlistToRetObject [] ret
  | .json ret => searpcSetJsonToRetObject [] ret

/-- The JSON value that stands for a returned value. -/
def RetVal.element : RetVal → Json
  | .string none => .null
  | .string (some s) => .str s
  | .int ret => .int ret.toInt
  | .int64 ret => .int ret.toInt
  | .object none => .null
  | .object (some o) => jsonGobjectSerialize o
  | .objlist [] => .null
  | .objlist (o :: os) => .arr ((o :: os).map jsonGobjectSerialize)
  | .json none => .null
  | .json (some v) => v

/-- A value that can be carried: a string is UTF-8, what has structure survives
    the codec. -/
def RetVal.Carried (Good : Json → Prop) : RetVal → Prop
  | .string (some s) => Text s
  | .object (some o) => Good (jsonGobjectSerialize o)
  | .objlist (o :: os) => Good (.arr ((o :: os).map jsonGobjectSerialize))
  | .json (some v) => Good v
  | _ => True

/-- What the caller should get for a value: the value itself, with objects
    rebuilt from their serialisation, lists element by element, and JSON null
    as `NULL`. -/
def RetVal.Received (C : Classes) (gtype : GType) : RetVal → RetVal → Prop
  | .object (some o), got =>
      got = .object (jsonGobjectDeserialize C gtype (jsonGobjectSerialize o))
  | .objlist os, got =>
      ∃ os', got = .objlist os' ∧ List.Forall₂ (fun o o' =>
        jsonGobjectDeserialize C gtype (jsonGobjectSerialize o) = some o') os os'
  | .json (some .null), got => got = .json none
  | v, got => got = v

theorem serializeList_eq (array : List Json) (os : List GObject) :
    serializeList array os = array ++ os.map jsonGobjectSerialize := by
  induction os generalizing array with
  | nil =>
      show array = array ++ []
      rw [List.append_nil]
  | cons o os ih =>
      show serializeList (array ++ [jsonGobjectSerialize o]) os = _
      rw [ih, List.append_assoc]
      rfl

/-- Every encoder sets `ret` and nothing else. -/
theorem setRet_eq {Good : Json → Prop} {v : RetVal} (hv : v.Carried Good) :
    setRet v = [(ascii "ret", v.element)] := by
  cases v with
  | string ret =>
      cases ret with
      | none => rfl
      | some s =>
          show jsonObjectSetNew [] (ascii "ret") (jsonString (cstr s)) = _
          rw [cstr_eq_self hv.2, jsonString_of_valid hv.1]
          rfl
  | int ret => rfl
  | int64 ret => rfl
  | object ret => cases ret <;> rfl
  | objlist ret =>
      cases ret with
      | nil => rfl
      | cons o os =>
          show [(ascii "ret", Json.arr (serializeList [] (o :: os)))] = _
          rw [serializeList_eq, List.nil_append]
          rfl
  | json ret => cases ret <;> rfl

/-- A carried value's JSON survives the codec. -/
theorem element_good {J : Jansson} {Good : Json → Prop} (hJ : RoundTrips J Good) {v : RetVal}
    (hv : v.Carried Good) : Good v.element := by
  cases v with
  | string ret =>
      cases ret with
      | none => exact hJ.null
      | some s => exact hJ.str s hv
  | int ret =>
      have h1 := ret.le_toInt
      have h2 := ret.toInt_lt
      exact hJ.int _ ⟨by omega, by omega⟩
  | int64 ret => exact hJ.int _ ⟨ret.le_toInt, ret.toInt_lt⟩
  | object ret =>
      cases ret with
      | none => exact hJ.null
      | some o => exact hv
  | objlist ret =>
      cases ret with
      | nil => exact hJ.null
      | cons o os => exact hv
  | json ret =>
      cases ret with
      | none => exact hJ.null
      | some v => exact hv

/-- The members of a reply. -/
def replyMembers (v : RetVal) : Option GError → List (Bytes × Json)
  | none => [(ascii "ret", v.element)]
  | some error =>
      [(ascii "ret", v.element), (ascii "err_code", .int error.code.toInt),
        (ascii "err_msg", .str error.message)]

theorem setError_setRet {Good : Json → Prop} {v : RetVal} (hv : v.Carried Good)
    {error : Option GError} (herr : ∀ e ∈ error, Text e.message) :
    setError (setRet v) error = replyMembers v error := by
  rw [setRet_eq hv]
  cases error with
  | none => rfl
  | some e =>
      obtain ⟨hutf, hnul⟩ := herr e rfl
      have h1 : ascii "ret" ≠ ascii "err_code" := by decide
      have h2 : ascii "ret" ≠ ascii "err_msg" := by decide
      have h3 : ascii "err_code" ≠ ascii "err_msg" := by decide
      simp only [setError, cstr_eq_self hnul, jsonString_of_valid hutf, jsonObjectSetNew,
        memberSet, if_neg h1, if_neg h2, if_neg h3]
      rfl

/-- **THE REPLY TEXT** parses back to its members. -/
theorem loadb_reply {J : Jansson} {Good : Json → Prop} (hJ : RoundTrips J Good) {v : RetVal}
    (hv : v.Carried Good) {error : Option GError} (herr : ∀ e ∈ error, Text e.message) :
    J.loadb (searpcMarshalSetRetCommon J (setRet v) error) = .ok (.obj (replyMembers v error)) := by
  rw [searpcMarshalSetRetCommon, setError_setRet hv herr]
  have hret : Text (ascii "ret") ∧ Good v.element := ⟨by decide, element_good hJ hv⟩
  cases error with
  | none =>
      refine hJ.object _ true ?_ (by simp [replyMembers])
      intro m hm
      rw [List.mem_singleton.mp hm]
      exact hret
  | some e =>
      have hkeys : Text (ascii "err_code") ∧ Text (ascii "err_msg")
          ∧ [ascii "ret", ascii "err_code", ascii "err_msg"].Nodup := by decide
      have h1 := e.code.le_toInt
      have h2 := e.code.toInt_lt
      refine hJ.object _ true ?_ hkeys.2.2
      intro m hm
      rcases List.mem_cons.mp hm with rfl | hm
      · exact hret
      · rcases List.mem_cons.mp hm with rfl | hm
        · exact ⟨hkeys.1, hJ.int _ ⟨by omega, by omega⟩⟩
        · rw [List.mem_singleton.mp hm]
          exact ⟨hkeys.2.1, hJ.str _ (herr e rfl)⟩

/-- `handle_ret_common` on a reply: the function's error, or the object. -/
theorem handleRetCommon_reply {J : Jansson} {Good : Json → Prop} (hJ : RoundTrips J Good)
    {v : RetVal} (hv : v.Carried Good) {error : Option GError}
    (herr : ∀ e ∈ error, Text e.message) :
    handleRetCommon J (searpcMarshalSetRetCommon J (setRet v) error)
      = (match error with
        | some e => .error ⟨.dft, e.code, e.message⟩
        | none => .ok (.obj [(ascii "ret", v.element)])) := by
  have h1 : ascii "ret" ≠ ascii "err_code" := by decide
  have h2 : ascii "ret" ≠ ascii "err_msg" := by decide
  have h3 : ascii "err_code" ≠ ascii "err_msg" := by decide
  simp only [handleRetCommon, loadb_reply hJ hv herr]
  cases error with
  | none => simp only [replyMembers, jsonObjectGet, memberGet_cons, if_neg h1, memberGet_nil]
  | some e =>
      simp only [replyMembers, jsonObjectGet, memberGet_cons, if_neg h1, if_neg h2, if_neg h3,
        if_true, jsonIntegerValue, Int32.ofInt_toInt, jsonStringValue,
        cstr_eq_self (herr e rfl).2]
      rfl

/-- Every element of a list gives an object, whatever it is. -/
theorem deserializeList_eq {C : Classes} {gtype : GType} (h : (C gtype).isSome)
    (acc : List GObject) (vs : List Json) :
    ∃ os, deserializeList C gtype acc vs = some (os.reverse ++ acc)
      ∧ List.Forall₂ (fun v o => jsonGobjectDeserialize C gtype v = some o) vs os := by
  induction vs generalizing acc with
  | nil => exact ⟨[], rfl, .nil⟩
  | cons v vs ih =>
      obtain ⟨o, ho⟩ := Option.isSome_iff_exists.mp (jsonGobjectDeserialize_isSome h v)
      obtain ⟨os, hlist, hall⟩ := ih (o :: acc)
      refine ⟨o :: os, ?_, .cons ho hall⟩
      simp only [deserializeList, ho, hlist, List.reverse_cons, List.append_assoc]
      rfl

/-- A list under `ret` gives its objects in order: each was prepended, and the
    list is reversed at the end. -/
theorem decodeObjlist_arr {C : Classes} {gtype : GType} (h : (C gtype).isSome) (vs : List Json) :
    ∃ os, decodeObjlist C gtype (some (.arr vs)) = some (.objlist os, none)
      ∧ List.Forall₂ (fun v o => jsonGobjectDeserialize C gtype v = some o) vs os := by
  obtain ⟨os, hlist, hall⟩ := deserializeList_eq h [] vs
  refine ⟨os, ?_, hall⟩
  simp only [decodeObjlist, jsonIsNull, jsonArrayElements, hlist, List.append_nil,
    List.reverse_reverse]
  rfl

/-- The value under `ret`, read by the decoder of its own type. -/
theorem decode_element {C : Classes} {gtype : GType} {J : Jansson} {Good : Json → Prop}
    {v : RetVal} (hC : v.type = .objlist → (C gtype).isSome) (hv : v.Carried Good) {data : Bytes}
    (hdata : handleRetCommon J data = .ok (.obj [(ascii "ret", v.element)])) :
    ∃ got, searpcClientFret J C gtype data v.type = some (got, none)
      ∧ v.Received C gtype got := by
  have hget : jsonObjectGet (some (.obj [(ascii "ret", v.element)])) (ascii "ret")
      = some v.element := by
    simp only [jsonObjectGet, memberGet_cons, if_true]
  have hfret : ∀ decode, fretWith J data v.type decode = decode (some v.element) := by
    intro decode
    simp only [fretWith, hdata, hget]
  cases v with
  | string ret =>
      refine ⟨_, hfret decodeString, ?_⟩
      cases ret with
      | none => rfl
      | some s => exact congrArg (fun s => RetVal.string (some s)) (cstr_eq_self hv.2)
  | int ret => exact ⟨_, hfret decodeInt, congrArg RetVal.int (Int32.ofInt_toInt ret)⟩
  | int64 ret => exact ⟨_, hfret decodeInt64, congrArg RetVal.int64 (Int64.ofInt_toInt ret)⟩
  | object ret =>
      cases ret with
      | none => exact ⟨_, hfret (decodeObject C gtype), rfl⟩
      | some o => exact ⟨_, hfret (decodeObject C gtype), rfl⟩
  | objlist ret =>
      cases ret with
      | nil => exact ⟨_, hfret (decodeObjlist C gtype), [], rfl, .nil⟩
      | cons o os =>
          obtain ⟨os', hlist, hall⟩ :=
            decodeObjlist_arr (hC rfl) ((o :: os).map jsonGobjectSerialize)
          exact ⟨.objlist os', (hfret (decodeObjlist C gtype)).trans hlist, os', rfl,
            List.forall₂_map_left_iff.mp hall⟩
  | json ret =>
      cases ret with
      | none => exact ⟨_, hfret decodeJson, rfl⟩
      | some v => cases v <;> exact ⟨_, hfret decodeJson, rfl⟩

/-! ## Any reply at all

    A transport may return any bytes.  Each decoder treats a missing, null or
    wrongly typed `ret` in its own way; only one of them has an assertion that
    its own guard does not cover. -/

/-- The reply parses, reports no error and has no member `ret`. -/
def NoRet (J : Jansson) (data : Bytes) : Prop :=
  ∃ object, J.loadb data = .ok object
    ∧ jsonObjectGet (some object) (ascii "err_code") = none
    ∧ jsonObjectGet (some object) (ascii "ret") = none

/-- `handle_ret_common` goes on exactly with what parses and has no
    `err_code`. -/
theorem handleRetCommon_ok_iff {J : Jansson} {data : Bytes} {object : Json} :
    handleRetCommon J data = .ok object
      ↔ J.loadb data = .ok object ∧ jsonObjectGet (some object) (ascii "err_code") = none := by
  cases hload : J.loadb data with
  | error text => simp [handleRetCommon, hload]
  | ok v =>
      cases hcode : jsonObjectGet (some v) (ascii "err_code") with
      | none =>
          simp only [handleRetCommon, hload, hcode, Except.ok.injEq]
          refine ⟨?_, fun h => h.1⟩
          rintro rfl
          exact ⟨rfl, hcode⟩
      | some code =>
          simp only [handleRetCommon, hload, hcode, Except.ok.injEq]
          constructor
          · intro h
            cases h
          · rintro ⟨rfl, hnone⟩
            rw [hcode] at hnone
            cases hnone

/-- An error found by `handle_ret_common` is what every decoder reports. -/
theorem searpcClientFret_of_common {J : Jansson} {data : Bytes} {error : GError}
    (h : handleRetCommon J data = .error error) (C : Classes) (gtype : GType) (type : RpcType) :
    searpcClientFret J C gtype data type = some (failedRet type, some error) := by
  have hwith : ∀ decode, fretWith J data type decode = some (failedRet type, some error) := by
    intro decode
    simp only [fretWith, h]
  cases type with
  | string => exact hwith _
  | int => exact hwith _
  | int64 => exact hwith _
  | object => exact hwith _
  | objlist => exact hwith _
  | json => exact hwith _

/-- The list decoder stops at its assertion exactly when there is no member. -/
theorem decodeObjlist_isSome_iff (C : Classes) (gtype : GType) (ret : Option Json) :
    (decodeObjlist C gtype ret).isSome ↔ ret ≠ none := by
  cases ret with
  | none => simp [decodeObjlist, jsonIsNull]
  | some array =>
      refine iff_of_true ?_ (Option.some_ne_none array)
      rw [decodeObjlist]
      by_cases hnull : jsonIsNull (some array) = true
      · rw [if_pos hnull]
        rfl
      · rw [if_neg hnull]
        cases deserializeList C gtype [] (jsonArrayElements array) <;> rfl

/-- The guard of the JSON decoder covers its assertion. -/
theorem decodeJson_isSome (ret : Option Json) : (decodeJson ret).isSome := by
  cases ret with
  | none => rfl
  | some retObj => cases retObj <;> rfl

theorem decodeObject_isSome (C : Classes) (gtype : GType) (ret : Option Json) :
    (decodeObject C gtype ret).isSome := by
  rw [decodeObject]
  by_cases hnull : jsonIsNull ret = true
  · rw [if_pos hnull]
    rfl
  · rw [if_neg hnull]
    rfl

/-- A decoder completes when its own part does on what `ret` holds. -/
theorem fretWith_isSome_iff (J : Jansson) (data : Bytes) (type : RpcType)
    (decode : Option Json → Fret) :
    (fretWith J data type decode).isSome
      ↔ ∀ object, handleRetCommon J data = .ok object →
          (decode (jsonObjectGet (some object) (ascii "ret"))).isSome := by
  cases hcommon : handleRetCommon J data with
  | error e =>
      refine iff_of_true ?_ (fun object h => ?_)
      · simp only [fretWith, hcommon, Option.isSome_some]
      · cases h
  | ok object =>
      simp only [fretWith, hcommon]
      refine ⟨?_, fun h => h object rfl⟩
      rintro h _ hok
      cases hok
      exact h

/-- The one way not to complete. -/
theorem searpcClientFret_isSome_iff (J : Jansson) (C : Classes) (gtype : GType) (data : Bytes)
    (type : RpcType) :
    (searpcClientFret J C gtype data type).isSome ↔ ¬ (type = .objlist ∧ NoRet J data) := by
  have hother : ∀ decode : Option Json → Fret, type ≠ .objlist → (∀ ret, (decode ret).isSome) →
      ((fretWith J data type decode).isSome ↔ ¬ (type = .objlist ∧ NoRet J data)) :=
    fun decode hne h => iff_of_true ((fretWith_isSome_iff J data type decode).mpr (fun _ _ => h _))
      (fun hlist => hne hlist.1)
  cases type with
  | string => exact hother decodeString (by decide) (fun _ => rfl)
  | int => exact hother decodeInt (by decide) (fun _ => rfl)
  | int64 => exact hother decodeInt64 (by decide) (fun _ => rfl)
  | object => exact hother (decodeObject C gtype) (by decide) (decodeObject_isSome C gtype)
  | json => exact hother decodeJson (by decide) decodeJson_isSome
  | objlist =>
      refine (fretWith_isSome_iff J data _ _).trans ?_
      constructor
      · rintro h ⟨-, object, hload, hcode, hret⟩
        have hok := handleRetCommon_ok_iff.mpr ⟨hload, hcode⟩
        exact (decodeObjlist_isSome_iff C gtype _).mp (h object hok) hret
      · intro h object hok
        obtain ⟨hload, hcode⟩ := handleRetCommon_ok_iff.mp hok
        refine (decodeObjlist_isSome_iff C gtype _).mpr ?_
        exact fun hret => h ⟨rfl, object, hload, hcode, hret⟩

theorem decodeObjlist_type {C : Classes} {gtype : GType} {ret : Option Json} {v : RetVal}
    {error : Option GError} (h : decodeObjlist C gtype ret = some (v, error)) :
    v.type = .objlist := by
  cases ret with
  | none => cases h
  | some array =>
      rw [decodeObjlist] at h
      by_cases hnull : jsonIsNull (some array) = true
      · rw [if_pos hnull] at h
        cases h
        rfl
      · rw [if_neg hnull] at h
        cases hlist : deserializeList C gtype [] (jsonArrayElements array) with
        | none =>
            simp only [hlist, Option.some.injEq, Prod.mk.injEq] at h
            rw [← h.1]
            rfl
        | some list =>
            simp only [hlist, Option.some.injEq, Prod.mk.injEq] at h
            rw [← h.1]
            rfl

theorem decodeJson_type {ret : Option Json} {v : RetVal} {error : Option GError}
    (h : decodeJson ret = some (v, error)) : v.type = .json := by
  cases ret with
  | none =>
      cases h
      rfl
  | some retObj => cases retObj <;> cases h <;> rfl

theorem decodeObject_type {C : Classes} {gtype : GType} {ret : Option Json} {v : RetVal}
    {error : Option GError} (h : decodeObject C gtype ret = some (v, error)) :
    v.type = .object := by
  rw [decodeObject] at h
  by_cases hnull : jsonIsNull ret = true
  · rw [if_pos hnull] at h
    cases h
    rfl
  · rw [if_neg hnull] at h
    cases h
    rfl

/-- What a decoder leaves has its type, beside an error too. -/
theorem searpcClientFret_type {J : Jansson} {C : Classes} {gtype : GType} {data : Bytes}
    {type : RpcType} {v : RetVal} {error : Option GError}
    (h : searpcClientFret J C gtype data type = some (v, error)) : v.type = type := by
  have hwith : ∀ decode : Option Json → Fret,
      (∀ ret v error, decode ret = some (v, error) → v.type = type) →
      fretWith J data type decode = some (v, error) → v.type = type := by
    intro decode hdecode hfret
    cases hcommon : handleRetCommon J data with
    | error e =>
        simp only [fretWith, hcommon, Option.some.injEq, Prod.mk.injEq] at hfret
        rw [← hfret.1]
        cases type <;> rfl
    | ok object =>
        simp only [fretWith, hcommon] at hfret
        exact hdecode _ _ _ hfret
  cases type with
  | string => exact hwith decodeString (fun _ _ _ h => by cases h; rfl) h
  | int => exact hwith decodeInt (fun _ _ _ h => by cases h; rfl) h
  | int64 => exact hwith decodeInt64 (fun _ _ _ h => by cases h; rfl) h
  | object => exact hwith (decodeObject C gtype) (fun _ _ _ h => decodeObject_type h) h
  | objlist => exact hwith (decodeObjlist C gtype) (fun _ _ _ h => decodeObjlist_type h) h
  | json => exact hwith decodeJson (fun _ _ _ h => decodeJson_type h) h

/-- **ANY REPLY, EXACTLY**: a decoder ends with a value of its type, and maybe
    an error, unless it is the list decoder and the reply has neither an error
    nor a `ret`; there its assertion fails. -/
theorem searpcClientFret_completes_iff (J : Jansson) (C : Classes) (gtype : GType) (data : Bytes)
    (type : RpcType) :
    (∃ v error, searpcClientFret J C gtype data type = some (v, error) ∧ v.type = type)
      ↔ ¬ (type = .objlist ∧ NoRet J data) := by
  rw [← searpcClientFret_isSome_iff J C gtype data type, Option.isSome_iff_exists]
  constructor
  · rintro ⟨v, error, hfret, -⟩
    exact ⟨(v, error), hfret⟩
  · rintro ⟨⟨v, error⟩, hfret⟩
    exact ⟨v, error, hfret, searpcClientFret_type hfret⟩

/-- The empty object as a reply to a call for a list. -/
theorem searpcClientFret_aborts :
    ¬ ∀ (C : Classes) (gtype : GType) (data : Bytes) (type : RpcType), ∃ v error,
        searpcClientFret textCodec C gtype data type = some (v, error) ∧ v.type = type := by
  intro h
  obtain ⟨v, error, hfret, -⟩ := h (fun _ => some []) 1 [0x7B, 0x7D] .objlist
  have hnone : (searpcClientFret textCodec (fun _ => some []) 1 [0x7B, 0x7D] .objlist).isNone := by
    decide +kernel
  rw [hfret] at hnone
  cases hnone

/-! ## Lists with null elements

    The list decoder answers 503, "object list contains null", when an element
    gives no object.  But the deserialiser reads a JSON null like an object
    without members and builds an object with all properties at their
    defaults, so that branch is never taken. -/

/-- What the list decoder is for: an array with a null is refused, an array of
    objects gives its objects. -/
def RefusesNull (C : Classes) (gtype : GType) (vs : List Json) (fret : Fret) : Prop :=
  (Json.null ∈ vs →
      ∃ error, fret = some (.objlist [], some error) ∧ error.code = 503)
    ∧ ((∀ v ∈ vs, ∃ members, v = .obj members) →
      ∃ os, fret = some (.objlist os, none)
        ∧ List.Forall₂ (fun v o => jsonGobjectDeserialize C gtype v = some o) vs os)

/-- Any array comes through, without an error. -/
theorem searpcClientFretObjlist_arr {J : Jansson} {C : Classes} {gtype : GType}
    (hclass : (C gtype).isSome) {data : Bytes} {object : Json} {vs : List Json}
    (hload : J.loadb data = .ok object)
    (hcode : jsonObjectGet (some object) (ascii "err_code") = none)
    (hret : jsonObjectGet (some object) (ascii "ret") = some (.arr vs)) :
    ∃ os, searpcClientFretObjlist J C gtype data = some (.objlist os, none)
      ∧ List.Forall₂ (fun v o => jsonGobjectDeserialize C gtype v = some o) vs os := by
  obtain ⟨os, hlist, hall⟩ := decodeObjlist_arr hclass vs
  refine ⟨os, ?_, hall⟩
  simp only [searpcClientFretObjlist, fretWith, handleRetCommon_ok_iff.mpr ⟨hload, hcode⟩, hret,
    hlist]

/-- **NULLS IN A LIST, EXACTLY**: the list decoder does what it is for on the
    arrays without a null, and on no others. -/
theorem searpcClientFretObjlist_refuses_iff {J : Jansson} {C : Classes} {gtype : GType}
    (hclass : (C gtype).isSome) {data : Bytes} {object : Json} {vs : List Json}
    (hload : J.loadb data = .ok object)
    (hcode : jsonObjectGet (some object) (ascii "err_code") = none)
    (hret : jsonObjectGet (some object) (ascii "ret") = some (.arr vs)) :
    RefusesNull C gtype vs (searpcClientFretObjlist J C gtype data) ↔ Json.null ∉ vs := by
  obtain ⟨os, hfret, hall⟩ := searpcClientFretObjlist_arr hclass hload hcode hret
  constructor
  · intro h hnull
    obtain ⟨error, herror, -⟩ := h.1 hnull
    rw [hfret] at herror
    cases herror
  · intro hnull
    exact ⟨fun hmem => absurd hmem hnull, fun _ => ⟨os, hfret, hall⟩⟩

/-- Classes without properties. -/
def bareClasses : Classes := fun _ => some []

/-- `{"ret":[{}]}`. -/
def oneObjectReply : Bytes := ascii "\x7b\"ret\":[\x7b\x7d]\x7d"

/-- `{"ret":[null]}`. -/
def oneNullReply : Bytes := ascii "\x7b\"ret\":[null]\x7d"

/-- A list of one object. -/
theorem searpcClientFretObjlist_refuses_one :
    RefusesNull bareClasses 1 [.obj []]
      (searpcClientFretObjlist textCodec bareClasses 1 oneObjectReply) :=
  (searpcClientFretObjlist_refuses_iff rfl (show textCodec.loadb oneObjectReply
    = .ok (.obj [(ascii "ret", .arr [.obj []])]) by decide +kernel) rfl rfl).mpr (by decide)

/-- A list of one null gives a list of one object. -/
theorem searpcClientFretObjlist_takes_null :
    ¬ ∀ (C : Classes) (gtype : GType) (data : Bytes) (object : Json) (vs : List Json),
        (C gtype).isSome → textCodec.loadb data = .ok object →
        jsonObjectGet (some object) (ascii "err_code") = none →
        jsonObjectGet (some object) (ascii "ret") = some (.arr vs) →
        RefusesNull C gtype vs (searpcClientFretObjlist textCodec C gtype data) := by
  intro h
  have hload : textCodec.loadb oneNullReply = .ok (.obj [(ascii "ret", .arr [.null])]) := by
    decide +kernel
  have hrefuses := h bareClasses 1 oneNullReply _ [.null] rfl hload rfl rfl
  obtain ⟨error, herror, -⟩ := hrefuses.1 List.mem_cons_self
  have hclass : (bareClasses 1).isSome := rfl
  obtain ⟨os, hfret, -⟩ := searpcClientFretObjlist_arr hclass hload rfl rfl
  rw [hfret] at herror
  cases herror

end SearpcReply
