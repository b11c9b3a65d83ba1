import Searpc.ReplyProofs

/-! # The Python decoders — `_fret_int` and its siblings

    A reply is parsed by `json.loads` and then taken apart with `in`, `[]` and
    `for`.  Only the parse stands under a `try`: each of the other steps raises
    its own exception on a value of the wrong shape.  `json.loads` is a
    parameter that answers `none` where it raises; text is its UTF-8 bytes. -/

namespace PySearpcDecode

open ByteMemory JsonValue SearpcJansson SearpcReply

/-! ## Python's operations on parsed values -/

/-- The exceptions a decoder can end in. -/
inductive PyError where
  | searpcError (msg : Json)
  | keyError
  | typeError
  | indexError
  | attributeError
deriving DecidableEq

/-- The characters of a string, each a lead byte with its continuations. -/
def chars : Bytes → List Bytes
  | [] => []
  | b :: s =>
      match chars s with
      | (c :: w) :: ws =>
          if 0x80 ≤ c ∧ c ≤ 0xBF then (b :: c :: w) :: ws else [b] :: (c :: w) :: ws
      | ws => [b] :: ws

/-- `key in value`, for a string key: a member of a dict, an element of a list,
    a substring of a string. -/
def contains (key : Bytes) : Json → Except PyError Bool
  | .obj ms => .ok (memberGet ms key).isSome
  | .arr vs => .ok (vs.any (fun v => v = .str key))
  | .str s => .ok (decide (key <:+: s))
  | _ => .error .typeError

/-- A sequence at an index, which counts from the end when negative. -/
def index {α : Type} (vs : List α) (i : Int) : Except PyError α :=
  match vs[(if i < 0 then i + vs.length else i).toNat]? with
  | some v => if i + vs.length < 0 then .error .indexError else .ok v
  | none => .error .indexError

/-- `value[key]`. -/
def subscript : Json → Json → Except PyError Json
  | .obj ms, .str key =>
      match memberGet ms key with
      | some v => .ok v
      | none => .error .keyError
  | .obj _, .arr _ => .error .typeError
  | .obj _, .obj _ => .error .typeError
  | .obj _, _ => .error .keyError
  | .arr vs, .int i => index vs i
  | .arr vs, .bool b => index vs (if b then 1 else 0)
  | .str s, .int i => (index (chars s) i).map .str
  | .str s, .bool b => (index (chars s) (if b then 1 else 0)).map .str
  | _, _ => .error .typeError

/-- What `if value:` makes of a value; both zeros of a double are false. -/
def truthy : Json → Bool
  | .null => false
  | .bool b => b
  | .int i => i ≠ 0
  | .real bits => bits ≠ 0 ∧ bits ≠ 0x8000000000000000
  | .str s => s ≠ []
  | .arr vs => !vs.isEmpty
  | .obj ms => !ms.isEmpty

/-- `for x in value`: the keys of a dict, the elements of a list, the
    characters of a string. -/
def iterate : Json → Except PyError (List Json)
  | .obj ms => .ok (ms.map (fun m => .str m.1))
  | .arr vs => .ok vs
  | .str s => .ok ((chars s).map .str)
  | _ => .error .typeError

/-- `key.replace('-', '_')`. -/
def replaceHyphen : Json → Except PyError Bytes
  | .str key => .ok (key.map (fun b => if b = 0x2D then 0x5F else b))
  | _ => .error .attributeError

/-! ## `_SearpcObj` -/

/-- The `_dict` of a `_SearpcObj`. -/
abbrev PyObj := List (Bytes × Json)

/-- The loop of `_SearpcObj.__init__`. -/
def searpcObjLoop (dicts : Json) (newDict : PyObj) : List Json → Except PyError PyObj
  | [] => .ok newDict
  | key :: keys => do
      let value ← subscript dicts key
      let newKey ← replaceHyphen key
      searpcObjLoop dicts (memberSet newDict newKey value) keys

/-- `_SearpcObj.__init__`. -/
def searpcObj (dicts : Json) : Except PyError PyObj := do
  let keys ← iterate dicts
  searpcObjLoop dicts [] keys

/-! ## The decoders -/

/-- What a decoder returns. -/
inductive PyRet where
  | value (v : Json)
  | none
  | object (obj : PyObj)
  | objlist (l : List PyObj)
deriving DecidableEq

/-- `SearpcError('Invalid response format')`. -/
def invalidFormat : PyError := .searpcError (.str (ascii "Invalid response format"))

/-- The beginning all decoders share: the guarded parse, then the error
    convention, which takes `err_msg` for granted. -/
def fretCommon (loads : Bytes → Option Json) (retStr : Bytes) : Except PyError Json :=
  match loads retStr with
  | .none => .error invalidFormat
  | some dicts => do
      if ← contains (ascii "err_code") dicts then
        let msg ← subscript dicts (.str (ascii "err_msg"))
        throw (.searpcError msg)
      else return dicts

/-- The end of the scalar decoders: absence of `ret` is tested for. -/
def retMember (dicts : Json) : Except PyError PyRet := do
  if ← contains (ascii "ret") dicts then
    let v ← subscript dicts (.str (ascii "ret"))
    return .value v
  else throw invalidFormat

/-- `_fret_int`. -/
def fretInt (loads : Bytes → Option Json) (retStr : Bytes) : Except PyError PyRet := do
  let dicts ← fretCommon loads retStr
  retMember dicts

/-- `_fret_string`. -/
def fretString (loads : Bytes → Option Json) (retStr : Bytes) : Except PyError PyRet := do
  let dicts ← fretCommon loads retStr
  retMember dicts

/-- `_fret_obj`. -/
def fretObj (loads : Bytes → Option Json) (retStr : Bytes) : Except PyError PyRet := do
  let dicts ← fretCommon loads retStr
  let ret ← subscript dicts (.str (ascii "ret"))
  if truthy ret then
    let obj ← searpcObj ret
    return .object obj
  else return .none

/-- `_fret_objlist`. -/
def fretObjlist (loads : Bytes → Option Json) (retStr : Bytes) : Except PyError PyRet := do
  let dicts ← fretCommon loads retStr
  let ret ← subscript dicts (.str (ascii "ret"))
  if truthy ret then
    let elts ← iterate ret
    let l ← elts.mapM searpcObj
    return .objlist l
  else return .objlist []

/-- `_fret_json`. -/
def fretJson (loads : Bytes → Option Json) (retStr : Bytes) : Except PyError PyRet := do
  let dicts ← fretCommon loads retStr
  let ret ← subscript dicts (.str (ascii "ret"))
  if truthy ret then return .value ret
  else return .none

/-- The decoder `searpc_func` picks for a return type. -/
def fret (loads : Bytes → Option Json) (retStr : Bytes) : RpcType → Except PyError PyRet
  | .string => fretString loads retStr
  | .int => fretInt loads retStr
  | .int64 => fretInt loads retStr
  | .object => fretObj loads retStr
  | .objlist => fretObjlist loads retStr
  | .json => fretJson loads retStr

/-! ## Error replies -/

/-- What stops the common beginning stops every decoder. -/
theorem fret_of_common {loads : Bytes → Option Json} {retStr : Bytes} {e : PyError}
    (h : fretCommon loads retStr = .error e) (type : RpcType) :
    fret loads retStr type = .error e := by
  have hbind : ∀ k : Json → Except PyError PyRet, (fretCommon loads retStr >>= k) = .error e := by
    intro k
    rw [h]
    rfl
  cases type <;> exact hbind _

/-- **ERROR REPLIES IN PYTHON**: an object with `err_code` and `err_msg` makes
    every decoder raise `SearpcError` with that message. -/
theorem fret_error {loads : Bytes → Option Json} {retStr : Bytes} {ms : List (Bytes × Json)}
    {code msg : Json} (hload : loads retStr = some (.obj ms))
    (hcode : memberGet ms (ascii "err_code") = some code)
    (hmsg : memberGet ms (ascii "err_msg") = some msg) (type : RpcType) :
    fret loads retStr type = .error (.searpcError msg) := by
  refine fret_of_common ?_ type
  simp only [fretCommon, hload, contains, hcode, subscript, hmsg]
  rfl

/-- Without the message it is a `KeyError`. -/
theorem fret_error_no_msg {loads : Bytes → Option Json} {retStr : Bytes}
    {ms : List (Bytes × Json)} {code : Json} (hload : loads retStr = some (.obj ms))
    (hcode : memberGet ms (ascii "err_code") = some code)
    (hmsg : memberGet ms (ascii "err_msg") = none) (type : RpcType) :
    fret loads retStr type = .error .keyError := by
  refine fret_of_common ?_ type
  simp only [fretCommon, hload, contains, hcode, subscript, hmsg]
  rfl

/-! ## Which replies are safe to decode

    Only the parse is guarded.  A reply of another shape than the server sends
    ends in the exception of the first step that does not fit it; the shapes
    each decoder copes with are spelt out here, and are exactly those. -/

/-- A computation that fails with `SearpcError` or not at all. -/
def FailsAsSearpc {α : Type} (r : Except PyError α) : Prop :=
  ∀ e, r = .error e → ∃ msg, e = .searpcError msg

theorem failsAsSearpc_ok {α : Type} (a : α) : FailsAsSearpc (.ok a : Except PyError α) := by
  intro e he
  cases he

theorem failsAsSearpc_error {α : Type} {e : PyError} :
    FailsAsSearpc (.error e : Except PyError α) ↔ ∃ msg, e = .searpcError msg := by
  constructor
  · intro h
    exact h e rfl
  · rintro h e' he'
    cases he'
    exact h

/-- What `_SearpcObj` can be made from: a dict, or an empty list or string, over
    which its loop does not run. -/
def ObjLike : Json → Prop
  | .obj _ => True
  | .arr vs => vs = []
  | .str s => s = []
  | _ => False

/-- What the loop of `_fret_objlist` can run over: a list of such values, or a
    dict whose keys are empty strings. -/
def ListLike : Json → Prop
  | .obj ms => ∀ m ∈ ms, m.1 = []
  | .arr vs => ∀ v ∈ vs, ObjLike v
  | _ => False

/-- The values under `ret` a decoder copes with. -/
def RetFits : RpcType → Json → Prop
  | .object, ret => truthy ret → ObjLike ret
  | .objlist, ret => truthy ret → ListLike ret
  | _, _ => True

/-- The decoders that test for `ret` before they use it. -/
def AsksForRet (type : RpcType) : Prop := type = .string ∨ type = .int ∨ type = .int64

/-- The parsed replies a decoder copes with. -/
def ReplyFits (type : RpcType) : Json → Prop
  | .obj ms =>
      if memberGet ms (ascii "err_code") ≠ none then memberGet ms (ascii "err_msg") ≠ none
      else AsksForRet type ∨ ∃ ret, memberGet ms (ascii "ret") = some ret ∧ RetFits type ret
  | .arr vs => AsksForRet type ∧ Json.str (ascii "err_code") ∉ vs ∧ Json.str (ascii "ret") ∉ vs
  | .str s => AsksForRet type ∧ ¬ ascii "err_code" <:+: s ∧ ¬ ascii "ret" <:+: s
  | _ => False

/-- Every key a dict is iterated over is one of its members. -/
theorem memberGet_of_mem {ms : List (Bytes × Json)} {m : Bytes × Json} (hm : m ∈ ms) :
    ∃ v, memberGet ms m.1 = some v := by
  induction ms with
  | nil => cases hm
  | cons m' ms ih =>
      obtain ⟨k, w⟩ := m'
      rw [memberGet_cons]
      by_cases hk : k = m.1
      · exact ⟨w, if_pos hk⟩
      · rw [if_neg hk]
        rcases List.mem_cons.mp hm with rfl | hm
        · exact absurd rfl hk
        · exact ih hm

theorem searpcObjLoop_keys (ms : List (Bytes × Json)) (newDict : PyObj) (sub : List (Bytes × Json))
    (hsub : ∀ m ∈ sub, m ∈ ms) :
    ∃ obj, searpcObjLoop (.obj ms) newDict (sub.map (fun m => .str m.1)) = .ok obj := by
  induction sub generalizing newDict with
  | nil => exact ⟨newDict, rfl⟩
  | cons m sub ih =>
      obtain ⟨v, hv⟩ := memberGet_of_mem (hsub m List.mem_cons_self)
      obtain ⟨newKey, hkey⟩ : ∃ newKey, replaceHyphen (.str m.1) = .ok newKey := ⟨_, rfl⟩
      obtain ⟨obj, hobj⟩ := ih (memberSet newDict newKey v)
        (fun m' hm' => hsub m' (List.mem_cons_of_mem m hm'))
      refine ⟨obj, Eq.trans ?_ hobj⟩
      simp only [List.map_cons, searpcObjLoop, subscript, hv, hkey]
      rfl

theorem searpcObj_ok {v : Json} (h : ObjLike v) : ∃ obj, searpcObj v = .ok obj := by
  cases v with
  | obj ms => exact searpcObjLoop_keys ms [] ms (fun _ hm => hm)
  | arr vs =>
      cases h
      exact ⟨[], rfl⟩
  | str s =>
      cases h
      exact ⟨[], rfl⟩
  | null => exact h.elim
  | bool b => exact h.elim
  | int i => exact h.elim
  | real bits => exact h.elim

/-- Over a list the first element fails, as the index or for want of
    `replace`. -/
theorem searpcObjLoop_arr (vs : List Json) (v : Json) (rest : List Json) :
    ∃ e, searpcObjLoop (.arr vs) [] (v :: rest) = .error e ∧ ∀ msg, e ≠ .searpcError msg := by
  have hindex : ∀ (i : Int) (b : Json), replaceHyphen b = .error .attributeError →
      ∃ e, (do
        let value ← index vs i
        let newKey ← replaceHyphen b
        searpcObjLoop (.arr vs) (memberSet [] newKey value) rest) = .error e
          ∧ ∀ msg, e ≠ PyError.searpcError msg := by
    intro i b hb
    rw [hb]
    cases hi : index vs i with
    | ok x => exact ⟨.attributeError, rfl, fun msg h => by cases h⟩
    | error e =>
        refine ⟨e, rfl, fun msg hmsg => ?_⟩
        rw [index, hmsg] at hi
        split at hi
        · split at hi <;> cases hi
        · cases hi
  cases v with
  | int i => exact hindex i (.int i) rfl
  | bool b => exact hindex _ (.bool b) rfl
  | null => exact ⟨.typeError, rfl, fun msg h => by cases h⟩
  | real bits => exact ⟨.typeError, rfl, fun msg h => by cases h⟩
  | str s => exact ⟨.typeError, rfl, fun msg h => by cases h⟩
  | arr ws => exact ⟨.typeError, rfl, fun msg h => by cases h⟩
  | obj ms => exact ⟨.typeError, rfl, fun msg h => by cases h⟩

/-- The first character of a string starts with its first byte. -/
theorem chars_cons (b : UInt8) (s : Bytes) : ∃ w cs, chars (b :: s) = (b :: w) :: cs := by
  rw [chars]
  split
  · split <;> exact ⟨_, _, rfl⟩
  · exact ⟨_, _, rfl⟩

/-- Anything else raises what is not a `SearpcError`. -/
theorem searpcObj_error {v : Json} (h : ¬ ObjLike v) :
    ∃ e, searpcObj v = .error e ∧ ∀ msg, e ≠ .searpcError msg := by
  cases v with
  | obj ms => exact absurd trivial h
  | arr vs =>
      cases vs with
      | nil => exact absurd rfl h
      | cons v vs => exact searpcObjLoop_arr (v :: vs) v vs
  | str s =>
      cases s with
      | nil => exact absurd rfl h
      | cons b s =>
          obtain ⟨w, cs, hc⟩ := chars_cons b s
          refine ⟨.typeError, ?_, fun msg h => by cases h⟩
          show searpcObjLoop (.str (b :: s)) [] ((chars (b :: s)).map .str) = _
          rw [hc]
          rfl
  | null => exact ⟨.typeError, rfl, fun msg h => by cases h⟩
  | bool b => exact ⟨.typeError, rfl, fun msg h => by cases h⟩
  | int i => exact ⟨.typeError, rfl, fun msg h => by cases h⟩
  | real bits => exact ⟨.typeError, rfl, fun msg h => by cases h⟩

theorem mapM_searpcObj_ok {elts : List Json} (h : ∀ v ∈ elts, ObjLike v) :
    ∃ l, elts.mapM searpcObj = .ok l := by
  induction elts with
  | nil => exact ⟨[], rfl⟩
  | cons v elts ih =>
      obtain ⟨obj, hobj⟩ := searpcObj_ok (h v List.mem_cons_self)
      obtain ⟨l, hl⟩ := ih (fun w hw => h w (List.mem_cons_of_mem v hw))
      refine ⟨obj :: l, ?_⟩
      rw [List.mapM_cons, hobj, hl]
      rfl

theorem mapM_searpcObj_error {elts : List Json} (h : ¬ ∀ v ∈ elts, ObjLike v) :
    ∃ e, elts.mapM searpcObj = .error e ∧ ∀ msg, e ≠ .searpcError msg := by
  induction elts with
  | nil => exact absurd (fun v hv => by cases hv) h
  | cons v elts ih =>
      by_cases hv : ObjLike v
      · obtain ⟨obj, hobj⟩ := searpcObj_ok hv
        obtain ⟨e, he, hne⟩ := ih (fun hall => h (List.forall_mem_cons.mpr ⟨hv, hall⟩))
        refine ⟨e, ?_, hne⟩
        rw [List.mapM_cons, hobj, he]
        rfl
      · obtain ⟨e, he, hne⟩ := searpcObj_error hv
        refine ⟨e, ?_, hne⟩
        rw [List.mapM_cons, he]
        rfl

/-- The loop of `_fret_objlist` ends with a list on what `ListLike` describes. -/
theorem objects_ok {ret : Json} (h : ListLike ret) :
    ∃ l, (iterate ret >>= fun elts => elts.mapM searpcObj) = .ok l := by
  cases ret with
  | obj ms =>
      refine mapM_searpcObj_ok (fun v hv => ?_)
      obtain ⟨m, hm, rfl⟩ := List.mem_map.mp hv
      exact h m hm
  | arr vs => exact mapM_searpcObj_ok h
  | str s => exact h.elim
  | null => exact h.elim
  | bool b => exact h.elim
  | int i => exact h.elim
  | real bits => exact h.elim

theorem objects_error {ret : Json} (htrue : truthy ret) (h : ¬ ListLike ret) :
    ∃ e, (iterate ret >>= fun elts => elts.mapM searpcObj) = .error e
      ∧ ∀ msg, e ≠ .searpcError msg := by
  cases ret with
  | obj ms =>
      refine mapM_searpcObj_error (fun hall => h (fun m hm => ?_))
      exact hall (.str m.1) (List.mem_map_of_mem hm)
  | arr vs => exact mapM_searpcObj_error h
  | str s =>
      cases s with
      | nil => cases htrue
      | cons b s =>
          obtain ⟨w, cs, hc⟩ := chars_cons b s
          refine mapM_searpcObj_error (fun hall => List.cons_ne_nil b w ?_)
          exact hall (.str (b :: w)) (List.mem_map_of_mem (hc ▸ List.mem_cons_self))
  | null => exact ⟨.typeError, rfl, fun msg h => by cases h⟩
  | bool b => exact ⟨.typeError, rfl, fun msg h => by cases h⟩
  | int i => exact ⟨.typeError, rfl, fun msg h => by cases h⟩
  | real bits => exact ⟨.typeError, rfl, fun msg h => by cases h⟩

/-! ## The decoders after the error convention -/

/-- What a decoder does with a reply that has no `err_code`. -/
def fretTail : RpcType → Json → Except PyError PyRet
  | .object, dicts => do
      let ret ← subscript dicts (.str (ascii "ret"))
      if truthy ret then
        let obj ← searpcObj ret
        return .object obj
      else return .none
  | .objlist, dicts => do
      let ret ← subscript dicts (.str (ascii "ret"))
      if truthy ret then
        let elts ← iterate ret
        let l ← elts.mapM searpcObj
        return .objlist l
      else return .objlist []
  | .json, dicts => do
      let ret ← subscript dicts (.str (ascii "ret"))
      if truthy ret then return .value ret
      else return .none
  | _, dicts => retMember dicts

theorem fret_eq (loads : Bytes → Option Json) (retStr : Bytes) (type : RpcType) :
    fret loads retStr type = (fretCommon loads retStr >>= fretTail type) := by
  cases type <;> rfl

/-- Away from dicts a subscript with a string is a `TypeError`. -/
theorem subscript_str {v : Json} (h : ∀ ms, v ≠ .obj ms) (key : Bytes) :
    subscript v (.str key) = .error .typeError := by
  cases v with
  | obj ms => exact absurd rfl (h ms)
  | _ => rfl

theorem not_failsAsSearpc {α : Type} {r : Except PyError α}
    (h : ∃ e, r = .error e ∧ ∀ msg, e ≠ .searpcError msg) : ¬ FailsAsSearpc r := by
  intro hr
  obtain ⟨e, he, hne⟩ := h
  obtain ⟨msg, hmsg⟩ := hr e he
  exact hne msg hmsg

theorem fretTail_json {dicts ret : Json}
    (hsub : subscript dicts (.str (ascii "ret")) = .ok ret) :
    FailsAsSearpc (fretTail .json dicts) := by
  have htail : fretTail .json dicts = .ok (if truthy ret then .value ret else .none) := by
    rw [fretTail, hsub]
    cases htrue : truthy ret <;> simp only [bind, Except.bind, htrue] <;> rfl
  rw [htail]
  exact failsAsSearpc_ok _

theorem fretTail_object {dicts ret : Json}
    (hsub : subscript dicts (.str (ascii "ret")) = .ok ret) :
    FailsAsSearpc (fretTail .object dicts) ↔ RetFits .object ret := by
  by_cases htrue : truthy ret = true
  · have htail : fretTail .object dicts = (searpcObj ret).map .object := by
      rw [fretTail, hsub]
      simp only [bind, Except.bind, htrue]
      cases searpcObj ret <;> rfl
    rw [htail]
    by_cases hlike : ObjLike ret
    · obtain ⟨obj, hobj⟩ := searpcObj_ok hlike
      rw [hobj]
      exact iff_of_true (failsAsSearpc_ok _) (fun _ => hlike)
    · obtain ⟨e, he, hne⟩ := searpcObj_error hlike
      rw [he]
      exact iff_of_false (not_failsAsSearpc ⟨e, rfl, hne⟩) (fun h => hlike (h htrue))
  · have htail : fretTail .object dicts = .ok .none := by
      rw [fretTail, hsub]
      simp only [bind, Except.bind, htrue]
      rfl
    rw [htail]
    exact iff_of_true (failsAsSearpc_ok _) (fun h => absurd h htrue)

theorem fretTail_objlist {dicts ret : Json}
    (hsub : subscript dicts (.str (ascii "ret")) = .ok ret) :
    FailsAsSearpc (fretTail .objlist dicts) ↔ RetFits .objlist ret := by
  by_cases htrue : truthy ret = true
  · have htail : fretTail .objlist dicts
        = (iterate ret >>= fun elts => elts.mapM searpcObj).map .objlist := by
      rw [fretTail, hsub]
      simp only [bind, Except.bind, htrue]
      cases iterate ret with
      | error e => rfl
      | ok elts =>
          simp only [if_true]
          cases elts.mapM searpcObj <;> rfl
    rw [htail]
    by_cases hlike : ListLike ret
    · obtain ⟨l, hl⟩ := objects_ok hlike
      rw [hl]
      exact iff_of_true (failsAsSearpc_ok _) (fun _ => hlike)
    · obtain ⟨e, he, hne⟩ := objects_error htrue hlike
      rw [he]
      exact iff_of_false (not_failsAsSearpc ⟨e, rfl, hne⟩) (fun h => hlike (h htrue))
  · have htail : fretTail .objlist dicts = .ok (.objlist []) := by
      rw [fretTail, hsub]
      simp only [bind, Except.bind, htrue]
      rfl
    rw [htail]
    exact iff_of_true (failsAsSearpc_ok _) (fun h => absurd h htrue)

/-- On a value that is neither dict nor missing its `in`, the scalar decoders
    report the absence of `ret`; all else is a `TypeError`. -/
theorem fretTail_other {dicts : Json} (hobj : ∀ ms, dicts ≠ .obj ms) {b : Bool}
    (hret : contains (ascii "ret") dicts = .ok b) (type : RpcType) :
    FailsAsSearpc (fretTail type dicts) ↔ AsksForRet type ∧ b = false := by
  have hsub := subscript_str hobj (ascii "ret")
  have hmember : FailsAsSearpc (retMember dicts) ↔ b = false := by
    cases b with
    | false =>
        have hr : retMember dicts = .error invalidFormat := by
          rw [retMember, hret]
          rfl
        rw [hr]
        exact iff_of_true (failsAsSearpc_error.mpr ⟨_, rfl⟩) rfl
    | true =>
        have hr : retMember dicts = .error .typeError := by
          rw [retMember, hret, hsub]
          rfl
        rw [hr, failsAsSearpc_error]
        refine iff_of_false ?_ (by simp)
        rintro ⟨msg, ⟨⟩⟩
  have htype : ¬ FailsAsSearpc (.error .typeError : Except PyError PyRet) := by
    rw [failsAsSearpc_error]
    rintro ⟨msg, ⟨⟩⟩
  cases type with
  | string => exact hmember.trans (and_iff_right (.inl rfl)).symm
  | int => exact hmember.trans (and_iff_right (.inr (.inl rfl))).symm
  | int64 => exact hmember.trans (and_iff_right (.inr (.inr rfl))).symm
  | object =>
      rw [fretTail, hsub]
      exact iff_of_false htype (by simp [AsksForRet])
  | objlist =>
      rw [fretTail, hsub]
      exact iff_of_false htype (by simp [AsksForRet])
  | json =>
      rw [fretTail, hsub]
      exact iff_of_false htype (by simp [AsksForRet])

/-- On a dict all depends on what is under `ret`. -/
theorem fretTail_obj (ms : List (Bytes × Json)) (type : RpcType) :
    FailsAsSearpc (fretTail type (.obj ms))
      ↔ AsksForRet type ∨ ∃ ret, memberGet ms (ascii "ret") = some ret ∧ RetFits type ret := by
  have hmember : FailsAsSearpc (retMember (.obj ms)) := by
    cases hget : memberGet ms (ascii "ret") with
    | none =>
        have hr : retMember (.obj ms) = .error invalidFormat := by
          simp only [retMember, contains, hget]
          rfl
        rw [hr]
        exact failsAsSearpc_error.mpr ⟨_, rfl⟩
    | some ret =>
        have hr : retMember (.obj ms) = .ok (.value ret) := by
          simp only [retMember, contains, subscript, hget]
          rfl
        rw [hr]
        exact failsAsSearpc_ok _
  have hother : ¬ AsksForRet type →
      (FailsAsSearpc (fretTail type (.obj ms))
        ↔ ∃ ret, memberGet ms (ascii "ret") = some ret ∧ RetFits type ret) := by
    intro hscalar
    cases hget : memberGet ms (ascii "ret") with
    | none =>
        have hsub : subscript (.obj ms) (.str (ascii "ret")) = .error .keyError := by
          simp only [subscript, hget]
        have htail : fretTail type (.obj ms) = .error .keyError := by
          cases type with
          | string => exact absurd (.inl rfl) hscalar
          | int => exact absurd (.inr (.inl rfl)) hscalar
          | int64 => exact absurd (.inr (.inr rfl)) hscalar
          | object => rw [fretTail, hsub]; rfl
          | objlist => rw [fretTail, hsub]; rfl
          | json => rw [fretTail, hsub]; rfl
        rw [htail, failsAsSearpc_error]
        refine iff_of_false ?_ (by simp)
        rintro ⟨msg, ⟨⟩⟩
    | some ret =>
        have hsub : subscript (.obj ms) (.str (ascii "ret")) = .ok ret := by
          simp only [subscript, hget]
        simp only [Option.some.injEq, exists_eq_left']
        cases type with
        | string => exact absurd (.inl rfl) hscalar
        | int => exact absurd (.inr (.inl rfl)) hscalar
        | int64 => exact absurd (.inr (.inr rfl)) hscalar
        | object => exact fretTail_object hsub
        | objlist => exact fretTail_objlist hsub
        | json => exact iff_of_true (fretTail_json hsub) trivial
  by_cases hscalar : AsksForRet type
  · refine iff_of_true ?_ (.inl hscalar)
    rcases hscalar with rfl | rfl | rfl
    · exact hmember
    · exact hmember
    · exact hmember
  · rw [hother hscalar, or_iff_right hscalar]

/-- Away from dicts the membership test for `err_code` decides. -/
theorem fretCommon_other {loads : Bytes → Option Json} {retStr : Bytes} {dicts : Json}
    (hload : loads retStr = some dicts) (hobj : ∀ ms, dicts ≠ .obj ms) {c b : Bool}
    (hcode : contains (ascii "err_code") dicts = .ok c)
    (hret : contains (ascii "ret") dicts = .ok b) (type : RpcType) :
    FailsAsSearpc (fretCommon loads retStr >>= fretTail type)
      ↔ AsksForRet type ∧ c = false ∧ b = false := by
  cases c with
  | true =>
      have hcommon : fretCommon loads retStr = .error .typeError := by
        simp only [fretCommon, hload, hcode, subscript_str hobj]
        rfl
      rw [hcommon]
      refine iff_of_false (not_failsAsSearpc ⟨.typeError, rfl, fun msg h => by cases h⟩) ?_
      simp
  | false =>
      have hcommon : fretCommon loads retStr = .ok dicts := by
        simp only [fretCommon, hload, hcode]
        rfl
      rw [hcommon]
      refine (fretTail_other hobj hret type).trans ?_
      simp

theorem fretCommon_some {loads : Bytes → Option Json} {retStr : Bytes} {dicts : Json}
    (hload : loads retStr = some dicts) (type : RpcType) :
    FailsAsSearpc (fretCommon loads retStr >>= fretTail type) ↔ ReplyFits type dicts := by
  have hscalar : contains (ascii "err_code") dicts = .error .typeError →
      ¬ FailsAsSearpc (fretCommon loads retStr >>= fretTail type) := by
    intro h
    have hcommon : fretCommon loads retStr = .error .typeError := by
      simp only [fretCommon, hload, h]
      rfl
    rw [hcommon]
    exact not_failsAsSearpc ⟨.typeError, rfl, fun msg h => by cases h⟩
  cases dicts with
  | null => exact iff_of_false (hscalar rfl) id
  | bool b => exact iff_of_false (hscalar rfl) id
  | int i => exact iff_of_false (hscalar rfl) id
  | real bits => exact iff_of_false (hscalar rfl) id
  | str s =>
      refine (fretCommon_other hload (fun ms h => by cases h) rfl rfl type).trans ?_
      simp only [decide_eq_false_iff_not, ReplyFits]
  | arr vs =>
      refine (fretCommon_other hload (fun ms h => by cases h) rfl rfl type).trans ?_
      simp only [ReplyFits, List.any_eq_false, decide_eq_true_eq, List.forall_mem_ne']
  | obj ms =>
      rw [ReplyFits]
      cases hcode : memberGet ms (ascii "err_code") with
      | none =>
          have hcommon : fretCommon loads retStr = .ok (.obj ms) := by
            simp only [fretCommon, hload, contains, hcode]
            rfl
          rw [hcommon, if_neg (fun h => h rfl)]
          exact fretTail_obj ms type
      | some code =>
          rw [if_pos (Option.some_ne_none code)]
          cases hmsg : memberGet ms (ascii "err_msg") with
          | none =>
              have hcommon : fretCommon loads retStr = .error .keyError := by
                simp only [fretCommon, hload, contains, hcode, subscript, hmsg]
                rfl
              rw [hcommon]
              refine iff_of_false ?_ (fun h => h rfl)
              exact not_failsAsSearpc ⟨.keyError, rfl, fun msg h => by cases h⟩
          | some msg =>
              have hcommon : fretCommon loads retStr = .error (.searpcError msg) := by
                simp only [fretCommon, hload, contains, hcode, subscript, hmsg]
                rfl
              rw [hcommon]
              exact iff_of_true (failsAsSearpc_error.mpr ⟨msg, rfl⟩) (Option.some_ne_none msg)

/-- **WHAT A DECODER COPES WITH, EXACTLY**: it returns or raises `SearpcError`
    just on texts that do not parse and on those that parse to a shape it fits. -/
theorem fret_failsAsSearpc_iff (loads : Bytes → Option Json) (retStr : Bytes) (type : RpcType) :
    FailsAsSearpc (fret loads retStr type)
      ↔ ∀ dicts, loads retStr = some dicts → ReplyFits type dicts := by
  rw [fret_eq]
  cases hload : loads retStr with
  | none =>
      have hcommon : fretCommon loads retStr = .error invalidFormat := by
        simp only [fretCommon, hload]
      rw [hcommon]
      exact iff_of_true (failsAsSearpc_error.mpr ⟨_, rfl⟩) (fun dicts h => by cases h)
  | some dicts =>
      simp only [Option.some.injEq, forall_eq']
      exact fretCommon_some hload type

/-- The empty object, which the scalar decoders report as invalid, raises a
    `KeyError` in the others. -/
theorem fret_raises_keyError :
    ¬ ∀ (retStr : Bytes) (type : RpcType),
        FailsAsSearpc (fret (fun text => (textCodec.loadb text).toOption) retStr type) := by
  intro h
  have hempty : fret (fun text => (textCodec.loadb text).toOption) (ascii "\x7b\x7d") .json
      = .error .keyError := by
    decide +kernel
  obtain ⟨msg, hmsg⟩ := h (ascii "\x7b\x7d") .json .keyError hempty
  cases hmsg

end PySearpcDecode
