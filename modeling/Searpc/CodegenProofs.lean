import Searpc.FcallProofs
import Searpc.ReplyProofs

/-! # Generated marshals — `searpc-codegen.py` and the C it writes

    The generator turns a return type and a list of parameter types into a C
    function: one statement that reads each parameter out of the JSON array,
    the call, and one statement that stores the result.  `generateMarshal` is
    the generator, up to the choice of a data structure for the C function
    (`Marshal.text` prints it as the generator does); `runMarshal` is what the
    C function does.

    Encoder and decoder live in different languages and meet in the index:
    parameter `i` of the call is read at index `i`, after the function name. -/

namespace SearpcCodegen

open ByteMemory JsonValue SearpcJansson SearpcReply SearpcFcall SearpcGObject

/-! ## The generator -/

/-- The C types of parameters and return values. -/
inductive CType where
  | constCharPtr
  | charPtr
  | int
  | gint64
  | gObjectPtr
  | gListPtr
  | constJsonPtr
  | jsonPtr
deriving DecidableEq, Repr

/-- The functions that get a value from the array. -/
inductive Getter where
  | stringOrNull
  | int
  | jsonOrNull
deriving DecidableEq, Repr

/-- The functions that store the result. -/
inductive Setter where
  | string
  | int
  | object
  | objlist
  | json
deriving DecidableEq, Repr

/-- A row of `type_table`, as far as the generator reads it.  An empty getter
    is a type that cannot be a parameter. -/
structure TypeItem where
  paramType : CType
  retType   : CType
  getter    : Option Getter
  setter    : Setter

/-- `type_table`. -/
def typeTable : RpcType → TypeItem
  | .string => ⟨.constCharPtr, .charPtr, some .stringOrNull, .string⟩
  | .int => ⟨.int, .int, some .int, .int⟩
  | .int64 => ⟨.gint64, .gint64, some .int, .int⟩
  | .object => ⟨.gObjectPtr, .gObjectPtr, none, .object⟩
  | .objlist => ⟨.gListPtr, .gListPtr, none, .objlist⟩
  | .json => ⟨.constJsonPtr, .jsonPtr, some .jsonOrNull, .json⟩

/-- One generated statement: `<ctype> param<param> = <getter> (param_array,
    <index>);`. -/
structure ParamStmt where
  ctype  : CType
  param  : Nat
  getter : Option Getter
  index  : Nat
deriving DecidableEq, Repr

/-- A generated marshal. -/
structure Marshal where
  name       : String
  params     : List ParamStmt
  retType    : CType
  prototype  : List CType
  funcArgs   : List Nat
  convertRet : Setter
deriving DecidableEq, Repr

/-- The name of a type in the RPC table. -/
def typeName : RpcType → String
  | .string => "string"
  | .int => "int"
  | .int64 => "int64"
  | .object => "object"
  | .objlist => "objlist"
  | .json => "json"

/-- The suffix of the generated identifiers. -/
def argsName : List RpcType → String
  | [] => "void"
  | argTypes => String.intercalate "_" (argTypes.map typeName)

/-- The loop over `enumerate(arg_types)`, from counter `i`. -/
def getParameters (i : Nat) : List RpcType → List ParamStmt
  | [] => []
  | argType :: argTypes =>
      ⟨(typeTable argType).paramType, i + 1, (typeTable argType).getter, i + 1⟩
        :: getParameters (i + 1) argTypes

/-- `generate_marshal`. -/
def generateMarshal (retType : RpcType) (argTypes : List RpcType) : Marshal where
  name := "marshal_" ++ typeName retType ++ "__" ++ argsName argTypes
  params := getParameters 0 argTypes
  retType := (typeTable retType).retType
  prototype := argTypes.map (fun argType => (typeTable argType).paramType)
  funcArgs := (List.range argTypes.length).map (· + 1)
  convertRet := (typeTable retType).setter

/-! ## The C text -/

/-- A C type as the generator writes it. -/
def CType.text : CType → String
  | .constCharPtr => "const char*"
  | .charPtr => "char*"
  | .int => "int"
  | .gint64 => "gint64"
  | .gObjectPtr => "GObject*"
  | .gListPtr => "GList*"
  | .constJsonPtr => "const json_t*"
  | .jsonPtr => "json_t*"

/-- The name of a getter, empty when there is none. -/
def getterText : Option Getter → String
  | some .stringOrNull => "json_array_get_string_or_null_element"
  | some .int => "json_array_get_int_element"
  | some .jsonOrNull => "json_array_get_json_or_null_element"
  | none => ""

/-- The name of a setter. -/
def Setter.text : Setter → String
  | .string => "searpc_set_string_to_ret_object"
  | .int => "searpc_set_int_to_ret_object"
  | .object => "searpc_set_object_to_ret_object"
  | .objlist => "searpc_set_objlist_to_ret_object"
  | .json => "searpc_set_json_to_ret_object"

def ParamStmt.text (stmt : ParamStmt) : String :=
  "    " ++ stmt.ctype.text ++ " param" ++ toString stmt.param ++ " = " ++ getterText stmt.getter
    ++ " (param_array, " ++ toString stmt.index ++ ");\n"

/-- `func_call`: the cast to the prototype and the arguments. -/
def Marshal.funcCall (m : Marshal) : String :=
  m.retType.text ++ " ret = ((" ++ m.retType.text ++ " (*)("
    ++ String.join (m.prototype.map (fun t => t.text ++ ", ")) ++ "GError **))func) ("
    ++ String.join (m.funcArgs.map (fun i => "param" ++ toString i ++ ", ")) ++ "&error);"

/-- `marshal_template`, filled in. -/
def Marshal.text (m : Marshal) : String :=
  "\nstatic char *\n" ++ m.name ++ " (void *func, json_t *param_array, gsize *ret_len)\n\x7b\n"
    ++ "    GError *error = NULL;\n" ++ String.join (m.params.map ParamStmt.text) ++ "\n    "
    ++ m.funcCall ++ "\n\n    json_t *object = json_object ();\n    "
    ++ m.convertRet.text ++ " (object, ret);\n"
    ++ "    return searpc_marshal_set_ret_common (object, ret_len, error);\n\x7d\n"

/-! ## What the C does -/

/-- The values a generated marshal passes to a function. -/
inductive CValue where
  | int (value : Int32)
  | gint64 (value : Int64)
  | charPtr (value : Option Bytes)
  | jsonPtr (value : Option Json)
deriving DecidableEq

/-- `json_array_get_string_or_null_element`. -/
def jsonArrayGetStringOrNullElement (array : Json) (index : Nat) : Option Bytes :=
  match jsonArrayGet (some array) index with
  | some ret => jsonStringValue (some ret)
  | none => none

/-- `json_array_get_int_element`. -/
def jsonArrayGetIntElement (array : Json) (index : Nat) : Int :=
  jsonIntegerValue (jsonArrayGet (some array) index)

/-- `json_array_get_json_or_null_element`. -/
def jsonArrayGetJsonOrNullElement (array : Json) (index : Nat) : Option Json :=
  jsonArrayGet (some array) index

/-- A parameter statement; a `json_int_t` is cut to the variable's width.
    Absent where the C does not compile. -/
def ParamStmt.run (array : Json) (stmt : ParamStmt) : Option CValue :=
  match stmt.ctype, stmt.getter with
  | .int, some .int => some (.int (Int32.ofInt (jsonArrayGetIntElement array stmt.index)))
  | .gint64, some .int => some (.gint64 (Int64.ofInt (jsonArrayGetIntElement array stmt.index)))
  | .constCharPtr, some .stringOrNull =>
      some (.charPtr (jsonArrayGetStringOrNullElement array stmt.index))
  | .constJsonPtr, some .jsonOrNull =>
      some (.jsonPtr (jsonArrayGetJsonOrNullElement array stmt.index))
  | _, _ => none

/-- The parameter statements, in order: what each variable holds. -/
def runParams (array : Json) : List ParamStmt → Option (List (Nat × CValue))
  | [] => some []
  | stmt :: stmts =>
      match stmt.run array, runParams array stmts with
      | some value, some env => some ((stmt.param, value) :: env)
      | _, _ => none

/-- The arguments of the call, by variable. -/
def callArgs (env : List (Nat × CValue)) : List Nat → Option (List CValue)
  | [] => some []
  | i :: is =>
      match env.find? (fun p => p.1 = i), callArgs env is with
      | some p, some args => some (p.2 :: args)
      | _, _ => none

/-- An argument as its parameter in the prototype takes it: converted as if by
    assignment.  Absent where C has no such conversion. -/
def CType.convert : CType → CValue → Option CValue
  | .int, .int value => some (.int value)
  | .int, .gint64 value => some (.int value.toInt32)
  | .gint64, .int value => some (.gint64 value.toInt64)
  | .gint64, .gint64 value => some (.gint64 value)
  | .constCharPtr, .charPtr value => some (.charPtr value)
  | .constJsonPtr, .jsonPtr value => some (.jsonPtr value)
  | _, _ => none

/-- The arguments against the prototype of the cast; a call with too many or
    too few does not compile. -/
def convertArgs : List CType → List CValue → Option (List CValue)
  | [], [] => some []
  | t :: prototype, v :: args =>
      match t.convert v, convertArgs prototype args with
      | some value, some values => some (value :: values)
      | _, _ => none
  | _, _ => none

/-- The C type of a function that returns the value. -/
def RetVal.ctype : RetVal → CType
  | .string _ => .charPtr
  | .int _ => .int
  | .int64 _ => .gint64
  | .object _ => .gObjectPtr
  | .objlist _ => .gListPtr
  | .json _ => .jsonPtr

/-- `<ctype> ret = ((<ctype> (*)(…))func) (…);`: what the variable holds.  A call
    through a type that is not the function's own is undefined. -/
def CType.result (ctype : CType) (ret : RetVal) : Option RetVal :=
  if RetVal.ctype ret = ctype then some ret else none

/-- `convert_ret`: absent where the variable is not of the type the setter
    takes.  An integer is widened to `json_int_t`. -/
def runConvertRet : Setter → RetVal → Option (List (Bytes × Json))
  | .string, .string ret => some (searpcSetStringToRetObject [] ret)
  | .int, .int ret => some (searpcSetIntToRetObject [] ret.toInt)
  | .int, .int64 ret => some (searpcSetIntToRetObject [] ret.toInt)
  | .object, .object ret => some (searpcSetObjectToRetObject [] ret)
  | .objlist, .objlist ret => some (searpcSetObjlistToRetObject [] ret)
  | .json, .json ret => some (searpcSetJsonToRetObject [] ret)
  | _, _ => none

variable {F σ : Type}

/-- A call of a registered function by its marshal. -/
structure Invocation (F σ : Type) where
  func  : F
  args  : List CValue
  world : σ
  reply : Option Bytes

/-- What a function pointer does when called. -/
abbrev Program (F σ : Type) := F → List CValue → σ → σ × RetVal × Option GError

/-- What a marshal makes of a function's result: the variable `ret`, the member
    `ret` of the reply, and the reply. -/
def Marshal.finish (J : Jansson) (m : Marshal) (ret : RetVal) (error : Option GError) :
    Option Bytes :=
  ((m.retType.result ret).bind (runConvertRet m.convertRet)).map
    (fun object => searpcMarshalSetRetCommon J object error)

/-- A generated marshal at work: the variables, the arguments, the arguments as
    the prototype takes them, the call, the reply. -/
def runMarshal (J : Jansson) (P : Program F σ) (m : Marshal) (func : F) (paramArray : Json)
    (w : σ) : Option (Invocation F σ) :=
  match runParams paramArray m.params with
  | none => none
  | some env =>
      match (callArgs env m.funcArgs).bind (convertArgs m.prototype) with
      | none => none
      | some args =>
          let r := P func args w
          some ⟨func, args, r.1, m.finish J r.2.1 r.2.2⟩

/-! ## Arguments come through -/

/-- The RPC type of a C value. -/
def CValue.type : CValue → RpcType
  | .int _ => .int
  | .gint64 _ => .int64
  | .charPtr _ => .string
  | .jsonPtr _ => .json

/-- A value as the client passes it: an `int` widened to a pointer-sized word,
    everything else as it is. -/
def CValue.param : CValue → Param
  | .int value => .int value.toInt64
  | .gint64 value => .int64 value
  | .charPtr value => .string value
  | .jsonPtr value => .json value

/-- A value that can be carried: a string is `NULL` or UTF-8, a JSON value is
    there and survives the codec. -/
def CValue.Carried (Good : Json → Prop) : CValue → Prop
  | .charPtr (some s) => Text s
  | .jsonPtr (some v) => Good v
  | .jsonPtr none => False
  | _ => True

theorem CValue.Carried.utf8 {Good : Json → Prop} {v : CValue} (h : v.Carried Good) :
    v.param.Utf8 := by
  cases v with
  | int value => trivial
  | gint64 value => trivial
  | charPtr value =>
      cases value with
      | none => trivial
      | some s =>
          show utf8Valid (cstr s) = true
          rw [cstr_eq_self h.2]
          exact h.1
  | jsonPtr value => trivial

theorem CValue.Carried.good {J : Jansson} {Good : Json → Prop} (hJ : RoundTrips J Good)
    {v : CValue} (h : v.Carried Good) : Good v.param.element := by
  cases v with
  | int value =>
      have h1 := value.le_toInt
      have h2 := value.toInt_lt
      show Good (.int value.toInt64.toInt32.toInt)
      rw [Int32.toInt32_toInt64]
      exact hJ.int _ ⟨by omega, by omega⟩
  | gint64 value => exact hJ.int _ ⟨value.le_toInt, value.toInt_lt⟩
  | charPtr value =>
      cases value with
      | none => exact hJ.null
      | some s =>
          show Good (.str (cstr s))
          rw [cstr_eq_self h.2]
          exact hJ.str s h
  | jsonPtr value =>
      cases value with
      | none => exact h.elim
      | some v => exact h

/-- The statement generated for a type reads back what the client put at its
    index. -/
theorem ParamStmt.run_param {Good : Json → Prop} {v : CValue} (hv : v.Carried Good)
    {vs : List Json} {i : Nat} (h : vs[i + 1]? = some v.param.element) :
    ParamStmt.run (.arr vs)
      ⟨(typeTable v.type).paramType, i + 1, (typeTable v.type).getter, i + 1⟩ = some v := by
  have hget : jsonArrayGet (some (.arr vs)) (i + 1) = some v.param.element := h
  cases v with
  | int value =>
      show some (CValue.int (Int32.ofInt (jsonIntegerValue _))) = _
      rw [hget]
      show some (CValue.int (Int32.ofInt value.toInt64.toInt32.toInt)) = _
      rw [Int32.toInt32_toInt64, Int32.ofInt_toInt]
  | gint64 value =>
      show some (CValue.gint64 (Int64.ofInt (jsonIntegerValue _))) = _
      rw [hget]
      show some (CValue.gint64 (Int64.ofInt value.toInt)) = _
      rw [Int64.ofInt_toInt]
  | charPtr value =>
      show some (CValue.charPtr (jsonArrayGetStringOrNullElement (.arr vs) (i + 1))) = _
      rw [jsonArrayGetStringOrNullElement, hget]
      cases value with
      | none => rfl
      | some s =>
          show some (CValue.charPtr (some (cstr (cstr s)))) = _
          rw [cstr_eq_self hv.2, cstr_eq_self hv.2]
  | jsonPtr value =>
      show some (CValue.jsonPtr (jsonArrayGet (some (.arr vs)) (i + 1))) = _
      rw [hget]
      cases value with
      | none => exact hv.elim
      | some v => rfl

/-- What the variables of a marshal hold, from counter `i` on. -/
def paramEnv (i : Nat) : List CValue → List (Nat × CValue)
  | [] => []
  | v :: vals => (i + 1, v) :: paramEnv (i + 1) vals

/-- The parameter statements read the parameters. -/
theorem runParams_getParameters {Good : Json → Prop} (vs : List Json) :
    ∀ (i : Nat) (vals : List CValue), (∀ v ∈ vals, v.Carried Good) →
      (∀ j, (h : j < vals.length) → vs[i + j + 1]? = some (vals[j].param.element)) →
      runParams (.arr vs) (getParameters i (vals.map CValue.type)) = some (paramEnv i vals) := by
  intro i vals
  induction vals generalizing i with
  | nil => intro _ _; rfl
  | cons v vals ih =>
      intro hv hvs
      have hhead := ParamStmt.run_param (hv v List.mem_cons_self) (hvs 0 (Nat.zero_lt_succ _))
      have htail := ih (i + 1) (fun u hu => hv u (List.mem_cons_of_mem v hu)) (by
        intro j hj
        have := hvs (j + 1) (Nat.succ_lt_succ hj)
        rw [show i + 1 + j + 1 = i + (j + 1) + 1 by omega]
        exact this)
      simp only [List.map_cons, getParameters, runParams]
      rw [hhead, htail]
      rfl

/-- A variable that the later arguments do not name is out of the way. -/
theorem callArgs_cons {i : Nat} (v : CValue) (env : List (Nat × CValue)) :
    ∀ is : List Nat, (∀ k ∈ is, i < k) → callArgs ((i, v) :: env) is = callArgs env is := by
  intro is
  induction is with
  | nil => intro _; rfl
  | cons k is ih =>
      intro h
      have hne : ¬ i = k := Nat.ne_of_lt (h k List.mem_cons_self)
      simp only [callArgs, List.find?_cons, hne, decide_false]
      rw [ih (fun j hj => h j (List.mem_cons_of_mem k hj))]

/-- The call passes the variables in order. -/
theorem callArgs_paramEnv (i : Nat) (vals : List CValue) :
    callArgs (paramEnv i vals) ((List.range vals.length).map (fun j => i + j + 1))
      = some vals := by
  induction vals generalizing i with
  | nil => rfl
  | cons v vals ih =>
      have hrange : (List.range (v :: vals).length).map (fun j => i + j + 1)
          = (i + 1) :: (List.range vals.length).map (fun j => i + 1 + j + 1) := by
        rw [List.length_cons, List.range_succ_eq_map, List.map_cons, List.map_map]
        congr 1
        refine List.map_congr_left (fun j _ => ?_)
        show i + (j + 1) + 1 = i + 1 + j + 1
        omega
      have hskip : ∀ k ∈ (List.range vals.length).map (fun j => i + 1 + j + 1), i + 1 < k := by
        intro k hk
        obtain ⟨j, -, rfl⟩ := List.mem_map.mp hk
        omega
      rw [hrange]
      simp only [paramEnv, callArgs, List.find?_cons, decide_true]
      rw [callArgs_cons v _ _ hskip, ih (i + 1)]

/-- The prototype of the cast takes the variables as they are. -/
theorem convertArgs_types (vals : List CValue) :
    convertArgs ((vals.map CValue.type).map (fun t => (typeTable t).paramType)) vals
      = some vals := by
  induction vals with
  | nil => rfl
  | cons v vals ih =>
      have hhead : ((typeTable v.type).paramType).convert v = some v := by
        cases v <;> rfl
      simp only [List.map_cons, convertArgs, hhead, ih]

/-- **ONE CALL**: a marshal whose statements read some values calls the function
    once, with these values. -/
theorem runMarshal_eq (J : Jansson) (P : Program F σ) (retType : RpcType) {array : Json}
    {vals : List CValue}
    (henv : runParams array (getParameters 0 (vals.map CValue.type)) = some (paramEnv 0 vals))
    (func : F) (w : σ) :
    runMarshal J P (generateMarshal retType (vals.map CValue.type)) func array w
      = some ⟨func, vals, (P func vals w).1,
          (generateMarshal retType (vals.map CValue.type)).finish J (P func vals w).2.1
            (P func vals w).2.2⟩ := by
  have hargs := callArgs_paramEnv 0 vals
  simp only [Nat.zero_add] at hargs
  have hcall : (callArgs (paramEnv 0 vals) (generateMarshal retType
        (vals.map CValue.type)).funcArgs).bind
      (convertArgs (generateMarshal retType (vals.map CValue.type)).prototype) = some vals := by
    simp only [generateMarshal, List.length_map, hargs, Option.bind_some]
    exact convertArgs_types vals
  have hparams : (generateMarshal retType (vals.map CValue.type)).params
      = getParameters 0 (vals.map CValue.type) := rfl
  simp only [runMarshal, hparams, henv, hcall]

/-- **THE MARSHAL PASSES ITS PARAMETERS**: on the array of a call, the
    generated marshal calls the function with the caller's arguments. -/
theorem runMarshal_args (J : Jansson) (P : Program F σ) {Good : Json → Prop} (retType : RpcType)
    (vals : List CValue) (hv : ∀ v ∈ vals, v.Carried Good) (head : Json) (func : F) (w : σ) :
    runMarshal J P (generateMarshal retType (vals.map CValue.type)) func
        (.arr (head :: vals.map (fun v => v.param.element))) w
      = some ⟨func, vals, (P func vals w).1,
          (generateMarshal retType (vals.map CValue.type)).finish J (P func vals w).2.1
            (P func vals w).2.2⟩ := by
  refine runMarshal_eq J P retType (runParams_getParameters _ 0 vals hv ?_) func w
  intro j hj
  rw [Nat.zero_add, List.getElem?_cons_succ, List.getElem?_map, List.getElem?_eq_getElem hj]
  rfl

/-- The types that parameters may have. -/
def paramTypes : List RpcType := [.string, .int, .int64, .json]

/-- A statement generated for such a type reads something of the type out of
    any array. -/
theorem ParamStmt.run_some {t : RpcType} (h : t ∈ paramTypes) (array : Json) (i : Nat) :
    ∃ v : CValue, v.type = t
      ∧ ParamStmt.run array ⟨(typeTable t).paramType, i, (typeTable t).getter, i⟩ = some v := by
  cases t with
  | object => exact absurd h (by decide)
  | objlist => exact absurd h (by decide)
  | string => exact ⟨.charPtr _, rfl, rfl⟩
  | int => exact ⟨.int _, rfl, rfl⟩
  | int64 => exact ⟨.gint64 _, rfl, rfl⟩
  | json => exact ⟨.jsonPtr _, rfl, rfl⟩

/-- So the statements of a marshal always run. -/
theorem runParams_some (array : Json) {argTypes : List RpcType}
    (h : ∀ t ∈ argTypes, t ∈ paramTypes) (i : Nat) :
    ∃ vals : List CValue, vals.map CValue.type = argTypes
      ∧ runParams array (getParameters i argTypes) = some (paramEnv i vals) := by
  induction argTypes generalizing i with
  | nil => exact ⟨[], rfl, rfl⟩
  | cons t argTypes ih =>
      obtain ⟨v, hv, hrun⟩ := ParamStmt.run_some (h t List.mem_cons_self) array (i + 1)
      obtain ⟨vals, hvals, hrest⟩ := ih (fun u hu => h u (List.mem_cons_of_mem t hu)) (i + 1)
      refine ⟨v :: vals, by rw [List.map_cons, hv, hvals], ?_⟩
      simp only [getParameters, runParams, hrun, hrest]
      rfl

/-- **MARSHALS RUN**: on whatever array, a marshal for parameter types that have
    getters calls its function once, with arguments of these types. -/
theorem runMarshal_some (J : Jansson) (P : Program F σ) (retType : RpcType)
    {argTypes : List RpcType} (h : ∀ t ∈ argTypes, t ∈ paramTypes) (func : F) (array : Json)
    (w : σ) :
    ∃ vals : List CValue, vals.map CValue.type = argTypes
      ∧ runMarshal J P (generateMarshal retType argTypes) func array w
        = some ⟨func, vals, (P func vals w).1,
            (generateMarshal retType argTypes).finish J (P func vals w).2.1
              (P func vals w).2.2⟩ := by
  obtain ⟨vals, rfl, henv⟩ := runParams_some array h 0
  exact ⟨vals, rfl, runMarshal_eq J P retType henv func w⟩

/-! ## Results come back -/

/-- The reply of a call is made of what the function gave. -/
theorem runMarshal_reply {J : Jansson} {P : Program F σ} {m : Marshal} {func : F}
    {paramArray : Json} {w : σ} {inv : Invocation F σ} {v : RetVal} {error : Option GError}
    (hrun : runMarshal J P m func paramArray w = some inv)
    (hret : (P func inv.args w).2 = (v, error)) : inv.reply = m.finish J v error := by
  simp only [runMarshal] at hrun
  split at hrun
  · cases hrun
  · split at hrun
    · cases hrun
    · obtain rfl := Option.some.inj hrun
      dsimp only at hret ⊢
      rw [hret]

/-- The variable `ret` holds a result of the marshal's return type, and the
    generated setter is the encoder of that type. -/
theorem finish_eq (J : Jansson) {retType : RpcType} (argTypes : List RpcType) {v : RetVal}
    (hv : v.type = retType) (error : Option GError) :
    (generateMarshal retType argTypes).finish J v error
      = some (searpcMarshalSetRetCommon J (setRet v) error) := by
  subst hv
  cases v <;> rfl

/-- The client decoder of a value's type takes it out of the reply: the
    function's error with no value, or the value with no error. -/
theorem fret_reply {J : Jansson} {Good : Json → Prop} (hJ : RoundTrips J Good) {C : Classes}
    {gtype : GType} {v : RetVal} {error : Option GError}
    (hC : v.type = .objlist → (C gtype).isSome) (hv : v.Carried Good)
    (herr : ∀ e ∈ error, Text e.message) :
    ∃ got, searpcClientFret J C gtype (searpcMarshalSetRetCommon J (setRet v) error) v.type
        = some (got, error.map (fun e => ⟨.dft, e.code, e.message⟩))
      ∧ (error = none → v.Received C gtype got) ∧ (error ≠ none → got = failedRet v.type) := by
  have hcommon := handleRetCommon_reply hJ hv herr
  cases error with
  | none =>
      obtain ⟨got, hgot, hrec⟩ := decode_element hC hv hcommon
      exact ⟨got, hgot, fun _ => hrec, fun h => absurd rfl h⟩
  | some e =>
      refine ⟨failedRet v.type, ?_, (fun h => nomatch h), fun _ => rfl⟩
      have hfret : ∀ decode, fretWith J (searpcMarshalSetRetCommon J (setRet v) (some e)) v.type
          decode = some (failedRet v.type, some ⟨.dft, e.code, e.message⟩) := by
        intro decode
        simp only [fretWith, hcommon]
      cases v with
      | string ret => exact hfret decodeString
      | int ret => exact hfret decodeInt
      | int64 ret => exact hfret decodeInt64
      | object ret => exact hfret (decodeObject C gtype)
      | objlist ret => exact hfret (decodeObjlist C gtype)
      | json ret => exact hfret decodeJson

/-- **REPLIES COME BACK**: the marshal generated for a return type and any
    parameter types that have getters runs on every array; whatever value of
    that type and whatever error its function gives, the client decoder of the
    type takes out of the reply what the function gave: the error with no
    value, or the value with no error. -/
theorem reply_received {J : Jansson} {Good : Json → Prop} (hJ : RoundTrips J Good) (C : Classes)
    (gtype : GType) (P : Program F σ) (retType : RpcType) (argTypes : List RpcType)
    (hparams : ∀ t ∈ argTypes, t ∈ paramTypes) (func : F) (paramArray : Json) (w : σ)
    (hC : retType = .objlist → (C gtype).isSome) :
    ∃ inv, runMarshal J P (generateMarshal retType argTypes) func paramArray w = some inv
      ∧ inv.func = func ∧ inv.args.map CValue.type = argTypes
      ∧ inv.world = (P func inv.args w).1
      ∧ ∀ v error, (P func inv.args w).2 = (v, error) → v.type = retType → v.Carried Good →
          (∀ e ∈ error, Text e.message) →
          ∃ text got, inv.reply = some text
            ∧ searpcClientFret J C gtype text retType
              = some (got, error.map (fun e => ⟨.dft, e.code, e.message⟩))
            ∧ (error = none → v.Received C gtype got)
            ∧ (error ≠ none → got = failedRet retType) := by
  obtain ⟨vals, htypes, hrun⟩ := runMarshal_some J P retType hparams func paramArray w
  refine ⟨_, hrun, rfl, htypes, rfl, ?_⟩
  rintro v error hret rfl hv herr
  obtain ⟨got, hgot, hvalue, hfailed⟩ := fret_reply hJ hC hv herr
  have hreply := (runMarshal_reply hrun hret).trans (finish_eq J argTypes rfl error)
  exact ⟨_, got, hreply, hgot, hvalue, hfailed⟩

/-- A class with one integer property. -/
def counterClass : Classes := fun gtype =>
  if gtype = 1 then some [⟨ascii "count", .int, true, false, .int 0⟩] else none

/-- A function that returns a list of two counters. -/
def listCounters : Program Unit Unit := fun _ _ w =>
  (w, .objlist [⟨1, [(ascii "count", .int 3)]⟩, ⟨1, [(ascii "count", .int 4)]⟩], none)

/-- The list of counters arrives. -/
theorem reply_received_counters :
    ∃ inv, runMarshal textCodec listCounters (generateMarshal .objlist [.int]) ()
          (.arr [.str (ascii "f"), .int 2]) () = some inv
      ∧ ∃ text got, inv.reply = some text
        ∧ searpcClientFret textCodec counterClass 1 text .objlist = some (got, none)
        ∧ RetVal.Received counterClass 1
          (.objlist [⟨1, [(ascii "count", .int 3)]⟩, ⟨1, [(ascii "count", .int 4)]⟩]) got := by
  have hcarried : RetVal.Carried carried
      (.objlist [⟨1, [(ascii "count", .int 3)]⟩, ⟨1, [(ascii "count", .int 4)]⟩]) := by
    have hint : ∀ i, IntRange i → JsonText.Encodable (.obj [(ascii "count", .int i)]) :=
      fun i hi => ⟨⟨by decide, hi, trivial⟩, by simp⟩
    exact ⟨⟨hint 3 (by decide), hint 4 (by decide), trivial⟩, by decide⟩
  obtain ⟨inv, hrun, -, -, -, hreply⟩ := reply_received textCodec_roundTrips counterClass 1
    listCounters .objlist [.int] (by decide) () (.arr [.str (ascii "f"), .int 2]) ()
    (fun _ => rfl)
  obtain ⟨text, got, htext, hgot, hrec, -⟩ :=
    hreply _ none rfl rfl hcarried (fun e he => nomatch he)
  exact ⟨inv, hrun, text, got, htext, hgot, hrec rfl⟩

/-! ## NULL both ways

    `NULL` crosses as JSON null.  The getter of strings reads a JSON null back
    as `NULL`, and so does each decoder of results; the getter of JSON values
    hands on the element it finds, which for a JSON null is a value like any
    other and not `NULL`. -/

/-- The value is a `NULL` pointer. -/
def CValue.isNull : CValue → Bool
  | .charPtr none => true
  | .jsonPtr none => true
  | _ => false

/-- What a caller may pass: a string is `NULL` or UTF-8, a JSON value is `NULL`
    or survives the codec and is not a JSON null. -/
def CValue.Passed (Good : Json → Prop) : CValue → Prop
  | .charPtr (some s) => Text s
  | .jsonPtr (some v) => Good v ∧ v ≠ .null
  | _ => True

/-- What the marshal makes of a value. -/
def CValue.handed : CValue → CValue
  | .jsonPtr none => .jsonPtr (some .null)
  | v => v

/-- The function returns `NULL`. -/
def ReturnsNull : RetVal → Prop
  | .string none => True
  | .object none => True
  | .objlist [] => True
  | .json none => True
  | _ => False

theorem CValue.handed_eq {v : CValue} (h : v ≠ .jsonPtr none) : v.handed = v := by
  cases v with
  | jsonPtr value =>
      cases value with
      | none => exact absurd rfl h
      | some v => rfl
  | _ => rfl

theorem CValue.handed_type (v : CValue) : v.handed.type = v.type := by
  cases v with
  | jsonPtr value => cases value <;> rfl
  | _ => rfl

/-- On the wire there is no difference. -/
theorem CValue.handed_append (array : List Json) (v : CValue) :
    appendParam array v.handed.param = appendParam array v.param := by
  cases v with
  | jsonPtr value => cases value <;> rfl
  | _ => rfl

theorem CValue.Passed.carried {J : Jansson} {Good : Json → Prop} (hJ : RoundTrips J Good)
    {v : CValue} (h : v.Passed Good) : v.handed.Carried Good := by
  cases v with
  | int value => trivial
  | gint64 value => trivial
  | charPtr value =>
      cases value with
      | none => trivial
      | some s => exact h
  | jsonPtr value =>
      cases value with
      | none => exact hJ.null
      | some v => exact h.1

theorem appendArgs_handed (array : List Json) (vals : List CValue) :
    appendArgs array (vals.map (fun v => .param v.handed.param))
      = appendArgs array (vals.map (fun v => .param v.param)) := by
  induction vals generalizing array with
  | nil => rfl
  | cons v vals ih =>
      simp only [List.map_cons, appendArgs, CValue.handed_append]
      exact ih _

/-- The text of a call parses to its array. -/
theorem fcallToStr_load {J : Jansson} {Good : Json → Prop} (hJ : RoundTrips J Good)
    {fname : Bytes} (hf : Text fname) {vals : List CValue} (hv : ∀ v ∈ vals, v.Carried Good) :
    ∃ text, fcallToStr J fname (vals.map (fun v => .param v.param)) = some text
      ∧ J.loadb text = .ok (.arr (.str fname :: vals.map (fun v => v.param.element))) := by
  have hps : ∀ p ∈ vals.map CValue.param, p.Utf8 := by
    intro p hp
    obtain ⟨v, hvm, rfl⟩ := List.mem_map.mp hp
    exact (hv v hvm).utf8
  have harr := fcallArray_params fname (vals.map CValue.param)
  rw [elements_eq hps, cstr_eq_self hf.2, if_pos hf.1, List.map_map, List.map_map] at harr
  refine ⟨_, congrArg (Option.map fun array => J.dumps (.arr array) true) harr, ?_⟩
  refine hJ.array _ true ?_
  intro e he
  rcases List.mem_cons.mp he with rfl | he
  · exact hJ.str fname hf
  · obtain ⟨v, hvm, rfl⟩ := List.mem_map.mp he
    exact (hv v hvm).good hJ

/-- **WHAT A FUNCTION IS HANDED**: its caller's arguments, except that a `NULL`
    JSON value has become a JSON null. -/
theorem runMarshal_handed {J : Jansson} {Good : Json → Prop} (hJ : RoundTrips J Good)
    (P : Program F σ) (retType : RpcType) {fname : Bytes} (hf : Text fname) {vals : List CValue}
    (hv : ∀ v ∈ vals, v.Passed Good) (func : F) (w : σ) :
    ∃ text array inv, fcallToStr J fname (vals.map (fun v => .param v.param)) = some text
      ∧ J.loadb text = .ok array
      ∧ runMarshal J P (generateMarshal retType (vals.map CValue.type)) func array w = some inv
      ∧ inv.args = vals.map CValue.handed := by
  have hcarried : ∀ v ∈ vals.map CValue.handed, v.Carried Good := by
    intro u hu
    obtain ⟨v, hvm, rfl⟩ := List.mem_map.mp hu
    exact (hv v hvm).carried hJ
  obtain ⟨text, htext, hload⟩ := fcallToStr_load hJ hf hcarried
  have hrun := runMarshal_args J P retType _ hcarried (.str fname) func w
  have htypes : (vals.map CValue.handed).map CValue.type = vals.map CValue.type := by
    rw [List.map_map]
    exact List.map_congr_left (fun v _ => v.handed_type)
  rw [htypes] at hrun
  refine ⟨text, _, _, ?_, hload, hrun, rfl⟩
  rw [List.map_map] at htext
  rw [← htext, fcallToStr, fcallToStr, fcallArray, fcallArray]
  exact congrArg _ (appendArgs_handed _ vals).symm

/-- `NULL` comes out of each decoder as `NULL`. -/
theorem decode_null {J : Jansson} {C : Classes} {gtype : GType} {v : RetVal} (hnull : ReturnsNull v)
    {data : Bytes} (hdata : handleRetCommon J data = .ok (.obj [(ascii "ret", .null)])) :
    searpcClientFret J C gtype data v.type = some (v, none) := by
  have hfret : ∀ type decode, fretWith J data type decode = decode (some .null) := by
    intro type decode
    simp only [fretWith, hdata]
    rfl
  cases v with
  | string ret =>
      cases ret with
      | none => exact hfret _ decodeString
      | some s => exact hnull.elim
  | int ret => exact hnull.elim
  | int64 ret => exact hnull.elim
  | object ret =>
      cases ret with
      | none => exact hfret _ (decodeObject C gtype)
      | some o => exact hnull.elim
  | objlist ret =>
      cases ret with
      | nil => exact hfret _ (decodeObjlist C gtype)
      | cons o os => exact hnull.elim
  | json ret =>
      cases ret with
      | none => exact hfret _ decodeJson
      | some v => exact hnull.elim

/-- `NULL` is kept both ways: the function finds `NULL` just where the caller
    passed it, and a function that returns `NULL` without error gives the
    caller `NULL` without error. -/
def NullKept (J : Jansson) (C : Classes) (gtype : GType) (P : Program F σ) (retType : RpcType)
    (fname : Bytes) (vals : List CValue) (func : F) (w : σ) : Prop :=
  ∃ text array inv, fcallToStr J fname (vals.map (fun v => .param v.param)) = some text
    ∧ J.loadb text = .ok array
    ∧ runMarshal J P (generateMarshal retType (vals.map CValue.type)) func array w = some inv
    ∧ inv.args.map CValue.isNull = vals.map CValue.isNull
    ∧ ∀ v, ReturnsNull v → v.type = retType → (P func inv.args w).2 = (v, none) →
        ∃ reply, inv.reply = some reply
          ∧ searpcClientFret J C gtype reply retType = some (v, none)

theorem CValue.handed_isNull (v : CValue) : v.handed.isNull = v.isNull ↔ v ≠ .jsonPtr none := by
  constructor
  · rintro h rfl
    cases h
  · intro h
    rw [CValue.handed_eq h]

/-- The positions of `NULL` are kept just where no `NULL` is a JSON value. -/
theorem handed_isNull_iff (vals : List CValue) :
    (vals.map CValue.handed).map CValue.isNull = vals.map CValue.isNull
      ↔ CValue.jsonPtr none ∉ vals := by
  rw [List.map_map, List.map_inj_left]
  constructor
  · intro h hmem
    exact (CValue.handed_isNull _).mp (h _ hmem) rfl
  · intro h v hv
    refine (CValue.handed_isNull v).mpr ?_
    rintro rfl
    exact h hv

/-- A call that keeps `NULL` passes it for no JSON value. -/
theorem NullKept.positions {J : Jansson} {Good : Json → Prop} (hJ : RoundTrips J Good)
    {C : Classes} {gtype : GType} {P : Program F σ} {retType : RpcType} {fname : Bytes}
    (hf : Text fname) {vals : List CValue} (hv : ∀ v ∈ vals, v.Passed Good) {func : F} {w : σ}
    (h : NullKept J C gtype P retType fname vals func w) : CValue.jsonPtr none ∉ vals := by
  obtain ⟨text, array, inv, htext, hload, hrun, hargs⟩ :=
    runMarshal_handed hJ P retType hf hv func w
  obtain ⟨text', array', inv', htext', hload', hrun', hnull, -⟩ := h
  obtain rfl := Option.some.inj (htext.symm.trans htext')
  obtain rfl := Except.ok.inj (hload.symm.trans hload')
  obtain rfl := Option.some.inj (hrun.symm.trans hrun')
  rw [hargs] at hnull
  exact (handed_isNull_iff vals).mp hnull

/-- A `NULL` result is encoded as JSON null, whatever its type. -/
theorem ReturnsNull.element {Good : Json → Prop} {v : RetVal} (h : ReturnsNull v) :
    v.Carried Good ∧ v.element = .null := by
  cases v with
  | string ret =>
      cases ret with
      | none => exact ⟨trivial, rfl⟩
      | some s => exact h.elim
  | int ret => exact h.elim
  | int64 ret => exact h.elim
  | object ret =>
      cases ret with
      | none => exact ⟨trivial, rfl⟩
      | some o => exact h.elim
  | objlist ret =>
      cases ret with
      | nil => exact ⟨trivial, rfl⟩
      | cons o os => exact h.elim
  | json ret =>
      cases ret with
      | none => exact ⟨trivial, rfl⟩
      | some v => exact h.elim

/-- **NULL, EXACTLY**: `NULL` is kept both ways by the calls that pass it for no
    JSON value, and by no others. -/
theorem null_kept_iff {J : Jansson} {Good : Json → Prop} (hJ : RoundTrips J Good) (C : Classes)
    (gtype : GType) (P : Program F σ) (retType : RpcType) {fname : Bytes} (hf : Text fname)
    {vals : List CValue} (hv : ∀ v ∈ vals, v.Passed Good) (func : F) (w : σ) :
    NullKept J C gtype P retType fname vals func w ↔ CValue.jsonPtr none ∉ vals := by
  refine ⟨NullKept.positions hJ hf hv, fun hjson => ?_⟩
  obtain ⟨text, array, inv, htext, hload, hrun, hargs⟩ :=
    runMarshal_handed hJ P retType hf hv func w
  refine ⟨text, array, inv, htext, hload, hrun, ?_, ?_⟩
  · rw [hargs]
    exact (handed_isNull_iff vals).mpr hjson
  · rintro v hnull rfl hret
    obtain ⟨hcarried, helement⟩ := (hnull.element : v.Carried Good ∧ _)
    have hcommon := handleRetCommon_reply hJ hcarried (show ∀ e ∈ none, Text (GError.message e) by
      intro e he
      cases he)
    rw [helement] at hcommon
    exact ⟨_, (runMarshal_reply hrun hret).trans (finish_eq J _ rfl none),
      decode_null hnull hcommon⟩

/-- A function that returns no string. -/
def returnNull : Program Unit Unit := fun _ _ w => (w, .string none, none)

/-- `f (NULL, 5)`, where `5` is a JSON value. -/
theorem null_kept_string :
    NullKept textCodec bareClasses 1 returnNull .string (ascii "f")
      [.charPtr none, .jsonPtr (some (.int 5))] () () := by
  refine (null_kept_iff textCodec_roundTrips bareClasses 1 returnNull .string (by decide)
    ?_ () ()).mpr (by decide)
  intro v hv
  rcases List.mem_cons.mp hv with rfl | hv
  · trivial
  · rw [List.mem_singleton.mp hv]
    exact ⟨textCodec_roundTrips.int 5 (by decide), by decide⟩

/-- `f (NULL)`, for a JSON value, hands `f` a JSON null. -/
theorem null_lost_json :
    ¬ ∀ vals : List CValue, (∀ v ∈ vals, v.Passed carried) →
        NullKept textCodec bareClasses 1 returnNull .string (ascii "f") vals () () := by
  intro h
  have hpassed : ∀ v ∈ [CValue.jsonPtr none], v.Passed carried := by
    intro v hv
    rw [List.mem_singleton.mp hv]
    trivial
  exact (h _ hpassed).positions textCodec_roundTrips (by decide) hpassed List.mem_cons_self

end SearpcCodegen
