import Searpc.CodegenProofs

/-! # Dispatch — the registry and `searpc_server_call_function`

    A call text is parsed, its first element names a function of the service,
    and the function's marshal runs.  Every accessor on the way is partial: the
    array may be no array, its first element no string, and then the name is
    `NULL` when it reaches the hash table.

    The registry is generic in what a function pointer and a marshal are; the
    marshals of `searpc-codegen.py` are one instance.  It has the contents of
    the tables and not their keys' memory: it stands for tables whose keys are
    live, and `SearpcRegistryCells.callFunction_agree` says that dispatch over
    such tables is dispatch over these. -/

namespace SearpcServer

open ByteMemory JsonValue SearpcJansson SearpcReply SearpcFcall SearpcCodegen

/-! ## The registry -/

variable {F M ρ σ : Type}

/-- A hash table with string keys. -/
abbrev Table (α : Type) := List (Bytes × α)

/-- `g_hash_table_lookup`. -/
def lookup {α : Type} (table : Table α) (key : Bytes) : Option α :=
  (table.find? (fun entry => entry.1 = key)).map Prod.snd

/-- `g_hash_table_insert`: the value under the key is replaced.  Whose memory the
    key of the entry is, and whether it is still allocated, is not said here but
    in `SearpcRegistryCells`. -/
def insert {α : Type} (table : Table α) (key : Bytes) (value : α) : Table α :=
  (key, value) :: table.filter (fun entry => entry.1 ≠ key)

/-- `g_hash_table_remove`. -/
def remove {α : Type} (table : Table α) (key : Bytes) : Table α :=
  table.filter (fun entry => entry.1 ≠ key)

structure MarshalItem (M : Type) where
  mfunc     : M
  signature : Bytes

structure FuncItem (F M : Type) where
  func    : F
  fname   : Bytes
  marshal : MarshalItem M

structure Service (F M : Type) where
  name      : Bytes
  funcTable : Table (FuncItem F M)

/-- The two tables of the server. -/
structure Registry (F M : Type) where
  marshalTable : Table (MarshalItem M)
  serviceTable : Table (Service F M)

/-- `searpc_create_service`. -/
def searpcCreateService (R : Registry F M) (svcName : Bytes) : Registry F M :=
  match lookup R.serviceTable svcName with
  | some _ => R
  | none => { R with serviceTable := insert R.serviceTable svcName ⟨svcName, []⟩ }

/-- `searpc_remove_service`. -/
def searpcRemoveService (R : Registry F M) (svcName : Bytes) : Registry F M :=
  { R with serviceTable := remove R.serviceTable svcName }

/-- `searpc_server_register_marshal`. -/
def searpcServerRegisterMarshal (R : Registry F M) (signature : Bytes) (marshal : M) :
    Bool × Registry F M :=
  match lookup R.marshalTable signature with
  | some _ => (false, R)
  | none =>
      (true, { R with marshalTable := insert R.marshalTable signature ⟨marshal, signature⟩ })

/-- `searpc_server_register_function`. -/
def searpcServerRegisterFunction (R : Registry F M) (svcName : Bytes) (func : F)
    (fname signature : Bytes) : Bool × Registry F M :=
  match lookup R.serviceTable svcName with
  | none => (false, R)
  | some service =>
      match lookup R.marshalTable signature with
      | none => (false, R)
      | some mitem =>
          (true,
            { R with
              serviceTable := insert R.serviceTable svcName
                { service with
                  funcTable := insert service.funcTable fname ⟨func, fname, mitem⟩ } })

/-- The function registered in a service under a name. -/
def findFunction (R : Registry F M) (svcName fname : Bytes) : Option (FuncItem F M) :=
  match lookup R.serviceTable svcName with
  | none => none
  | some service => lookup service.funcTable fname

/-! ## Error replies -/

/-- `json_object_set_string_or_null_member`. -/
def jsonObjectSetStringOrNullMember (object : List (Bytes × Json)) (name : Bytes) :
    Option Bytes → List (Bytes × Json)
  | some value => jsonObjectSetNew object name (jsonString value)
  | none => jsonObjectSetNew object name (some .null)

/-- The members of an error reply. -/
def errorMembers (code : Int) (msg : Bytes) : List (Bytes × Json) :=
  jsonObjectSetStringOrNullMember (jsonObjectSetNew [] (ascii "err_code") (some (.int code)))
    (ascii "err_msg") (some msg)

/-- `error_to_json`. -/
def errorToJson (J : Jansson) (code : Int) (msg : Bytes) : Bytes :=
  J.dumps (.obj (errorMembers code msg)) true

/-- `snprintf (buf, size, …)`: at most `size - 1` bytes are kept. -/
def snprintf (size : Nat) (text : Bytes) : Bytes := text.take (size - 1)

/-! ## The slow log -/

/-- How slow logging is set up: the threshold in milliseconds and the functions
    whose calls are kept out. -/
structure SlowLog where
  threshold     : Int
  filteredFuncs : List Bytes

/-- One line of the slow log, times in microseconds. -/
structure LogLine where
  start   : Int
  svcName : Bytes
  func    : Bytes
  intv    : Int
deriving DecidableEq

/-- `rpc_include_passwd`. -/
def rpcIncludePasswd (log : SlowLog) (fname : Bytes) : Bool :=
  log.filteredFuncs.any (fun rpcName => rpcName = fname)

/-- `print_slow_log_if_necessary`. -/
def printSlowLogIfNecessary (log : SlowLog) (svcName func : Bytes) (start finish : Int) :
    Option LogLine :=
  if (finish - start).tdiv 1000 < log.threshold then none
  else some ⟨start, svcName, func, finish - start⟩

/-! ## Dispatch -/

/-- How a call ends: in one of the function's own error replies, with a
    registered function run by its marshal, or in a lookup with a `NULL` key. -/
inductive Outcome (ρ : Type) where
  | errorReply (code : Int) (text : Bytes)
  | ran (result : ρ)
  | nullLookup

/-- What a call leaves: its outcome and maybe a line in the slow log. -/
structure Called (ρ : Type) where
  outcome : Outcome ρ
  log     : Option LogLine

/-- When a call starts and when it ends. -/
structure Clock where
  start  : Int
  finish : Int

/-- `searpc_server_call_function`; `mfunc` is what running a marshal does. -/
def searpcServerCallFunction (J : Jansson) (R : Registry F M) (mfunc : M → F → Json → ρ)
    (slowLog : Option SlowLog) (clock : Clock) (svcName func : Bytes) : Called ρ :=
  match lookup R.serviceTable svcName with
  | none =>
      ⟨.errorReply 501 (errorToJson J 501
        (snprintf 255 (ascii "cannot find service " ++ svcName ++ ascii "."))), none⟩
  | some service =>
      match J.loadb func with
      | .error text =>
          ⟨.errorReply 511 (errorToJson J 511
            (snprintf 511 (ascii "failed to load RPC call: " ++ cstr text ++ ascii "\n"))), none⟩
      | .ok array =>
          -- no check that there is an array, a first element, or a string
          match jsonStringValue (jsonArrayGet (some array) 0) with
          | none => ⟨.nullLookup, none⟩
          | some fname =>
              match lookup service.funcTable fname with
              | none =>
                  ⟨.errorReply 500 (errorToJson J 500
                    (snprintf 255 (ascii "cannot find function " ++ fname ++ ascii "."))), none⟩
              | some fitem =>
                  ⟨.ran (mfunc fitem.marshal.mfunc fitem.func array),
                    match slowLog with
                    | none => none
                    | some log =>
                        if log.filteredFuncs = [] ∨ rpcIncludePasswd log fitem.fname = false then
                          printSlowLogIfNecessary log svcName func clock.start clock.finish
                        else none⟩

/-! ## Untrusted calls -/

/-- The text parses to an array that starts with the name of a function of the
    service. -/
def NamesFunction (J : Jansson) (R : Registry F M) (svcName func : Bytes) : Prop :=
  ∃ name rest fitem, J.loadb func = .ok (.arr (.str name :: rest))
    ∧ findFunction R svcName (cstr name) = some fitem

/-- The outcome is an error reply that says so. -/
def IsErrorReply (J : Jansson) (outcome : Outcome ρ) : Prop :=
  ∃ code text members, outcome = .errorReply code text ∧ text = J.dumps (.obj members) true
    ∧ memberGet members (ascii "err_code") = some (.int code)

/-- Dispatch copes with a call: no lookup with a `NULL` name, and an error
    reply unless the call names a function. -/
def Copes (J : Jansson) (R : Registry F M) (svcName func : Bytes) (outcome : Outcome ρ) : Prop :=
  outcome ≠ .nullLookup ∧ (¬ NamesFunction J R svcName func → IsErrorReply J outcome)

/-- The service is unknown, the text does not parse, or it parses to an array
    that starts with a string. -/
def StartsWithName (J : Jansson) (R : Registry F M) (svcName func : Bytes) : Prop :=
  lookup R.serviceTable svcName = none ∨ (∃ text, J.loadb func = .error text)
    ∨ ∃ name rest, J.loadb func = .ok (.arr (.str name :: rest))

/-- Every error reply carries its code. -/
theorem isErrorReply_errorToJson (J : Jansson) (code : Int) (msg : Bytes) :
    IsErrorReply J (Outcome.errorReply code (errorToJson J code msg) : Outcome ρ) := by
  have hne : ascii "err_msg" ≠ ascii "err_code" := by decide
  refine ⟨code, _, errorMembers code msg, rfl, rfl, ?_⟩
  simp only [errorMembers, jsonObjectSetStringOrNullMember]
  cases jsonString msg with
  | none => rfl
  | some v => exact memberGet_memberSet_ne _ v hne

/-- A name is a string at the front of an array, and nothing else is. -/
theorem jsonStringValue_head {array : Json} {fname : Bytes}
    (h : jsonStringValue (jsonArrayGet (some array) 0) = some fname) :
    ∃ name rest, array = .arr (.str name :: rest) ∧ cstr name = fname := by
  cases array with
  | arr vs =>
      cases vs with
      | nil => exact nomatch h
      | cons v vs =>
          cases v with
          | str name => exact ⟨name, vs, rfl, Option.some.inj h⟩
          | _ => exact nomatch h
  | _ => exact nomatch h

/-- **UNTRUSTED CALLS, EXACTLY**: dispatch copes with a call if and only if the
    service is unknown, the text does not parse, or it parses to an array that
    starts with a string.  The keys of the registry are live
    (`SearpcRegistryCells.callFunction_agree`). -/
theorem callFunction_copes_iff (J : Jansson) (R : Registry F M) (mfunc : M → F → Json → ρ)
    (slowLog : Option SlowLog) (clock : Clock) (svcName func : Bytes) :
    Copes J R svcName func
        (searpcServerCallFunction J R mfunc slowLog clock svcName func).outcome
      ↔ StartsWithName J R svcName func := by
  cases hsvc : lookup R.serviceTable svcName with
  | none =>
      simp only [searpcServerCallFunction, hsvc]
      exact iff_of_true ⟨(fun h => nomatch h), fun _ => isErrorReply_errorToJson J _ _⟩
        (Or.inl hsvc)
  | some service =>
      simp only [searpcServerCallFunction, hsvc]
      cases hload : J.loadb func with
      | error text =>
          exact iff_of_true ⟨(fun h => nomatch h), fun _ => isErrorReply_errorToJson J _ _⟩
            (Or.inr (Or.inl ⟨text, hload⟩))
      | ok array =>
          dsimp only
          cases hname : jsonStringValue (jsonArrayGet (some array) 0) with
          | none =>
              -- `g_hash_table_lookup` with a `NULL` key
              refine iff_of_false (fun h => h.1 rfl) ?_
              rintro (h | ⟨text, h⟩ | ⟨name, rest, h⟩)
              · rw [hsvc] at h
                exact nomatch h
              · rw [hload] at h
                exact nomatch h
              · rw [hload] at h
                obtain rfl := Except.ok.inj h
                exact nomatch hname
          | some fname =>
              obtain ⟨name, rest, rfl, rfl⟩ := jsonStringValue_head hname
              refine iff_of_true ?_ (Or.inr (Or.inr ⟨name, rest, hload⟩))
              dsimp only
              cases hfunc : lookup service.funcTable (cstr name) with
              | none =>
                  exact ⟨(fun h => nomatch h), fun _ => isErrorReply_errorToJson J _ _⟩
              | some fitem =>
                  refine ⟨(fun h => nomatch h), fun hno => absurd ?_ hno⟩
                  refine ⟨name, rest, fitem, hload, ?_⟩
                  simp only [findFunction, hsvc]
                  exact hfunc

/-- A server with one service that has no functions. -/
def emptyService : Registry Unit Unit :=
  searpcCreateService ⟨[], []⟩ (ascii "s")

/-- The call `[]` looks up a `NULL` name. -/
theorem callFunction_empty_array :
    ¬ Copes textCodec emptyService (ascii "s") (ascii "[]")
      (searpcServerCallFunction textCodec emptyService (fun _ _ _ => ()) none ⟨0, 0⟩ (ascii "s")
        (ascii "[]")).outcome := by
  have hnull : (searpcServerCallFunction textCodec emptyService (fun _ _ _ => ()) none ⟨0, 0⟩
      (ascii "s") (ascii "[]")).outcome = .nullLookup := rfl
  exact fun h => h.1 hnull

/-! ## Calls of registered functions -/

/-- **ARGUMENTS COME THROUGH**: the client's text of a call, dispatched by the
    server, runs the function registered under the name through its generated
    marshal, once and with exactly the caller's arguments: the world is left as
    the function leaves it on these arguments, and the reply is the encoding of
    what it returns on them. -/
theorem callFunction_passes_args {J : Jansson} {Good : Json → Prop} (hJ : RoundTrips J Good)
    (R : Registry F Marshal) (P : Program F σ) (w : σ) (slowLog : Option SlowLog) (clock : Clock)
    {svcName fname : Bytes} (fitem : FuncItem F Marshal) (retType : RpcType) (vals : List CValue)
    (hfind : findFunction R svcName fname = some fitem)
    (hm : fitem.marshal.mfunc = generateMarshal retType (vals.map CValue.type))
    (hf : Text fname) (hv : ∀ v ∈ vals, v.Carried Good) :
    ∃ text inv, fcallToStr J fname (vals.map (fun v => .param v.param)) = some text
      ∧ (searpcServerCallFunction J R (fun m func array => runMarshal J P m func array w) slowLog
          clock svcName text).outcome = .ran (some inv)
      ∧ inv.func = fitem.func ∧ inv.args = vals ∧ inv.world = (P fitem.func vals w).1
      ∧ ∀ ret error, (P fitem.func vals w).2 = (ret, error) → ret.type = retType →
          inv.reply = some (searpcMarshalSetRetCommon J (setRet ret) error) := by
  obtain ⟨text, htext, hload⟩ := fcallToStr_load hJ hf hv
  obtain ⟨vs, hvs⟩ : ∃ vs, vs = Json.str fname :: vals.map (fun v => v.param.element) := ⟨_, rfl⟩
  rw [← hvs] at hload
  have hname : jsonStringValue (jsonArrayGet (some (.arr vs)) 0) = some fname := by
    rw [hvs]
    show some (cstr fname) = some fname
    rw [cstr_eq_self hf.2]
  -- the marshal reads the arguments from behind the name
  have hrun := runMarshal_args J P retType vals hv (.str fname) fitem.func w
  rw [← hvs, ← hm] at hrun
  obtain ⟨inv, hinv, hfunc, hargs, hworld⟩ : ∃ inv, runMarshal J P fitem.marshal.mfunc fitem.func
      (.arr vs) w = some inv ∧ inv.func = fitem.func ∧ inv.args = vals
        ∧ inv.world = (P fitem.func vals w).1 := ⟨_, hrun, rfl, rfl, rfl⟩
  refine ⟨_, inv, htext, ?_, hfunc, hargs, hworld, ?_⟩
  · cases hsvc : lookup R.serviceTable svcName with
    | none =>
        simp only [findFunction, hsvc] at hfind
        cases hfind
    | some service =>
        simp only [findFunction, hsvc] at hfind
        simp only [searpcServerCallFunction, hsvc, hload, hname, hfind]
        exact congrArg Outcome.ran hinv
  · intro ret error hret htype
    rw [← hargs] at hret
    have hreply := runMarshal_reply hinv hret
    rw [hm, finish_eq J _ htype error] at hreply
    exact hreply

/-- A server with a function `f` of a string and an integer. -/
def oneFunction : Registry Unit Marshal :=
  (searpcServerRegisterFunction
    (searpcServerRegisterMarshal (searpcCreateService ⟨[], []⟩ (ascii "s")) (ascii "sig")
      (generateMarshal .int [.string, .int])).2 (ascii "s") () (ascii "f") (ascii "sig")).2

/-- What `f` does: it returns its integer. -/
def returnInt : Program Unit Unit
  | _, [.charPtr _, .int i], w => (w, .int i, none)
  | _, _, w => (w, .int 0, none)

/-- `f (NULL, -1)` arrives as it was made, and `f` returns -1. -/
theorem callFunction_passes_args_two :
    ∃ text inv, fcallToStr textCodec (ascii "f")
        ([CValue.charPtr none, .int (-1)].map (fun v => .param v.param)) = some text
      ∧ (searpcServerCallFunction textCodec oneFunction
          (fun m func array => runMarshal textCodec returnInt m func array ()) none ⟨0, 0⟩
          (ascii "s") text).outcome = .ran (some inv)
      ∧ inv.args = [.charPtr none, .int (-1)]
      ∧ inv.reply = some (searpcMarshalSetRetCommon textCodec (setRet (.int (-1))) none) := by
  have hcarried : ∀ v ∈ [CValue.charPtr none, .int (-1)], v.Carried carried := by
    intro v hv
    rcases List.mem_cons.mp hv with rfl | hv
    · trivial
    · rw [List.mem_singleton.mp hv]
      trivial
  obtain ⟨text, inv, htext, hran, -, hargs, -, hreply⟩ :=
    callFunction_passes_args textCodec_roundTrips oneFunction returnInt () none ⟨0, 0⟩
      ⟨(), ascii "f", ⟨generateMarshal .int [.string, .int], ascii "sig"⟩⟩ .int
      [.charPtr none, .int (-1)]
      (show findFunction oneFunction (ascii "s") (ascii "f") = some _ from rfl) rfl (by decide)
      hcarried
  exact ⟨text, inv, htext, hran, hargs, hreply _ none rfl rfl⟩

end SearpcServer
