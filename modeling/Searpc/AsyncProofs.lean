import Searpc.ClientProofs

/-! # Asynchronous calls — `searpc_client_async_call__X` and its callback

    An asynchronous call hands the call text to the transport together with a
    record of what to do with the answer; when the answer is there the
    transport passes both to `searpc_client_generic_callback`, which picks the
    decoder by the name of the return type, runs the user's callback and then
    releases the result.

    The chain of comparisons starts with an `if` that no `else` joins to the
    rest.  That does no harm: no name is compared equal twice. -/

namespace SearpcAsync

open ByteMemory JsonValue SearpcJansson SearpcFcall SearpcReply SearpcGObject SearpcClient

/-! ## The calls

    `α` stands for user callbacks, `β` for the data passed along to them. -/

/-- `AsyncCallData`, without the client, which is never read. -/
structure AsyncCallData (α β : Type) where
  callback : α
  retType  : Bytes
  gtype    : GType
  cbdata   : β

/-- What a call leaves: its return value, what it handed to `async_send`, and
    the record that waits for the answer. -/
structure AsyncCall (α β : Type) where
  ret     : Int
  handed  : Option (Bytes × AsyncCallData α β)
  waiting : Option (AsyncCallData α β)

variable {α β : Type}

/-- `searpc_client_async_call_v`; the record is freed when `async_send`
    fails. -/
def searpcClientAsyncCallV (J : Jansson) (asyncSend : Bytes → Int) (fname : Bytes) (callback : α)
    (retType : Bytes) (gtype : GType) (cbdata : β) (args : List Arg) : AsyncCall α β :=
  match fcallToStr J fname args with
  | none => ⟨-1, none, none⟩
  | some fstr =>
      let data : AsyncCallData α β := ⟨callback, retType, gtype, cbdata⟩
      if asyncSend fstr < 0 then ⟨-1, some (fstr, data), none⟩
      else ⟨0, some (fstr, data), some data⟩

/-- `searpc_client_async_call__int`. -/
def searpcClientAsyncCallInt (J : Jansson) (asyncSend : Bytes → Int) (fname : Bytes) (callback : α)
    (cbdata : β) (args : List Arg) : AsyncCall α β :=
  searpcClientAsyncCallV J asyncSend fname callback (ascii "int") 0 cbdata args

/-- `searpc_client_async_call__int64`. -/
def searpcClientAsyncCallInt64 (J : Jansson) (asyncSend : Bytes → Int) (fname : Bytes)
    (callback : α) (cbdata : β) (args : List Arg) : AsyncCall α β :=
  searpcClientAsyncCallV J asyncSend fname callback (ascii "int64") 0 cbdata args

/-- `searpc_client_async_call__string`. -/
def searpcClientAsyncCallString (J : Jansson) (asyncSend : Bytes → Int) (fname : Bytes)
    (callback : α) (cbdata : β) (args : List Arg) : AsyncCall α β :=
  searpcClientAsyncCallV J asyncSend fname callback (ascii "string") 0 cbdata args

/-- `searpc_client_async_call__object`. -/
def searpcClientAsyncCallObject (J : Jansson) (asyncSend : Bytes → Int) (fname : Bytes)
    (callback : α) (objectType : GType) (cbdata : β) (args : List Arg) : AsyncCall α β :=
  searpcClientAsyncCallV J asyncSend fname callback (ascii "object") objectType cbdata args

/-- `searpc_client_async_call__objlist`. -/
def searpcClientAsyncCallObjlist (J : Jansson) (asyncSend : Bytes → Int) (fname : Bytes)
    (callback : α) (objectType : GType) (cbdata : β) (args : List Arg) : AsyncCall α β :=
  searpcClientAsyncCallV J asyncSend fname callback (ascii "objlist") objectType cbdata args

/-- `searpc_client_async_call__json`. -/
def searpcClientAsyncCallJson (J : Jansson) (asyncSend : Bytes → Int) (fname : Bytes)
    (callback : α) (cbdata : β) (args : List Arg) : AsyncCall α β :=
  searpcClientAsyncCallV J asyncSend fname callback (ascii "json") 0 cbdata args

/-- The asynchronous call of a return type. -/
def searpcClientAsyncCallTyped (J : Jansson) (asyncSend : Bytes → Int) (fname : Bytes)
    (callback : α) (objectType : GType) (cbdata : β) (args : List Arg) :
    RpcType → AsyncCall α β
  | .string => searpcClientAsyncCallString J asyncSend fname callback cbdata args
  | .int => searpcClientAsyncCallInt J asyncSend fname callback cbdata args
  | .int64 => searpcClientAsyncCallInt64 J asyncSend fname callback cbdata args
  | .object => searpcClientAsyncCallObject J asyncSend fname callback objectType cbdata args
  | .objlist => searpcClientAsyncCallObjlist J asyncSend fname callback objectType cbdata args
  | .json => searpcClientAsyncCallJson J asyncSend fname callback cbdata args

/-! ## The callback -/

/-- What `searpc_client_generic_callback` does, in order.  The result is
    `NULL`, or a value or a pointer to one. -/
inductive Event (α β : Type) where
  | callback (callback : α) (result : Option RetVal) (cbdata : β) (error : Option GError)
  | gFree (result : Option RetVal)
  | gObjectUnref (result : Option RetVal)
  | cleanObjlist (result : Option RetVal)
  | jsonDecref (result : Option RetVal)
  | gErrorFree (error : GError)
  | freeData

/-- The decoders, by two chains: a lone `if`, then the rest. -/
def resultByName (J : Jansson) (C : Classes) (retType : Bytes) (gtype : GType) (retstr : Bytes)
    (len : Nat) : Stored :=
  let first : Stored :=
    if retType = ascii "int" then storeRet (fretWithin J retstr len (searpcClientFretInt J))
    else some (none, none)
  match first with
  | none => none
  | some result =>
      if retType = ascii "int64" then storeRet (fretWithin J retstr len (searpcClientFretInt64 J))
      else if retType = ascii "string" then
        storeRet (fretWithin J retstr len (searpcClientFretString J))
      else if retType = ascii "object" then
        storeRet (fretWithin J retstr len (searpcClientFretObject J C gtype))
      else if retType = ascii "objlist" then
        storeRet (fretWithin J retstr len (searpcClientFretObjlist J C gtype))
      else if retType = ascii "json" then
        storeRet (fretWithin J retstr len (searpcClientFretJson J))
      else some result

/-- A result that is not the `NULL` of an object. -/
def isObject : Option RetVal → Bool
  | some (.object (some _)) => true
  | _ => false

/-- The chain that releases the result. -/
def releaseByName (retType : Bytes) (result : Option RetVal) : List (Event α β) :=
  if retType = ascii "string" then [.gFree result]
  else if retType = ascii "object" then
    if isObject result then [.gObjectUnref result] else []
  else if retType = ascii "objlist" then [.cleanObjlist result]
  else if retType = ascii "json" then [.jsonDecref result]
  else []

/-- `searpc_client_generic_callback`; nothing when an assertion fails. -/
def searpcClientGenericCallback (J : Jansson) (C : Classes) (retstr : Bytes) (len : Nat)
    (data : AsyncCallData α β) : Option Bytes → Option (List (Event α β))
  | some errstr =>
      let error : GError := ⟨.dft, 500, ascii "Transport error: " ++ errstr⟩
      some [.callback data.callback none data.cbdata (some error), .gErrorFree error, .freeData]
  | none =>
      match resultByName J C data.retType data.gtype retstr len with
      | none => none
      | some (result, error) =>
          some (.callback data.callback result data.cbdata error
            :: releaseByName data.retType result ++ [.freeData])

/-- The runs of user callbacks among the events. -/
def callbackRuns : List (Event α β) → List (α × Option RetVal × β × Option GError)
  | [] => []
  | .callback callback result cbdata error :: events =>
      (callback, result, cbdata, error) :: callbackRuns events
  | _ :: events => callbackRuns events

/-! ## Agreement with the synchronous calls -/

/-- The record of a typed call carries the name of its type, and the class
    where the type has one. -/
def dataOf (callback : α) (objectType : GType) (cbdata : β) (type : RpcType) :
    AsyncCallData α β :=
  ⟨callback, RpcType.text type,
    if type = .object ∨ type = .objlist then objectType else 0, cbdata⟩

/-- What a typed call hands over, whatever the transport then returns. -/
theorem asyncCallTyped_handed {J : Jansson} {fname fstr : Bytes} {args : List Arg}
    (hfstr : fcallToStr J fname args = some fstr) (asyncSend : Bytes → Int) (callback : α)
    (objectType : GType) (cbdata : β) (type : RpcType) :
    (searpcClientAsyncCallTyped J asyncSend fname callback objectType cbdata args type).handed
      = some (fstr, dataOf callback objectType cbdata type) := by
  have hcall : ∀ retType gtype, (searpcClientAsyncCallV J asyncSend fname callback retType gtype
      cbdata args).handed = some (fstr, ⟨callback, retType, gtype, cbdata⟩) := by
    intro retType gtype
    simp only [searpcClientAsyncCallV, hfstr]
    by_cases hneg : asyncSend fstr < 0
    · rw [if_pos hneg]
    · rw [if_neg hneg]
  cases type with
  | string => exact hcall _ _
  | int => exact hcall _ _
  | int64 => exact hcall _ _
  | object => exact hcall _ _
  | objlist => exact hcall _ _
  | json => exact hcall _ _

/-- Both chains together pick the decoder of the type. -/
theorem resultByName_dataOf (J : Jansson) (C : Classes) (callback : α) (objectType : GType)
    (cbdata : β) (type : RpcType) (reply : Bytes) :
    resultByName J C (dataOf callback objectType cbdata type).retType
        (dataOf callback objectType cbdata type).gtype reply reply.length
      = storeRet (searpcClientFret J C objectType reply type) := by
  have hwhole : ∀ decode, fretWithin J reply reply.length decode = decode reply := by
    intro decode
    rw [fretWithin, if_pos (Nat.le_refl _), List.take_length]
  cases type with
  | int =>
      -- the second chain leaves what the lone `if` has set
      have hint := hwhole (searpcClientFretInt J)
      show (match storeRet (fretWithin J reply reply.length (searpcClientFretInt J)) with
        | none => none
        | some result => some result) = storeRet (searpcClientFretInt J reply)
      rw [hint]
      cases storeRet (searpcClientFretInt J reply) <;> rfl
  | string => exact congrArg storeRet (hwhole _)
  | int64 => exact congrArg storeRet (hwhole _)
  | object => exact congrArg storeRet (hwhole _)
  | objlist => exact congrArg storeRet (hwhole _)
  | json => exact congrArg storeRet (hwhole _)

/-- Releasing runs no callback. -/
theorem callbackRuns_releaseByName (retType : Bytes) (result : Option RetVal) :
    callbackRuns (releaseByName retType result ++ [Event.freeData] : List (Event α β)) = [] := by
  rw [releaseByName]
  by_cases h1 : retType = ascii "string"
  · rw [if_pos h1]
    rfl
  · rw [if_neg h1]
    by_cases h2 : retType = ascii "object"
    · rw [if_pos h2]
      cases isObject result <;> rfl
    · rw [if_neg h2]
      by_cases h3 : retType = ascii "objlist"
      · rw [if_pos h3]
        rfl
      · rw [if_neg h3]
        by_cases h4 : retType = ascii "json"
        · rw [if_pos h4]
          rfl
        · rw [if_neg h4]
          rfl

/-- A synchronous call that gets this reply. -/
theorem callTyped_reply {J : Jansson} {fname fstr : Bytes} {args : List Arg}
    (hfstr : fcallToStr J fname args = some fstr) {type : RpcType} {objectType : GType}
    (htype : type = .object ∨ type = .objlist → objectType ≠ 0) (C : Classes) (reply : Bytes) :
    searpcClientCallTyped J C (transportOf (fun _ => some reply)) fname objectType args type
      = searpcClientFret J C objectType reply type := by
  rw [← typedExchange_run htype]
  simp only [typedExchange, exchangeWith, hfstr, Exchange.run, transportOf, Option.map_some,
    List.take_length]

/-- The asynchronous call does what the synchronous one does: the same bytes go
    out, and the answer makes the user's callback run once, with the value and
    the error of the synchronous call, or with `NULL` and an error when the
    transport reports one. -/
def Agrees (J : Jansson) (C : Classes) (started : AsyncCall α β) (sync : Exchange Fret)
    (callback : α) (cbdata : β) (reply : Bytes) : Prop :=
  ∃ fstr data, started.handed = some (fstr, data) ∧ sync.sent = [fstr]
    ∧ (∃ events v error, searpcClientGenericCallback J C reply reply.length data none = some events
        ∧ sync.run (transportOf (fun _ => some reply)) = some (v, error)
        ∧ callbackRuns events = [(callback, some v, cbdata, error)])
    ∧ ∀ errstr, ∃ events error,
        searpcClientGenericCallback J C reply reply.length data (some errstr) = some events
          ∧ callbackRuns events = [(callback, none, cbdata, some error)]

theorem genericCallback_errstr (J : Jansson) (C : Classes) (retstr : Bytes) (len : Nat)
    (data : AsyncCallData α β) (errstr : Bytes) :
    ∃ events error, searpcClientGenericCallback J C retstr len data (some errstr) = some events
      ∧ callbackRuns events = [(data.callback, none, data.cbdata, some error)] :=
  ⟨_, ⟨.dft, 500, ascii "Transport error: " ++ errstr⟩, rfl, rfl⟩

/-- The callback runs with what the decoder of the type leaves. -/
theorem genericCallback_reply (J : Jansson) (C : Classes) (callback : α) (objectType : GType)
    (cbdata : β) (type : RpcType) (reply : Bytes) :
    searpcClientGenericCallback J C reply reply.length
        (dataOf callback objectType cbdata type) none
      = (searpcClientFret J C objectType reply type).map (fun r =>
          Event.callback callback (some r.1) cbdata r.2
            :: releaseByName (RpcType.text type) (some r.1) ++ [.freeData]) := by
  rw [searpcClientGenericCallback, resultByName_dataOf]
  rcases searpcClientFret J C objectType reply type with _ | ⟨v, error⟩ <;> rfl

/-- **ASYNCHRONOUS AND SYNCHRONOUS CALLS, EXACTLY**: they agree on a reply, if
    and only if it is not one at which the list decoder's assertion fails; there
    the program ends before the callback is run. -/
theorem asyncCall_agrees_iff (J : Jansson) (C : Classes) (asyncSend : Bytes → Int) (fname : Bytes)
    (ps : List Param) (callback : α) (cbdata : β) (type : RpcType) (objectType : GType)
    (htype : type = .object ∨ type = .objlist → objectType ≠ 0) (reply : Bytes) :
    Agrees J C
        (searpcClientAsyncCallTyped J asyncSend fname callback objectType cbdata
          (ps.map .param) type)
        (typedExchange J C fname objectType (ps.map .param) type) callback cbdata reply
      ↔ ¬ (type = .objlist ∧ NoRet J reply) := by
  obtain ⟨array, harray⟩ : ∃ array, fcallArray fname (ps.map .param) = some array :=
    ⟨_, fcallArray_params fname ps⟩
  have hfstr : fcallToStr J fname (ps.map .param) = some (J.dumps (.arr array) true) := by
    rw [fcallToStr, harray, Option.map_some]
  have hsent : (typedExchange J C fname objectType (ps.map .param) type).sent
      = [J.dumps (.arr array) true] := by
    simp only [typedExchange, exchangeWith, hfstr, Exchange.sent]
  have hrun := (typedExchange_run htype J C (transportOf (fun _ => some reply)) fname
    (ps.map .param)).trans (callTyped_reply hfstr htype C reply)
  rw [← searpcClientFret_isSome_iff J C objectType reply type, Option.isSome_iff_exists]
  constructor
  · rintro ⟨fstr, data, -, -, ⟨events, v, error, -, hsync, -⟩, -⟩
    exact ⟨(v, error), hrun.symm.trans hsync⟩
  · rintro ⟨⟨v, error⟩, hfret⟩
    have hdone := genericCallback_reply J C callback objectType cbdata type reply
    rw [hfret, Option.map_some] at hdone
    refine ⟨_, _, asyncCallTyped_handed hfstr asyncSend callback objectType cbdata type, hsent,
      ⟨_, v, error, hdone, hrun.trans hfret, ?_⟩, ?_⟩
    · rw [List.cons_append, callbackRuns, callbackRuns_releaseByName]
    · exact genericCallback_errstr J C reply reply.length _

/-- A call for a number that is answered. -/
theorem asyncCall_agrees_int :
    (RpcType.int = .object ∨ RpcType.int = .objlist → (0 : GType) ≠ 0)
      ∧ Agrees textCodec (fun _ => none)
          (searpcClientAsyncCallTyped textCodec (fun _ => 0) (ascii "f") () 0 ()
            ([.string (some (ascii "x"))].map .param) .int)
          (typedExchange textCodec (fun _ => none) (ascii "f") 0
            ([.string (some (ascii "x"))].map .param) .int) () ()
          (textCodec.dumps (.obj [(ascii "ret", .int 3)]) true) :=
  ⟨fun h => absurd h (by decide),
    (asyncCall_agrees_iff textCodec (fun _ => none) (fun _ => 0) (ascii "f")
      [.string (some (ascii "x"))] () () .int 0 (fun h => absurd h (by decide)) _).mpr
      (fun h => absurd h.1 (by decide))⟩

/-- A call for a list that is answered with the empty object. -/
theorem asyncCall_aborts :
    ¬ ∀ (C : Classes) (fname : Bytes) (ps : List Param) (type : RpcType) (objectType : GType)
        (reply : Bytes), objectType ≠ 0 →
      Agrees textCodec C
        (searpcClientAsyncCallTyped textCodec (fun _ => 0) fname () objectType () (ps.map .param)
          type)
        (typedExchange textCodec C fname objectType (ps.map .param) type) () () reply := by
  intro h
  obtain ⟨fstr, data, hhanded, -, ⟨events, v, error, hdone, -, -⟩, -⟩ :=
    h (fun _ => some []) (ascii "f") [] .objlist 1 [0x7B, 0x7D] (by decide)
  have hdata := asyncCallTyped_handed (show fcallToStr textCodec (ascii "f") [] = some _ from rfl)
    (fun _ => 0) () 1 () .objlist
  rw [List.map_nil, hdata, Option.some.injEq, Prod.mk.injEq] at hhanded
  rw [← hhanded.2, genericCallback_reply] at hdone
  have hnone : (searpcClientFret textCodec (fun _ => some []) 1 [0x7B, 0x7D] .objlist).isNone := by
    decide +kernel
  rw [Option.isNone_iff_eq_none.mp hnone] at hdone
  cases hdone

end SearpcAsync
