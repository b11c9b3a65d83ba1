import Searpc.FcallProofs
import Searpc.PipeClientProofs
import Searpc.ReplyProofs

/-! # Client calls — `searpc_client_call__X`

    A typed call makes the call text, hands it to the transport and decodes
    what comes back; `NULL` from the transport is the transport error.  Over
    the pipe transport everything then depends on the transport returning
    `NULL` whenever the reply did not arrive whole, and
    `send_faithful_iff` says when it does. -/

namespace SearpcClient

open ByteMemory Framing JsonValue SearpcJansson SearpcPipeIo SearpcPipeClient
open SearpcFcall SearpcReply SearpcGObject

/-! ## Typed calls -/

/-- `client->send`: from a call text to `NULL` or a buffer and its length. -/
abbrev Transport := Bytes → Option (Bytes × Nat)

/-- The error of a call whose arguments have an unknown type. -/
def invalidParameter : GError := ⟨.dft, 0, ascii "Invalid Parameter"⟩

/-- `TRANSPORT_ERROR_CODE` and `TRANSPORT_ERROR`. -/
def transportError : GError := ⟨.dft, 500, ascii "Transport Error"⟩

/-- What a call returns beside an error of its own. -/
def zeroRet : RpcType → RetVal
  | .string => .string none
  | .int => .int 0
  | .int64 => .int64 0
  | .object => .object none
  | .objlist => .objlist []
  | .json => .json none

/-- What the typed calls share. -/
def callWith (J : Jansson) (send : Transport) (type : RpcType) (decode : Bytes → Fret)
    (fname : Bytes) (args : List Arg) : Fret :=
  match fcallToStr J fname args with
  | none => some (zeroRet type, some invalidParameter)
  | some fstr =>
      match send fstr with
      | none => some (zeroRet type, some transportError)
      | some (fret, retLen) => decode (fret.take retLen)

/-- `searpc_client_call__int`. -/
def searpcClientCallInt (J : Jansson) (send : Transport) (fname : Bytes) (args : List Arg) : Fret :=
  callWith J send .int (searpcClientFretInt J) fname args

/-- `searpc_client_call__int64`. -/
def searpcClientCallInt64 (J : Jansson) (send : Transport) (fname : Bytes) (args : List Arg) :
    Fret :=
  callWith J send .int64 (searpcClientFretInt64 J) fname args

/-- `searpc_client_call__string`. -/
def searpcClientCallString (J : Jansson) (send : Transport) (fname : Bytes) (args : List Arg) :
    Fret :=
  callWith J send .string (searpcClientFretString J) fname args

/-- `searpc_client_call__object`; without a type it returns at once. -/
def searpcClientCallObject (J : Jansson) (C : Classes) (send : Transport) (fname : Bytes)
    (objectType : GType) (args : List Arg) : Fret :=
  if objectType = 0 then some (.object none, none)
  else callWith J send .object (searpcClientFretObject J C objectType) fname args

/-- `searpc_client_call__objlist`; without a type it returns at once. -/
def searpcClientCallObjlist (J : Jansson) (C : Classes) (send : Transport) (fname : Bytes)
    (objectType : GType) (args : List Arg) : Fret :=
  if objectType = 0 then some (.objlist [], none)
  else callWith J send .objlist (searpcClientFretObjlist J C objectType) fname args

/-- `searpc_client_call__json`. -/
def searpcClientCallJson (J : Jansson) (send : Transport) (fname : Bytes) (args : List Arg) :
    Fret :=
  callWith J send .json (searpcClientFretJson J) fname args

/-- The typed call of a return type. -/
def searpcClientCallTyped (J : Jansson) (C : Classes) (send : Transport) (fname : Bytes)
    (objectType : GType) (args : List Arg) : RpcType → Fret
  | .string => searpcClientCallString J send fname args
  | .int => searpcClientCallInt J send fname args
  | .int64 => searpcClientCallInt64 J send fname args
  | .object => searpcClientCallObject J C send fname objectType args
  | .objlist => searpcClientCallObjlist J C send fname objectType args
  | .json => searpcClientCallJson J send fname args

/-- A call as the transport sees it: refused before anything is sent, or a
    request and what is made of the answer. -/
inductive Exchange (α : Type) where
  | refused (ret : α)
  | request (fstr : Bytes) (answer : Option (Bytes × Nat) → α)

/-- The bytes handed to the transport. -/
def Exchange.sent {α : Type} : Exchange α → List Bytes
  | .refused _ => []
  | .request fstr _ => [fstr]

/-- The outcome over a transport. -/
def Exchange.run {α : Type} (send : Transport) : Exchange α → α
  | .refused ret => ret
  | .request fstr answer => answer (send fstr)

/-- What the typed calls share, as an exchange. -/
def exchangeWith (J : Jansson) (type : RpcType) (decode : Bytes → Fret) (fname : Bytes)
    (args : List Arg) : Exchange Fret :=
  match fcallToStr J fname args with
  | none => .refused (some (zeroRet type, some invalidParameter))
  | some fstr => .request fstr (fun
      | none => some (zeroRet type, some transportError)
      | some (fret, retLen) => decode (fret.take retLen))

/-- A typed call with a type as an exchange. -/
def typedExchange (J : Jansson) (C : Classes) (fname : Bytes) (objectType : GType)
    (args : List Arg) (type : RpcType) : Exchange Fret :=
  exchangeWith J type (fun data => searpcClientFret J C objectType data type) fname args

theorem exchangeWith_run (J : Jansson) (send : Transport) (type : RpcType) (decode : Bytes → Fret)
    (fname : Bytes) (args : List Arg) :
    (exchangeWith J type decode fname args).run send = callWith J send type decode fname args := by
  cases hfstr : fcallToStr J fname args with
  | none => simp only [exchangeWith, callWith, hfstr, Exchange.run]
  | some fstr =>
      simp only [exchangeWith, callWith, hfstr, Exchange.run]

/-- The exchange is the typed call, where the type that the object calls ask
    for is given. -/
theorem typedExchange_run {type : RpcType} {objectType : GType}
    (htype : type = .object ∨ type = .objlist → objectType ≠ 0) (J : Jansson) (C : Classes)
    (send : Transport) (fname : Bytes) (args : List Arg) :
    (typedExchange J C fname objectType args type).run send
      = searpcClientCallTyped J C send fname objectType args type := by
  refine (exchangeWith_run J send type _ fname args).trans ?_
  cases type with
  | object => exact (if_neg (htype (Or.inl rfl))).symm
  | objlist => exact (if_neg (htype (Or.inr rfl))).symm
  | _ => rfl

/-- Every typed call turns `NULL` from the transport into the transport
    error. -/
theorem callTyped_null {J : Jansson} {C : Classes} {send : Transport} {fname fstr : Bytes}
    {objectType : GType} {args : List Arg} (hfstr : fcallToStr J fname args = some fstr)
    (hsend : send fstr = none) (htype : objectType ≠ 0) (type : RpcType) :
    searpcClientCallTyped J C send fname objectType args type
      = some (zeroRet type, some transportError) := by
  have hwith : ∀ decode, callWith J send type decode fname args
      = some (zeroRet type, some transportError) := by
    intro decode
    simp only [callWith, hfstr, hsend]
  cases type with
  | string => exact hwith _
  | int => exact hwith _
  | int64 => exact hwith _
  | object => exact (if_neg htype).trans (hwith _)
  | objlist => exact (if_neg htype).trans (hwith _)
  | json => exact hwith _

/-! ## Replies over the pipe -/

/-- A call over the pipe is faithful to the bytes the server sent: a buffer
    comes back only when the request went out and a whole frame came in, and
    then it is the frame's payload; `NULL` makes every typed call report the
    transport error. -/
def Faithful (e : Endian) (J : Jansson) (service fcallStr reply : Bytes)
    (send : Bytes → Run) : Prop :=
  (∀ buf len, (send fcallStr).ret = some (buf, len) →
      (send fcallStr).out = requestBytes e J service fcallStr
        ∧ len = buf.length ∧ ∃ rest, splitFrame e reply = some (buf, rest))
    ∧ ((send fcallStr).ret = none → ∀ (C : Classes) (fname : Bytes) (objectType : GType)
        (args : List Arg) (type : RpcType), fcallToStr J fname args = some fcallStr →
        objectType ≠ 0 →
        searpcClientCallTyped J C (fun fstr => (send fstr).ret) fname objectType args type
          = some (zeroRet type, some transportError))

/-- A complete frame reads as its payload. -/
theorem replyRead_complete {e : Endian} {reply p rest : Bytes}
    (h : splitFrame e reply = some (p, rest))
    (reqLen : Nat) (junk : Mem) : replyRead e reqLen junk reply = some (p, p.length) := by
  obtain ⟨rfl, hpos, hlt⟩ := splitFrame_eq_some.mp h
  have hlen : replyLen e reqLen (encodeFrame e p ++ rest) = p.length := by
    rw [replyLen, take_encodeFrame, memWord_store_full e _ (u32Bytes_length e _), u32Value_u32Bytes,
      Nat.mod_eq_of_lt hlt]
  have hdrop : ((encodeFrame e p ++ rest).drop 4).take p.length = p := by
    rw [drop_encodeFrame, List.take_left]
  rw [replyRead, hlen, if_neg (by omega), hdrop, slice_store_eq junk rfl]

/-- **THE CLIENT, EXACTLY**: whatever the kernel does, a call is faithful, if
    and only if the reply arrives whole or the length left in `len` (the header
    bytes that came, over those of the request's length) is zero. -/
theorem send_faithful_iff (e : Endian) (J : Jansson) (service fcallStr reply : Bytes) :
    (∀ (env : Env) (junk : Mem), Faithful e J service fcallStr reply
        (fun fstr => searpcNamedPipeSend e J env junk service fstr reply))
      ↔ (splitFrame e reply).isSome ∨ replyLen e (requestLen J service fcallStr) reply = 0 := by
  constructor
  · intro h
    by_cases h0 : replyLen e (requestLen J service fcallStr) reply = 0
    · exact Or.inr h0
    · -- on a smooth kernel the cut reply is returned
      left
      have hret := searpcNamedPipeSend_smooth e J (fill 0) service fcallStr reply
      rw [replyRead, if_neg h0] at hret
      obtain ⟨-, -, rest, hsplit⟩ := (h .smooth (fill 0)).1 _ _ hret
      rw [hsplit]
      rfl
  · intro h env junk
    refine ⟨?_, fun hnone C fname objectType args type hfstr htype =>
      callTyped_null hfstr hnone htype type⟩
    intro buf len hsome
    rcases searpcNamedPipeSend_ret e J env junk service fcallStr reply with hnone | ⟨hret, hout⟩
    · rw [hnone] at hsome
      exact nomatch hsome
    · rcases h with hsplit | h0
      · obtain ⟨⟨p, rest⟩, hp⟩ := Option.isSome_iff_exists.mp hsplit
        rw [hret, replyRead_complete hp, Option.some.injEq, Prod.mk.injEq] at hsome
        obtain ⟨rfl, rfl⟩ := hsome
        exact ⟨hout, rfl, rest, hp⟩
      · rw [hret, replyRead, if_pos h0] at hsome
        exact nomatch hsome

/-- A server that closes the connection without a byte: the client returns as
    many bytes of fresh memory as its request was long. -/
theorem send_fabricates :
    ¬ ∀ (env : Env) (junk : Mem), Faithful .little textCodec (ascii "s") (ascii "f") []
        (fun fstr => searpcNamedPipeSend .little textCodec env junk (ascii "s") fstr []) := by
  intro h
  have hret : ((searpcNamedPipeSend .little textCodec .smooth (fill 0x41) (ascii "s") (ascii "f")
      []).ret).isSome := by decide +kernel
  obtain ⟨⟨buf, len⟩, hsome⟩ := Option.isSome_iff_exists.mp hret
  obtain ⟨-, -, rest, hsplit⟩ := (h .smooth (fill 0x41)).1 buf len hsome
  exact nomatch hsplit

/-! ## The generic call

    `searpc_client_call` picks the decoder by the name of the return type.  It
    gives the decoder of strings the length of the REQUEST: a longer reply is
    cut, and behind a shorter one the decoder may read on, outside the
    buffer. -/

/-- The name of a return type. -/
def RpcType.text : RpcType → Bytes
  | .string => ascii "string"
  | .int => ascii "int"
  | .int64 => ascii "int64"
  | .object => ascii "object"
  | .objlist => ascii "objlist"
  | .json => ascii "json"

/-- What the generic call leaves: what it stored through `ret_ptr`, if it did,
    and maybe an error; or nothing when an assertion fails or memory outside a
    buffer is read. -/
abbrev Stored := Option (Option RetVal × Option GError)

/-- A decoder's value is stored. -/
def storeRet (fret : Fret) : Stored := fret.map (fun r => (some r.1, r.2))

/-- A decoder told that a buffer has `len` bytes.  Where it has fewer, the loader
    must have given up at a bad token inside it; else it reads outside. -/
def fretWithin (J : Jansson) (data : Bytes) (len : Nat) (decode : Bytes → Fret) : Fret :=
  if len ≤ data.length then decode (data.take len)
  else if J.stops data then decode data
  else none

/-- The chain of comparisons in `searpc_client_call`; an unknown type stores
    nothing. -/
def storeByName (J : Jansson) (C : Classes) (retType : Bytes) (gobjectType : GType)
    (fret : Bytes) (len retLen : Nat) : Stored :=
  if retType = ascii "int" then storeRet (fretWithin J fret retLen (searpcClientFretInt J))
  else if retType = ascii "int64" then storeRet (fretWithin J fret retLen (searpcClientFretInt64 J))
  else if retType = ascii "string" then storeRet (fretWithin J fret len (searpcClientFretString J))
  else if retType = ascii "object" then
    storeRet (fretWithin J fret retLen (searpcClientFretObject J C gobjectType))
  else if retType = ascii "objlist" then
    storeRet (fretWithin J fret retLen (searpcClientFretObjlist J C gobjectType))
  else if retType = ascii "json" then storeRet (fretWithin J fret retLen (searpcClientFretJson J))
  else some (none, none)

/-- `searpc_client_call`. -/
def searpcClientCall (J : Jansson) (C : Classes) (fname retType : Bytes) (gobjectType : GType)
    (args : List Arg) : Exchange Stored :=
  match fcallToStr J fname args with
  | none => .refused (some (none, some invalidParameter))
  | some fstr => .request fstr (fun
      | none => some (none, some transportError)
      | some (fret, retLen) => storeByName J C retType gobjectType fret fstr.length retLen)

/-- A transport that returns whole replies. -/
def transportOf (reply : Bytes → Option Bytes) : Transport :=
  fun fstr => (reply fstr).map (fun r => (r, r.length))

/-- The code and the message of an error. -/
def GError.said (error : GError) : Int32 × Bytes := (error.code, error.message)

/-- The generic call does what the typed call does: the same error or none,
    and without one the same value; where the one stops at an assertion, so
    does the other. -/
def Agree : Stored → Fret → Prop
  | some (stored, error), some (v, error') =>
      error.map GError.said = error'.map GError.said ∧ (error = none → stored = some v)
  | none, none => True
  | _, _ => False

/-- Calls that agree both set an error or both set none. -/
theorem agree_isSome {stored : Stored} {fret : Fret} (h : Agree stored fret) :
    stored.map (fun r => r.2.isSome) = fret.map (fun r => r.2.isSome) := by
  rcases stored with _ | ⟨v, error⟩ <;> rcases fret with _ | ⟨v', error'⟩
  · rfl
  · exact h.elim
  · exact h.elim
  · have hsaid := congrArg Option.isSome h.1
    rw [Option.isSome_map, Option.isSome_map] at hsaid
    simp only [Option.map_some, hsaid]

/-- The code and the message that a reply carries for an error. -/
def errorReply (object : Json) : Option (Int32 × Bytes) :=
  (jsonObjectGet (some object) (ascii "err_code")).map (fun code =>
    (Int32.ofInt (jsonIntegerValue (some code)),
      printfString (jsonStringValue (jsonObjectGet (some object) (ascii "err_msg")))))

/-- The error that a parsed or refused reply reports. -/
def reported : Except Bytes Json → Option (Int32 × Bytes)
  | .error text => some (0, cstr text)
  | .ok object => errorReply object

/-- The string that a parsed reply carries. -/
def carriedString : Except Bytes Json → Option Bytes
  | .error _ => none
  | .ok object => jsonStringValue (jsonObjectGet (some object) (ascii "ret"))

/-- Two outcomes of the parser say the same about a string: the same error, or
    no error and the same string. -/
def SaysSame (x y : Except Bytes Json) : Prop :=
  reported x = reported y ∧ (reported x = none → carriedString x = carriedString y)

/-- By chance two texts fail with one message: the parser refuses both with the
    same words, or it refuses one and the other carries an error of code 0 with
    just these words. -/
inductive Echo : Except Bytes Json → Except Bytes Json → Prop where
  | both {text text' : Bytes} (h : cstr text = cstr text') : Echo (.error text) (.error text')
  | whole {text : Bytes} {v : Json} (h : errorReply v = some (0, cstr text)) :
      Echo (.error text) (.ok v)
  | cut {v : Json} {text : Bytes} (h : errorReply v = some (0, cstr text)) :
      Echo (.ok v) (.error text)

/-- A reply for which the length of the request does as well as its own: it has
    this length; or the parser stops at a bad token inside what both lengths
    cover; or it is complete before the cut; or by chance the cut shows in no
    error message. -/
inductive LengthHarmless (J : Jansson) (len : Nat) (r : Bytes) : Prop where
  | equal (h : len = r.length)
  | stopped (h : J.stops (r.take len) = true)
  | complete (hlen : len < r.length) (v : Json) (hcut : J.loadb (r.take len) = .ok v)
      (hwhole : J.loadb r = .ok v)
  | echo (hlen : len < r.length) (h : Echo (J.loadb (r.take len)) (J.loadb r))

/-- Every decoder but that of strings gets the whole reply. -/
theorem storeByName_text (J : Jansson) (C : Classes) {type : RpcType} (hne : type ≠ .string)
    (gobjectType : GType) (r : Bytes) (len : Nat) :
    storeByName J C (RpcType.text type) gobjectType r len r.length
      = storeRet (searpcClientFret J C gobjectType r type) := by
  have hwhole : ∀ decode, fretWithin J r r.length decode = decode r := by
    intro decode
    rw [fretWithin, if_pos (Nat.le_refl _), List.take_length]
  cases type with
  | string => exact absurd rfl hne
  | int => exact congrArg storeRet (hwhole _)
  | int64 => exact congrArg storeRet (hwhole _)
  | object => exact congrArg storeRet (hwhole _)
  | objlist => exact congrArg storeRet (hwhole _)
  | json => exact congrArg storeRet (hwhole _)

theorem storeByName_string (J : Jansson) (C : Classes) (gobjectType : GType) (r : Bytes)
    (len : Nat) :
    storeByName J C (RpcType.text .string) gobjectType r len r.length
      = storeRet (fretWithin J r len (searpcClientFretString J)) := rfl

/-- Over a whole buffer nothing is lost: the value is stored as it is. -/
theorem agree_storeRet (fret : Fret) : Agree (storeRet fret) fret := by
  rcases fret with _ | ⟨v, error⟩
  · exact trivial
  · exact ⟨rfl, fun _ => rfl⟩

/-- The decoder of strings, by what the parser makes of the bytes. -/
theorem searpcClientFretString_eq (J : Jansson) (data : Bytes) :
    ∃ error, searpcClientFretString J data
        = some (.string (if error = none then carriedString (J.loadb data) else none), error)
      ∧ error.map GError.said = reported (J.loadb data) := by
  cases hload : J.loadb data with
  | error text =>
      refine ⟨some ⟨.searpcJson, 0, cstr text⟩, ?_, rfl⟩
      simp only [searpcClientFretString, fretWith, handleRetCommon, hload]
      rfl
  | ok object =>
      cases hcode : jsonObjectGet (some object) (ascii "err_code") with
      | none =>
          refine ⟨none, ?_, ?_⟩
          · simp only [searpcClientFretString, fretWith, handleRetCommon, hload, hcode]
            rfl
          · simp only [reported, errorReply, hcode, Option.map_none]
      | some code =>
          refine ⟨some ⟨.dft, Int32.ofInt (jsonIntegerValue (some code)),
            printfString (jsonStringValue (jsonObjectGet (some object) (ascii "err_msg")))⟩, ?_, ?_⟩
          · simp only [searpcClientFretString, fretWith, handleRetCommon, hload, hcode]
            rfl
          · simp only [reported, errorReply, hcode, Option.map_some]
            rfl

/-- The decoder of strings on the first `len` bytes against the whole. -/
theorem agree_string_iff (J : Jansson) (data data' : Bytes) :
    Agree (storeRet (searpcClientFretString J data)) (searpcClientFretString J data')
      ↔ SaysSame (J.loadb data) (J.loadb data') := by
  obtain ⟨e, hfret, hsaid⟩ := searpcClientFretString_eq J data
  obtain ⟨e', hfret', hsaid'⟩ := searpcClientFretString_eq J data'
  have hnone : ∀ {e : Option GError} {x}, e.map GError.said = reported x →
      (e = none ↔ reported x = none) := by
    intro e x h
    rw [← h, Option.map_eq_none_iff]
  rw [hfret, hfret', SaysSame, ← hnone hsaid, ← hsaid, ← hsaid']
  refine and_congr_right (fun hsame => imp_congr_right (fun he => ?_))
  have he' : e' = none := by
    rw [he, Option.map_none] at hsame
    exact Option.map_eq_none_iff.mp hsame.symm
  rw [if_pos he, if_pos he', Option.some.injEq, RetVal.string.injEq]

/-- On a parser that reads from the left, two texts of which one begins the
    other say the same where the shorter is complete, or by chance. -/
theorem saysSame_cut_iff {J : Jansson} (hJ : Streams J) (len : Nat) (r : Bytes) :
    SaysSame (J.loadb (r.take len)) (J.loadb r)
      ↔ (∃ v, J.loadb (r.take len) = .ok v ∧ J.loadb r = .ok v)
        ∨ Echo (J.loadb (r.take len)) (J.loadb r) := by
  cases hcut : J.loadb (r.take len) with
  | error text =>
      cases hwhole : J.loadb r with
      | error text' =>
          constructor
          · rintro ⟨hsame, -⟩
            exact .inr (.both (Prod.mk.inj (Option.some.inj hsame)).2)
          · rintro (⟨v, h, -⟩ | h)
            · cases h
            · cases h with
              | both h => exact ⟨by rw [reported, reported, h], fun hnone => by cases hnone⟩
      | ok v =>
          constructor
          · rintro ⟨hsame, -⟩
            exact .inr (.whole hsame.symm)
          · rintro (⟨v, h, -⟩ | h)
            · cases h
            · cases h with
              | whole h => exact ⟨h.symm, fun hnone => by cases hnone⟩
  | ok v =>
      cases hwhole : J.loadb r with
      | error text =>
          constructor
          · rintro ⟨hsame, -⟩
            exact .inr (.cut hsame)
          · rintro (⟨v, -, h⟩ | h)
            · cases h
            · cases h with
              | cut h =>
                  refine ⟨h, fun hnone => ?_⟩
                  rw [show errorReply v = none from hnone] at h
                  cases h
      | ok v' =>
          -- what is complete before the cut means the same behind it
          have hsame : v' = v := hJ.complete (r.take len) (r.drop len) v v' hcut
            (by rw [List.take_append_drop]; exact hwhole)
          exact iff_of_true ⟨by rw [hsame], fun _ => by rw [hsame]⟩
            (.inl ⟨v, rfl, by rw [hsame]⟩)

/-- The decoder of strings, told the length of the request. -/
theorem agree_within_iff {J : Jansson} (hJ : Streams J) (len : Nat) (r : Bytes) :
    Agree (storeRet (fretWithin J r len (searpcClientFretString J))) (searpcClientFretString J r)
      ↔ LengthHarmless J len r := by
  rcases Nat.lt_trichotomy len r.length with hlt | heq | hgt
  · rw [fretWithin, if_pos (Nat.le_of_lt hlt), agree_string_iff]
    constructor
    · intro h
      rcases (saysSame_cut_iff hJ len r).mp h with ⟨v, hcut, hwhole⟩ | hecho
      · exact .complete hlt v hcut hwhole
      · exact .echo hlt hecho
    · rintro (heq | hstop | ⟨-, v, hcut, hwhole⟩ | ⟨-, hecho⟩)
      · exact absurd heq (Nat.ne_of_lt hlt)
      · have hsame := hJ.same (r.take len) (r.drop len) hstop
        rw [List.take_append_drop] at hsame
        rw [hsame]
        exact ⟨rfl, fun _ => rfl⟩
      · exact (saysSame_cut_iff hJ len r).mpr (.inl ⟨v, hcut, hwhole⟩)
      · exact (saysSame_cut_iff hJ len r).mpr (.inr hecho)
  · rw [heq, fretWithin, if_pos (Nat.le_refl _), List.take_length]
    exact iff_of_true (agree_storeRet _) (.equal rfl)
  · have hno : ¬ len ≤ r.length := Nat.not_le_of_lt hgt
    have htake : r.take len = r := List.take_of_length_le (Nat.le_of_lt hgt)
    rw [fretWithin, if_neg hno]
    cases hstop : J.stops r with
    | true => exact iff_of_true (agree_storeRet _) (.stopped (by rw [htake, hstop]))
    | false =>
        -- the decoder reads on behind the reply, and the typed call does not
        refine iff_of_false ?_ ?_
        · obtain ⟨e, hfret, -⟩ := searpcClientFretString_eq J r
          rw [hfret]
          exact id
        · rintro (heq | hstop' | ⟨hlt, -⟩ | ⟨hlt, -⟩)
          · exact absurd heq (Nat.ne_of_gt hgt)
          · rw [htake, hstop] at hstop'
            cases hstop'
          · exact absurd hlt (Nat.lt_asymm hgt)
          · exact absurd hlt (Nat.lt_asymm hgt)

/-- **GENERIC AND TYPED CALLS, EXACTLY**: the generic call hands the same bytes
    to the transport and agrees with the typed call, if and only if no string
    is asked for, or nothing is sent, or no reply comes, or the length of the
    request does the reply no harm. -/
theorem searpcClientCall_agrees_iff {J : Jansson} (hJ : Streams J) (C : Classes)
    (reply : Bytes → Option Bytes) (fname : Bytes) (args : List Arg) (type : RpcType)
    (objectType : GType) (htype : type = .object ∨ type = .objlist → objectType ≠ 0) :
    ((searpcClientCall J C fname (RpcType.text type) objectType args).sent
        = (typedExchange J C fname objectType args type).sent
      ∧ Agree ((searpcClientCall J C fname (RpcType.text type) objectType args).run
          (transportOf reply))
        (searpcClientCallTyped J C (transportOf reply) fname objectType args type))
    ↔ ∀ fstr r, type = .string → fcallToStr J fname args = some fstr → reply fstr = some r →
        LengthHarmless J fstr.length r := by
  rw [← typedExchange_run htype]
  cases hfstr : fcallToStr J fname args with
  | none =>
      simp only [searpcClientCall, typedExchange, exchangeWith, hfstr, Exchange.sent, Exchange.run]
      refine iff_of_true ⟨trivial, rfl, fun h => ?_⟩ (fun fstr r _ h => ?_)
      · cases h
      · cases h
  | some fstr =>
      simp only [searpcClientCall, typedExchange, exchangeWith, hfstr, Exchange.sent, Exchange.run,
        transportOf]
      cases hr : reply fstr with
      | none =>
          refine iff_of_true ⟨trivial, rfl, fun h => ?_⟩ (fun fstr' r _ hf h => ?_)
          · cases h
          · cases hf
            rw [hr] at h
            cases h
      | some r =>
          simp only [Option.map_some, List.take_length, true_and]
          by_cases hstring : type = .string
          · subst hstring
            rw [storeByName_string]
            constructor
            · intro hagree fstr' r' _ hf hr'
              cases hf
              rw [hr] at hr'
              cases hr'
              exact (agree_within_iff hJ _ _).mp hagree
            · intro h
              exact (agree_within_iff hJ _ _).mpr (h fstr r rfl rfl hr)
          · rw [storeByName_text J C hstring]
            exact iff_of_true (agree_storeRet _) (fun _ _ h => absurd h hstring)

/-- A call for a string that is answered with a page of another server: both
    calls stop at its first byte. -/
theorem searpcClientCall_agrees_html :
    (RpcType.string = .object ∨ RpcType.string = .objlist → (0 : GType) ≠ 0)
      ∧ (searpcClientCall textCodec (fun _ => none) (ascii "get_name") (RpcType.text .string) 0
            []).sent
          = (typedExchange textCodec (fun _ => none) (ascii "get_name") 0 [] .string).sent
      ∧ Agree ((searpcClientCall textCodec (fun _ => none) (ascii "get_name")
            (RpcType.text .string) 0 []).run (transportOf (fun _ => some (ascii "<html>"))))
          (searpcClientCallTyped textCodec (fun _ => none)
            (transportOf (fun _ => some (ascii "<html>"))) (ascii "get_name") 0 [] .string) := by
  refine ⟨fun h => absurd h (by decide), (searpcClientCall_agrees_iff textCodec_streams
    (fun _ => none) _ (ascii "get_name") [] .string 0 (fun h => absurd h (by decide))).mpr ?_⟩
  rintro fstr r - hfstr hr
  cases hr
  cases hfstr
  exact .stopped (by decide +kernel)

/-- A reply longer than the request: the typed call returns the string, the
    generic call an error. -/
theorem searpcClientCall_cuts_reply :
    ¬ ∀ (reply : Bytes → Option Bytes) (fname : Bytes) (args : List Arg) (type : RpcType)
        (objectType : GType), objectType ≠ 0 →
      (searpcClientCall textCodec (fun _ => none) fname (RpcType.text type) objectType args).sent
          = (typedExchange textCodec (fun _ => none) fname objectType args type).sent
        ∧ Agree ((searpcClientCall textCodec (fun _ => none) fname (RpcType.text type) objectType
              args).run (transportOf reply))
            (searpcClientCallTyped textCodec (fun _ => none) (transportOf reply) fname objectType
              args type) := by
  intro h
  have hagree := agree_isSome (h (fun _ => some (textCodec.dumps
    (.obj [(ascii "ret", .str (ascii "hello"))]) true)) (ascii "f") [] .string 1 (by decide)).2
  revert hagree
  decide +kernel

end SearpcClient
