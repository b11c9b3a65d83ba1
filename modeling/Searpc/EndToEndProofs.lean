import Searpc.DirectRunsProofs
import Searpc.RegistryProofs
import Searpc.TypedProgramsProofs

/-! # End to end — remote calls are local calls

    Everything at once: C and Python programs that make typed calls over pipes,
    connection threads, the registry, the generated marshals, and the decoders.
    Seen from the programs there is only this: the functions that are registered
    under the names they call are called with their arguments, one call after
    the other, and what they return comes back, or that there is no such
    function.

    `Acts` says what one such call is, without a byte or a JSON text, and
    `remote_calls_are_local` that every run of the whole system shows a run of
    them, if the registered functions, which the connection threads call at the
    same time, are linearizable.  Of dispatch and the marshals nothing is assumed:
    each thread goes through them by itself (`dispatchRoute`), and other threads
    go on in the meantime (`dispatches_linearizable`). -/

namespace SearpcEndToEnd

open ByteMemory Framing JsonValue SearpcJansson SearpcRequest ByteNetwork Linearizability
open SearpcMixed
open SearpcReply SearpcFcall SearpcCodegen SearpcGObject SearpcServer SearpcRegistry
open PyJson Utf8Text PyClient PySearpcServer
open SearpcPipeEnds (cServer)
open SearpcDispatchError (ReadsObjects errorMembers_valid snprintf_no_nul)

variable {F σ ι : Type}

/-! ## The server -/

/-- A thread server that dispatches to a registry of generated marshals.  A
    lookup with a `NULL` key ends the process: what the model does after one is
    more than can happen. -/
def dispatchServer (e : Endian) (J : Jansson) (R : Registry F Marshal) (P : Program F σ) :
    SearpcThreadServer.Server σ where
  endian := e
  json := J
  call w svcName func :=
    match (searpcServerCallFunction J R (fun m f array => runMarshal J P m f array w) none ⟨0, 0⟩
      svcName func).outcome with
    | .errorReply _ text => (w, text)
    | .ran (some inv) => (inv.world, inv.reply.getD [])
    | .ran none => (w, [])
    | .nullLookup => (w, [])

/-- What a registered function makes of a call, at one instant. -/
def callFunctions (P : Program F σ) (w : σ) (q : F × List CValue) : σ × RetVal × Option GError :=
  P q.1 q.2 w

/-- The arguments that a marshal calls its function with. -/
def marshalArgs (m : Marshal) (paramArray : Json) : Option (List CValue) :=
  (runParams paramArray m.params).bind
    (fun env => (callArgs env m.funcArgs).bind (convertArgs m.prototype))

/-- `searpc_server_call_function` up to the call of the registered function, and
    from its return: a reply at once, or which function is called with what, and
    the reply that the marshal makes of its result. -/
def dispatchRoute (J : Jansson) (R : Registry F Marshal) :
    Route Call Bytes (F × List CValue) (RetVal × Option GError) := fun q =>
  match (searpcServerCallFunction J R
    (fun m f array => (marshalArgs m array).map (fun args => (m, f, args))) none ⟨0, 0⟩
    q.1 q.2).outcome with
  | .errorReply _ text => .inl text
  | .ran (some (m, f, args)) => .inr ((f, args), fun r => (m.finish J r.1 r.2).getD [])
  | .ran none => .inl []
  | .nullLookup => .inl []

theorem runMarshal_marshalArgs (J : Jansson) (P : Program F σ) (m : Marshal) (func : F)
    (paramArray : Json) (w : σ) :
    runMarshal J P m func paramArray w = (marshalArgs m paramArray).map (fun args =>
      ⟨func, args, (P func args w).1, m.finish J (P func args w).2.1 (P func args w).2.2⟩) := by
  cases henv : runParams paramArray m.params with
  | none =>
      simp only [runMarshal, marshalArgs, henv]
      rfl
  | some env =>
      cases hargs : (callArgs env m.funcArgs).bind (convertArgs m.prototype) <;>
        simp only [runMarshal, marshalArgs, henv, Option.bind_some, hargs] <;> rfl

/-- A call at one instant is dispatch around the function. -/
theorem serveC_dispatch (e : Endian) (J : Jansson) (R : Registry F Marshal) (P : Program F σ) :
    serveC (dispatchServer e J R P) = (dispatchRoute J R).serve (callFunctions P) := by
  funext w q
  simp only [serveC, dispatchServer, Route.serve, dispatchRoute, searpcServerCallFunction,
    runMarshal_marshalArgs]
  cases lookup R.serviceTable q.1 with
  | none => rfl
  | some service =>
      cases J.loadb q.2 with
      | error text => rfl
      | ok array =>
          cases hname : jsonStringValue (jsonArrayGet (some array) 0) with
          | none => simp only [hname]
          | some fname =>
              cases hitem : lookup service.funcTable fname with
              | none => simp only [hname, hitem]
              | some item =>
                  cases hargs : marshalArgs item.marshal.mfunc array <;>
                    simp only [hname, hitem, hargs] <;> rfl

/-- What dispatch may be asked and answer, when the threads that go through it call
    the registered functions, of which only their histories are known. -/
abbrev Dispatches {κ : Type} [DecidableEq κ] (J : Jansson) (R : Registry F Marshal)
    (functions : Object κ (F × List CValue) (RetVal × Option GError)) : Object κ Call Bytes :=
  functions.through (dispatchRoute J R)

section Dispatch

variable {κ : Type} [DecidableEq κ] {e : Endian} {J : Jansson} {R : Registry F Marshal}
  {P : Program F σ} {functions : Object κ (F × List CValue) (RetVal × Option GError)} {w : σ}

/-- **DISPATCH IS LINEARIZABLE IF THE REGISTERED FUNCTIONS ARE**: what it and the
    marshals do around them does not have to happen at an instant. -/
theorem dispatches_linearizable (h : functions.LinearizableTo (callFunctions P) w) :
    (Dispatches J R functions).LinearizableTo (serveC (dispatchServer e J R P)) w := by
  rw [serveC_dispatch]
  exact h.through _

theorem dispatches_at_once (h : functions.AnswersAtOnce (callFunctions P) w) :
    (Dispatches J R functions).AnswersAtOnce (serveC (dispatchServer e J R P)) w := by
  rw [serveC_dispatch]
  exact h.through _

end Dispatch

/-! ## The same calls without a wire -/

/-- What a function is called with: what a C program passes, and for each value
    of a Python program the C value of the parameter's type. -/
def Passes : (l : Lang) → l.Typed → List CValue → Prop
  | .c, x, args => args = x.1.args
  | .python, x, args => List.Forall₂ SameValue x.args (args.map CValue.param)

/-- What a function answers that returns `v` and may have set an error. -/
def answerOf (v : RetVal) : Option GError → Answer
  | none => .value v
  | some error => .error error.code error.message

/-- The error of a call of a function that is not there. -/
inductive Missing (R : Registry F Marshal) (svcName fname : Bytes) : Int32 → Bytes → Prop where
  | service (h : lookup R.serviceTable svcName = none) :
      Missing R svcName fname 501
        (snprintf 255 (ascii "cannot find service " ++ svcName ++ ascii "."))
  | function {service : Service F Marshal} (hsvc : lookup R.serviceTable svcName = some service)
      (h : lookup service.funcTable fname = none) :
      Missing R svcName fname 500
        (snprintf 255 (ascii "cannot find function " ++ fname ++ ascii "."))

/-- **A DIRECT CALL**: the function registered under the name is called with the
    arguments, and the program gets its answer; or nothing is done, and it gets
    the error. -/
inductive Acts (C : Classes) (R : Registry F Marshal) (P : Program F σ) (svcName : PyStr) (l : Lang)
    (x : l.Typed) : l.Outcome → σ → σ → Prop where
  | called {item : FuncItem F Marshal} {args : List CValue} {v : RetVal} {error : Option GError}
      {o : l.Outcome} {w w' : σ} (hitem : findFunction R (utf8 svcName) (l.fname x) = some item)
      (hargs : Passes l x args) (hP : P item.func args w = (w', v, error))
      (h : l.Gets C x (answerOf v error) o) : Acts C R P svcName l x o w w'
  | missing {code : Int32} {msg : Bytes} {o : l.Outcome} {w : σ}
      (hmissing : Missing R (utf8 svcName) (l.fname x) code msg)
      (h : l.Gets C x (.error code msg) o) : Acts C R P svcName l x o w w

/-- A call that fits a function: it is registered with the marshal of these
    types. -/
structure Fits (R : Registry F Marshal) (svcName : PyStr) (l : Lang) (x : l.Typed)
    (item : FuncItem F Marshal) (args : List CValue) : Prop where
  found   : findFunction R (utf8 svcName) (l.fname x) = some item
  marshal : item.marshal.mfunc = generateMarshal (l.type x) (args.map CValue.type)
  passes  : Passes l x args

/-- A function keeps its type: it returns values of the type it is registered
    for, which can be carried, and error messages that are text. -/
def Keeps (P : Program F σ) (Good : Json → Prop) (f : F) (type : RpcType) : Prop :=
  ∀ args w, (P f args w).2.1.type = type ∧ (P f args w).2.1.Carried Good
    ∧ ∀ err ∈ (P f args w).2.2, Text err.message

/-- A call that is served: it fits a function that keeps its type, or there is no
    such function and the message is not cut inside a character. -/
def Served (R : Registry F Marshal) (P : Program F σ) (Good : Json → Prop) (svcName : PyStr)
    (l : Lang) (x : l.Typed) : Prop :=
  (∃ item args, Fits R svcName l x item args ∧ Keeps P Good item.func (l.type x))
    ∨ ∃ code msg, Missing R (utf8 svcName) (l.fname x) code msg ∧ utf8Valid msg = true

/-- The C library prints objects with members it carries as UTF-8. -/
def PrintsObjects (J : Jansson) (Good : Json → Prop) : Prop :=
  ∀ ms c, (∀ m ∈ ms, Text m.1 ∧ Good m.2) → (ms.map Prod.fst).Nodup →
    utf8Valid (J.dumps (.obj ms) c) = true

/-! ## One call -/

section OneCall

variable {J : Jansson} {Good : Json → Prop} {C : Classes} {R : Registry F Marshal}
  {P : Program F σ} {svcName : PyStr} {floatRepr : UInt64 → PyStr} {loads : Bytes → Option Json}

/-- A C value for a Python value can be carried. -/
theorem carried_same {v : PyValue} {u : CValue} (h : SameValue v u.param) (hv : v.Proper)
    (hgood : Good v.json) : u.Carried Good ∧ u.param.element = v.json := by
  refine ⟨?_, (h.element_eq hv).1⟩
  cases u with
  | int => trivial
  | gint64 => trivial
  | charPtr value =>
      cases value with
      | none => trivial
      | some s =>
          cases h with
          | string => exact text_utf8 hv
  | jsonPtr value =>
      cases h with
      | json => exact hgood

theorem carried_sames {vs : List PyValue} {args : List CValue}
    (h : List.Forall₂ SameValue vs (args.map CValue.param))
    (hvs : ∀ v ∈ vs, v.Proper ∧ Good v.json) :
    (∀ v ∈ args, v.Carried Good)
      ∧ args.map (fun v => v.param.element) = vs.map PyValue.json := by
  induction args generalizing vs with
  | nil =>
      cases h with
      | nil => exact ⟨fun v hv => absurd hv List.not_mem_nil, rfl⟩
  | cons u args ih =>
      cases h with
      | @cons v _ vs _ hv hrest =>
          obtain ⟨⟨hproper, hgood⟩, hvs⟩ := List.forall_mem_cons.mp hvs
          obtain ⟨hcarried, hel⟩ := carried_same hv hproper hgood
          obtain ⟨hall, hmap⟩ := ih hrest hvs
          refine ⟨List.forall_mem_cons.mpr ⟨hcarried, hall⟩, ?_⟩
          rw [List.map_cons, List.map_cons, hel, hmap]

/-- What a function is called with is what the program passed. -/
theorem passes_elements {l : Lang} {x : l.Typed} {args : List CValue} (h : Passes l x args)
    (hx : l.Proper C Good x) :
    (∀ v ∈ args, v.Carried Good) ∧ args.map (fun v => v.param.element) = l.elements x := by
  cases l with
  | c =>
      obtain rfl : args = x.1.args := h
      exact ⟨hx.2.1, rfl⟩
  | python => exact carried_sames h hx.2

/-- **THE C SERVER READS BOTH TEXTS**: name and arguments. -/
theorem text_load (floatRepr : UInt64 → PyStr) (loads : Bytes → Option Json)
    (hJ : RoundTrips J Good) (hutf : PrintsUtf8 J Good) (hpy : ReadsPython J Good) (l : Lang)
    {x : l.Typed} (hx : l.Proper C Good x) :
    J.loadb (l.text J (pyModule floatRepr loads) x)
        = .ok (.arr (.str (l.fname x) :: l.elements x))
      ∧ (0 : UInt8) ∉ l.fname x := by
  cases l with
  | c =>
      obtain ⟨htext, -, hgood⟩ := c_text hJ hutf hx.1 hx.2.1
      refine ⟨?_, hx.1.2⟩
      show J.loadb (x.1.text J) = _
      rw [htext]
      exact hJ.array _ true hgood
  | python =>
      obtain ⟨hname, hargs⟩ := hx
      refine ⟨(congrArg J.loadb (stub_text floatRepr loads x)).trans ?_, zero_not_mem_utf8 hname⟩
      exact loadb_stub hJ hpy hname (fun v hv => (hargs v hv).1) (fun v hv => (hargs v hv).2)

theorem head_name {fname : Bytes} (h : (0 : UInt8) ∉ fname) (vs : List Json) :
    jsonStringValue (jsonArrayGet (some (.arr (.str fname :: vs))) 0) = some fname :=
  congrArg some (cstr_eq_self h)

/-- The members of a function's reply can be carried. -/
theorem replyMembers_good (hJ : RoundTrips J Good) {v : RetVal} (hv : v.Carried Good)
    {error : Option GError} (herr : ∀ err ∈ error, Text err.message) :
    (∀ m ∈ replyMembers v error, Text m.1 ∧ Good m.2)
      ∧ ((replyMembers v error).map Prod.fst).Nodup := by
  have hkeys : Text (ascii "ret") ∧ Text (ascii "err_code") ∧ Text (ascii "err_msg")
      ∧ [ascii "ret", ascii "err_code", ascii "err_msg"].Nodup := by decide
  have hret := element_good hJ hv
  cases error with
  | none => exact ⟨List.forall_mem_singleton.mpr ⟨hkeys.1, hret⟩, List.nodup_singleton _⟩
  | some err =>
      have h1 := err.code.le_toInt
      have h2 := err.code.toInt_lt
      refine ⟨?_, hkeys.2.2.2⟩
      exact List.forall_mem_cons.mpr ⟨⟨hkeys.1, hret⟩, List.forall_mem_cons.mpr
        ⟨⟨hkeys.2.1, hJ.int _ ⟨by omega, by omega⟩⟩, List.forall_mem_singleton.mpr
          ⟨hkeys.2.2.1, hJ.str _ (herr err rfl)⟩⟩⟩

/-- A reply of members that can be carried is read in both languages. -/
theorem reply_read (floatRepr : UInt64 → PyStr) (hJ : RoundTrips J Good)
    (hobjects : PrintsObjects J Good) (hreads : ReadsObjects J Good loads) (l : Lang)
    {ms : List (Bytes × Json)} (hms : ∀ m ∈ ms, Text m.1 ∧ Good m.2)
    (hnodup : (ms.map Prod.fst).Nodup) :
    utf8Valid (J.dumps (.obj ms) true) = true
      ∧ l.Reads J (pyModule floatRepr loads) (J.dumps (.obj ms) true) ms
      ∧ J.dumps (.obj ms) true ≠ [] := by
  refine ⟨hobjects ms true hms hnodup, ?_, hJ.text_ne_nil _ _⟩
  cases l with
  | c => exact hJ.object ms true hms hnodup
  | python => exact hreads ms true hms hnodup

/-- A function's reply says its answer. -/
theorem answerOf_said (v : RetVal) (error : Option GError) :
    (answerOf v error).Said (replyMembers v error) := by
  have h1 : ascii "ret" ≠ ascii "err_code" := by decide
  have h2 : ascii "ret" ≠ ascii "err_msg" := by decide
  have h3 : ascii "err_code" ≠ ascii "err_msg" := by decide
  cases error with
  | none => rfl
  | some err =>
      simp only [answerOf, Answer.Said, replyMembers, memberGet_cons, if_neg h1, if_neg h2,
        if_neg h3, if_true, and_self]

/-- **ONE CALL**: dispatch calls the function with what the program passed, and
    its answer comes back. -/
theorem dispatch_called (e : Endian) (hJ : RoundTrips J Good) (hutf : PrintsUtf8 J Good)
    (hpy : ReadsPython J Good) (hobjects : PrintsObjects J Good)
    (hreads : ReadsObjects J Good loads) (l : Lang) {x : l.Typed} (hx : l.Proper C Good x)
    {item : FuncItem F Marshal} {args : List CValue} (h : Fits R svcName l x item args)
    (hkeeps : Keeps P Good item.func (l.type x)) (w : σ) :
    ∃ w' reply, (dispatchServer e J R P).call w (utf8 svcName)
        (l.text J (pyModule floatRepr loads) x) = (w', reply)
      ∧ utf8Valid reply = true
      ∧ Acts C R P svcName l x
        (l.decode J (pyModule floatRepr loads) C x (l.result reply)) w w' := by
  obtain ⟨hload, hnul⟩ := text_load floatRepr loads hJ hutf hpy l hx
  obtain ⟨hargs, helements⟩ := passes_elements h.passes hx
  obtain ⟨htype, hcarried, herr⟩ := hkeeps args w
  obtain ⟨w', v, error, hP⟩ : ∃ w' v error, P item.func args w = (w', v, error) :=
    ⟨_, _, _, rfl⟩
  rw [hP] at htype hcarried herr
  dsimp only at htype hcarried herr
  -- the reply is the object of its members
  have hdumps : searpcMarshalSetRetCommon J (setRet v) error
      = J.dumps (.obj (replyMembers v error)) true := by
    rw [searpcMarshalSetRetCommon, setError_setRet hcarried herr]
  have hmarshal := runMarshal_args J P (l.type x) args hargs (.str (l.fname x)) item.func w
  rw [← h.marshal, hP, helements] at hmarshal
  dsimp only at hmarshal
  have hfinish := finish_eq J (args.map CValue.type) htype error
  rw [← h.marshal] at hfinish
  rw [hfinish, hdumps] at hmarshal
  have hran := callFunction_ran h.found hload (head_name hnul _)
    (fun m f array => runMarshal J P m f array w) none ⟨0, 0⟩
  obtain ⟨hmembers, hnodup⟩ := replyMembers_good hJ hcarried herr
  obtain ⟨hvalid, hreads, hne⟩ := reply_read floatRepr hJ hobjects hreads l hmembers
    hnodup
  have hanswer : (answerOf v error).Carried Good (l.type x) := by
    cases error with
    | none => exact ⟨htype, hcarried⟩
    | some err => exact herr err rfl
  refine ⟨w', _, ?_, hvalid, .called h.found h.passes hP
    (gets hJ l hx hanswer (answerOf_said v error) hreads hne)⟩
  simp only [dispatchServer, hran, hmarshal]
  rfl

/-- The message is text, if it is not cut inside a character. -/
theorem missing_text {fname : Bytes} {code : Int32} {msg : Bytes} (hsvc : NoNul svcName)
    (hname : (0 : UInt8) ∉ fname) (h : Missing R (utf8 svcName) fname code msg) :
    (0 : UInt8) ∉ msg := by
  have hfix : Text (ascii "cannot find service ") ∧ Text (ascii "cannot find function ")
      ∧ Text (ascii ".") := by decide
  cases h with
  | service => exact snprintf_no_nul 255 hfix.1.2 (zero_not_mem_utf8 hsvc) hfix.2.2.2
  | function => exact snprintf_no_nul 255 hfix.2.1.2 hname hfix.2.2.2

/-- Dispatch answers a call of a function that is not there. -/
theorem dispatch_missing (e : Endian) (hJ : RoundTrips J Good) (hutf : PrintsUtf8 J Good)
    (hpy : ReadsPython J Good) (hobjects : PrintsObjects J Good)
    (hreads : ReadsObjects J Good loads) (hsvc : NoNul svcName) (l : Lang) {x : l.Typed}
    (hx : l.Proper C Good x) {code : Int32} {msg : Bytes}
    (h : Missing R (utf8 svcName) (l.fname x) code msg) (hmsg : utf8Valid msg = true) (w : σ) :
    ∃ reply, (dispatchServer e J R P).call w (utf8 svcName)
        (l.text J (pyModule floatRepr loads) x) = (w, reply)
      ∧ utf8Valid reply = true
      ∧ Acts C R P svcName l x
        (l.decode J (pyModule floatRepr loads) C x (l.result reply)) w w := by
  obtain ⟨hload, hnul⟩ := text_load floatRepr loads hJ hutf hpy l hx
  have htext : Text msg := ⟨hmsg, missing_text hsvc hnul h⟩
  have hkeys : Text (ascii "err_code") ∧ Text (ascii "err_msg")
      ∧ [ascii "err_code", ascii "err_msg"].Nodup := by decide
  have hcode : IntRange code.toInt := by
    have h1 := code.le_toInt
    have h2 := code.toInt_lt
    exact ⟨by omega, by omega⟩
  have hmembers := errorMembers_valid code.toInt hmsg
  obtain ⟨hvalid, hreads, hne⟩ := reply_read floatRepr hJ hobjects hreads l
    (show ∀ m ∈ errorMembers code.toInt msg, _ by
      rw [hmembers]
      exact List.forall_mem_cons.mpr ⟨⟨hkeys.1, hJ.int _ hcode⟩,
        List.forall_mem_singleton.mpr ⟨hkeys.2.1, hJ.str _ htext⟩⟩) (by
      rw [hmembers]
      exact hkeys.2.2)
  have hsaid : (Answer.error code msg).Said (errorMembers code.toInt msg) := by
    have hkeys : ascii "err_code" ≠ ascii "err_msg" := by decide
    simp only [Answer.Said, hmembers, memberGet_cons, if_neg hkeys, if_true, and_self]
  refine ⟨_, ?_, hvalid, .missing h
    (gets hJ l hx (a := .error code msg) htext hsaid hreads hne)⟩
  cases h with
  | service hlookup =>
      simp only [dispatchServer, searpcServerCallFunction, hlookup]
      rfl
  | function hservice hlookup =>
      simp only [dispatchServer, searpcServerCallFunction, hservice, hload, head_name hnul, hlookup]
      rfl

theorem dispatch_acts (e : Endian) (hJ : RoundTrips J Good) (hutf : PrintsUtf8 J Good)
    (hpy : ReadsPython J Good) (hobjects : PrintsObjects J Good)
    (hreads : ReadsObjects J Good loads) (hsvc : NoNul svcName) (l : Lang) {x : l.Typed}
    (hx : l.Proper C Good x) (h : Served R P Good svcName l x) (w : σ) :
    ∃ w' reply, (dispatchServer e J R P).call w (utf8 svcName)
        (l.text J (pyModule floatRepr loads) x) = (w', reply)
      ∧ utf8Valid reply = true
      ∧ Acts C R P svcName l x
        (l.decode J (pyModule floatRepr loads) C x (l.result reply)) w w' := by
  rcases h with ⟨item, args, hfits, hkeeps⟩ | ⟨code, msg, hmissing, hmsg⟩
  · exact dispatch_called e hJ hutf hpy hobjects hreads l hx hfits hkeeps w
  · exact ⟨w, dispatch_missing e hJ hutf hpy hobjects hreads hsvc l hx hmissing hmsg w⟩

end OneCall

/-! ## Every run -/

section Runs

variable [DecidableEq ι] {J : Jansson} {Good : Json → Prop} {C : Classes} {R : Registry F Marshal}
  {P : Program F σ} {e : Endian} {floatRepr : UInt64 → PyStr} {loads : Bytes → Option Json}
  {lang : ι → Lang} {svcName : ι → PyStr} {prog : (c : ι) → List (lang c).Typed}

variable {υ : Type} [DecidableEq υ]

/-- A run of programs in the given languages that make the typed calls `prog`, of
    their connection threads, and of any other callers. -/
def RunTyped (S : SearpcThreadServer.Server σ) (M : JsonModule) (lang : ι → Lang)
    (calls : Object (ι ⊕ υ) Call Bytes) (svcName : ι → PyStr)
    (prog : (c : ι) → List (lang c).Typed) :=
  RunConcurrentC S M lang calls (fun c => (prog c).map ((lang c).job S.json M (svcName c)))

/-- The direct calls a log shows. -/
def shown (J : Jansson) (M : JsonModule) (C : Classes) (lang : ι → Lang)
    (prog : (c : ι) → List (lang c).Typed) (log : List ((ι ⊕ υ) × Call × Bytes)) :
    List (Option (Σ c, (lang c).Typed × (lang c).Outcome)) :=
  direct (fun c x a => (lang c).decode J M C x ((lang c).result a)) prog (known log)

/-- What a program's calls have come to. -/
def outcomes (J : Jansson) (M : JsonModule) (C : Classes) (l : Lang) (prog : List l.Typed)
    (rets : List l.Result) : List l.Outcome :=
  List.zipWith (l.decode J M C) prog rets

/-- Every program finds itself in a run of direct calls. -/
def AllExplained (e : Endian) (hJ : RoundTrips J Good) (M : JsonModule) (C : Classes)
    (lang : ι → Lang) (prog : (c : ι) → List (lang c).Typed)
    (s : Concurrent UInt8 (fun c => (lang c).Job) (fun c => (lang c).State) Call Bytes
      (SearpcThreadServer.Handler Unit × SearpcSession.Io) υ)
    (es : List (Option (Σ c, (lang c).Typed × (lang c).Outcome))) : Prop :=
  ∀ c, Explains (prog c) (s.conns c).leftHeard.length
    (((lang c).client e M hJ).idle (s.conns c).left)
    (outcomes J M C (lang c) (prog c) (((lang c).client e M hJ).rets (s.conns c).left))
    (ownCalls c es)

end Runs

/-! ## Two programs at once -/

/-- The C library prints JSON text. -/
theorem textCodec_printsObjects : PrintsObjects textCodec carried := by
  intro ms c hgood hnodup
  refine utf8Valid_dump c (.obj ms) ⟨(JsonText.encodableMembers_iff ms).mpr ?_, hnodup⟩
  exact fun m hm => ⟨(hgood m hm).1, (hgood m hm).2.1⟩

/-- A C program calls `f (NULL, -1)`, a Python program `f ("x", 7)` and, in vain,
    `g ()`. -/
def samplePrograms : (l : Lang) → List l.Typed
  | .c => [(⟨ascii "f", [.charPtr none, .int (-1)], .int, 0⟩, fill 0)]
  | .python => [⟨['f'], [.str ['x'], .int 7], .int⟩, ⟨['g'], [], .int⟩]

theorem takes_short {l : Lang} {r : Bytes} (h : l.Takes r) : r.length < 2 ^ 32 := by
  cases l with
  | c => exact h
  | python => exact h.1

/-- The server of the function `f`. -/
abbrev sampleServer : SearpcThreadServer.Server Unit :=
  dispatchServer .little textCodec oneFunction returnInt

theorem sample_served (l : Lang) : ∀ x ∈ samplePrograms l,
    l.Proper bareClasses carried x ∧ Served oneFunction returnInt carried ['s'] l x := by
  have hkeeps : Keeps returnInt carried () .int := by
    intro args w
    rw [returnInt.eq_def]
    split <;> exact ⟨rfl, trivial, fun err herr => nomatch herr⟩
  cases l with
  | c =>
      have hint : ¬ (RpcType.int = .object ∨ RpcType.int = .objlist) := by decide
      refine List.forall_mem_singleton.mpr ⟨⟨show Text (ascii "f") by decide, ?_,
        fun h => absurd h hint, fun _ => rfl⟩,
        .inl ⟨_, [.charPtr none, .int (-1)], ⟨rfl, rfl, rfl⟩, hkeeps⟩⟩
      exact List.forall_mem_cons.mpr ⟨trivial, List.forall_mem_singleton.mpr trivial⟩
  | python =>
      refine List.forall_mem_cons.mpr ⟨⟨⟨show NoNul ['f'] by decide, ?_⟩,
        .inl ⟨_, [.charPtr (some (utf8 ['x'])), .int 7], ⟨rfl, rfl, ?_⟩, hkeeps⟩⟩,
        List.forall_mem_singleton.mpr ⟨⟨show NoNul ['g'] by decide,
          fun v hv => absurd hv List.not_mem_nil⟩, .inr ⟨500, _, .function rfl rfl, ?_⟩⟩⟩
      · have hx : NoNul ['x'] ∧ IntRange 7 := by decide
        exact List.forall_mem_cons.mpr ⟨⟨hx.1, textCodec_roundTrips.str _ (text_utf8 hx.1)⟩,
          List.forall_mem_singleton.mpr ⟨hx.2, textCodec_roundTrips.int 7 hx.2⟩⟩
      · exact .cons .string (.cons (.int (by decide)) .nil)
      · decide

/-- The requests and the replies of the two. -/
theorem sample_sizes (l : Lang) : ∀ x ∈ samplePrograms l,
    (l.body sampleModule textCodec (l.job textCodec sampleModule ['s'] x)).length ≤ 2 ^ 31
      ∧ l.Takes (serveC sampleServer () (l.call (l.job textCodec sampleModule ['s'] x))).2 := by
  cases l with
  | c =>
      refine List.forall_mem_singleton.mpr ⟨by decide +kernel, ?_⟩
      exact show List.length _ < 2 ^ 32 by decide +kernel
  | python =>
      refine List.forall_mem_cons.mpr ⟨⟨by decide +kernel, ?_⟩,
        List.forall_mem_singleton.mpr ⟨by decide +kernel, ?_⟩⟩
      · exact show List.length _ < 2 ^ 32 ∧ utf8Valid _ = true by decide +kernel
      · exact show List.length _ < 2 ^ 32 ∧ utf8Valid _ = true by decide +kernel

end SearpcEndToEnd
