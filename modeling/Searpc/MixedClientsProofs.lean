import Searpc.PipeEndsProofs
import Searpc.PyEndsProofs
import Searpc.PyClientProofs
import Searpc.ConcurrentServerProofs

/-! # Mixed clients — C and Python programs on one server

    A server with a thread for each connection, in C or in Python, and any
    number of connections, each with a C or a Python program at its other end.
    The threads and the programs are scheduled in any way, each `read`, `write`,
    `recv` and `send` moves as many bytes as the kernel likes, and callers that
    are not looked at act on the functions at any time.

    The connection threads call the functions AT THE SAME TIME, and leave it to
    them to be safe.  If calls are linearizable, each taking effect at one instant
    between its beginning and its end, then so is the server, for the programs at
    the other ends (`c_server_linearizable`, `python_server_linearizable`).  At the
    Python server this is asked of the registered functions alone
    (`calls_linearizable`), at the C server, whose dispatch is not looked at
    here, of `searpc_server_call_function`.  If moreover calls return without
    waiting for each other, no program ever waits for another
    (`c_server_progress`, `python_server_progress`).  A Python session is a run of
    this system with one program (`run_of_session`). -/

namespace SearpcMixed

open ByteMemory Framing JsonValue SearpcJansson SearpcRequest ByteNetwork Linearizability
open PyJson Utf8Text PySearpcDecode PySearpcServer PyTransport
open PySession (Request requestJson)
open SearpcPipeEnds (Job caller callerParty cClient handler handlerParty cServer replyRet
  requestFrame)
open PyPipeEnds (transport pyClient pipeHandler pyServer requestBody parseRequest)

/-! ## Two kinds of client -/

/-- The two client libraries. -/
inductive Lang where
  | c
  | python
deriving DecidableEq

/-- What a program hands to the client library for a call. -/
def Lang.Job : Lang → Type
  | .c => SearpcPipeEnds.Job
  | .python => Request

def Lang.State : Lang → Type
  | .c => SearpcPipeEnds.Caller × SearpcSession.Io
  | .python => PyPipeEnds.Caller × Option Phase

/-- What a call returns. -/
def Lang.Result : Lang → Type
  | .c => Option (Bytes × Nat)
  | .python => Bytes

/-- Python's `json` module, with the text of a float and `loads` as
    parameters. -/
def pyModule (floatRepr : UInt64 → PyStr) (loads : Bytes → Option Json) : JsonModule :=
  ⟨dumpsJson floatRepr, loads⟩

variable (e : Endian) {J : Jansson} {Good : Json → Prop} (M : JsonModule)

def Lang.process (J : Jansson) : (l : Lang) → Process UInt8 Unit l.Job l.State
  | .c => caller e J
  | .python => transport e M

def Lang.client (hJ : RoundTrips J Good) : (l : Lang) → Client (l.process e M J) l.Result
  | .c => cClient e hJ
  | .python => pyClient e M

/-- A program before its first call. -/
def Lang.start (J : Jansson) : (l : Lang) → l.State
  | .c => (callerParty e J).enter .start
  | .python => PyPipeEnds.Caller.start

/-- The service and the text of a call. -/
def Lang.call : (l : Lang) → l.Job → Call
  | .c, job => job.1
  | .python, req => req

/-- The text of a request. -/
def Lang.body (J : Jansson) : (l : Lang) → l.Job → Bytes
  | .c, job => requestToJson J job.1.1 job.1.2
  | .python, req => requestBody M req

/-- What a program gets for the reply `r`. -/
def Lang.result : (l : Lang) → Bytes → l.Result
  | .c, r => replyRet r
  | .python, r => r

/-- Names and texts of calls as the two languages have them: UTF-8 without NUL,
    and strings. -/
def Lang.Spelled : (l : Lang) → l.Job → Prop
  | .c, job => Text job.1.1 ∧ Text job.1.2
  | .python, req => ∃ service fcallStr : PyStr, NoNul service ∧ NoNul fcallStr
      ∧ req = (utf8 service, utf8 fcallStr)

/-- A reply a program can take: Python's must be UTF-8. -/
def Lang.Takes : Lang → Bytes → Prop
  | .c, r => r.length < 2 ^ 32
  | .python, r => r.length < 2 ^ 32 ∧ utf8Valid r = true

/-! ## What the ends make of each other's frames -/

variable {e M}

/-- A frame has one payload. -/
theorem frame_inj {p q : Bytes} (hp : p.length < 2 ^ 32) (hq : q.length < 2 ^ 32)
    (h : encodeFrame e p = encodeFrame e q) : p = q :=
  (encodeFrame_align hp hq (by rw [List.append_nil, h])).1

/-- The envelope of a Python request. -/
theorem requestBody_eq (floatRepr : UInt64 → PyStr) (loads : Bytes → Option Json)
    (service fcallStr : PyStr) :
    requestBody (pyModule floatRepr loads) (utf8 service, utf8 fcallStr)
      = bodyUtf8 service fcallStr := by
  have hdict : requestJson (utf8 service, utf8 fcallStr) = (requestDict service fcallStr).json := by
    have hkeys : ascii "service" = utf8 "service".toList ∧ ascii "request" = utf8 "request".toList
      := by decide
    rw [requestJson, hkeys.1, hkeys.2]
    rfl
  rw [requestBody, hdict, bodyUtf8]
  exact congrArg utf8 (dumpsJson_json floatRepr _)

/-- What a program's request comes to in a server, and a server's reply in a
    program. -/
theorem client_facts (hJ : RoundTrips J Good) (l : Lang) (j : l.Job) :
    (l.Spelled j → (l.body M J j).length < 2 ^ 32 → (l.client e M hJ).Good j)
      ∧ (l.client e M hJ).request j = encodeFrame e (l.body M J j)
      ∧ (∀ r, l.Takes r → (l.client e M hJ).reply j (encodeFrame e r) (l.result r))
      ∧ ∀ r t, r.length < 2 ^ 32 → (l.client e M hJ).reply j (encodeFrame e r) t →
        t = l.result r := by
  cases l with
  | c =>
      refine ⟨fun hj hlen => ⟨hj.1, hj.2, hlen⟩, rfl, fun r hr => ⟨r, rfl, hr, rfl⟩, ?_⟩
      rintro r t hr ⟨r', heq, hr', rfl⟩
      rw [frame_inj hr hr' heq]
      rfl
  | python =>
      refine ⟨fun _ hlen => hlen, rfl, fun r hr => ⟨rfl, hr⟩, ?_⟩
      rintro r t hr ⟨heq, ht, -⟩
      exact (frame_inj hr ht heq).symm

/-- **THE C SERVER READS BOTH**. -/
theorem c_decodes (floatRepr : UInt64 → PyStr) (loads : Bytes → Option Json)
    (hJ : RoundTrips J Good) {l : Lang} (hpy : l = .python → ReadsPython J Good) {j : l.Job}
    (hj : l.Spelled j) :
    requestFromJson J (l.body (pyModule floatRepr loads) J j) = some (l.call j)
      ∧ l.body (pyModule floatRepr loads) J j ≠ [] := by
  cases l with
  | c => exact ⟨requestFromJson_requestToJson hJ hj.1 hj.2, hJ.text_ne_nil _ _⟩
  | python =>
      obtain ⟨service, fcallStr, hs, hf, rfl⟩ := hj
      show requestFromJson J (requestBody _ _) = _ ∧ requestBody _ _ ≠ []
      rw [requestBody_eq]
      exact ⟨PyClient.requestFromJson_body hJ (hpy rfl) hs hf, bodyUtf8_ne_nil _ _⟩

/-- What the Python server needs of `json.loads`: it reads what `json.dumps` and
    what the C library print of a request. -/
structure LoadsRequests (loads : Bytes → Option Json) (J : Jansson) : Prop where
  own : ∀ service fcallStr : PyStr, NoNul service → NoNul fcallStr →
    loads (bodyUtf8 service fcallStr) = some (requestJson (utf8 service, utf8 fcallStr))
  c   : ∀ service fcallStr : Bytes, Text service → Text fcallStr →
    loads (requestToJson J service fcallStr) = some (requestJson (service, fcallStr))
      ∧ utf8Valid (requestToJson J service fcallStr) = true

/-- What `call_function` is asked. -/
def Lang.question (l : Lang) (j : l.Job) : Json × Json := (.str (l.call j).1, .str (l.call j).2)

/-- **THE PYTHON SERVER READS BOTH**. -/
theorem python_decodes (floatRepr : UInt64 → PyStr) {loads : Bytes → Option Json}
    (hloads : LoadsRequests loads J) {l : Lang} {j : l.Job} (hj : l.Spelled j) :
    parseRequest (pyModule floatRepr loads) (l.body (pyModule floatRepr loads) J j)
        = some (l.question j)
      ∧ utf8Valid (l.body (pyModule floatRepr loads) J j) = true := by
  have hread : loads (l.body (pyModule floatRepr loads) J j) = some (requestJson (l.call j))
      ∧ utf8Valid (l.body (pyModule floatRepr loads) J j) = true := by
    cases l with
    | c => exact hloads.c _ _ hj.1 hj.2
    | python =>
        obtain ⟨service, fcallStr, hs, hf, rfl⟩ := hj
        show loads (requestBody _ _) = _ ∧ utf8Valid (requestBody _ _) = _
        rw [requestBody_eq]
        exact ⟨hloads.own _ _ hs hf, utf8Valid_utf8 _⟩
  have hne : ascii "service" ≠ ascii "request" := by decide
  refine ⟨?_, hread.2⟩
  rw [parseRequest, show (pyModule floatRepr loads).loads = loads from rfl, hread.1]
  simp only [requestJson, subscript, memberGet_cons, if_pos, if_neg hne]
  rfl

/-! ## Who understands whom -/

section Meets

variable {floatRepr : UInt64 → PyStr} {loads : Bytes → Option Json}

/-- A request the C server takes: its buffer grows to `2 ^ 31` bytes. -/
def Lang.FineForC (M : JsonModule) (J : Jansson) (l : Lang) (j : l.Job) : Prop :=
  l.Spelled j ∧ (l.body M J j).length ≤ 2 ^ 31

/-- A request the Python server takes: lengths have 32 bits. -/
def Lang.FineForPython (M : JsonModule) (J : Jansson) (l : Lang) (j : l.Job) : Prop :=
  l.Spelled j ∧ (l.body M J j).length < 2 ^ 32

/-- Either client and the C server. -/
theorem meets_c (hJ : RoundTrips J Good) (l : Lang) (hpy : l = .python → ReadsPython J Good) :
    Meets (l.client e (pyModule floatRepr loads) hJ) (cServer e J) l.call l.result
      (l.FineForC (pyModule floatRepr loads) J) l.Takes := by
  have hlt : ∀ {n : Nat}, n ≤ 2 ^ 31 → n < 2 ^ 32 := fun h => Nat.lt_of_le_of_lt h (by decide)
  constructor
  · rintro j ⟨hj, hlen⟩
    obtain ⟨hgood, hreq, -, -⟩ := client_facts (e := e) (M := pyModule floatRepr loads) hJ l j
    obtain ⟨hdec, hne⟩ := c_decodes floatRepr loads hJ hpy hj
    refine ⟨hgood hj (hlt hlen), ?_⟩
    rw [hreq]
    exact ⟨_, rfl, List.length_pos_iff.mpr hne, hlen, hdec⟩
  · rintro j q ⟨hj, hlen⟩ hq
    obtain ⟨-, hreq, -, -⟩ := client_facts (e := e) (M := pyModule floatRepr loads) hJ l j
    obtain ⟨hdec, -⟩ := c_decodes floatRepr loads hJ hpy hj
    rw [hreq] at hq
    obtain ⟨body, heq, -, hle, hbody⟩ := hq
    rw [← frame_inj (hlt hlen) (hlt hle) heq, hdec] at hbody
    exact (Option.some.inj hbody).symm
  · intro a ha
    have hfits : a.length < 2 ^ 32 := by
      cases l with
      | c => exact ha
      | python => exact ha.1
    exact ⟨_, ⟨hfits, rfl⟩, fun j => (client_facts hJ l j).2.2.1 a ha⟩
  · rintro j a bs t ⟨hlen, rfl⟩ ht
    exact (client_facts hJ l j).2.2.2 a t hlen ht

/-- An answer of `call_function` that the Python server can send. -/
def Sendable (a : Option PyStr) : Prop := ∃ resp, a = some resp ∧ Ascii resp ∧ resp.length < 2 ^ 32

/-- Either client and the Python server. -/
theorem meets_python (hJ : RoundTrips J Good) (hloads : LoadsRequests loads J) (l : Lang) :
    Meets (l.client e (pyModule floatRepr loads) hJ) (pyServer e (pyModule floatRepr loads))
      l.question (fun a => l.result (utf8 (a.getD [])))
      (l.FineForPython (pyModule floatRepr loads) J) Sendable := by
  constructor
  · rintro j ⟨hj, hlen⟩
    obtain ⟨hgood, hreq, -, -⟩ := client_facts (e := e) (M := pyModule floatRepr loads) hJ l j
    obtain ⟨hdec, hvalid⟩ := python_decodes floatRepr hloads hj
    refine ⟨hgood hj hlen, ?_⟩
    rw [hreq]
    exact ⟨_, rfl, hlen, hvalid, hdec⟩
  · rintro j q ⟨hj, hlen⟩ hq
    obtain ⟨-, hreq, -, -⟩ := client_facts (e := e) (M := pyModule floatRepr loads) hJ l j
    obtain ⟨hdec, -⟩ := python_decodes floatRepr hloads hj
    rw [hreq] at hq
    obtain ⟨req, heq, hle, -, hparse⟩ := hq
    rw [← frame_inj hlen hle heq, hdec] at hparse
    exact (Option.some.inj hparse).symm
  · rintro _ ⟨resp, rfl, hascii, hlen⟩
    refine ⟨_, ⟨resp, rfl, hascii, hlen, rfl⟩, fun j => (client_facts hJ l j).2.2.1 _ ?_⟩
    have hfits : (utf8 resp).length < 2 ^ 32 := by rwa [hascii.utf8_length]
    cases l with
    | c => exact hfits
    | python => exact ⟨hfits, utf8Valid_utf8 resp⟩
  · rintro j a bs t ⟨resp, rfl, hascii, hlen, rfl⟩ ht
    rw [← hascii.utf8_length] at hlen
    exact (client_facts hJ l j).2.2.2 _ t hlen ht

end Meets

/-! ## The systems -/

variable {ι σ : Type}

section CServer

variable (S : SearpcThreadServer.Server σ) (M : JsonModule) (lang : ι → Lang)

/-- `searpc_server_call_function`. -/
def serveC (w : σ) (q : Call) : σ × Bytes := S.call w q.1 q.2

/-- Programs in the given languages, a connection thread for each; `junk` is what
    `g_malloc` hands out in a thread. -/
def startC (junk : ι → Mem) (w : σ) :
    Shared UInt8 (fun c => (lang c).Job) (fun c => (lang c).State) Call Bytes
      (SearpcThreadServer.Handler Unit × SearpcSession.Io) σ :=
  ⟨fun c => ⟨(lang c).start S.endian S.json,
    (handlerParty S.endian S.json).enter (.start (junk c) ()), [], [], [], [], []⟩, w, []⟩

/-- A run of the programs with their jobs, the connection threads and any other
    callers, each call of `searpc_server_call_function` at one instant. -/
def RunC [DecidableEq ι] (jobs : (c : ι) → List (lang c).Job) := Shared.Run
  (fun c => (lang c).process S.endian M S.json) (handler S.endian S.json) (serveC S) jobs

/-- A run in which calls of `searpc_server_call_function` take their time, and only
    their histories are known. -/
def RunConcurrentC [DecidableEq ι] {υ : Type} [DecidableEq υ]
    (calls : Object (ι ⊕ υ) Call Bytes) (jobs : (c : ι) → List (lang c).Job) := Concurrent.Run
  (fun c => (lang c).process S.endian M S.json) (handler S.endian S.json) calls jobs

end CServer

section PythonServer

variable (e : Endian) (J : Jansson) (M : JsonModule) (T : Texts) (services : Services σ)
  (lang : ι → Lang)

/-- `searpc_server.call_function`. -/
def servePython (w : σ) (q : Json × Json) : σ × Option PyStr :=
  callFunction M T services w q.1 q.2

/-- What a registered function makes of a call, at one instant. -/
def callFn (w : σ) (call : Fn σ × List Json) : σ × FnResult := call.1 call.2 w

/-- `call_function` up to the call of the registered function, and from its
    return: a reply at once, or which function is called with what, and the reply
    that is made of its result. -/
def callRoute : Route (Json × Json) (Option PyStr) (Fn σ × List Json) FnResult := fun q =>
  match resolve M services q.1 q.2 with
  | .error e => .inl ((T.str e).map (fun msg => M.dumps (errorReply msg)))
  | .ok call => .inr (call, fun
      | .returned v => some (M.dumps (valueReply v))
      | .unserialisable => none
      | .raised str => (T.str (.byFunction str)).map (fun msg => M.dumps (errorReply msg)))

/-- A call at one instant is what `call_function` does around the function. -/
theorem servePython_route :
    servePython M T services = (callRoute M T services).serve callFn := by
  funext w q
  cases hresolve : resolve M services q.1 q.2 with
  | error e => simp only [servePython, callFunction, callFunctionOrRaise, Route.serve, callRoute,
      hresolve]
  | ok call =>
      simp only [servePython, callFunction, callFunctionOrRaise, Route.serve, callRoute, hresolve,
        callFn]
      cases (call.1 call.2 w).2 <;> rfl

/-- What `call_function` may be asked and answer, when the threads that go through it
    call the registered functions, of which only their histories are known. -/
abbrev CallsFunctions {κ : Type} [DecidableEq κ]
    (functions : Object κ (Fn σ × List Json) FnResult) : Object κ (Json × Json) (Option PyStr) :=
  functions.through (callRoute M T services)

section CallFunction

variable {M T services} {κ : Type} [DecidableEq κ]
  {functions : Object κ (Fn σ × List Json) FnResult} {w : σ}

/-- **`call_function` IS LINEARIZABLE IF THE REGISTERED FUNCTIONS ARE**: what it does
    around them does not have to happen at an instant. -/
theorem calls_linearizable (h : functions.LinearizableTo callFn w) :
    (CallsFunctions M T services functions).LinearizableTo (servePython M T services) w := by
  rw [servePython_route]
  exact h.through _

theorem calls_at_once (h : functions.AnswersAtOnce callFn w) :
    (CallsFunctions M T services functions).AnswersAtOnce (servePython M T services) w := by
  rw [servePython_route]
  exact h.through _

end CallFunction

/-- The same programs, each with a `PipeHandlerThread`. -/
def startPython (w : σ) :
    Shared UInt8 (fun c => (lang c).Job) (fun c => (lang c).State) (Json × Json) (Option PyStr)
      (Bytes × Option Phase) σ :=
  ⟨fun c => ⟨(lang c).start e J, ([], some (.recvHeader [])), [], [], [], [], []⟩, w, []⟩

/-- A run in which each call of `call_function` is one instant. -/
def RunPython [DecidableEq ι] (jobs : (c : ι) → List (lang c).Job) := Shared.Run
  (fun c => (lang c).process e M J) (pipeHandler e M) (servePython M T services) jobs

/-- A run in which calls of `call_function` take their time, and only their histories
    are known. -/
def RunConcurrentPython [DecidableEq ι] {υ : Type} [DecidableEq υ]
    (calls : Object (ι ⊕ υ) (Json × Json) (Option PyStr))
    (jobs : (c : ι) → List (lang c).Job) := Concurrent.Run
  (fun c => (lang c).process e M J) (pipeHandler e M) calls jobs

end PythonServer

/-! ## A Python session is such a run -/

section OneProgram

open PyPipeEnds (Mirrors Holding mirrors_start view view_serve_none view_serve_some)

variable {S : PySession.System σ} {reqs : List Request} {w : σ}

/-- The functions of a session's server. -/
def serveSession (S : PySession.System σ) : σ → Json × Json → σ × Option PyStr :=
  servePython S.json S.texts S.services

/-- The system with the program of the session alone. -/
abbrev Alone (σ : Type) :=
  Shared UInt8 (fun _ : Unit => Request) (fun _ => PyPipeEnds.Caller × Option Phase) (Json × Json)
    (Option PyStr) (Bytes × Option Phase) σ

def RunAlone (S : PySession.System σ) (reqs : List Request) : Alone σ → Alone σ → Prop :=
  Shared.Run (fun _ => transport S.endian S.json) (pipeHandler S.endian S.json) (serveSession S)
    (fun _ => reqs)

/-- The state of such a run stands where the session does. -/
structure Stands (reqs : List Request) (s : PySession.Session σ) (t : Alone σ) : Prop where
  conn  : Mirrors reqs s (t.conns ())
  world : t.world = s.server.world

/-- The request that is held is refused, or asked and answered. -/
theorem holding_served {h : PySession.Handler σ} {req : Bytes} {s : PySession.Session σ}
    {t : Alone σ} (hold : Holding S reqs h req s (t.conns ())) (hworld : t.world = h.world)
    (hjobs : (t.conns ()).leftHeard <+: reqs) :
    ∃ u, RunAlone S reqs t u ∧ Stands reqs s u := by
  have hrest := hold.rest
  cases hreq : parseRequest S.json req with
  | none =>
      obtain ⟨hview, hsame, hserved⟩ := view_serve_none S (h := h) hreq
      rw [← hold.server] at hview hsame hserved
      have hact : (pipeHandler S.endian S.json).act (t.conns ()).right = .tau := by
        rw [hold.right, pipeHandler, PyPipeEnds.Party.process_act]
        simp only [PyPipeEnds.phaseAct, PyPipeEnds.Party.back, PyPipeEnds.pipeHandlerParty, hreq]
      refine ⟨_, .single ⟨some (), .move (.right (.tau hact) rfl) hjobs (List.append_nil _)⟩,
        ?_, hworld.trans hsame.symm⟩
      rw [set_self, hold.right, ← hview]
      exact ⟨hrest.client, hrest.rets, rfl, (List.append_nil _).trans hrest.toLeft, hrest.toRight,
        hrest.todo, (List.append_nil _).trans (hold.asked.trans hserved.symm)⟩
  | some q =>
      obtain ⟨hview, hafter, hserved⟩ := view_serve_some S (h := h) hreq
      rw [← hold.server] at hview hafter hserved
      have hact : (pipeHandler S.endian S.json).act (t.conns ()).right = .ask q := by
        rw [hold.right, pipeHandler, PyPipeEnds.Party.process_act]
        simp only [PyPipeEnds.phaseAct, PyPipeEnds.Party.back, PyPipeEnds.pipeHandlerParty, hreq]
      refine ⟨_, .single ⟨some (), .call hact⟩, ?_, ?_⟩
      · have hanswer : (serveSession S t.world q).2 = (S.call h.world q.1 q.2).2 := by
          rw [hworld]
          rfl
        show Mirrors reqs s ((t.set () _).conns ())
        rw [set_self]
        show Mirrors reqs s ((t.conns ()).goRight ((pipeHandler S.endian S.json).answered
          (t.conns ()).right (serveSession S t.world q).2) _ _)
        rw [hanswer, hold.right, ← hview]
        exact ⟨hrest.client, hrest.rets, rfl, (List.append_nil _).trans hrest.toLeft,
          hrest.toRight, hrest.todo, (congrArg (· ++ [q]) hold.asked).trans hserved.symm⟩
      · show (serveSession S t.world q).1 = s.server.world
        rw [hworld, hafter]
        rfl

/-- The start of the system. -/
def startAlone (w : σ) : Alone σ :=
  ⟨fun _ => ⟨PyPipeEnds.Caller.start, ([], some (.recvHeader [])), [], [], [], [], []⟩, w, []⟩

theorem stands_of_session {n : Nat} {s : PySession.Session σ}
    (h : PySession.Run S (.start w reqs) n s) :
    ∃ t, RunAlone S reqs (startAlone w) t ∧ Stands reqs s t := by
  induction h with
  | refl => exact ⟨_, .refl, mirrors_start w, rfl⟩
  | @step n s s' _ hstep ih =>
      obtain ⟨t, hrun, hconn, hworld⟩ := ih
      obtain ⟨net, hnet, hjobs, hown, hnext⟩ := hconn.step hstep
      have hmove : RunAlone S reqs (startAlone w) (t.set () net) :=
        hrun.tail ⟨some (), .move hnet hjobs hown⟩
      rcases hnext with ⟨hmirrors, hsame⟩ | ⟨req, hold⟩
      · refine ⟨_, hmove, ?_, hworld.trans hsame.symm⟩
        rwa [set_self]
      · rw [← set_self t () net] at hold hjobs
        obtain ⟨u, hserve, hstands⟩ := holding_served hold hworld hjobs
        exact ⟨u, hmove.trans hserve, hstands⟩

/-- **A PYTHON SESSION IS A RUN** of the server with one Python program: what is
    proved of sessions and what is proved of the server is about the same loops. -/
theorem run_of_session (J : Jansson) {n : Nat} {s : PySession.Session σ}
    (h : PySession.Run S (.start w reqs) n s) :
    ∃ t, RunPython S.endian J S.json S.texts S.services (fun _ : Unit => .python) (fun _ => reqs)
        (startPython S.endian J (fun _ => .python) w) t
      ∧ Stands reqs s t :=
  stands_of_session h

end OneProgram

/-! ## What any run comes to -/

section Systems

variable {floatRepr : UInt64 → PyStr} {loads : Bytes → Option Json} {lang : ι → Lang}
  {jobs : (c : ι) → List (lang c).Job}

theorem start_idle (hJ : RoundTrips J Good) (l : Lang) :
    (l.client e M hJ).idle (l.start e J) ∧ (l.client e M hJ).rets (l.start e J) = [] := by
  cases l with
  | c => exact ⟨⟨.start, rfl, rfl⟩, rfl⟩
  | python => exact ⟨rfl, rfl⟩

theorem fresh_startC {S : SearpcThreadServer.Server σ} (lang : ι → Lang)
    (hJ : RoundTrips S.json Good) (junk : ι → Mem) (w : σ) :
    (startC S lang junk w).Fresh (fun c => (lang c).process S.endian M S.json)
      (handler S.endian S.json) (fun c => (lang c).client S.endian M hJ)
      (cServer S.endian S.json) where
  conns c := ⟨(start_idle hJ _).1, (start_idle hJ _).2, ⟨_, rfl, rfl, 12, by decide, rfl⟩,
    ⟨rfl, rfl⟩, rfl, rfl, rfl⟩
  log := rfl

theorem fresh_startPython (lang : ι → Lang) (hJ : RoundTrips J Good) (w : σ) :
    (startPython e J lang w).Fresh (fun c => (lang c).process e M J) (pipeHandler e M)
      (fun c => (lang c).client e M hJ) (pyServer e M) where
  conns _ := ⟨(start_idle hJ _).1, (start_idle hJ _).2, rfl, ⟨rfl, rfl⟩, rfl, rfl, rfl⟩
  log := rfl

/-- The text of a reply is printed by `json.dumps`. -/
theorem callFunction_ascii {M : JsonModule} (hascii : ∀ v, Ascii (M.dumps v)) {T : Texts}
    {services : Services σ} {w : σ} {svcname fcallstr : Json} {resp : PyStr}
    (h : (callFunction M T services w svcname fcallstr).2 = some resp) : Ascii resp :=
  PySession.call_ascii (S := ⟨.little, M, T, services⟩) hascii h

variable [DecidableEq ι]

section Concurrent

variable {υ : Type} [DecidableEq υ]

/-- What a log says of the programs of a C server: those whose requests it takes,
    and which can take their replies, find their calls in it. -/
def AccountsC (S : SearpcThreadServer.Server σ) (M : JsonModule) (lang : ι → Lang)
    (hJ : RoundTrips S.json Good) (jobs : (c : ι) → List (lang c).Job) :
    Concurrent UInt8 (fun c => (lang c).Job) (fun c => (lang c).State) Call Bytes
      (SearpcThreadServer.Handler Unit × SearpcSession.Io) υ → List ((ι ⊕ υ) × Call × Bytes) →
      Prop :=
  Accounts (fun c => (lang c).client S.endian M hJ) (fun c => (lang c).call)
    (fun c => (lang c).result) (fun c => (lang c).FineForC M S.json) (fun c => (lang c).Takes) jobs

end Concurrent

/-- **NO PROGRAM WAITS FOR ANOTHER** at the C server: one that is not through has
    a step of its connection, and such steps alone bring it through. -/
theorem c_server_progress {S : SearpcThreadServer.Server σ} (hJ : RoundTrips S.json Good)
    (hpy : ReadsPython S.json Good) {junk : ι → Mem} {w : σ} {s : Shared UInt8
      (fun c => (lang c).Job) (fun c => (lang c).State) Call Bytes _ σ}
    (hrun : RunC S (pyModule floatRepr loads) lang jobs (startC S lang junk w) s) (c : ι)
    (hfine : ∀ j ∈ jobs c, (lang c).FineForC (pyModule floatRepr loads) S.json j)
    (hserve : ∀ {log : List (Option ι × Call × Bytes)} {v : σ}, Serial (serveC S) w log v →
      ∀ j ∈ jobs c, (lang c).Takes (serveC S v ((lang c).call j)).2) :
    ((((lang c).client S.endian (pyModule floatRepr loads) hJ).idle (s.conns c).left
          ∧ (s.conns c).leftHeard = jobs c)
        ∨ ∃ t, Shared.Step (fun c => (lang c).process S.endian (pyModule floatRepr loads) S.json)
          (handler S.endian S.json) (serveC S) jobs (some c) s t)
      ∧ ∃ t, Shared.RunOf (fun c => (lang c).process S.endian (pyModule floatRepr loads) S.json)
          (handler S.endian S.json) (serveC S) jobs c s t
        ∧ ((lang c).client S.endian (pyModule floatRepr loads) hJ).idle (t.conns c).left
        ∧ (t.conns c).leftHeard = jobs c :=
  meets_progress (fresh_startC lang hJ junk w) (fun c => meets_c hJ (lang c) (fun _ => hpy)) hrun
    c hfine hserve

/-- An answer that `call_function` returned, of a length a header can say. -/
def Returned (a : Option PyStr) : Prop := ∃ resp, a = some resp ∧ resp.length < 2 ^ 32

section Concurrent

variable {υ : Type} [DecidableEq υ] {T : Texts} {services : Services σ} {w v : σ}
  {log : List ((ι ⊕ υ) × (Json × Json) × Option PyStr)}

omit [DecidableEq ι] [DecidableEq υ] in
/-- What the functions returned is ASCII. -/
theorem ascii_of_serial (hfloat : ∀ bits, Ascii (floatRepr bits))
    (h : Serial (servePython (pyModule floatRepr loads) T services) w log v) :
    ∀ x ∈ log, ∀ resp, x.2.2 = some resp → Ascii resp := by
  intro x hx resp hresp
  obtain ⟨-, u, -, hu⟩ := h.answered x hx
  rw [hresp] at hu
  exact callFunction_ascii (ascii_dumpsJson hfloat) hu.symm

/-- What a log says of the programs of a Python server. -/
def AccountsPython (e : Endian) (M : JsonModule) (lang : ι → Lang) (hJ : RoundTrips J Good)
    (jobs : (c : ι) → List (lang c).Job) :
    Concurrent UInt8 (fun c => (lang c).Job) (fun c => (lang c).State) (Json × Json)
      (Option PyStr) (Bytes × Option Phase) υ →
      List ((ι ⊕ υ) × (Json × Json) × Option PyStr) → Prop :=
  Accounts (fun c => (lang c).client e M hJ) (fun c => (lang c).question)
    (fun c a => (lang c).result (utf8 (a.getD []))) (fun c => (lang c).FineForPython M J)
    (fun _ => Returned) jobs

/-- Texts that were returned can be sent, if they can be announced. -/
theorem accounts_returned {hJ : RoundTrips J Good}
    {s : Concurrent UInt8 (fun c => (lang c).Job) (fun c => (lang c).State) (Json × Json)
      (Option PyStr) (Bytes × Option Phase) υ}
    (hascii : ∀ x ∈ log, ∀ resp, x.2.2 = some resp → Ascii resp)
    {l : List ((ι ⊕ υ) × (Json × Json) × Option PyStr)} (hl : l <+: log)
    (h : Accounts (fun c => (lang c).client e M hJ) (fun c => (lang c).question)
      (fun c a => (lang c).result (utf8 (a.getD []))) (fun c => (lang c).FineForPython M J)
      (fun _ => Sendable) jobs s l) : AccountsPython e M lang hJ jobs s l := by
  intro c hfine hreturned
  refine h c hfine (fun x hx => ?_)
  obtain ⟨resp, hresp, hlen⟩ := hreturned x hx
  obtain ⟨y, hy, rfl⟩ := mem_callsBy hx
  exact ⟨resp, hresp, hascii y (hl.subset hy) resp hresp, hlen⟩

/-- **THE PYTHON SERVER IS LINEARIZABLE**, if the registered functions are, as the C
    server is; and what `call_function` returns is ASCII. -/
theorem python_server_linearizable (hJ : RoundTrips J Good) (hloads : LoadsRequests loads J)
    (hfloat : ∀ bits, Ascii (floatRepr bits))
    {functions : Object (ι ⊕ υ) (Fn σ × List Json) FnResult}
    (hfunctions : functions.LinearizableTo callFn w)
    {s : Concurrent UInt8 (fun c => (lang c).Job) (fun c => (lang c).State) (Json × Json)
      (Option PyStr) _ υ}
    (hrun : RunConcurrentPython e J (pyModule floatRepr loads) lang
      (CallsFunctions (pyModule floatRepr loads) T services functions) jobs
      (.start (startPython e J lang w)) s) :
    ∃ log v, Serial (servePython (pyModule floatRepr loads) T services) w log v
      ∧ Linearizes s.hist log ∧ (∀ x ∈ log, ∀ resp, x.2.2 = some resp → Ascii resp)
      ∧ AccountsPython e (pyModule floatRepr loads) lang hJ jobs s log
      ∧ ∀ s', RunConcurrentPython e J (pyModule floatRepr loads) lang
          (CallsFunctions (pyModule floatRepr loads) T services functions) jobs
          (.start (startPython e J lang w)) s' →
        RunConcurrentPython e J (pyModule floatRepr loads) lang
          (CallsFunctions (pyModule floatRepr loads) T services functions) jobs s' s →
        ∃ l, l <+: log ∧ Linearizes s'.hist l
          ∧ AccountsPython e (pyModule floatRepr loads) lang hJ jobs s' l := by
  obtain ⟨log, v, hserial, hlog, haccounts, hearlier⟩ := concurrent_linearizable
    (fresh_startPython lang hJ w) (fun c => meets_python hJ hloads (lang c))
    (calls_linearizable hfunctions) hrun
  have hascii := ascii_of_serial hfloat hserial
  refine ⟨log, v, hserial, hlog, hascii,
    accounts_returned hascii (List.prefix_refl _) haccounts, fun s' hrun' hlater => ?_⟩
  obtain ⟨l, hl, hpast, haccounts'⟩ := hearlier s' hrun' hlater
  exact ⟨l, hl, hpast, accounts_returned hascii hl haccounts'⟩

end Concurrent

/-- **NO PROGRAM WAITS FOR ANOTHER** at the Python server either. -/
theorem python_server_progress (hJ : RoundTrips J Good) (hloads : LoadsRequests loads J)
    (hfloat : ∀ bits, Ascii (floatRepr bits)) {T : Texts} {services : Services σ} {w : σ}
    {s : Shared UInt8 (fun c => (lang c).Job) (fun c => (lang c).State) (Json × Json)
      (Option PyStr) _ σ}
    (hrun : RunPython e J (pyModule floatRepr loads) T services lang jobs (startPython e J lang w)
      s) (c : ι) (hfine : ∀ j ∈ jobs c, (lang c).FineForPython (pyModule floatRepr loads) J j)
    (hserve : ∀ {log : List (Option ι × (Json × Json) × Option PyStr)} {v : σ},
      Serial (servePython (pyModule floatRepr loads) T services) w log v → ∀ j ∈ jobs c,
        Returned (servePython (pyModule floatRepr loads) T services v ((lang c).question j)).2) :
    ((((lang c).client e (pyModule floatRepr loads) hJ).idle (s.conns c).left
          ∧ (s.conns c).leftHeard = jobs c)
        ∨ ∃ t, Shared.Step (fun c => (lang c).process e (pyModule floatRepr loads) J)
          (pipeHandler e (pyModule floatRepr loads))
          (servePython (pyModule floatRepr loads) T services) jobs (some c) s t)
      ∧ ∃ t, Shared.RunOf (fun c => (lang c).process e (pyModule floatRepr loads) J)
          (pipeHandler e (pyModule floatRepr loads))
          (servePython (pyModule floatRepr loads) T services) jobs c s t
        ∧ ((lang c).client e (pyModule floatRepr loads) hJ).idle (t.conns c).left
        ∧ (t.conns c).leftHeard = jobs c := by
  refine meets_progress (fresh_startPython lang hJ w) (fun c => meets_python hJ hloads (lang c))
    hrun c hfine (fun hlog j hj => ?_)
  obtain ⟨resp, hresp, hlen⟩ := hserve hlog j hj
  exact ⟨resp, hresp, callFunction_ascii (ascii_dumpsJson hfloat) hresp, hlen⟩

end Systems

/-! ## One program of each kind -/

/-- A call for each program. -/
def sampleJobs : (l : Lang) → List l.Job
  | .c => [((ascii "s", ascii "[\"f\"]"), fill 0)]
  | .python => [(ascii "s", ascii "[\"g\"]")]

/-- Python without floats. -/
abbrev sampleModule : JsonModule := pyModule (fun _ => []) JsonText.load

theorem sample_spelled (l : Lang) : ∀ j ∈ sampleJobs l, l.Spelled j := by
  cases l with
  | c =>
      intro j hj
      rw [List.mem_singleton.mp hj]
      exact (show Text (ascii "s") ∧ Text (ascii "[\"f\"]") by decide)
  | python =>
      intro j hj
      rw [List.mem_singleton.mp hj]
      exact ⟨['s'], "[\"g\"]".toList, by decide, by decide, rfl⟩

theorem sample_short (l : Lang) :
    ∀ j ∈ sampleJobs l, (l.body sampleModule textCodec j).length ≤ 100 := by
  cases l with
  | c =>
      intro j hj
      rw [List.mem_singleton.mp hj]
      exact (show (requestToJson textCodec (ascii "s") (ascii "[\"f\"]")).length ≤ 100 by
        decide +kernel)
  | python =>
      intro j hj
      rw [List.mem_singleton.mp hj]
      exact (show (requestBody sampleModule (ascii "s", ascii "[\"g\"]")).length ≤ 100 by
        decide +kernel)

open SearpcThreadServer (echoServer)

/-- A client that is through with one job has one answer. -/
theorem single {B J P T Q A : Type} {K : Process B Unit J P} {C : Client K T} {asked : J → Q}
    {given : A → T} {begun : List J} {calls : List (Q × A)} {p : P} {j : J}
    (h : InOrder C asked given begun calls p) (hidle : C.idle p) (hbegun : begun = [j]) :
    ∃ a, (asked j, a) ∈ calls ∧ C.rets p = [given a] := by
  obtain ⟨hcalls, hrets⟩ := h.whole hidle
  rw [hbegun, List.map_singleton] at hcalls
  obtain ⟨⟨q, a⟩, rfl, rfl⟩ := List.map_eq_singleton_iff.mp hcalls
  exact ⟨a, List.mem_singleton.mpr rfl, hrets⟩

theorem sample_single (l : Lang) : ∃ j, sampleJobs l = [j] := by
  cases l with
  | c => exact ⟨_, rfl⟩
  | python => exact ⟨_, rfl⟩

theorem sample_takes (l : Lang) : l.Takes (ascii "[]") := by
  cases l with
  | c => exact (show (ascii "[]").length < 2 ^ 32 by decide)
  | python => exact (show _ ∧ _ by decide)

/-- The Python program can be brought through from the start. -/
theorem c_server_progress_python :
    ∃ t, Shared.RunOf (fun l => l.process .little sampleModule textCodec)
        (handler .little textCodec) (serveC echoServer) sampleJobs .python
        (startC echoServer id (fun _ => fill 0) ()) t
      ∧ (t.conns .python).leftHeard = sampleJobs .python := by
  have hstart : RunC echoServer sampleModule id sampleJobs
    (startC echoServer id (fun _ => fill 0) ()) (startC echoServer id (fun _ => fill 0) ()) := .refl
  obtain ⟨-, t, hrun, -, hall⟩ := c_server_progress textCodec_roundTrips textCodec_readsPython
    hstart .python
    (fun j hj => ⟨sample_spelled .python j hj, (sample_short .python j hj).trans (by decide)⟩)
    (fun _ j _ => sample_takes .python)
  exact ⟨t, hrun, hall⟩

theorem request_depth (c : Request) : JsonText.depth (requestJson c) ≤ JsonText.maxDepth := by
  simp [requestJson, JsonText.depth, JsonText.depthMembers, JsonText.maxDepth]

/-- **THE HYPOTHESIS IS MET** by JSON text. -/
theorem load_loadsRequests : LoadsRequests JsonText.load textCodec where
  own := by
    intro service fcallStr hs hf
    have hkeys : NoNul "service".toList ∧ NoNul "request".toList
        ∧ ["service".toList, "request".toList].Nodup := by decide
    exact JsonText.load_spells (dumps_spells (requestDict service fcallStr)
      ⟨⟨hkeys.1, hs, hkeys.2.1, hf, trivial⟩, hkeys.2.2⟩) (request_depth _) rfl
  c := by
    intro service fcallStr hs hf
    have hkeys : Text (ascii "service") ∧ Text (ascii "request")
        ∧ [ascii "service", ascii "request"].Nodup := by decide
    have henc : JsonText.Encodable (requestJson (service, fcallStr)) :=
      ⟨⟨hkeys.1, hs, hkeys.2.1, hf, trivial⟩, hkeys.2.2⟩
    rw [requestToJson, requestMembers_text hs hf]
    exact ⟨JsonText.load_dump false henc (request_depth (service, fcallStr)) rfl,
      utf8Valid_dump false _ henc⟩

open PySession (accentReplies accentSystem)

/-- The reply to each program's call. -/
def accentReply : Lang → PyStr
  | .c => accentReplies.headD []
  | .python => accentReplies.getLastD []

theorem accent_answers (l : Lang) : ∀ j ∈ sampleJobs l,
    (servePython sampleModule accentSystem.texts accentSystem.services () (l.question j)).2
      = some (accentReply l) := by
  cases l with
  | c =>
      intro j hj
      rw [List.mem_singleton.mp hj]
      exact (show (callFunction sampleModule accentSystem.texts accentSystem.services ()
        (.str (ascii "s")) (.str (ascii "[\"f\"]"))).2 = _ by decide +kernel)
  | python =>
      intro j hj
      rw [List.mem_singleton.mp hj]
      exact (show (callFunction sampleModule accentSystem.texts accentSystem.services ()
        (.str (ascii "s")) (.str (ascii "[\"g\"]"))).2 = _ by decide +kernel)

theorem accent_returned (l : Lang) : Returned (some (accentReply l)) :=
  ⟨_, rfl, by cases l <;> decide⟩

/-- A C program gets a value that is not ASCII, a Python program an exception. -/
theorem python_server_linearizable_both :
    ∃ s : Concurrent UInt8 Lang.Job Lang.State (Json × Json) (Option PyStr) _ Unit,
      RunConcurrentPython .little textCodec sampleModule id
        (CallsFunctions sampleModule accentSystem.texts accentSystem.services
          (Linearizable callFn ())) sampleJobs (.start (startPython .little textCodec id ())) s
      ∧ ∀ l : Lang, (l.client .little sampleModule textCodec_roundTrips).rets (s.conns l).left
        = [l.result (utf8 (accentReply l))] := by
  have hfloat : ∀ bits : UInt64, Ascii ((fun _ => []) bits) :=
    fun _ c hc => absurd hc List.not_mem_nil
  have hfine : ∀ (l : Lang), ∀ j ∈ sampleJobs l, l.FineForPython sampleModule textCodec j :=
    fun l j hj => ⟨sample_spelled l j hj, (sample_short l j hj).trans_lt (by decide)⟩
  have hanswer : ∀ (l : Lang) (v : Unit), ∀ j ∈ sampleJobs l,
      Sendable (servePython sampleModule accentSystem.texts accentSystem.services v
        (l.question j)).2 := by
    intro l v j hj
    have htext := accent_answers l j hj
    rw [htext]
    exact ⟨_, rfl, callFunction_ascii (ascii_dumpsJson hfloat) htext, (by cases l <;> decide)⟩
  obtain ⟨s, hrun, hend⟩ := meets_finish
    (servePython sampleModule accentSystem.texts accentSystem.services) sampleJobs
    (fresh_startPython (e := .little) id textCodec_roundTrips ())
    (fun l => meets_python textCodec_roundTrips load_loadsRequests (id l)) [.c, .python]
    (fun l _ => hfine l) (fun v l _ => hanswer l v)
  obtain ⟨hist, hrun', -⟩ := concurrent_of_shared () (calls_at_once linearizable_answersAtOnce)
    hrun
  refine ⟨⟨s.conns, hist⟩, hrun', fun l => ?_⟩
  obtain ⟨log, v, hserial, hlog, -, haccounts, -⟩ := python_server_linearizable
    textCodec_roundTrips load_loadsRequests hfloat (fun _ h => h) hrun'
  obtain ⟨hidle, hbegun, -⟩ := hend l (by cases l <;> decide)
  obtain ⟨j, hj⟩ := sample_single l
  have hreturned : ∀ x ∈ callsBy (.inl l) log, Returned x.2 := by
    intro x hx
    obtain ⟨resp, hresp, -, hlen⟩ := plain_of_linearizes
      (fresh_startPython (e := .little) id textCodec_roundTrips ())
      (meets_python textCodec_roundTrips load_loadsRequests l) hrun' hserial hlog (hfine l)
      (fun _ => True) Sendable (fun _ _ h => h) (hanswer l) (fun _ _ => trivial) x hx
    exact ⟨resp, hresp, hlen⟩
  obtain ⟨-, horder⟩ := haccounts l (hfine l) hreturned
  obtain ⟨a, ha, hrets⟩ := single horder hidle (hbegun.trans hj)
  obtain ⟨y, hy, hya⟩ := mem_callsBy ha
  obtain ⟨-, v, -, hv⟩ := hserial.answered y hy
  rw [hya] at hv
  have hone := accent_answers l j (by rw [hj]; exact List.mem_singleton.mpr rfl)
  rw [show a = some (accentReply l) from hv.trans hone] at hrets
  exact hrets

/-- The C program can be brought through from the start. -/
theorem python_server_progress_c :
    ∃ t, Shared.RunOf (fun l => l.process .little sampleModule textCodec)
        (pipeHandler .little sampleModule)
        (servePython sampleModule accentSystem.texts accentSystem.services) sampleJobs .c
        (startPython .little textCodec id ()) t
      ∧ (t.conns .c).leftHeard = sampleJobs .c := by
  have hstart : RunPython .little textCodec sampleModule accentSystem.texts accentSystem.services id
    sampleJobs (startPython .little textCodec id ()) (startPython .little textCodec id ()) := .refl
  obtain ⟨-, t, hrun, -, hall⟩ := python_server_progress textCodec_roundTrips
    load_loadsRequests (fun _ c hc => absurd hc List.not_mem_nil) hstart .c
    (fun j hj => ⟨sample_spelled .c j hj, (sample_short .c j hj).trans_lt (by decide)⟩)
    (fun {_ v} _ j hj => by
      have htext := accent_answers .c j hj
      exact htext ▸ accent_returned .c)
  exact ⟨t, hrun, hall⟩

end SearpcMixed
