import Searpc.OutcomeLoopProofs
import Searpc.PyServerProofs
import Searpc.PyTransportProofs

/-! # A Python session — `NamedPipeTransport.send` against `PipeHandlerThread.run`

    The server's loop is the client's in rotation: it receives a frame with the
    same two `recvall`, decodes it, calls, sends a frame with the same two
    `sendall`, and is back where a `recvall` begins.  So one state serves both
    ends: a `Phase`, which for the server goes from `recvHeader` through
    `returned` (a request is there) to `sendHeader`, `sendBody` and `recvHeader`
    again.

    The client announces the length of its encoded body, the server the number
    of CHARACTERS of its text.  The second is the length of what it sends only
    because `json.dumps` escapes everything that is not ASCII. -/

namespace PySession

open ByteMemory Framing JsonValue JsonText PyJson Utf8Text PySearpcDecode PySearpcServer
open PyTransport

variable {σ : Type}

/-! ## The two ends -/

/-- A call of `send`: the service and the text of the call. -/
abbrev Request := Bytes × Bytes

/-- The dict `send` makes of its arguments. -/
def requestJson (c : Request) : Json :=
  .obj [(ascii "service", .str c.1), (ascii "request", .str c.2)]

/-- What runs on the two ends: the byte order of the machine, Python's `json`
    and its other texts, and the registered functions. -/
structure System (σ : Type) where
  endian   : Endian
  json     : JsonModule
  texts    : Texts
  services : Services σ

variable (S : System σ)

/-- `body_utf8`. -/
def System.body (c : Request) : Bytes := utf8 (S.json.dumps (requestJson c))

/-- `searpc_server.call_function` on the members of a request. -/
def System.call (w : σ) (svcname fcallstr : Json) : σ × Option PyStr :=
  callFunction S.json S.texts S.services w svcname fcallstr

/-- `PipeHandlerThread.run`: the transfer it is in, the encoded text it is
    sending, the world of the functions, and the requests it has served. -/
structure Handler (σ : Type) where
  phase  : Phase
  resp   : Bytes
  world  : σ
  served : List (Json × Json)

/-- The top of the loop. -/
def Handler.start (w : σ) : Handler σ := ⟨.recvHeader [], [], w, []⟩

/-- A reply is packed and sent; `struct.pack` refuses what does not fit 32
    bits. -/
def Handler.send (h : Handler σ) (resp : PyStr) : Handler σ :=
  if resp.length < 2 ^ 32 then
    { h with
      phase := loopSendHeader S.endian (utf8 resp) (u32Bytes S.endian resp.length)
      resp := utf8 resp }
  else { h with phase := .raised }

/-- A request is there: it is parsed and served. -/
def Handler.serve (h : Handler σ) (req : Bytes) : Handler σ :=
  match S.json.loads req with
  | none => { h with phase := .raised }
  | some data =>
      match subscript data (.str (ascii "service")), subscript data (.str (ascii "request")) with
      | .ok svcname, .ok fcallstr =>
          let r := S.call h.world svcname fcallstr
          let h' := { h with world := r.1, served := h.served ++ [(svcname, fcallstr)] }
          match r.2 with
          | some resp => h'.send S resp
          | none => { h' with phase := .raised }
      | _, _ => { h with phase := .raised }

/-- One system call of the handler. -/
def Handler.turn (h : Handler σ) (io : IoResult) : Handler σ :=
  match PyTransport.turn S.endian h.resp h.phase io with
  | .returned req => h.serve S req
  | ph => { h with phase := ph }

/-! ## The session -/

/-- One client thread and one handler on a connection: the calls to be made,
    the call being made and its phase, what the sends returned, the handler,
    the bytes on their way, and all bytes each end has written. -/
structure Session (σ : Type) where
  todo    : List Request
  client  : Option (Request × Phase)
  rets    : List Bytes
  server  : Handler σ
  c2s     : Bytes
  s2c     : Bytes
  asked   : Bytes
  replied : Bytes

/-- A client that is about to make its calls. -/
def Session.start (w : σ) (reqs : List Request) : Session σ :=
  ⟨reqs, none, [], .start w, [], [], [], []⟩

/-- One step of either end: a `send` that takes any part of what is offered, a
    `recv` that gives any part of what is there, the beginning and the end of a
    call.  No system call fails. -/
inductive Step : Session σ → Session σ → Prop where
  | call {s : Session σ} {c : Request} {todo : List Request} (hc : s.client = none)
      (h : s.todo = c :: todo) :
      Step s { s with todo := todo, client := some (c, enter S.endian (S.body c)) }
  | clientSend {s : Session σ} {c : Request} {ph : Phase} {n : Nat}
      (hc : s.client = some (c, ph)) (hn : 0 < n) (hle : n ≤ ph.offered.length) :
      Step s
        { s with
          client := some (c, turn S.endian (S.body c) ph (.sent n))
          c2s := s.c2s ++ ph.offered.take n
          asked := s.asked ++ ph.offered.take n }
  | clientRecv {s : Session σ} {c : Request} {ph : Phase} {new rest : Bytes}
      (hc : s.client = some (c, ph)) (hnew : new ≠ []) (hle : new.length ≤ ph.remain)
      (hq : s.s2c = new ++ rest) :
      Step s
        { s with client := some (c, turn S.endian (S.body c) ph (.received new)), s2c := rest }
  | clientReturn {s : Session σ} {c : Request} {resp : Bytes}
      (hc : s.client = some (c, .returned resp)) :
      Step s { s with client := none, rets := s.rets ++ [resp] }
  | serverRecv {s : Session σ} {new rest : Bytes} (hnew : new ≠ [])
      (hle : new.length ≤ s.server.phase.remain) (hq : s.c2s = new ++ rest) :
      Step s { s with server := s.server.turn S (.received new), c2s := rest }
  | serverSend {s : Session σ} {n : Nat} (hn : 0 < n)
      (hle : n ≤ s.server.phase.offered.length) :
      Step s
        { s with
          server := s.server.turn S (.sent n)
          s2c := s.s2c ++ s.server.phase.offered.take n
          replied := s.replied ++ s.server.phase.offered.take n }

/-- A run of `n` steps. -/
inductive Run (s : Session σ) : Nat → Session σ → Prop where
  | refl : Run s 0 s
  | step {n : Nat} {t u : Session σ} : Run s n t → Step S t u → Run s (n + 1) u

/-- The client has made all its calls and the last has returned. -/
def Session.Over (s : Session σ) : Prop := s.client = none ∧ s.todo = []

/-! ## What the sends should return -/

/-- The texts `call_function` produces for a sequence of requests. -/
def System.replies : σ → List Request → List (Option PyStr)
  | _, [] => []
  | w, c :: cs =>
      (S.call w (.str c.1) (.str c.2)).2
        :: System.replies (S.call w (.str c.1) (.str c.2)).1 cs

/-- What the sequence of calls is promised: the server parses back what `send`
    printed, `call_function` does not raise, and requests and replies are
    shorter than `2 ^ 32` bytes. -/
structure Healthy (w : σ) (reqs : List Request) : Prop where
  loads : ∀ c ∈ reqs, S.json.loads (S.body c) = some (requestJson c)
  short : ∀ c ∈ reqs, (S.body c).length < 2 ^ 32
  reply : ∀ r ∈ S.replies w reqs, ∃ resp, r = some resp ∧ (utf8 resp).length < 2 ^ 32

/-- The frame of a reply. -/
def replyFrame (e : Endian) (r : Option PyStr) : Bytes := encodeFrame e (utf8 (r.getD []))

/-- The requests as the server sees them. -/
def asJson (reqs : List Request) : List (Json × Json) :=
  reqs.map (fun c => (.str c.1, .str c.2))

/-- What is still to come of a session, at most. -/
def System.work : σ → List Request → Nat
  | _, [] => 0
  | w, c :: cs =>
      2 * (encodeFrame S.endian (S.body c)).length
        + 2 * (replyFrame S.endian (S.call w (.str c.1) (.str c.2)).2).length + 2
        + System.work (S.call w (.str c.1) (.str c.2)).1 cs

/-! ## Where a phase stands -/

section Phases

variable {e : Endian} {body : Bytes} {ph : Phase}

/-- A phase that has come to something is not at its beginning. -/
theorem got_returned (r : Bytes) : Phase.got e (.returned r) ≠ [] := by
  intro h
  have hlen := congrArg List.length (show encodeFrame e r = [] from h)
  rw [encodeFrame_length, List.length_nil] at hlen
  omega

/-- With the whole frame received, `recvall` is through. -/
theorem phase_whole (hproper : ph.Proper) (hleft : ph.left body = []) (halive : ph ≠ .raised)
    {r : Bytes} (hr : r.length < 2 ^ 32) (hgot : ph.got e = encodeFrame e r) :
    ph = .returned r := by
  cases ph with
  | sendHeader left =>
      have hnil : left ++ body = [] := hleft
      exact absurd (List.append_eq_nil_iff.mp hnil).1 hproper
  | sendBody left => exact absurd hleft hproper
  | recvHeader data =>
      have hlen := congrArg List.length (show data = encodeFrame e r from hgot)
      have hdata : data.length < 4 := hproper
      rw [encodeFrame_length] at hlen
      omega
  | recvBody size data =>
      obtain ⟨hdata, hsize⟩ : data.length < size ∧ size < 2 ^ 32 := hproper
      obtain ⟨hword, hbody⟩ := List.append_inj
        (show u32Bytes e size ++ data = u32Bytes e r.length ++ r from hgot)
        (by rw [u32Bytes_length, u32Bytes_length])
      have hval := congrArg (u32Value e) hword
      rw [u32Value_u32Bytes, u32Value_u32Bytes, Nat.mod_eq_of_lt hsize, Nat.mod_eq_of_lt hr]
        at hval
      rw [hbody] at hdata
      omega
  | returned resp =>
      have hframe : encodeFrame e resp ++ [] = encodeFrame e r := (List.append_nil _).trans hgot
      rw [(encodeFrame_align hproper hr hframe).1]
  | raised => exact absurd rfl halive

/-- With nothing to send and nothing received it is before the first `recv`. -/
theorem phase_top (hproper : ph.Proper) (hleft : ph.left body = []) (halive : ph ≠ .raised)
    (hgot : ph.got e = []) : ph = .recvHeader [] := by
  cases ph with
  | sendHeader left =>
      have hnil : left ++ body = [] := hleft
      exact absurd (List.append_eq_nil_iff.mp hnil).1 hproper
  | sendBody left => exact absurd hleft hproper
  | recvHeader data => rw [show data = [] from hgot]
  | recvBody size data =>
      have hnil : u32Bytes e size ++ data = [] := hgot
      exact absurd (List.append_eq_nil_iff.mp hnil).1 (u32Bytes_ne_nil e size)
  | returned resp => exact absurd hgot (got_returned resp)
  | raised => exact absurd rfl halive

/-- What is left is being offered. -/
theorem phase_offered (hproper : ph.Proper) (hleft : ph.left body ≠ []) :
    0 < ph.offered.length := by
  cases ph with
  | sendHeader left => exact List.length_pos_iff.mpr hproper
  | sendBody left => exact List.length_pos_iff.mpr hproper
  | recvHeader data => exact absurd rfl hleft
  | recvBody size data => exact absurd rfl hleft
  | returned resp => exact absurd rfl hleft
  | raised => exact absurd rfl hleft

/-- Nothing is offered when nothing is left. -/
theorem offered_nil (hleft : ph.left body = []) : ph.offered.length = 0 := by
  cases ph with
  | sendHeader left =>
      have hnil : left ++ body = [] := hleft
      rw [Phase.offered, (List.append_eq_nil_iff.mp hnil).1]
      rfl
  | sendBody left =>
      rw [Phase.offered, show left = [] from hleft]
      rfl
  | recvHeader data => rfl
  | recvBody size data => rfl
  | returned resp => rfl
  | raised => rfl

/-- With nothing left to send something is asked for, before the end. -/
theorem phase_remain (hproper : ph.Proper) (hleft : ph.left body = []) (halive : ph ≠ .raised)
    (hopen : ∀ r, ph ≠ .returned r) : 0 < ph.remain := by
  cases ph with
  | sendHeader left =>
      have hnil : left ++ body = [] := hleft
      exact absurd (List.append_eq_nil_iff.mp hnil).1 hproper
  | sendBody left => exact absurd hleft hproper
  | recvHeader data => exact Nat.sub_pos_of_lt hproper
  | recvBody size data => exact Nat.sub_pos_of_lt hproper.1
  | returned resp => exact absurd rfl (hopen resp)
  | raised => exact absurd rfl halive

end Phases

/-! ## The handler's turns -/

section Turns

variable {S} {h : Handler σ} {io : IoResult}

/-- Inside a transfer the handler is where its phase is. -/
theorem turn_within (hopen : ∀ r, PyTransport.turn S.endian h.resp h.phase io ≠ .returned r) :
    h.turn S io = { h with phase := PyTransport.turn S.endian h.resp h.phase io } := by
  rw [Handler.turn]
  split
  · next req heq => exact absurd heq (hopen req)
  · rfl

/-- Behind the second `recvall` it serves. -/
theorem turn_serves {req : Bytes}
    (hreq : PyTransport.turn S.endian h.resp h.phase io = .returned req) :
    h.turn S io = h.serve S req := by
  rw [Handler.turn, hreq]

/-- **SERVING A REQUEST**: the call is made and its text is about to be sent. -/
theorem serve_request {c : Request} (hload : S.json.loads (S.body c) = some (requestJson c))
    {resp : PyStr} (hcall : (S.call h.world (.str c.1) (.str c.2)).2 = some resp)
    (hlen : resp.length < 2 ^ 32) :
    h.serve S (S.body c)
      = ⟨loopSendHeader S.endian (utf8 resp) (u32Bytes S.endian resp.length), utf8 resp,
          (S.call h.world (.str c.1) (.str c.2)).1, h.served ++ [(.str c.1, .str c.2)]⟩ := by
  have hne : ascii "service" ≠ ascii "request" := by decide
  have hservice : subscript (requestJson c) (.str (ascii "service")) = .ok (.str c.1) := by
    simp only [requestJson, subscript, memberGet_cons, if_pos]
  have hrequest : subscript (requestJson c) (.str (ascii "request")) = .ok (.str c.2) := by
    simp only [requestJson, subscript, memberGet_cons, if_neg hne, if_pos]
  simp only [Handler.serve, hload, hservice, hrequest, hcall, Handler.send, if_pos hlen]

end Turns

/-! ## The invariant

    Between two calls, with a request on its way, or with its reply on its way:
    what an end has of a frame, what is in flight and what the other end has
    still to send make up that frame. -/

/-- The frame of a request. -/
def System.frame (c : Request) : Bytes := encodeFrame S.endian (S.body c)

/-- What the calls that are over have returned. -/
structure Books (s : Session σ) (done : List Request) (texts : List (Option PyStr)) : Prop where
  rets  : s.rets = texts.map (fun r => utf8 (r.getD []))
  count : done.length = texts.length

/-- Between two calls. -/
structure Between (w : σ) (reqs : List Request) (fuel : Nat) (s : Session σ)
    (done : List Request) (texts : List (Option PyStr)) : Prop where
  books   : Books s done texts
  client  : s.client = none
  server  : s.server.phase = .recvHeader []
  quiet   : s.c2s = [] ∧ s.s2c = []
  calls   : reqs = done ++ s.todo
  served  : s.server.served = asJson done
  replies : S.replies w reqs = texts ++ S.replies s.server.world s.todo
  asked   : s.asked = done.flatMap S.frame
  replied : s.replied = texts.flatMap (replyFrame S.endian)
  cost    : S.work s.server.world s.todo ≤ fuel

/-- A request is on its way. -/
structure OnRequest (w : σ) (reqs : List Request) (fuel : Nat) (s : Session σ)
    (done : List Request) (texts : List (Option PyStr)) (c : Request) (ph : Phase) : Prop where
  books   : Books s done texts
  client  : s.client = some (c, ph)
  proper  : ph.Proper
  alive   : ph ≠ .raised
  fresh   : ph.got S.endian = []
  serving : s.server.phase.Proper
  up      : s.server.phase ≠ .raised
  busy    : ∀ r, s.server.phase ≠ .returned r
  idle    : s.server.phase.left s.server.resp = []
  frame   : s.server.phase.got S.endian ++ (s.c2s ++ ph.left (S.body c)) = S.frame c
  quiet   : s.s2c = []
  calls   : reqs = done ++ c :: s.todo
  served  : s.server.served = asJson done
  replies : S.replies w reqs = texts ++ S.replies s.server.world (c :: s.todo)
  asked   : s.asked ++ ph.left (S.body c) = (done ++ [c]).flatMap S.frame
  replied : s.replied = texts.flatMap (replyFrame S.endian)
  cost    : 2 * (ph.left (S.body c)).length + s.c2s.length
    + 2 * (replyFrame S.endian (S.call s.server.world (.str c.1) (.str c.2)).2).length + 1
    + S.work (S.call s.server.world (.str c.1) (.str c.2)).1 s.todo ≤ fuel

/-- A reply is on its way. -/
structure OnReply (w : σ) (reqs : List Request) (fuel : Nat) (s : Session σ)
    (done : List Request) (texts : List (Option PyStr)) (c : Request) (ph : Phase)
    (resp : PyStr) : Prop where
  books   : Books s done texts
  client  : s.client = some (c, ph)
  proper  : ph.Proper
  alive   : ph ≠ .raised
  spent   : ph.left (S.body c) = []
  serving : s.server.phase.Proper
  up      : s.server.phase ≠ .raised
  fresh   : s.server.phase.got S.endian = []
  fits    : (utf8 resp).length < 2 ^ 32
  frame   : ph.got S.endian ++ (s.s2c ++ s.server.phase.left s.server.resp)
    = encodeFrame S.endian (utf8 resp)
  quiet   : s.c2s = []
  calls   : reqs = done ++ c :: s.todo
  served  : s.server.served = asJson (done ++ [c])
  replies : S.replies w reqs = texts ++ some resp :: S.replies s.server.world s.todo
  asked   : s.asked = (done ++ [c]).flatMap S.frame
  replied : s.replied ++ s.server.phase.left s.server.resp
    = (texts ++ [some resp]).flatMap (replyFrame S.endian)
  cost    : 2 * (s.server.phase.left s.server.resp).length + s.s2c.length + 1
    + S.work s.server.world s.todo ≤ fuel

/-- A session on its way, with a bound on the steps still to come. -/
inductive Aligned (w : σ) (reqs : List Request) (fuel : Nat) (s : Session σ) : Prop where
  | between {done : List Request} {texts : List (Option PyStr)} :
      Between S w reqs fuel s done texts → Aligned w reqs fuel s
  | request {done : List Request} {texts : List (Option PyStr)} {c : Request} {ph : Phase} :
      OnRequest S w reqs fuel s done texts c ph → Aligned w reqs fuel s
  | reply {done : List Request} {texts : List (Option PyStr)} {c : Request} {ph : Phase}
      {resp : PyStr} : OnReply S w reqs fuel s done texts c ph resp → Aligned w reqs fuel s

section Steps

variable {S} {w : σ} {reqs : List Request} {s : Session σ} {fuel : Nat} {done : List Request}
  {texts : List (Option PyStr)} {c : Request} {ph : Phase} {resp : PyStr}

/-- A text that `call_function` produces was printed by `json.dumps`. -/
theorem call_ascii (hascii : ∀ v, Ascii (S.json.dumps v)) {w : σ} {svcname fcallstr : Json}
    (h : (S.call w svcname fcallstr).2 = some resp) : Ascii resp := by
  simp only [System.call, callFunction] at h
  split at h
  · obtain ⟨msg, -, rfl⟩ := Option.map_eq_some_iff.mp h
    exact hascii _
  · obtain ⟨v, -, rfl⟩ := Option.map_eq_some_iff.mp h
    exact hascii _

theorem between_start : Between S w reqs (S.work w reqs) (.start w reqs) [] [] where
  books := ⟨rfl, rfl⟩
  client := rfl
  server := rfl
  quiet := ⟨rfl, rfl⟩
  calls := rfl
  served := rfl
  replies := rfl
  asked := rfl
  replied := rfl
  cost := Nat.le_refl _

/-- The next call begins. -/
theorem Between.call (H : Healthy S w reqs) (h : Between S w reqs (fuel + 1) s done texts)
    {todo : List Request} (htodo : s.todo = c :: todo) :
    OnRequest S w reqs fuel
      { s with todo := todo, client := some (c, enter S.endian (S.body c)) }
      done texts c (enter S.endian (S.body c)) := by
  have hcalls := h.calls
  rw [htodo] at hcalls
  have hc : c ∈ reqs := by
    rw [hcalls]
    exact List.mem_append_right _ List.mem_cons_self
  obtain ⟨hleft, hgot, halive⟩ := enter_eq S.endian (H.short c hc)
  constructor
  case books => exact ⟨h.books.rets, h.books.count⟩
  case client => rfl
  case proper => exact proper_enter S.endian _
  case alive => exact halive
  case fresh => exact hgot
  case serving =>
      rw [h.server]
      exact Nat.zero_lt_succ 3
  case up =>
      rw [h.server]
      exact Phase.noConfusion
  case busy =>
      intro r
      rw [h.server]
      exact Phase.noConfusion
  case idle =>
      rw [h.server]
      rfl
  case frame =>
      dsimp only
      rw [h.server, h.quiet.1, hleft]
      rfl
  case quiet => exact h.quiet.2
  case calls => exact hcalls
  case served => exact h.served
  case replies => exact htodo ▸ h.replies
  case asked =>
      dsimp only
      rw [hleft, h.asked, List.flatMap_append, List.flatMap_singleton]
      rfl
  case replied => exact h.replied
  case cost =>
      have hcost := h.cost
      rw [htodo, System.work] at hcost
      dsimp only
      rw [hleft, h.quiet.1, List.length_nil]
      omega

/-- The client sends a part of its request. -/
theorem OnRequest.clientSend (h : OnRequest S w reqs (fuel + 1) s done texts c ph) {n : Nat}
    (hn : 0 < n) (hle : n ≤ ph.offered.length) :
    OnRequest S w reqs fuel
      { s with
        client := some (c, turn S.endian (S.body c) ph (.sent n))
        c2s := s.c2s ++ ph.offered.take n
        asked := s.asked ++ ph.offered.take n }
      done texts c (turn S.endian (S.body c) ph (.sent n)) := by
  obtain ⟨hleft, hgot, halive⟩ := turn_sent S.endian (S.body c) hn hle
  have htake : ph.offered.take n = (ph.left (S.body c)).take n := offered_take hle
  have hsplit := List.take_append_drop n (ph.left (S.body c))
  have hlong : n ≤ (ph.left (S.body c)).length := by
    have hlen := congrArg List.length htake
    rw [List.length_take, List.length_take] at hlen
    omega
  exact
    { h with
      books := ⟨h.books.rets, h.books.count⟩
      client := rfl
      proper := turn_proper S.endian h.proper (by rintro new ⟨⟩)
      alive := halive
      fresh := hgot
      frame := by
        dsimp only
        rw [hleft, htake, List.append_assoc s.c2s, hsplit]
        exact h.frame
      asked := by
        dsimp only
        rw [hleft, htake, List.append_assoc, hsplit]
        exact h.asked
      cost := by
        have hcost := h.cost
        dsimp only
        rw [hleft, htake, List.length_append, List.length_drop, List.length_take,
          Nat.min_eq_left hlong]
        omega }

/-- The request that is on its way is one of the client's. -/
theorem OnRequest.mem (h : OnRequest S w reqs fuel s done texts c ph) : c ∈ reqs := by
  rw [h.calls]
  exact List.mem_append_right _ List.mem_cons_self

/-- Its reply is there, and fits. -/
theorem OnRequest.answer (H : Healthy S w reqs) (h : OnRequest S w reqs fuel s done texts c ph) :
    ∃ resp, (S.call s.server.world (.str c.1) (.str c.2)).2 = some resp
      ∧ (utf8 resp).length < 2 ^ 32 := by
  refine H.reply _ ?_
  rw [h.replies]
  exact List.mem_append_right _ List.mem_cons_self

/-- **THE SERVER HAS A REQUEST**: its text is counted in characters and sent in
    bytes, which is the same for ASCII. -/
theorem OnRequest.serve (H : Healthy S w reqs) (hascii : ∀ v, Ascii (S.json.dumps v))
    (h : OnRequest S w reqs (fuel + 1) s done texts c ph) {new rest : Bytes} (hnew : new ≠ [])
    (hq : s.c2s = new ++ rest) (hend : rest ++ ph.left (S.body c) = []) :
    ∃ resp, OnReply S w reqs fuel
      { s with server := s.server.serve S (S.body c), c2s := rest } done texts c ph resp := by
  obtain ⟨hrest, hleft⟩ := List.append_eq_nil_iff.mp hend
  obtain ⟨resp, hcall, hfits⟩ := h.answer H
  have hcount := (call_ascii hascii hcall).utf8_length
  have hserve := serve_request (h := s.server) (H.loads c h.mem) hcall (hcount ▸ hfits)
  obtain ⟨hsend, hgot, halive⟩ :=
    loopSendHeader_eq S.endian (utf8 resp) (u32Bytes S.endian resp.length)
  have hframe : u32Bytes S.endian resp.length ++ utf8 resp = encodeFrame S.endian (utf8 resp) := by
    rw [← hcount]
    rfl
  rw [hframe] at hsend
  refine ⟨resp, ?_⟩
  constructor
  case books => exact ⟨h.books.rets, h.books.count⟩
  case client => exact h.client
  case proper => exact h.proper
  case alive => exact h.alive
  case spent => exact hleft
  case serving =>
      dsimp only
      rw [hserve]
      exact proper_loopSendHeader S.endian _ _
  case up =>
      dsimp only
      rw [hserve]
      exact halive
  case fresh =>
      dsimp only
      rw [hserve]
      exact hgot
  case fits => exact hfits
  case frame =>
      dsimp only
      rw [hserve, h.fresh, h.quiet, List.nil_append, List.nil_append]
      exact hsend
  case quiet => exact hrest
  case calls => exact h.calls
  case served =>
      dsimp only
      rw [hserve, h.served, asJson, asJson, List.map_append]
      rfl
  case replies =>
      dsimp only
      rw [hserve, h.replies, System.replies, hcall]
  case asked =>
      have hasked := h.asked
      rw [hleft, List.append_nil] at hasked
      exact hasked
  case replied =>
      dsimp only
      rw [hserve, h.replied, hsend, List.flatMap_append, List.flatMap_singleton]
      rfl
  case cost =>
      have hcost := h.cost
      have hpos := List.length_pos_iff.mpr hnew
      rw [hcall, hq, List.length_append] at hcost
      dsimp only
      rw [hserve]
      dsimp only
      rw [hsend, h.quiet, List.length_nil]
      rw [replyFrame, Option.getD_some] at hcost
      omega

/-- The server receives a part of a request, and serves it when that was the
    last. -/
theorem OnRequest.serverRecv (H : Healthy S w reqs) (hascii : ∀ v, Ascii (S.json.dumps v))
    (h : OnRequest S w reqs (fuel + 1) s done texts c ph) {new rest : Bytes} (hnew : new ≠ [])
    (hle : new.length ≤ s.server.phase.remain) (hq : s.c2s = new ++ rest) :
    Aligned S w reqs fuel { s with server := s.server.turn S (.received new), c2s := rest } := by
  have hshort := H.short c h.mem
  have hgot : s.server.phase.got S.endian ++ (new ++ (rest ++ ph.left (S.body c)))
      = encodeFrame S.endian (S.body c) := by
    rw [← List.append_assoc new, ← hq]
    exact h.frame
  rcases turn_received S.endian s.server.resp h.serving hnew hle hshort hgot with
    ⟨-, hinvalid⟩ | ⟨hleft', hgot', halive'⟩
  · rw [System.body, utf8Valid_utf8] at hinvalid
    cases hinvalid
  · have hproper' : (PyTransport.turn S.endian s.server.resp s.server.phase
        (.received new)).Proper :=
      turn_proper S.endian h.serving (by
        rintro new' ⟨⟩
        exact hle)
    rw [← List.append_assoc, ← hgot'] at hgot
    by_cases hret : ∃ req, PyTransport.turn S.endian s.server.resp s.server.phase (.received new)
        = .returned req
    · obtain ⟨req, hreq⟩ := hret
      rw [hreq] at hgot hproper'
      obtain ⟨rfl, hend⟩ := encodeFrame_align hproper' hshort hgot
      obtain ⟨resp, hreply⟩ := h.serve H hascii hnew hq hend
      rw [turn_serves hreq]
      exact .reply hreply
    · have hopen := fun r hr => hret ⟨r, hr⟩
      rw [turn_within hopen]
      have hnext : OnRequest S w reqs fuel
          { s with
            server := { s.server with
              phase := PyTransport.turn S.endian s.server.resp s.server.phase (.received new) }
            c2s := rest } done texts c ph :=
        { h with
          books := ⟨h.books.rets, h.books.count⟩
          serving := hproper'
          up := halive'
          busy := hopen
          idle := hleft'
          frame := hgot
          cost := by
            have hcost := h.cost
            have hpos := List.length_pos_iff.mpr hnew
            rw [hq, List.length_append] at hcost
            dsimp only
            omega }
      exact .request hnext

/-- The server sends a part of its reply. -/
theorem OnReply.serverSend (h : OnReply S w reqs (fuel + 1) s done texts c ph resp) {n : Nat}
    (hn : 0 < n) (hle : n ≤ s.server.phase.offered.length) :
    OnReply S w reqs fuel
      { s with
        server := s.server.turn S (.sent n)
        s2c := s.s2c ++ s.server.phase.offered.take n
        replied := s.replied ++ s.server.phase.offered.take n } done texts c ph resp := by
  obtain ⟨hleft, hgot, halive⟩ := turn_sent S.endian s.server.resp hn hle
  have htake : s.server.phase.offered.take n = (s.server.phase.left s.server.resp).take n :=
    offered_take hle
  have hsplit := List.take_append_drop n (s.server.phase.left s.server.resp)
  have hlong : n ≤ (s.server.phase.left s.server.resp).length := by
    have hlen := congrArg List.length htake
    rw [List.length_take, List.length_take] at hlen
    omega
  rw [turn_within (fun r hr => got_returned r (hr ▸ hgot))]
  exact
    { h with
      books := ⟨h.books.rets, h.books.count⟩
      serving := turn_proper S.endian h.serving (by rintro new ⟨⟩)
      up := halive
      fresh := hgot
      frame := by
        dsimp only
        rw [hleft, htake, List.append_assoc s.s2c, hsplit]
        exact h.frame
      replied := by
        dsimp only
        rw [hleft, htake, List.append_assoc, hsplit]
        exact h.replied
      cost := by
        have hcost := h.cost
        dsimp only
        rw [hleft, htake, List.length_append, List.length_drop, List.length_take,
          Nat.min_eq_left hlong]
        omega }

/-- The client receives a part of its reply. -/
theorem OnReply.clientRecv (h : OnReply S w reqs (fuel + 1) s done texts c ph resp)
    {new rest : Bytes} (hnew : new ≠ []) (hle : new.length ≤ ph.remain)
    (hq : s.s2c = new ++ rest) :
    OnReply S w reqs fuel
      { s with client := some (c, turn S.endian (S.body c) ph (.received new)), s2c := rest }
      done texts c (turn S.endian (S.body c) ph (.received new)) resp := by
  have hgot := h.frame
  rw [hq, List.append_assoc] at hgot
  rcases turn_received S.endian (S.body c) h.proper hnew hle h.fits hgot with
    ⟨-, hinvalid⟩ | ⟨hleft', hgot', halive'⟩
  · rw [utf8Valid_utf8] at hinvalid
    cases hinvalid
  · exact
      { h with
        books := ⟨h.books.rets, h.books.count⟩
        client := rfl
        proper := turn_proper S.endian h.proper (by
          rintro new' ⟨⟩
          exact hle)
        alive := halive'
        spent := hleft'
        frame := by
          dsimp only
          rw [hgot', List.append_assoc]
          exact hgot
        cost := by
          have hcost := h.cost
          have hpos := List.length_pos_iff.mpr hnew
          rw [hq, List.length_append] at hcost
          dsimp only
          omega }

/-- **THE CALL RETURNS** the server's text, and leaves the connection empty. -/
theorem OnReply.clientReturn {r : Bytes}
    (h : OnReply S w reqs (fuel + 1) s done texts c (.returned r) resp) :
    Between S w reqs fuel { s with client := none, rets := s.rets ++ [r] }
      (done ++ [c]) (texts ++ [some resp]) := by
  obtain ⟨hr, hend⟩ := encodeFrame_align h.proper h.fits h.frame
  obtain ⟨hs2c, hleft⟩ := List.append_eq_nil_iff.mp hend
  constructor
  case books =>
      refine ⟨?_, ?_⟩
      · dsimp only
        rw [h.books.rets, List.map_append, hr]
        rfl
      · rw [List.length_append, List.length_append, h.books.count]
        rfl
  case client => rfl
  case server => exact phase_top h.serving hleft h.up h.fresh
  case quiet => exact ⟨h.quiet, hs2c⟩
  case calls =>
      dsimp only
      rw [h.calls, List.append_assoc]
      rfl
  case served => exact h.served
  case replies =>
      dsimp only
      rw [h.replies, List.append_assoc]
      rfl
  case asked => exact h.asked
  case replied =>
      have hreplied := h.replied
      rw [hleft, List.append_nil] at hreplied
      exact hreplied
  case cost =>
      have hcost := h.cost
      dsimp only
      omega

/-- Nothing is offered at the top of the loop. -/
theorem Between.no_send (h : Between S w reqs fuel s done texts) {n : Nat} (hn : 0 < n) :
    ¬ n ≤ s.server.phase.offered.length := by
  rw [h.server]
  exact Nat.not_le.mpr hn

/-- **ONE STEP** of either end keeps the session aligned and brings it nearer to
    its end. -/
theorem aligned_step (H : Healthy S w reqs) (hascii : ∀ v, Ascii (S.json.dumps v))
    (h : Aligned S w reqs fuel s) {t : Session σ} (hstep : Step S s t) :
    ∃ fuel', fuel' + 1 ≤ fuel ∧ Aligned S w reqs fuel' t := by
  cases h with
  | between h =>
      cases hstep with
      | call hc htodo =>
          have hcost := h.cost
          rw [htodo, System.work] at hcost
          obtain ⟨fuel', rfl⟩ : ∃ fuel', fuel = fuel' + 1 := ⟨fuel - 1, by omega⟩
          exact ⟨fuel', Nat.le_refl _, .request (h.call H htodo)⟩
      | clientSend hc => cases h.client.symm.trans hc
      | clientRecv hc => cases h.client.symm.trans hc
      | clientReturn hc => cases h.client.symm.trans hc
      | serverRecv hnew hle hq =>
          rw [h.quiet.1] at hq
          exact absurd (List.append_eq_nil_iff.mp hq.symm).1 hnew
      | serverSend hn hle => exact absurd hle (h.no_send hn)
  | @request done texts c ph h =>
      have hcost := h.cost
      obtain ⟨fuel', rfl⟩ : ∃ fuel', fuel = fuel' + 1 := ⟨fuel - 1, by omega⟩
      refine ⟨fuel', Nat.le_refl _, ?_⟩
      cases hstep with
      | call hc => cases h.client.symm.trans hc
      | clientSend hc hn hle =>
          obtain ⟨rfl, rfl⟩ := Prod.mk.inj (Option.some.inj (h.client.symm.trans hc))
          exact .request (h.clientSend hn hle)
      | clientRecv hc hnew hle hq =>
          rw [h.quiet] at hq
          exact absurd (List.append_eq_nil_iff.mp hq.symm).1 hnew
      | clientReturn hc =>
          obtain ⟨rfl, rfl⟩ := Prod.mk.inj (Option.some.inj (h.client.symm.trans hc))
          exact absurd h.fresh (got_returned _)
      | serverRecv hnew hle hq => exact h.serverRecv H hascii hnew hle hq
      | serverSend hn hle =>
          rw [offered_nil h.idle] at hle
          exact absurd hle (Nat.not_le.mpr hn)
  | @reply done texts c ph resp h =>
      have hcost := h.cost
      obtain ⟨fuel', rfl⟩ : ∃ fuel', fuel = fuel' + 1 := ⟨fuel - 1, by omega⟩
      refine ⟨fuel', Nat.le_refl _, ?_⟩
      cases hstep with
      | call hc => cases h.client.symm.trans hc
      | clientSend hc hn hle =>
          obtain ⟨rfl, rfl⟩ := Prod.mk.inj (Option.some.inj (h.client.symm.trans hc))
          rw [offered_nil h.spent] at hle
          exact absurd hle (Nat.not_le.mpr hn)
      | clientRecv hc hnew hle hq =>
          obtain ⟨rfl, rfl⟩ := Prod.mk.inj (Option.some.inj (h.client.symm.trans hc))
          exact .reply (h.clientRecv hnew hle hq)
      | clientReturn hc =>
          obtain ⟨rfl, rfl⟩ := Prod.mk.inj (Option.some.inj (h.client.symm.trans hc))
          exact .between h.clientReturn
      | serverRecv hnew hle hq =>
          rw [h.quiet] at hq
          exact absurd (List.append_eq_nil_iff.mp hq.symm).1 hnew
      | serverSend hn hle => exact .reply (h.serverSend hn hle)

/-- A whole run. -/
theorem aligned_run (H : Healthy S w reqs) (hascii : ∀ v, Ascii (S.json.dumps v)) {n : Nat}
    (hrun : Run S (.start w reqs) n s) :
    ∃ fuel, n + fuel ≤ S.work w reqs ∧ Aligned S w reqs fuel s := by
  induction hrun with
  | refl => exact ⟨_, Nat.le_of_eq (Nat.zero_add _), .between between_start⟩
  | step _ hstep ih =>
      obtain ⟨fuel, hle, ha⟩ := ih
      obtain ⟨fuel', hless, ha'⟩ := aligned_step H hascii ha hstep
      exact ⟨fuel', by omega, ha'⟩

/-- **NO SESSION GETS STUCK**. -/
theorem aligned_moves (H : Healthy S w reqs) (h : Aligned S w reqs fuel s) (hover : ¬ s.Over) :
    ∃ t, Step S s t := by
  cases h with
  | between h =>
      cases htodo : s.todo with
      | nil => exact absurd ⟨h.client, htodo⟩ hover
      | cons c todo => exact ⟨_, .call h.client htodo⟩
  | @request done texts c ph h =>
      by_cases hleft : ph.left (S.body c) = []
      · -- the request is sent: some of it is on its way, or the server has it
        have hframe := h.frame
        rw [hleft, List.append_nil] at hframe
        cases hc2s : s.c2s with
        | nil =>
            rw [hc2s, List.append_nil] at hframe
            exact absurd (phase_whole h.serving h.idle h.up (H.short c h.mem) hframe) (h.busy _)
        | cons b rest =>
            have hpos := phase_remain h.serving h.idle h.up h.busy
            exact ⟨_, .serverRecv (List.cons_ne_nil b []) hpos hc2s⟩
      · have hoffered := phase_offered h.proper hleft
        exact ⟨_, .clientSend h.client Nat.one_pos hoffered⟩
  | @reply done texts c ph resp h =>
      by_cases hret : ∃ r, ph = .returned r
      · obtain ⟨r, rfl⟩ := hret
        exact ⟨_, .clientReturn h.client⟩
      · have hopen := fun r hr => hret ⟨r, hr⟩
        cases hs2c : s.s2c with
        | cons b rest =>
            have hpos := phase_remain h.proper h.spent h.alive hopen
            exact ⟨_, .clientRecv h.client (List.cons_ne_nil b []) hpos hs2c⟩
        | nil =>
            by_cases hleft : s.server.phase.left s.server.resp = []
            · have hframe := h.frame
              rw [hs2c, hleft, List.append_nil, List.append_nil] at hframe
              exact absurd (phase_whole h.proper h.spent h.alive h.fits hframe) (hopen _)
            · exact ⟨_, .serverSend Nat.one_pos (phase_offered h.serving hleft)⟩

/-- The calls that are over did not raise. -/
theorem Healthy.returned (H : Healthy S w reqs) {more : List (Option PyStr)}
    (h : S.replies w reqs = texts ++ more) : ∀ r ∈ texts, ∃ resp, r = some resp := by
  intro r hr
  obtain ⟨resp, hresp, -⟩ := H.reply r (h ▸ List.mem_append_left _ hr)
  exact ⟨resp, hresp⟩

/-- What the sends return are the texts of the replies. -/
theorem Books.returned (h : Books s done texts) (hsome : ∀ r ∈ texts, ∃ resp, r = some resp) :
    s.rets.map some = texts.map (Option.map utf8) := by
  rw [h.rets, List.map_map]
  refine List.map_congr_left (fun r hr => ?_)
  obtain ⟨resp, rfl⟩ := hsome r hr
  rfl

/-- What has happened on an aligned connection. -/
structure Record (w : σ) (reqs : List Request) (s : Session σ) : Prop where
  served  : s.server.served <+: asJson reqs
  rets    : s.rets.map some <+: (S.replies w reqs).map (Option.map utf8)
  asked   : s.asked <+: reqs.flatMap S.frame
  replied : s.replied <+: (S.replies w reqs).flatMap (replyFrame S.endian)

/-- A part of what is all told. -/
theorem prefix_of_parts {α : Type} {part rest all more : List α} (h : part ++ rest = all)
    {total : List α} (htotal : total = all ++ more) : part <+: total :=
  ⟨rest ++ more, by rw [htotal, ← h, List.append_assoc]⟩

theorem Aligned.record (H : Healthy S w reqs) (h : Aligned S w reqs fuel s) :
    Record (S := S) w reqs s := by
  cases h with
  | between h =>
      refine ⟨?_, ?_, ?_, ?_⟩
      · rw [h.served, h.calls]
        exact ⟨asJson s.todo, List.map_append.symm⟩
      · rw [h.books.returned (H.returned h.replies), h.replies, List.map_append]
        exact List.prefix_append _ _
      · rw [h.asked, h.calls, List.flatMap_append]
        exact List.prefix_append _ _
      · rw [h.replied, h.replies, List.flatMap_append]
        exact List.prefix_append _ _
  | @request done texts c ph h =>
      have hcalls : reqs = (done ++ [c]) ++ s.todo := by
        rw [h.calls, List.append_assoc]
        rfl
      refine ⟨?_, ?_, ?_, ?_⟩
      · rw [h.served, h.calls]
        exact ⟨asJson (c :: s.todo), List.map_append.symm⟩
      · rw [h.books.returned (H.returned h.replies), h.replies, List.map_append]
        exact List.prefix_append _ _
      · exact prefix_of_parts h.asked (by rw [hcalls, List.flatMap_append])
      · rw [h.replied, h.replies, List.flatMap_append]
        exact List.prefix_append _ _
  | @reply done texts c ph resp h =>
      have hcalls : reqs = (done ++ [c]) ++ s.todo := by
        rw [h.calls, List.append_assoc]
        rfl
      have hreplies : S.replies w reqs
          = (texts ++ [some resp]) ++ S.replies s.server.world s.todo := by
        rw [h.replies, List.append_assoc]
        rfl
      refine ⟨?_, ?_, ?_, ?_⟩
      · rw [h.served, hcalls]
        exact ⟨asJson s.todo, List.map_append.symm⟩
      · rw [h.books.returned (H.returned h.replies), h.replies, List.map_append]
        exact List.prefix_append _ _
      · rw [h.asked, hcalls]
        exact ⟨s.todo.flatMap S.frame, List.flatMap_append.symm⟩
      · exact prefix_of_parts h.replied (by rw [hreplies, List.flatMap_append])

/-- A session comes to its end. -/
theorem session_ends (H : Healthy S w reqs) (hascii : ∀ v, Ascii (S.json.dumps v)) :
    ∃ n s, Run S (.start w reqs) n s ∧ s.Over := by
  refine OutcomeLoop.run_ends (S.work w reqs) .refl (fun n s hrun => ?_) (fun n s hrun hover => ?_)
  · obtain ⟨fuel, hle, -⟩ := aligned_run H hascii hrun
    exact Nat.le_trans (Nat.le_add_right n fuel) hle
  · obtain ⟨fuel, -, ha⟩ := aligned_run H hascii hrun
    obtain ⟨t, hstep⟩ := aligned_moves H ha hover
    exact ⟨t, .step hrun hstep⟩

end Steps

/-! ## The session law -/

/-- **THE PYTHON SESSION LAW**: when no system call fails, each `send` returns the
    text `call_function` produced for its request; the requests are served once
    each and in order; everything either end writes are whole frames, each
    header the byte length of what follows; nothing is left over between calls;
    no session gets stuck before its end, and every one ends. -/
theorem py_session_law {S : System σ} (hascii : ∀ v, Ascii (S.json.dumps v)) {w : σ}
    {reqs : List Request} (H : Healthy S w reqs) {n : Nat} {s : Session σ}
    (hrun : Run S (.start w reqs) n s) :
    Record (S := S) w reqs s
      ∧ (s.client = none → s.c2s = [] ∧ s.s2c = []
        ∧ s.server.served = asJson (reqs.take s.rets.length))
      ∧ (s.Over → s.server.served = asJson reqs
        ∧ s.rets.map some = (S.replies w reqs).map (Option.map utf8)
        ∧ s.asked = reqs.flatMap S.frame
        ∧ s.replied = (S.replies w reqs).flatMap (replyFrame S.endian))
      ∧ (¬ s.Over → ∃ t, Step S s t)
      ∧ n ≤ S.work w reqs := by
  obtain ⟨fuel, hle, ha⟩ := aligned_run H hascii hrun
  refine ⟨ha.record H, ?_, ?_, aligned_moves H ha, by omega⟩
  · intro hclient
    cases ha with
    | between h =>
        refine ⟨h.quiet.1, h.quiet.2, ?_⟩
        rw [h.served, h.calls, h.books.rets, List.length_map, ← h.books.count, List.take_left]
    | request h => cases hclient.symm.trans h.client
    | reply h => cases hclient.symm.trans h.client
  · rintro ⟨hclient, htodo⟩
    cases ha with
    | @between done texts h =>
        have hcalls := h.calls
        have hreplies := h.replies
        have hrets := h.books.returned (H.returned h.replies)
        rw [htodo, List.append_nil] at hcalls
        rw [htodo, System.replies, List.append_nil] at hreplies
        rw [hreplies, hcalls]
        exact ⟨h.served, hrets, h.asked, h.replied⟩
    | request h => cases hclient.symm.trans h.client
    | reply h => cases hclient.symm.trans h.client

/-- `'%s' % fname`, for a string. -/
def formatName : Json → Bytes
  | .str fname => fname
  | _ => []

/-- The server of one function, which returns `"\u00e9"`. -/
def accentSystem : System Unit :=
  ⟨.little, plainJson, ⟨fun _ => [], fun _ => [], fun _ => [], formatName⟩,
    constServices (.str [0xC3, 0xA9])⟩

/-- What it replies to `f ()` and to `g ()`. -/
def accentReplies : List PyStr :=
  ["\x7b\"ret\": \"\\u00e9\"\x7d".toList,
    "\x7b\"err_code\": 555, \"err_msg\": \"No such funtion g\"\x7d".toList]

/-- A value that is not ASCII and an exception, on one connection. -/
theorem py_session_law_accent :
    ∃ n s, Run accentSystem
        (.start () [(ascii "s", ascii "[\"f\"]"), (ascii "s", ascii "[\"g\"]")]) n s
      ∧ s.Over ∧ s.rets.map some = (accentReplies.map some).map (Option.map utf8) := by
  have hascii : ∀ v, Ascii (accentSystem.json.dumps v) :=
    ascii_dumpsJson (fun bits c hc => absurd hc List.not_mem_nil)
  have hreplies : accentSystem.replies ()
      [(ascii "s", ascii "[\"f\"]"), (ascii "s", ascii "[\"g\"]")] = accentReplies.map some := by
    decide +kernel
  have H : Healthy accentSystem ()
      [(ascii "s", ascii "[\"f\"]"), (ascii "s", ascii "[\"g\"]")] := by
    refine ⟨?_, ?_, ?_⟩
    · decide +kernel
    · decide +kernel
    · intro r hr
      rw [hreplies] at hr
      obtain ⟨resp, hresp, rfl⟩ := List.mem_map.mp hr
      exact ⟨resp, rfl, (show ∀ resp ∈ accentReplies, (utf8 resp).length < 2 ^ 32 by
        decide +kernel) resp hresp⟩
  obtain ⟨n, s, hrun, hover⟩ := session_ends H hascii
  obtain ⟨-, -, hend, -, -⟩ := py_session_law hascii H hrun
  exact ⟨n, s, hrun, hover, hreplies ▸ (hend hover).2.1⟩

end PySession
