import Searpc.ByteSessionProofs
import Searpc.PySessionProofs

/-! # The Python ends as processes — `NamedPipeTransport.send`, `PipeHandlerThread.run`

    Both ends are in one of the four transfers of a `Phase` or, as the client
    between two calls, in none.  As for the C ends, `call_function` is a
    question; it is answered with a text, or raises.

    `transport` and `pipeHandler` are the processes, `pyClient` and `pyServer`
    what each does with a frame.  The Python server announces CHARACTERS, so it
    gives a frame only where its text is ASCII.  `Mirrors.step` says that the two
    are those of a Python session. -/

namespace PyPipeEnds

open ByteMemory Framing JsonValue JsonText PyJson Utf8Text ByteNetwork
open PySearpcDecode PySearpcServer PyTransport
open PySession (Request requestJson)

/-! ## Phases -/

/-- What a party does in a transfer; `rest` is what it does outside, and `back`
    what it does with what the last transfer gave. -/
def phaseAct {Q : Type} (rest : Act UInt8 Q) (back : Bytes → Act UInt8 Q) :
    Option Phase → Act UInt8 Q
  | none => rest
  | some (.sendHeader left) => .write left
  | some (.sendBody left) => .write left
  | some (.recvHeader data) => .read (4 - data.length)
  | some (.recvBody size data) => .read (size - data.length)
  | some (.returned resp) => back resp
  | some .raised => .halt

section Phases

variable {Q : Type} {rest : Act UInt8 Q} {back : Bytes → Act UInt8 Q} {ph : Option Phase}

theorem phaseAct_write {bs : Bytes} (hrest : rest.Apart) (hback : ∀ r, (back r).Apart)
    (h : phaseAct rest back ph = .write bs) :
    ph = some (.sendHeader bs) ∨ ph = some (.sendBody bs) := by
  cases ph with
  | none => exact absurd h (hrest.1 bs)
  | some ph =>
      cases ph with
      | sendHeader left => exact .inl (by rw [Act.write.inj h])
      | sendBody left => exact .inr (by rw [Act.write.inj h])
      | recvHeader data => cases h
      | recvBody size data => cases h
      | returned resp => exact absurd h ((hback resp).1 bs)
      | raised => cases h

theorem phaseAct_read {n : Nat} (hrest : rest.Apart) (hback : ∀ r, (back r).Apart)
    (h : phaseAct rest back ph = .read n) :
    (∃ data, ph = some (.recvHeader data) ∧ 4 - data.length = n)
      ∨ ∃ size data, ph = some (.recvBody size data) ∧ size - data.length = n := by
  cases ph with
  | none => exact absurd h (hrest.2 n)
  | some ph =>
      cases ph with
      | sendHeader left => cases h
      | sendBody left => cases h
      | recvHeader data => exact .inl ⟨data, rfl, Act.read.inj h⟩
      | recvBody size data => exact .inr ⟨size, data, rfl, Act.read.inj h⟩
      | returned resp => exact absurd h ((hback resp).2 n)
      | raised => cases h

/-- Part of a `sendall` leaves the rest. -/
theorem drop_ne_nil {bs : Bytes} {i j : Nat} (hj : 0 < j) (hle : i + j ≤ bs.length) :
    bs.drop i ≠ [] := by
  intro hnil
  have hlen := List.drop_eq_nil_iff.mp hnil
  omega

/-- Two sends are one. -/
theorem sent_add (e : Endian) (body : Bytes) (rest' : Act UInt8 Q) (back' : Bytes → Act UInt8 Q)
    {bs : Bytes} {i j : Nat} (hrest : rest.Apart) (hback : ∀ r, (back r).Apart)
    (h : phaseAct rest back ph = .write bs) (hi : 0 < i) (hj : 0 < j) (hle : i + j ≤ bs.length) :
    phaseAct rest' back' (ph.map (turn e body · (.sent i))) = .write (bs.drop i)
      ∧ (ph.map (turn e body · (.sent i))).map (turn e body · (.sent j))
        = ph.map (turn e body · (.sent (i + j))) := by
  have hrestne := drop_ne_nil hj hle
  have hi0 : i ≠ 0 := Nat.ne_of_gt hi
  have hj0 : j ≠ 0 := Nat.ne_of_gt hj
  have hij : i + j ≠ 0 := Nat.ne_of_gt (Nat.add_pos_left hi j)
  rcases phaseAct_write hrest hback h with rfl | rfl
  · simp only [Option.map_some, turn_sendHeader hi0, turn_sendHeader hij, loopSendHeader,
      if_neg hrestne, turn_sendHeader hj0, List.drop_drop]
    exact ⟨rfl, trivial⟩
  · simp only [Option.map_some, turn_sendBody hi0, turn_sendBody hij, loopSendBody,
      if_neg hrestne, turn_sendBody hj0, List.drop_drop]
    exact ⟨rfl, trivial⟩

/-- Two receives are one. -/
theorem received_append (e : Endian) (body : Bytes) (rest' : Act UInt8 Q)
    (back' : Bytes → Act UInt8 Q) {n : Nat} {new more : Bytes} (hrest : rest.Apart)
    (hback : ∀ r, (back r).Apart) (h : phaseAct rest back ph = .read n) (hnew : new ≠ [])
    (hmore : more ≠ []) (hle : new.length + more.length ≤ n) :
    phaseAct rest' back' (ph.map (turn e body · (.received new))) = .read (n - new.length)
      ∧ (ph.map (turn e body · (.received new))).map (turn e body · (.received more))
        = ph.map (turn e body · (.received (new ++ more))) := by
  have hpos := List.length_pos_iff.mpr hmore
  have hboth : new ++ more ≠ [] := List.append_ne_nil_of_left_ne_nil hnew more
  rcases phaseAct_read hrest hback h with ⟨data, rfl, rfl⟩ | ⟨size, data, rfl, rfl⟩
  · have hlt : (data ++ new).length < 4 := by rw [List.length_append]; omega
    simp only [Option.map_some, turn_recvHeader hnew, turn_recvHeader hboth, loopRecvHeader,
      if_pos hlt, turn_recvHeader hmore, List.append_assoc, phaseAct, and_true, Act.read.injEq]
    rw [List.length_append]
    omega
  · have hlt : (data ++ new).length < size := by rw [List.length_append]; omega
    simp only [Option.map_some, turn_recvBody hnew, turn_recvBody hboth, loopRecvBody,
      if_pos hlt, turn_recvBody hmore, List.append_assoc, phaseAct, and_true, Act.read.injEq]
    rw [List.length_append]
    omega

end Phases

/-! ## Parties -/

/-- A program that is in a transfer or outside one: the text it sends, what it
    does outside, how it takes an answer there, the question it asks of what it
    has received, and how it goes on. -/
structure Party (X Q A : Type) where
  body   : X → Bytes
  rest   : X → Act UInt8 Q
  begin  : X → A → X × Option Phase
  asks   : X → Bytes → Option Q
  resume : X → Option A → Bytes → X × Option Phase
  apart  : ∀ x, (rest x).Apart

section Parties

variable {X Q A : Type} (e : Endian) (G : Party X Q A)

def Party.back (x : X) (resp : Bytes) : Act UInt8 Q :=
  match G.asks x resp with
  | none => .tau
  | some q => .ask q

def Party.answered (s : X × Option Phase) (a : A) : X × Option Phase :=
  match s.2 with
  | some (.returned resp) => G.resume s.1 (some a) resp
  | _ => G.begin s.1 a

def Party.moved (s : X × Option Phase) : X × Option Phase :=
  match s.2 with
  | some (.returned resp) => G.resume s.1 none resp
  | _ => s

theorem Party.apart_back (x : X) (resp : Bytes) : (G.back x resp).Apart := by
  rw [Party.back]
  split
  · exact apart_tau
  · exact apart_ask _

/-- **A PARTY IS A PROCESS**. -/
def Party.process : Process UInt8 Q A (X × Option Phase) where
  act s := phaseAct (G.rest s.1) (G.back s.1) s.2
  wrote s n := (s.1, s.2.map (turn e (G.body s.1) · (.sent n)))
  got s new := (s.1, s.2.map (turn e (G.body s.1) · (.received new)))
  answered := G.answered
  moved := G.moved
  wrote_add := by
    intro s bs i j h hi hj hle
    obtain ⟨hact, hadd⟩ := sent_add e (G.body s.1) (G.rest s.1)
      (G.back s.1) (G.apart s.1) (G.apart_back s.1) h hi hj hle
    exact ⟨hact, by rw [hadd]⟩
  got_append := by
    intro s n new more h hnew hmore hle
    obtain ⟨hact, hadd⟩ := received_append e (G.body s.1) (G.rest s.1)
      (G.back s.1) (G.apart s.1) (G.apart_back s.1) h hnew hmore hle
    exact ⟨hact, by rw [hadd]⟩

variable {e G} {x : X}

theorem Party.process_act (s : X × Option Phase) :
    (G.process e).act s = phaseAct (G.rest s.1) (G.back s.1) s.2 := rfl

/-- A header and a body go out. -/
theorem Party.gives (left : Bytes) :
    (G.process e).Gives (x, some (loopSendHeader e (G.body x) left)) (left ++ G.body x)
      (x, some (.recvHeader [])) := by
  have hbody : (G.process e).Gives (x, some (loopSendBody e (G.body x))) (G.body x)
      (x, some (.recvHeader [])) := by
    by_cases hne : G.body x = []
    · rw [loopSendBody, if_pos hne, hne, loopRecvHeader_nil]
      exact Process.gives_nil
    · have hrun := Process.gives_write (M := G.process e) (p := (x, some (.sendBody (G.body x))))
        rfl hne
      rw [loopSendBody, if_neg hne]
      rwa [show (G.process e).wrote (x, some (.sendBody (G.body x))) (G.body x).length
          = (x, some (.recvHeader [])) by
        show (x, some (turn e (G.body x) (.sendBody (G.body x)) (.sent (G.body x).length))) = _
        rw [turn_whole_body hne]] at hrun
  by_cases hne : left = []
  · rw [loopSendHeader, if_pos hne, hne]
    exact hbody
  · have hrun := Process.gives_write (M := G.process e) (p := (x, some (.sendHeader left))) rfl hne
    rw [loopSendHeader, if_neg hne]
    rw [show (G.process e).wrote (x, some (.sendHeader left)) left.length
        = (x, some (loopSendBody e (G.body x))) by
      show (x, some (turn e (G.body x) (.sendHeader left) (.sent left.length))) = _
      rw [turn_sendHeader (Nat.ne_of_gt (List.length_pos_iff.mpr hne)), List.drop_length,
        loopSendHeader, if_pos rfl]] at hrun
    exact hrun.trans hbody

/-- A frame comes in. -/
theorem Party.takes {r : Bytes} (hlen : r.length < 2 ^ 32) (hvalid : utf8Valid r = true) :
    (G.process e).Takes (x, some (.recvHeader [])) (encodeFrame e r) (x, some (.returned r)) := by
  have hhead := Process.takes_read (M := G.process e) (p := (x, some (.recvHeader [])))
    (u32Bytes e r.length) (by rw [u32Bytes_length]; rfl) (u32Bytes_ne_nil e _)
  rw [show (G.process e).got (x, some (.recvHeader [])) (u32Bytes e r.length)
      = (x, some (loopRecvBody r.length [])) by
    show (x, some (turn e (G.body x) (.recvHeader []) (.received (u32Bytes e r.length)))) = _
    rw [turn_reply_header hlen]] at hhead
  by_cases hne : r = []
  · subst hne
    rw [show loopRecvBody ([] : Bytes).length [] = .returned [] from rfl] at hhead
    rwa [encodeFrame, List.append_nil]
  · have hpos := List.length_pos_iff.mpr hne
    rw [loopRecvBody, List.length_nil, if_pos hpos] at hhead
    have hbody := Process.takes_read (M := G.process e) (p := (x, some (.recvBody r.length [])))
      r rfl hne
    rw [show (G.process e).got (x, some (.recvBody r.length [])) r = (x, some (.returned r)) by
      show (x, some (turn e (G.body x) (.recvBody r.length []) (.received r))) = _
      rw [turn_reply_body hne hvalid]] at hbody
    exact hhead.trans hbody

end Parties

/-! ## The two processes -/

variable (e : Endian) (M : JsonModule)

/-- `body_utf8`. -/
def requestBody (c : Request) : Bytes := utf8 (M.dumps (requestJson c))

/-- A client program: the call it makes, and what its calls have returned. -/
structure Caller where
  request : Request
  rets    : List Bytes

/-- The client program: outside `send` it waits for the next call to make. -/
def transportParty : Party Caller Unit Request where
  body p := requestBody M p.request
  rest _ := .ask ()
  begin p c := (⟨c, p.rets⟩, some (enter e (requestBody M c)))
  asks _ _ := none
  resume p _ resp := ({ p with rets := p.rets ++ [resp] }, none)
  apart _ := apart_ask ()

/-- **THE CALLER**. -/
def transport : Process UInt8 Unit Request (Caller × Option Phase) := (transportParty e M).process e

/-- A client program before its first call. -/
def Caller.start : Caller × Option Phase := (⟨([], []), []⟩, none)

/-- What a request asks `call_function`; nothing where the thread raises. -/
def parseRequest (req : Bytes) : Option (Json × Json) :=
  match M.loads req with
  | none => none
  | some data =>
      match subscript data (.str (ascii "service")), subscript data (.str (ascii "request")) with
      | .ok svcname, .ok fcallstr => some (svcname, fcallstr)
      | _, _ => none

/-- The connection thread with the text it sends. -/
def pipeHandlerParty : Party Bytes (Json × Json) (Option PyStr) where
  body resp := resp
  rest _ := .halt
  begin resp _ := (resp, none)
  asks _ := parseRequest M
  resume old answer _ :=
    match answer with
    | some (some resp) =>
        if resp.length < 2 ^ 32 then
          (utf8 resp, some (loopSendHeader e (utf8 resp) (u32Bytes e resp.length)))
        else (old, some .raised)
    | _ => (old, some .raised)
  apart _ := apart_halt

/-- **THE HANDLER**. -/
def pipeHandler : Process UInt8 (Json × Json) (Option PyStr) (Bytes × Option Phase) :=
  (pipeHandlerParty e M).process e

theorem answered_some (old req : Bytes) (resp : PyStr) :
    (pipeHandler e M).answered (old, some (.returned req)) (some resp)
      = if resp.length < 2 ^ 32 then
          (utf8 resp, some (loopSendHeader e (utf8 resp) (u32Bytes e resp.length)))
        else (old, some .raised) := rfl

section Handler

variable {σ : Type} (S : PySession.System σ)

/-- A handler as the process sees it. -/
def view (h : PySession.Handler σ) : Bytes × Option Phase := (h.resp, some h.phase)

/-- A request that is refused ends the thread. -/
theorem view_serve_none {h : PySession.Handler σ} {req : Bytes}
    (hreq : parseRequest S.json req = none) :
    view (h.serve S req) = (pipeHandler S.endian S.json).moved (h.resp, some (.returned req))
      ∧ (h.serve S req).world = h.world ∧ (h.serve S req).served = h.served := by
  cases hload : S.json.loads req with
  | none =>
      simp only [PySession.Handler.serve, hload]
      exact ⟨rfl, trivial, trivial⟩
  | some data =>
      simp only [parseRequest, hload] at hreq
      simp only [PySession.Handler.serve, hload]
      cases hsvc : subscript data (.str (ascii "service")) with
      | error x => exact ⟨rfl, rfl, rfl⟩
      | ok svcname =>
          cases hcall : subscript data (.str (ascii "request")) with
          | error x => exact ⟨rfl, rfl, rfl⟩
          | ok fcallstr =>
              simp only [hsvc, hcall] at hreq
              cases hreq

/-- Serving a request is the question and the answer of the functions. -/
theorem view_serve_some {h : PySession.Handler σ} {req : Bytes} {q : Json × Json}
    (hreq : parseRequest S.json req = some q) :
    view (h.serve S req) = (pipeHandler S.endian S.json).answered (h.resp, some (.returned req))
        (S.call h.world q.1 q.2).2
      ∧ (h.serve S req).world = (S.call h.world q.1 q.2).1
      ∧ (h.serve S req).served = h.served ++ [q] := by
  cases hload : S.json.loads req with
  | none =>
      simp only [parseRequest, hload] at hreq
      cases hreq
  | some data =>
      simp only [parseRequest, hload] at hreq
      simp only [PySession.Handler.serve, hload]
      cases hsvc : subscript data (.str (ascii "service")) with
      | error x =>
          simp only [hsvc] at hreq
          cases hreq
      | ok svcname =>
          cases hcall : subscript data (.str (ascii "request")) with
          | error x =>
              simp only [hsvc, hcall] at hreq
              cases hreq
          | ok fcallstr =>
              simp only [hsvc, hcall] at hreq
              obtain rfl := Option.some.inj hreq
              simp only
              cases hans : (S.call h.world svcname fcallstr).2 with
              | none => exact ⟨rfl, rfl, rfl⟩
              | some resp =>
                  rw [answered_some]
                  by_cases hlen : resp.length < 2 ^ 32
                  · simp only [PySession.Handler.send, if_pos hlen]
                    exact ⟨rfl, trivial, trivial⟩
                  · simp only [PySession.Handler.send, if_neg hlen]
                    exact ⟨rfl, trivial, trivial⟩

end Handler

/-! ## A session is a run of the two -/

section Sessions

variable {σ : Type} {S : PySession.System σ} {reqs : List Request}
  {s s' : PySession.Session σ} {t u : Net UInt8 Request (Caller × Option Phase) (Json × Json)
    (Option PyStr) (Bytes × Option Phase)}

/-- The network stands where the session does. -/
structure Mirrors (reqs : List Request) (s : PySession.Session σ)
    (t : Net UInt8 Request (Caller × Option Phase) (Json × Json) (Option PyStr)
      (Bytes × Option Phase)) : Prop where
  client  : t.left.2.map (Prod.mk t.left.1.request) = s.client
  rets    : t.left.1.rets = s.rets
  server  : t.right = view s.server
  toLeft  : t.toLeft = s.s2c
  toRight : t.toRight = s.c2s
  todo    : t.leftHeard ++ s.todo = reqs
  asked   : t.rightAsked = s.server.served

/-- A request is there, and the session's handler has served it already. -/
structure Holding (S : PySession.System σ) (reqs : List Request) (h : PySession.Handler σ)
    (req : Bytes) (s : PySession.Session σ)
    (t : Net UInt8 Request (Caller × Option Phase) (Json × Json) (Option PyStr)
      (Bytes × Option Phase)) : Prop where
  server : s.server = h.serve S req
  right  : t.right = (h.resp, some (.returned req))
  asked  : t.rightAsked = h.served
  rest   : Mirrors reqs s { t with right := view s.server, rightAsked := s.server.served }

theorem mirrors_start (w : σ) : Mirrors reqs (PySession.Session.start w reqs)
    ⟨Caller.start, ([], some (.recvHeader [])), [], [], [], [], []⟩ :=
  ⟨rfl, rfl, rfl, rfl, rfl, rfl, rfl⟩

/-- What is offered is being written. -/
theorem phaseAct_offered {Q : Type} {rest : Act UInt8 Q} {back : Bytes → Act UInt8 Q} {ph : Phase}
    {n : Nat} (hn : 0 < n) (hle : n ≤ ph.offered.length) :
    phaseAct rest back (some ph) = .write ph.offered := by
  cases ph with
  | sendHeader left => rfl
  | sendBody left => rfl
  | recvHeader data => exact absurd (Nat.lt_of_lt_of_le hn hle) (Nat.lt_irrefl 0)
  | recvBody size data => exact absurd (Nat.lt_of_lt_of_le hn hle) (Nat.lt_irrefl 0)
  | returned resp => exact absurd (Nat.lt_of_lt_of_le hn hle) (Nat.lt_irrefl 0)
  | raised => exact absurd (Nat.lt_of_lt_of_le hn hle) (Nat.lt_irrefl 0)

/-- What is asked for is being read. -/
theorem phaseAct_remain {Q : Type} {rest : Act UInt8 Q} {back : Bytes → Act UInt8 Q} {ph : Phase}
    {new : Bytes} (hnew : new ≠ []) (hle : new.length ≤ ph.remain) :
    phaseAct rest back (some ph) = .read ph.remain := by
  have hpos := Nat.lt_of_lt_of_le (List.length_pos_iff.mpr hnew) hle
  cases ph with
  | sendHeader left => exact absurd hpos (Nat.lt_irrefl 0)
  | sendBody left => exact absurd hpos (Nat.lt_irrefl 0)
  | recvHeader data => rfl
  | recvBody size data => rfl
  | returned resp => exact absurd hpos (Nat.lt_irrefl 0)
  | raised => exact absurd hpos (Nat.lt_irrefl 0)

/-- A client in a call. -/
theorem Mirrors.calling (h : Mirrors reqs s t) {c : Request} {ph : Phase}
    (hc : s.client = some (c, ph)) : t.left = (⟨c, s.rets⟩, some ph) := by
  have hclient := h.client.trans hc
  have hrets := h.rets
  obtain ⟨⟨⟨request, rets⟩, phase⟩, _⟩ := t
  obtain ⟨ph', rfl, heq⟩ := Option.map_eq_some_iff.mp hclient
  obtain ⟨rfl, rfl⟩ := Prod.mk.inj heq
  exact congrArg (fun r => (Caller.mk request r, some ph')) hrets

/-- The handler has taken its turn: it is where the session's is, or holds the
    request which that has served. -/
theorem Mirrors.turned (io : IoResult) {ph : Phase}
    (hph : ph = PyTransport.turn S.endian s.server.resp s.server.phase io)
    (hserver : s'.server = s.server.turn S io) (hright : t.right = (s.server.resp, some ph))
    (hasked : t.rightAsked = s.server.served)
    (hrest : Mirrors reqs s' { t with right := view s'.server, rightAsked := s'.server.served }) :
    (Mirrors reqs s' t ∧ s'.server.world = s.server.world)
      ∨ ∃ req, Holding S reqs s.server req s' t := by
  by_cases hreq : ∃ req, ph = .returned req
  · obtain ⟨req, rfl⟩ := hreq
    exact .inr ⟨req, hserver.trans (PySession.turn_serves hph.symm), hright, hasked, hrest⟩
  · have hstays := hserver.trans
      (PySession.turn_within (S := S) fun r hr => hreq ⟨r, hph.trans hr⟩)
    left
    have hview : t.right = view s'.server := by
      rw [hright, hstays, ← hph]
      rfl
    have hserved : t.rightAsked = s'.server.served := by rw [hasked, hstays]
    exact ⟨⟨hrest.client, hrest.rets, hview, hrest.toLeft, hrest.toRight, hrest.todo, hserved⟩,
      by rw [hstays]⟩

/-- **A STEP OF A SESSION** is a move of one of the two processes. -/
theorem Mirrors.step (h : Mirrors reqs s t) (hstep : PySession.Step S s s') :
    ∃ u, Net.Step (transport S.endian S.json) (pipeHandler S.endian S.json) t u
      ∧ u.leftHeard <+: reqs ∧ u.rightHeard = t.rightHeard
      ∧ ((Mirrors reqs s' u ∧ s'.server.world = s.server.world)
        ∨ ∃ req, Holding S reqs s.server req s' u) := by
  have hheard : t.leftHeard <+: reqs := ⟨s.todo, h.todo⟩
  cases hstep with
  | @call c todo hc htodo =>
      have hnone : t.left.2 = none := Option.map_eq_none_iff.mp (h.client.trans hc)
      have hact : (transport S.endian S.json).act t.left = .ask () := by
        rw [transport, Party.process_act, hnone]
        rfl
      have hafter : (transport S.endian S.json).answered t.left c
          = (⟨c, t.left.1.rets⟩, some (enter S.endian (S.body c))) := by
        show (transportParty S.endian S.json).answered t.left c = _
        rw [Party.answered, hnone]
        rfl
      have hall : (t.leftHeard ++ [c]) ++ todo = reqs := by
        rw [List.append_assoc, List.singleton_append, ← htodo]
        exact h.todo
      refine ⟨_, .left (.ask c hact) rfl, ⟨todo, hall⟩, rfl, .inl ⟨?_, rfl⟩⟩
      rw [hafter]
      exact ⟨rfl, h.rets, h.server, h.toLeft, (List.append_nil _).trans h.toRight, hall, h.asked⟩
  | @clientSend c ph n hc hn hle =>
      have hleft := h.calling hc
      have hact : (transport S.endian S.json).act t.left = .write ph.offered := by
        rw [hleft]
        exact phaseAct_offered hn hle
      refine ⟨_, .left (.write hact hn hle) rfl, ?_, rfl, .inl ⟨?_, rfl⟩⟩
      · show t.leftHeard ++ [] <+: reqs
        rwa [List.append_nil]
      · rw [hleft]
        exact ⟨rfl, rfl, h.server, h.toLeft, congrArg (· ++ ph.offered.take n) h.toRight,
          (congrArg (· ++ s.todo) (List.append_nil _)).trans h.todo, h.asked⟩
  | @clientRecv c ph new rest hc hnew hle hq =>
      have hleft := h.calling hc
      have hact : (transport S.endian S.json).act t.left = .read ph.remain := by
        rw [hleft]
        exact phaseAct_remain hnew hle
      refine ⟨_, .left (.read hact hnew hle) (h.toLeft.trans hq), ?_, rfl, .inl ⟨?_, rfl⟩⟩
      · show t.leftHeard ++ [] <+: reqs
        rwa [List.append_nil]
      · rw [hleft]
        exact ⟨rfl, rfl, h.server, rfl, (List.append_nil _).trans h.toRight,
          (congrArg (· ++ s.todo) (List.append_nil _)).trans h.todo, h.asked⟩
  | @clientReturn c resp hc =>
      have hleft := h.calling hc
      have hact : (transport S.endian S.json).act t.left = .tau := by
        rw [hleft]
        rfl
      refine ⟨_, .left (.tau hact) rfl, ?_, rfl, .inl ⟨?_, rfl⟩⟩
      · show t.leftHeard ++ [] <+: reqs
        rwa [List.append_nil]
      · rw [hleft]
        exact ⟨rfl, rfl, h.server, h.toLeft, (List.append_nil _).trans h.toRight,
          (congrArg (· ++ s.todo) (List.append_nil _)).trans h.todo, h.asked⟩
  | @serverRecv new rest hnew hle hq =>
      have hact : (pipeHandler S.endian S.json).act t.right = .read s.server.phase.remain := by
        rw [h.server]
        exact phaseAct_remain hnew hle
      refine ⟨_, .right (.read hact hnew hle) (h.toRight.trans hq), hheard, List.append_nil _,
        Mirrors.turned (.received new) rfl rfl ?_ ((List.append_nil _).trans h.asked) ?_⟩
      · rw [h.server]
        rfl
      · exact ⟨h.client, h.rets, rfl, (List.append_nil _).trans h.toLeft, rfl, h.todo, rfl⟩
  | @serverSend n hn hle =>
      have hact : (pipeHandler S.endian S.json).act t.right = .write s.server.phase.offered := by
        rw [h.server]
        exact phaseAct_offered hn hle
      refine ⟨_, .right (.write hact hn hle) rfl, hheard, List.append_nil _,
        Mirrors.turned (.sent n) rfl rfl ?_ ((List.append_nil _).trans h.asked) ?_⟩
      · rw [h.server]
        rfl
      · exact ⟨h.client, h.rets, rfl, congrArg (· ++ s.server.phase.offered.take n) h.toLeft,
          h.toRight, h.todo, rfl⟩

end Sessions

/-! ## What the ends do, whoever is at the other -/

theorem transport_grow {s s' : Caller × Option Phase} {l : Label UInt8 Unit Request}
    (h : (transport e M).Moves s l s') : s.1.rets <+: s'.1.rets := by
  cases h with
  | write => exact List.prefix_refl _
  | read => exact List.prefix_refl _
  | ask a =>
      show s.1.rets <+: ((transportParty e M).answered s a).1.rets
      rw [Party.answered]
      split
      · exact List.prefix_append _ _
      · exact List.prefix_refl _
  | tau =>
      show s.1.rets <+: ((transportParty e M).moved s).1.rets
      rw [Party.moved]
      split
      · exact List.prefix_append _ _
      · exact List.prefix_refl _

/-- **THE PYTHON CLIENT**: a request is one frame; it waits for one frame, and
    takes its payload for the result if that is UTF-8. -/
def pyClient : Client (transport e M) Bytes where
  rets s := s.1.rets
  idle s := s.2 = none
  waits c s := s.1.request = c ∧ s.2 = some (.recvHeader [])
  Good c := (requestBody M c).length < 2 ^ 32
  request c := encodeFrame e (requestBody M c)
  reply _ bs t := bs = encodeFrame e t ∧ t.length < 2 ^ 32 ∧ utf8Valid t = true
  idle_asks := by
    rintro ⟨p, _⟩ rfl
    rfl
  waits_reads := by
    rintro _ ⟨p, _⟩ ⟨rfl, rfl⟩
    exact ⟨4, rfl⟩
  grow := transport_grow e M
  send := by
    rintro c ⟨p, _⟩ rfl hlen
    have hrun := Party.gives (e := e) (G := transportParty e M) (x := ⟨c, p.rets⟩)
      (u32Bytes e (requestBody M c).length)
    rw [show (transport e M).answered (p, none) c
        = (⟨c, p.rets⟩, some (enter e (requestBody M c))) from rfl, enter, if_pos hlen]
    exact ⟨_, hrun, ⟨rfl, rfl⟩, rfl⟩
  receive := by
    rintro c ⟨p, _⟩ bs t ⟨rfl, rfl⟩ ⟨rfl, hlen, hvalid⟩
    have hrun := (Party.takes (e := e) (G := transportParty e M) (x := p) hlen hvalid).tau rfl
    exact ⟨_, hrun, rfl, rfl⟩

/-- **THE PYTHON SERVER'S CONNECTION THREAD**: a frame that parses is a request;
    an ASCII text is given in one frame. -/
def pyServer : ByteNetwork.Server (pipeHandler e M) where
  ready s := s.2 = some (.recvHeader [])
  holds q s := ∃ old req, s = (old, some (.returned req)) ∧ parseRequest M req = some q
  Request bs q := ∃ req : Bytes, bs = encodeFrame e req ∧ req.length < 2 ^ 32
    ∧ utf8Valid req = true ∧ parseRequest M req = some q
  reply a bs := ∃ resp, a = some resp ∧ Ascii resp ∧ resp.length < 2 ^ 32
    ∧ bs = encodeFrame e (utf8 resp)
  ready_reads := by
    rintro ⟨old, _⟩ rfl
    exact ⟨4, rfl⟩
  holds_asks := by
    rintro q _ ⟨old, req, rfl, hreq⟩
    rw [pipeHandler, Party.process_act]
    simp only [phaseAct, Party.back, pipeHandlerParty, hreq]
  take := by
    rintro ⟨old, _⟩ bs q rfl ⟨req, rfl, hlen, hvalid, hreq⟩
    exact ⟨_, Party.takes hlen hvalid, old, req, rfl, hreq⟩
  give := by
    rintro q _ a bs ⟨old, req, rfl, -⟩ ⟨resp, rfl, hascii, hlen, rfl⟩
    rw [answered_some, if_pos hlen, encodeFrame, hascii.utf8_length]
    exact ⟨_, Party.gives _, rfl⟩

end PyPipeEnds
