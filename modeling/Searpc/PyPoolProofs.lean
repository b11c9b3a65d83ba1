import Mathlib.Logic.Function.Basic
import Searpc.PyTransportProofs

/-! # The Python connection pool — `NamedPipeClient`

    Any number of threads share a queue of transports.  A call takes a
    transport from the queue or connects a new one, sends its request, reads
    the reply and puts the transport back, or stops it when the queue is full.
    Nothing says that a transport on which something went wrong is not put
    back: exceptions just never get to the line that would.

    A state is the queue, the connections with what was sent on them, and where
    each thread stands; a step is one operation of the queue, one system call
    of a thread, or one request served.  The server takes whole frames in order
    and answers each with one frame, of any content; connecting, sending and
    receiving may fail at any point. -/

namespace PyPool

open ByteMemory Framing JsonValue PyJson PyTransport

/-! ## States -/

/-- A call that uses a connection: its number and its call text. -/
structure Call where
  id       : Nat
  fcallStr : PyStr
deriving DecidableEq

/-- The connection of a transport: the calls that used it, the bytes the server
    has yet to take, the requests it took with its replies, and the bytes the
    client has yet to receive. -/
structure Conn where
  calls   : List Call
  unread  : Bytes
  log     : List (Bytes × Bytes)
  pending : Bytes
  stopped : Bool

/-- A connection just made. -/
def Conn.fresh : Conn := ⟨[], [], [], [], false⟩

/-- A call begins to use the connection. -/
def Conn.begin (c : Conn) (call : Call) : Conn := { c with calls := c.calls ++ [call] }

/-- The client sends. -/
def Conn.send (c : Conn) (bs : Bytes) : Conn := { c with unread := c.unread ++ bs }

/-- The client receives all but `rest`. -/
def Conn.recv (c : Conn) (rest : Bytes) : Conn := { c with pending := rest }

/-- The server takes the request `p`, leaves `rest`, and answers `r`. -/
def Conn.serve (e : Endian) (c : Conn) (p rest r : Bytes) : Conn :=
  { c with
    unread := rest
    log := c.log ++ [(p, r)]
    pending := c.pending ++ encodeFrame e r }

/-- `transport.stop()`. -/
def Conn.stop (c : Conn) : Conn := { c with stopped := true }

/-- Where a thread stands in `call_remote_func_sync`. -/
inductive Pc where
  | idle
  | getting (fcallStr : PyStr)
  | connecting (fcallStr : PyStr)
  | entering (t : Nat) (fcallStr : PyStr)
  | sending (t : Nat) (call : Call) (phase : Phase)
  | putting (t : Nat) (call : Call) (retStr : Bytes)
  | stopping (t : Nat) (call : Call) (retStr : Bytes)

/-- The transport a thread holds. -/
def Pc.transport : Pc → Option Nat
  | .idle => none
  | .getting _ => none
  | .connecting _ => none
  | .entering t _ => some t
  | .sending t _ _ => some t
  | .putting t _ _ => some t
  | .stopping t _ _ => some t

/-- A call that returned normally: on which transport, and with what. -/
structure Return where
  call      : Call
  transport : Nat
  retStr    : Bytes

/-- The client: the queue, the transports made so far, the threads, and how
    many calls used a connection. -/
structure State where
  pool     : List Nat
  next     : Nat
  conns    : Nat → Conn
  threads  : Nat → Pc
  nextCall : Nat
  returns  : List Return

def State.start : State := ⟨[], 0, fun _ => .fresh, fun _ => .idle, 0, []⟩

/-- Thread `i` goes on. -/
def State.goto (s : State) (i : Nat) (pc : Pc) : State :=
  { s with threads := Function.update s.threads i pc }

/-- Connection `t` changes. -/
def State.set (s : State) (t : Nat) (c : Conn) : State :=
  { s with conns := Function.update s.conns t c }

/-- The queue changes. -/
def State.setPool (s : State) (pool : List Nat) : State := { s with pool := pool }

/-- A new transport is connected. -/
def State.connect (s : State) : State :=
  { s with next := s.next + 1, conns := Function.update s.conns s.next .fresh }

/-- A call begins to use transport `t`. -/
def State.begin (s : State) (t : Nat) (fcallStr : PyStr) : State :=
  { s with
    nextCall := s.nextCall + 1
    conns := Function.update s.conns t ((s.conns t).begin ⟨s.nextCall, fcallStr⟩) }

/-- A call returns. -/
def State.done (s : State) (r : Return) : State := { s with returns := s.returns ++ [r] }

/-! ## Steps -/

section Client

variable (e : Endian) (service : PyStr) (poolSize : Int)

/-- The request of a call. -/
def Call.body (call : Call) : Bytes := bodyUtf8 service call.fcallStr

/-- `queue.Queue(maxsize)` is full; a size that is not positive is no bound. -/
def Full (pool : List Nat) : Prop := 0 < poolSize ∧ poolSize ≤ pool.length

/-- One step of a thread or of the server. -/
inductive Step : State → State → Prop where
  -- a thread calls `call_remote_func_sync`
  | call {s : State} {i : Nat} (fcallStr : PyStr) (hpc : s.threads i = .idle) :
      Step s (s.goto i (.getting fcallStr))
  -- `self._pool.get(False)`
  | get {s : State} {i t : Nat} {fcallStr : PyStr} {rest : List Nat}
      (hpc : s.threads i = .getting fcallStr) (hpool : s.pool = t :: rest) :
      Step s ((s.setPool rest).goto i (.entering t fcallStr))
  | empty {s : State} {i : Nat} {fcallStr : PyStr} (hpc : s.threads i = .getting fcallStr)
      (hpool : s.pool = []) : Step s (s.goto i (.connecting fcallStr))
  -- `_create_transport`
  | connect {s : State} {i : Nat} {fcallStr : PyStr} (hpc : s.threads i = .connecting fcallStr) :
      Step s (s.connect.goto i (.entering s.next fcallStr))
  | connectFails {s : State} {i : Nat} {fcallStr : PyStr}
      (hpc : s.threads i = .connecting fcallStr) : Step s (s.goto i .idle)
  -- `transport.send`, one system call at a time
  | enter {s : State} {i t : Nat} {fcallStr : PyStr} (hpc : s.threads i = .entering t fcallStr) :
      Step s ((s.begin t fcallStr).goto i
        (.sending t ⟨s.nextCall, fcallStr⟩ (PyTransport.enter e (bodyUtf8 service fcallStr))))
  | send {s : State} {i t n : Nat} {call : Call} {ph : Phase}
      (hpc : s.threads i = .sending t call ph) (hn : 0 < n) (hle : n ≤ ph.offered.length) :
      Step s ((s.set t ((s.conns t).send (ph.offered.take n))).goto i
        (.sending t call (turn e (call.body service) ph (.sent n))))
  | recv {s : State} {i t : Nat} {call : Call} {ph : Phase} {new rest : Bytes}
      (hpc : s.threads i = .sending t call ph) (hnew : new ≠ []) (hle : new.length ≤ ph.remain)
      (hpending : (s.conns t).pending = new ++ rest) :
      Step s ((s.set t ((s.conns t).recv rest)).goto i
        (.sending t call (turn e (call.body service) ph (.received new))))
  | ioFails {s : State} {i t : Nat} {call : Call} {ph : Phase} {io : IoResult}
      (hpc : s.threads i = .sending t call ph)
      (hio : io = .failed ∨ io = .sent 0 ∨ io = .received []) :
      Step s (s.goto i (.sending t call (turn e (call.body service) ph io)))
  -- an exception ends the call; nobody has the transport any more
  | raise {s : State} {i t : Nat} {call : Call} (hpc : s.threads i = .sending t call .raised) :
      Step s (s.goto i .idle)
  | sent {s : State} {i t : Nat} {call : Call} {resp : Bytes}
      (hpc : s.threads i = .sending t call (.returned resp)) :
      Step s (s.goto i (.putting t call resp))
  -- `self._pool.put(transport, False)`
  | put {s : State} {i t : Nat} {call : Call} {retStr : Bytes}
      (hpc : s.threads i = .putting t call retStr) (hfull : ¬ Full poolSize s.pool) :
      Step s (((s.setPool (s.pool ++ [t])).done ⟨call, t, retStr⟩).goto i .idle)
  | full {s : State} {i t : Nat} {call : Call} {retStr : Bytes}
      (hpc : s.threads i = .putting t call retStr) (hfull : Full poolSize s.pool) :
      Step s (s.goto i (.stopping t call retStr))
  | stop {s : State} {i t : Nat} {call : Call} {retStr : Bytes}
      (hpc : s.threads i = .stopping t call retStr) :
      Step s (((s.set t (s.conns t).stop).done ⟨call, t, retStr⟩).goto i .idle)
  -- the server takes a frame and answers it
  | serve {s : State} {t : Nat} {p rest r : Bytes}
      (hsplit : splitFrame e (s.conns t).unread = some (p, rest)) (hr : r.length < 2 ^ 32) :
      Step s (s.set t ((s.conns t).serve e p rest r))

/-- The states reached from the start. -/
inductive Reachable : State → Prop where
  | start : Reachable .start
  | step {s s' : State} : Reachable s → Step e service poolSize s s' → Reachable s'

end Client

/-! ## Ownership -/

/-- A transport is queued at most once, or held by one thread, never both. -/
structure Owned (s : State) : Prop where
  made  : ∀ t ∈ s.pool, t < s.next
  held  : ∀ i t, (s.threads i).transport = some t → t < s.next
  nodup : s.pool.Nodup
  apart : ∀ i t, (s.threads i).transport = some t → t ∉ s.pool
  alone : ∀ i j t, (s.threads i).transport = some t → (s.threads j).transport = some t → i = j

/-- One thread goes on: what is queued is held by no other thread, and what it
    holds now is neither queued nor held by another. -/
theorem Owned.move {s s' : State} (h : Owned s) {i : Nat} {pc : Pc}
    (hthreads : s'.threads = Function.update s.threads i pc) (hnext : s.next ≤ s'.next)
    (hnodup : s'.pool.Nodup) (hmade : ∀ t ∈ s'.pool, t < s'.next)
    (hothers : ∀ t ∈ s'.pool, ∀ j, j ≠ i → (s.threads j).transport ≠ some t)
    (hmine : ∀ t, pc.transport = some t → t < s'.next ∧ t ∉ s'.pool
      ∧ ∀ j, j ≠ i → (s.threads j).transport ≠ some t) : Owned s' := by
  have hself : s'.threads i = pc := by
    rw [hthreads, Function.update_self]
  have hother : ∀ j, j ≠ i → s'.threads j = s.threads j := by
    intro j hj
    rw [hthreads, Function.update_of_ne hj]
  refine ⟨hmade, fun j t hj => ?_, hnodup, fun j t hj => ?_, fun j k t hj hk => ?_⟩
  · by_cases hji : j = i
    · rw [hji, hself] at hj
      exact (hmine t hj).1
    · rw [hother j hji] at hj
      exact Nat.lt_of_lt_of_le (h.held j t hj) hnext
  · by_cases hji : j = i
    · rw [hji, hself] at hj
      exact (hmine t hj).2.1
    · rw [hother j hji] at hj
      exact fun hmem => hothers t hmem j hji hj
  · by_cases hji : j = i
    · by_cases hki : k = i
      · rw [hji, hki]
      · rw [hji, hself] at hj
        rw [hother k hki] at hk
        exact absurd hk ((hmine t hj).2.2 k hki)
    · rw [hother j hji] at hj
      by_cases hki : k = i
      · rw [hki, hself] at hk
        exact absurd hj ((hmine t hk).2.2 j hji)
      · rw [hother k hki] at hk
        exact h.alone j k t hj hk

/-- A thread goes on with the transport it has, or without one. -/
theorem Owned.goto {s s' : State} (h : Owned s) {i : Nat} {pc : Pc}
    (hthreads : s'.threads = Function.update s.threads i pc) (hnext : s'.next = s.next)
    (hpool : s'.pool = s.pool)
    (hkeep : ∀ t, pc.transport = some t → (s.threads i).transport = some t) : Owned s' := by
  refine h.move hthreads (Nat.le_of_eq hnext.symm) ?_ ?_ ?_ ?_
  · rw [hpool]
    exact h.nodup
  · rw [hpool, hnext]
    exact h.made
  · rw [hpool]
    exact fun t hmem j _ hj => h.apart j t hj hmem
  · intro t ht
    have hi := hkeep t ht
    rw [hpool, hnext]
    exact ⟨h.held i t hi, h.apart i t hi, fun j hji hj => hji (h.alone j i t hj hi)⟩

section Steps

variable {e : Endian} {service : PyStr} {poolSize : Int}

theorem owned_step {s s' : State} (h : Owned s) (hs : Step e service poolSize s s') :
    Owned s' := by
  cases hs with
  | call fcallStr hpc => exact h.goto rfl rfl rfl (by rintro t ⟨⟩)
  | @get i t fcallStr rest hpc hpool =>
      have hmade := h.made
      have hnodup := h.nodup
      rw [hpool] at hmade hnodup
      obtain ⟨hnot, hrest⟩ := List.nodup_cons.mp hnodup
      have hfree : ∀ u ∈ s.pool, ∀ j, j ≠ i → (s.threads j).transport ≠ some u :=
        fun u hu j _ hj => h.apart j u hj hu
      rw [hpool] at hfree
      refine h.move rfl (Nat.le_refl _) hrest (fun u hu => hmade u (List.mem_cons_of_mem t hu))
        (fun u hu => hfree u (List.mem_cons_of_mem t hu)) ?_
      rintro u hu
      obtain rfl : t = u := Option.some.inj hu
      exact ⟨hmade t List.mem_cons_self, hnot, hfree t List.mem_cons_self⟩
  | empty hpc hpool => exact h.goto rfl rfl rfl (by rintro t ⟨⟩)
  | @connect i fcallStr hpc =>
      refine h.move rfl (Nat.le_succ _) h.nodup
        (fun u hu => Nat.lt_succ_of_lt (h.made u hu)) (fun u hu j _ hj => h.apart j u hj hu) ?_
      intro u hu
      obtain rfl : s.next = u := Option.some.inj hu
      exact ⟨Nat.lt_succ_self _, fun hmem => Nat.lt_irrefl _ (h.made _ hmem),
        fun j _ hj => Nat.lt_irrefl _ (h.held j _ hj)⟩
  | connectFails hpc => exact h.goto rfl rfl rfl (by rintro t ⟨⟩)
  | enter hpc => exact h.goto rfl rfl rfl (fun u hu => by rw [hpc]; exact hu)
  | send hpc hn hle => exact h.goto rfl rfl rfl (fun u hu => by rw [hpc]; exact hu)
  | recv hpc hnew hle hpending => exact h.goto rfl rfl rfl (fun u hu => by rw [hpc]; exact hu)
  | ioFails hpc hio => exact h.goto rfl rfl rfl (fun u hu => by rw [hpc]; exact hu)
  | raise hpc => exact h.goto rfl rfl rfl (by rintro t ⟨⟩)
  | sent hpc => exact h.goto rfl rfl rfl (fun u hu => by rw [hpc]; exact hu)
  | @put i t call retStr hpc hfull =>
      have hi : (s.threads i).transport = some t := by rw [hpc]; rfl
      refine h.move rfl (Nat.le_refl _) ?_ ?_ ?_ (by rintro u ⟨⟩)
      · exact List.nodup_append.mpr ⟨h.nodup, List.nodup_singleton t, fun u hu v hv huv =>
          h.apart i t hi (by rw [List.mem_singleton.mp hv] at huv; exact huv ▸ hu)⟩
      · intro u hu
        rcases List.mem_append.mp hu with hu | hu
        · exact h.made u hu
        · rw [List.mem_singleton.mp hu]
          exact h.held i t hi
      · intro u hu j hji hj
        rcases List.mem_append.mp hu with hu | hu
        · exact h.apart j u hj hu
        · rw [List.mem_singleton.mp hu] at hj
          exact hji (h.alone j i t hj hi)
  | full hpc hfull => exact h.goto rfl rfl rfl (fun u hu => by rw [hpc]; exact hu)
  | stop hpc => exact h.goto rfl rfl rfl (by rintro t ⟨⟩)
  | serve hsplit hr => exact ⟨h.made, h.held, h.nodup, h.apart, h.alone⟩

/-- The queue keeps its size. -/
theorem size_step {s s' : State} (hpos : 0 < poolSize) (h : (s.pool.length : Int) ≤ poolSize)
    (hs : Step e service poolSize s s') : (s'.pool.length : Int) ≤ poolSize := by
  cases hs with
  | @get i t fcallStr rest hpc hpool =>
      rw [hpool, List.length_cons] at h
      show (rest.length : Int) ≤ poolSize
      omega
  | @put i t call retStr hpc hfull =>
      show ((s.pool ++ [t]).length : Int) ≤ poolSize
      rw [List.length_append, List.length_singleton]
      rw [Full] at hfull
      omega
  | _ => exact h

end Steps

/-! ## Connections -/

section Contents

variable (e : Endian) (service : PyStr)

/-- Every request on the connection was taken and answered, and every byte of
    the answers received. -/
structure Settled (c : Conn) : Prop where
  answered : c.log.map Prod.fst = c.calls.map (Call.body service)
  taken    : c.unread = []
  received : c.pending = []
  opened   : c.stopped = false

/-- The last call's request is on its way; the ones before are settled. -/
structure Busy (c : Conn) (call : Call) (ph : Phase) (before : List Call)
    (served : List (Bytes × Bytes)) (answer : Option Bytes) : Prop where
  calls    : c.calls = before ++ [call]
  earlier  : served.map Prod.fst = before.map (Call.body service)
  log      : c.log = served ++ answer.toList.map (fun r => (call.body service, r))
  exchange : Exchange e (call.body service) ph c.unread c.pending answer
  proper   : ph.Proper
  fits     : (call.body service).length < 2 ^ 32
  opened   : c.stopped = false

/-- The reply at the place of the call's own request. -/
def OwnReply (c : Conn) (call : Call) (retStr : Bytes) : Prop :=
  ∃ k : Nat, c.calls[k]? = some call ∧ c.log[k]? = some (call.body service, retStr)

/-- How a connection looks to the thread that holds it. -/
def Pc.Fits (c : Conn) : Pc → Prop
  | .entering _ _ => Settled service c
  | .sending _ call ph =>
      ph = .raised ∨ ∃ before served answer, Busy e service c call ph before served answer
  | .putting _ call retStr => Settled service c ∧ OwnReply service c call retStr
  | .stopping _ call retStr => Settled service c ∧ OwnReply service c call retStr
  | _ => True

/-- What is queued is settled, what is held fits, and what was returned is the
    call's own reply. -/
structure Wired (s : State) : Prop where
  blank    : ∀ t, s.next ≤ t → s.conns t = .fresh
  pooled   : ∀ t ∈ s.pool, Settled service (s.conns t)
  running  : ∀ i t, (s.threads i).transport = some t → (s.threads i).Fits e service (s.conns t)
  returned : ∀ r ∈ s.returns, OwnReply service (s.conns r.transport) r.call r.retStr

end Contents

section Connections

variable {e : Endian} {service : PyStr}

theorem settled_fresh : Settled service .fresh := ⟨rfl, rfl, rfl, rfl⟩

/-- A call begins on a settled connection. -/
theorem busy_begin {c : Conn} (h : Settled service c) (call : Call)
    (hfits : (call.body service).length < 2 ^ 32) :
    Busy e service (c.begin call) call (enter e (call.body service)) c.calls c.log none where
  calls := rfl
  earlier := h.answered
  log := (List.append_nil _).symm
  exchange := by
    show Exchange e (call.body service) _ c.unread c.pending none
    rw [h.taken, h.received]
    exact exchange_enter hfits
  proper := proper_enter e _
  fits := hfits
  opened := h.opened

variable {c : Conn} {call : Call} {ph : Phase} {before : List Call}
  {served : List (Bytes × Bytes)} {answer : Option Bytes}

theorem busy_send (h : Busy e service c call ph before served answer) {n : Nat} (hn : 0 < n)
    (hle : n ≤ ph.offered.length) :
    Busy e service (c.send (ph.offered.take n)) call
      (turn e (call.body service) ph (.sent n)) before served answer where
  calls := h.calls
  earlier := h.earlier
  log := h.log
  exchange := exchange_sent h.exchange hn hle
  proper := turn_proper e h.proper (by rintro new ⟨⟩)
  fits := h.fits
  opened := h.opened

theorem busy_recv (h : Busy e service c call ph before served answer) {new rest : Bytes}
    (hnew : new ≠ []) (hle : new.length ≤ ph.remain) (hpending : c.pending = new ++ rest) :
    turn e (call.body service) ph (.received new) = .raised
      ∨ Busy e service (c.recv rest) call (turn e (call.body service) ph (.received new))
          before served answer := by
  rcases exchange_received h.exchange h.proper hnew hle hpending with hraised | hex
  · exact Or.inl hraised
  · refine Or.inr ⟨h.calls, h.earlier, h.log, hex, ?_, h.fits, h.opened⟩
    refine turn_proper e h.proper ?_
    rintro new' ⟨⟩
    exact hle

/-- What the server takes of a busy connection is the request on its way. -/
theorem busy_serve (h : Busy e service c call ph before served answer) {p rest r : Bytes}
    (hsplit : splitFrame e c.unread = some (p, rest)) (hr : r.length < 2 ^ 32) :
    Busy e service (c.serve e p rest r) call ph before served (some r) := by
  obtain ⟨rfl, rfl, hex⟩ := exchange_serve h.exchange hsplit h.fits hr
  refine ⟨h.calls, h.earlier, ?_, hex, h.proper, h.fits, h.opened⟩
  show c.log ++ [(call.body service, r)] = _
  rw [h.log]
  simp

/-- A call that is through leaves a settled connection and has its own
    reply. -/
theorem busy_returned {resp : Bytes}
    (h : Busy e service c call (.returned resp) before served answer) :
    Settled service c ∧ OwnReply service c call resp := by
  obtain ⟨rfl, hunread, hpending⟩ := exchange_returned h.exchange h.proper
  have hlog : c.log = served ++ [(call.body service, resp)] := h.log
  have hlen : before.length = served.length := by
    have := congrArg List.length h.earlier
    rw [List.length_map, List.length_map] at this
    exact this.symm
  refine ⟨⟨?_, hunread, hpending, h.opened⟩, before.length, ?_, ?_⟩
  · rw [hlog, h.calls, List.map_append, List.map_append, h.earlier]
    rfl
  · rw [h.calls, List.getElem?_concat_length]
  · rw [hlog, hlen, List.getElem?_concat_length]

/-- Calls and replies are only added. -/
def Grows (c c' : Conn) : Prop := c.calls <+: c'.calls ∧ c.log <+: c'.log

theorem OwnReply.grows {c c' : Conn} {retStr : Bytes} (h : OwnReply service c call retStr)
    (hg : Grows c c') : OwnReply service c' call retStr := by
  obtain ⟨k, hcall, hlog⟩ := h
  obtain ⟨⟨a, ha⟩, b, hb⟩ := hg
  refine ⟨k, ?_, ?_⟩
  · rw [← ha, List.getElem?_append_left (List.getElem?_eq_some_iff.mp hcall).1]
    exact hcall
  · rw [← hb, List.getElem?_append_left (List.getElem?_eq_some_iff.mp hlog).1]
    exact hlog

theorem Grows.refl (c : Conn) : Grows c c := ⟨List.prefix_refl _, List.prefix_refl _⟩

/-- The server finds nothing to take on a settled connection. -/
theorem Settled.no_frame (h : Settled service c) {p rest : Bytes} :
    splitFrame e c.unread ≠ some (p, rest) := by
  rw [h.taken]
  intro hsplit
  cases hsplit

/-- What the server does fits the thread that holds the transport. -/
theorem fits_serve {pc : Pc} (h : pc.Fits e service c) {p rest r : Bytes}
    (hsplit : splitFrame e c.unread = some (p, rest)) (hr : r.length < 2 ^ 32) :
    pc.Fits e service (c.serve e p rest r) := by
  cases pc with
  | idle => trivial
  | getting f => trivial
  | connecting f => trivial
  | entering t f => exact absurd hsplit (Settled.no_frame h)
  | sending t call ph =>
      rcases h with hraised | ⟨before, served, answer, hbusy⟩
      · exact Or.inl hraised
      · exact Or.inr ⟨before, served, some r, busy_serve hbusy hsplit hr⟩
  | putting t call retStr => exact absurd hsplit h.1.no_frame
  | stopping t call retStr => exact absurd hsplit h.1.no_frame

/-! ## Runs -/

/-- What a thread that holds a transport knows of its connection. -/
theorem Wired.fits {s : State} (h : Wired e service s) {i t : Nat} {pc : Pc}
    (hpc : s.threads i = pc) (ht : pc.transport = some t) : pc.Fits e service (s.conns t) := by
  subst hpc
  exact h.running i t ht

/-- One thread goes on, and the connections stay as they are. -/
theorem Wired.goto {s s' : State} (h : Wired e service s) {i : Nat} {pc : Pc}
    (hthreads : s'.threads = Function.update s.threads i pc) (hconns : s'.conns = s.conns)
    (hnext : s.next ≤ s'.next) (hpool : ∀ u ∈ s'.pool, Settled service (s.conns u))
    (hmine : ∀ u, pc.transport = some u → pc.Fits e service (s.conns u))
    (hreturns : ∀ r ∈ s'.returns, r ∈ s.returns
      ∨ OwnReply service (s.conns r.transport) r.call r.retStr) : Wired e service s' := by
  refine ⟨fun u hu => ?_, fun u hu => ?_, fun j u hj => ?_, fun r hr => ?_⟩
  · rw [hconns]
    exact h.blank u (Nat.le_trans hnext hu)
  · rw [hconns]
    exact hpool u hu
  · rw [hconns]
    by_cases hji : j = i
    · rw [hthreads, hji, Function.update_self] at hj ⊢
      exact hmine u hj
    · rw [hthreads, Function.update_of_ne hji] at hj ⊢
      exact h.running j u hj
  · rw [hconns]
    rcases hreturns r hr with hr | hr
    · exact h.returned r hr
    · exact hr

/-- The thread that holds a transport goes on and changes its connection. -/
theorem Wired.change {s s' : State} (h : Wired e service s) (ho : Owned s) {i t : Nat} {pc : Pc}
    {c : Conn} (hheld : (s.threads i).transport = some t)
    (hthreads : s'.threads = Function.update s.threads i pc)
    (hconns : s'.conns = Function.update s.conns t c) (hgrows : Grows (s.conns t) c)
    (hnext : s'.next = s.next) (hpool : s'.pool = s.pool)
    (hmine : ∀ u, pc.transport = some u → u = t ∧ pc.Fits e service c)
    (hreturns : ∀ r ∈ s'.returns, r ∈ s.returns
      ∨ r.transport = t ∧ OwnReply service c r.call r.retStr) : Wired e service s' := by
  have hself : s'.conns t = c := by
    rw [hconns, Function.update_self]
  have hother : ∀ u, u ≠ t → s'.conns u = s.conns u := by
    intro u hu
    rw [hconns, Function.update_of_ne hu]
  refine ⟨fun u hu => ?_, fun u hu => ?_, fun j u hj => ?_, fun r hr => ?_⟩
  · have hlt := ho.held i t hheld
    rw [hnext] at hu
    rw [hother u (fun heq => Nat.not_lt.mpr hu (heq ▸ hlt))]
    exact h.blank u hu
  · rw [hpool] at hu
    rw [hother u (fun heq => ho.apart i t hheld (heq ▸ hu))]
    exact h.pooled u hu
  · by_cases hji : j = i
    · rw [hthreads, hji, Function.update_self] at hj ⊢
      obtain ⟨rfl, hfits⟩ := hmine u hj
      rw [hself]
      exact hfits
    · rw [hthreads, Function.update_of_ne hji] at hj ⊢
      rw [hother u (fun heq => hji (ho.alone j i t (heq ▸ hj) hheld))]
      exact h.running j u hj
  · rcases hreturns r hr with hr | ⟨hrt, hr⟩
    · by_cases heq : r.transport = t
      · rw [heq, hself]
        have hown := h.returned r hr
        rw [heq] at hown
        exact hown.grows hgrows
      · rw [hother _ heq]
        exact h.returned r hr
    · rw [hrt, hself]
      exact hr

/-- A new transport has the connection that was already there. -/
theorem Wired.connect_conns {s : State} (h : Wired e service s) : s.connect.conns = s.conns := by
  show Function.update s.conns s.next .fresh = s.conns
  rw [← h.blank s.next (Nat.le_refl _), Function.update_eq_self]

/-- What the server does on one connection. -/
theorem wired_serve {s : State} (h : Wired e service s) {t : Nat} {p rest r : Bytes}
    (hsplit : splitFrame e (s.conns t).unread = some (p, rest)) (hr : r.length < 2 ^ 32) :
    Wired e service (s.set t ((s.conns t).serve e p rest r)) := by
  have hself : (s.set t ((s.conns t).serve e p rest r)).conns t = (s.conns t).serve e p rest r :=
    Function.update_self t _ s.conns
  have hother : ∀ u, u ≠ t →
      (s.set t ((s.conns t).serve e p rest r)).conns u = s.conns u :=
    fun u hu => Function.update_of_ne hu _ s.conns
  have hgrows : Grows (s.conns t) ((s.conns t).serve e p rest r) :=
    ⟨List.prefix_refl _, List.prefix_append _ _⟩
  refine ⟨fun u hu => ?_, fun u hu => ?_, fun j u hj => ?_, fun q hq => ?_⟩
  · by_cases heq : u = t
    · -- nothing was ever sent on a connection that is not there
      have hfresh := h.blank t (heq ▸ hu)
      rw [hfresh] at hsplit
      cases hsplit
    · rw [hother u heq]
      exact h.blank u hu
  · by_cases heq : u = t
    · exact absurd hsplit (h.pooled t (heq ▸ hu)).no_frame
    · rw [hother u heq]
      exact h.pooled u hu
  · by_cases heq : u = t
    · rw [heq, hself]
      have hfits := h.running j u hj
      rw [heq] at hfits
      exact fits_serve hfits hsplit hr
    · rw [hother u heq]
      exact h.running j u hj
  · have hown := h.returned q hq
    by_cases heq : q.transport = t
    · rw [heq, hself]
      rw [heq] at hown
      exact hown.grows hgrows
    · rw [hother _ heq]
      exact hown

theorem wired_step {poolSize : Int} {s s' : State} (ho : Owned s) (h : Wired e service s)
    (hs : Step e service poolSize s s') : Wired e service s' := by
  have hold : ∀ r ∈ s.returns, r ∈ s.returns
      ∨ OwnReply service (s.conns r.transport) r.call r.retStr := fun _ hr => Or.inl hr
  cases hs with
  | call fcallStr hpc => exact h.goto rfl rfl (Nat.le_refl _) h.pooled (by rintro u ⟨⟩) hold
  | @get i t fcallStr rest hpc hpool =>
      have hpooled := h.pooled
      rw [hpool] at hpooled
      refine h.goto rfl rfl (Nat.le_refl _) (fun u hu => hpooled u (List.mem_cons_of_mem t hu)) ?_
        hold
      intro u hu
      obtain rfl : t = u := Option.some.inj hu
      exact hpooled t List.mem_cons_self
  | empty hpc hpool => exact h.goto rfl rfl (Nat.le_refl _) h.pooled (by rintro u ⟨⟩) hold
  | @connect i fcallStr hpc =>
      refine h.goto rfl h.connect_conns (Nat.le_succ _) h.pooled ?_ hold
      intro u hu
      obtain rfl : s.next = u := Option.some.inj hu
      show Settled service (s.conns s.next)
      rw [h.blank s.next (Nat.le_refl _)]
      exact settled_fresh
  | connectFails hpc => exact h.goto rfl rfl (Nat.le_refl _) h.pooled (by rintro u ⟨⟩) hold
  | @enter i t fcallStr hpc =>
      have hheld : (s.threads i).transport = some t := by rw [hpc]; rfl
      have hset : Settled service (s.conns t) := h.fits hpc rfl
      refine h.change ho hheld rfl rfl ⟨List.prefix_append _ _, List.prefix_refl _⟩ rfl rfl ?_
        (fun _ hr => Or.inl hr)
      intro u hu
      refine ⟨(Option.some.inj hu).symm, ?_⟩
      by_cases hfits : (bodyUtf8 service fcallStr).length < 2 ^ 32
      · exact Or.inr ⟨_, _, _, busy_begin hset ⟨s.nextCall, fcallStr⟩ hfits⟩
      · exact Or.inl (if_neg hfits)
  | @send i t n call ph hpc hn hle =>
      have hheld : (s.threads i).transport = some t := by rw [hpc]; rfl
      have hfits := h.fits hpc rfl
      refine h.change ho hheld rfl rfl (Grows.refl _) rfl rfl ?_ (fun _ hr => Or.inl hr)
      intro u hu
      refine ⟨(Option.some.inj hu).symm, ?_⟩
      rcases hfits with hraised | ⟨before, served, answer, hbusy⟩
      · rw [hraised] at hle
        exact absurd hle (Nat.not_le.mpr hn)
      · exact Or.inr ⟨before, served, answer, busy_send hbusy hn hle⟩
  | @recv i t call ph new rest hpc hnew hle hpending =>
      have hheld : (s.threads i).transport = some t := by rw [hpc]; rfl
      have hfits := h.fits hpc rfl
      refine h.change ho hheld rfl rfl (Grows.refl _) rfl rfl ?_ (fun _ hr => Or.inl hr)
      intro u hu
      refine ⟨(Option.some.inj hu).symm, ?_⟩
      rcases hfits with hraised | ⟨before, served, answer, hbusy⟩
      · left
        rw [hraised]
        rfl
      · rcases busy_recv hbusy hnew hle hpending with hraised | hbusy'
        · exact Or.inl hraised
        · exact Or.inr ⟨before, served, answer, hbusy'⟩
  | @ioFails i t call ph io hpc hio =>
      have hfits := h.fits hpc rfl
      refine h.goto rfl rfl (Nat.le_refl _) h.pooled ?_ hold
      intro u hu
      obtain rfl : t = u := Option.some.inj hu
      rcases turn_fails e (call.body service) ph hio with hraised | hsame
      · exact Or.inl hraised
      · show turn e (call.body service) ph io = .raised ∨ _
        rw [hsame]
        exact hfits
  | raise hpc => exact h.goto rfl rfl (Nat.le_refl _) h.pooled (by rintro u ⟨⟩) hold
  | @sent i t call resp hpc =>
      have hfits := h.fits hpc rfl
      refine h.goto rfl rfl (Nat.le_refl _) h.pooled ?_ hold
      intro u hu
      obtain rfl : t = u := Option.some.inj hu
      rcases hfits with hraised | ⟨before, served, answer, hbusy⟩
      · cases hraised
      · exact busy_returned hbusy
  | @put i t call retStr hpc hfull =>
      have hfits := h.fits hpc rfl
      refine h.goto rfl rfl (Nat.le_refl _) ?_ (by rintro u ⟨⟩) ?_
      · intro u hu
        rcases List.mem_append.mp hu with hu | hu
        · exact h.pooled u hu
        · rw [List.mem_singleton.mp hu]
          exact hfits.1
      · intro r hr
        rcases List.mem_append.mp hr with hr | hr
        · exact Or.inl hr
        · rw [List.mem_singleton.mp hr]
          exact Or.inr hfits.2
  | @full i t call retStr hpc hfull =>
      have hfits := h.fits hpc rfl
      refine h.goto rfl rfl (Nat.le_refl _) h.pooled ?_ hold
      intro u hu
      obtain rfl : t = u := Option.some.inj hu
      exact hfits
  | @stop i t call retStr hpc =>
      have hheld : (s.threads i).transport = some t := by rw [hpc]; rfl
      have hfits := h.fits hpc rfl
      refine h.change ho hheld rfl rfl (Grows.refl _) rfl rfl (by rintro u ⟨⟩) ?_
      intro r hr
      rcases List.mem_append.mp hr with hr | hr
      · exact Or.inl hr
      · rw [List.mem_singleton.mp hr]
        exact Or.inr ⟨rfl, hfits.2⟩
  | serve hsplit hr => exact wired_serve h hsplit hr

end Connections

/-! ## Numbers of calls -/

/-- No call number is used twice, on one connection or on two. -/
structure Numbered (s : State) : Prop where
  below  : ∀ (t k : Nat) (c : Call), (s.conns t).calls[k]? = some c → c.id < s.nextCall
  unique : ∀ (t u k l : Nat) (c d : Call), (s.conns t).calls[k]? = some c →
    (s.conns u).calls[l]? = some d → c.id = d.id → t = u ∧ k = l

/-- A state with the same calls. -/
theorem Numbered.same {s s' : State} (h : Numbered s) (hnext : s'.nextCall = s.nextCall)
    (hcalls : ∀ t, (s'.conns t).calls = (s.conns t).calls) : Numbered s' := by
  refine ⟨fun t k c hc => ?_, fun t u k l c d hc hd hid => ?_⟩
  · rw [hnext]
    rw [hcalls] at hc
    exact h.below t k c hc
  · rw [hcalls] at hc hd
    exact h.unique t u k l c d hc hd hid

/-- A connection changed in anything but its calls. -/
theorem Numbered.set {s : State} (h : Numbered s) {t : Nat} {c : Conn}
    (hcalls : c.calls = (s.conns t).calls) : Numbered (s.set t c) := by
  refine h.same rfl (fun u => ?_)
  show (Function.update s.conns t c u).calls = _
  by_cases heq : u = t
  · rw [heq, Function.update_self, hcalls]
  · rw [Function.update_of_ne heq]

/-- The calls after one more began, seen at one place. -/
theorem begin_calls {s : State} {t u k : Nat} {fcallStr : PyStr} {c : Call}
    (h : ((s.begin t fcallStr).conns u).calls[k]? = some c) :
    (s.conns u).calls[k]? = some c
      ∨ u = t ∧ k = (s.conns t).calls.length ∧ c = ⟨s.nextCall, fcallStr⟩ := by
  have h' : (Function.update s.conns t ((s.conns t).begin ⟨s.nextCall, fcallStr⟩) u).calls[k]?
      = some c := h
  by_cases heq : u = t
  · rw [heq, Function.update_self] at h'
    have hk : ((s.conns t).calls ++ [⟨s.nextCall, fcallStr⟩])[k]? = some c := h'
    rw [List.getElem?_append] at hk
    split_ifs at hk with hlt
    · rw [heq]
      exact Or.inl hk
    · obtain ⟨hzero, hc⟩ := List.getElem?_eq_some_iff.mp hk
      rw [List.length_singleton] at hzero
      refine Or.inr ⟨heq, by omega, ?_⟩
      rw [← hc, List.getElem_singleton]
  · rw [Function.update_of_ne heq] at h'
    exact Or.inl h'

theorem numbered_begin {s : State} (h : Numbered s) (t : Nat) (fcallStr : PyStr) :
    Numbered (s.begin t fcallStr) := by
  refine ⟨fun u k c hc => ?_, fun u v k l c d hc hd hid => ?_⟩
  · show c.id < s.nextCall + 1
    rcases begin_calls hc with hc | ⟨-, -, rfl⟩
    · exact Nat.lt_succ_of_lt (h.below u k c hc)
    · exact Nat.lt_succ_self _
  · rcases begin_calls hc with hold | ⟨hu, hk, hnew⟩
    · rcases begin_calls hd with hold' | ⟨-, -, hnew'⟩
      · exact h.unique u v k l c d hold hold' hid
      · rw [hnew'] at hid
        exact absurd hid (Nat.ne_of_lt (h.below u k c hold))
    · rcases begin_calls hd with hold' | ⟨hv, hl, -⟩
      · rw [hnew] at hid
        exact absurd hid.symm (Nat.ne_of_lt (h.below v l d hold'))
      · exact ⟨hu.trans hv.symm, hk.trans hl.symm⟩

section Law

variable {e : Endian} {service : PyStr} {poolSize : Int}

theorem numbered_step {s s' : State} (hw : Wired e service s) (h : Numbered s)
    (hs : Step e service poolSize s s') : Numbered s' := by
  cases hs with
  | @connect i fcallStr hpc =>
      exact h.same rfl (fun t => congrArg (fun conns => (conns t).calls) hw.connect_conns)
  | enter hpc => exact (numbered_begin h _ _).same rfl (fun _ => rfl)
  | @send i t n call ph hpc hn hle =>
      have hset : Numbered (s.set t ((s.conns t).send (ph.offered.take n))) := h.set rfl
      exact hset.same rfl (fun _ => rfl)
  | @recv i t call ph new rest hpc hnew hle hpending =>
      have hset : Numbered (s.set t ((s.conns t).recv rest)) := h.set rfl
      exact hset.same rfl (fun _ => rfl)
  | @stop i t call retStr hpc =>
      have hset : Numbered (s.set t (s.conns t).stop) := h.set rfl
      exact hset.same rfl (fun _ => rfl)
  | serve hsplit hr => exact h.set rfl
  | _ => exact h.same rfl (fun _ => rfl)

/-! ## Every reachable state -/

theorem owned_start : Owned .start := by
  refine ⟨?_, ?_, List.nodup_nil, ?_, ?_⟩
  · rintro t ⟨⟩
  · rintro i t ⟨⟩
  · rintro i t ⟨⟩
  · rintro i j t ⟨⟩

theorem wired_start : Wired e service .start := by
  refine ⟨fun t _ => rfl, ?_, ?_, ?_⟩
  · rintro t ⟨⟩
  · rintro i t ⟨⟩
  · rintro r ⟨⟩

theorem numbered_start : Numbered .start := by
  refine ⟨?_, ?_⟩
  · rintro t k c ⟨⟩
  · rintro t u k l c d ⟨⟩

/-- The invariants hold in every reachable state. -/
theorem reachable_invariants {s : State} (h : Reachable e service poolSize s) :
    Owned s ∧ Wired e service s ∧ Numbered s := by
  induction h with
  | start => exact ⟨owned_start, wired_start, numbered_start⟩
  | step _ hs ih =>
      obtain ⟨ho, hw, hn⟩ := ih
      exact ⟨owned_step ho hs, wired_step ho hw hs, numbered_step hw hn hs⟩

/-- The queue never has more than its size. -/
theorem reachable_size (hpos : 0 < poolSize) {s : State} (h : Reachable e service poolSize s) :
    (s.pool.length : Int) ≤ poolSize := by
  induction h with
  | start => exact Int.le_of_lt hpos
  | step _ hs ih => exact size_step hpos ih hs

end Law

/-! ## Calls that return -/

/-- A reachable state in which thread `i` sends on transport `t`, and the queue
    and the returned calls are those of `s₀`. -/
structure Sending (e : Endian) (service : PyStr) (poolSize : Int) (s₀ : State) (i t : Nat)
    (call : Call) (ph : Phase) (c : Conn) (s : State) : Prop where
  run     : Reachable e service poolSize s
  pc      : s.threads i = .sending t call ph
  conn    : s.conns t = c
  pool    : s.pool = s₀.pool
  returns : s.returns = s₀.returns

section Returns

variable {e : Endian} {service : PyStr} {poolSize : Int} {s₀ : State} {i t : Nat} {call : Call}
  {ph : Phase} {c : Conn}

/-- All that is offered can be sent at once. -/
theorem sending_send (h : ∃ s, Sending e service poolSize s₀ i t call ph c s)
    (hoffered : ph.offered ≠ []) :
    ∃ s, Sending e service poolSize s₀ i t call
      (turn e (call.body service) ph (.sent ph.offered.length)) (c.send ph.offered) s := by
  obtain ⟨s, hrun, hpc, hconn, hpool, hreturns⟩ := h
  have hs := Reachable.step hrun
    (.send hpc (List.length_pos_iff.mpr hoffered) (Nat.le_refl _))
  refine ⟨_, hs, Function.update_self i _ s.threads, ?_, hpool, hreturns⟩
  rw [List.take_length, ← hconn]
  exact Function.update_self t _ s.conns

/-- The server can answer a frame. -/
theorem sending_serve (h : ∃ s, Sending e service poolSize s₀ i t call ph c s)
    {p rest r : Bytes} (hsplit : splitFrame e c.unread = some (p, rest))
    (hr : r.length < 2 ^ 32) :
    ∃ s, Sending e service poolSize s₀ i t call ph (c.serve e p rest r) s := by
  obtain ⟨s, hrun, hpc, rfl, hpool, hreturns⟩ := h
  have hs := Reachable.step hrun (.serve hsplit hr)
  exact ⟨_, hs, hpc, Function.update_self t _ s.conns, hpool, hreturns⟩

/-- What is there can be received. -/
theorem sending_recv (h : ∃ s, Sending e service poolSize s₀ i t call ph c s)
    {new rest : Bytes} (hnew : new ≠ []) (hle : new.length ≤ ph.remain)
    (hpending : c.pending = new ++ rest) :
    ∃ s, Sending e service poolSize s₀ i t call
      (turn e (call.body service) ph (.received new)) (c.recv rest) s := by
  obtain ⟨s, hrun, hpc, rfl, hpool, hreturns⟩ := h
  have hs := Reachable.step hrun (.recv hpc hnew hle hpending)
  exact ⟨_, hs, Function.update_self i _ s.threads, Function.update_self t _ s.conns, hpool,
    hreturns⟩

/-- A call that has its reply can return it, when the queue has room. -/
theorem sending_returned {r : Bytes}
    (h : ∃ s, Sending e service poolSize s₀ i t call (.returned r) c s)
    (hroom : ¬ Full poolSize s₀.pool) :
    ∃ s, Reachable e service poolSize s ∧ s.pool = s₀.pool ++ [t]
      ∧ s.returns = s₀.returns ++ [⟨call, t, r⟩] := by
  obtain ⟨s, hrun, hpc, -, hpool, hreturns⟩ := h
  have hsent := Reachable.step hrun (.sent hpc)
  have hputting : (s.goto i (.putting t call r)).threads i = .putting t call r :=
    Function.update_self i _ s.threads
  rw [← hpool] at hroom
  have hput := Reachable.step hsent (.put hputting hroom)
  refine ⟨_, hput, ?_, ?_⟩
  · show s.pool ++ [t] = s₀.pool ++ [t]
    rw [hpool]
  · show s.returns ++ [⟨call, t, r⟩] = s₀.returns ++ [⟨call, t, r⟩]
    rw [hreturns]

/-- A call that has a transport begins to send. -/
theorem sending_enter {s : State} {fcallStr : PyStr} (h : Reachable e service poolSize s)
    (hpc : s.threads i = .entering t fcallStr)
    (hbody : (bodyUtf8 service fcallStr).length < 2 ^ 32) :
    ∃ s', Sending e service poolSize s i t ⟨s.nextCall, fcallStr⟩
      (.sendHeader (u32Bytes e (bodyUtf8 service fcallStr).length))
      ((s.conns t).begin ⟨s.nextCall, fcallStr⟩) s' := by
  have hphase : PyTransport.enter e (bodyUtf8 service fcallStr)
      = .sendHeader (u32Bytes e (bodyUtf8 service fcallStr).length) := by
    rw [PyTransport.enter, if_pos hbody, loopSendHeader, if_neg (u32Bytes_ne_nil e _)]
  have henter := Reachable.step h (.enter hpc)
  rw [hphase] at henter
  exact ⟨_, henter, Function.update_self i _ _, Function.update_self t _ s.conns, rfl, rfl⟩

/-- A request goes out whole. -/
theorem sending_request (hbody : call.body service ≠ [])
    (h : ∃ s, Sending e service poolSize s₀ i t call
      (.sendHeader (u32Bytes e (call.body service).length)) c s) :
    ∃ s, Sending e service poolSize s₀ i t call (.recvHeader [])
      ((c.send (u32Bytes e (call.body service).length)).send (call.body service)) s := by
  have h₁ := sending_send h (u32Bytes_ne_nil e _)
  rw [Phase.offered, turn_whole_header hbody] at h₁
  have h₂ := sending_send h₁ hbody
  rw [Phase.offered, turn_whole_body hbody] at h₂
  exact h₂

/-- A reply comes in whole. -/
theorem sending_reply {r : Bytes} (hr : r.length < 2 ^ 32) (hvalid : utf8Valid r = true)
    (hpending : c.pending = encodeFrame e r)
    (h : ∃ s, Sending e service poolSize s₀ i t call (.recvHeader []) c s) :
    ∃ c' s, Sending e service poolSize s₀ i t call (.returned r) c' s := by
  have hword : (u32Bytes e r.length).length ≤ 4 := Nat.le_of_eq (u32Bytes_length e _)
  have h₁ := sending_recv h (u32Bytes_ne_nil e _) hword hpending
  rw [turn_reply_header hr] at h₁
  by_cases hnil : r = []
  · subst hnil
    exact ⟨_, h₁⟩
  · have hmore : ([] : Bytes).length < r.length := List.length_pos_iff.mpr hnil
    rw [loopRecvBody, if_pos hmore] at h₁
    have h₂ := sending_recv h₁ hnil (Nat.le_refl _) (List.append_nil r).symm
    rw [turn_reply_body hnil hvalid] at h₂
    exact ⟨_, h₂⟩

/-- **CALLS CAN RETURN**: a call that has a transport and whose request fits a
    frame returns any reply the server may give, when nothing fails. -/
theorem call_can_return {s : State} {fcallStr : PyStr} {r : Bytes}
    (h : Reachable e service poolSize s) (hpc : s.threads i = .entering t fcallStr)
    (hbody : (bodyUtf8 service fcallStr).length < 2 ^ 32) (hr : r.length < 2 ^ 32)
    (hvalid : utf8Valid r = true) (hroom : ¬ Full poolSize s.pool) :
    ∃ s', Reachable e service poolSize s' ∧ s'.pool = s.pool ++ [t]
      ∧ s'.returns = s.returns ++ [⟨⟨s.nextCall, fcallStr⟩, t, r⟩] := by
  have hset : Settled service (s.conns t) := (reachable_invariants h).2.1.fits hpc rfl
  have hne : Call.body service ⟨s.nextCall, fcallStr⟩ ≠ [] := bodyUtf8_ne_nil service fcallStr
  have hsent := sending_request hne (sending_enter h hpc hbody)
  -- nothing was on the connection, so the server finds this frame
  have hsplit : splitFrame e (((s.conns t).begin ⟨s.nextCall, fcallStr⟩ |>.send (u32Bytes e
      (bodyUtf8 service fcallStr).length)).send (bodyUtf8 service fcallStr)).unread
        = some (bodyUtf8 service fcallStr, []) := by
    rw [splitFrame_eq_some]
    refine ⟨?_, List.length_pos_iff.mpr hne, hbody⟩
    show ((s.conns t).unread ++ _) ++ _ = _
    rw [hset.taken, List.append_nil]
    rfl
  have hserved := sending_serve hsent hsplit hr
  have hpending : (s.conns t).pending ++ encodeFrame e r = encodeFrame e r := by
    rw [hset.received, List.nil_append]
  obtain ⟨c', hreply⟩ := sending_reply hr hvalid hpending hserved
  exact sending_returned hreply hroom

/-- A call whose thread finds the queue empty connects. -/
theorem call_connects {s : State} (h : Reachable e service poolSize s)
    (hpc : s.threads i = .idle) (hpool : s.pool = []) (fcallStr : PyStr) :
    ∃ s', Reachable e service poolSize s' ∧ s'.threads i = .entering s.next fcallStr
      ∧ s'.pool = [] ∧ s'.returns = s.returns ∧ s'.nextCall = s.nextCall := by
  have hcall := Reachable.step h (.call fcallStr hpc)
  have hempty := Reachable.step hcall (.empty (Function.update_self i _ _) hpool)
  have hconnect := Reachable.step hempty (.connect (Function.update_self i _ _))
  exact ⟨_, hconnect, Function.update_self i _ _, hpool, rfl, rfl⟩

/-! ## The law -/

/-- **NO MIXED REPLIES**: whatever the threads did and whatever failed, a
    transport is queued once or held by one call, never both; the queue keeps
    its size; what is queued is settled; and every call that returned got the
    reply to its own request, the only one of that number. -/
theorem pool_never_mixes (hsize : 1 ≤ poolSize) {s : State}
    (h : Reachable e service poolSize s) :
    s.pool.Nodup
      ∧ (∀ t ∈ s.pool, ∀ i, (s.threads i).transport ≠ some t)
      ∧ (∀ i j t, (s.threads i).transport = some t → (s.threads j).transport = some t → i = j)
      ∧ (s.pool.length : Int) ≤ poolSize
      ∧ (∀ t ∈ s.pool, Settled service (s.conns t))
      ∧ (∀ r ∈ s.returns, OwnReply service (s.conns r.transport) r.call r.retStr)
      ∧ (∀ (t u k l : Nat) (c d : Call), (s.conns t).calls[k]? = some c →
          (s.conns u).calls[l]? = some d → c.id = d.id → t = u ∧ k = l) := by
  obtain ⟨ho, hw, hn⟩ := reachable_invariants h
  refine ⟨ho.nodup, fun t ht i hi => ho.apart i t hi ht, ho.alone, ?_, hw.pooled, hw.returned,
    hn.unique⟩
  exact reachable_size (Int.lt_of_lt_of_le Int.zero_lt_one hsize) h

/-- One call of the text `f` on the service `s`, answered `[]`, leaves one queued
    transport, and its own reply with it. -/
theorem pool_never_mixes_sample :
    ∃ s, Reachable .little ['s'] 1 s ∧ s.pool = [0]
      ∧ s.returns = [⟨⟨0, ['f']⟩, 0, [0x5b, 0x5d]⟩]
      ∧ Settled ['s'] (s.conns 0) ∧ OwnReply ['s'] (s.conns 0) ⟨0, ['f']⟩ [0x5b, 0x5d] := by
  obtain ⟨s, hrun, hpc, hpool, hreturns, hnext⟩ :=
    call_connects (Reachable.start : Reachable .little ['s'] 1 .start) (i := 0) rfl rfl ['f']
  obtain ⟨s', hrun', hpool', hreturns'⟩ := call_can_return (r := [0x5b, 0x5d]) hrun hpc
    (by decide +kernel) (by decide) (by decide +kernel) (by rw [Full, hpool]; decide)
  rw [hpool] at hpool'
  rw [hreturns, hnext] at hreturns'
  obtain ⟨-, -, -, -, hpooled, hown, -⟩ := pool_never_mixes (Int.le_refl 1) hrun'
  refine ⟨s', hrun', hpool', hreturns', hpooled 0 ?_, hown ⟨⟨0, ['f']⟩, 0, [0x5b, 0x5d]⟩ ?_⟩
  · rw [hpool']
    exact List.mem_singleton_self 0
  · rw [hreturns']
    exact List.mem_singleton_self _

end Returns

end PyPool
