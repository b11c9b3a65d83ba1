import Searpc.ThreadServerProofs

/-! # The epoll server — `epoll_listen` and `epoll_handler`

    The listener takes connections out of the epoll set and hands them to
    workers; a worker serves one request and puts its connection back.  All of
    them share a raw pointer to the connection's `ServerHandlerData`, and the
    moment a worker has put the connection back, the listener may close it and
    free the data while the worker is still on its way out.

    The machine interleaves any number of clients, one listener and any number
    of workers.  A step is one system call of a worker, the handling of one
    event by the listener, or one move of a client.  What a thread does to a
    connection's descriptor and data is a list of operations (`Op`) in the
    order of the source; an operation on something closed or freed raises the
    connection's `fault`. -/

namespace SearpcEpoll

open ByteMemory Framing JsonValue SearpcJansson SearpcPipeIo SearpcRequest
open SearpcThreadServer (Server)

variable {σ : Type}

/-! ## Connections -/

/-- A connection: what its client has sent and the server has read, what has
    arrived, what the client has still to send, whether the client has closed
    or half-closed; what the server has written; whether it is in the epoll
    set; how often its descriptor was closed and its data freed; and the calls
    made for it, each with the number of bytes read by then. -/
structure Conn where
  consumed   : Bytes
  inbox      : Bytes
  pending    : Bytes
  shut       : Bool
  out        : Bytes
  registered : Bool
  closes     : Nat
  frees      : Nat
  fault      : Bool
  calls      : List (Nat × Call)

/-- The stream the client sends before EOF. -/
def Conn.stream (k : Conn) : Bytes := k.consumed ++ k.inbox ++ k.pending

/-- A connection just accepted, whose client will send `stream`. -/
def Conn.accepted (stream : Bytes) : Conn :=
  ⟨[], [], stream, false, [], false, 0, 0, false, []⟩

/-- What a thread does to a connection: look into its data, free the data, add
    or remove it in the epoll set, read or write it, close it. -/
inductive Op where
  | deref
  | free
  | ctlAdd
  | ctlDel
  | io
  | close
deriving DecidableEq, Repr

/-- The effect of an operation, and whether it was legal. -/
def Op.apply : Op → Conn → Conn
  | .deref, k => { k with fault := k.fault || decide (0 < k.frees) }
  | .free, k => { k with frees := k.frees + 1, fault := k.fault || decide (0 < k.frees) }
  | .ctlAdd, k =>
      { k with registered := true, fault := k.fault || k.registered || decide (0 < k.closes) }
  | .ctlDel, k => { k with registered := false, fault := k.fault || decide (0 < k.closes) }
  | .io, k => { k with fault := k.fault || decide (0 < k.closes) }
  | .close, k =>
      { k with
        registered := false
        closes := k.closes + 1
        fault := k.fault || decide (0 < k.closes) }

/-- Operations in order. -/
def Conn.run (ops : List Op) (k : Conn) : Conn := ops.foldl (fun k op => op.apply k) k

/-! ## Workers -/

/-- The two reads of `epoll_handler`. -/
inductive ReadStage where
  | len
  | body (len : Nat)

/-- The two writes; the reply waits while its length goes out. -/
inductive WriteStage where
  | len (retStr : Bytes)
  | body

/-- Where a worker stands in `epoll_handler`: on entry, in a read or write, at
    the `epoll_ctl` that puts the connection back, at `out:` with `ret < 0`, or
    at `out:` with `ret = 0`. -/
inductive WPc where
  | enter
  | reading (stage : ReadStage) (l : ReadLoop)
  | writing (stage : WriteStage) (left : Bytes)
  | add
  | fail
  | tail

/-- A worker and the connection it was started for. -/
structure Worker where
  conn : Nat
  pc   : WPc

/-- A worker on its way out has given its connection back. -/
def Worker.holds (w : Worker) : Bool :=
  match w.pc with
  | .tail => false
  | _ => true

/-- After one of the two `pipe_read_n`; the second result is stored in an
    `int`. -/
def resumeRead (S : Server σ) (ret : Int) (mem : Mem) (k : Conn) (w : σ) :
    ReadStage → WPc × Conn × σ
  | .len =>
      if ret < 0 then (.fail, k, w)
      -- EOF before the first byte ends up here: `len` was cleared before the read
      else if memWord S.endian mem = 0 then (.fail, k, w)
      else
        (.reading (.body (memWord S.endian mem)) (.enter (fill 0) (memWord S.endian mem)), k, w)
  | .body len =>
      -- the count is not compared with `len`: a body cut by EOF goes on
      if ret.bmod (2 ^ 32) < 0 then (.fail, k, w)
      else
        match requestFromJson S.json (slice mem len) with
        | none => (.fail, k, w)
        | some (service, body) =>
            let r := S.call w service body
            (.writing (.len r.2) (u32Bytes S.endian (r.2.length % 2 ^ 32)),
              { k with calls := k.calls ++ [(k.consumed.length, (service, body))] }, r.1)

/-- After one of the two `pipe_write_n` succeeded. -/
def resumeWrite : WriteStage → WPc
  | .len retStr => .writing .body retStr
  | .body => .add

/-- Whether a step met with a failing system call. -/
inductive Luck where
  | fine
  | failure
deriving DecidableEq

/-- One step of a worker on its connection; the worker is gone when no `WPc` is
    left. -/
inductive WorkerStep (S : Server σ) : Luck → WPc × Conn × σ → Option WPc × Conn × σ → Prop where
  | enter {k : Conn} {w : σ} :
      WorkerStep S .fine (.enter, k, w)
        (some (.reading .len (.enter (wordMem S.endian 0) 4)), k.run [.deref, .deref], w)
  | read {stage : ReadStage} {l l' : ReadLoop} {k : Conn} {w : σ} {j : Nat} (hj : 0 < j)
      (hl : j ≤ l.nleft) (hi : j ≤ k.inbox.length)
      (ht : readTurn l (.data (k.inbox.take j)) = .more l') :
      WorkerStep S .fine (.reading stage l, k, w)
        (some (.reading stage l'),
          { k.run [.io] with
            consumed := k.consumed ++ k.inbox.take j
            inbox := k.inbox.drop j }, w)
  | readEintr {stage : ReadStage} {l l' : ReadLoop} {k : Conn} {w : σ} (hl : 0 < l.nleft)
      (ht : readTurn l .eintr = .more l') :
      WorkerStep S .fine (.reading stage l, k, w) (some (.reading stage l'), k.run [.io], w)
  | readEof {stage : ReadStage} {l : ReadLoop} {k : Conn} {w : σ} {ret : Int} {mem : Mem}
      (hl : 0 < l.nleft) (hi : k.inbox = []) (hs : k.shut = true)
      (ht : readTurn l (.data []) = .ret ret mem) :
      WorkerStep S .fine (.reading stage l, k, w)
        (some (resumeRead S ret mem (k.run [.io]) w stage).1,
          (resumeRead S ret mem (k.run [.io]) w stage).2.1,
          (resumeRead S ret mem (k.run [.io]) w stage).2.2)
  | readError {stage : ReadStage} {l : ReadLoop} {k : Conn} {w : σ} {ret : Int} {mem : Mem}
      (hl : 0 < l.nleft) (ht : readTurn l .error = .ret ret mem) :
      WorkerStep S .failure (.reading stage l, k, w)
        (some (resumeRead S ret mem (k.run [.io]) w stage).1,
          (resumeRead S ret mem (k.run [.io]) w stage).2.1,
          (resumeRead S ret mem (k.run [.io]) w stage).2.2)
  | readDone {stage : ReadStage} {l : ReadLoop} {k : Conn} {w : σ} (hl : l.nleft = 0) :
      WorkerStep S .fine (.reading stage l, k, w)
        (some (resumeRead S l.ptr l.mem k w stage).1, (resumeRead S l.ptr l.mem k w stage).2.1,
          (resumeRead S l.ptr l.mem k w stage).2.2)
  | write {stage : WriteStage} {left left' : Bytes} {k : Conn} {w : σ} {j : Nat} (hj : 0 < j)
      (hl : j ≤ left.length) (ht : writeTurn left (.wrote j) = .more left') :
      WorkerStep S .fine (.writing stage left, k, w)
        (some (.writing stage left'), { k.run [.io] with out := k.out ++ left.take j }, w)
  | writeEintr {stage : WriteStage} {left left' : Bytes} {k : Conn} {w : σ}
      (hl : 0 < left.length) (ht : writeTurn left .eintr = .more left') :
      WorkerStep S .fine (.writing stage left, k, w) (some (.writing stage left'), k.run [.io], w)
  | writeFail {stage : WriteStage} {left : Bytes} {k : Conn} {w : σ} {res : WriteResult}
      (hl : 0 < left.length) (ht : writeTurn left res = .fail) :
      WorkerStep S .failure (.writing stage left, k, w) (some .fail, k.run [.io], w)
  | writeDone {stage : WriteStage} {k : Conn} {w : σ} :
      WorkerStep S .fine (.writing stage [], k, w) (some (resumeWrite stage), k, w)
  | add {k : Conn} {w : σ} :
      WorkerStep S .fine (.add, k, w) (some .tail, k.run [.ctlAdd], w)
  -- a refused `epoll_ctl` leaves the connection out of the set
  | addFail {k : Conn} {w : σ} : WorkerStep S .failure (.add, k, w) (some .fail, k, w)
  | fail {k : Conn} {w : σ} :
      WorkerStep S .fine (.fail, k, w) (none, k.run [.close, .free], w)
  | tail {k : Conn} {w : σ} : WorkerStep S .fine (.tail, k, w) (none, k, w)

/-! ## The server -/

/-- An entry of the `events` array: the listening socket, or a connection with
    or without a hang-up flag. -/
inductive Event where
  | listen
  | conn (c : Nat) (hup : Bool)
deriving DecidableEq

/-- The connections a batch speaks of. -/
def eventConns : List Event → List Nat
  | [] => []
  | .listen :: evs => eventConns evs
  | .conn c _ :: evs => c :: eventConns evs

/-- The server with its clients: the connections accepted so far, the rest of
    the listener's batch, the pushed jobs, the running workers, and what the
    registered functions act on. -/
structure State (σ : Type) where
  conns   : Nat → Conn
  next    : Nat
  batch   : List Event
  queue   : List Nat
  workers : List Worker
  world   : σ

/-- A server that has accepted nobody. -/
def State.start (w : σ) : State σ :=
  ⟨fun _ => .accepted [], 0, [], [], [], w⟩

/-- Replace a connection. -/
def State.set (s : State σ) (c : Nat) (k : Conn) : State σ :=
  { s with conns := Function.update s.conns c k }

/-- What a step did to which connection: closed it on a hang-up, met with a
    failing system call, or neither. -/
inductive Label where
  | quiet
  | hangup (c : Nat)
  | failure (c : Nat)
deriving DecidableEq

/-- The label of a worker's step. -/
def Luck.label (c : Nat) : Luck → Label
  | .fine => .quiet
  | .failure => .failure c

/-- One step of the server or of a client. -/
inductive Step (S : Server σ) : Label → State σ → State σ → Prop where
  -- level-triggered: any registered connections, each once; a hang-up flag is
  -- only raised for a client that has hung up
  | wait {s : State σ} {evs : List Event} (hb : s.batch = []) (hnd : (eventConns evs).Nodup)
      (hev : ∀ c hup, Event.conn c hup ∈ evs →
        (s.conns c).registered = true ∧ (hup = true → (s.conns c).shut = true)) :
      Step S .quiet s { s with batch := evs }
  | accept {s : State σ} {evs : List Event} (hb : s.batch = .listen :: evs) (stream : Bytes) :
      Step S .quiet s
        { s.set s.next ((Conn.accepted stream).run [.ctlAdd]) with next := s.next + 1 }
  | acceptFail {s : State σ} {evs : List Event} (hb : s.batch = .listen :: evs)
      (stream : Bytes) :
      Step S (.failure s.next) s
        { s.set s.next ((Conn.accepted stream).run [.ctlDel, .close, .free]) with
          next := s.next + 1 }
  | acceptDone {s : State σ} {evs : List Event} (hb : s.batch = .listen :: evs) :
      Step S .quiet s { s with batch := evs }
  -- the flags are looked at first, whatever is left to read
  | hangup {s : State σ} {c : Nat} {evs : List Event} (hb : s.batch = .conn c true :: evs) :
      Step S (.hangup c) s
        { s.set c ((s.conns c).run [.deref, .free, .ctlDel, .close]) with batch := evs }
  | ready {s : State σ} {c : Nat} {evs : List Event} (hb : s.batch = .conn c false :: evs) :
      Step S .quiet s
        { s.set c ((s.conns c).run [.deref, .ctlDel]) with
          batch := evs
          queue := s.queue ++ [c] }
  -- the pool or the new thread takes any of the pushed jobs
  | start {s : State σ} {c : Nat} {pre post : List Nat} (hq : s.queue = pre ++ c :: post) :
      Step S .quiet s { s with queue := pre ++ post, workers := s.workers ++ [⟨c, .enter⟩] }
  | work {s : State σ} {wk : Worker} {pre post : List Worker} {luck : Luck} {pc' : WPc}
      {k' : Conn} {w' : σ} (hw : s.workers = pre ++ wk :: post)
      (h : WorkerStep S luck (wk.pc, s.conns wk.conn, s.world) (some pc', k', w')) :
      Step S (luck.label wk.conn) s
        { s.set wk.conn k' with workers := pre ++ ⟨wk.conn, pc'⟩ :: post, world := w' }
  | finish {s : State σ} {wk : Worker} {pre post : List Worker} {luck : Luck} {k' : Conn}
      {w' : σ} (hw : s.workers = pre ++ wk :: post)
      (h : WorkerStep S luck (wk.pc, s.conns wk.conn, s.world) (none, k', w')) :
      Step S (luck.label wk.conn) s
        { s.set wk.conn k' with workers := pre ++ post, world := w' }
  | send {s : State σ} {c j : Nat} (hc : c < s.next) :
      Step S .quiet s
        (s.set c
          { s.conns c with
            inbox := (s.conns c).inbox ++ (s.conns c).pending.take j
            pending := (s.conns c).pending.drop j })
  -- a client hangs up behind everything it has to send
  | shutdown {s : State σ} {c : Nat} (hc : c < s.next) (hp : (s.conns c).pending = []) :
      Step S .quiet s (s.set c { s.conns c with shut := true })

/-- The states a server can get into. -/
inductive Reachable (S : Server σ) (w : σ) : State σ → Prop where
  | start : Reachable S w (.start w)
  | step {lb : Label} {s t : State σ} : Reachable S w s → Step S lb s t → Reachable S w t

/-! ## What a client sends -/

@[simp] theorem State.set_same (s : State σ) (c : Nat) (k : Conn) : (s.set c k).conns c = k := by
  simp [State.set]

theorem State.set_other (s : State σ) {c c' : Nat} (h : c' ≠ c) (k : Conn) :
    (s.set c k).conns c' = s.conns c' := by
  simp [State.set, h]

/-- **WHAT A READ LEADS TO**: the worker gives up, goes on to the body, or makes
    the call it has read. -/
theorem resumeRead_cases (S : Server σ) (ret : Int) (mem : Mem) (k : Conn) (w : σ)
    (stage : ReadStage) :
    resumeRead S ret mem k w stage = (.fail, k, w)
    ∨ (stage = .len ∧ 0 ≤ ret ∧ memWord S.endian mem ≠ 0
        ∧ resumeRead S ret mem k w stage
          = (.reading (.body (memWord S.endian mem)) (.enter (fill 0) (memWord S.endian mem)),
              k, w))
    ∨ ∃ len c, stage = .body len ∧ requestFromJson S.json (slice mem len) = some c
        ∧ resumeRead S ret mem k w stage
          = (.writing (.len (S.call w c.1 c.2).2)
                (u32Bytes S.endian ((S.call w c.1 c.2).2.length % 2 ^ 32)),
              { k with calls := k.calls ++ [(k.consumed.length, c)] }, (S.call w c.1 c.2).1) := by
  cases stage with
  | len =>
      by_cases hret : ret < 0
      · exact Or.inl (if_pos hret)
      · by_cases hlen : memWord S.endian mem = 0
        · exact Or.inl ((if_neg hret).trans (if_pos hlen))
        · exact Or.inr (Or.inl ⟨rfl, Int.not_lt.mp hret, hlen,
            (if_neg hret).trans (if_neg hlen)⟩)
  | body len =>
      by_cases hret : ret.bmod (2 ^ 32) < 0
      · exact Or.inl (if_pos hret)
      · cases hreq : requestFromJson S.json (slice mem len) with
        | none =>
            left
            simp only [resumeRead, if_neg hret, hreq]
        | some c =>
            refine Or.inr (Or.inr ⟨len, c, rfl, hreq, ?_⟩)
            simp only [resumeRead, if_neg hret, hreq]

theorem resumeRead_stream (S : Server σ) (ret : Int) (mem : Mem) (k : Conn) (w : σ)
    (stage : ReadStage) : (resumeRead S ret mem k w stage).2.1.stream = k.stream := by
  rcases resumeRead_cases S ret mem k w stage with h | ⟨-, -, -, h⟩ | ⟨_, _, -, -, h⟩
  · rw [h]
  · rw [h]
  · rw [h]
    rfl

/-! ## Ownership -/

/-- The workers that hold a connection. -/
def holders (workers : List Worker) (c : Nat) : Nat :=
  workers.countP (fun w => w.conn = c ∧ w.holds = true)

/-- How many places a connection is in: the epoll set, the queue, the hands of
    workers, the closed. -/
def tokens (s : State σ) (c : Nat) : Nat :=
  (if (s.conns c).registered then 1 else 0) + s.queue.count c + holders s.workers c
    + (s.conns c).closes

/-- **OWNERSHIP**: an accepted connection is in one place, data are freed
    together with the close, nothing illegal has been done, and the events of
    the batch are about distinct registered connections, those with a hang-up
    flag about clients that have hung up. -/
structure Owned (s : State σ) : Prop where
  one      : ∀ c, c < s.next → tokens s c = 1
  none     : ∀ c, s.next ≤ c → tokens s c = 0
  freed    : ∀ c, (s.conns c).frees = (s.conns c).closes
  legal    : ∀ c, (s.conns c).fault = false
  events   : ∀ c ∈ eventConns s.batch, (s.conns c).registered = true
  distinct : (eventConns s.batch).Nodup
  hups     : ∀ c, Event.conn c true ∈ s.batch → (s.conns c).shut = true

@[simp] theorem holders_nil (c : Nat) : holders [] c = 0 := rfl

@[simp] theorem holders_append (ws vs : List Worker) (c : Nat) :
    holders (ws ++ vs) c = holders ws c + holders vs c := List.countP_append

@[simp] theorem holders_cons (w : Worker) (ws : List Worker) (c : Nat) :
    holders (w :: ws) c = holders ws c + if w.conn = c ∧ w.holds = true then 1 else 0 := by
  rw [holders, List.countP_cons]
  simp only [decide_eq_true_eq]
  rfl

theorem State.set_set (s : State σ) (c : Nat) (k k' : Conn) :
    (s.set c k).set c k' = s.set c k' := by
  simp [State.set]

theorem State.set_self (s : State σ) (c : Nat) : s.set c (s.conns c) = s := by
  simp [State.set]

theorem eventConns_mem {evs : List Event} {c : Nat} :
    c ∈ eventConns evs ↔ ∃ hup, Event.conn c hup ∈ evs := by
  induction evs with
  | nil => simp [eventConns]
  | cons ev evs ih =>
      cases ev with
      | listen => simp [eventConns, ih]
      | conn c' hup' =>
          simp only [eventConns, List.mem_cons, ih]
          constructor
          · rintro (rfl | ⟨hup, h⟩)
            · exact ⟨hup', Or.inl rfl⟩
            · exact ⟨hup, Or.inr h⟩
          · rintro ⟨hup, h | h⟩
            · exact Or.inl (by injection h)
            · exact Or.inr ⟨hup, h⟩

/-- A step that leaves a connection's record, place in the queue and workers
    alone leaves its tokens alone. -/
theorem tokens_congr {s t : State σ} {c : Nat} (hk : t.conns c = s.conns c)
    (hq : t.queue.count c = s.queue.count c) (hw : holders t.workers c = holders s.workers c) :
    tokens t c = tokens s c := by
  rw [tokens, tokens, hk, hq, hw]

/-- What a step may do to its own connection: keep the number of places, free
    with the close, stay legal, and leave the batch's connections registered. -/
structure Moves (s t : State σ) (c : Nat) : Prop where
  next    : t.next = s.next
  tokens  : SearpcEpoll.tokens t c = SearpcEpoll.tokens s c
  others  : ∀ c', c' ≠ c → t.conns c' = s.conns c'
  queues  : ∀ c', c' ≠ c → t.queue.count c' = s.queue.count c'
  workers : ∀ c', c' ≠ c → holders t.workers c' = holders s.workers c'
  freed   : (t.conns c).frees = (t.conns c).closes
  legal   : (t.conns c).fault = false
  batch   : t.batch <:+ s.batch
  events  : c ∈ eventConns t.batch → (t.conns c).registered = true
  hups    : (s.conns c).shut = true → (t.conns c).shut = true

theorem eventConns_append (evs evs' : List Event) :
    eventConns (evs ++ evs') = eventConns evs ++ eventConns evs' := by
  induction evs with
  | nil => rfl
  | cons ev evs ih =>
      cases ev with
      | listen => exact ih
      | conn c hup => exact congrArg (c :: ·) ih

theorem eventConns_suffix {evs evs' : List Event} (h : evs <:+ evs') :
    eventConns evs <:+ eventConns evs' := by
  obtain ⟨pre, rfl⟩ := h
  exact ⟨eventConns pre, (eventConns_append pre evs).symm⟩

/-- Ownership is kept by whatever only moves one connection. -/
theorem Owned.of_moves {s t : State σ} (ho : Owned s) {c : Nat} (hm : Moves s t c) : Owned t := by
  -- everything below is a fact about `c` itself or a frame fact about another
  have htok : ∀ c', tokens t c' = tokens s c' := by
    intro c'
    by_cases h : c' = c
    · rw [h]
      exact hm.tokens
    · exact tokens_congr (hm.others c' h) (hm.queues c' h) (hm.workers c' h)
  refine ⟨?_, ?_, ?_, ?_, ?_, ?_, ?_⟩
  · intro c' hc'
    rw [htok]
    exact ho.one c' (hm.next ▸ hc')
  · intro c' hc'
    rw [htok]
    exact ho.none c' (hm.next ▸ hc')
  · intro c'
    by_cases h : c' = c
    · rw [h]
      exact hm.freed
    · rw [hm.others c' h]
      exact ho.freed c'
  · intro c'
    by_cases h : c' = c
    · rw [h]
      exact hm.legal
    · rw [hm.others c' h]
      exact ho.legal c'
  · intro c' hc'
    by_cases h : c' = c
    · rw [h] at hc' ⊢
      exact hm.events hc'
    · rw [hm.others c' h]
      exact ho.events c' ((eventConns_suffix hm.batch).subset hc')
  · exact ho.distinct.sublist (eventConns_suffix hm.batch).sublist
  · intro c' hc'
    have hs := ho.hups c' (hm.batch.subset hc')
    by_cases h : c' = c
    · rw [h] at hs ⊢
      exact hm.hups hs
    · rw [hm.others c' h]
      exact hs

/-- A connection that is somewhere has been accepted. -/
theorem Owned.lt_next {s : State σ} (ho : Owned s) {c : Nat} (h : tokens s c ≠ 0) : c < s.next := by
  rcases Nat.lt_or_ge c s.next with hlt | hge
  · exact hlt
  · exact absurd (ho.none c hge) h

/-- A registered connection is nowhere else. -/
theorem Owned.registered {s : State σ} (ho : Owned s) {c : Nat}
    (h : (s.conns c).registered = true) :
    c < s.next ∧ s.queue.count c = 0 ∧ holders s.workers c = 0 ∧ (s.conns c).closes = 0 := by
  have htok : tokens s c = 1 + s.queue.count c + holders s.workers c + (s.conns c).closes := by
    rw [tokens, if_pos h]
  have hlt := ho.lt_next (c := c) (by omega)
  have hone := ho.one c hlt
  exact ⟨hlt, by omega, by omega, by omega⟩

/-- A held connection is nowhere else. -/
theorem Owned.held {s : State σ} (ho : Owned s) {wk : Worker} {pre post : List Worker}
    (hw : s.workers = pre ++ wk :: post) (hh : wk.holds = true) :
    wk.conn < s.next ∧ (s.conns wk.conn).registered = false ∧ s.queue.count wk.conn = 0
      ∧ holders pre wk.conn = 0 ∧ holders post wk.conn = 0 ∧ (s.conns wk.conn).closes = 0 := by
  have hhold : holders s.workers wk.conn
      = holders pre wk.conn + (holders post wk.conn + 1) := by
    rw [hw, holders_append, holders_cons, if_pos ⟨rfl, hh⟩]
  have hlt := ho.lt_next (c := wk.conn) (by rw [tokens, hhold]; omega)
  have hone := ho.one wk.conn hlt
  rw [tokens, hhold] at hone
  refine ⟨hlt, ?_, by omega, by omega, by omega, by omega⟩
  cases hr : (s.conns wk.conn).registered with
  | false => rfl
  | true =>
      rw [hr, if_pos rfl] at hone
      omega

/-- A queued connection is nowhere else. -/
theorem Owned.queued {s : State σ} (ho : Owned s) {c : Nat} {pre post : List Nat}
    (hq : s.queue = pre ++ c :: post) :
    c < s.next ∧ (s.conns c).registered = false ∧ holders s.workers c = 0
      ∧ (s.conns c).closes = 0 := by
  have hcount : s.queue.count c = pre.count c + (post.count c + 1) := by
    rw [hq, List.count_append, List.count_cons_self]
  have hlt := ho.lt_next (c := c) (by rw [tokens, hcount]; omega)
  have hone := ho.one c hlt
  rw [tokens, hcount] at hone
  refine ⟨hlt, ?_, by omega, by omega⟩
  cases hr : (s.conns c).registered with
  | false => rfl
  | true =>
      rw [hr, if_pos rfl] at hone
      omega

/-- Two records of a connection that differ only in its data. -/
structure SameOwner (k k' : Conn) : Prop where
  registered : k'.registered = k.registered
  closes     : k'.closes = k.closes
  frees      : k'.frees = k.frees
  fault      : k'.fault = k.fault
  shut       : k'.shut = k.shut

theorem SameOwner.refl (k : Conn) : SameOwner k k := ⟨rfl, rfl, rfl, rfl, rfl⟩

/-- Reading or writing an open connection is legal. -/
theorem sameOwner_io {k : Conn} (hc : k.closes = 0) : SameOwner k (k.run [.io]) := by
  refine ⟨rfl, rfl, rfl, ?_, rfl⟩
  simp [Conn.run, Op.apply, hc]

/-- A read that returns changes the connection's data at most, and does not
    end the worker's hold. -/
theorem resumeRead_owner (S : Server σ) (ret : Int) (mem : Mem) (k : Conn) (w : σ)
    (stage : ReadStage) :
    SameOwner k (resumeRead S ret mem k w stage).2.1
      ∧ (resumeRead S ret mem k w stage).1 ≠ .tail := by
  rcases resumeRead_cases S ret mem k w stage with h | ⟨-, -, -, h⟩ | ⟨_, _, -, -, h⟩
  · rw [h]
    exact ⟨.refl k, by simp⟩
  · rw [h]
    exact ⟨.refl k, by simp⟩
  · rw [h]
    exact ⟨⟨rfl, rfl, rfl, rfl, rfl⟩, by simp⟩

theorem resumeWrite_ne_tail (stage : WriteStage) : resumeWrite stage ≠ .tail := by
  cases stage <;> simp [resumeWrite]

/-- How a worker's step ends: the worker was on its way out, has put the
    connection back, has closed it, or holds it still. -/
inductive Handed (pc : WPc) (k : Conn) : Option WPc → Conn → Prop where
  | out : pc = .tail → Handed pc k none k
  | back {k' : Conn} : pc ≠ .tail → k'.registered = true → k'.closes = 0 →
      Handed pc k (some .tail) k'
  | closed {k' : Conn} : pc ≠ .tail → k'.registered = false → k'.closes = 1 →
      Handed pc k none k'
  | still {pc' : WPc} {k' : Conn} : pc ≠ .tail → pc' ≠ .tail → k'.registered = false →
      k'.closes = 0 → Handed pc k (some pc') k'

/-- A worker's step on a connection it holds is legal, frees with the close,
    and ends in one of the four ways. -/
theorem workerStep_handed {S : Server σ} {luck : Luck} {pc : WPc} {pc' : Option WPc} {k k' : Conn}
    {w w' : σ} (h : WorkerStep S luck (pc, k, w) (pc', k', w'))
    (hopen : pc ≠ .tail → k.registered = false ∧ k.closes = 0) (hfreed : k.frees = k.closes)
    (hlegal : k.fault = false) :
    k'.frees = k'.closes ∧ k'.fault = false ∧ k'.shut = k.shut ∧ Handed pc k pc' k' := by
  -- all exits but four leave the owner's fields alone
  have hstill : ∀ {k₁ : Conn} {pc₁ : WPc}, pc ≠ .tail → pc₁ ≠ .tail → SameOwner k k₁ →
      k₁.frees = k₁.closes ∧ k₁.fault = false ∧ k₁.shut = k.shut ∧ Handed pc k (some pc₁) k₁ := by
    intro k₁ pc₁ hpc hpc₁ hsame
    refine ⟨?_, ?_, hsame.shut, .still hpc hpc₁ ?_ ?_⟩
    · rw [hsame.frees, hsame.closes, hfreed]
    · rw [hsame.fault, hlegal]
    · rw [hsame.registered, (hopen hpc).1]
    · rw [hsame.closes, (hopen hpc).2]
  have hread : ∀ {k₁ : Conn} (ret : Int) (mem : Mem) (stage : ReadStage), pc ≠ .tail →
      SameOwner k k₁ →
      (resumeRead S ret mem k₁ w stage).2.1.frees = (resumeRead S ret mem k₁ w stage).2.1.closes
        ∧ (resumeRead S ret mem k₁ w stage).2.1.fault = false
        ∧ (resumeRead S ret mem k₁ w stage).2.1.shut = k.shut
        ∧ Handed pc k (some (resumeRead S ret mem k₁ w stage).1)
            (resumeRead S ret mem k₁ w stage).2.1 := by
    intro k₁ ret mem stage hpc hsame
    obtain ⟨hres, hne⟩ := resumeRead_owner S ret mem k₁ w stage
    exact hstill hpc hne ⟨hres.registered.trans hsame.registered, hres.closes.trans hsame.closes,
      hres.frees.trans hsame.frees, hres.fault.trans hsame.fault, hres.shut.trans hsame.shut⟩
  cases h with
  | enter =>
      refine hstill (by simp) (by simp) ⟨rfl, rfl, rfl, ?_, rfl⟩
      simp [Conn.run, Op.apply, hfreed, (hopen (by simp)).2]
  | read =>
      have hio := sameOwner_io (hopen (by simp)).2
      exact hstill (by simp) (by simp) ⟨hio.registered, hio.closes, hio.frees, hio.fault, hio.shut⟩
  | readEintr => exact hstill (by simp) (by simp) (sameOwner_io (hopen (by simp)).2)
  | readEof => exact hread _ _ _ (by simp) (sameOwner_io (hopen (by simp)).2)
  | readError => exact hread _ _ _ (by simp) (sameOwner_io (hopen (by simp)).2)
  | readDone => exact hread _ _ _ (by simp) (.refl k)
  | write =>
      have hio := sameOwner_io (hopen (by simp)).2
      exact hstill (by simp) (by simp) ⟨hio.registered, hio.closes, hio.frees, hio.fault, hio.shut⟩
  | writeEintr => exact hstill (by simp) (by simp) (sameOwner_io (hopen (by simp)).2)
  | writeFail => exact hstill (by simp) (by simp) (sameOwner_io (hopen (by simp)).2)
  | writeDone => exact hstill (by simp) (resumeWrite_ne_tail _) (.refl k)
  | add =>
      obtain ⟨hr, hc⟩ := hopen (by simp)
      refine ⟨hfreed, ?_, rfl, .back (by simp) rfl hc⟩
      simp [Conn.run, Op.apply, hlegal, hr, hc]
  | addFail => exact hstill (by simp) (by simp) (.refl k)
  | fail =>
      obtain ⟨hr, hc⟩ := hopen (by simp)
      refine ⟨?_, ?_, rfl, .closed (by simp) rfl ?_⟩
      · simp [Conn.run, Op.apply, hfreed]
      · simp [Conn.run, Op.apply, hlegal, hfreed, hc]
      · simp [Conn.run, Op.apply, hc]
  | tail => exact ⟨hfreed, hlegal, rfl, .out rfl⟩

/-! ## One step keeps the ownership -/

section OwnedSteps

variable {s : State σ} {c : Nat}

/-- Accepting a connection puts it into one place. -/
theorem owned_accept (ho : Owned s) {k : Conn}
    (hplace : (if k.registered then 1 else 0) + k.closes = 1) (hfreed : k.frees = k.closes)
    (hlegal : k.fault = false) : Owned { s.set s.next k with next := s.next + 1 } := by
  have hnone := ho.none s.next (Nat.le_refl _)
  rw [tokens] at hnone
  have hother : ∀ c', c' ≠ s.next → (s.set s.next k).conns c' = s.conns c' :=
    fun c' h => s.set_other h k
  have htok : ∀ c', c' ≠ s.next →
      tokens { s.set s.next k with next := s.next + 1 } c' = tokens s c' :=
    fun c' h => tokens_congr (hother c' h) rfl rfl
  have hreg : (s.conns s.next).registered ≠ true := fun h =>
    absurd (ho.registered h).1 (Nat.lt_irrefl _)
  -- the batch cannot speak of a connection that was not there
  have hbatch : ∀ c' ∈ eventConns s.batch, c' ≠ s.next := by
    rintro c' hc' rfl
    exact hreg (ho.events _ hc')
  refine ⟨?_, ?_, ?_, ?_, ?_, ho.distinct, ?_⟩
  · intro c' hc'
    by_cases h : c' = s.next
    · subst h
      show (if ((s.set s.next k).conns s.next).registered then 1 else 0) + s.queue.count s.next
        + holders s.workers s.next + ((s.set s.next k).conns s.next).closes = 1
      rw [s.set_same]
      omega
    · rw [htok c' h]
      exact ho.one c' (Nat.lt_of_le_of_ne (Nat.le_of_lt_succ hc') h)
  · intro c' hc'
    have h : c' ≠ s.next := Nat.ne_of_gt hc'
    rw [htok c' h]
    exact ho.none c' (Nat.le_of_succ_le hc')
  · intro c'
    by_cases h : c' = s.next
    · subst h
      show ((s.set s.next k).conns s.next).frees = ((s.set s.next k).conns s.next).closes
      rw [s.set_same]
      exact hfreed
    · show ((s.set s.next k).conns c').frees = ((s.set s.next k).conns c').closes
      rw [hother c' h]
      exact ho.freed c'
  · intro c'
    by_cases h : c' = s.next
    · subst h
      show ((s.set s.next k).conns s.next).fault = false
      rw [s.set_same]
      exact hlegal
    · show ((s.set s.next k).conns c').fault = false
      rw [hother c' h]
      exact ho.legal c'
  · intro c' hc'
    show ((s.set s.next k).conns c').registered = true
    rw [hother c' (hbatch c' hc')]
    exact ho.events c' hc'
  · intro c' hc'
    show ((s.set s.next k).conns c').shut = true
    rw [hother c' (hbatch c' (eventConns_mem.mpr ⟨true, hc'⟩))]
    exact ho.hups c' hc'

/-- The listener takes a connection of its batch out of the epoll set. -/
theorem moves_event (ho : Owned s) {hup : Bool} {evs : List Event}
    (hb : s.batch = .conn c hup :: evs) {k : Conn} {queue : List Nat}
    (hplace : s.queue.count c + 1 = queue.count c + k.closes)
    (hqueue : ∀ c', c' ≠ c → queue.count c' = s.queue.count c') (hreg : k.registered = false)
    (hfreed : k.frees = k.closes) (hlegal : k.fault = false)
    (hshut : k.shut = (s.conns c).shut) :
    Moves s { s.set c k with batch := evs, queue := queue } c := by
  have hin : c ∈ eventConns s.batch := by rw [hb]; exact List.mem_cons_self
  obtain ⟨-, hcount, hhold, hclose⟩ := ho.registered (ho.events c hin)
  refine ⟨rfl, ?_, fun c' h => s.set_other h k, hqueue, fun _ _ => rfl, ?_, ?_, ?_, ?_, ?_⟩
  · show (if ((s.set c k).conns c).registered then 1 else 0) + queue.count c
      + holders s.workers c + ((s.set c k).conns c).closes = tokens s c
    rw [s.set_same, hreg, tokens, if_pos (ho.events c hin), hclose]
    simp only [Bool.false_eq_true, if_false]
    omega
  · show ((s.set c k).conns c).frees = ((s.set c k).conns c).closes
    rw [s.set_same]
    exact hfreed
  · show ((s.set c k).conns c).fault = false
    rw [s.set_same]
    exact hlegal
  · rw [hb]
    exact List.suffix_cons _ _
  · -- a batch reports a connection once, so the rest of it is silent about `c`
    intro hmem
    have hnd := ho.distinct
    rw [hb] at hnd
    exact absurd hmem (List.nodup_cons.mp hnd).1
  · intro hs
    show ((s.set c k).conns c).shut = true
    rw [s.set_same, hshut]
    exact hs

/-- A move of a client leaves everything but the data alone. -/
theorem moves_client (ho : Owned s) {k : Conn} (hr : k.registered = (s.conns c).registered)
    (hc : k.closes = (s.conns c).closes) (hf : k.frees = (s.conns c).frees)
    (hl : k.fault = (s.conns c).fault) (hs : (s.conns c).shut = true → k.shut = true) :
    Moves s (s.set c k) c := by
  refine ⟨rfl, ?_, fun c' h => s.set_other h k, fun _ _ => rfl, fun _ _ => rfl, ?_, ?_,
    List.suffix_refl _, ?_, ?_⟩
  · show (if ((s.set c k).conns c).registered then 1 else 0) + s.queue.count c
      + holders s.workers c + ((s.set c k).conns c).closes = tokens s c
    rw [s.set_same, hr, hc, tokens]
  · rw [s.set_same, hf, hc]
    exact ho.freed c
  · rw [s.set_same, hl]
    exact ho.legal c
  · intro hmem
    rw [s.set_same, hr]
    exact ho.events c hmem
  · rw [s.set_same]
    exact hs

/-- A worker's step moves its connection. -/
theorem moves_work (ho : Owned s) {wk : Worker} {pre post ws : List Worker} {pc' : Option WPc}
    {k' : Conn} (w' : σ) (hw : s.workers = pre ++ wk :: post)
    (hws : ws = pre ++ (pc'.map (Worker.mk wk.conn)).toList ++ post)
    (hfreed : k'.frees = k'.closes) (hlegal : k'.fault = false)
    (hshut : k'.shut = (s.conns wk.conn).shut) (hh : Handed wk.pc (s.conns wk.conn) pc' k') :
    Moves s { s.set wk.conn k' with workers := ws, world := w' } wk.conn := by
  have hhold : wk.holds = true ↔ wk.pc ≠ .tail := by
    cases hpc : wk.pc <;> simp [Worker.holds, hpc]
  have hbatch : wk.holds = true → wk.conn ∉ eventConns s.batch := by
    intro h hmem
    have := ho.events _ hmem
    rw [(ho.held hw h).2.1] at this
    exact nomatch this
  refine ⟨rfl, ?_, fun c' h => s.set_other h k', fun _ _ => rfl, ?_, ?_, ?_, List.suffix_refl _,
    ?_, ?_⟩
  · show (if ((s.set wk.conn k').conns wk.conn).registered then 1 else 0) + s.queue.count wk.conn
      + holders ws wk.conn + ((s.set wk.conn k').conns wk.conn).closes = tokens s wk.conn
    rw [s.set_same, tokens, hw, hws]
    cases hh with
    | out htail =>
        have hno : ¬ wk.holds = true := fun h => hhold.mp h htail
        simp [hno]
    | back hne hr hc =>
        obtain ⟨-, hr', -, -, -, hc'⟩ := ho.held hw (hhold.mpr hne)
        have htail : (Worker.mk wk.conn .tail).holds = false := rfl
        simp [hhold.mpr hne, hr, hc, hr', hc', htail]
        omega
    | closed hne hr hc =>
        obtain ⟨-, hr', -, -, -, hc'⟩ := ho.held hw (hhold.mpr hne)
        simp [hhold.mpr hne, hr, hc, hr', hc']
        omega
    | @still pc'' _ hne hne' hr hc =>
        obtain ⟨-, hr', -, -, -, hc'⟩ := ho.held hw (hhold.mpr hne)
        have hholds' : (Worker.mk wk.conn pc'').holds = true := by
          cases pc'' <;> first | rfl | exact absurd rfl hne'
        simp [hhold.mpr hne, hr, hc, hr', hc', hholds']
  · intro c' h
    show holders ws c' = holders s.workers c'
    have hne : ¬ wk.conn = c' := fun h' => h h'.symm
    rw [hw, hws]
    cases pc' with
    | none => simp [hne]
    | some pc'' => simp [hne]
  · show ((s.set wk.conn k').conns wk.conn).frees = ((s.set wk.conn k').conns wk.conn).closes
    rw [s.set_same]
    exact hfreed
  · show ((s.set wk.conn k').conns wk.conn).fault = false
    rw [s.set_same]
    exact hlegal
  · intro hmem
    show ((s.set wk.conn k').conns wk.conn).registered = true
    rw [s.set_same]
    cases hh with
    | out htail => exact ho.events _ hmem
    | back hne hr hc => exact hr
    | closed hne => exact absurd hmem (hbatch (hhold.mpr hne))
    | still hne => exact absurd hmem (hbatch (hhold.mpr hne))
  · intro hs
    show ((s.set wk.conn k').conns wk.conn).shut = true
    rw [s.set_same, hshut]
    exact hs

/-- What a worker's step does, on a connection it holds or has let go of. -/
theorem work_handed (ho : Owned s) {S : Server σ} {wk : Worker} {pre post : List Worker}
    {luck : Luck} {pc' : Option WPc} {k' : Conn} {w' : σ} (hw : s.workers = pre ++ wk :: post)
    (h : WorkerStep S luck (wk.pc, s.conns wk.conn, s.world) (pc', k', w')) :
    k'.frees = k'.closes ∧ k'.fault = false ∧ k'.shut = (s.conns wk.conn).shut
      ∧ Handed wk.pc (s.conns wk.conn) pc' k' := by
  refine workerStep_handed h (fun hne => ?_) (ho.freed _) (ho.legal _)
  have hholds : wk.holds = true := by
    cases hpc : wk.pc <;> simp_all [Worker.holds]
  obtain ⟨-, hr, -, -, -, hc⟩ := ho.held hw hholds
  exact ⟨hr, hc⟩

/-- **ONE STEP** of anybody keeps the ownership. -/
theorem owned_step {S : Server σ} {lb : Label} {t : State σ} (ho : Owned s) (h : Step S lb s t) :
    Owned t := by
  cases h with
  | wait hb hnd hev =>
      refine ⟨ho.one, ho.none, ho.freed, ho.legal, ?_, hnd, ?_⟩
      · intro c hc
        obtain ⟨hup, hmem⟩ := eventConns_mem.mp hc
        exact (hev c hup hmem).1
      · intro c hc
        exact (hev c true hc).2 rfl
  | accept hb stream => exact owned_accept ho rfl rfl rfl
  | acceptFail hb stream => exact owned_accept ho rfl rfl rfl
  | @acceptDone _ evs hb =>
      have hsub : evs <:+ s.batch := by rw [hb]; exact List.suffix_cons _ _
      exact ⟨ho.one, ho.none, ho.freed, ho.legal,
        fun c hc => ho.events c ((eventConns_suffix hsub).subset hc),
        ho.distinct.sublist (eventConns_suffix hsub).sublist,
        fun c hc => ho.hups c (hsub.subset hc)⟩
  | @hangup _ c evs hb =>
      have hin : c ∈ eventConns s.batch := by rw [hb]; exact List.mem_cons_self
      obtain ⟨-, hcount, -, hclose⟩ := ho.registered (ho.events c hin)
      have hfree : (s.conns c).frees = 0 := (ho.freed c).trans hclose
      refine ho.of_moves (moves_event ho hb ?_ (fun _ _ => rfl) rfl ?_ ?_ rfl)
      · show s.queue.count c + 1 = s.queue.count c + ((s.conns c).closes + 1)
        rw [hclose]
      · simp [Conn.run, Op.apply, hfree, hclose]
      · simp [Conn.run, Op.apply, hfree, hclose, ho.legal c]
  | @ready _ c evs hb =>
      have hin : c ∈ eventConns s.batch := by rw [hb]; exact List.mem_cons_self
      obtain ⟨-, hcount, -, hclose⟩ := ho.registered (ho.events c hin)
      have hfree : (s.conns c).frees = 0 := (ho.freed c).trans hclose
      refine ho.of_moves (moves_event ho hb ?_ ?_ rfl ?_ ?_ rfl)
      · show s.queue.count c + 1 = (s.queue ++ [c]).count c + (s.conns c).closes
        rw [hclose, List.count_append, List.count_singleton_self]
      · intro c' h
        rw [List.count_append, List.count_singleton, if_neg (by simpa using Ne.symm h),
          Nat.add_zero]
      · simp [Conn.run, Op.apply, hfree, hclose]
      · simp [Conn.run, Op.apply, hfree, hclose, ho.legal c]
  | @start _ c pre post hq =>
      refine ho.of_moves (c := c) ⟨rfl, ?_, fun _ _ => rfl, ?_, ?_, ho.freed c, ho.legal c,
        List.suffix_refl _, ho.events c, id⟩
      · show (if (s.conns c).registered then 1 else 0) + (pre ++ post).count c
          + holders (s.workers ++ [⟨c, .enter⟩]) c + (s.conns c).closes = tokens s c
        have hholds : (Worker.mk c .enter).holds = true := rfl
        rw [tokens, hq]
        simp [hholds]
        omega
      · intro c' h
        show (pre ++ post).count c' = s.queue.count c'
        rw [hq]
        simp [Ne.symm h]
      · intro c' h
        show holders (s.workers ++ [⟨c, .enter⟩]) c' = holders s.workers c'
        simp [Ne.symm h]
  | @work _ wk pre post luck pc' k' w' hw hstep =>
      obtain ⟨hfreed, hlegal, hshut, hh⟩ := work_handed ho hw hstep
      exact ho.of_moves (moves_work ho w' hw (by simp) hfreed hlegal hshut hh)
  | @finish _ wk pre post luck k' w' hw hstep =>
      obtain ⟨hfreed, hlegal, hshut, hh⟩ := work_handed ho hw hstep
      exact ho.of_moves (moves_work ho w' hw (by simp) hfreed hlegal hshut hh)
  -- clients own nothing
  | @send _ c j hc => exact ho.of_moves (moves_client ho rfl rfl rfl rfl id)
  | @shutdown _ c hc hp => exact ho.of_moves (moves_client ho rfl rfl rfl rfl (fun _ => rfl))

end OwnedSteps

theorem owned_start (w : σ) : Owned (State.start w) :=
  ⟨(fun _ h => nomatch h), fun _ _ => rfl, fun _ => rfl, fun _ => rfl, (fun _ h => nomatch h),
    List.nodup_nil, (fun _ h => nomatch h)⟩

/-- **EVERY REACHABLE STATE** is owned. -/
theorem owned_reachable {S : Server σ} {w : σ} {s : State σ} (h : Reachable S w s) : Owned s := by
  induction h with
  | start => exact owned_start w
  | step _ hstep ih => exact owned_step ih hstep

/-! ## Invariants of one connection

    A property of a connection that may depend on where its worker stands is
    proved once for the worker's code and the few things others do to a
    connection; ownership does the rest. -/

/-- A property of a connection, together with the position of the worker that
    holds it, if any. -/
abbrev ConnProp := Option WPc → Conn → Prop

/-- The property holds of connection `c`: as of no worker when nobody holds it,
    and as of each worker that does. -/
def At (s : State σ) (c : Nat) (P : ConnProp) : Prop :=
  c < s.next → (holders s.workers c = 0 → P none (s.conns c))
    ∧ ∀ w ∈ s.workers, w.conn = c → w.holds = true → P (some w.pc) (s.conns c)

/-- The position a worker's step leaves its connection in. -/
def position : Option WPc → Option WPc
  | some .tail => none
  | p => p

/-- What a step may do to connection `c`: fail only where failures are allowed,
    hang up only where that is. -/
def Allowed (lucky : Luck → Prop) (hangs : Conn → Prop) (c : Nat) (lb : Label) (s : State σ) :
    Prop :=
  (lb = .failure c → lucky .failure) ∧ (lb = .hangup c → hangs (s.conns c))

theorem Allowed.of_quiet {lucky : Luck → Prop} {hangs : Conn → Prop} {c : Nat} {s : State σ} :
    Allowed lucky hangs c .quiet s :=
  ⟨(fun h => nomatch h), fun h => nomatch h⟩

theorem Allowed.of_hangup {lucky : Luck → Prop} {hangs : Conn → Prop} {c : Nat} {s : State σ}
    (h : hangs (s.conns c)) : Allowed lucky hangs c (.hangup c) s :=
  ⟨(fun h => nomatch h), fun _ => h⟩

/-- The property survives everything that can happen to a connection. -/
structure Stable (S : Server σ) (lucky : Luck → Prop) (hangs : Conn → Prop) (P : ConnProp) :
    Prop where
  accept     : ∀ stream, P none ((Conn.accepted stream).run [.ctlAdd])
  acceptFail : lucky .failure →
    ∀ stream, P none ((Conn.accepted stream).run [.ctlDel, .close, .free])
  hangup     : ∀ k, k.closes = 0 → P none k → k.shut = true → hangs k →
    P none (k.run [.deref, .free, .ctlDel, .close])
  ready      : ∀ k, k.closes = 0 → P none k → P none (k.run [.deref, .ctlDel])
  start      : ∀ k, k.closes = 0 → P none k → P (some .enter) k
  work       : ∀ luck pc k w pc' k' w', luck = .fine ∨ lucky luck → pc ≠ .tail →
    k.closes = 0 → WorkerStep S luck (pc, k, w) (pc', k', w') → P (some pc) k →
    P (position pc') k'
  send       : ∀ p k j, P p k →
    P p { k with inbox := k.inbox ++ k.pending.take j, pending := k.pending.drop j }
  shutdown   : ∀ p k, k.pending = [] → P p k → P p { k with shut := true }

theorem no_holder {ws : List Worker} {c : Nat} (h : holders ws c = 0) {w : Worker} (hw : w ∈ ws)
    (hc : w.conn = c) : ¬ w.holds = true := by
  intro hh
  have := List.countP_eq_zero.mp h w hw
  exact this (by simp [hc, hh])

/-- A step that touches neither the connection nor its workers keeps the
    property. -/
theorem At.frame {s t : State σ} {c : Nat} {P : ConnProp} (ha : At s c P)
    (hnext : c < t.next → c < s.next) (hk : t.conns c = s.conns c)
    (hh : holders t.workers c = holders s.workers c)
    (hw : ∀ w ∈ t.workers, w.conn = c → w.holds = true → w ∈ s.workers) : At t c P := by
  intro hc
  obtain ⟨hnone, hsome⟩ := ha (hnext hc)
  rw [hk]
  exact ⟨fun h => hnone (hh ▸ h), fun w hwt hwc hwh => hsome w (hw w hwt hwc hwh) hwc hwh⟩

/-- A step that leaves the connection without a worker. -/
theorem at_of_none {t : State σ} {c : Nat} {P : ConnProp} (hh : holders t.workers c = 0)
    (hp : P none (t.conns c)) : At t c P :=
  fun _ => ⟨fun _ => hp, fun _ hw hwc hwh => absurd hwh (no_holder hh hw hwc)⟩

/-- The property holds of somebody. -/
theorem At.exists {s : State σ} {c : Nat} {P : ConnProp} (ha : At s c P) (hc : c < s.next) :
    ∃ p, P p (s.conns c) := by
  obtain ⟨hnone, hsome⟩ := ha hc
  rcases Nat.eq_zero_or_pos (holders s.workers c) with hz | hpos
  · exact ⟨none, hnone hz⟩
  · obtain ⟨wk, hmem, hwk⟩ := List.countP_pos_iff.mp hpos
    obtain ⟨hwc, hwh⟩ := of_decide_eq_true hwk
    exact ⟨some wk.pc, hsome wk hmem hwc hwh⟩

section StableSteps

variable {S : Server σ} {lucky : Luck → Prop} {hangs : Conn → Prop} {P : ConnProp} {s : State σ}
  {c : Nat}

/-- A new connection has the property, the others keep it. -/
theorem at_accept (ho : Owned s) (ha : At s c P) {k : Conn} (hk : c = s.next → P none k) :
    At { s.set s.next k with next := s.next + 1 } c P := by
  by_cases h : c = s.next
  · have hnone := ho.none s.next (Nat.le_refl _)
    rw [tokens] at hnone
    refine at_of_none (t := { s.set s.next k with next := s.next + 1 }) ?_ ?_
    · show holders s.workers c = 0
      rw [h]
      omega
    · show P none ((s.set s.next k).conns c)
      rw [h, s.set_same]
      exact hk h
  · refine ha.frame ?_ (s.set_other h k) rfl (fun w hw _ _ => hw)
    intro hlt
    exact Nat.lt_of_le_of_ne (Nat.le_of_lt_succ hlt) h

/-- A step on another connection keeps the property. -/
theorem At.other (ha : At s c P) {d : Nat} (hd : c ≠ d) {k : Conn} {t : State σ}
    (hconns : t.conns = (s.set d k).conns) (hnext : t.next = s.next)
    (hh : holders t.workers c = holders s.workers c)
    (hw : ∀ w ∈ t.workers, w.conn = c → w ∈ s.workers) : At t c P := by
  refine ha.frame (fun h => hnext ▸ h) ?_ hh (fun w hwt hwc _ => hw w hwt hwc)
  rw [hconns]
  exact s.set_other hd k

/-- A worker that is there after another one took a step was there before. -/
theorem mem_of_replaced {pre post : List Worker} {wk w : Worker} {pc' : Option WPc}
    (hw : w ∈ pre ++ (pc'.map (Worker.mk wk.conn)).toList ++ post)
    (hne : pc' = none ∨ w.conn ≠ wk.conn) : w ∈ pre ++ wk :: post := by
  rcases List.mem_append.mp hw with h | h
  · rcases List.mem_append.mp h with h | h
    · exact List.mem_append_left _ h
    · cases pc' with
      | none => cases h
      | some pc =>
          rcases hne with hne | hne
          · cases hne
          · have hconn : w = ⟨wk.conn, pc⟩ := List.mem_singleton.mp h
            exact absurd (congrArg Worker.conn hconn) hne
  · exact List.mem_append_right _ (List.mem_cons_of_mem _ h)

/-- Where the only holder of a connection has moved, the property is to be shown
    at its new position. -/
theorem at_replaced {t : State σ} {pre post : List Worker} {pc' : Option WPc}
    (hws : t.workers = pre ++ (pc'.map (Worker.mk c)).toList ++ post) (hpre : holders pre c = 0)
    (hpost : holders post c = 0) (hP : P (position pc') (t.conns c)) : At t c P := by
  have hcount : holders t.workers c
      = holders (pc'.map (Worker.mk c)).toList c := by
    rw [hws, holders_append, holders_append, hpre, hpost, Nat.zero_add, Nat.add_zero]
  cases pc' with
  | none => exact at_of_none hcount hP
  | some pc =>
      by_cases hpc : pc = .tail
      · -- it has let go
        subst hpc
        have htail : (Worker.mk c .tail).holds = false := rfl
        refine at_of_none (hcount.trans ?_) hP
        simp [htail]
      · have hholds : (Worker.mk c pc).holds = true := by
          cases pc <;> first | rfl | exact absurd rfl hpc
        have hpos : position (some pc) = some pc := by
          cases pc <;> first | rfl | exact absurd rfl hpc
        rw [hpos] at hP
        intro _
        refine ⟨fun h0 => ?_, fun w hw hwc hwh => ?_⟩
        · rw [hcount] at h0
          simp [hholds] at h0
        · rw [hws] at hw
          rcases List.mem_append.mp hw with h | h
          · rcases List.mem_append.mp h with h | h
            · exact absurd hwh (no_holder hpre h hwc)
            · rw [List.mem_singleton.mp h]
              exact hP
          · exact absurd hwh (no_holder hpost h hwc)

/-- A worker's step, of this connection or of another. -/
theorem at_work (hS : Stable S lucky hangs P) (ho : Owned s) (ha : At s c P) {wk : Worker}
    {pre post ws : List Worker} {luck : Luck} {pc' : Option WPc} {k' : Conn} {w' : σ}
    (hw : s.workers = pre ++ wk :: post)
    (hws : ws = pre ++ (pc'.map (Worker.mk wk.conn)).toList ++ post)
    (h : WorkerStep S luck (wk.pc, s.conns wk.conn, s.world) (pc', k', w'))
    (hlucky : wk.conn = c → luck = .fine ∨ lucky luck) :
    At { s.set wk.conn k' with workers := ws, world := w' } c P := by
  obtain ⟨hfreed, hlegal, hshut, hh⟩ := work_handed ho hw h
  have hm := moves_work ho w' hw hws hfreed hlegal hshut hh
  by_cases hc : c = wk.conn
  · by_cases hpc : wk.pc = .tail
    · -- the worker had let go: nothing changes for the connection
      cases hh with
      | out _ =>
          have hno : ¬ wk.holds = true := by simp [Worker.holds, hpc]
          refine ha.frame id ?_ ?_ ?_
          · show (s.set wk.conn (s.conns wk.conn)).conns c = s.conns c
            rw [hc, s.set_same]
          · show holders ws c = holders s.workers c
            rw [hw, hws]
            simp [hno]
          · intro w hwt _ _
            rw [hw]
            exact mem_of_replaced (hws ▸ hwt) (Or.inl rfl)
      | back hne => exact absurd hpc hne
      | closed hne => exact absurd hpc hne
      | still hne => exact absurd hpc hne
    · have hholds : wk.holds = true := by
        cases hp : wk.pc <;> simp_all [Worker.holds]
      obtain ⟨hlt, -, -, hpre, hpost, hopen⟩ := ho.held hw hholds
      obtain ⟨-, hsome⟩ := ha (hc ▸ hlt)
      have hmem : wk ∈ s.workers := by rw [hw]; exact List.mem_append_right _ List.mem_cons_self
      have hP := hS.work luck wk.pc _ _ _ _ _ (hlucky hc.symm) hpc hopen h
        (hc ▸ hsome wk hmem hc.symm hholds)
      subst hc
      refine at_replaced hws hpre hpost ?_
      show P (position pc') ((s.set wk.conn k').conns wk.conn)
      rw [s.set_same]
      exact hP
  · refine ha.other hc rfl rfl (hm.workers c hc) ?_
    intro w hwt hwc
    rw [hw]
    exact mem_of_replaced (hws ▸ hwt) (Or.inr (fun h => hc (hwc.symm.trans h)))

/-- **THE INVARIANT RULE**: a stable property survives every allowed step. -/
theorem at_step (hS : Stable S lucky hangs P) (ho : Owned s) {lb : Label} {t : State σ}
    (h : Step S lb s t) (hall : Allowed lucky hangs c lb s) (ha : At s c P) : At t c P := by
  cases h with
  | wait => exact ha
  | accept hb stream => exact at_accept ho ha (fun _ => hS.accept stream)
  | acceptFail hb stream =>
      exact at_accept ho ha (fun hc => hS.acceptFail (hall.1 (by rw [hc])) stream)
  | acceptDone => exact ha
  | @hangup _ d evs hb =>
      have hin : d ∈ eventConns s.batch := by rw [hb]; exact List.mem_cons_self
      obtain ⟨hlt, -, hhold, hopen⟩ := ho.registered (ho.events d hin)
      by_cases hc : c = d
      · subst hc
        refine at_of_none hhold ?_
        show P none ((s.set c _).conns c)
        rw [s.set_same]
        exact hS.hangup _ hopen ((ha hlt).1 hhold)
          (ho.hups c (by rw [hb]; exact List.mem_cons_self)) (hall.2 rfl)
      · exact ha.other hc rfl rfl rfl (fun w hw _ => hw)
  | @ready _ d evs hb =>
      have hin : d ∈ eventConns s.batch := by rw [hb]; exact List.mem_cons_self
      obtain ⟨hlt, -, hhold, hopen⟩ := ho.registered (ho.events d hin)
      by_cases hc : c = d
      · subst hc
        refine at_of_none hhold ?_
        show P none ((s.set c _).conns c)
        rw [s.set_same]
        exact hS.ready _ hopen ((ha hlt).1 hhold)
      · exact ha.other hc rfl rfl rfl (fun w hw _ => hw)
  | @start _ d pre post hq =>
      obtain ⟨hlt, -, hhold, hopen⟩ := ho.queued hq
      by_cases hc : c = d
      · subst hc
        have hP := hS.start _ hopen ((ha hlt).1 hhold)
        intro _
        refine ⟨fun h0 => ?_, fun w hw hwc hwh => ?_⟩
        · have h0' : holders (s.workers ++ [⟨c, .enter⟩]) c = 0 := h0
          have hholds : (Worker.mk c .enter).holds = true := rfl
          simp [hholds] at h0'
        · rcases List.mem_append.mp hw with hw | hw
          · exact absurd hwh (no_holder hhold hw hwc)
          · rw [List.mem_singleton.mp hw]
            exact hP
      · refine ha.frame id rfl ?_ ?_
        · show holders (s.workers ++ [⟨d, .enter⟩]) c = holders s.workers c
          simp [Ne.symm hc]
        · intro w hw hwc _
          rcases List.mem_append.mp hw with hw | hw
          · exact hw
          · rw [List.mem_singleton.mp hw] at hwc
            exact absurd hwc.symm hc
  | @work _ wk pre post luck pc' k' w' hw hstep =>
      refine at_work hS ho ha hw (by simp) hstep (fun hc => ?_)
      cases luck with
      | fine => exact Or.inl rfl
      | failure => exact Or.inr (hall.1 (by rw [← hc]; rfl))
  | @finish _ wk pre post luck k' w' hw hstep =>
      refine at_work hS ho ha hw (by simp) hstep (fun hc => ?_)
      cases luck with
      | fine => exact Or.inl rfl
      | failure => exact Or.inr (hall.1 (by rw [← hc]; rfl))
  | @send _ d j hd =>
      by_cases hc : c = d
      · subst hc
        intro hlt
        obtain ⟨hnone, hsome⟩ := ha hlt
        rw [s.set_same]
        exact ⟨fun h0 => hS.send _ _ j (hnone h0),
          fun w hw hwc hwh => hS.send _ _ j (hsome w hw hwc hwh)⟩
      · exact ha.other hc rfl rfl rfl (fun w hw _ => hw)
  | @shutdown _ d hd hp =>
      by_cases hc : c = d
      · subst hc
        intro hlt
        obtain ⟨hnone, hsome⟩ := ha hlt
        rw [s.set_same]
        exact ⟨fun h0 => hS.shutdown _ _ hp (hnone h0),
          fun w hw hwc hwh => hS.shutdown _ _ hp (hsome w hw hwc hwh)⟩
      · exact ha.other hc rfl rfl rfl (fun w hw _ => hw)

end StableSteps

/-- The states reached by allowed steps. -/
inductive ReachableBy (S : Server σ) (w : σ) (lucky : Luck → Prop) (hangs : Conn → Prop) (c : Nat) :
    State σ → Prop where
  | start : ReachableBy S w lucky hangs c (.start w)
  | step {lb : Label} {s t : State σ} : ReachableBy S w lucky hangs c s → Step S lb s t →
      Allowed lucky hangs c lb s → ReachableBy S w lucky hangs c t

/-- A step without a label of interest is allowed. -/
theorem ReachableBy.quiet {S : Server σ} {w : σ} {lucky : Luck → Prop} {hangs : Conn → Prop}
    {c : Nat} {s t : State σ} (h : ReachableBy S w lucky hangs c s) (hs : Step S .quiet s t) :
    ReachableBy S w lucky hangs c t :=
  .step h hs .of_quiet

theorem ReachableBy.reachable {S : Server σ} {w : σ} {lucky : Luck → Prop} {hangs : Conn → Prop}
    {c : Nat} {s : State σ} (h : ReachableBy S w lucky hangs c s) : Reachable S w s := by
  induction h with
  | start => exact .start
  | step _ hstep _ ih => exact .step ih hstep

theorem Reachable.by_any {S : Server σ} {w : σ} {s : State σ} (h : Reachable S w s) (c : Nat) :
    ReachableBy S w (fun _ => True) (fun _ => True) c s := by
  induction h with
  | start => exact .start
  | step _ hstep ih => exact .step ih hstep ⟨fun _ => trivial, fun _ => trivial⟩

/-- A stable property holds in every state reached by allowed steps. -/
theorem at_reachable {S : Server σ} {w : σ} {lucky : Luck → Prop} {hangs : Conn → Prop}
    {P : ConnProp} (hS : Stable S lucky hangs P) {c : Nat} {s : State σ}
    (h : ReachableBy S w lucky hangs c s) : At s c P := by
  induction h with
  | start => exact fun hc => nomatch hc
  | step hr hstep hall ih => exact at_step hS (owned_reachable hr.reachable) hstep hall ih

end SearpcEpoll
