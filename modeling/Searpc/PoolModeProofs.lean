import Searpc.MixedClientsProofs

/-! # The thread pool — `searpc_create_named_pipe_server_with_threadpool`

    With a pool, `named_pipe_listen` pushes each connection it accepts to a
    `GThreadPool` of `pool_size` threads, and a thread of the pool runs
    `named_pipe_client_handler` until the client has closed.  The handler and
    the programs are those of the server with a thread for each connection.

    What programs get is the same, from calls that as many threads as the pool has
    make at the same time (`pool_mode_linearizable`).  But a
    client that keeps its connection keeps a thread, and `pool_client_waits_iff`
    says which programs have to wait for others to close; if programs close when
    they are through, all are served (`pool_mode_serves_all`), whatever the size.
    In these two the functions return without waiting for each other. -/

namespace SearpcPool

open ByteMemory JsonValue SearpcJansson SearpcRequest ByteNetwork Linearizability SearpcMixed
open PyJson Utf8Text PySearpcDecode PySearpcServer PyTransport
open SearpcPipeEnds (handler cServer)
open SearpcThreadServer (Server Handler echoServer)

variable {ι σ : Type} {Good : Json → Prop}

section

variable (poolSize : Nat) (S : Server σ) (M : JsonModule)
  (lang : ι → Lang) [DecidableEq ι] (jobs : (c : ι) → List (lang c).Job)

/-- A run of the programs with their jobs, the listener, the threads of the pool
    and any other callers, each call of a function at one instant. -/
def RunPool := Pooled.Run poolSize (fun c => (lang c).process S.endian M S.json)
  (cServer S.endian S.json) (serveC S) jobs

/-- A run in which calls of `searpc_server_call_function` take their time, and only
    their histories are known. -/
def RunConcurrentPool {υ : Type} [DecidableEq υ] (calls : Object (ι ⊕ υ) Call Bytes) :=
  ConcurrentPool.Run poolSize (fun c => (lang c).process S.endian M S.json)
    (cServer S.endian S.json) calls jobs

/-- A run in which no program but that of `c` does anything. -/
def RunPoolFor (c : ι) := Pooled.RunFor poolSize (fun c => (lang c).process S.endian M S.json)
  (cServer S.endian S.json) (serveC S) jobs c

end

section Pool

variable [DecidableEq ι] {floatRepr : UInt64 → PyStr} {loads : Bytes → Option Json}
  {lang : ι → Lang} {jobs : (c : ι) → List (lang c).Job} {S : Server σ}
  {poolSize : Nat} {junk : ι → Mem} {w : σ}
  {s : Pooled UInt8 (fun c => (lang c).Job) (fun c => (lang c).State) Call Bytes
    (Handler Unit × SearpcSession.Io) σ}

/-- What the programs and the functions must keep to. -/
structure Agreeable (M : JsonModule) (S : Server σ) (lang : ι → Lang)
    (jobs : (c : ι) → List (lang c).Job) (w : σ) : Prop where
  fine  : ∀ c, ∀ j ∈ jobs c, (lang c).FineForC M S.json j
  takes : ∀ c, ∀ {log : List (Option ι × Call × Bytes)} {v : σ}, Serial (serveC S) w log v →
    ∀ j ∈ jobs c, (lang c).Takes (serveC S v ((lang c).call j)).2

omit [DecidableEq ι] in
theorem understood (hJ : RoundTrips S.json Good) (hpy : ReadsPython S.json Good)
    (h : Agreeable (pyModule floatRepr loads) S lang jobs w) :
    Understood (fun c => (lang c).process S.endian (pyModule floatRepr loads) S.json)
      (handler S.endian S.json)
      (fun c => (lang c).client S.endian (pyModule floatRepr loads) hJ)
      (cServer S.endian S.json) (serveC S) jobs (startC S lang junk w) :=
  understood_of_meets (fresh_startC lang hJ junk w) (fun c => meets_c hJ (lang c) (fun _ => hpy))
    h.fine h.takes

/-- **WHO WAITS**: a program whose connection is in the queue can get through all its
    calls, while the other programs do nothing, if and only if the programs that
    have not closed, on the connections handled or in front of it, are fewer than
    the threads of the pool. -/
theorem pool_client_waits_iff (hJ : RoundTrips S.json Good)
    (hpy : ReadsPython S.json Good)
    (h : Agreeable (pyModule floatRepr loads) S lang jobs w)
    (hrun : RunPool poolSize S (pyModule floatRepr loads) lang jobs (.start (startC S lang junk w))
      s) {c : ι} {pre post : List ι} (hq : s.queue = pre ++ c :: post) (hopen : c ∉ s.closed)
    (hjobs : jobs c ≠ []) :
    (∃ t, RunPoolFor poolSize S (pyModule floatRepr loads) lang jobs c s t
        ∧ ((lang c).client S.endian (pyModule floatRepr loads) hJ).idle (t.sys.conns c).left
        ∧ (t.sys.conns c).leftHeard = jobs c)
      ↔ s.staying (s.running ++ pre) < poolSize :=
  waits_iff (understood hJ hpy h) hrun hq hopen hjobs

/-- **NOBODY IS FORGOTTEN**: with one thread or more, from every state some run
    brings all programs whose connections were accepted through all their calls,
    each closing after its last, and leaves no connection open. -/
theorem pool_mode_serves_all (hJ : RoundTrips S.json Good)
    (hpy : ReadsPython S.json Good)
    (h : Agreeable (pyModule floatRepr loads) S lang jobs w) (hsize : 0 < poolSize)
    (hrun : RunPool poolSize S (pyModule floatRepr loads) lang jobs (.start (startC S lang junk w))
      s) :
    ∃ t, RunPool poolSize S (pyModule floatRepr loads) lang jobs s t ∧ t.running = []
      ∧ t.queue = [] ∧ ∀ c ∈ s.taken ++ s.queue, c ∉ s.closed →
        ((lang c).client S.endian (pyModule floatRepr loads) hJ).idle (t.sys.conns c).left
          ∧ (t.sys.conns c).leftHeard = jobs c :=
  pool_serves_all (understood hJ hpy h) hsize hrun

end Pool

/-! ## A pool of one thread and two programs -/

/-- A C and a Python program that call a server with a pool of `poolSize`. -/
abbrev samplePool (poolSize : Nat) := RunPool poolSize echoServer sampleModule id sampleJobs

/-- Nobody has connected. -/
abbrev sampleStart := startC echoServer (id : Lang → Lang) (fun _ => fill 0) ()

/-- Both have connected, the C program first, and it has got the first thread. -/
def sampleWaiting : Pooled UInt8 Lang.Job Lang.State Call Bytes
    (Handler Unit × SearpcSession.Io) Unit :=
  ⟨sampleStart, [.c], [.python], [.c], []⟩

theorem sampleWaiting_run {poolSize : Nat} (hsize : 0 < poolSize) :
    samplePool poolSize (.start sampleStart) sampleWaiting := by
  have hfirst : samplePool poolSize (.start sampleStart) _ :=
    .single ⟨_, .accept (c := Lang.c) List.not_mem_nil⟩
  have hsecond := hfirst.tail ⟨_, .take (c := Lang.c) rfl hsize⟩
  exact hsecond.tail ⟨_, .accept (c := Lang.python) (by decide)⟩

theorem sample_agreeable : Agreeable sampleModule echoServer id sampleJobs () where
  fine l j hj := ⟨sample_spelled l j hj, (sample_short l j hj).trans (by decide)⟩
  takes l := by
    intro log v _ j _
    exact sample_takes l

/-- The program is through with its calls. -/
abbrev SampleThrough (s : Pooled UInt8 Lang.Job Lang.State Call Bytes
    (Handler Unit × SearpcSession.Io) Unit) (l : Lang) : Prop :=
  (l.client .little sampleModule textCodec_roundTrips).idle (s.sys.conns l).left
    ∧ (s.sys.conns l).leftHeard = sampleJobs l

/-- One thread serves both, one after the other. -/
theorem pool_mode_serves_all_one : ∃ t, samplePool 1 sampleWaiting t ∧ t.running = []
    ∧ t.queue = [] ∧ ∀ l, SampleThrough t l := by
  obtain ⟨t, hrun, hrunning, hqueue, hall⟩ := pool_mode_serves_all textCodec_roundTrips
    textCodec_readsPython sample_agreeable Nat.one_pos (sampleWaiting_run Nat.one_pos)
  refine ⟨t, hrun, hrunning, hqueue, fun l => hall l ?_ List.not_mem_nil⟩
  cases l <;> decide

/-- With one thread the Python program waits until the C program closes, with two
    it does not. -/
theorem pool_client_waits_iff_two :
    (¬ ∃ t, RunPoolFor 1 echoServer sampleModule id sampleJobs .python sampleWaiting t
      ∧ SampleThrough t .python)
    ∧ ∃ t, RunPoolFor 2 echoServer sampleModule id sampleJobs .python sampleWaiting t
      ∧ SampleThrough t .python := by
  have hqueue : sampleWaiting.queue = [] ++ Lang.python :: [] := rfl
  have hiff := fun {poolSize : Nat} (hsize : 0 < poolSize) =>
    pool_client_waits_iff textCodec_roundTrips textCodec_readsPython sample_agreeable
      (sampleWaiting_run hsize) hqueue List.not_mem_nil (List.cons_ne_nil _ _)
  exact ⟨fun h => absurd ((hiff Nat.one_pos).mp h) (by decide),
    (hiff Nat.two_pos).mpr (by decide)⟩

end SearpcPool
