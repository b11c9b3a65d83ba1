import Searpc.EpollServeProofs

/-! # The epoll server — what holds of every run

    Ownership and the frame invariant, put together: a connection is in one
    place and served by one worker at a time; only whole frames are executed;
    and a client's frames are executed as the thread server executes them,
    provided that the listener meets the client's hang-up behind the last of
    them.  It looks at the hang-up flags before it looks for data, so without
    that proviso everything a client sent may be lost. -/

namespace SearpcEpollModes

open ByteMemory Framing JsonValue SearpcJansson SearpcPipeIo SearpcRequest SearpcEpoll
open SearpcEpollFrames SearpcEpollServe
open SearpcThreadServer (Server reference Run NoFail noFail_smooth echoServer
  namedPipeClientHandler handler_calls_eq atTop_start overrun cutCall_nil)

variable {σ : Type}

/-! ## Ownership and order -/

/-- A client that sends one request. -/
def oneRequest : Bytes := requestToJson textCodec (ascii "s") (ascii "f")

theorem sends_oneRequest :
    Sends echoServer [oneRequest] (encodeFrame .little oneRequest) := by
  refine ⟨(List.append_nil _).symm, fun f hf => ?_⟩
  rw [List.mem_singleton.mp hf]
  decide +kernel

/-- The places of an accepted connection. -/
inductive Place where
  | epoll
  | worker
  | closed

/-- Whether a connection is in the epoll set, with a queued or running worker,
    or closed. -/
def Place.Has (s : State σ) (c : Nat) : Place → Prop
  | .epoll => (s.conns c).registered = true
  | .worker => 0 < s.queue.count c + holders s.workers c
  | .closed => 0 < (s.conns c).closes

/-- One token is in one place. -/
theorem place_unique {s : State σ} {c : Nat} (h : tokens s c = 1) : ∃! p : Place, p.Has s c := by
  rw [tokens] at h
  cases hr : (s.conns c).registered with
  | true =>
      rw [hr, if_pos rfl] at h
      refine ⟨.epoll, hr, ?_⟩
      rintro (_ | _ | _) hp
      · rfl
      · have hp' : 0 < s.queue.count c + holders s.workers c := hp
        omega
      · have hp' : 0 < (s.conns c).closes := hp
        omega
  | false =>
      rw [hr, if_neg Bool.false_ne_true] at h
      have hepoll : ¬ Place.epoll.Has s c := fun hp => by
        have hp' : (s.conns c).registered = true := hp
        rw [hr] at hp'
        exact Bool.false_ne_true hp'
      rcases Nat.eq_zero_or_pos (s.conns c).closes with hz | hpos
      · refine ⟨.worker, ?_, ?_⟩
        · show 0 < s.queue.count c + holders s.workers c
          omega
        · rintro (_ | _ | _) hp
          · exact absurd hp hepoll
          · rfl
          · have hp' : 0 < (s.conns c).closes := hp
            omega
      · refine ⟨.closed, hpos, ?_⟩
        rintro (_ | _ | _) hp
        · exact absurd hp hepoll
        · have hp' : 0 < s.queue.count c + holders s.workers c := hp
          omega
        · rfl

/-- **CONNECTION OWNERSHIP**: in every reachable state an accepted connection is
    in one place, with one worker at most, in the epoll set when the batch
    speaks of it; it is closed at most once, its data are freed with it, nothing
    closed or freed was ever touched; and its calls were made one behind the
    other, each for the bytes next in the stream. -/
theorem connection_owned {S : Server σ} {w : σ} {s : State σ} (h : Reachable S w s) {c : Nat}
    (hc : c < s.next) :
    (∃! p : Place, p.Has s c)
      ∧ s.queue.count c + holders s.workers c ≤ 1
      ∧ (∀ hup, Event.conn c hup ∈ s.batch → Place.epoll.Has s c)
      ∧ (s.conns c).closes ≤ 1
      ∧ (s.conns c).frees = (s.conns c).closes
      ∧ (s.conns c).fault = false
      ∧ (∃ whole bs part, (s.conns c).consumed = bs ++ part
          ∧ Served S whole bs (s.conns c).calls)
      ∧ ((s.conns c).calls.map Prod.fst).Pairwise (· < ·) := by
  have ho := owned_reachable h
  have hone := ho.one c hc
  obtain ⟨part, -, whole, bs, hbs, hserved, -⟩ := parsed_reachable h hc
  refine ⟨place_unique hone, ?_, ?_, ?_, ho.freed c, ho.legal c, ⟨whole, bs, part, hbs, hserved⟩,
    (served_positions hserved).1⟩
  · rw [tokens] at hone
    omega
  · exact fun hup hmem => ho.events c (eventConns_mem.mpr ⟨hup, hmem⟩)
  · rw [tokens] at hone
    omega

/-- A connection served and closed. -/
theorem connection_owned_closed :
    ∃ s : State Unit, Reachable echoServer () s ∧ 0 < s.next ∧ (s.conns 0).calls ≠ []
      ∧ (∃! p : Place, p.Has s 0) ∧ (s.conns 0).closes = 1 ∧ (s.conns 0).frees = 1
      ∧ (s.conns 0).fault = false := by
  obtain ⟨s, hs, hnext, -, hclosed, hcalls⟩ := frames_served echoServer () sends_oneRequest
  obtain ⟨hplace, -, -, hle, hfrees, hfault, -⟩ := connection_owned hs.reachable hnext
  have hone : (s.conns 0).closes = 1 := by omega
  refine ⟨s, hs.reachable, hnext, fun h0 => ?_, hplace, hone, hfrees.trans hone, hfault⟩
  rw [h0] at hcalls
  exact List.cons_ne_nil _ _ hcalls.symm

/-! ## Only whole frames -/

/-- **ONLY WHOLE FRAMES ARE EXECUTED**, whatever the client sends and however it
    arrives, when the decoder refuses NUL bytes: the calls belong to whole
    frames at the front of the stream, and are the first of the reference. -/
theorem calls_whole_frames {S : Server σ} (hJ : RefusesNul S.json) {w : σ} {s : State σ}
    (h : Reachable S w s) {c : Nat} (hc : c < s.next) :
    (∃ (ps : List Bytes) (part : Bytes),
      (s.conns c).consumed = ps.flatMap (encodeFrame S.endian) ++ part
        ∧ ps.map (requestFromJson S.json) = ((s.conns c).calls.map Prod.snd).map some)
      ∧ (s.conns c).calls.map Prod.snd <+: (reference S (s.conns c).stream).calls := by
  obtain ⟨part, -, whole, bs, hbs, hserved, -⟩ := parsed_reachable h hc
  obtain rfl := served_whole_of_refusesNul hJ hserved
  obtain ⟨ps, rfl, hcalls, hps⟩ := served_payloads hserved
  refine ⟨⟨ps, part, hbs, hcalls⟩, ?_⟩
  rw [Conn.stream, hbs, List.append_assoc, List.append_assoc, reference,
    scan_append _ ps _ hcalls hps]
  exact List.prefix_append _ _

/-- A request executed. -/
theorem calls_whole_frames_one :
    ∃ s : State Unit, Reachable echoServer () s ∧ (s.conns 0).calls ≠ []
      ∧ (s.conns 0).calls.map Prod.snd <+: (reference echoServer (s.conns 0).stream).calls := by
  obtain ⟨s, hs, hnext, -, -, hcalls⟩ := frames_served echoServer () sends_oneRequest
  refine ⟨s, hs.reachable, fun h0 => ?_,
    (calls_whole_frames textCodec_refusesNul hs.reachable hnext).2⟩
  rw [h0] at hcalls
  exact List.cons_ne_nil _ _ hcalls.symm

/-! ## Agreement with the thread server -/

/-- The thread server executes every frame of such a stream. -/
theorem thread_calls {S : Server σ} {fs : List Bytes} {stream : Bytes} (h : Sends S fs stream)
    {cs : List Call} (hcs : fs.map (requestFromJson S.json) = cs.map some) {env : Env}
    (hnf : NoFail env) (junk : Mem) (w : σ) {n : Nat} (hn : fs.length + 1 < n) :
    (namedPipeClientHandler S env (4 * n) (.start junk w stream)).h.calls = cs := by
  have href : reference S stream = ⟨fs, cs, []⟩ := by
    have hscan : scan S.endian (requestFromJson S.json) (fs.flatMap (encodeFrame S.endian) ++ [])
        = _ := scan_append [] fs cs hcs h.bounds
    have hnil : scan S.endian (requestFromJson S.json) [] = ⟨[], [], []⟩ := scan_stop rfl
    rw [List.append_nil, ← h.1, hnil, List.append_nil, List.append_nil] at hscan
    exact hscan
  have hover : overrun S junk stream = [] := by
    simp only [overrun, href, cutCall_nil, Option.toList_none, ite_self]
  obtain ⟨hcalls, -⟩ := handler_calls_eq S hnf n (.start junk w stream) (atTop_start junk w stream)
    (by
      show ∀ p ∈ (reference S stream).payloads, p.length ≤ 2 ^ 31
      rw [href]
      exact fun p hp => Nat.le_of_lt (h.2 p hp).2.1)
    (by
      show (reference S stream).payloads.length + 1 < n
      rw [href]
      exact hn)
  rw [hcalls]
  show [] ++ ((reference S stream).calls ++ overrun S junk stream) = cs
  rw [href, hover]
  simp

/-- The epoll server executes whole frames in order. -/
theorem epoll_calls_inOrder {S : Server σ} {w : σ} {s : State σ} {c : Nat} {fs : List Bytes}
    (h : Reachable S w s) (hc : c < s.next) (hsends : Sends S fs (s.conns c).stream) :
    ((s.conns c).calls.map Prod.snd).map some <+: fs.map (requestFromJson S.json) := by
  obtain ⟨part, hp⟩ := parsed_reachable h hc
  obtain ⟨ps, qs, rfl, hps, -⟩ := hsends.rest hp
  rw [← hps, List.map_append]
  exact List.prefix_append _ _

/-- When the connection is closed all of them have been executed. -/
theorem epoll_calls_closed {S : Server σ} {w : σ} {s : State σ} {c : Nat} {fs : List Bytes}
    (h : ReachableBy S w (fun _ => False) (fun k => k.inbox = []) c s) (hc : c < s.next)
    (hsends : Sends S fs (s.conns c).stream) (hclosed : (s.conns c).closes ≠ 0) :
    ((s.conns c).calls.map Prod.snd).map some = fs.map (requestFromJson S.json) := by
  have hone := (owned_reachable h.reachable).one c hc
  have hhold : holders s.workers c = 0 := by
    rw [tokens] at hone
    omega
  obtain ⟨-, hdone⟩ := (at_reachable (stable_drained S fs) h hc).1 hhold
  obtain ⟨⟨hi, hpend, -⟩, hp⟩ := hdone (Or.inr ⟨rfl, hclosed⟩) hsends
  obtain ⟨ps, qs, hfs, hps, hqs⟩ := hsends.rest hp
  -- a closed connection has nothing left, so neither have the frames
  have hnil : qs = [] := by
    rw [hi, hpend] at hqs
    cases qs with
    | nil => rfl
    | cons q qs =>
        have hlen := congrArg List.length hqs.1
        simp at hlen
        omega
  rw [hnil, List.append_nil] at hfs
  rw [hfs, hps]

/-- **THE TWO MODES AGREE** on whole frames, as long as no call on the
    connection fails and its hang-up is only taken up when everything sent has
    been read: the frames are executed in order, and when the connection is
    closed all of them have been, as the thread server does.  That they come to
    be executed is `frames_served` for one client, and for any number of clients
    `SearpcEpollPool.epoll_pool_serves`. -/
theorem modes_agree {S : Server σ} {w : σ} {s : State σ} {c : Nat} {fs : List Bytes}
    (h : ReachableBy S w (fun _ => False) (fun k => k.inbox = []) c s) (hc : c < s.next)
    (hsends : Sends S fs (s.conns c).stream) :
    ((s.conns c).calls.map Prod.snd).map some <+: fs.map (requestFromJson S.json)
      ∧ ((s.conns c).closes ≠ 0 →
          ((s.conns c).calls.map Prod.snd).map some = fs.map (requestFromJson S.json)
            ∧ ∀ (env : Env) (junk : Mem) (w' : σ) (n : Nat), NoFail env → fs.length + 1 < n →
                (namedPipeClientHandler S env (4 * n) (.start junk w' (s.conns c).stream)).h.calls
                  = (s.conns c).calls.map Prod.snd) := by
  refine ⟨epoll_calls_inOrder h.reachable hc hsends, fun hclosed => ?_⟩
  have hall := epoll_calls_closed h hc hsends hclosed
  exact ⟨hall, fun env junk w' n hnf hn => thread_calls hsends hall.symm hnf junk w' hn⟩

/-- A request executed by both. -/
theorem modes_agree_one :
    ∃ s : State Unit, ReachableBy echoServer () (fun _ => False) (fun k => k.inbox = []) 0 s
      ∧ (s.conns 0).closes ≠ 0
      ∧ ((s.conns 0).calls.map Prod.snd).map some
          = [oneRequest].map (requestFromJson echoServer.json)
      ∧ (namedPipeClientHandler echoServer .smooth (4 * 3)
          (.start (fill 0) () (s.conns 0).stream)).h.calls = (s.conns 0).calls.map Prod.snd := by
  obtain ⟨s, hs, hnext, hstream, hclosed, -⟩ := frames_served echoServer () sends_oneRequest
  obtain ⟨hcalls, hthread⟩ := (modes_agree hs hnext (hstream ▸ sends_oneRequest)).2 hclosed
  exact ⟨s, hs, hclosed, hcalls, hthread .smooth (fill 0) () 3 noFail_smooth (by decide)⟩

/-- A client that sends a request and hangs up before the listener gets to it is
    not served, though no call fails; the thread server serves it. -/
theorem hangup_loses_request :
    ¬ ∀ (s : State Unit) (fs : List Bytes),
      ReachableBy echoServer () (fun _ => False) (fun _ => True) 0 s → 0 < s.next →
      Sends echoServer fs (s.conns 0).stream → (s.conns 0).closes ≠ 0 →
      ∀ (env : Env) (junk : Mem) (n : Nat), NoFail env → fs.length + 1 < n →
        (namedPipeClientHandler echoServer env (4 * n)
          (.start junk () (s.conns 0).stream)).h.calls = (s.conns 0).calls.map Prod.snd := by
  intro h
  obtain ⟨s, hs, hnext, hstream, hclosed, hcalls⟩ :=
    frames_lost echoServer () (encodeFrame .little oneRequest)
  have hsends : Sends echoServer [oneRequest] (s.conns 0).stream := hstream ▸ sends_oneRequest
  have hthread : (namedPipeClientHandler echoServer .smooth (4 * 3)
      (.start (fill 0) () (s.conns 0).stream)).h.calls = [(ascii "s", ascii "f")] :=
    thread_calls hsends (by decide +kernel) noFail_smooth (fill 0) () (by decide)
  have heq := h s _ hs hnext hsends hclosed .smooth (fill 0) 3 noFail_smooth (by decide)
  rw [hthread, hcalls] at heq
  exact List.cons_ne_nil _ _ heq

end SearpcEpollModes
