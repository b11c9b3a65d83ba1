import Searpc.EpollFramesProofs

/-! # Serving over epoll — the runs in which every frame is executed

    A frame that has arrived can be carried from the epoll set through a worker
    and back.  So every sequence of decodable frames has a run in which all of
    them are executed before the connection is closed.

    The same steps show how frames get lost: a client that hangs up behind its
    frames has its connection closed by the listener before anybody reads. -/

namespace SearpcEpollServe

open ByteMemory Framing JsonValue SearpcJansson SearpcPipeIo SearpcRequest SearpcEpoll
open SearpcEpollFrames (Sends)
open SearpcThreadServer (Server)

variable {σ : Type}

/-! ## One worker -/

/-- A worker waits for its client: it wants bytes and neither bytes nor EOF
    have come. -/
def Waits (pc : WPc) (k : Conn) : Prop :=
  ∃ stage l, pc = .reading stage l ∧ 0 < l.nleft ∧ k.inbox = [] ∧ k.shut = false

/-- Steps of one worker without a failure. -/
inductive WorkerRun (S : Server σ) : WPc × Conn × σ → WPc × Conn × σ → Prop where
  | refl {x : WPc × Conn × σ} : WorkerRun S x x
  | step {x y : WPc × Conn × σ} {pc : WPc} {k : Conn} {w : σ} : WorkerRun S x y →
      WorkerStep S .fine y (some pc, k, w) → WorkerRun S x (pc, k, w)

theorem WorkerRun.trans {S : Server σ} {x y z : WPc × Conn × σ} (h : WorkerRun S x y)
    (h' : WorkerRun S y z) : WorkerRun S x z := by
  induction h' with
  | refl => exact h
  | step _ hstep ih => exact .step ih hstep

/-- What a run took off the arrived bytes, and the calls it made. -/
structure Took (k k' : Conn) (bs : Bytes) (cs : List (Nat × Call)) : Prop where
  consumed : k'.consumed = k.consumed ++ bs
  inbox    : k.inbox = bs ++ k'.inbox
  pending  : k'.pending = k.pending
  shut     : k'.shut = k.shut
  calls    : k'.calls = k.calls ++ cs

theorem Took.refl (k : Conn) : Took k k [] [] :=
  ⟨(List.append_nil _).symm, rfl, rfl, rfl, (List.append_nil _).symm⟩

theorem Took.trans {k k' k'' : Conn} {bs bs' : Bytes} {cs cs' : List (Nat × Call)}
    (h : Took k k' bs cs) (h' : Took k' k'' bs' cs') : Took k k'' (bs ++ bs') (cs ++ cs') := by
  refine ⟨?_, ?_, h'.pending.trans h.pending, h'.shut.trans h.shut, ?_⟩
  · rw [h'.consumed, h.consumed, List.append_assoc]
  · rw [h.inbox, h'.inbox, List.append_assoc]
  · rw [h'.calls, h.calls, List.append_assoc]

/-- Bytes that are there can be read in one go. -/
theorem run_read (S : Server σ) (stage : ReadStage) (mem : Mem) {k : Conn} {bs rest : Bytes} (w : σ)
    (hpos : 0 < bs.length) (hi : k.inbox = bs ++ rest) :
    ∃ k', WorkerRun S (.reading stage (.enter mem bs.length), k, w)
        (.reading stage ⟨store mem 0 bs, bs.length, 0⟩, k', w)
      ∧ Took k k' bs [] := by
  have htake : k.inbox.take bs.length = bs := by rw [hi, List.take_left]
  have hdrop : k.inbox.drop bs.length = rest := by rw [hi, List.drop_left]
  have hne : bs ≠ [] := List.ne_nil_of_length_pos hpos
  have hturn : readTurn (.enter mem bs.length) (.data (k.inbox.take bs.length))
      = .more ⟨store mem 0 bs, bs.length, 0⟩ := by
    rw [htake, readTurn_data _ hne]
    simp [ReadLoop.enter]
  refine ⟨_, .step .refl (.read hpos (Nat.le_refl _) ?_ hturn), ?_, ?_, rfl, rfl, ?_⟩
  · rw [hi, List.length_append]
    exact Nat.le_add_right _ _
  · show k.consumed ++ k.inbox.take bs.length = k.consumed ++ bs
    rw [htake]
  · show k.inbox = bs ++ k.inbox.drop bs.length
    rw [hdrop, hi]
  · exact (List.append_nil _).symm

/-- What is to be written can be written in one go. -/
theorem run_write (S : Server σ) (stage : WriteStage) (left : Bytes) (k : Conn) (w : σ) :
    ∃ k', WorkerRun S (.writing stage left, k, w) (resumeWrite stage, k', w)
      ∧ Took k k' [] [] := by
  cases left with
  | nil => exact ⟨k, .step .refl .writeDone, .refl k⟩
  | cons b bs =>
      have hturn : writeTurn (b :: bs) (.wrote (b :: bs).length) = .more [] := by
        show WriteTurn.more ((b :: bs).drop (b :: bs).length) = .more []
        rw [List.drop_length]
      refine ⟨_, .step (.step .refl (.write (Nat.succ_pos _) (Nat.le_refl _) hturn)) .writeDone, ?_⟩
      exact ⟨(List.append_nil _).symm, rfl, rfl, rfl, (List.append_nil _).symm⟩

/-- A header that is there is read. -/
theorem run_header (S : Server σ) {k : Conn} {f rest : Bytes} (w : σ)
    (hi : k.inbox = encodeFrame S.endian f ++ rest) (hpos : 0 < f.length)
    (hlt : f.length < 2 ^ 32) :
    ∃ k', WorkerRun S (.enter, k, w)
        (.reading (.body f.length) (.enter (fill 0) f.length), k', w)
      ∧ Took k k' (u32Bytes S.endian f.length) [] := by
  have hhdr : (u32Bytes S.endian f.length).length = 4 := u32Bytes_length S.endian f.length
  have hi' : (k.run [.deref, .deref]).inbox = u32Bytes S.endian f.length ++ (f ++ rest) := by
    show k.inbox = _
    rw [hi, encodeFrame, List.append_assoc]
  obtain ⟨k', hrun, htook⟩ := run_read S .len (wordMem S.endian 0) w (by rw [hhdr]; omega) hi'
  have hword : memWord S.endian (store (wordMem S.endian 0) 0 (u32Bytes S.endian f.length))
      = f.length := by
    rw [memWord_store_full S.endian _ hhdr, u32Value_u32Bytes, Nat.mod_eq_of_lt hlt]
  have hres : resumeRead S ((u32Bytes S.endian f.length).length : Nat)
      (store (wordMem S.endian 0) 0 (u32Bytes S.endian f.length)) k' w .len
        = (.reading (.body f.length) (.enter (fill 0) f.length), k', w) := by
    simp only [resumeRead, hword]
    rw [if_neg (by omega), if_neg (by omega)]
  have hrun' := WorkerRun.step hrun (.readDone rfl)
  simp only [hres] at hrun'
  rw [hhdr] at hrun'
  have henter : WorkerRun S (.enter, k, w)
      (.reading .len (.enter (wordMem S.endian 0) 4), k.run [.deref, .deref], w) :=
    .step .refl .enter
  exact ⟨k', henter.trans hrun',
    ⟨htook.consumed, htook.inbox, htook.pending, htook.shut, htook.calls⟩⟩

/-- A body that is there is read, and its request is executed. -/
theorem run_body (S : Server σ) {k : Conn} {f rest : Bytes} {c : Call} (w : σ)
    (hi : k.inbox = f ++ rest) (hpos : 0 < f.length) (hlt : f.length < 2 ^ 31)
    (hdec : requestFromJson S.json f = some c) :
    ∃ k', WorkerRun S (.reading (.body f.length) (.enter (fill 0) f.length), k, w)
        (.writing (.len (S.call w c.1 c.2).2)
          (u32Bytes S.endian ((S.call w c.1 c.2).2.length % 2 ^ 32)), k', (S.call w c.1 c.2).1)
      ∧ Took k k' f [((k.consumed ++ f).length, c)] := by
  obtain ⟨k', hrun, htook⟩ := run_read S (.body f.length) (fill 0) w hpos hi
  have hret : ¬ ((f.length : Nat) : Int).bmod (2 ^ 32) < 0 := by
    rw [Int.bmod_eq_of_le_mul_two (by omega) (by omega)]
    omega
  have hres : resumeRead S (f.length : Nat) (store (fill 0) 0 f) k' w (.body f.length)
      = (.writing (.len (S.call w c.1 c.2).2)
          (u32Bytes S.endian ((S.call w c.1 c.2).2.length % 2 ^ 32)),
        { k' with calls := k'.calls ++ [(k'.consumed.length, c)] }, (S.call w c.1 c.2).1) := by
    simp only [resumeRead, slice_store_eq (fill 0) (rfl : f.length = f.length), hdec]
    rw [if_neg hret]
  have hrun' := WorkerRun.step hrun (.readDone rfl)
  simp only [hres] at hrun'
  refine ⟨_, hrun', htook.consumed, htook.inbox, htook.pending, htook.shut, ?_⟩
  show k'.calls ++ [(k'.consumed.length, c)] = k.calls ++ [((k.consumed ++ f).length, c)]
  rw [htook.calls, htook.consumed, List.append_nil]

/-- A reply is written and the connection put back. -/
theorem run_reply (S : Server σ) (retStr left : Bytes) (k : Conn) (w : σ) :
    ∃ k', WorkerRun S (.writing (.len retStr) left, k, w) (.tail, k', w) ∧ Took k k' [] []
      ∧ k'.registered = true := by
  obtain ⟨k₁, hrun₁, htook₁⟩ := run_write S (.len retStr) left k w
  obtain ⟨k₂, hrun₂, htook₂⟩ := run_write S .body retStr k₁ w
  have htook := htook₁.trans htook₂
  exact ⟨k₂.run [.ctlAdd], .step (hrun₁.trans hrun₂) .add,
    ⟨htook.consumed, htook.inbox, htook.pending, htook.shut, htook.calls⟩, rfl⟩

/-- **A FRAME IS SERVED**: from the entry of the handler to its way out. -/
theorem run_serve (S : Server σ) {k : Conn} {f rest : Bytes} {c : Call} (w : σ)
    (hi : k.inbox = encodeFrame S.endian f ++ rest) (hpos : 0 < f.length)
    (hlt : f.length < 2 ^ 31) (hdec : requestFromJson S.json f = some c) :
    ∃ k' w', WorkerRun S (.enter, k, w) (.tail, k', w')
      ∧ Took k k' (encodeFrame S.endian f) [((k.consumed ++ encodeFrame S.endian f).length, c)]
      ∧ k'.registered = true := by
  obtain ⟨k₁, hrun₁, htook₁⟩ := run_header S w hi hpos (by omega)
  have hi₁ : k₁.inbox = f ++ rest := by
    have h := htook₁.inbox
    rw [hi, encodeFrame, List.append_assoc] at h
    exact (List.append_cancel_left h).symm
  obtain ⟨k₂, hrun₂, htook₂⟩ := run_body S w hi₁ hpos hlt hdec
  obtain ⟨k₃, hrun₃, htook₃, hreg⟩ := run_reply S (S.call w c.1 c.2).2
    (u32Bytes S.endian ((S.call w c.1 c.2).2.length % 2 ^ 32)) k₂ (S.call w c.1 c.2).1
  have htook := (htook₁.trans htook₂).trans htook₃
  rw [htook₁.consumed, List.append_assoc] at htook
  refine ⟨k₃, _, (hrun₁.trans hrun₂).trans hrun₃, ?_, hreg⟩
  simpa [encodeFrame] using htook

/-! ## Runs of the server -/

section Runs

variable {S : Server σ} {w : σ} {lucky : Luck → Prop} {hangs : Conn → Prop} {c : Nat}
  {s t : State σ}

/-- A worker's run is a run of the server. -/
theorem ReachableBy.worker (h : ReachableBy S w lucky hangs c s) {d : Nat} {pc : WPc}
    {pre post : List Worker} (hw : s.workers = pre ++ ⟨d, pc⟩ :: post) {x : WPc × Conn × σ}
    (hr : WorkerRun S (pc, s.conns d, s.world) x) :
    ReachableBy S w lucky hangs c
      { s.set d x.2.1 with workers := pre ++ ⟨d, x.1⟩ :: post, world := x.2.2 } := by
  -- by induction along the worker's run; each of its steps sets `d` once more
  generalize hy : (pc, s.conns d, s.world) = y at hr
  induction hr with
  | refl =>
      subst hy
      show ReachableBy S w lucky hangs c
        { s.set d (s.conns d) with workers := pre ++ ⟨d, pc⟩ :: post, world := s.world }
      rw [State.set_self, ← hw]
      exact h
  | @step y pc' k' w' _ hstep ih =>
      have hconn : (s.set d y.2.1).conns d = y.2.1 := s.set_same d y.2.1
      have hset : (s.set d y.2.1).set d k' = s.set d k' := s.set_set d y.2.1 k'
      have hnext := @Step.work σ S
        { s.set d y.2.1 with workers := pre ++ ⟨d, y.1⟩ :: post, world := y.2.2 } ⟨d, y.1⟩ pre post
        .fine pc' k' w' rfl (by rw [hconn]; exact hstep)
      refine ih.quiet ?_
      rw [← hset]
      exact hnext

/-- Connection `c` of a client that sends `stream` is in the epoll set with
    `inbox` still to be read, and nobody is busy. -/
structure Idle (s : State σ) (c : Nat) (stream inbox : Bytes) : Prop where
  next       : c < s.next
  batch      : s.batch = []
  queue      : s.queue = []
  workers    : s.workers = []
  registered : (s.conns c).registered = true
  shut       : (s.conns c).shut = false
  pending    : (s.conns c).pending = []
  inbox      : (s.conns c).inbox = inbox
  stream     : (s.conns c).stream = stream

/-- A client connects and sends everything. -/
theorem idle_accept (S : Server σ) (w : σ) (lucky : Luck → Prop) (hangs : Conn → Prop)
    (stream : Bytes) :
    ∃ s, ReachableBy S w lucky hangs 0 s ∧ Idle s 0 stream stream ∧ (s.conns 0).calls = [] := by
  have h₀ : ReachableBy S w lucky hangs 0 (.start w) := .start
  have h₁ := h₀.quiet (@Step.wait σ S _ [.listen] rfl List.nodup_nil (by simp))
  have h₂ := h₁.quiet (.accept rfl stream)
  have h₃ := h₂.quiet (.acceptDone rfl)
  have h₄ := h₃.quiet (.send (c := 0) (j := stream.length) Nat.one_pos)
  refine ⟨_, h₄, ⟨Nat.one_pos, rfl, rfl, rfl, ?_, ?_, ?_, ?_, ?_⟩, ?_⟩
  all_goals
    simp [State.set, State.start, Conn.accepted, Conn.run, Op.apply, Conn.stream]

/-- The frame in front is served and the connection idle again. -/
theorem idle_serve (h : ReachableBy S w lucky hangs c s) {stream f rest : Bytes}
    (hidle : Idle s c stream (encodeFrame S.endian f ++ rest)) (hpos : 0 < f.length)
    (hlt : f.length < 2 ^ 31) {r : Call} (hdec : requestFromJson S.json f = some r) :
    ∃ t, ReachableBy S w lucky hangs c t ∧ Idle t c stream rest
      ∧ (t.conns c).calls.map Prod.snd = (s.conns c).calls.map Prod.snd ++ [r] := by
  -- reported, queued, started, served, done
  have h₁ := h.quiet (@Step.wait σ S s [.conn c false] hidle.batch (by simp [eventConns]) (by
    rintro c' hup hmem
    obtain ⟨rfl, rfl⟩ := Event.conn.inj (List.mem_singleton.mp hmem)
    exact ⟨hidle.registered, fun hup => absurd hup Bool.false_ne_true⟩))
  have h₂ := h₁.quiet (.ready rfl)
  have h₃ := h₂.quiet (@Step.start σ S _ c s.queue [] rfl)
  have hconn : (s.set c ((s.conns c).run [.deref, .ctlDel])).conns c
      = (s.conns c).run [.deref, .ctlDel] := s.set_same c _
  obtain ⟨k', w', hrun, htook, hreg⟩ := run_serve S s.world
    (show ((s.conns c).run [.deref, .ctlDel]).inbox = _ from hidle.inbox) hpos hlt hdec
  rw [← hconn] at hrun
  have h₄ := ReachableBy.worker h₃
    (show (_ : List Worker) = s.workers ++ ⟨c, .enter⟩ :: [] from rfl) hrun
  have h₅ := h₄.quiet (@Step.finish σ S _ ⟨c, .tail⟩ s.workers [] .fine k' w' rfl (by
    rw [State.set_same]
    exact .tail))
  refine ⟨_, h₅, ⟨hidle.next, rfl, ?_, ?_, ?_, ?_, ?_, ?_, ?_⟩, ?_⟩
  · show s.queue ++ [] = []
    rw [hidle.queue, List.append_nil]
  · show s.workers ++ [] = []
    rw [hidle.workers, List.append_nil]
  all_goals
    rw [State.set_same]
  · exact hreg
  · exact htook.shut.trans hidle.shut
  · exact htook.pending.trans hidle.pending
  · exact (List.append_cancel_left (htook.inbox.symm.trans hidle.inbox))
  · rw [Conn.stream, htook.consumed, htook.pending]
    have hinbox : (s.conns c).inbox = encodeFrame S.endian f ++ k'.inbox := htook.inbox
    rw [← hidle.stream, Conn.stream, hinbox, List.append_assoc _ (encodeFrame S.endian f)]
    rfl
  · rw [htook.calls, List.map_append]
    rfl

/-- The client hangs up and the listener closes the connection. -/
theorem idle_hangup (h : ReachableBy S w lucky hangs c s) {stream inbox : Bytes}
    (hidle : Idle s c stream inbox) (hhangs : ∀ k : Conn, k.inbox = inbox → hangs k) :
    ∃ t, ReachableBy S w lucky hangs c t ∧ c < t.next ∧ (t.conns c).stream = stream
      ∧ (t.conns c).closes ≠ 0 ∧ (t.conns c).calls = (s.conns c).calls := by
  -- the client hangs up while its connection is in the epoll set
  have h₁ := h.quiet (.shutdown hidle.next hidle.pending)
  have h₂ := h₁.quiet (@Step.wait σ S _ [.conn c true] hidle.batch (by simp [eventConns]) (by
    rintro c' hup hmem
    obtain ⟨rfl, rfl⟩ := Event.conn.inj (List.mem_singleton.mp hmem)
    rw [s.set_same]
    exact ⟨hidle.registered, fun _ => rfl⟩))
  have h₃ := ReachableBy.step h₂ (.hangup rfl) (.of_hangup (hhangs _ (by
    rw [s.set_same]
    exact hidle.inbox)))
  refine ⟨_, h₃, hidle.next, ?_, ?_, ?_⟩
  all_goals
    rw [State.set_same, State.set_same]
  · exact hidle.stream
  · exact Nat.succ_ne_zero _
  · rfl

/-- All the frames are served. -/
theorem idle_serve_all {stream : Bytes} :
    ∀ (fs : List Bytes) {s : State σ}, ReachableBy S w lucky hangs c s →
      Idle s c stream (fs.flatMap (encodeFrame S.endian)) →
      (∀ f ∈ fs, 0 < f.length ∧ f.length < 2 ^ 31 ∧ (requestFromJson S.json f).isSome) →
      ∃ t, ReachableBy S w lucky hangs c t ∧ Idle t c stream []
        ∧ ((t.conns c).calls.map Prod.snd).map some
          = ((s.conns c).calls.map Prod.snd).map some ++ fs.map (requestFromJson S.json) := by
  intro fs
  induction fs with
  | nil => exact fun h hidle _ => ⟨_, h, hidle, (List.append_nil _).symm⟩
  | cons f fs ih =>
      intro s h hidle hgood
      obtain ⟨hpos, hlt, hdec⟩ := hgood f List.mem_cons_self
      obtain ⟨r, hr⟩ := Option.isSome_iff_exists.mp hdec
      obtain ⟨t, ht, hidle', hcalls⟩ := idle_serve h hidle hpos hlt hr
      obtain ⟨u, hu, hdone, hall⟩ := ih ht hidle' (fun g hg => hgood g (List.mem_cons_of_mem f hg))
      refine ⟨u, hu, hdone, ?_⟩
      have hhead : (f :: fs).map (requestFromJson S.json)
          = [r].map some ++ fs.map (requestFromJson S.json) := by
        rw [List.map_cons, hr]
        rfl
      rw [hall, hcalls, hhead, List.map_append, List.append_assoc]

end Runs

/-- **NOTHING NEED BE LOST**: whatever whole frames a client sends, there is a
    run without failures, the hang-up taken up behind the last frame, in which
    all of them are executed before its connection is closed. -/
theorem frames_served (S : Server σ) (w : σ) {fs : List Bytes} {stream : Bytes}
    (h : Sends S fs stream) :
    ∃ s, ReachableBy S w (fun _ => False) (fun k => k.inbox = []) 0 s ∧ 0 < s.next
      ∧ (s.conns 0).stream = stream ∧ (s.conns 0).closes ≠ 0
      ∧ ((s.conns 0).calls.map Prod.snd).map some = fs.map (requestFromJson S.json) := by
  obtain ⟨s, hs, hidle, hcalls⟩ := idle_accept S w (fun _ => False) (fun k => k.inbox = []) stream
  have hidle' : Idle s 0 stream (fs.flatMap (encodeFrame S.endian)) := h.1 ▸ hidle
  obtain ⟨t, ht, hdone, hall⟩ := idle_serve_all fs hs hidle' h.2
  obtain ⟨u, hu, hnext, hstream, hclosed, hsame⟩ := idle_hangup ht hdone (fun _ hi => hi)
  refine ⟨u, hu, hnext, hstream, hclosed, ?_⟩
  rw [hsame, hall, hcalls]
  rfl

/-- **EVERYTHING MAY BE LOST**: whatever a client sends, there is a run without
    failures in which its connection is closed before anybody reads. -/
theorem frames_lost (S : Server σ) (w : σ) (stream : Bytes) :
    ∃ s, ReachableBy S w (fun _ => False) (fun _ => True) 0 s ∧ 0 < s.next
      ∧ (s.conns 0).stream = stream ∧ (s.conns 0).closes ≠ 0 ∧ (s.conns 0).calls = [] := by
  obtain ⟨s, hs, hidle, hcalls⟩ := idle_accept S w (fun _ => False) (fun _ => True) stream
  obtain ⟨t, ht, hnext, hstream, hclosed, hsame⟩ := idle_hangup hs hidle (fun _ _ => trivial)
  exact ⟨t, ht, hnext, hstream, hclosed, hsame.trans hcalls⟩

end SearpcEpollServe
