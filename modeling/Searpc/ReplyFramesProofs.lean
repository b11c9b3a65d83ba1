import Mathlib.Data.List.Forall2
import Searpc.EpollProofs
import Searpc.SessionProofs

/-! # Reply frames — what the two servers write

    Both servers narrow the length of a reply to 32 bits for the header and
    write the reply itself with the unnarrowed length.  What stands on a
    connection is therefore always the frames of the replies of its calls, in
    order, cut off where the server is (or gave up); but a client, which trusts
    headers, reads them back only while every length fits. -/

namespace SearpcReplyFrames

open ByteMemory Framing JsonValue SearpcJansson SearpcPipeIo SearpcRequest SearpcEpoll
open SearpcThreadServer (Server Handler Run ioStep namedPipeClientHandler afterReadLen
  afterReadBody afterWriteLen afterWriteBody cutLen cutMem handler_turn AtTop atTop_start NoFail
  noFail_smooth echoServer)
open SearpcSession (replies)

variable {σ : Type}

/-! ## What a client makes of a connection -/

/-- Every header announces its reply, and a client that reads header-many bytes
    for each reply gets the replies and nothing else. -/
def Announced (e : Endian) (rs : List Bytes) (out : Bytes) : Prop :=
  (∀ r ∈ rs, u32Value e (u32Bytes e (r.length % 2 ^ 32)) = r.length)
    ∧ readFrames e rs.length out = some (rs, [])

/-- On the frames of the replies this is a matter of their lengths. -/
theorem announced_iff (e : Endian) (rs : List Bytes) :
    Announced e rs (rs.flatMap (encodeFrame e)) ↔ ∀ r ∈ rs, r.length < 2 ^ 32 := by
  rw [Announced, readFrames_iff]
  refine and_iff_right_of_imp (fun h r hr => ?_)
  rw [u32Value_u32Bytes, Nat.mod_mod, Nat.mod_eq_of_lt (h r hr)]

/-! ## The thread server -/

/-- What the registered functions have made of the world. -/
def worldAfter (S : Server σ) (w : σ) (cs : List Call) : σ :=
  cs.foldl (fun w c => (S.call w c.1 c.2).1) w

theorem replies_append (S : Server σ) (w : σ) (cs : List Call) (c : Call) :
    replies S w (cs ++ [c])
      = replies S w cs ++ [(S.call (worldAfter S w cs) c.1 c.2).2] := by
  induction cs generalizing w with
  | nil => rfl
  | cons d cs ih => exact congrArg _ (ih _)

/-- What the handler has still to write where it stands. -/
def Unwritten (e : Endian) (h : Handler σ) (rest : Bytes) : Prop :=
  match h.pc with
  | .readLen => rest = []
  | .readBody => rest = []
  | .writeLen => h.len = h.retStr.length % 2 ^ 32 ∧ rest = encodeFrame e h.retStr
  | .writeBody => rest = h.retStr
  | _ => True

/-- What is written and unwritten are the frames of the replies. -/
def Written (S : Server σ) (w : σ) (r : Run σ) : Prop :=
  r.h.world = worldAfter S w r.h.calls
    ∧ ∃ rest, r.out ++ rest = (replies S w r.h.calls).flatMap (encodeFrame S.endian)
        ∧ Unwritten S.endian r.h rest

theorem written_start (S : Server σ) (junk : Mem) (w : σ) (stream : Bytes) :
    Written S w (.start junk w stream) :=
  ⟨rfl, [], rfl, rfl⟩

/-- A handler that gives up leaves the rest unwritten. -/
theorem Written.closed {S : Server σ} {w : σ} {r r' : Run σ} (h : Written S w r)
    (hw : r'.h.world = r.h.world) (hc : r'.h.calls = r.h.calls) {more rest : Bytes}
    (hout : r'.out = r.out ++ more)
    (hall : r.out ++ rest = (replies S w r.h.calls).flatMap (encodeFrame S.endian))
    (hmore : more <+: rest) (hpc : r'.h.pc = .closed ∨ r'.h.pc = .spinning) :
    Written S w r' := by
  obtain ⟨left, rfl⟩ := hmore
  refine ⟨by rw [hw, hc]; exact h.1, left, ?_, ?_⟩
  · rw [hout, hc, List.append_assoc]
    exact hall
  · rcases hpc with hpc | hpc <;> simp only [Unwritten, hpc]

/-- **ONE TRANSFER CALL** writes a part of what is to be written. -/
theorem written_ioStep (S : Server σ) (env : Env) {w : σ} {r : Run σ} (h : Written S w r) :
    Written S w (ioStep S env r) := by
  obtain ⟨hworld, rest, hall, hrest⟩ := id h
  cases hpc : r.h.pc with
  | readLen =>
      simp only [Unwritten, hpc] at hrest
      subst hrest
      simp only [ioStep, hpc, afterReadLen]
      split_ifs
      · exact h.closed rfl rfl (List.append_nil _).symm hall List.nil_prefix (.inl rfl)
      · exact h.closed rfl rfl (List.append_nil _).symm hall List.nil_prefix (.inl rfl)
      · split
        · exact h.closed rfl rfl (List.append_nil _).symm hall List.nil_prefix (.inr rfl)
        · exact ⟨hworld, [], hall, rfl⟩
  | readBody =>
      simp only [Unwritten, hpc] at hrest
      subst hrest
      simp only [ioStep, hpc, afterReadBody]
      split_ifs
      · exact h.closed rfl rfl (List.append_nil _).symm hall List.nil_prefix (.inl rfl)
      · split
        · exact h.closed rfl rfl (List.append_nil _).symm hall List.nil_prefix (.inl rfl)
        · next service body hdec =>
            refine ⟨?_, encodeFrame S.endian (S.call r.h.world service body).2, ?_, rfl, rfl⟩
            · rw [worldAfter, List.foldl_append, hworld]
              rfl
            · rw [replies_append, List.flatMap_append, ← hall, List.append_nil, ← hworld]
              simp
  | writeLen =>
      simp only [Unwritten, hpc] at hrest
      obtain ⟨hlen, rfl⟩ := hrest
      have hframe : encodeFrame S.endian r.h.retStr
          = u32Bytes S.endian r.h.len ++ r.h.retStr := by
        rw [hlen, u32Bytes_mod]
        rfl
      rw [hframe] at hall
      simp only [ioStep, hpc, afterWriteLen]
      rcases pipeWriteN_spec (env.writes r.nwrites) (u32Bytes S.endian r.h.len) with
        ⟨hret, hpre, -⟩ | ⟨hret, hout⟩
      · rw [if_pos (by rw [hret]; decide)]
        exact h.closed rfl rfl rfl hall (hpre.trans (List.prefix_append _ _)) (.inl rfl)
      · rw [if_neg (by rw [hret]; omega), hout]
        refine ⟨hworld, r.h.retStr, ?_, rfl⟩
        rw [List.append_assoc]
        exact hall
  | writeBody =>
      simp only [Unwritten, hpc] at hrest
      subst hrest
      simp only [ioStep, hpc, afterWriteBody]
      rcases pipeWriteN_spec (env.writes r.nwrites) r.h.retStr with ⟨hret, hpre, -⟩ | ⟨hret, hout⟩
      · rw [if_pos (by rw [hret]; decide)]
        exact h.closed rfl rfl rfl hall hpre (.inl rfl)
      · rw [if_neg (by rw [hret]; omega), hout]
        exact ⟨hworld, [], (List.append_nil _).trans hall, rfl⟩
  | closed =>
      simp only [ioStep, hpc]
      exact h
  | spinning =>
      simp only [ioStep, hpc]
      exact h

/-- **THE THREAD SERVER'S OUTPUT**, whatever the kernel does: the frames of the
    replies, as far as it got. -/
theorem written_handler (S : Server σ) (env : Env) {w : σ} (n : Nat) {r : Run σ}
    (h : Written S w r) : Written S w (namedPipeClientHandler S env n r) := by
  induction n generalizing r with
  | zero => exact h
  | succ n ih => exact ih (written_ioStep S env h)

/-! ## The epoll server -/

/-- A reply is what the call returned, in whatever state of the world. -/
def ReplyTo (S : Server σ) (c : Call) (r : Bytes) : Prop := ∃ w, r = (S.call w c.1 c.2).2

/-- What whoever holds a connection has still to write on it. -/
def Owing : Option WPc → Conn → Bytes → Prop
  | none, k, rest => k.closes = 0 → rest = []
  | some (.writing (.len r) left), _, rest => rest = left ++ r
  | some (.writing .body left), _, rest => rest = left
  | some .fail, _, _ => True
  | some _, _, rest => rest = []

/-- What is written on a connection and owing are the frames of its replies. -/
def Replied (S : Server σ) : ConnProp := fun p k =>
  ∃ rs rest, List.Forall₂ (ReplyTo S) (k.calls.map Prod.snd) rs
    ∧ k.out ++ rest = rs.flatMap (encodeFrame S.endian) ∧ Owing p k rest

/-- What else happens to a connection does not matter. -/
theorem Replied.same {S : Server σ} {p p' : Option WPc} {k k' : Conn} (h : Replied S p k)
    (hc : k'.calls = k.calls) (ho : k'.out = k.out)
    (howe : ∀ rest, Owing p k rest → Owing p' k' rest) : Replied S p' k' := by
  obtain ⟨rs, rest, hrs, hall, hrest⟩ := h
  exact ⟨rs, rest, by rw [hc]; exact hrs, by rw [ho]; exact hall, howe rest hrest⟩

/-- A worker about to leave hands on a connection on which nothing is owing. -/
theorem Replied.position {S : Server σ} {pc : WPc} {k : Conn} (h : Replied S (some pc) k) :
    Replied S (position (some pc)) k := by
  cases pc with
  | tail => exact h.same rfl rfl (fun rest hrest _ => hrest)
  | _ => exact h

/-- After a read: the worker gives up, reads on, or owes the frame of the reply
    to the call it made. -/
theorem replied_resumeRead {S : Server σ} {stage : ReadStage} {l : ReadLoop} {k : Conn}
    (h : Replied S (some (.reading stage l)) k) (ret : Int) (mem : Mem) (w : σ) :
    Replied S (some (resumeRead S ret mem k w stage).1) (resumeRead S ret mem k w stage).2.1 := by
  rcases resumeRead_cases S ret mem k w stage with heq | ⟨-, -, -, heq⟩ | ⟨len, c, -, -, heq⟩
  · rw [heq]
    exact h.same rfl rfl (fun _ _ => trivial)
  · rw [heq]
    exact h.same rfl rfl (fun _ hrest => hrest)
  · rw [heq]
    obtain ⟨rs, rest, hrs, hall, rfl⟩ := h
    refine ⟨rs ++ [(S.call w c.1 c.2).2], _, ?_, ?_, rfl⟩
    · rw [List.map_append]
      exact List.rel_append hrs (.cons ⟨w, rfl⟩ .nil)
    · rw [List.append_nil] at hall
      rw [List.flatMap_append, ← hall, u32Bytes_mod]
      simp [encodeFrame]

/-- A step of a worker writes a part of what is owing. -/
theorem replied_work {S : Server σ} {luck : Luck} {pc : WPc} {pc' : Option WPc} {k k' : Conn}
    {w w' : σ} (h : WorkerStep S luck (pc, k, w) (pc', k', w')) (hr : Replied S (some pc) k) :
    Replied S (position pc') k' := by
  cases h with
  | enter => exact hr.same rfl rfl (fun _ hrest => hrest)
  | read => exact hr.same rfl rfl (fun _ hrest => hrest)
  | readEintr => exact hr.same rfl rfl (fun _ hrest => hrest)
  | @readEof stage l _ _ ret mem hl hi hs ht =>
      have hio : Replied S (some (.reading stage l)) (k.run [.io]) :=
        hr.same rfl rfl (fun _ hrest => hrest)
      exact (replied_resumeRead hio ret mem w).position
  | @readError stage l _ _ ret mem hl ht =>
      have hio : Replied S (some (.reading stage l)) (k.run [.io]) :=
        hr.same rfl rfl (fun _ hrest => hrest)
      exact (replied_resumeRead hio ret mem w).position
  | @readDone stage l _ _ hl =>
      generalize (l.ptr : Int) = ret
      exact (replied_resumeRead hr ret l.mem w).position
  | @write stage left left' _ _ j hj hl ht =>
      obtain rfl : left.drop j = left' := by
        cases j with
        | zero => cases ht
        | succ j => exact WriteTurn.more.inj ht
      obtain ⟨rs, rest, hrs, hall, hrest⟩ := hr
      cases stage with
      | len r =>
          subst hrest
          refine ⟨rs, left.drop j ++ r, hrs, ?_, rfl⟩
          show (k.out ++ left.take j) ++ (left.drop j ++ r) = _
          rw [List.append_assoc, ← List.append_assoc (left.take j), List.take_append_drop]
          exact hall
      | body =>
          rw [show rest = left from hrest] at hall
          refine ⟨rs, left.drop j, hrs, ?_, rfl⟩
          show (k.out ++ left.take j) ++ left.drop j = _
          rw [List.append_assoc, List.take_append_drop]
          exact hall
  | @writeEintr stage left left' _ _ hl ht =>
      injection ht with ht
      subst ht
      cases stage with
      | len r => exact hr.same rfl rfl (fun _ hrest => hrest)
      | body => exact hr.same rfl rfl (fun _ hrest => hrest)
  | writeFail => exact hr.same rfl rfl (fun _ _ => trivial)
  | @writeDone stage =>
      cases stage with
      | len r => exact hr.same rfl rfl (fun _ hrest => hrest)
      | body => exact hr.same rfl rfl (fun _ hrest => hrest)
  | add => exact hr.same rfl rfl (fun _ hrest _ => hrest)
  | addFail => exact hr.same rfl rfl (fun _ _ => trivial)
  | fail =>
      refine hr.same rfl rfl (fun rest _ hopen => ?_)
      have hopen' : k.closes + 1 = 0 := hopen
      cases hopen'
  | tail => exact hr.same rfl rfl (fun _ hrest _ => hrest)

/-- It survives everything that can happen to a connection. -/
theorem stable_replied (S : Server σ) (lucky : Luck → Prop) (hangs : Conn → Prop) :
    Stable S lucky hangs (Replied S) where
  accept _ := ⟨[], [], .nil, rfl, fun _ => rfl⟩
  acceptFail _ _ := ⟨[], [], .nil, rfl, fun _ => rfl⟩
  hangup k hopen h _ _ := h.same rfl rfl (fun _ hrest _ => hrest hopen)
  ready k _ h := h.same rfl rfl (fun _ hrest => hrest)
  start k hopen h := h.same rfl rfl (fun _ hrest => hrest hopen)
  work _ _ _ _ _ _ _ _ _ _ hstep h := replied_work hstep h
  send p k j h := by
    refine h.same rfl rfl (fun rest hrest => ?_)
    cases p with
    | none => exact hrest
    | some pc =>
        cases pc with
        | writing stage left => cases stage <;> exact hrest
        | _ => exact hrest
  shutdown p k _ h := by
    refine h.same rfl rfl (fun rest hrest => ?_)
    cases p with
    | none => exact hrest
    | some pc =>
        cases pc with
        | writing stage left => cases stage <;> exact hrest
        | _ => exact hrest

/-- **THE EPOLL SERVER'S OUTPUT**, in every interleaving: the frames of the
    replies to a connection's calls, as far as its worker got; all of them when
    the connection waits in the epoll set. -/
theorem replied_reachable {S : Server σ} {w : σ} {s : State σ} (h : Reachable S w s) {c : Nat}
    (hc : c < s.next) :
    ∃ rs rest, List.Forall₂ (ReplyTo S) ((s.conns c).calls.map Prod.snd) rs
      ∧ (s.conns c).out ++ rest = rs.flatMap (encodeFrame S.endian)
      ∧ ((s.conns c).registered = true → rest = []) := by
  have hat := at_reachable (stable_replied S _ _) (h.by_any c)
  by_cases hreg : (s.conns c).registered = true
  · obtain ⟨-, -, hhold, hopen⟩ := (owned_reachable h).registered hreg
    obtain ⟨rs, rest, hrs, hall, hrest⟩ := (hat hc).1 hhold
    exact ⟨rs, rest, hrs, hall, fun _ => hrest hopen⟩
  · obtain ⟨p, rs, rest, hrs, hall, -⟩ := hat.exists hc
    exact ⟨rs, rest, hrs, hall, fun h => absurd h hreg⟩

/-! ## Both servers -/

/-- **REPLY FRAMES, EXACTLY**: on every connection of either server the frames of
    the replies are written, in order; and a client that waits for its replies
    reads header-many bytes for each and gets just the replies, if and only if
    every one of them is shorter than `2 ^ 32` bytes. -/
theorem reply_frames_iff (S : Server σ) :
    (∀ (env : Env) (junk : Mem) (w : σ) (stream : Bytes) (n : Nat),
      let r := namedPipeClientHandler S env n (.start junk w stream)
      r.out <+: (replies S w r.h.calls).flatMap (encodeFrame S.endian)
        ∧ (r.h.pc = .readLen → (Announced S.endian (replies S w r.h.calls) r.out
          ↔ ∀ reply ∈ replies S w r.h.calls, reply.length < 2 ^ 32)))
    ∧ ∀ (w : σ) (s : State σ), Reachable S w s → ∀ c < s.next,
      ∃ rs, List.Forall₂ (ReplyTo S) ((s.conns c).calls.map Prod.snd) rs
        ∧ (s.conns c).out <+: rs.flatMap (encodeFrame S.endian)
        ∧ ((s.conns c).registered = true →
          (Announced S.endian rs (s.conns c).out ↔ ∀ reply ∈ rs, reply.length < 2 ^ 32)) := by
  constructor
  · intro env junk w stream n r
    obtain ⟨-, rest, hall, hrest⟩ := written_handler S env n (written_start S junk w stream)
    refine ⟨⟨rest, hall⟩, fun hpc => ?_⟩
    simp only [Unwritten, show (namedPipeClientHandler S env n _).h.pc = _ from hpc] at hrest
    rw [hrest, List.append_nil] at hall
    rw [show r.out = _ from hall]
    exact announced_iff S.endian _
  · intro w s hs c hc
    obtain ⟨rs, rest, hrs, hall, hrest⟩ := replied_reachable hs hc
    refine ⟨rs, hrs, ⟨rest, hall⟩, fun hreg => ?_⟩
    rw [hrest hreg, List.append_nil] at hall
    rw [hall]
    exact announced_iff S.endian rs

/-- A server whose one function answers with `n` bytes. -/
def longServer (n : Nat) : Server Unit where
  endian := .little
  json := textCodec
  call := fun _ _ _ => ((), List.replicate n 0x61)

/-- One request. -/
def oneRequest : Bytes := encodeFrame .little (requestToJson textCodec (ascii "s") (ascii "f"))

/-- A request that decodes is answered, when the kernel fails no call. -/
theorem handler_answers {S : Server σ} {env : Env} (henv : NoFail env) {r : Run σ} (ht : AtTop r)
    {c : Call} (hpos : cutLen S r.stream ≠ 0) (hfit : cutLen S r.stream ≤ 2 ^ 31)
    (hdec : requestFromJson S.json (slice (cutMem S r.h.buf r.stream) (cutLen S r.stream))
      = some c) :
    AtTop (namedPipeClientHandler S env 4 r)
      ∧ (namedPipeClientHandler S env 4 r).h.calls = r.h.calls ++ [c] := by
  rcases handler_turn S env ht with
    ⟨-, -, hstop⟩ | ⟨d, -, -, hd, hcalls, ⟨-, hfail⟩ | ⟨htop, -, -⟩⟩
  · rcases hstop henv with h0 | hbig | hnone
    · exact absurd h0 hpos
    · exact absurd hbig (Nat.not_lt.mpr hfit)
    · rw [hdec] at hnone
      cases hnone
  · exact absurd henv hfail
  · rw [hdec] at hd
    obtain rfl := Option.some.inj hd
    exact ⟨htop, hcalls⟩

/-- What is read does not depend on the functions. -/
theorem cutMem_endian {S S' : Server σ} (h : S.endian = S'.endian) (buf : Mem) (s : Bytes) :
    cutLen S s = cutLen S' s ∧ cutMem S buf s = cutMem S' buf s := by
  simp only [cutMem, cutLen, h, and_self]

/-- A handler that has answered one request. -/
theorem longServer_answers (n : Nat) :
    (namedPipeClientHandler (longServer n) .smooth 4 (.start (fill 0) () oneRequest)).h.pc
        = .readLen
      ∧ replies (longServer n) () (namedPipeClientHandler (longServer n) .smooth 4
          (.start (fill 0) () oneRequest)).h.calls = [List.replicate n 0x61] := by
  obtain ⟨hlen, hmem⟩ :=
    cutMem_endian (show (longServer n).endian = echoServer.endian from rfl) (fill 0) oneRequest
  have hpos : cutLen (longServer n) oneRequest ≠ 0 ∧ cutLen (longServer n) oneRequest ≤ 2 ^ 31 := by
    rw [hlen]
    decide +kernel
  have hdec : requestFromJson (longServer n).json
      (slice (cutMem (longServer n) (fill 0) oneRequest) (cutLen (longServer n) oneRequest))
        = some (ascii "s", ascii "f") := by
    rw [hlen, hmem, show (longServer n).json = echoServer.json from rfl]
    decide +kernel
  obtain ⟨htop, hcalls⟩ :=
    handler_answers noFail_smooth (atTop_start (fill 0) () oneRequest) hpos.1 hpos.2 hdec
  refine ⟨htop.pc, ?_⟩
  rw [hcalls]
  rfl

/-- A reply of `2 ^ 32` bytes is announced as empty. -/
theorem reply_frame_wraps :
    ¬ ∀ (S : Server Unit) (stream : Bytes) (n : Nat),
        (namedPipeClientHandler S .smooth n (.start (fill 0) () stream)).h.pc = .readLen →
        Announced S.endian
          (replies S () (namedPipeClientHandler S .smooth n (.start (fill 0) () stream)).h.calls)
          (namedPipeClientHandler S .smooth n (.start (fill 0) () stream)).out := by
  intro h
  obtain ⟨hpc, hreplies⟩ := longServer_answers (2 ^ 32)
  have hann := (h (longServer (2 ^ 32)) oneRequest 4 hpc).1
  rw [hreplies] at hann
  have hhead := hann _ List.mem_cons_self
  rw [u32Value_u32Bytes, List.length_replicate] at hhead
  exact absurd hhead (by decide)

end SearpcReplyFrames
