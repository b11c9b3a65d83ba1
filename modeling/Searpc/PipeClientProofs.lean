import Searpc.FramingProofs
import Searpc.PipeIoProofs
import Searpc.RequestProofs

/-! # The client end — `searpc_named_pipe_send`

    One call of the client transport: the length and the text of the request
    go out, a length and that many bytes come back.  A single `guint32 len`
    serves both directions: when the reply header is cut short by EOF, the
    bytes that did not arrive keep the REQUEST's length.

    As for the server, each transfer call has a resume function
    (`afterWriteLen`, …), so that the same code can be run against a script of
    kernel events here and interleaved with a server elsewhere. -/

namespace SearpcPipeClient

open ByteMemory Framing JsonValue SearpcJansson SearpcPipeIo SearpcRequest

/-! ## The sender -/

/-- Where the sender stands: inside one of its four transfer calls, or back. -/
inductive Pc where
  | writeLen
  | writeBody
  | readLen
  | readBody
  | done
deriving DecidableEq, Repr

/-- The locals of `searpc_named_pipe_send`; `ret` is the buffer returned and
    `*ret_len`, absent for `NULL`. -/
structure Sender where
  pc      : Pc
  jsonStr : Bytes
  len     : Nat
  buf     : Mem
  ret     : Option (Bytes × Nat)

/-- The sender before its first transfer; `junk` is what `g_malloc` will hand
    out. -/
def Sender.start (J : Jansson) (junk : Mem) (service fcallStr : Bytes) : Sender where
  pc := .writeLen
  jsonStr := requestToJson J service fcallStr
  len := (cstr (requestToJson J service fcallStr)).length % 2 ^ 32
  buf := junk
  ret := none

/-- `return NULL`. -/
def Sender.fail (c : Sender) : Sender := { c with pc := .done, ret := none }

/-- After `pipe_write_n(client->pipe_fd, &len, sizeof(guint32))`. -/
def afterWriteLen (c : Sender) (ret : Int) : Sender :=
  if ret < 0 then c.fail else { c with pc := .writeBody }

/-- After `pipe_write_n(client->pipe_fd, json_str, len)`. -/
def afterWriteBody (c : Sender) (ret : Int) : Sender :=
  if ret < 0 then c.fail else { c with pc := .readLen }

/-- After `pipe_read_n(client->pipe_fd, &len, sizeof(guint32))`. -/
def afterReadLen (e : Endian) (c : Sender) (ret : Int) (mem : Mem) : Sender :=
  if ret < 0 then c.fail else { c with len := memWord e mem, pc := .readBody }

/-- After `pipe_read_n(client->pipe_fd, buf, len)`.  `g_malloc(0)` is `NULL`,
    so an empty reply comes back as no reply. -/
def afterReadBody (c : Sender) (ret : Int) (mem : Mem) : Sender :=
  if ret < 0 then c.fail
  else
    { c with
      buf := mem
      ret := if c.len = 0 then none else some (slice mem c.len, c.len)
      pc := .done }

/-! ## A call against a script of kernel events -/

/-- The sender with its connection: the bytes the server will send before EOF
    or an error, and the bytes written. -/
structure Run where
  c       : Sender
  stream  : Bytes
  out     : Bytes
  nreads  : Nat
  nwrites : Nat

/-- One transfer call and what the sender does with its result. -/
def ioStep (e : Endian) (env : Env) (r : Run) : Run :=
  match r.c.pc with
  | .writeLen =>
      let q := pipeWriteN (env.writes r.nwrites) (u32Bytes e r.c.len)
      { r with c := afterWriteLen r.c q.ret, out := r.out ++ q.out, nwrites := r.nwrites + 1 }
  | .writeBody =>
      let q := pipeWriteN (env.writes r.nwrites) (r.c.jsonStr.take r.c.len)
      { r with c := afterWriteBody r.c q.ret, out := r.out ++ q.out, nwrites := r.nwrites + 1 }
  | .readLen =>
      let q := pipeReadN (env.reads r.nreads) r.stream (wordMem e r.c.len) 4
      { r with c := afterReadLen e r.c q.ret q.mem, stream := q.rest, nreads := r.nreads + 1 }
  | .readBody =>
      let q := pipeReadN (env.reads r.nreads) r.stream r.c.buf r.c.len
      { r with c := afterReadBody r.c q.ret q.mem, stream := q.rest, nreads := r.nreads + 1 }
  | .done => r

/-- `searpc_named_pipe_send` on a connection on which the server answers
    `reply`: four transfer calls, of which the first that fails is the last. -/
def searpcNamedPipeSend (e : Endian) (J : Jansson) (env : Env) (junk : Mem)
    (service fcallStr reply : Bytes) : Run :=
  ioStep e env (ioStep e env (ioStep e env (ioStep e env
    ⟨.start J junk service fcallStr, reply, [], 0, 0⟩)))

/-- The buffer returned and `*ret_len`. -/
def Run.ret (r : Run) : Option (Bytes × Nat) := r.c.ret

/-! ## What a call returns -/

/-- The length the sender takes from a possibly cut reply header: the bytes
    that did not arrive are those of the request's length. -/
def replyLen (e : Endian) (reqLen : Nat) (reply : Bytes) : Nat :=
  memWord e (store (wordMem e reqLen) 0 (reply.take 4))

/-- What the sender returns when no transfer fails. -/
def replyRead (e : Endian) (reqLen : Nat) (junk : Mem) (reply : Bytes) :
    Option (Bytes × Nat) :=
  if replyLen e reqLen reply = 0 then none
  else some (slice (store junk 0 ((reply.drop 4).take (replyLen e reqLen reply)))
    (replyLen e reqLen reply), replyLen e reqLen reply)

theorem ioStep_done (e : Endian) (env : Env) {r : Run} (h : r.c.pc = .done) :
    ioStep e env r = r := by
  simp only [ioStep, h]

/-- The last transfer: the body comes in, or the call fails. -/
theorem ioStep_readBody (e : Endian) (env : Env) {r : Run} (h : r.c.pc = .readBody) :
    (ioStep e env r).ret = none
    ∨ (ioStep e env r).ret
        = (if r.c.len = 0 then none
          else some (slice (store r.c.buf 0 (r.stream.take r.c.len)) r.c.len, r.c.len)) := by
  simp only [ioStep, h]
  rcases pipeReadN_spec (env.reads r.nreads) r.stream r.c.buf r.c.len with
    ⟨hret, -⟩ | ⟨hret, hmem, -⟩
  · left
    simp only [afterReadBody, Run.ret, hret]
    rfl
  · right
    have hnn : ¬ ((pipeReadN (env.reads r.nreads) r.stream r.c.buf r.c.len).ret < 0) := by
      rw [hret]
      omega
    simp only [afterReadBody, Run.ret, if_neg hnn, hmem]

/-- From the reply header on. -/
theorem ioStep_readLen (e : Endian) (env : Env) {r : Run} (h : r.c.pc = .readLen) :
    (ioStep e env (ioStep e env r)).ret = none
    ∨ (ioStep e env (ioStep e env r)).ret = replyRead e r.c.len r.c.buf r.stream := by
  rcases pipeReadN_spec (env.reads r.nreads) r.stream (wordMem e r.c.len) 4 with
    ⟨hret, -⟩ | ⟨hret, hmem, hrest⟩
  · have hd : (ioStep e env r).c = r.c.fail := by
      simp only [ioStep, h, afterReadLen, hret]
      rfl
    rw [ioStep_done e env (show (ioStep e env r).c.pc = .done by rw [hd]; rfl)]
    exact Or.inl (by rw [Run.ret, hd]; rfl)
  · have hnn : ¬ ((pipeReadN (env.reads r.nreads) r.stream (wordMem e r.c.len) 4).ret < 0) := by
      rw [hret]
      omega
    have hc : (ioStep e env r).c
        = { r.c with len := replyLen e r.c.len r.stream, pc := .readBody } := by
      simp only [ioStep, h, afterReadLen, if_neg hnn, hmem]
      rfl
    have hs : (ioStep e env r).stream = r.stream.drop 4 := by
      simp only [ioStep, h, hrest]
    rcases ioStep_readBody e env (r := ioStep e env r) (by rw [hc]) with hn | hv
    · exact Or.inl hn
    · rw [hc, hs] at hv
      exact Or.inr hv

/-- The reads write nothing. -/
theorem ioStep_read_out (e : Endian) (env : Env) {r : Run}
    (h : r.c.pc = .readLen ∨ r.c.pc = .readBody ∨ r.c.pc = .done) :
    (ioStep e env r).out = r.out ∧ ((ioStep e env r).c.pc = .readBody
      ∨ (ioStep e env r).c.pc = .done) := by
  rcases h with h | h | h
  · refine ⟨by simp only [ioStep, h], ?_⟩
    simp only [ioStep, h, afterReadLen]
    split
    · exact Or.inr rfl
    · exact Or.inl rfl
  · refine ⟨by simp only [ioStep, h], Or.inr ?_⟩
    simp only [ioStep, h, afterReadBody]
    split
    · rfl
    · rfl
  · rw [ioStep_done e env h]
    exact ⟨rfl, Or.inr h⟩

/-- The length goes out whole, or the call fails. -/
theorem ioStep_writeLen (e : Endian) (env : Env) {r : Run} (h : r.c.pc = .writeLen) :
    (ioStep e env r).c = r.c.fail
    ∨ ((ioStep e env r).c = { r.c with pc := .writeBody } ∧ (ioStep e env r).stream = r.stream
      ∧ (ioStep e env r).out = r.out ++ u32Bytes e r.c.len) := by
  simp only [ioStep, h]
  rcases pipeWriteN_spec (env.writes r.nwrites) (u32Bytes e r.c.len) with
    ⟨hret, -, -⟩ | ⟨hret, hout⟩
  · left
    simp only [afterWriteLen, hret]
    rfl
  · right
    have hnn : ¬ ((pipeWriteN (env.writes r.nwrites) (u32Bytes e r.c.len)).ret < 0) := by
      rw [hret]
      omega
    simp only [afterWriteLen, if_neg hnn, hout, and_self]

/-- The text goes out whole, or the call fails. -/
theorem ioStep_writeBody (e : Endian) (env : Env) {r : Run} (h : r.c.pc = .writeBody) :
    (ioStep e env r).c = r.c.fail
    ∨ ((ioStep e env r).c = { r.c with pc := .readLen } ∧ (ioStep e env r).stream = r.stream
      ∧ (ioStep e env r).out = r.out ++ r.c.jsonStr.take r.c.len) := by
  simp only [ioStep, h]
  rcases pipeWriteN_spec (env.writes r.nwrites) (r.c.jsonStr.take r.c.len) with
    ⟨hret, -, -⟩ | ⟨hret, hout⟩
  · left
    simp only [afterWriteBody, hret]
    rfl
  · right
    have hnn : ¬ ((pipeWriteN (env.writes r.nwrites) (r.c.jsonStr.take r.c.len)).ret < 0) := by
      rw [hret]
      omega
    simp only [afterWriteBody, if_neg hnn, hout, and_self]

theorem ret_of_fail (e : Endian) (env : Env) {r : Run} {c : Sender} (h : r.c = c.fail) :
    ioStep e env r = r ∧ r.ret = none :=
  ⟨ioStep_done e env (by rw [h]; rfl), by rw [Run.ret, h]; rfl⟩

/-- The length of the request text, as the sender announces it. -/
def requestLen (J : Jansson) (service fcallStr : Bytes) : Nat :=
  (cstr (requestToJson J service fcallStr)).length % 2 ^ 32

/-- The bytes of the request. -/
def requestBytes (e : Endian) (J : Jansson) (service fcallStr : Bytes) : Bytes :=
  u32Bytes e (requestLen J service fcallStr)
    ++ (requestToJson J service fcallStr).take (requestLen J service fcallStr)

/-- **WHAT THE CLIENT GETS**: whatever the kernel does, the call returns `NULL`
    or, the request being sent, what the (possibly cut) reply reads as. -/
theorem searpcNamedPipeSend_ret (e : Endian) (J : Jansson) (env : Env) (junk : Mem)
    (service fcallStr reply : Bytes) :
    (searpcNamedPipeSend e J env junk service fcallStr reply).ret = none
    ∨ ((searpcNamedPipeSend e J env junk service fcallStr reply).ret
          = replyRead e (requestLen J service fcallStr) junk reply
        ∧ (searpcNamedPipeSend e J env junk service fcallStr reply).out
          = requestBytes e J service fcallStr) := by
  obtain ⟨r0, hr0⟩ : ∃ r : Run, r = ⟨.start J junk service fcallStr, reply, [], 0, 0⟩ := ⟨_, rfl⟩
  have hsend : searpcNamedPipeSend e J env junk service fcallStr reply
      = ioStep e env (ioStep e env (ioStep e env (ioStep e env r0))) := by rw [hr0]; rfl
  rw [hsend]
  rcases ioStep_writeLen e env (r := r0) (by rw [hr0]; rfl) with hf | ⟨hc1, hs1, ho1⟩
  · obtain ⟨hstay, hnone⟩ := ret_of_fail e env hf
    rw [hstay, hstay, hstay]
    exact Or.inl hnone
  · rcases ioStep_writeBody e env (r := ioStep e env r0) (by rw [hc1]) with
      hf | ⟨hc2, hs2, ho2⟩
    · obtain ⟨hstay, hnone⟩ := ret_of_fail e env hf
      rw [hstay, hstay]
      exact Or.inl hnone
    · have hpc2 : (ioStep e env (ioStep e env r0)).c.pc = .readLen := by rw [hc2]
      have hlast := ioStep_readLen e env hpc2
      obtain ⟨ho3, hpc3⟩ := ioStep_read_out e env (Or.inl hpc2)
      obtain ⟨ho4, -⟩ := ioStep_read_out e env (Or.inr hpc3)
      rw [hc2, hc1, hs2, hs1] at hlast
      rcases hlast with hnone | hret
      · exact Or.inl hnone
      · right
        rw [ho4, ho3, ho2, ho1, hc1, hret, hr0]
        exact ⟨rfl, rfl⟩

/-- On a smooth kernel the reply is read. -/
theorem searpcNamedPipeSend_smooth (e : Endian) (J : Jansson) (junk : Mem)
    (service fcallStr reply : Bytes) :
    (searpcNamedPipeSend e J .smooth junk service fcallStr reply).ret
      = replyRead e (requestLen J service fcallStr) junk reply := by
  simp only [searpcNamedPipeSend, ioStep, Sender.start, Env.smooth, pipeWriteN_smooth,
    pipeReadN_smooth, afterWriteLen, afterWriteBody, afterReadLen, afterReadBody,
    Int.natCast_nonneg, not_lt_of_ge, if_false, Run.ret]
  rfl

end SearpcPipeClient
