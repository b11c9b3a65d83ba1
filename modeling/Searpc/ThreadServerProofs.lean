import Searpc.FramingProofs
import Searpc.PipeIoProofs
import Searpc.RequestProofs

/-! # The thread-per-connection server — `named_pipe_client_handler`

    The handler reads a 32-bit length, grows its buffer, reads the body, hands
    the decoded request to `searpc_server_call_function` and writes the reply,
    until a read fails or the length comes out as zero.

    Two things make it interesting.  The buffer and its size survive from one
    request to the next, and `pipe_read_n` reports EOF as a short SUCCESS that
    the handler does not look at: when the stream is cut inside a frame, the
    missing bytes are whatever earlier requests (or the allocator) left in the
    buffer.  `handler_prefix_iff` says exactly when that does no harm. -/

namespace SearpcThreadServer

open ByteMemory Framing JsonValue SearpcJansson SearpcPipeIo SearpcRequest

variable {σ : Type}

/-- What a server end runs with: the byte order of the machine, the JSON
    library, and `searpc_server_call_function` as a state transformer of
    whatever the registered functions act on. -/
structure Server (σ : Type) where
  endian : Endian
  json   : Jansson
  call   : σ → Bytes → Bytes → σ × Bytes

/-! ## The handler -/

/-- `while (bufsize < len) bufsize *= 2` in `guint32` arithmetic; no result
    when the loop is still running after `fuel` turns. -/
def growBufsize : Nat → Nat → Nat → Option Nat
  | 0, _, _ => none
  | fuel + 1, bufsize, len =>
      if bufsize < len then growBufsize fuel (bufsize * 2 % 2 ^ 32) len else some bufsize

/-- Turns after which the doubling loop has ended or never will: a power of two
    is out of 32 bits after 32 doublings. -/
def growTurns : Nat := 33

/-- Where the handler stands: inside one of its four transfer calls, gone, or
    caught in the doubling loop. -/
inductive Pc where
  | readLen
  | readBody
  | writeLen
  | writeBody
  | closed
  | spinning
deriving DecidableEq, Repr

/-- The handler's locals, with the calls it has made so far. -/
structure Handler (σ : Type) where
  pc      : Pc
  len     : Nat
  bufsize : Nat
  buf     : Mem
  retStr  : Bytes
  world   : σ
  calls   : List Call

/-- The handler on entry; `junk` is what `g_malloc` and `g_realloc` hand out. -/
def Handler.start (junk : Mem) (w : σ) : Handler σ where
  pc := .readLen
  len := 0
  bufsize := 4096
  buf := junk
  retStr := []
  world := w
  calls := []

/-- After `pipe_read_n(connfd, &len, sizeof(guint32))`. -/
def afterReadLen (S : Server σ) (h : Handler σ) (ret : Int) (mem : Mem) : Handler σ :=
  -- a short read is not an error: `len` keeps zeros for what is missing
  if ret < 0 then { h with pc := .closed }
  else if memWord S.endian mem = 0 then { h with len := 0, pc := .closed }
  else
    match growBufsize growTurns h.bufsize (memWord S.endian mem) with
    | none => { h with len := memWord S.endian mem, pc := .spinning }
    | some b => { h with len := memWord S.endian mem, bufsize := b, pc := .readBody }

/-- After `pipe_read_n(connfd, buf, len)`: only a negative result is looked
    at, then `request_from_json` gets `len` bytes of the buffer. -/
def afterReadBody (S : Server σ) (h : Handler σ) (ret : Int) (mem : Mem) : Handler σ :=
  if ret < 0 ∨ h.len = 0 then { h with buf := mem, pc := .closed }
  else
    match requestFromJson S.json (slice mem h.len) with
    | none => { h with buf := mem, pc := .closed }
    | some (service, body) =>
        let r := S.call h.world service body
        { h with
          buf := mem
          world := r.1
          retStr := r.2
          len := r.2.length % 2 ^ 32
          calls := h.calls ++ [(service, body)]
          pc := .writeLen }

/-- After `pipe_write_n(connfd, &len, sizeof(guint32))`. -/
def afterWriteLen (h : Handler σ) (ret : Int) : Handler σ :=
  if ret < 0 then { h with pc := .closed } else { h with pc := .writeBody }

/-- After `pipe_write_n(connfd, ret_str, ret_len)`: back to the top of the
    loop, where `len` is cleared. -/
def afterWriteBody (h : Handler σ) (ret : Int) : Handler σ :=
  if ret < 0 then { h with pc := .closed } else { h with len := 0, pc := .readLen }

/-- The handler with its connection: the bytes still to be read before EOF, the
    bytes written, and the number of reads and writes made. -/
structure Run (σ : Type) where
  h       : Handler σ
  stream  : Bytes
  out     : Bytes
  nreads  : Nat
  nwrites : Nat

/-- A fresh connection carrying `stream`. -/
def Run.start (junk : Mem) (w : σ) (stream : Bytes) : Run σ :=
  ⟨.start junk w, stream, [], 0, 0⟩

/-- One transfer call and what the handler does with its result. -/
def ioStep (S : Server σ) (env : Env) (r : Run σ) : Run σ :=
  match r.h.pc with
  | .readLen =>
      let q := pipeReadN (env.reads r.nreads) r.stream (wordMem S.endian r.h.len) 4
      { r with h := afterReadLen S r.h q.ret q.mem, stream := q.rest, nreads := r.nreads + 1 }
  | .readBody =>
      let q := pipeReadN (env.reads r.nreads) r.stream r.h.buf r.h.len
      { r with h := afterReadBody S r.h q.ret q.mem, stream := q.rest, nreads := r.nreads + 1 }
  | .writeLen =>
      let q := pipeWriteN (env.writes r.nwrites) (u32Bytes S.endian r.h.len)
      { r with h := afterWriteLen r.h q.ret, out := r.out ++ q.out, nwrites := r.nwrites + 1 }
  | .writeBody =>
      let q := pipeWriteN (env.writes r.nwrites) r.h.retStr
      { r with h := afterWriteBody r.h q.ret, out := r.out ++ q.out, nwrites := r.nwrites + 1 }
  | .closed => r
  | .spinning => r

/-- `named_pipe_client_handler` after `n` transfer calls. -/
def namedPipeClientHandler (S : Server σ) (env : Env) : Nat → Run σ → Run σ
  | 0, r => r
  | n + 1, r => namedPipeClientHandler S env n (ioStep S env r)

/-! ## The reference and the cut frame -/

/-- The requests of a stream by the book: complete frames, decoded up to the
    first empty, incomplete or undecodable one. -/
def reference (S : Server σ) (stream : Bytes) : Scan Call :=
  scan S.endian (requestFromJson S.json) stream

/-- What a sequence of bodies leaves in the receive buffer. -/
def residue (buf : Mem) (bodies : List Bytes) : Mem :=
  bodies.foldl (fun m p => store m 0 p) buf

/-- The length the handler takes from a possibly cut header: missing bytes are
    zero. -/
def cutLen (S : Server σ) (tail : Bytes) : Nat :=
  memWord S.endian (store (wordMem S.endian 0) 0 (tail.take 4))

/-- The buffer after reading the body of the frame at the front of a stream:
    what there is of it, over what the buffer held. -/
def cutMem (S : Server σ) (buf : Mem) (tail : Bytes) : Mem :=
  store buf 0 ((tail.drop 4).take (cutLen S tail))

/-- The request read from a frame cut by EOF.  Absent when the frame is not
    cut, is empty, is too long for the doubling loop, or does not decode. -/
def cutCall (S : Server σ) (buf : Mem) (tail : Bytes) : Option Call :=
  if 0 < cutLen S tail ∧ cutLen S tail ≤ 2 ^ 31 ∧ tail.length < 4 + cutLen S tail then
    requestFromJson S.json (slice (cutMem S buf tail) (cutLen S tail))
  else none

/-- The stream ends inside a frame which, completed by what earlier requests
    left in the buffer, decodes as a request; and no earlier frame is longer
    than the buffer can get. -/
def CutFrameDecodes (S : Server σ) (junk : Mem) (stream : Bytes) : Prop :=
  (∀ p ∈ (reference S stream).payloads, p.length ≤ 2 ^ 31)
    ∧ (cutCall S (residue junk (reference S stream).payloads) (reference S stream).tail).isSome

instance (S : Server σ) (junk : Mem) (stream : Bytes) :
    Decidable (CutFrameDecodes S junk stream) := inferInstanceAs (Decidable (_ ∧ _))

/-! ## The doubling loop -/

/-- Up to `2 ^ 31` bytes the loop ends on a power of two that suffices. -/
theorem growBufsize_fits {len : Nat} (hlen : len ≤ 2 ^ 31) :
    ∀ (fuel k : Nat), k ≤ 31 → 31 - k < fuel →
      ∃ j, k ≤ j ∧ j ≤ 31 ∧ growBufsize fuel (2 ^ k) len = some (2 ^ j) ∧ len ≤ 2 ^ j := by
  intro fuel
  induction fuel with
  | zero => intro k _ hf; omega
  | succ fuel ih =>
      intro k hk hf
      by_cases hlt : 2 ^ k < len
      · have hk31 : k < 31 := by
          rcases Nat.lt_or_ge k 31 with h | h
          · exact h
          · have : k = 31 := by omega
            subst this
            omega
        have hdouble : 2 ^ k * 2 % 2 ^ 32 = 2 ^ (k + 1) := by
          rw [← Nat.pow_succ]
          exact Nat.mod_eq_of_lt (Nat.pow_lt_pow_right (by decide) (by omega))
        obtain ⟨j, hkj, hj, hg, hl⟩ := ih (k + 1) (by omega) (by omega)
        refine ⟨j, by omega, hj, ?_, hl⟩
        show (if 2 ^ k < len then growBufsize fuel (2 ^ k * 2 % 2 ^ 32) len else some (2 ^ k)) = _
        rw [if_pos hlt, hdouble, hg]
      · refine ⟨k, Nat.le_refl k, hk, ?_, by omega⟩
        show (if 2 ^ k < len then growBufsize fuel (2 ^ k * 2 % 2 ^ 32) len else some (2 ^ k)) = _
        rw [if_neg hlt]

/-- Beyond `2 ^ 31` bytes the size overflows to zero and stays there. -/
theorem growBufsize_spins {len : Nat} (hlen : 2 ^ 31 < len) :
    ∀ (fuel b : Nat), (b = 0 ∨ ∃ k, k ≤ 31 ∧ b = 2 ^ k) → growBufsize fuel b len = none := by
  intro fuel
  induction fuel with
  | zero => intro b _; rfl
  | succ fuel ih =>
      intro b hb
      have hlt : b < len := by
        rcases hb with rfl | ⟨k, hk, rfl⟩
        · omega
        · have := Nat.pow_le_pow_right (show 1 ≤ 2 by decide) hk
          omega
      show (if b < len then growBufsize fuel (b * 2 % 2 ^ 32) len else some b) = none
      rw [if_pos hlt]
      refine ih (b * 2 % 2 ^ 32) ?_
      rcases hb with rfl | ⟨k, hk, rfl⟩
      · exact Or.inl rfl
      · rcases Nat.lt_or_ge k 31 with h | h
        · refine Or.inr ⟨k + 1, by omega, ?_⟩
          rw [← Nat.pow_succ]
          exact Nat.mod_eq_of_lt (Nat.pow_lt_pow_right (by decide) (by omega))
        · have : k = 31 := by omega
          subst this
          exact Or.inl (by decide)

/-- More turns change nothing once the loop has ended. -/
theorem growBufsize_mono {fuel bufsize len b : Nat} (h : growBufsize fuel bufsize len = some b)
    (more : Nat) : growBufsize (fuel + more) bufsize len = some b := by
  induction fuel generalizing bufsize with
  | zero => cases h
  | succ fuel ih =>
      rw [Nat.succ_add]
      rw [growBufsize] at h ⊢
      split_ifs at h ⊢ with hlt
      · exact ih h
      · exact h

/-- Where the loop ended, it ended on a power of two that suffices. -/
theorem growBufsize_some {fuel k len b : Nat} (hk : k ≤ 31)
    (h : growBufsize fuel (2 ^ k) len = some b) :
    len ≤ 2 ^ 31 ∧ ∃ j, k ≤ j ∧ j ≤ 31 ∧ b = 2 ^ j ∧ len ≤ 2 ^ j := by
  have hfit : len ≤ 2 ^ 31 := by
    by_contra hbig
    rw [growBufsize_spins (Nat.not_le.mp hbig) fuel _ (Or.inr ⟨k, hk, rfl⟩)] at h
    cases h
  obtain ⟨j, hkj, hj, hg, hle⟩ := growBufsize_fits hfit (fuel + growTurns) k hk
    (by rw [growTurns]; omega)
  rw [growBufsize_mono h growTurns] at hg
  exact ⟨hfit, j, hkj, hj, Option.some.inj hg, hle⟩

/-- The loop ends for each of the lengths that arrive on one connection, with a
    buffer that suffices and is not smaller than before; its size is kept from
    one length to the next. -/
def GrowsThrough : Nat → List Nat → Prop
  | _, [] => True
  | bufsize, len :: lens =>
      ∃ fuel b, growBufsize fuel bufsize len = some b ∧ len ≤ b ∧ bufsize ≤ b
        ∧ GrowsThrough b lens

/-- From any power of two on. -/
theorem growsThrough_iff {k : Nat} (hk : k ≤ 31) (lens : List Nat) :
    GrowsThrough (2 ^ k) lens ↔ ∀ len ∈ lens, len ≤ 2 ^ 31 := by
  induction lens generalizing k with
  | nil => exact iff_of_true trivial (fun _ h => (List.not_mem_nil h).elim)
  | cons len lens ih =>
      rw [List.forall_mem_cons]
      constructor
      · rintro ⟨fuel, b, hb, -, -, hrest⟩
        obtain ⟨hfit, j, -, hj, rfl, -⟩ := growBufsize_some hk hb
        exact ⟨hfit, (ih hj).mp hrest⟩
      · rintro ⟨hfit, hall⟩
        obtain ⟨j, hkj, hj, hg, hle⟩ := growBufsize_fits hfit growTurns k hk
          (by rw [growTurns]; omega)
        exact ⟨growTurns, 2 ^ j, hg, hle, Nat.pow_le_pow_right (by decide) hkj, (ih hj).mpr hall⟩

/-- **BUFFER GROWTH, EXACTLY**: on one connection the doubling loop always ends
    with a buffer that suffices if and only if no request is announced with
    more than `2 ^ 31` bytes. -/
theorem bufsize_grows_iff (lens : List Nat) :
    GrowsThrough 4096 lens ↔ ∀ len ∈ lens, len ≤ 2 ^ 31 :=
  growsThrough_iff (k := 12) (by decide) lens

/-- One request of `2 ^ 31 + 1` bytes keeps the loop running for ever. -/
theorem bufsize_spins :
    ¬ ∀ lens : List Nat, (∀ len ∈ lens, len < 2 ^ 32) → GrowsThrough 4096 lens := by
  intro h
  have hgrow := h [2 ^ 31 + 1] (by decide)
  have hle := (growsThrough_iff (k := 12) (by decide) [2 ^ 31 + 1]).mp hgrow
  exact absurd (hle (2 ^ 31 + 1) List.mem_cons_self) (by decide)

/-! ## One transfer call at a time -/

/-- The handler is done, or will never be. -/
def Stopped (r : Run σ) : Prop := r.h.pc = .closed ∨ r.h.pc = .spinning

/-- The handler's buffer size is a power of two within 32 bits. -/
def SizeOk (r : Run σ) : Prop := ∃ k, k ≤ 31 ∧ r.h.bufsize = 2 ^ k

/-- A kernel that may split and interrupt but fails no call. -/
def NoFail (env : Env) : Prop :=
  (∀ j, ReadEvent.error ∉ env.reads j)
    ∧ ∀ j, WriteEvent.error ∉ env.writes j ∧ WriteEvent.zero ∉ env.writes j

theorem noFail_smooth : NoFail Env.smooth :=
  ⟨fun _ => List.not_mem_nil, fun _ => ⟨List.not_mem_nil, List.not_mem_nil⟩⟩

theorem ioStep_stopped (S : Server σ) (env : Env) {r : Run σ} (h : Stopped r) :
    ioStep S env r = r := by
  rcases h with h | h <;> simp only [ioStep, h]

theorem handler_stopped (S : Server σ) (env : Env) {r : Run σ} (h : Stopped r) (n : Nat) :
    namedPipeClientHandler S env n r = r := by
  induction n with
  | zero => rfl
  | succ n ih =>
      show namedPipeClientHandler S env n (ioStep S env r) = r
      rw [ioStep_stopped S env h, ih]

theorem handler_add (S : Server σ) (env : Env) (m n : Nat) (r : Run σ) :
    namedPipeClientHandler S env (m + n) r
      = namedPipeClientHandler S env n (namedPipeClientHandler S env m r) := by
  induction m generalizing r with
  | zero => rw [Nat.zero_add]; rfl
  | succ m ih =>
      rw [Nat.succ_add]
      exact ih (ioStep S env r)

/-- The header is read: the handler stops without a call, or goes on to read
    as many bytes as the (possibly cut) header announces. -/
theorem ioStep_readLen (S : Server σ) (env : Env) {r : Run σ} (hpc : r.h.pc = .readLen)
    (hlen : r.h.len = 0) (hsz : SizeOk r) :
    (Stopped (ioStep S env r) ∧ (ioStep S env r).h.calls = r.h.calls
        ∧ (NoFail env → cutLen S r.stream = 0 ∨ 2 ^ 31 < cutLen S r.stream))
    ∨ (0 < cutLen S r.stream ∧ cutLen S r.stream ≤ 2 ^ 31
        ∧ (ioStep S env r).h.pc = .readBody ∧ (ioStep S env r).h.len = cutLen S r.stream
        ∧ SizeOk (ioStep S env r) ∧ (ioStep S env r).h.buf = r.h.buf
        ∧ (ioStep S env r).h.calls = r.h.calls ∧ (ioStep S env r).stream = r.stream.drop 4) := by
  obtain ⟨k, hk, hb⟩ := hsz
  simp only [ioStep, hpc, hlen]
  rcases pipeReadN_spec (env.reads r.nreads) r.stream (wordMem S.endian 0) 4 with
    ⟨hret, herr⟩ | ⟨hret, hmem, hrest⟩
  · refine Or.inl ⟨?_, ?_, fun hnf => absurd herr (hnf.1 _)⟩
    · exact Or.inl (by simp [afterReadLen, hret])
    · simp [afterReadLen, hret]
  · have hnn : ¬ ((pipeReadN (env.reads r.nreads) r.stream (wordMem S.endian 0) 4).ret < 0) := by
      rw [hret]
      omega
    have hword : memWord S.endian
        (pipeReadN (env.reads r.nreads) r.stream (wordMem S.endian 0) 4).mem
          = cutLen S r.stream := by
      rw [hmem]
      rfl
    simp only [afterReadLen, if_neg hnn, hword, hrest, hb]
    by_cases h0 : cutLen S r.stream = 0
    · rw [if_pos h0]
      exact Or.inl ⟨Or.inl rfl, rfl, fun _ => Or.inl h0⟩
    · rw [if_neg h0]
      rcases Nat.lt_or_ge (2 ^ 31) (cutLen S r.stream) with hbig | hfit
      · rw [growBufsize_spins hbig growTurns (2 ^ k) (Or.inr ⟨k, hk, rfl⟩)]
        exact Or.inl ⟨Or.inr rfl, rfl, fun _ => Or.inr hbig⟩
      · obtain ⟨j, -, hj, hg, -⟩ := growBufsize_fits hfit growTurns k hk
          (by simp [growTurns]; omega)
        rw [hg]
        exact Or.inr ⟨by omega, hfit, rfl, rfl, ⟨j, hj, rfl⟩, rfl, rfl, trivial⟩

/-- The body is read: whatever came before EOF, over the old buffer. -/
def bodyMem (r : Run σ) : Mem := store r.h.buf 0 (r.stream.take r.h.len)

theorem ioStep_readBody (S : Server σ) (env : Env) {r : Run σ} (hpc : r.h.pc = .readBody)
    (hpos : 0 < r.h.len) (hsz : SizeOk r) :
    (Stopped (ioStep S env r) ∧ (ioStep S env r).h.calls = r.h.calls
        ∧ (NoFail env → requestFromJson S.json (slice (bodyMem r) r.h.len) = none))
    ∨ (∃ c, requestFromJson S.json (slice (bodyMem r) r.h.len) = some c
        ∧ (ioStep S env r).h.pc = .writeLen ∧ SizeOk (ioStep S env r)
        ∧ (ioStep S env r).h.buf = bodyMem r ∧ (ioStep S env r).h.calls = r.h.calls ++ [c]
        ∧ (ioStep S env r).stream = r.stream.drop r.h.len) := by
  simp only [ioStep, hpc]
  rcases pipeReadN_spec (env.reads r.nreads) r.stream r.h.buf r.h.len with
    ⟨hret, herr⟩ | ⟨hret, hmem, hrest⟩
  · refine Or.inl ⟨?_, ?_, fun hnf => absurd herr (hnf.1 _)⟩
    · exact Or.inl (by simp [afterReadBody, hret])
    · simp [afterReadBody, hret]
  · have hgo : ¬ ((pipeReadN (env.reads r.nreads) r.stream r.h.buf r.h.len).ret < 0
        ∨ r.h.len = 0) := by
      rw [hret]
      omega
    simp only [afterReadBody, if_neg hgo, hmem, hrest]
    rw [show store r.h.buf 0 (r.stream.take r.h.len) = bodyMem r from rfl]
    cases hdec : requestFromJson S.json (slice (bodyMem r) r.h.len) with
    | none => exact Or.inl ⟨Or.inl rfl, rfl, fun _ => rfl⟩
    | some c =>
        obtain ⟨service, body⟩ := c
        exact Or.inr ⟨(service, body), rfl, rfl, hsz, rfl, rfl, trivial⟩

/-- A write that fails is the kernel's doing. -/
theorem pipeWriteN_noFail {env : Env} (h : NoFail env) (j : Nat) (bs : Bytes) :
    ¬ (pipeWriteN (env.writes j) bs).ret < 0 := by
  rcases pipeWriteN_spec (env.writes j) bs with ⟨-, -, he | he⟩ | ⟨hret, -⟩
  · exact absurd he (h.2 j).1
  · exact absurd he (h.2 j).2
  · rw [hret]
    omega

theorem ioStep_writeLen (S : Server σ) (env : Env) {r : Run σ} (hpc : r.h.pc = .writeLen) :
    (ioStep S env r).stream = r.stream
    ∧ (((ioStep S env r).h = { r.h with pc := .closed } ∧ ¬ NoFail env)
      ∨ (ioStep S env r).h = { r.h with pc := .writeBody }) := by
  simp only [ioStep, hpc]
  refine ⟨trivial, ?_⟩
  by_cases hneg : (pipeWriteN (env.writes r.nwrites) (u32Bytes S.endian r.h.len)).ret < 0
  · refine Or.inl ⟨by rw [afterWriteLen, if_pos hneg], ?_⟩
    intro hnf
    exact pipeWriteN_noFail hnf _ _ hneg
  · exact Or.inr (by rw [afterWriteLen, if_neg hneg])

theorem ioStep_writeBody (S : Server σ) (env : Env) {r : Run σ} (hpc : r.h.pc = .writeBody) :
    (ioStep S env r).stream = r.stream
    ∧ (((ioStep S env r).h = { r.h with pc := .closed } ∧ ¬ NoFail env)
      ∨ (ioStep S env r).h = { r.h with len := 0, pc := .readLen }) := by
  simp only [ioStep, hpc]
  refine ⟨trivial, ?_⟩
  by_cases hneg : (pipeWriteN (env.writes r.nwrites) r.h.retStr).ret < 0
  · refine Or.inl ⟨by rw [afterWriteBody, if_pos hneg], ?_⟩
    intro hnf
    exact pipeWriteN_noFail hnf _ _ hneg
  · exact Or.inr (by rw [afterWriteBody, if_neg hneg])

/-- The reply goes out: the handler stops, or is back at the top of its loop
    with buffer, calls and input as they were. -/
theorem handler_writes (S : Server σ) (env : Env) {r : Run σ} (hpc : r.h.pc = .writeLen)
    (hsz : SizeOk r) :
    (namedPipeClientHandler S env 2 r).h.calls = r.h.calls
    ∧ ((Stopped (namedPipeClientHandler S env 2 r) ∧ ¬ NoFail env)
      ∨ ((namedPipeClientHandler S env 2 r).h.pc = .readLen
          ∧ (namedPipeClientHandler S env 2 r).h.len = 0
          ∧ SizeOk (namedPipeClientHandler S env 2 r)
          ∧ (namedPipeClientHandler S env 2 r).h.buf = r.h.buf
          ∧ (namedPipeClientHandler S env 2 r).stream = r.stream)) := by
  have hrun : namedPipeClientHandler S env 2 r = ioStep S env (ioStep S env r) := rfl
  rw [hrun]
  obtain ⟨k, hk, hb⟩ := hsz
  obtain ⟨hs1, ⟨h1, hf⟩ | h1⟩ := ioStep_writeLen S env hpc
  · have hst : Stopped (ioStep S env r) := Or.inl (by rw [h1])
    rw [ioStep_stopped S env hst]
    exact ⟨by rw [h1], Or.inl ⟨hst, hf⟩⟩
  · obtain ⟨hs2, h2⟩ := ioStep_writeBody S env
      (show (ioStep S env r).h.pc = .writeBody by rw [h1])
    rw [h1] at h2
    rcases h2 with ⟨h2, hf⟩ | h2
    · exact ⟨by rw [h2], Or.inl ⟨Or.inl (by rw [h2]), hf⟩⟩
    · exact ⟨by rw [h2], Or.inr ⟨by rw [h2], by rw [h2], ⟨k, hk, by rw [h2]; exact hb⟩,
        by rw [h2], hs2.trans hs1⟩⟩

/-! ## One turn of the handler's loop -/

/-- The handler is at the top of its loop. -/
structure AtTop (r : Run σ) : Prop where
  pc   : r.h.pc = .readLen
  len  : r.h.len = 0
  size : SizeOk r

theorem atTop_start (junk : Mem) (w : σ) (stream : Bytes) :
    AtTop (Run.start junk w stream) :=
  ⟨rfl, rfl, 12, by decide, rfl⟩

/-- **ONE TURN**: the handler stops without a call, or makes the call it reads
    off the front of the stream over the old buffer, and then stops or is back
    at the top behind what it read. -/
theorem handler_turn (S : Server σ) (env : Env) {r : Run σ} (ht : AtTop r) :
    (Stopped (namedPipeClientHandler S env 4 r)
        ∧ (namedPipeClientHandler S env 4 r).h.calls = r.h.calls
        ∧ (NoFail env → cutLen S r.stream = 0 ∨ 2 ^ 31 < cutLen S r.stream
            ∨ requestFromJson S.json
                (slice (cutMem S r.h.buf r.stream) (cutLen S r.stream)) = none))
    ∨ (∃ c, 0 < cutLen S r.stream ∧ cutLen S r.stream ≤ 2 ^ 31
        ∧ requestFromJson S.json (slice (cutMem S r.h.buf r.stream) (cutLen S r.stream)) = some c
        ∧ (namedPipeClientHandler S env 4 r).h.calls = r.h.calls ++ [c]
        ∧ ((Stopped (namedPipeClientHandler S env 4 r) ∧ ¬ NoFail env)
          ∨ (AtTop (namedPipeClientHandler S env 4 r)
              ∧ (namedPipeClientHandler S env 4 r).h.buf = cutMem S r.h.buf r.stream
              ∧ (namedPipeClientHandler S env 4 r).stream
                  = (r.stream.drop 4).drop (cutLen S r.stream)))) := by
  have hsplit : namedPipeClientHandler S env 4 r
      = namedPipeClientHandler S env 2 (ioStep S env (ioStep S env r)) := rfl
  rcases ioStep_readLen S env ht.pc ht.len ht.size with
    ⟨hst, hc, hnf⟩ | ⟨hpos, hle, hpc1, hlen1, hsz1, hbuf1, hc1, hs1⟩
  · -- no header, an empty frame, or a length the buffer cannot reach
    rw [hsplit, ioStep_stopped S env hst, handler_stopped S env hst]
    refine Or.inl ⟨hst, hc, fun h => ?_⟩
    rcases hnf h with h0 | hbig
    · exact Or.inl h0
    · exact Or.inr (Or.inl hbig)
  · have hbody : bodyMem (ioStep S env r) = cutMem S r.h.buf r.stream := by
      simp only [bodyMem, cutMem, hbuf1, hs1, hlen1]
    rcases ioStep_readBody S env hpc1 (by rw [hlen1]; exact hpos) hsz1 with
      ⟨hst, hc, hnf⟩ | ⟨c, hdec, hpc2, hsz2, hbuf2, hc2, hs2⟩
    · -- a read error, or a body that does not decode
      rw [hbody, hlen1] at hnf
      rw [hsplit, handler_stopped S env hst]
      exact Or.inl ⟨hst, hc.trans hc1, fun h => Or.inr (Or.inr (hnf h))⟩
    · rw [hbody, hlen1] at hdec
      rw [hbody] at hbuf2
      rw [hlen1, hs1] at hs2
      obtain ⟨hc3, hend⟩ := handler_writes S env hpc2 hsz2
      rw [hsplit]
      refine Or.inr ⟨c, hpos, hle, hdec, by rw [hc3, hc2, hc1], ?_⟩
      rcases hend with hstop | ⟨hpc3, hlen3, hsz3, hbuf3, hs3⟩
      · exact Or.inl hstop
      · exact Or.inr ⟨⟨hpc3, hlen3, hsz3⟩, hbuf3.trans hbuf2, hs3.trans hs2⟩

/-! ## The turn against the reference -/

/-- The front frame is whole. -/
def Whole (S : Server σ) (s : Bytes) : Prop := 0 < cutLen S s ∧ 4 + cutLen S s ≤ s.length

theorem cutLen_of_header (S : Server σ) {s : Bytes} (h : 4 ≤ s.length) :
    cutLen S s = u32Value S.endian (s.take 4) :=
  memWord_store_full S.endian _ (by rw [List.length_take]; omega)

theorem splitFrame_whole (S : Server σ) {s : Bytes} (h : Whole S s) :
    splitFrame S.endian s
      = some ((s.drop 4).take (cutLen S s), (s.drop 4).drop (cutLen S s)) := by
  obtain ⟨hpos, hle⟩ := h
  have h4 : 4 ≤ s.length := by omega
  have hlen := cutLen_of_header S h4
  simp only [splitFrame]
  rw [if_pos ⟨h4, by omega, by omega⟩, hlen]

theorem splitFrame_not_whole (S : Server σ) {s : Bytes} (h : ¬ Whole S s) :
    splitFrame S.endian s = none := by
  simp only [splitFrame]
  rw [if_neg]
  rintro ⟨h4, hpos, hle⟩
  have hlen := cutLen_of_header S h4
  exact h ⟨by omega, by omega⟩

/-- A whole frame fills its part of the buffer, whatever stood there. -/
theorem slice_cutMem_whole (S : Server σ) (buf : Mem) {s : Bytes} (h : Whole S s) :
    slice (cutMem S buf s) (cutLen S s) = (s.drop 4).take (cutLen S s) := by
  refine slice_store_eq buf ?_
  have := h.2
  rw [List.length_take, List.length_drop]
  omega

/-- What the handler may do beyond the reference. -/
def overrun (S : Server σ) (buf : Mem) (s : Bytes) : List Call :=
  if ∀ p ∈ (reference S s).payloads, p.length ≤ 2 ^ 31 then
    (cutCall S (residue buf (reference S s).payloads) (reference S s).tail).toList
  else []

theorem overrun_stop (S : Server σ) (buf : Mem) {s : Bytes}
    (h : reference S s = ⟨[], [], s⟩) : overrun S buf s = (cutCall S buf s).toList := by
  simp only [overrun, h]
  rw [if_pos (fun p hp => nomatch hp)]
  rfl

theorem overrun_cons (S : Server σ) (buf : Mem) {s rest p : Bytes} {c : Call}
    (h : reference S s = ⟨p :: (reference S rest).payloads, c :: (reference S rest).calls,
      (reference S rest).tail⟩) (hp : p.length ≤ 2 ^ 31) :
    overrun S buf s = overrun S (store buf 0 p) rest := by
  have hall : (∀ q ∈ p :: (reference S rest).payloads, q.length ≤ 2 ^ 31)
      ↔ ∀ q ∈ (reference S rest).payloads, q.length ≤ 2 ^ 31 := by
    rw [List.forall_mem_cons]
    exact and_iff_right hp
  simp only [overrun, h, hall]
  rfl

/-- The three ways the reference takes the front of a stream. -/
theorem reference_cases (S : Server σ) (s : Bytes) :
    (¬ Whole S s ∧ reference S s = ⟨[], [], s⟩)
    ∨ (Whole S s ∧ requestFromJson S.json ((s.drop 4).take (cutLen S s)) = none
        ∧ reference S s = ⟨[], [], s⟩)
    ∨ (∃ c, Whole S s ∧ requestFromJson S.json ((s.drop 4).take (cutLen S s)) = some c
        ∧ reference S s
          = ⟨(s.drop 4).take (cutLen S s)
                :: (reference S ((s.drop 4).drop (cutLen S s))).payloads,
              c :: (reference S ((s.drop 4).drop (cutLen S s))).calls,
              (reference S ((s.drop 4).drop (cutLen S s))).tail⟩) := by
  by_cases hw : Whole S s
  · have hsp := splitFrame_whole S hw
    cases hdec : requestFromJson S.json ((s.drop 4).take (cutLen S s)) with
    | none => exact Or.inr (Or.inl ⟨hw, rfl, scan_undecodable hsp hdec⟩)
    | some c => exact Or.inr (Or.inr ⟨c, hw, rfl, scan_cons hsp hdec⟩)
  · exact Or.inl ⟨hw, scan_stop (splitFrame_not_whole S hw)⟩

theorem cutLen_nil (S : Server σ) : cutLen S [] = 0 := by
  show memWord S.endian (store (wordMem S.endian 0) 0 []) = 0
  rw [store_nil, memWord_wordMem, Nat.zero_mod]

theorem cutCall_nil (S : Server σ) (buf : Mem) : cutCall S buf [] = none := by
  rw [cutCall, if_neg (by rw [cutLen_nil]; omega)]

/-- At EOF nothing is left to run over. -/
theorem reference_nil (S : Server σ) (buf : Mem) :
    (reference S []).calls = [] ∧ overrun S buf [] = [] := by
  have hlen := cutLen_nil S
  have href : reference S [] = ⟨[], [], []⟩ :=
    scan_stop (splitFrame_not_whole S (fun h => by have := h.1; omega))
  refine ⟨by rw [href], ?_⟩
  rw [overrun_stop S buf href, cutCall_nil]
  rfl

/-- At EOF the handler stops without a call. -/
theorem handler_eof (S : Server σ) (env : Env) {r : Run σ} (ht : AtTop r)
    (hs : r.stream = []) {n : Nat} (hn : 0 < n) :
    Stopped (namedPipeClientHandler S env (4 * n) r)
      ∧ (namedPipeClientHandler S env (4 * n) r).h.calls = r.h.calls := by
  obtain ⟨m, rfl⟩ : ∃ m, n = m + 1 := ⟨n - 1, by omega⟩
  rw [show 4 * (m + 1) = 4 + 4 * m by omega, handler_add]
  rcases handler_turn S env ht with ⟨hst, hc, -⟩ | ⟨c, hpos, -⟩
  · rw [handler_stopped S env hst]
    exact ⟨hst, hc⟩
  · rw [hs, cutLen_nil] at hpos
    exact absurd hpos (Nat.lt_irrefl 0)

/-- A call made in one turn is the reference's next call or the overrun. -/
theorem call_cases (S : Server σ) (buf : Mem) {s : Bytes} {c : Call}
    (hpos : 0 < cutLen S s) (hle : cutLen S s ≤ 2 ^ 31)
    (hdec : requestFromJson S.json (slice (cutMem S buf s) (cutLen S s)) = some c) :
    ((s.drop 4).drop (cutLen S s) = [] ∧ reference S s = ⟨[], [], s⟩ ∧ overrun S buf s = [c])
    ∨ ((reference S s).calls = c :: (reference S ((s.drop 4).drop (cutLen S s))).calls
        ∧ (reference S s).payloads = (s.drop 4).take (cutLen S s)
            :: (reference S ((s.drop 4).drop (cutLen S s))).payloads
        ∧ overrun S buf s
            = overrun S (cutMem S buf s) ((s.drop 4).drop (cutLen S s))) := by
  rcases reference_cases S s with ⟨hw, href⟩ | ⟨hw, hnone, -⟩ | ⟨c', hw, hsome, href⟩
  · -- the frame is cut: its call is the overrun, and the stream is used up
    have hcut : s.length < 4 + cutLen S s := by
      rcases Nat.lt_or_ge s.length (4 + cutLen S s) with h | h
      · exact h
      · exact absurd ⟨hpos, h⟩ hw
    refine Or.inl ⟨?_, href, ?_⟩
    · rw [List.drop_drop]
      exact List.drop_eq_nil_of_le (by omega)
    · rw [overrun_stop S buf href, cutCall, if_pos ⟨hpos, hle, hcut⟩, hdec]
      rfl
  · rw [slice_cutMem_whole S buf hw, hnone] at hdec
    exact nomatch hdec
  · rw [slice_cutMem_whole S buf hw, hsome] at hdec
    obtain rfl : c' = c := Option.some.inj hdec
    refine Or.inr ⟨by rw [href], by rw [href], ?_⟩
    refine overrun_cons S buf href ?_
    rw [List.length_take]
    omega

/-- **NOTHING BUT THE REFERENCE AND THE CUT FRAME**: whatever the kernel does,
    the calls are a prefix of the reference sequence with at most the cut
    frame's call behind it. -/
theorem handler_calls_prefix (S : Server σ) (env : Env) :
    ∀ (n : Nat) (r : Run σ), AtTop r →
      (namedPipeClientHandler S env (4 * n) r).h.calls
        <+: r.h.calls ++ ((reference S r.stream).calls ++ overrun S r.h.buf r.stream) := by
  intro n
  induction n with
  | zero => intro r _; exact List.prefix_append _ _
  | succ n ih =>
      -- a turn is four transfer calls; the buffer and the stream are generalised
      intro r ht
      rw [show 4 * (n + 1) = 4 + 4 * n by omega, handler_add]
      rcases handler_turn S env ht with ⟨hst, hc, -⟩ | ⟨c, hpos, hle, hdec, hc, hend⟩
      · rw [handler_stopped S env hst, hc]
        exact List.prefix_append _ _
      · have hnext : (namedPipeClientHandler S env (4 * n)
              (namedPipeClientHandler S env 4 r)).h.calls
            <+: (r.h.calls ++ [c])
              ++ ((reference S ((r.stream.drop 4).drop (cutLen S r.stream))).calls
                ++ overrun S (cutMem S r.h.buf r.stream)
                    ((r.stream.drop 4).drop (cutLen S r.stream))) := by
          rcases hend with ⟨hst, -⟩ | ⟨ht', hbuf, hs⟩
          · rw [handler_stopped S env hst, hc]
            exact List.prefix_append _ _
          · have := ih _ ht'
            rw [hc, hbuf, hs] at this
            exact this
        rcases call_cases S r.h.buf hpos hle hdec with ⟨hnil, href, hover⟩ | ⟨hcalls, -, hover⟩
        · obtain ⟨h1, h2⟩ := reference_nil S (cutMem S r.h.buf r.stream)
          rw [hnil, h1, h2] at hnext
          rw [href, hover]
          simpa using hnext
        · rw [hcalls, hover]
          simpa using hnext

/-- On a kernel that fails no call the handler does get through all of it, if
    no frame is too long. -/
theorem handler_calls_eq (S : Server σ) {env : Env} (hnf : NoFail env) :
    ∀ (n : Nat) (r : Run σ), AtTop r →
      (∀ p ∈ (reference S r.stream).payloads, p.length ≤ 2 ^ 31) →
      (reference S r.stream).payloads.length + 1 < n →
      (namedPipeClientHandler S env (4 * n) r).h.calls
        = r.h.calls ++ ((reference S r.stream).calls ++ overrun S r.h.buf r.stream)
      ∧ Stopped (namedPipeClientHandler S env (4 * n) r) := by
  intro n
  induction n with
  | zero => intro r _ _ hn; omega
  | succ n ih =>
      intro r ht hall hn
      rw [show 4 * (n + 1) = 4 + 4 * n by omega, handler_add]
      rcases handler_turn S env ht with ⟨hst, hc, hwhy⟩ | ⟨c, hpos, hle, hdec, hc, hend⟩
      · -- the handler stopped, so the reference has nothing more either
        rw [handler_stopped S env hst, hc]
        refine ⟨?_, hst⟩
        have hno : ¬ (0 < cutLen S r.stream ∧ cutLen S r.stream ≤ 2 ^ 31
            ∧ requestFromJson S.json
                (slice (cutMem S r.h.buf r.stream) (cutLen S r.stream)) ≠ none) := by
          rintro ⟨h1, h2, h3⟩
          rcases hwhy hnf with h | h | h
          · omega
          · omega
          · exact h3 h
        rcases reference_cases S r.stream with ⟨hw, href⟩ | ⟨hw, hnone, href⟩ | ⟨c, hw, hsome, href⟩
        · rw [overrun_stop S r.h.buf href, href]
          cases hcut : cutCall S r.h.buf r.stream with
          | none => simp
          | some c =>
              exfalso
              rw [cutCall] at hcut
              by_cases hg : 0 < cutLen S r.stream ∧ cutLen S r.stream ≤ 2 ^ 31
                  ∧ r.stream.length < 4 + cutLen S r.stream
              · rw [if_pos hg] at hcut
                exact hno ⟨hg.1, hg.2.1, by rw [hcut]; exact Option.some_ne_none c⟩
              · rw [if_neg hg] at hcut
                exact nomatch hcut
        · rw [overrun_stop S r.h.buf href, href, cutCall, if_neg (by have := hw.2; omega)]
          simp
        · exfalso
          refine hno ⟨hw.1, ?_, ?_⟩
          · have hp := hall _ (by rw [href]; exact List.mem_cons_self)
            rw [List.length_take, List.length_drop] at hp
            have := hw.2
            omega
          · rw [slice_cutMem_whole S r.h.buf hw, hsome]
            exact Option.some_ne_none c
      · rcases hend with ⟨-, hf⟩ | ⟨ht', hbuf, hs⟩
        · exact absurd hnf hf
        · rcases call_cases S r.h.buf hpos hle hdec with
            ⟨hnil, href, hover⟩ | ⟨hcalls, hpay, hover⟩
          · -- the cut frame was the last: the next header read finds EOF
            obtain ⟨hst, hc'⟩ := handler_eof S env ht' (hs.trans hnil) (n := n) (by omega)
            refine ⟨?_, hst⟩
            rw [hc', hc, href, hover]
            rfl
          · rw [hpay] at hall hn
            have hrec := ih _ ht' (by
                rw [hs]
                exact fun p hp => hall p (List.mem_cons_of_mem _ hp))
              (by rw [hs]; simp only [List.length_cons] at hn; omega)
            rw [hc, hbuf, hs] at hrec
            refine ⟨?_, hrec.2⟩
            rw [hrec.1, hcalls, hover]
            simp

/-! ## The law of the thread server, and where it fails -/

/-- The calls only grow. -/
theorem ioStep_calls (S : Server σ) (env : Env) (r : Run σ) :
    r.h.calls <+: (ioStep S env r).h.calls := by
  cases hpc : r.h.pc with
  | readLen =>
      simp only [ioStep, hpc, afterReadLen]
      split_ifs
      · exact List.prefix_refl _
      · exact List.prefix_refl _
      · split <;> exact List.prefix_refl _
  | readBody =>
      simp only [ioStep, hpc, afterReadBody]
      split_ifs
      · exact List.prefix_refl _
      · split
        · exact List.prefix_refl _
        · exact List.prefix_append _ _
  | writeLen =>
      obtain ⟨-, ⟨h, -⟩ | h⟩ := ioStep_writeLen S env hpc
      · exact ⟨[], by rw [List.append_nil, h]⟩
      · exact ⟨[], by rw [List.append_nil, h]⟩
  | writeBody =>
      obtain ⟨-, ⟨h, -⟩ | h⟩ := ioStep_writeBody S env hpc
      · exact ⟨[], by rw [List.append_nil, h]⟩
      · exact ⟨[], by rw [List.append_nil, h]⟩
  | closed => simp only [ioStep, hpc]; exact List.prefix_refl _
  | spinning => simp only [ioStep, hpc]; exact List.prefix_refl _

theorem handler_calls_mono (S : Server σ) (env : Env) (n : Nat) (r : Run σ) :
    r.h.calls <+: (namedPipeClientHandler S env n r).h.calls := by
  induction n generalizing r with
  | zero => exact List.prefix_refl _
  | succ n ih => exact (ioStep_calls S env r).trans (ih (ioStep S env r))

/-- **THE THREAD SERVER, EXACTLY**: every run makes a prefix of the reference
    calls if and only if the stream does not end inside a frame that decodes
    from what earlier requests left in the buffer. -/
theorem handler_prefix_iff (S : Server σ) (junk : Mem) (w : σ) (stream : Bytes) :
    (∀ (env : Env) (n : Nat),
      (namedPipeClientHandler S env n (.start junk w stream)).h.calls
        <+: (reference S stream).calls)
    ↔ ¬ CutFrameDecodes S junk stream := by
  have ht := atTop_start junk w stream
  constructor
  · rintro h ⟨hall, hsome⟩
    -- a smooth kernel carries the handler through to the cut frame
    obtain ⟨heq, -⟩ := handler_calls_eq S noFail_smooth
      ((reference S stream).payloads.length + 2) (.start junk w stream) ht hall (by
        show (reference S stream).payloads.length + 1 < _
        omega)
    have hpre := h .smooth (4 * ((reference S stream).payloads.length + 2))
    rw [heq] at hpre
    obtain ⟨c, hc⟩ := Option.isSome_iff_exists.mp hsome
    have hover : overrun S junk stream = [c] := by
      simp only [overrun]
      rw [if_pos hall, hc]
      rfl
    have hlen := hpre.length_le
    rw [show (Run.start junk w stream).h.buf = junk from rfl,
      show (Run.start junk w stream).stream = stream from rfl, hover] at hlen
    simp [Run.start, Handler.start] at hlen
  · intro hno env n
    have hover : overrun S junk stream = [] := by
      simp only [overrun]
      by_cases hall : ∀ p ∈ (reference S stream).payloads, p.length ≤ 2 ^ 31
      · rw [if_pos hall]
        cases hc : cutCall S (residue junk (reference S stream).payloads)
            (reference S stream).tail with
        | none => rfl
        | some c => exact absurd ⟨hall, by rw [hc]; rfl⟩ hno
      · rw [if_neg hall]
    have hmono : (namedPipeClientHandler S env n (.start junk w stream)).h.calls
        <+: (namedPipeClientHandler S env (4 * n) (.start junk w stream)).h.calls := by
      rw [show 4 * n = n + 3 * n by omega, handler_add]
      exact handler_calls_mono S env (3 * n) _
    have hpre := handler_calls_prefix S env n _ ht
    rw [show (Run.start junk w stream).h.buf = junk from rfl,
      show (Run.start junk w stream).stream = stream from rfl, hover, List.append_nil] at hpre
    exact hmono.trans hpre

/-- A server whose functions all answer `[]`. -/
def echoServer : Server Unit where
  endian := .little
  json := textCodec
  call := fun _ _ _ => ((), ascii "[]")

/-- One request, then a header announcing as many bytes again, then EOF. -/
def cutStream : Bytes :=
  encodeFrame .little (requestToJson textCodec (ascii "s") (ascii "f"))
    ++ u32Bytes .little (requestToJson textCodec (ascii "s") (ascii "f")).length

/-- The request of `cutStream` is executed twice. -/
theorem handler_cutStream_twice :
    ¬ ∀ (env : Env) (n : Nat),
      (namedPipeClientHandler echoServer env n (.start (fill 0) () cutStream)).h.calls
        <+: (reference echoServer cutStream).calls := by
  intro h
  have hcalls : (namedPipeClientHandler echoServer .smooth 8
      (.start (fill 0) () cutStream)).h.calls
        = [(ascii "s", ascii "f"), (ascii "s", ascii "f")] := by decide +kernel
  have href : (reference echoServer cutStream).calls = [(ascii "s", ascii "f")] := by
    decide +kernel
  have := h .smooth 8
  rw [hcalls, href] at this
  exact absurd this (by decide)

end SearpcThreadServer
