import Searpc.OutcomeLoopProofs
import Searpc.PipeClientProofs
import Searpc.ThreadServerProofs

/-! # A session — client and thread server on one connection

    The sender of `searpc_named_pipe_send` and the loop of
    `named_pipe_client_handler` run side by side, one system call at a time,
    over the two byte queues of a stream socket.  The kernel is healthy: it
    splits transfers as it likes and interrupts them as it likes, but fails
    none and closes nothing.

    The alignment invariant (`Aligned`) is a conservation law.  While a request
    is under way, the bytes the server has taken, the bytes in the queue and
    the bytes the client has still to write make up exactly its frame; while
    the reply is under way, the same holds the other way round.  Each party may
    lag behind by one return, which is why a finished writer and a reader that
    has read nothing count as the same position. -/

namespace SearpcSession

open ByteMemory Framing JsonValue SearpcJansson SearpcPipeIo SearpcRequest
open SearpcThreadServer (Server Handler growBufsize growTurns)
open SearpcPipeClient (Sender)

variable {σ : Type}

/-! ## The machine -/

/-- A transfer under way: `pipe_read_n` with its locals, `pipe_write_n` of `n`
    bytes with those still to go, or none. -/
inductive Io where
  | idle
  | reading (l : ReadLoop)
  | writing (n : Nat) (left : Bytes)

/-- What a system call did: moved bytes, or was interrupted. -/
inductive Label where
  | moved
  | eintr
deriving DecidableEq

/-- One healthy system call of a transfer with its incoming and outgoing queue. -/
inductive IoStep : Label → Io × Bytes × Bytes → Io × Bytes × Bytes → Prop where
  | read {l l' : ReadLoop} {inq outq : Bytes} {k : Nat} (hk : 0 < k) (hl : k ≤ l.nleft)
      (hq : k ≤ inq.length) (ht : readTurn l (.data (inq.take k)) = .more l') :
      IoStep .moved (.reading l, inq, outq) (.reading l', inq.drop k, outq)
  | readEintr {l l' : ReadLoop} {inq outq : Bytes} (hl : 0 < l.nleft)
      (ht : readTurn l .eintr = .more l') :
      IoStep .eintr (.reading l, inq, outq) (.reading l', inq, outq)
  | write {n k : Nat} {left left' : Bytes} {inq outq : Bytes} (hk : 0 < k)
      (hl : k ≤ left.length) (ht : writeTurn left (.wrote k) = .more left') :
      IoStep .moved (.writing n left, inq, outq) (.writing n left', inq, outq ++ left.take k)
  | writeEintr {n : Nat} {left left' : Bytes} {inq outq : Bytes} (hl : 0 < left.length)
      (ht : writeTurn left .eintr = .more left') :
      IoStep .eintr (.writing n left, inq, outq) (.writing n left', inq, outq)

/-- The result of a transfer whose loop is over. -/
def Io.finished : Io → Option (Int × Mem)
  | .reading l => if l.nleft = 0 then some (l.ptr, l.mem) else none
  | .writing n [] => some (n, fill 0)
  | _ => none

/-- The transfer call the sender stands at. -/
def clientIo (e : Endian) (c : Sender) : Io :=
  match c.pc with
  | .writeLen => .writing 4 (u32Bytes e c.len)
  | .writeBody => .writing c.len (c.jsonStr.take c.len)
  | .readLen => .reading (.enter (wordMem e c.len) 4)
  | .readBody => .reading (.enter c.buf c.len)
  | .done => .idle

/-- The sender after its transfer call returned. -/
def clientResume (e : Endian) (c : Sender) (ret : Int) (mem : Mem) : Sender :=
  match c.pc with
  | .writeLen => SearpcPipeClient.afterWriteLen c ret
  | .writeBody => SearpcPipeClient.afterWriteBody c ret
  | .readLen => SearpcPipeClient.afterReadLen e c ret mem
  | .readBody => SearpcPipeClient.afterReadBody c ret mem
  | .done => c

/-- The transfer call the handler stands at. -/
def serverIo (S : Server σ) (h : Handler σ) : Io :=
  match h.pc with
  | .readLen => .reading (.enter (wordMem S.endian h.len) 4)
  | .readBody => .reading (.enter h.buf h.len)
  | .writeLen => .writing 4 (u32Bytes S.endian h.len)
  | .writeBody => .writing h.retStr.length h.retStr
  | .closed => .idle
  | .spinning => .idle

/-- The handler after its transfer call returned. -/
def serverResume (S : Server σ) (h : Handler σ) (ret : Int) (mem : Mem) : Handler σ :=
  match h.pc with
  | .readLen => SearpcThreadServer.afterReadLen S h ret mem
  | .readBody => SearpcThreadServer.afterReadBody S h ret mem
  | .writeLen => SearpcThreadServer.afterWriteLen h ret
  | .writeBody => SearpcThreadServer.afterWriteBody h ret
  | .closed => h
  | .spinning => h

/-- Both parties, their transfers under way, the two queues, the calls the
    client has still to make and what the calls made so far returned. -/
structure Session (σ : Type) where
  todo : List Call
  cl   : Sender
  cio  : Io
  srv  : Handler σ
  sio  : Io
  c2s  : Bytes
  s2c  : Bytes
  rets : List (Option (Bytes × Nat))

/-- A fresh connection and a client that will make the calls `reqs`. -/
def Session.start (S : Server σ) (junk : Mem) (w : σ) (reqs : List Call) : Session σ where
  todo := reqs
  cl := ⟨.done, [], 0, junk, none⟩
  cio := .idle
  srv := .start junk w
  sio := serverIo S (.start junk w)
  c2s := []
  s2c := []
  rets := []

/-- One step of a session: a system call of either party, the return of either
    party's transfer call, or the client's next call. -/
inductive Step (S : Server σ) : Label → Session σ → Session σ → Prop where
  | client {lb : Label} {s : Session σ} {io : Io} {s2c c2s : Bytes}
      (h : IoStep lb (s.cio, s.s2c, s.c2s) (io, s2c, c2s)) :
      Step S lb s { s with cio := io, s2c := s2c, c2s := c2s }
  | server {lb : Label} {s : Session σ} {io : Io} {s2c c2s : Bytes}
      (h : IoStep lb (s.sio, s.c2s, s.s2c) (io, c2s, s2c)) :
      Step S lb s { s with sio := io, c2s := c2s, s2c := s2c }
  | clientReturn {s : Session σ} {ret : Int} {mem : Mem} (h : s.cio.finished = some (ret, mem)) :
      Step S .moved s
        { s with
          cl := clientResume S.endian s.cl ret mem
          cio := clientIo S.endian (clientResume S.endian s.cl ret mem)
          rets := if (clientResume S.endian s.cl ret mem).pc = .done then
              s.rets ++ [(clientResume S.endian s.cl ret mem).ret]
            else s.rets }
  | serverReturn {s : Session σ} {ret : Int} {mem : Mem} (h : s.sio.finished = some (ret, mem)) :
      Step S .moved s
        { s with
          srv := serverResume S s.srv ret mem
          sio := serverIo S (serverResume S s.srv ret mem) }
  | call {s : Session σ} {c : Call} {todo : List Call} (junk : Mem) (hpc : s.cl.pc = .done)
      (h : s.todo = c :: todo) :
      Step S .moved s
        { s with
          todo := todo
          cl := .start S.json junk c.1 c.2
          cio := clientIo S.endian (.start S.json junk c.1 c.2) }

/-- A run from `s`, with the number of its steps that are not interrupts. -/
inductive Run (S : Server σ) (s : Session σ) : Nat → Session σ → Prop where
  | refl : Run S s 0 s
  | moved {n : Nat} {t u : Session σ} : Run S s n t → Step S .moved t u → Run S s (n + 1) u
  | eintr {n : Nat} {t u : Session σ} : Run S s n t → Step S .eintr t u → Run S s n u

/-- The replies of the functions to a sequence of calls. -/
def replies (S : Server σ) : σ → List Call → List Bytes
  | _, [] => []
  | w, c :: cs => (S.call w c.1 c.2).2 :: replies S (S.call w c.1 c.2).1 cs

/-- What the sends should return. -/
def answers (S : Server σ) (w : σ) (cs : List Call) : List (Option (Bytes × Nat)) :=
  (replies S w cs).map (fun r => some (r, r.length))

/-- The client is between two calls. -/
def Session.Between (s : Session σ) : Prop := s.cl.pc = .done

/-- The client has made all its calls and the last has returned. -/
def Session.Over (s : Session σ) : Prop := s.Between ∧ s.todo = []

/-! ## Positions inside a frame -/

/-- A reader of `bs` that has its first `k` bytes. -/
def Filling (io : Io) (bs : Bytes) (k : Nat) : Prop :=
  ∃ m, io = .reading ⟨store m 0 (bs.take k), k, bs.length - k⟩ ∧ k ≤ bs.length

/-- The two transfers a frame takes. -/
inductive Stage where
  | len
  | body
deriving DecidableEq

/-- A party that has taken `k` bytes of the frame of `p`. -/
inductive Taking (e : Endian) (p : Bytes) : Stage → Nat → Io → Nat → Prop where
  | len {v k : Nat} {io : Io} (h : Filling io (u32Bytes e p.length) k) :
      Taking e p .len v io k
  | body {j : Nat} {io : Io} (h : Filling io p j) : Taking e p .body p.length io (4 + j)

/-- A party that has `rest` of the frame of `p` still to write. -/
inductive Giving (p : Bytes) : Stage → Io → Bytes → Prop where
  | len {n : Nat} {left : Bytes} : Giving p .len (.writing n left) (left ++ p)
  | body {n : Nat} {rest : Bytes} : Giving p .body (.writing n rest) rest

/-! ## What a system call does to a position -/

/-- An interrupted call changes nothing. -/
theorem ioStep_eintr {x y : Io × Bytes × Bytes} (h : IoStep .eintr x y) : y = x := by
  cases h with
  | readEintr hl ht =>
      simp only [readTurn, ReadTurn.more.injEq] at ht
      rw [ht]
  | writeEintr hl ht =>
      simp only [writeTurn, WriteTurn.more.injEq] at ht
      rw [ht]

/-- A read takes some of the bytes the reader is after. -/
theorem filling_step {io io' : Io} {inq inq' outq outq' bs tail rest : Bytes} {k : Nat}
    (h : IoStep .moved (io, inq, outq) (io', inq', outq')) (hf : Filling io bs k)
    (hq : inq ++ rest = bs.drop k ++ tail) :
    ∃ j, 0 < j ∧ Filling io' bs (k + j) ∧ j ≤ inq.length ∧ inq' = inq.drop j ∧ outq' = outq := by
  obtain ⟨m, rfl, hk⟩ := hf
  cases h with
  | @read l l' _ _ j hj hl hjq ht =>
      have hlen : (inq.take j).length = j := by rw [List.length_take]; omega
      have hne : inq.take j ≠ [] := by
        intro h0
        rw [h0, List.length_nil] at hlen
        omega
      rw [readTurn_data _ hne, hlen] at ht
      simp only [ReadTurn.more.injEq] at ht
      have hl' : j ≤ bs.length - k := hl
      refine ⟨j, hj, ⟨m, ?_, by omega⟩, hjq, rfl, rfl⟩
      -- what was read continues what the buffer holds
      have htake : inq.take j = (bs.drop k).take j := by
        have hcut := congrArg (List.take j) hq
        rw [List.take_append_of_le_length hjq,
          List.take_append_of_le_length (by rw [List.length_drop]; omega)] at hcut
        exact hcut
      have hst := store_store m 0 (bs.take k) ((bs.drop k).take j)
      rw [List.length_take, Nat.min_eq_left hk, Nat.zero_add, ← List.take_add] at hst
      rw [← ht, htake]
      show Io.reading ⟨store (store m 0 (bs.take k)) k ((bs.drop k).take j), k + j, _⟩ = _
      rw [hst]
      congr 2
      omega

/-- A read moves a party on inside the frame. -/
theorem taking_step {e : Endian} {p : Bytes} {st : Stage} {v k : Nat} {io io' : Io}
    {inq inq' outq outq' rest : Bytes} (h : IoStep .moved (io, inq, outq) (io', inq', outq'))
    (ht : Taking e p st v io k) (hq : (encodeFrame e p).drop k = inq ++ rest) :
    ∃ j, 0 < j ∧ Taking e p st v io' (k + j) ∧ outq' = outq ∧ inq'.length + j = inq.length
      ∧ (encodeFrame e p).drop (k + j) = inq' ++ rest := by
  have hmove : ∀ j, j ≤ inq.length → inq' = inq.drop j →
      inq'.length + j = inq.length ∧ (encodeFrame e p).drop (k + j) = inq' ++ rest := by
    rintro j hj rfl
    refine ⟨by rw [List.length_drop]; omega, ?_⟩
    rw [← List.drop_drop, hq, List.drop_append_of_le_length hj]
  cases ht with
  | len hf =>
      obtain ⟨m, hio, hk⟩ := hf
      have hdrop : inq ++ rest = (u32Bytes e p.length).drop k ++ p := by
        rw [← hq, encodeFrame, List.drop_append_of_le_length hk]
      obtain ⟨j, hj, hf', hjq, hin, hout⟩ := filling_step h ⟨m, hio, hk⟩ hdrop
      exact ⟨j, hj, .len hf', hout, hmove j hjq hin⟩
  | @body i _ hf =>
      have hdrop : inq ++ rest = p.drop i ++ [] := by
        rw [← hq, List.append_nil, ← List.drop_drop, drop_header]
      obtain ⟨j, hj, hf', hjq, hin, hout⟩ := filling_step h hf hdrop
      refine ⟨j, hj, ?_, hout, hmove j hjq hin⟩
      rw [Nat.add_assoc]
      exact .body hf'

/-- A write moves bytes from what is left to the queue. -/
theorem giving_step {p : Bytes} {st : Stage} {io io' : Io} {inq inq' outq outq' rest : Bytes}
    (h : IoStep .moved (io, inq, outq) (io', inq', outq')) (hg : Giving p st io rest) :
    ∃ rest', Giving p st io' rest' ∧ inq' = inq ∧ outq' ++ rest' = outq ++ rest
      ∧ rest'.length < rest.length := by
  have hturn : ∀ {left left' : Bytes} {k : Nat}, 0 < k →
      writeTurn left (.wrote k) = .more left' → left' = left.drop k := by
    intro left left' k hk ht
    obtain ⟨j, rfl⟩ : ∃ j, k = j + 1 := ⟨k - 1, by omega⟩
    simp only [writeTurn, WriteTurn.more.injEq] at ht
    exact ht.symm
  cases hg with
  | @len n left =>
      cases h with
      | @write _ k _ left' _ _ hk hl ht =>
          obtain rfl := hturn hk ht
          refine ⟨left.drop k ++ p, .len, rfl, ?_, ?_⟩
          · rw [List.append_assoc, ← List.append_assoc (left.take k), List.take_append_drop]
          · rw [List.length_append, List.length_append, List.length_drop]
            omega
  | body =>
      cases h with
      | @write _ k _ left' _ _ hk hl ht =>
          obtain rfl := hturn hk ht
          refine ⟨rest.drop k, .body, rfl, ?_, ?_⟩
          · rw [List.append_assoc, List.take_append_drop]
          · rw [List.length_drop]
            omega

/-- A reader returns when it has its part of the frame. -/
theorem taking_finished {e : Endian} {p : Bytes} {st : Stage} {v k : Nat} {io : Io} {ret : Int}
    {mem : Mem} (h : io.finished = some (ret, mem)) (ht : Taking e p st v io k) :
    ¬ ret < 0 ∧ (st = .len → k = 4 ∧ memWord e mem = p.length % 2 ^ 32)
      ∧ (st = .body → k = 4 + p.length ∧ v = p.length ∧ slice mem p.length = p) := by
  have hfill : ∀ {bs : Bytes} {j : Nat}, Filling io bs j →
      ret = j ∧ j = bs.length ∧ ∃ m, mem = store m 0 bs := by
    rintro bs j ⟨m, rfl, hj⟩
    by_cases h0 : bs.length - j = 0
    · have hjl : j = bs.length := by omega
      simp only [Io.finished, if_pos h0, Option.some.injEq, Prod.mk.injEq] at h
      obtain ⟨rfl, rfl⟩ := h
      refine ⟨rfl, hjl, m, ?_⟩
      rw [hjl, List.take_length]
    · simp only [Io.finished, if_neg h0] at h
      exact nomatch h
  cases ht with
  | len hf =>
      obtain ⟨rfl, hk, m, rfl⟩ := hfill hf
      rw [u32Bytes_length] at hk
      refine ⟨by omega, fun _ => ⟨hk, ?_⟩, (fun hst => nomatch hst)⟩
      rw [memWord_store_full e m (u32Bytes_length e _), u32Value_u32Bytes]
  | body hf =>
      obtain ⟨rfl, hk, m, rfl⟩ := hfill hf
      refine ⟨by omega, (fun hst => nomatch hst), fun _ => ⟨by omega, rfl, ?_⟩⟩
      exact slice_store_eq m rfl

/-- A writer returns when it has written its part of the frame. -/
theorem giving_finished {p : Bytes} {st : Stage} {io : Io} {rest : Bytes} {ret : Int} {mem : Mem}
    (h : io.finished = some (ret, mem)) (hg : Giving p st io rest) :
    ¬ ret < 0 ∧ (st = .len → rest = p) ∧ (st = .body → rest = []) := by
  have hleft : ∀ {n : Nat} {left : Bytes}, (Io.writing n left).finished = some (ret, mem) →
      ret = n ∧ left = [] := by
    intro n left hl
    cases left with
    | nil =>
        simp only [Io.finished, Option.some.injEq, Prod.mk.injEq] at hl
        exact ⟨hl.1.symm, rfl⟩
    | cons b left => exact nomatch hl
  cases hg with
  | len =>
      obtain ⟨rfl, rfl⟩ := hleft h
      exact ⟨by omega, fun _ => rfl, (fun hst => nomatch hst)⟩
  | body =>
      obtain ⟨rfl, rfl⟩ := hleft h
      exact ⟨by omega, (fun hst => nomatch hst), fun _ => rfl⟩

/-- A writer is never stuck. -/
theorem giving_enabled {p : Bytes} {st : Stage} {io : Io} {rest : Bytes} (hg : Giving p st io rest)
    (inq outq : Bytes) :
    (∃ r, io.finished = some r)
      ∨ ∃ io' outq', IoStep .moved (io, inq, outq) (io', inq, outq') := by
  have hwrite : ∀ {n : Nat} {left : Bytes}, (∃ r, (Io.writing n left).finished = some r)
      ∨ ∃ io' outq', IoStep .moved (.writing n left, inq, outq) (io', inq, outq') := by
    intro n left
    cases left with
    | nil => exact Or.inl ⟨_, rfl⟩
    | cons b left =>
        exact Or.inr ⟨_, _, .write (k := 1) Nat.zero_lt_one (by simp) rfl⟩
  cases hg with
  | len => exact hwrite
  | body => exact hwrite

/-- A reader is not stuck once the rest of its frame is in the queue. -/
theorem taking_enabled {e : Endian} {p : Bytes} {st : Stage} {v k : Nat} {io : Io} {inq : Bytes}
    (ht : Taking e p st v io k) (hq : (encodeFrame e p).drop k = inq) (outq : Bytes) :
    (∃ r, io.finished = some r)
      ∨ ∃ io' inq', IoStep .moved (io, inq, outq) (io', inq', outq) := by
  have hread : ∀ {bs : Bytes} {j : Nat}, Filling io bs j → (j < bs.length → inq ≠ []) →
      (∃ r, io.finished = some r)
        ∨ ∃ io' inq', IoStep .moved (io, inq, outq) (io', inq', outq) := by
    rintro bs j ⟨m, rfl, hj⟩ hne
    by_cases h0 : bs.length - j = 0
    · exact Or.inl ⟨(j, store m 0 (bs.take j)), by simp only [Io.finished, if_pos h0]⟩
    · have hpos := List.length_pos_iff.mpr (hne (by omega))
      have htake : inq.take 1 ≠ [] := by
        intro h1
        have := congrArg List.length h1
        rw [List.length_take, List.length_nil] at this
        omega
      exact Or.inr ⟨_, _, .read Nat.zero_lt_one (Nat.pos_of_ne_zero h0) hpos
        (readTurn_data _ htake)⟩
  have hlen := congrArg List.length hq
  rw [List.length_drop, encodeFrame, List.length_append, u32Bytes_length] at hlen
  cases ht with
  | len hf =>
      refine hread hf (fun hk h0 => ?_)
      rw [u32Bytes_length] at hk
      rw [h0, List.length_nil] at hlen
      omega
  | body hf =>
      refine hread hf (fun hk h0 => ?_)
      rw [h0, List.length_nil] at hlen
      omega

/-! ## The alignment invariant -/

/-- The JSON text of a request. -/
def text (S : Server σ) (c : Call) : Bytes := requestToJson S.json c.1 c.2

/-- The function's reply to a request. -/
def reply (S : Server σ) (w : σ) (c : Call) : Bytes := (S.call w c.1 c.2).2

/-- A party with `rest` of the frame of `p` to write; `atLen` and `atBody` say
    that it stands at the one or the other of its two writes. -/
def Gives (atLen atBody : Prop) (io : Io) (p rest : Bytes) : Prop :=
  (atLen ∧ Giving p .len io rest) ∨ (atBody ∧ Giving p .body io rest)

/-- A party that has taken `k` bytes of the frame of `p`, at the one or the
    other of its two reads. -/
def Takes (atLen atBody : Prop) (e : Endian) (v : Nat) (io : Io) (p : Bytes) (k : Nat) : Prop :=
  (atLen ∧ Taking e p .len v io k) ∨ (atBody ∧ Taking e p .body v io k)

/-- A party that has written its frame but not noticed. -/
def Spent (atBody : Prop) (io : Io) : Prop := atBody ∧ ∃ n, io = .writing n []

/-- A party that waits for the first byte of a frame. -/
def Fresh (atLen : Prop) (io : Io) : Prop := atLen ∧ ∃ m, io = .reading (.enter m 4)

def ClientGives (c : Sender) (io : Io) (p rest : Bytes) : Prop :=
  Gives (c.pc = .writeLen ∧ c.jsonStr = p ∧ c.len = p.length) (c.pc = .writeBody) io p rest

def ClientTakes (e : Endian) (c : Sender) (io : Io) (p : Bytes) (k : Nat) : Prop :=
  Takes (c.pc = .readLen) (c.pc = .readBody) e c.len io p k

def ServerGives (h : Handler σ) (io : Io) (p rest : Bytes) : Prop :=
  Gives (h.pc = .writeLen ∧ h.retStr = p) (h.pc = .writeBody) io p rest

def ServerTakes (e : Endian) (h : Handler σ) (io : Io) (p : Bytes) (k : Nat) : Prop :=
  Takes (h.pc = .readLen) (h.pc = .readBody) e h.len io p k

/-- Returns the client has ahead of it in this call. -/
def clientTurns : SearpcPipeClient.Pc → Nat
  | .writeLen => 4
  | .writeBody => 3
  | .readLen => 2
  | .readBody => 1
  | .done => 0

/-- Returns the server has ahead of it in this call, before and after it has
    run the function. -/
def serverTurns : Bool → SearpcThreadServer.Pc → Nat
  | false, .writeBody => 5
  | false, .readLen => 4
  | false, .readBody => 3
  | true, .writeLen => 2
  | true, .writeBody => 1
  | _, _ => 0

/-- Steps that a sequence of calls takes at most: every byte is written once
    and read once, and every call starts once and returns from eight
    transfers. -/
def work (S : Server σ) : σ → List Call → Nat
  | _, [] => 0
  | w, c :: cs =>
      9 + 2 * (4 + (text S c).length) + 2 * (4 + (reply S w c).length)
        + work S (S.call w c.1 c.2).1 cs

/-- **ALIGNMENT**, with a bound on the steps still to come: a request is under
    way, its reply is under way, or the connection is quiet. -/
inductive Aligned (S : Server σ) (reqs : List Call) (total : List (Option (Bytes × Nat))) :
    Nat → Session σ → Prop where
  | request {s : Session σ} (c : Call) (rest : Bytes) (k : Nat)
      (client : ClientGives s.cl s.cio (text S c) rest
        ∨ (rest = [] ∧ Fresh (s.cl.pc = .readLen) s.cio))
      (server : ServerTakes S.endian s.srv s.sio (text S c) k
        ∨ (k = 0 ∧ Spent (s.srv.pc = .writeBody) s.sio))
      (frame : (encodeFrame S.endian (text S c)).drop k = s.c2s ++ rest)
      (quiet : s.s2c = [])
      (size : ∃ b, b ≤ 31 ∧ s.srv.bufsize = 2 ^ b)
      (calls : s.srv.calls ++ c :: s.todo = reqs)
      (rets : s.rets ++ answers S s.srv.world (c :: s.todo) = total) :
      Aligned S reqs total
        (2 * rest.length + s.c2s.length + 2 * (4 + (reply S s.srv.world c).length)
          + clientTurns s.cl.pc + serverTurns false s.srv.pc
          + work S (S.call s.srv.world c.1 c.2).1 s.todo) s
  | reply {s : Session σ} (r rest : Bytes) (k : Nat)
      (client : ClientTakes S.endian s.cl s.cio r k ∨ (k = 0 ∧ Spent (s.cl.pc = .writeBody) s.cio))
      (server : ServerGives s.srv s.sio r rest ∨ (rest = [] ∧ Fresh (s.srv.pc = .readLen) s.sio))
      (frame : (encodeFrame S.endian r).drop k = s.s2c ++ rest)
      (quiet : s.c2s = [])
      (size : ∃ b, b ≤ 31 ∧ s.srv.bufsize = 2 ^ b)
      (calls : s.srv.calls ++ s.todo = reqs)
      (rets : s.rets ++ some (r, r.length) :: answers S s.srv.world s.todo = total) :
      Aligned S reqs total
        (2 * rest.length + s.s2c.length + clientTurns s.cl.pc + serverTurns true s.srv.pc
          + work S s.srv.world s.todo) s
  | between {s : Session σ}
      (client : s.cl.pc = .done ∧ s.cio = .idle)
      (server : Spent (s.srv.pc = .writeBody) s.sio ∨ Fresh (s.srv.pc = .readLen) s.sio)
      (quiet : s.c2s = [] ∧ s.s2c = [])
      (size : ∃ b, b ≤ 31 ∧ s.srv.bufsize = 2 ^ b)
      (calls : s.srv.calls ++ s.todo = reqs)
      (rets : s.rets ++ answers S s.srv.world s.todo = total) :
      Aligned S reqs total (serverTurns true s.srv.pc + work S s.srv.world s.todo) s

/-- What the sequence of calls is promised: UTF-8 texts without NUL, requests
    that fit the handler's buffer, replies that fit the header and are not
    empty. -/
structure Healthy (S : Server σ) (w : σ) (reqs : List Call) : Prop where
  utf8  : ∀ c ∈ reqs, Text c.1 ∧ Text c.2
  short : ∀ c ∈ reqs, (requestToJson S.json c.1 c.2).length ≤ 2 ^ 31
  reply : ∀ r ∈ replies S w reqs, 1 ≤ r.length ∧ r.length ≤ 2 ^ 32 - 1

/-! ## Positions of the two parties -/

/-- A client with a request under way is not done. -/
theorem request_not_done {cl : Sender} {io : Io} {p rest : Bytes}
    (h : ClientGives cl io p rest ∨ (rest = [] ∧ Fresh (cl.pc = .readLen) io)) :
    cl.pc ≠ .done := by
  intro hdone
  rcases h with (⟨⟨hpc, -⟩, -⟩ | ⟨hpc, -⟩) | ⟨-, hpc, -⟩
  · rw [hdone] at hpc
    cases hpc
  · rw [hdone] at hpc
    cases hpc
  · rw [hdone] at hpc
    cases hpc

/-- Nor is one with a reply under way. -/
theorem reply_not_done {e : Endian} {cl : Sender} {io : Io} {r : Bytes} {k : Nat}
    (h : ClientTakes e cl io r k ∨ (k = 0 ∧ Spent (cl.pc = .writeBody) io)) : cl.pc ≠ .done := by
  intro hdone
  rcases h with (⟨hpc, -⟩ | ⟨hpc, -⟩) | ⟨-, hpc, -⟩
  · rw [hdone] at hpc
    cases hpc
  · rw [hdone] at hpc
    cases hpc
  · rw [hdone] at hpc
    cases hpc

theorem fresh_filling (m : Mem) {bs : Bytes} (h : bs.length = 4) :
    Filling (.reading (.enter m 4)) bs 0 :=
  ⟨m, by simp [ReadLoop.enter, h], Nat.zero_le _⟩

theorem Fresh.takes {atLen atBody : Prop} {e : Endian} {v : Nat} {io : Io} (h : Fresh atLen io)
    (p : Bytes) : Takes atLen atBody e v io p 0 := by
  obtain ⟨hpc, m, rfl⟩ := h
  exact Or.inl ⟨hpc, .len (fresh_filling m (u32Bytes_length e _))⟩

theorem giving_body_nil {p : Bytes} {io : Io} (h : Giving p .body io []) :
    ∃ n, io = .writing n [] := by
  cases h with
  | @body n => exact ⟨n, rfl⟩

theorem giving_len_nil {p : Bytes} {io : Io} (hp : p ≠ []) : ¬ Giving p .len io [] := by
  intro h
  generalize hrest : ([] : Bytes) = rest at h
  cases h with
  | len => exact hp (List.append_eq_nil_iff.mp hrest.symm).2

/-- A party with nothing left to write is spent. -/
theorem Gives.spent {atLen atBody : Prop} {io : Io} {p : Bytes} (hp : p ≠ [])
    (h : Gives atLen atBody io p []) : Spent atBody io := by
  rcases h with ⟨-, hg⟩ | ⟨hpc, hg⟩
  · exact absurd hg (giving_len_nil hp)
  · exact ⟨hpc, giving_body_nil hg⟩

theorem gives_step {atLen atBody : Prop} {io io' : Io} {inq inq' outq outq' p rest : Bytes}
    (h : IoStep .moved (io, inq, outq) (io', inq', outq')) (hg : Gives atLen atBody io p rest) :
    ∃ rest', Gives atLen atBody io' p rest' ∧ inq' = inq ∧ outq' ++ rest' = outq ++ rest
      ∧ rest'.length < rest.length := by
  rcases hg with ⟨hpc, hg⟩ | ⟨hpc, hg⟩
  · obtain ⟨rest', hg', hmove⟩ := giving_step h hg
    exact ⟨rest', Or.inl ⟨hpc, hg'⟩, hmove⟩
  · obtain ⟨rest', hg', hmove⟩ := giving_step h hg
    exact ⟨rest', Or.inr ⟨hpc, hg'⟩, hmove⟩

theorem takes_step {atLen atBody : Prop} {e : Endian} {v k : Nat} {io io' : Io}
    {inq inq' outq outq' p rest : Bytes} (h : IoStep .moved (io, inq, outq) (io', inq', outq'))
    (ht : Takes atLen atBody e v io p k) (hq : (encodeFrame e p).drop k = inq ++ rest) :
    ∃ j, 0 < j ∧ Takes atLen atBody e v io' p (k + j) ∧ outq' = outq
      ∧ inq'.length + j = inq.length ∧ (encodeFrame e p).drop (k + j) = inq' ++ rest := by
  rcases ht with ⟨hpc, ht⟩ | ⟨hpc, ht⟩
  · obtain ⟨j, hj, ht', hmove⟩ := taking_step h ht hq
    exact ⟨j, hj, Or.inl ⟨hpc, ht'⟩, hmove⟩
  · obtain ⟨j, hj, ht', hmove⟩ := taking_step h ht hq
    exact ⟨j, hj, Or.inr ⟨hpc, ht'⟩, hmove⟩

/-- A spent writer makes no more system calls. -/
theorem Spent.not_ioStep {atBody : Prop} {io : Io} (h : Spent atBody io) {inq outq : Bytes}
    {y : Io × Bytes × Bytes} : ¬ IoStep .moved (io, inq, outq) y := by
  obtain ⟨-, n, rfl⟩ := h
  intro hstep
  cases hstep with
  | write hk hl ht => exact absurd hl (by simp; omega)

/-- A reader gets nothing from an empty queue. -/
theorem Fresh.not_ioStep {atLen : Prop} {io : Io} (h : Fresh atLen io) {outq : Bytes}
    {y : Io × Bytes × Bytes} : ¬ IoStep .moved (io, [], outq) y := by
  obtain ⟨-, m, rfl⟩ := h
  intro hstep
  cases hstep with
  | read hk hl hq ht => exact absurd hq (by simp; omega)

/-- A reader that has nothing does not return. -/
theorem Fresh.not_finished {atLen : Prop} {io : Io} (h : Fresh atLen io) :
    io.finished = none := by
  obtain ⟨-, m, rfl⟩ := h
  rfl

theorem Spent.finished {atBody : Prop} {io : Io} (h : Spent atBody io) :
    ∃ n : Nat, io.finished = some ((n : Int), fill 0) := by
  obtain ⟨-, n, rfl⟩ := h
  exact ⟨n, rfl⟩

/-! ## One step keeps the alignment -/

section Steps

variable {S : Server σ} {Good : Json → Prop} {w : σ} {reqs : List Call}
  {total : List (Option (Bytes × Nat))} {fuel : Nat} {s : Session σ}

/-- A system call of the client. -/
theorem aligned_client (ha : Aligned S reqs total fuel s) {io : Io} {s2c c2s : Bytes}
    (h : IoStep .moved (s.cio, s.s2c, s.c2s) (io, s2c, c2s)) :
    ∃ fuel' < fuel, Aligned S reqs total fuel' { s with cio := io, s2c := s2c, c2s := c2s } := by
  cases ha with
  | request c rest k client server frame quiet size calls rets =>
      rcases client with hg | ⟨-, hfresh⟩
      · obtain ⟨rest', hg', hin, hout, hlt⟩ := gives_step h hg
        have hlen := congrArg List.length hout
        rw [List.length_append, List.length_append] at hlen
        refine ⟨_, ?_, .request c rest' k (Or.inl hg') server (frame.trans hout.symm)
          (hin.trans quiet) size calls rets⟩
        dsimp only
        omega
      · rw [quiet] at h
        exact absurd h hfresh.not_ioStep
  | reply r rest k client server frame quiet size calls rets =>
      rcases client with ht | ⟨-, hspent⟩
      · obtain ⟨j, hj, ht', hout, hlen, hframe⟩ := takes_step h ht frame
        refine ⟨_, ?_, .reply r rest (k + j) (Or.inl ht') server hframe (hout.trans quiet)
          size calls rets⟩
        dsimp only
        omega
      · exact absurd h hspent.not_ioStep
  | between client server quiet size calls rets =>
      rw [client.2] at h
      exact nomatch h

/-- A system call of the server. -/
theorem aligned_server (ha : Aligned S reqs total fuel s) {io : Io} {s2c c2s : Bytes}
    (h : IoStep .moved (s.sio, s.c2s, s.s2c) (io, c2s, s2c)) :
    ∃ fuel' < fuel, Aligned S reqs total fuel' { s with sio := io, c2s := c2s, s2c := s2c } := by
  cases ha with
  | request c rest k client server frame quiet size calls rets =>
      rcases server with ht | ⟨-, hspent⟩
      · obtain ⟨j, hj, ht', hout, hlen, hframe⟩ := takes_step h ht frame
        refine ⟨_, ?_, .request c rest (k + j) client (Or.inl ht') hframe (hout.trans quiet)
          size calls rets⟩
        dsimp only
        omega
      · exact absurd h hspent.not_ioStep
  | reply r rest k client server frame quiet size calls rets =>
      rcases server with hg | ⟨-, hfresh⟩
      · obtain ⟨rest', hg', hin, hout, hlt⟩ := gives_step h hg
        have hlen := congrArg List.length hout
        rw [List.length_append, List.length_append] at hlen
        refine ⟨_, ?_, .reply r rest' k client (Or.inl hg') (frame.trans hout.symm)
          (hin.trans quiet) size calls rets⟩
        dsimp only
        omega
      · rw [quiet] at h
        exact absurd h hfresh.not_ioStep
  | between client server quiet size calls rets =>
      rcases server with hspent | hfresh
      · exact absurd h hspent.not_ioStep
      · rw [quiet.1] at h
        exact absurd h hfresh.not_ioStep

/-- The reply to a call still to be answered fits. -/
theorem reply_bounds (H : Healthy S w reqs) {rets more : List (Option (Bytes × Nat))} {r : Bytes}
    (h : rets ++ some (r, r.length) :: more = answers S w reqs) :
    1 ≤ r.length ∧ r.length ≤ 2 ^ 32 - 1 := by
  have hmem : some (r, r.length) ∈ answers S w reqs := by
    rw [← h]
    exact List.mem_append_right _ List.mem_cons_self
  obtain ⟨r', hr', heq⟩ := List.mem_map.mp hmem
  simp only [Option.some.injEq, Prod.mk.injEq] at heq
  rw [← heq.1]
  exact H.reply r' hr'

theorem mod_of_fits {n : Nat} (h : n ≤ 2 ^ 32 - 1) : n % 2 ^ 32 = n :=
  Nat.mod_eq_of_lt (by omega)

/-- The return of one of the client's transfers while the request is under
    way. -/
theorem clientReturn_request {c : Sender} {io : Io} {p rest : Bytes} {ret : Int} {mem : Mem}
    (e : Endian) (h : io.finished = some (ret, mem)) (hg : ClientGives c io p rest) :
    ∃ c', clientResume e c ret mem = c' ∧ c'.pc ≠ .done
      ∧ clientTurns c'.pc < clientTurns c.pc
      ∧ (ClientGives c' (clientIo e c') p rest
        ∨ (rest = [] ∧ Fresh (c'.pc = .readLen) (clientIo e c'))) := by
  rcases hg with ⟨⟨hpc, hj, hl⟩, hg⟩ | ⟨hpc, hg⟩
  · obtain ⟨hret, hrest, -⟩ := giving_finished h hg
    have hres : clientResume e c ret mem = { c with pc := .writeBody } := by
      simp only [clientResume, hpc, SearpcPipeClient.afterWriteLen, if_neg hret]
    refine ⟨_, hres, by simp, by simp [hpc, clientTurns], Or.inl (Or.inr ⟨rfl, ?_⟩)⟩
    rw [hrest rfl]
    show Giving p .body (.writing c.len (c.jsonStr.take c.len)) p
    rw [hj, hl, List.take_length]
    exact .body
  · obtain ⟨hret, -, hrest⟩ := giving_finished h hg
    have hres : clientResume e c ret mem = { c with pc := .readLen } := by
      simp only [clientResume, hpc, SearpcPipeClient.afterWriteBody, if_neg hret]
    exact ⟨_, hres, by simp, by simp [hpc, clientTurns], Or.inr ⟨hrest rfl, rfl, _, rfl⟩⟩

/-- The return of one of the client's transfers while the reply is under way. -/
theorem clientReturn_reply {e : Endian} {c : Sender} {io : Io} {r : Bytes} {k : Nat} {ret : Int}
    {mem : Mem} (hr : 1 ≤ r.length ∧ r.length ≤ 2 ^ 32 - 1) (h : io.finished = some (ret, mem))
    (ht : ClientTakes e c io r k) :
    ∃ c', clientResume e c ret mem = c' ∧ clientTurns c'.pc < clientTurns c.pc
      ∧ ((c'.pc ≠ .done ∧ ClientTakes e c' (clientIo e c') r k)
        ∨ (c'.pc = .done ∧ c'.ret = some (r, r.length) ∧ clientIo e c' = .idle
          ∧ k = 4 + r.length)) := by
  rcases ht with ⟨hpc, ht⟩ | ⟨hpc, ht⟩
  · obtain ⟨hret, hlen, -⟩ := taking_finished h ht
    obtain ⟨rfl, hword⟩ := hlen rfl
    rw [mod_of_fits hr.2] at hword
    have hres : clientResume e c ret mem = { c with len := r.length, pc := .readBody } := by
      simp only [clientResume, hpc, SearpcPipeClient.afterReadLen, if_neg hret, hword]
    refine ⟨_, hres, by simp [hpc, clientTurns], Or.inl ⟨by simp, Or.inr ⟨rfl, ?_⟩⟩⟩
    exact .body (j := 0) ⟨c.buf, by simp [clientIo, ReadLoop.enter], Nat.zero_le _⟩
  · obtain ⟨hret, -, hbody⟩ := taking_finished h ht
    obtain ⟨rfl, hv, hslice⟩ := hbody rfl
    have hne : ¬ r.length = 0 := by omega
    have hres : clientResume e c ret mem
        = { c with buf := mem, ret := some (r, r.length), pc := .done } := by
      simp only [clientResume, hpc, SearpcPipeClient.afterReadBody, if_neg hret, hv, if_neg hne,
        hslice]
    exact ⟨_, hres, by simp [hpc, clientTurns], Or.inr ⟨rfl, rfl, rfl, rfl⟩⟩

/-- The client goes on from its writes to its reads. -/
theorem clientReturn_spent {e : Endian} {c : Sender} {io : Io} {ret : Int} {mem : Mem}
    (h : io.finished = some (ret, mem)) (hs : Spent (c.pc = .writeBody) io) :
    ∃ c', clientResume e c ret mem = c' ∧ clientTurns c'.pc < clientTurns c.pc
      ∧ c'.pc ≠ .done ∧ Fresh (c'.pc = .readLen) (clientIo e c') := by
  obtain ⟨hpc, n, rfl⟩ := hs
  obtain ⟨hret, -, -⟩ := giving_finished (p := []) h .body
  have hres : clientResume e c ret mem = { c with pc := .readLen } := by
    simp only [clientResume, hpc, SearpcPipeClient.afterWriteBody, if_neg hret]
  exact ⟨_, hres, by simp [hpc, clientTurns], by simp, rfl, _, rfl⟩

/-- The frame is complete when all its bytes are taken. -/
theorem drop_whole {e : Endian} {p inq rest : Bytes}
    (h : (encodeFrame e p).drop (4 + p.length) = inq ++ rest) : inq = [] ∧ rest = [] := by
  rw [← List.drop_drop, drop_header, List.drop_length] at h
  exact List.append_eq_nil_iff.mp h.symm

/-- The return of a transfer of the client. -/
theorem aligned_clientReturn (H : Healthy S w reqs)
    (ha : Aligned S reqs (answers S w reqs) fuel s) {ret : Int} {mem : Mem}
    (h : s.cio.finished = some (ret, mem)) :
    ∃ fuel' < fuel, Aligned S reqs (answers S w reqs) fuel'
      { s with
        cl := clientResume S.endian s.cl ret mem
        cio := clientIo S.endian (clientResume S.endian s.cl ret mem)
        rets := if (clientResume S.endian s.cl ret mem).pc = .done then
            s.rets ++ [(clientResume S.endian s.cl ret mem).ret]
          else s.rets } := by
  cases ha with
  | request c rest k client server frame quiet size calls rets =>
      rcases client with hg | ⟨-, hfresh⟩
      · obtain ⟨c', hc', hnd, hturn, hpos⟩ := clientReturn_request S.endian h hg
        rw [hc', if_neg hnd]
        refine ⟨_, ?_, .request c rest k hpos server frame quiet size calls rets⟩
        dsimp only
        omega
      · rw [hfresh.not_finished] at h
        exact nomatch h
  | reply r rest k client server frame quiet size calls rets =>
      have hr := reply_bounds H rets
      rcases client with ht | ⟨rfl, hspent⟩
      · obtain ⟨c', hc', hturn, ⟨hnd, ht'⟩ | ⟨hdone, hret, hio, rfl⟩⟩ := clientReturn_reply hr h ht
        · rw [hc', if_neg hnd]
          refine ⟨_, ?_, .reply r rest k (Or.inl ht') server frame quiet size calls rets⟩
          dsimp only
          omega
        · -- the reply is complete: the send returns and the connection is quiet
          rw [hc', if_pos hdone, hio, hret]
          obtain ⟨hs2c, rfl⟩ := drop_whole frame
          have hsrv : Spent (s.srv.pc = .writeBody) s.sio ∨ Fresh (s.srv.pc = .readLen) s.sio := by
            rcases server with hg | ⟨-, hfresh⟩
            · exact Or.inl (hg.spent (by rintro rfl; exact absurd hr.1 (by decide)))
            · exact Or.inr hfresh
          refine ⟨_, ?_, .between ⟨hdone, rfl⟩ hsrv ⟨quiet, hs2c⟩ size calls ?_⟩
          · dsimp only
            omega
          · rw [← rets, List.append_assoc]
            rfl
      · obtain ⟨c', hc', hturn, hnd, hfresh⟩ := clientReturn_spent (e := S.endian) h hspent
        rw [hc', if_neg hnd]
        refine ⟨_, ?_, .reply r rest 0 (Or.inl (hfresh.takes r)) server frame quiet size calls
          rets⟩
        dsimp only
        omega
  | between client server quiet size calls rets =>
      rw [client.2] at h
      exact nomatch h

/-- The server goes on from its writes to the next header. -/
theorem serverReturn_spent {h : Handler σ} {io : Io} {ret : Int} {mem : Mem}
    (hf : io.finished = some (ret, mem)) (hs : Spent (h.pc = .writeBody) io) :
    serverResume S h ret mem = { h with len := 0, pc := .readLen } := by
  obtain ⟨hpc, n, rfl⟩ := hs
  obtain ⟨hret, -, -⟩ := giving_finished (p := []) hf .body
  simp only [serverResume, hpc, SearpcThreadServer.afterWriteBody, if_neg hret]

/-- The return of one of the server's reads: it goes on to the body, or runs
    the function. -/
theorem serverReturn_takes (hJ : RoundTrips S.json Good) {c : Call} (hc : Text c.1 ∧ Text c.2)
    (hshort : (text S c).length ≤ 2 ^ 31) {h : Handler σ} {io : Io} {k : Nat} {ret : Int}
    {mem : Mem} (size : ∃ b, b ≤ 31 ∧ h.bufsize = 2 ^ b)
    (hf : io.finished = some (ret, mem)) (ht : ServerTakes S.endian h io (text S c) k) :
    (∃ b, b ≤ 31 ∧ h.pc = .readLen
        ∧ serverResume S h ret mem
          = { h with len := (text S c).length, bufsize := 2 ^ b, pc := .readBody }
        ∧ k = 4)
    ∨ (h.pc = .readBody ∧ k = 4 + (text S c).length
        ∧ serverResume S h ret mem
          = { h with
              buf := mem
              world := (S.call h.world c.1 c.2).1
              retStr := reply S h.world c
              len := (reply S h.world c).length % 2 ^ 32
              calls := h.calls ++ [c]
              pc := .writeLen }) := by
  have hne : ¬ (text S c).length = 0 := by
    intro h0
    exact hJ.text_ne_nil _ _ (List.eq_nil_of_length_eq_zero h0)
  rcases ht with ⟨hpc, ht⟩ | ⟨hpc, ht⟩
  · left
    obtain ⟨hret, hlen, -⟩ := taking_finished hf ht
    obtain ⟨rfl, hword⟩ := hlen rfl
    rw [mod_of_fits (by omega)] at hword
    obtain ⟨b, hb, hbuf⟩ := size
    obtain ⟨j, -, hj, hg, -⟩ := SearpcThreadServer.growBufsize_fits hshort growTurns b hb
      (by simp only [growTurns]; omega)
    refine ⟨j, hj, hpc, ?_, rfl⟩
    simp only [serverResume, hpc, SearpcThreadServer.afterReadLen, if_neg hret, hword, if_neg hne,
      hbuf, hg]
  · right
    obtain ⟨hret, -, hbody⟩ := taking_finished hf ht
    obtain ⟨rfl, hv, hslice⟩ := hbody rfl
    refine ⟨hpc, rfl, ?_⟩
    have hgo : ¬ (ret < 0 ∨ (text S c).length = 0) := by
      rintro (h0 | h0)
      · exact hret h0
      · exact hne h0
    have hdec : requestFromJson S.json (text S c) = some (c.1, c.2) :=
      requestFromJson_requestToJson hJ hc.1 hc.2
    simp only [serverResume, hpc, SearpcThreadServer.afterReadBody, hv, if_neg hgo, hslice, hdec]
    rfl

/-- The return of a transfer of the server. -/
theorem aligned_serverReturn (hJ : RoundTrips S.json Good) (H : Healthy S w reqs)
    (ha : Aligned S reqs (answers S w reqs) fuel s) {ret : Int} {mem : Mem}
    (h : s.sio.finished = some (ret, mem)) :
    ∃ fuel' < fuel, Aligned S reqs (answers S w reqs) fuel'
      { s with
        srv := serverResume S s.srv ret mem
        sio := serverIo S (serverResume S s.srv ret mem) } := by
  cases ha with
  | request c rest k client server frame quiet size calls rets =>
      have hmem : c ∈ reqs := by
        rw [← calls]
        exact List.mem_append_right _ List.mem_cons_self
      have hne : text S c ≠ [] := hJ.text_ne_nil _ _
      rcases server with ht | ⟨rfl, hspent⟩
      · rcases serverReturn_takes hJ (H.utf8 c hmem) (H.short c hmem) size h ht with
          ⟨b, hb, hpc, hres, rfl⟩ | ⟨hpc, rfl, hres⟩
        · rw [hres]
          refine ⟨_, ?_, .request c rest 4 client (Or.inl (Or.inr ⟨rfl, ?_⟩)) frame quiet
            ⟨b, hb, rfl⟩ calls rets⟩
          · simp only [hpc, serverTurns]
            omega
          · exact .body (j := 0) ⟨s.srv.buf, by simp [serverIo, ReadLoop.enter], Nat.zero_le _⟩
        · -- the request is complete: the function runs, the reply gets under way
          rw [hres]
          obtain ⟨hc2s, rfl⟩ := drop_whole frame
          have hcl : ClientTakes S.endian s.cl s.cio (reply S s.srv.world c) 0
              ∨ (0 = 0 ∧ Spent (s.cl.pc = .writeBody) s.cio) := by
            rcases client with hg | ⟨-, hfresh⟩
            · exact Or.inr ⟨rfl, hg.spent hne⟩
            · exact Or.inl (hfresh.takes _)
          have hr : 1 ≤ (reply S s.srv.world c).length
              ∧ (reply S s.srv.world c).length ≤ 2 ^ 32 - 1 := reply_bounds H rets
          refine ⟨_, ?_, .reply (reply S s.srv.world c)
            (encodeFrame S.endian (reply S s.srv.world c)) 0 hcl
            (Or.inl (Or.inl ⟨⟨rfl, rfl⟩, ?_⟩)) ?_ hc2s size ?_ ?_⟩
          · simp only [hpc, serverTurns, quiet, hc2s, encodeFrame, List.length_append,
              u32Bytes_length, List.length_nil]
            omega
          · show Giving _ .len (.writing 4 (u32Bytes S.endian (_ % 2 ^ 32))) _
            rw [mod_of_fits hr.2]
            exact .len
          · rw [List.drop_zero]
            show _ = s.s2c ++ _
            rw [quiet, List.nil_append]
          · rw [← calls]
            simp
          · rw [← rets]
            rfl
      · rw [serverReturn_spent h hspent]
        refine ⟨_, ?_, .request c rest 0 client
          (Or.inl (Fresh.takes ⟨rfl, _, rfl⟩ _)) frame quiet size calls rets⟩
        simp only [hspent.1, serverTurns]
        omega
  | reply r rest k client server frame quiet size calls rets =>
      have hr := reply_bounds H rets
      -- the length is out, the reply is out, or the server waits for the next header
      rcases server with (⟨⟨hpc, hret⟩, hg⟩ | ⟨hpc, hg⟩) | ⟨-, hfresh⟩
      · obtain ⟨hnn, hrest, -⟩ := giving_finished h hg
        have hres : serverResume S s.srv ret mem = { s.srv with pc := .writeBody } := by
          simp only [serverResume, hpc, SearpcThreadServer.afterWriteLen, if_neg hnn]
        rw [hres]
        refine ⟨_, ?_, .reply r rest k client (Or.inl (Or.inr ⟨rfl, ?_⟩)) frame quiet size calls
          rets⟩
        · simp only [hpc, serverTurns]
          omega
        · rw [hrest rfl, ← hret]
          exact .body
      · obtain ⟨-, -, hrest⟩ := giving_finished h hg
        obtain rfl := hrest rfl
        rw [serverReturn_spent h ⟨hpc, giving_body_nil hg⟩]
        refine ⟨_, ?_, .reply r [] k client (Or.inr ⟨rfl, rfl, _, rfl⟩) frame quiet size calls
          rets⟩
        simp only [hpc, serverTurns]
        omega
      · rw [hfresh.not_finished] at h
        cases h
  | between client server quiet size calls rets =>
      rcases server with hspent | hfresh
      · rw [serverReturn_spent h hspent]
        refine ⟨_, ?_, .between client (Or.inr ⟨rfl, _, rfl⟩) quiet size calls rets⟩
        simp only [hspent.1, serverTurns]
        omega
      · rw [hfresh.not_finished] at h
        cases h

/-- The client's next call. -/
theorem aligned_call (hJ : RoundTrips S.json Good) (H : Healthy S w reqs)
    (ha : Aligned S reqs (answers S w reqs) fuel s) {c : Call} {todo : List Call} (junk : Mem)
    (hpc : s.cl.pc = .done) (h : s.todo = c :: todo) :
    ∃ fuel' < fuel, Aligned S reqs (answers S w reqs) fuel'
      { s with
        todo := todo
        cl := .start S.json junk c.1 c.2
        cio := clientIo S.endian (.start S.json junk c.1 c.2) } := by
  cases ha with
  | request c' rest k client =>
      exact absurd hpc (request_not_done client)
  | reply r rest k client =>
      exact absurd hpc (reply_not_done client)
  | between client server quiet size calls rets =>
      have hmem : c ∈ reqs := by
        rw [← calls, h]
        exact List.mem_append_right _ List.mem_cons_self
      have hlen : (cstr (text S c)).length % 2 ^ 32 = (text S c).length := by
        rw [cstr_eq_self (show (0 : UInt8) ∉ text S c from hJ.text_no_nul _ _)]
        exact mod_of_fits (Nat.le_trans (H.short c hmem) (by decide))
      refine ⟨_, ?_, .request c (encodeFrame S.endian (text S c)) 0
        (Or.inl (Or.inl ⟨⟨rfl, rfl, hlen⟩, ?_⟩)) ?_ ?_ quiet.2 size (h ▸ calls) (h ▸ rets)⟩
      · simp only [quiet.1, h, work, encodeFrame, List.length_append, u32Bytes_length,
          List.length_nil, Sender.start, clientTurns]
        have hsrv : serverTurns false s.srv.pc = serverTurns true s.srv.pc + 4 := by
          rcases server with ⟨hs, -⟩ | ⟨hs, -⟩ <;> rw [hs] <;> rfl
        omega
      · show Giving _ .len (.writing 4 (u32Bytes S.endian ((cstr (text S c)).length % 2 ^ 32))) _
        rw [hlen]
        exact .len
      · rcases server with hspent | hfresh
        · exact Or.inr ⟨rfl, hspent⟩
        · exact Or.inl (hfresh.takes _)
      · rw [List.drop_zero]
        show _ = s.c2s ++ _
        rw [quiet.1, List.nil_append]

/-- **ONE STEP**: alignment is kept, and only an interrupt costs nothing. -/
theorem aligned_step (hJ : RoundTrips S.json Good) (H : Healthy S w reqs)
    (ha : Aligned S reqs (answers S w reqs) fuel s) {s' : Session σ} (h : Step S .moved s s') :
    ∃ fuel' < fuel, Aligned S reqs (answers S w reqs) fuel' s' := by
  cases h with
  | client h => exact aligned_client ha h
  | server h => exact aligned_server ha h
  | clientReturn h => exact aligned_clientReturn H ha h
  | serverReturn h => exact aligned_serverReturn hJ H ha h
  | call junk hpc h => exact aligned_call hJ H ha junk hpc h

/-- An interrupted step changes nothing. -/
theorem step_eintr {s' : Session σ} (h : Step S .eintr s s') : s' = s := by
  cases h with
  | client h =>
      have heq := ioStep_eintr h
      simp only [Prod.mk.injEq] at heq
      obtain ⟨rfl, rfl, rfl⟩ := heq
      rfl
  | server h =>
      have heq := ioStep_eintr h
      simp only [Prod.mk.injEq] at heq
      obtain ⟨rfl, rfl, rfl⟩ := heq
      rfl

/-- A writer goes on, so the session does. -/
theorem client_moves {p rest : Bytes} (hg : ClientGives s.cl s.cio p rest) :
    ∃ s', Step S .moved s s' := by
  have hen : (∃ r, s.cio.finished = some r)
      ∨ ∃ io' outq', IoStep .moved (s.cio, s.s2c, s.c2s) (io', s.s2c, outq') := by
    rcases hg with ⟨-, hg⟩ | ⟨-, hg⟩
    · exact giving_enabled hg _ _
    · exact giving_enabled hg _ _
  rcases hen with ⟨⟨ret, mem⟩, hf⟩ | ⟨io', outq', hio⟩
  · exact ⟨_, .clientReturn hf⟩
  · exact ⟨_, .client hio⟩

theorem server_moves {r rest : Bytes} (hg : ServerGives s.srv s.sio r rest) :
    ∃ s', Step S .moved s s' := by
  have hen : (∃ r, s.sio.finished = some r)
      ∨ ∃ io' outq', IoStep .moved (s.sio, s.c2s, s.s2c) (io', s.c2s, outq') := by
    rcases hg with ⟨-, hg⟩ | ⟨-, hg⟩
    · exact giving_enabled hg _ _
    · exact giving_enabled hg _ _
  rcases hen with ⟨⟨ret, mem⟩, hf⟩ | ⟨io', outq', hio⟩
  · exact ⟨_, .serverReturn hf⟩
  · exact ⟨_, .server hio⟩

/-- **NO DEADLOCK**: until the last call has returned, some party can move. -/
theorem aligned_moves (ha : Aligned S reqs total fuel s) (hover : ¬ s.Over) :
    ∃ s', Step S .moved s s' := by
  cases ha with
  | request c rest k client server frame quiet size calls rets =>
      rcases client with hg | ⟨rfl, -⟩
      · exact client_moves hg
      · rw [List.append_nil] at frame
        rcases server with ht | ⟨-, hspent⟩
        · have hen : (∃ r, s.sio.finished = some r)
              ∨ ∃ io' inq', IoStep .moved (s.sio, s.c2s, s.s2c) (io', inq', s.s2c) := by
            rcases ht with ⟨-, ht⟩ | ⟨-, ht⟩
            · exact taking_enabled ht frame _
            · exact taking_enabled ht frame _
          rcases hen with ⟨⟨ret, mem⟩, hf⟩ | ⟨io', inq', hio⟩
          · exact ⟨_, .serverReturn hf⟩
          · exact ⟨_, .server hio⟩
        · obtain ⟨n, hf⟩ := hspent.finished
          exact ⟨_, .serverReturn hf⟩
  | reply r rest k client server frame quiet size calls rets =>
      rcases server with hg | ⟨rfl, -⟩
      · exact server_moves hg
      · rw [List.append_nil] at frame
        rcases client with ht | ⟨-, hspent⟩
        · have hen : (∃ r, s.cio.finished = some r)
              ∨ ∃ io' inq', IoStep .moved (s.cio, s.s2c, s.c2s) (io', inq', s.c2s) := by
            rcases ht with ⟨-, ht⟩ | ⟨-, ht⟩
            · exact taking_enabled ht frame _
            · exact taking_enabled ht frame _
          rcases hen with ⟨⟨ret, mem⟩, hf⟩ | ⟨io', inq', hio⟩
          · exact ⟨_, .clientReturn hf⟩
          · exact ⟨_, .client hio⟩
        · obtain ⟨n, hf⟩ := hspent.finished
          exact ⟨_, .clientReturn hf⟩
  | between client server quiet size calls rets =>
      cases htodo : s.todo with
      | nil => exact absurd ⟨client.1, htodo⟩ hover
      | cons c todo => exact ⟨_, .call (fill 0) client.1 htodo⟩

end Steps

/-! ## Whole runs -/

theorem answers_length (S : Server σ) (w : σ) (cs : List Call) :
    (answers S w cs).length = cs.length := by
  induction cs generalizing w with
  | nil => rfl
  | cons c cs ih =>
      have := ih (S.call w c.1 c.2).1
      simp only [answers, List.length_map] at this ⊢
      simp only [replies, List.length_cons, this]

theorem aligned_start (S : Server σ) (junk : Mem) (w : σ) (reqs : List Call) :
    Aligned S reqs (answers S w reqs) (work S w reqs) (.start S junk w reqs) := by
  have h := Aligned.between (S := S) (s := .start S junk w reqs) ⟨rfl, rfl⟩
    (Or.inr ⟨rfl, _, rfl⟩) ⟨rfl, rfl⟩ ⟨12, by decide, rfl⟩ (List.nil_append _) (List.nil_append _)
  have h0 : serverTurns true (Session.start S junk w reqs).srv.pc
      + work S (Session.start S junk w reqs).srv.world (Session.start S junk w reqs).todo
        = work S w reqs := Nat.zero_add _
  rw [h0] at h
  exact h

/-- **EVERY RUN** stays aligned, and its steps come out of the budget. -/
theorem aligned_run {S : Server σ} {Good : Json → Prop} (hJ : RoundTrips S.json Good) {w : σ}
    {reqs : List Call} (H : Healthy S w reqs) {junk : Mem} {n : Nat} {s : Session σ}
    (hrun : Run S (.start S junk w reqs) n s) :
    ∃ fuel, n + fuel ≤ work S w reqs ∧ Aligned S reqs (answers S w reqs) fuel s := by
  induction hrun with
  | refl => exact ⟨_, Nat.le_of_eq (Nat.zero_add _), aligned_start S junk w reqs⟩
  | moved _ hstep ih =>
      obtain ⟨fuel, hle, ha⟩ := ih
      obtain ⟨fuel', hlt, ha'⟩ := aligned_step hJ H ha hstep
      exact ⟨fuel', by omega, ha'⟩
  | eintr _ hstep ih =>
      rw [step_eintr hstep]
      exact ih

/-- What alignment says of the calls and the returned buffers. -/
theorem Aligned.ledger {S : Server σ} {w : σ} {reqs : List Call} {fuel : Nat} {s : Session σ}
    (ha : Aligned S reqs (answers S w reqs) fuel s) :
    s.srv.calls <+: reqs ∧ s.rets <+: answers S w reqs
      ∧ (s.Between → s.c2s = [] ∧ s.s2c = [] ∧ s.srv.calls = reqs.take s.rets.length) := by
  cases ha with
  | request c rest k client server frame quiet size calls rets =>
      refine ⟨⟨_, calls⟩, ⟨_, rets⟩, fun hb => ?_⟩
      exact absurd hb (request_not_done client)
  | reply r rest k client server frame quiet size calls rets =>
      refine ⟨⟨_, calls⟩, ⟨_, rets⟩, fun hb => ?_⟩
      exact absurd hb (reply_not_done client)
  | between client server quiet size calls rets =>
      refine ⟨⟨_, calls⟩, ⟨_, rets⟩, fun _ => ⟨quiet.1, quiet.2, ?_⟩⟩
      have hr := congrArg List.length rets
      have hc := congrArg List.length calls
      rw [List.length_append, answers_length, answers_length] at hr
      rw [List.length_append] at hc
      have hlen : s.rets.length = s.srv.calls.length := by omega
      rw [hlen, ← calls, List.take_left]

/-- A session comes to its end: steps can be added until the client is through,
    and there is room for `work` of them only. -/
theorem exists_over {S : Server σ} {Good : Json → Prop} (hJ : RoundTrips S.json Good) (junk : Mem)
    {w : σ} {reqs : List Call} (H : Healthy S w reqs) :
    ∃ n s, Run S (.start S junk w reqs) n s ∧ s.Over := by
  refine OutcomeLoop.run_ends (work S w reqs) .refl (fun n s hrun => ?_) (fun n s hrun hover => ?_)
  · obtain ⟨fuel, hle, -⟩ := aligned_run hJ H hrun
    exact Nat.le_trans (Nat.le_add_right n fuel) hle
  · obtain ⟨fuel, -, ha⟩ := aligned_run hJ H hrun
    obtain ⟨t, hstep⟩ := aligned_moves ha hover
    exact ⟨t, .moved hrun hstep⟩

/-- **THE SESSION LAW**: on a healthy connection the handler makes exactly the
    client's calls in order, each send returns its own reply, the queues are
    empty between calls, no run gets stuck before the end, and every run has at
    most `work` steps besides interrupts. -/
theorem session_law {S : Server σ} {Good : Json → Prop} (hJ : RoundTrips S.json Good) (junk : Mem)
    {w : σ} {reqs : List Call} (H : Healthy S w reqs) {n : Nat} {s : Session σ}
    (hrun : Run S (.start S junk w reqs) n s) :
    s.srv.calls <+: reqs ∧ s.rets <+: answers S w reqs
      ∧ (s.Between → s.c2s = [] ∧ s.s2c = [] ∧ s.srv.calls = reqs.take s.rets.length)
      ∧ (s.Over → s.srv.calls = reqs ∧ s.rets = answers S w reqs)
      ∧ (¬ s.Over → ∃ s', Step S .moved s s')
      ∧ n ≤ work S w reqs := by
  obtain ⟨fuel, hle, ha⟩ := aligned_run hJ H hrun
  obtain ⟨hcalls, hrets, hbetween⟩ := ha.ledger
  refine ⟨hcalls, hrets, hbetween, ?_, aligned_moves ha, by omega⟩
  rintro ⟨hb, htodo⟩
  cases ha with
  | request c rest k client =>
      exact absurd hb (request_not_done client)
  | reply r rest k client =>
      exact absurd hb (reply_not_done client)
  | between client server quiet size calls rets =>
      rw [htodo, List.append_nil] at calls
      rw [htodo] at rets
      exact ⟨calls, by rw [← rets]; exact (List.append_nil _).symm⟩

/-- Two calls on one connection to a server that answers `[]`. -/
theorem session_law_two_calls :
    ∃ n s, Run SearpcThreadServer.echoServer
        (.start SearpcThreadServer.echoServer (fill 0xAA) ()
          [(ascii "s", ascii "f"), (ascii "s", ascii "g")]) n s
      ∧ s.Over ∧ s.srv.calls = [(ascii "s", ascii "f"), (ascii "s", ascii "g")]
      ∧ s.rets = [some (ascii "[]", 2), some (ascii "[]", 2)] := by
  have hJ : RoundTrips SearpcThreadServer.echoServer.json carried := textCodec_roundTrips
  have H : Healthy SearpcThreadServer.echoServer ()
      [(ascii "s", ascii "f"), (ascii "s", ascii "g")] := by
    refine ⟨?_, ?_, ?_⟩
    · decide
    · decide +kernel
    · decide +kernel
  obtain ⟨n, s, hrun, hover⟩ := exists_over hJ (fill 0xAA) H
  obtain ⟨-, -, -, hend, -, -⟩ := session_law hJ (fill 0xAA) H hrun
  exact ⟨n, s, hrun, hover, (hend hover).1, (hend hover).2.trans (by decide +kernel)⟩

end SearpcSession
