import Searpc.ByteSessionProofs
import Searpc.SessionProofs

/-! # The C ends as processes — `searpc_named_pipe_send`, `named_pipe_client_handler`

    The sender and the handler are what they are in the session of one client
    and one server, transfer by transfer (`clientIo`, `serverIo` and their
    resume functions).  Here each is a process of its own, and the call of
    `searpc_server_call_function` is a QUESTION to whoever keeps the functions.

    `caller` and `handler` are the two processes, `cClient` and `cServer` what
    each of them does with a frame, whoever is at the other end.  Both stand in
    a transfer or outside one (`Party`), which is all the laws of a process need
    to know. -/

namespace SearpcPipeEnds

open ByteMemory Framing JsonValue SearpcJansson SearpcPipeIo SearpcRequest ByteNetwork
open SearpcSession (Io clientIo clientResume serverIo serverResume mod_of_fits)
open SearpcThreadServer (Server Handler growBufsize growTurns growBufsize_fits)
open SearpcPipeClient (Sender)

/-! ## Transfers -/

/-- What a party does inside a transfer; `rest` is what it does outside, and
    `back` when the loop of the transfer is over. -/
def ioAct {Q : Type} (rest back : Act UInt8 Q) : Io → Act UInt8 Q
  | .idle => rest
  | .reading l => if l.nleft = 0 then back else .read l.nleft
  | .writing _ left => if left = [] then back else .write left

/-- `write(2)` took `k` bytes. -/
def ioWrote (io : Io) (k : Nat) : Io :=
  match io with
  | .writing n left =>
      match writeTurn left (.wrote k) with
      | .more left' => .writing n left'
      | .fail => io
  | _ => io

/-- `read(2)` gave the bytes `new`. -/
def ioGot (io : Io) (new : Bytes) : Io :=
  match io with
  | .reading l =>
      match readTurn l (.data new) with
      | .more l' => .reading l'
      | .ret _ _ => io
  | _ => io

theorem ioWrote_pos (n : Nat) (left : Bytes) {k : Nat} (hk : 0 < k) :
    ioWrote (.writing n left) k = .writing n (left.drop k) := by
  obtain ⟨k, rfl⟩ := Nat.exists_eq_add_of_le' hk
  rfl

theorem ioGot_ne_nil (l : ReadLoop) {new : Bytes} (h : new ≠ []) :
    ioGot (.reading l) new
      = .reading ⟨store l.mem l.ptr new, l.ptr + new.length, l.nleft - new.length⟩ := by
  simp only [ioGot, readTurn_data l h]

section Transfers

variable {Q : Type} {rest back : Act UInt8 Q} {io : Io}

theorem ioAct_write {bs : Bytes} (hrest : rest.Apart) (hback : back.Apart)
    (h : ioAct rest back io = .write bs) : ∃ n, io = .writing n bs := by
  cases io with
  | idle => exact absurd h (hrest.1 bs)
  | reading l =>
      rw [ioAct] at h
      split_ifs at h
      exact absurd h (hback.1 bs)
  | writing n left =>
      rw [ioAct] at h
      split_ifs at h
      · exact absurd h (hback.1 bs)
      · exact ⟨n, by rw [Act.write.inj h]⟩

theorem ioAct_read {k : Nat} (hrest : rest.Apart) (hback : back.Apart)
    (h : ioAct rest back io = .read k) : ∃ l, io = .reading l ∧ l.nleft = k := by
  cases io with
  | idle => exact absurd h (hrest.2 k)
  | reading l =>
      rw [ioAct] at h
      split_ifs at h
      · exact absurd h (hback.2 k)
      · exact ⟨l, rfl, Act.read.inj h⟩
  | writing n left =>
      rw [ioAct] at h
      split_ifs at h
      exact absurd h (hback.2 k)

/-- Two writes are one. -/
theorem ioWrote_add (rest' back' : Act UInt8 Q) {bs : Bytes} {i j : Nat} (hrest : rest.Apart)
    (hback : back.Apart) (h : ioAct rest back io = .write bs) (hi : 0 < i) (hj : 0 < j)
    (hle : i + j ≤ bs.length) :
    ioAct rest' back' (ioWrote io i) = .write (bs.drop i)
      ∧ ioWrote (ioWrote io i) j = ioWrote io (i + j) := by
  obtain ⟨n, rfl⟩ := ioAct_write hrest hback h
  rw [ioWrote_pos n bs hi, ioWrote_pos n _ hj, ioWrote_pos n bs (Nat.add_pos_left hi j),
    List.drop_drop]
  refine ⟨?_, rfl⟩
  have hne : bs.drop i ≠ [] := by
    intro hnil
    have hlen := List.drop_eq_nil_iff.mp hnil
    omega
  rw [ioAct, if_neg hne]

/-- Two reads are one. -/
theorem ioGot_append (rest' back' : Act UInt8 Q) {k : Nat} {new more : Bytes}
    (hrest : rest.Apart) (hback : back.Apart) (h : ioAct rest back io = .read k) (hnew : new ≠ [])
    (hmore : more ≠ []) (hle : new.length + more.length ≤ k) :
    ioAct rest' back' (ioGot io new) = .read (k - new.length)
      ∧ ioGot (ioGot io new) more = ioGot io (new ++ more) := by
  obtain ⟨l, rfl, rfl⟩ := ioAct_read hrest hback h
  have hpos := List.length_pos_iff.mpr hmore
  rw [ioGot_ne_nil l hnew, ioGot_ne_nil _ hmore,
    ioGot_ne_nil l (List.append_ne_nil_of_left_ne_nil hnew more), store_store]
  constructor
  · rw [ioAct, if_neg (show ¬ l.nleft - new.length = 0 by omega)]
  · rw [List.length_append, Nat.add_assoc, Nat.sub_sub]

end Transfers

/-! ## Parties -/

/-- A program that is always in a transfer call or outside one: the transfer it
    stands at, what it does outside, how it takes an answer there, the question
    it asks when a transfer has returned, and how it goes on. -/
structure Party (X Q A : Type) where
  io     : X → Io
  rest   : X → Act UInt8 Q
  begin  : X → A → X
  asks   : X → Int → Mem → Option Q
  resume : X → Option A → Int → Mem → X
  apart  : ∀ x, (rest x).Apart

section Parties

variable {X Q A : Type} (G : Party X Q A)

/-- At its next transfer. -/
def Party.enter (x : X) : X × Io := (x, G.io x)

def Party.back (s : X × Io) : Act UInt8 Q :=
  match s.2.finished with
  | none => .tau
  | some (ret, mem) =>
      match G.asks s.1 ret mem with
      | none => .tau
      | some q => .ask q

def Party.answered (s : X × Io) (a : A) : X × Io :=
  match s.2.finished with
  | none => G.enter (G.begin s.1 a)
  | some (ret, mem) => G.enter (G.resume s.1 (some a) ret mem)

def Party.moved (s : X × Io) : X × Io :=
  match s.2.finished with
  | none => s
  | some (ret, mem) => G.enter (G.resume s.1 none ret mem)

theorem Party.apart_back (s : X × Io) : (G.back s).Apart := by
  rw [Party.back]
  split
  · exact apart_tau
  · split
    · exact apart_tau
    · exact apart_ask _

/-- **A PARTY IS A PROCESS**. -/
def Party.process : Process UInt8 Q A (X × Io) where
  act s := ioAct (G.rest s.1) (G.back s) s.2
  wrote s k := (s.1, ioWrote s.2 k)
  got s new := (s.1, ioGot s.2 new)
  answered := G.answered
  moved := G.moved
  wrote_add := by
    intro s bs i j h hi hj hle
    obtain ⟨hact, hadd⟩ := ioWrote_add (G.rest s.1)
      (G.back (s.1, ioWrote s.2 i)) (G.apart s.1) (G.apart_back s) h hi hj hle
    exact ⟨hact, by rw [hadd]⟩
  got_append := by
    intro s n new more h hnew hmore hle
    obtain ⟨hact, hadd⟩ := ioGot_append (G.rest s.1)
      (G.back (s.1, ioGot s.2 new)) (G.apart s.1) (G.apart_back s) h hnew hmore hle
    exact ⟨hact, by rw [hadd]⟩

variable {G} {x : X}

theorem Party.process_act (s : X × Io) :
    G.process.act s = ioAct (G.rest s.1) (G.back s) s.2 := rfl

/-- The write loop runs through. -/
theorem Party.gives {n : Nat} {bs : Bytes} :
    G.process.Gives (x, .writing n bs) bs (x, .writing n []) := by
  by_cases hne : bs = []
  · rw [hne]
    exact Process.gives_nil
  · have hact : G.process.act (x, .writing n bs) = .write bs := by
      rw [Party.process_act, ioAct, if_neg hne]
    have hrun := Process.gives_write hact hne
    rw [show G.process.wrote (x, .writing n bs) bs.length = (x, .writing n []) by
      show (x, ioWrote (.writing n bs) bs.length) = _
      rw [ioWrote_pos n bs (List.length_pos_iff.mpr hne), List.drop_length]] at hrun
    exact hrun

/-- The read loop runs through. -/
theorem Party.takes {m : Mem} {bs : Bytes} :
    G.process.Takes (x, .reading (.enter m bs.length)) bs
      (x, .reading ⟨store m 0 bs, bs.length, 0⟩) := by
  by_cases hne : bs = []
  · subst hne
    exact ⟨0, .refl⟩
  · have hact : G.process.act (x, .reading (.enter m bs.length)) = .read bs.length := by
      have hpos : (ReadLoop.enter m bs.length).nleft ≠ 0 :=
        Nat.ne_of_gt (List.length_pos_iff.mpr hne)
      rw [Party.process_act, ioAct, if_neg hpos]
      rfl
    have hrun := Process.takes_read bs hact hne
    rw [show G.process.got (x, .reading (.enter m bs.length)) bs
        = (x, .reading ⟨store m 0 bs, bs.length, 0⟩) by
      show (x, ioGot (.reading (.enter m bs.length)) bs) = _
      rw [ioGot_ne_nil _ hne]
      simp only [ReadLoop.enter, Nat.zero_add, Nat.sub_self]] at hrun
    exact hrun

/-- The write loop runs through and the party goes on. -/
theorem Party.writes {n : Nat} {bs : Bytes} (hio : G.io x = .writing n bs)
    (hasks : G.asks x n (fill 0) = none) :
    G.process.Gives (G.enter x) bs (G.enter (G.resume x none n (fill 0))) := by
  have hback : G.process.act (x, .writing n []) = .tau := by
    rw [Party.process_act, ioAct, if_pos rfl]
    simp only [Party.back, Io.finished, hasks]
  rw [Party.enter, hio]
  exact Party.gives.tau hback

/-- The read loop runs through and the party goes on. -/
theorem Party.reads {m : Mem} {bs : Bytes} (hio : G.io x = .reading (.enter m bs.length))
    (hasks : G.asks x bs.length (store m 0 bs) = none) :
    G.process.Takes (G.enter x) bs (G.enter (G.resume x none bs.length (store m 0 bs))) := by
  have hback : G.process.act (x, .reading ⟨store m 0 bs, bs.length, 0⟩) = .tau := by
    rw [Party.process_act, ioAct, if_pos rfl]
    simp only [Party.back, Io.finished, if_true, hasks]
  rw [Party.enter, hio]
  exact Party.takes.tau hback

/-- The read loop runs through and the party asks. -/
theorem Party.reads_asks {m : Mem} {b : Bytes} {q : Q}
    (hio : G.io x = .reading (.enter m b.length))
    (hasks : G.asks x b.length (store m 0 b) = some q) :
    ∃ s, G.process.Takes (G.enter x) b s ∧ G.process.act s = .ask q
      ∧ ∀ a, G.process.answered s a
        = G.enter (G.resume x (some a) b.length (store m 0 b)) := by
  refine ⟨(x, .reading ⟨store m 0 b, b.length, 0⟩), ?_, ?_, fun a => rfl⟩
  · rw [Party.enter, hio]
    exact Party.takes
  · rw [Party.process_act, ioAct, if_pos rfl]
    simp only [Party.back, Io.finished, if_true, hasks]

end Parties

/-! ## The two processes -/

variable (e : Endian) (J : Jansson)

/-- A client program: the sender of the call it makes, and what its calls have
    returned. -/
structure Caller where
  cl   : Sender
  rets : List (Option (Bytes × Nat))

/-- A call to make, and what `g_malloc` will hand out in it. -/
abbrev Job := Call × Mem

/-- The sender goes on; at its end the program has one more result. -/
def Caller.resume (p : Caller) (ret : Int) (mem : Mem) : Caller :=
  let cl := clientResume e p.cl ret mem
  ⟨cl, if cl.pc = .done then p.rets ++ [cl.ret] else p.rets⟩

/-- The client program: outside `searpc_named_pipe_send` it waits for the next
    call to make. -/
def callerParty : Party Caller Unit Job where
  io p := clientIo e p.cl
  rest _ := .ask ()
  begin p job := { p with cl := .start J job.2 job.1.1 job.1.2 }
  asks _ _ _ := none
  resume p _ := p.resume e
  apart _ := apart_ask ()

/-- **THE CALLER**. -/
def caller : Process UInt8 Unit Job (Caller × Io) := (callerParty e J).process

/-- A client program before its first call. -/
def Caller.start : Caller := ⟨⟨.done, [], 0, fill 0, none⟩, []⟩

/-- A server end in which `searpc_server_call_function` has answered `a`. -/
def answering (a : Bytes) : Server Unit := ⟨e, J, fun _ _ _ => ((), a)⟩

/-- The request in the buffer when the body has been read. -/
def bodyRequest (h : Handler Unit) (ret : Int) (mem : Mem) : Option Call :=
  if h.pc ≠ .readBody ∨ ret < 0 ∨ h.len = 0 then none
  else requestFromJson J (slice mem h.len)

/-- The connection thread: it asks for the reply to a request when it has read
    one. -/
def handlerParty : Party (Handler Unit) Call Bytes where
  io h := serverIo (answering e J []) h
  rest _ := .halt
  begin h _ := h
  asks := bodyRequest J
  resume h a := serverResume (answering e J (a.getD [])) h
  apart _ := apart_halt

/-- **THE HANDLER**. -/
def handler : Process UInt8 Call Bytes (Handler Unit × Io) := (handlerParty e J).process

/-! ## The caller's frames -/

section Calls

variable {e J}

/-- The frame of a call. -/
def requestFrame (e : Endian) (J : Jansson) (job : Job) : Bytes :=
  encodeFrame e (requestToJson J job.1.1 job.1.2)

/-- What the frame of `r` comes back as: an empty reply is no reply. -/
def replyRet (r : Bytes) : Option (Bytes × Nat) :=
  if r.length = 0 then none else some (r, r.length)

theorem natCast_not_neg (n : Nat) : ¬ ((n : Int) < 0) := Int.not_lt.mpr (Int.natCast_nonneg n)

/-- A length and a text go out. -/
theorem caller_sends {Good : Json → Prop} (hJ : RoundTrips J Good) (p : Caller) {job : Job}
    (hlen : (requestToJson J job.1.1 job.1.2).length < 2 ^ 32) :
    ∃ p', (caller e J).Gives ((callerParty e J).enter ((callerParty e J).begin p job))
        (requestFrame e J job) ((callerParty e J).enter p')
      ∧ p'.cl.pc = .readLen ∧ p'.rets = p.rets := by
  obtain ⟨text, htext⟩ : ∃ text, text = requestToJson J job.1.1 job.1.2 := ⟨_, rfl⟩
  rw [requestFrame, ← htext, encodeFrame]
  rw [← htext] at hlen
  have hword : (cstr text).length % 2 ^ 32 = text.length := by
    rw [cstr_eq_self (htext ▸ hJ.text_no_nul _ _), Nat.mod_eq_of_lt hlen]
  -- `json_str` and `len` stay what they are through both writes
  obtain ⟨cl, hcl⟩ : ∃ cl : Sender, cl = ⟨.writeLen, text, text.length, job.2, none⟩ := ⟨_, rfl⟩
  have hbegin : (callerParty e J).begin p job = ⟨cl, p.rets⟩ := by
    simp only [callerParty, Sender.start, ← htext, hword, hcl]
  have hfirst : (callerParty e J).resume ⟨cl, p.rets⟩ none (4 : Nat) (fill 0)
      = ⟨{ cl with pc := .writeBody }, p.rets⟩ := by
    simp only [callerParty, Caller.resume, clientResume, hcl, SearpcPipeClient.afterWriteLen,
      if_neg (natCast_not_neg 4)]
    rfl
  have hsecond : (callerParty e J).resume ⟨{ cl with pc := .writeBody }, p.rets⟩ none text.length
      (fill 0) = ⟨{ cl with pc := .readLen }, p.rets⟩ := by
    simp only [callerParty, Caller.resume, clientResume, SearpcPipeClient.afterWriteBody,
      if_neg (natCast_not_neg text.length)]
    rfl
  have hlength : (caller e J).Gives ((callerParty e J).enter ⟨cl, p.rets⟩) (u32Bytes e text.length)
      ((callerParty e J).enter ⟨{ cl with pc := .writeBody }, p.rets⟩) := by
    rw [← hfirst]
    refine Party.writes ?_ rfl
    simp only [callerParty, clientIo, hcl]
  have htext' : (caller e J).Gives
      ((callerParty e J).enter ⟨{ cl with pc := .writeBody }, p.rets⟩) text
      ((callerParty e J).enter ⟨{ cl with pc := .readLen }, p.rets⟩) := by
    rw [← hsecond]
    refine Party.writes ?_ rfl
    simp only [callerParty, clientIo, hcl, List.take_length]
  rw [hbegin]
  exact ⟨_, hlength.trans htext', rfl, rfl⟩

/-- A length and a text come in. -/
theorem caller_receives {p : Caller} (hpc : p.cl.pc = .readLen) {r : Bytes}
    (hlen : r.length < 2 ^ 32) :
    ∃ p', (caller e J).Takes ((callerParty e J).enter p) (encodeFrame e r)
        ((callerParty e J).enter p')
      ∧ p'.cl.pc = .done ∧ p'.rets = p.rets ++ [replyRet r] := by
  obtain ⟨cl, hcl⟩ : ∃ cl : Sender, cl = { p.cl with len := r.length, pc := .readBody } := ⟨_, rfl⟩
  have hword : memWord e (store (wordMem e p.cl.len) 0 (u32Bytes e r.length)) = r.length := by
    rw [memWord_store_full e _ (u32Bytes_length e _), u32Value_u32Bytes, Nat.mod_eq_of_lt hlen]
  have hfirst : (callerParty e J).resume p none (u32Bytes e r.length).length
      (store (wordMem e p.cl.len) 0 (u32Bytes e r.length)) = ⟨cl, p.rets⟩ := by
    simp only [callerParty, Caller.resume, clientResume, hpc, SearpcPipeClient.afterReadLen,
      if_neg (natCast_not_neg _), hword, hcl]
    rfl
  obtain ⟨cl', hcl'⟩ : ∃ cl' : Sender, cl' = { cl with
      buf := store cl.buf 0 r
      ret := replyRet r
      pc := .done } := ⟨_, rfl⟩
  have hsecond : (callerParty e J).resume ⟨cl, p.rets⟩ none r.length (store cl.buf 0 r)
      = ⟨cl', p.rets ++ [replyRet r]⟩ := by
    simp only [callerParty, Caller.resume, clientResume, hcl, SearpcPipeClient.afterReadBody,
      if_neg (natCast_not_neg _), slice_store_eq _ rfl, if_true, hcl', replyRet]
  have hlength : (caller e J).Takes ((callerParty e J).enter p) (u32Bytes e r.length)
      ((callerParty e J).enter ⟨cl, p.rets⟩) := by
    rw [← hfirst]
    refine Party.reads ?_ rfl
    simp only [callerParty, clientIo, hpc, u32Bytes_length]
  have hbody : (caller e J).Takes ((callerParty e J).enter ⟨cl, p.rets⟩) r
      ((callerParty e J).enter ⟨cl', p.rets ++ [replyRet r]⟩) := by
    rw [← hsecond]
    refine Party.reads ?_ rfl
    simp only [callerParty, clientIo, hcl]
  exact ⟨_, hlength.trans hbody, by rw [hcl'], rfl⟩

end Calls

/-! ## The handler's frames -/

/-- A handler whose buffer has a size its loop can grow. -/
def Sized (h : Handler Unit) : Prop := ∃ k, k ≤ 31 ∧ h.bufsize = 2 ^ k

/-- At the top of its loop. -/
def AtTop (h : Handler Unit) : Prop := h.pc = .readLen ∧ Sized h

section Serving

variable {e J}

/-- A length and a body come in, and the handler asks for the reply. -/
theorem handler_takes {h : Handler Unit} (hpc : h.pc = .readLen) (hsized : Sized h) {body : Bytes}
    {q : Call} (hpos : 0 < body.length) (hlen : body.length ≤ 2 ^ 31)
    (hdec : requestFromJson J body = some q) :
    ∃ s, (handler e J).Takes ((handlerParty e J).enter h) (encodeFrame e body) s
      ∧ (handler e J).act s = .ask q
      ∧ ∀ a, ∃ h', (handler e J).answered s a = (handlerParty e J).enter h'
        ∧ h'.pc = .writeLen ∧ h'.retStr = a ∧ h'.len = a.length % 2 ^ 32 ∧ Sized h' := by
  obtain ⟨k, hk, hsize⟩ := hsized
  obtain ⟨j, -, hj, hgrow, -⟩ := growBufsize_fits hlen growTurns k hk (by rw [growTurns]; omega)
  obtain ⟨h₁, hh₁⟩ : ∃ h₁ : Handler Unit,
      h₁ = { h with len := body.length, bufsize := 2 ^ j, pc := .readBody } := ⟨_, rfl⟩
  have hword : memWord e (store (wordMem e h.len) 0 (u32Bytes e body.length)) = body.length := by
    rw [memWord_store_full e _ (u32Bytes_length e _), u32Value_u32Bytes,
      Nat.mod_eq_of_lt (Nat.lt_of_le_of_lt hlen (by decide))]
  have hfirst : (handlerParty e J).resume h none (u32Bytes e body.length).length
      (store (wordMem e h.len) 0 (u32Bytes e body.length)) = h₁ := by
    simp only [handlerParty, serverResume, hpc, SearpcThreadServer.afterReadLen,
      if_neg (natCast_not_neg _), answering, hword, if_neg (Nat.ne_of_gt hpos), hsize, hgrow, hh₁]
  have hlength : (handler e J).Takes ((handlerParty e J).enter h) (u32Bytes e body.length)
      ((handlerParty e J).enter h₁) := by
    rw [← hfirst]
    refine Party.reads ?_ ?_
    · simp only [handlerParty, serverIo, hpc, u32Bytes_length]
      rfl
    · simp only [handlerParty, bodyRequest, hpc]
      rfl
  have hslice : slice (store h₁.buf 0 body) h₁.len = body := by
    rw [hh₁]
    exact slice_store_eq _ rfl
  have hnot : ¬ (((body.length : Nat) : Int) < 0 ∨ h₁.len = 0) := by
    rw [hh₁]
    exact not_or.mpr ⟨natCast_not_neg _, Nat.ne_of_gt hpos⟩
  have hpc₁ : h₁.pc = .readBody := by rw [hh₁]
  obtain ⟨s, htakes, hact, hanswered⟩ := Party.reads_asks (G := handlerParty e J) (x := h₁)
    (m := h₁.buf) (b := body) (q := q) (by simp only [handlerParty, serverIo, hh₁]) (by
      simp only [handlerParty, bodyRequest, hpc₁, ne_eq, not_true, false_or, if_neg hnot, hslice,
        hdec])
  refine ⟨s, hlength.trans htakes, hact, fun a => ⟨_, hanswered a, ?_⟩⟩
  have hresume : (handlerParty e J).resume h₁ (some a) body.length (store h₁.buf 0 body)
      = { h₁ with
          buf := store h₁.buf 0 body
          world := ()
          retStr := a
          len := a.length % 2 ^ 32
          calls := h₁.calls ++ [q]
          pc := .writeLen } := by
    simp only [handlerParty, Option.getD_some, serverResume, hpc₁,
      SearpcThreadServer.afterReadBody, if_neg hnot, answering, hslice, hdec]
  rw [hresume]
  refine ⟨rfl, rfl, rfl, j, hj, ?_⟩
  rw [hh₁]

/-- A length and a reply go out, and the handler is back at the top. -/
theorem handler_gives {h : Handler Unit} (hpc : h.pc = .writeLen) (hsized : Sized h)
    (hlen : h.len = h.retStr.length % 2 ^ 32) (hfits : h.retStr.length < 2 ^ 32) :
    ∃ h', (handler e J).Gives ((handlerParty e J).enter h) (encodeFrame e h.retStr)
        ((handlerParty e J).enter h') ∧ AtTop h' := by
  rw [Nat.mod_eq_of_lt hfits] at hlen
  have hfirst : (handlerParty e J).resume h none (4 : Nat) (fill 0)
      = { h with pc := .writeBody } := by
    simp only [handlerParty, serverResume, hpc, SearpcThreadServer.afterWriteLen,
      if_neg (natCast_not_neg _)]
  have hsecond : (handlerParty e J).resume { h with pc := .writeBody } none h.retStr.length (fill 0)
      = { h with len := 0, pc := .readLen } := by
    simp only [handlerParty, serverResume, SearpcThreadServer.afterWriteBody,
      if_neg (natCast_not_neg _)]
  have hlength : (handler e J).Gives ((handlerParty e J).enter h) (u32Bytes e h.retStr.length)
      ((handlerParty e J).enter { h with pc := .writeBody }) := by
    rw [← hfirst]
    refine Party.writes ?_ ?_
    · simp only [handlerParty, serverIo, hpc, hlen]
      rfl
    · simp only [handlerParty, bodyRequest, hpc]
      rfl
  have hbody : (handler e J).Gives ((handlerParty e J).enter { h with pc := .writeBody }) h.retStr
      ((handlerParty e J).enter { h with len := 0, pc := .readLen }) := by
    rw [← hsecond]
    refine Party.writes ?_ ?_
    · simp only [handlerParty, serverIo]
    · simp only [handlerParty, bodyRequest]
      rfl
  exact ⟨_, hlength.trans hbody, rfl, hsized⟩

end Serving

/-! ## What the ends do, whoever is at the other -/

/-- A call the C client makes by the book. -/
def GoodJob (job : Job) : Prop :=
  Text job.1.1 ∧ Text job.1.2 ∧ (requestToJson J job.1.1 job.1.2).length < 2 ^ 32

theorem caller_grow {s s' : Caller × Io} {l : Label UInt8 Unit Job}
    (h : (caller e J).Moves s l s') : s.1.rets <+: s'.1.rets := by
  have hresume : ∀ (p : Caller) (ret : Int) (mem : Mem), p.rets <+: (p.resume e ret mem).rets := by
    intro p ret mem
    simp only [Caller.resume]
    split
    · exact List.prefix_append _ _
    · exact List.prefix_refl _
  cases h with
  | write => exact List.prefix_refl _
  | read => exact List.prefix_refl _
  | ask a =>
      show s.1.rets <+: ((callerParty e J).answered s a).1.rets
      rw [Party.answered]
      split
      · exact List.prefix_refl _
      · exact hresume _ _ _
  | tau =>
      show s.1.rets <+: ((callerParty e J).moved s).1.rets
      rw [Party.moved]
      split
      · exact List.prefix_refl _
      · exact hresume _ _ _

variable {J}

/-- **THE C CLIENT**: a request is one frame; it waits for one frame, and takes
    its payload for the result. -/
def cClient {Good : Json → Prop} (hJ : RoundTrips J Good) :
    Client (caller e J) (Option (Bytes × Nat)) where
  rets s := s.1.rets
  idle s := ∃ p, s = (callerParty e J).enter p ∧ p.cl.pc = .done
  waits _ s := ∃ p, s = (callerParty e J).enter p ∧ p.cl.pc = .readLen
  Good := GoodJob J
  request := requestFrame e J
  reply _ bs t := ∃ r : Bytes, bs = encodeFrame e r ∧ r.length < 2 ^ 32 ∧ t = replyRet r
  idle_asks := by
    rintro _ ⟨p, rfl, hpc⟩
    show ioAct _ _ (clientIo e p.cl) = _
    simp only [clientIo, hpc, ioAct]
    rfl
  waits_reads := by
    rintro _ _ ⟨p, rfl, hpc⟩
    refine ⟨4, ?_⟩
    show ioAct _ _ (clientIo e p.cl) = _
    simp only [clientIo, hpc, ioAct, ReadLoop.enter]
    rfl
  grow := caller_grow e J
  send := by
    rintro job _ ⟨p, rfl, hpc⟩ ⟨-, -, hlen⟩
    obtain ⟨p', hgives, hpc', hrets⟩ := caller_sends (e := e) hJ p hlen
    refine ⟨_, ?_, ⟨p', rfl, hpc'⟩, hrets⟩
    have hbegin : (caller e J).answered ((callerParty e J).enter p) job
        = (callerParty e J).enter ((callerParty e J).begin p job) := by
      show Party.answered _ (p, clientIo e p.cl) job = _
      simp only [Party.answered, clientIo, hpc, Io.finished]
    rw [hbegin]
    exact hgives
  receive := by
    rintro job _ bs t ⟨p, rfl, hpc⟩ ⟨r, rfl, hlen, rfl⟩
    obtain ⟨p', htakes, hpc', hrets⟩ := caller_receives (e := e) (J := J) hpc hlen
    exact ⟨_, htakes, ⟨p', rfl, hpc'⟩, hrets⟩

variable (J)

/-- **THE C SERVER'S CONNECTION THREAD**: a frame that decodes is a request, and
    its reply is one frame. -/
def cServer : ByteNetwork.Server (handler e J) where
  ready s := ∃ h, s = (handlerParty e J).enter h ∧ AtTop h
  holds q s := (handler e J).act s = .ask q
    ∧ ∀ a, ∃ h', (handler e J).answered s a = (handlerParty e J).enter h'
      ∧ h'.pc = .writeLen ∧ h'.retStr = a ∧ h'.len = a.length % 2 ^ 32 ∧ Sized h'
  Request bs q := ∃ body : Bytes, bs = encodeFrame e body ∧ 0 < body.length
    ∧ body.length ≤ 2 ^ 31 ∧ requestFromJson J body = some q
  reply a bs := a.length < 2 ^ 32 ∧ bs = encodeFrame e a
  ready_reads := by
    rintro _ ⟨h, rfl, hpc, -⟩
    refine ⟨4, ?_⟩
    show ioAct _ _ (serverIo _ h) = _
    simp only [serverIo, hpc, ioAct, ReadLoop.enter]
    rfl
  holds_asks h := h.1
  take := by
    rintro _ bs q ⟨h, rfl, hpc, hsized⟩ ⟨body, rfl, hpos, hlen, hdec⟩
    exact handler_takes hpc hsized hpos hlen hdec
  give := by
    rintro q s a bs ⟨-, hanswered⟩ ⟨hlen, rfl⟩
    obtain ⟨h, heq, hpc, hret, hword, hsized⟩ := hanswered a
    subst hret
    obtain ⟨h', hgives, htop⟩ := handler_gives (e := e) (J := J) hpc hsized hword hlen
    rw [heq]
    exact ⟨_, hgives, h', rfl, htop⟩

end SearpcPipeEnds
