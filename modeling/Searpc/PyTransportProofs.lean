import Searpc.FramingProofs
import Searpc.PyJsonProofs

/-! # The Python client end — `NamedPipeTransport.send`

    One call of the transport: the request goes out as a frame, a frame comes
    back and is decoded as UTF-8.  `sendall` and `recvall` make one `send` or
    `recv` after the other; a failure of any of them, a peer that is gone, and
    a reply that is not UTF-8 are exceptions, which leave the transport
    wherever it stood.

    `turn` is what one system call does to a sender.  Whatever the kernel does,
    what is sent and what is left to send make up the one frame of the request
    (`send_out`). -/

namespace PyTransport

open ByteMemory Framing JsonValue PyJson Utf8Text

/-! ## The sender -/

/-- The text `send` makes of its arguments. -/
def requestDict (service fcallStr : PyStr) : PyValue :=
  .dict [("service".toList, .str service), ("request".toList, .str fcallStr)]

/-- `body_utf8`. -/
def bodyUtf8 (service fcallStr : PyStr) : Bytes := utf8 (dumps (requestDict service fcallStr))

theorem bodyUtf8_ne_nil (service fcallStr : PyStr) : bodyUtf8 service fcallStr ≠ [] := by
  rw [bodyUtf8, requestDict, dumps, utf8_ascii (by decide)]
  exact List.cons_ne_nil _ _

/-- Where `send` stands: in the loop of one of its four transfers with what is
    left or what has come, or at its end. -/
inductive Phase where
  | sendHeader (left : Bytes)
  | sendBody (left : Bytes)
  | recvHeader (data : Bytes)
  | recvBody (size : Nat) (data : Bytes)
  | returned (resp : Bytes)
  | raised
deriving DecidableEq

/-- What a system call gives: a count of bytes sent, bytes received (none at
    the end of the stream), or `socket.error`. -/
inductive IoResult where
  | sent (n : Nat)
  | received (new : Bytes)
  | failed
deriving DecidableEq

variable (e : Endian)

/-- `resp.decode(encoding='utf-8')`. -/
def finish (resp : Bytes) : Phase := if utf8Valid resp then .returned resp else .raised

/-- The loop head of the second `recvall`. -/
def loopRecvBody (size : Nat) (data : Bytes) : Phase :=
  if data.length < size then .recvBody size data else finish data

/-- The loop head of the first `recvall`. -/
def loopRecvHeader (data : Bytes) : Phase :=
  if data.length < 4 then .recvHeader data else loopRecvBody (u32Value e data) []

/-- The loop head of the second `sendall`. -/
def loopSendBody (left : Bytes) : Phase :=
  if left = [] then loopRecvHeader e [] else .sendBody left

/-- The loop head of the first `sendall`. -/
def loopSendHeader (body left : Bytes) : Phase :=
  if left = [] then loopSendBody e body else .sendHeader left

/-- `send` before its first system call; `struct.pack` refuses what does not
    fit 32 bits. -/
def enter (body : Bytes) : Phase :=
  if body.length < 2 ^ 32 then loopSendHeader e body (u32Bytes e body.length) else .raised

/-- One turn of the loop `send` is in. -/
def turn (body : Bytes) : Phase → IoResult → Phase
  | .sendHeader left, .sent n => if n = 0 then .raised else loopSendHeader e body (left.drop n)
  | .sendBody left, .sent n => if n = 0 then .raised else loopSendBody e (left.drop n)
  | .recvHeader data, .received new =>
      if new = [] then .raised else loopRecvHeader e (data ++ new)
  | .recvBody size data, .received new =>
      if new = [] then .raised else loopRecvBody size (data ++ new)
  | .returned resp, _ => .returned resp
  | _, _ => .raised

/-! ## What is left to send and what has come -/

/-- The bytes of the request not sent yet. -/
def Phase.left (body : Bytes) : Phase → Bytes
  | .sendHeader left => left ++ body
  | .sendBody left => left
  | _ => []

/-- The bytes of the reply received. -/
def Phase.got : Phase → Bytes
  | .recvHeader data => data
  | .recvBody size data => u32Bytes e size ++ data
  | .returned resp => encodeFrame e resp
  | _ => []

/-- What the loops keep: they are entered with something to do. -/
def Phase.Proper : Phase → Prop
  | .sendHeader left => left ≠ []
  | .sendBody left => left ≠ []
  | .recvHeader data => data.length < 4
  | .recvBody size data => data.length < size ∧ size < 2 ^ 32
  | .returned resp => resp.length < 2 ^ 32
  | .raised => True

theorem proper_finish {resp : Bytes} (h : resp.length < 2 ^ 32) : (finish resp).Proper := by
  rw [finish]
  split_ifs
  · exact h
  · trivial

theorem proper_loopRecvBody {size : Nat} (h : size < 2 ^ 32) {data : Bytes}
    (hle : data.length ≤ size) : (loopRecvBody size data).Proper := by
  rw [loopRecvBody]
  split_ifs with hlt
  · exact ⟨hlt, h⟩
  · exact proper_finish (Nat.lt_of_le_of_lt hle h)

theorem proper_loopRecvHeader {data : Bytes} (h : data.length ≤ 4) :
    (loopRecvHeader e data).Proper := by
  rw [loopRecvHeader]
  split_ifs with hlt
  · exact hlt
  · exact proper_loopRecvBody (u32Value_lt e (by omega)) (Nat.zero_le _)

theorem proper_loopSendBody (left : Bytes) : (loopSendBody e left).Proper := by
  rw [loopSendBody]
  split_ifs with hnil
  · exact proper_loopRecvHeader e (Nat.zero_le 4)
  · exact hnil

theorem proper_loopSendHeader (body left : Bytes) : (loopSendHeader e body left).Proper := by
  rw [loopSendHeader]
  split_ifs with hnil
  · exact proper_loopSendBody e body
  · exact hnil

theorem proper_enter (body : Bytes) : (enter e body).Proper := by
  rw [enter]
  split_ifs
  · exact proper_loopSendHeader e body _
  · trivial

/-- Before the first `recv`. -/
theorem loopRecvHeader_nil : loopRecvHeader e [] = .recvHeader [] := if_pos (Nat.zero_lt_succ 3)

/-- The second `sendall` leaves what it was given. -/
theorem loopSendBody_eq (body left : Bytes) :
    (loopSendBody e left).left body = left ∧ (loopSendBody e left).got e = []
      ∧ loopSendBody e left ≠ .raised := by
  rw [loopSendBody, loopRecvHeader_nil]
  split_ifs with hnil
  · exact ⟨hnil.symm, rfl, by decide⟩
  · exact ⟨rfl, rfl, Phase.noConfusion⟩

/-- The first `sendall` leaves what it was given and the body. -/
theorem loopSendHeader_eq (body left : Bytes) :
    (loopSendHeader e body left).left body = left ++ body
      ∧ (loopSendHeader e body left).got e = [] ∧ loopSendHeader e body left ≠ .raised := by
  rw [loopSendHeader]
  split_ifs with hnil
  · rw [hnil]
    exact loopSendBody_eq e body body
  · exact ⟨rfl, rfl, Phase.noConfusion⟩

/-- **THE FIRST PHASE**: the whole frame is left to send, and nothing has
    come. -/
theorem enter_eq {body : Bytes} (h : body.length < 2 ^ 32) :
    (enter e body).left body = encodeFrame e body ∧ (enter e body).got e = []
      ∧ enter e body ≠ .raised := by
  rw [enter, if_pos h]
  exact loopSendHeader_eq e body _

/-! ## Turns -/

/-- What `send` hands to `fd.send`. -/
def Phase.offered : Phase → Bytes
  | .sendHeader left => left
  | .sendBody left => left
  | _ => []

/-- What `send` asks of `fd.recv`. -/
def Phase.remain : Phase → Nat
  | .recvHeader data => 4 - data.length
  | .recvBody size data => size - data.length
  | _ => 0

section Equations

variable {e} {body left data new : Bytes} {n size : Nat}

theorem turn_sendHeader (h : n ≠ 0) :
    turn e body (.sendHeader left) (.sent n) = loopSendHeader e body (left.drop n) := if_neg h

theorem turn_sendBody (h : n ≠ 0) :
    turn e body (.sendBody left) (.sent n) = loopSendBody e (left.drop n) := if_neg h

theorem turn_recvHeader (h : new ≠ []) :
    turn e body (.recvHeader data) (.received new) = loopRecvHeader e (data ++ new) := if_neg h

theorem turn_recvBody (h : new ≠ []) :
    turn e body (.recvBody size data) (.received new) = loopRecvBody size (data ++ new) :=
  if_neg h

/-- The turns of a request that goes out in two and a reply that comes in one or
    two. -/
theorem turn_whole_header (h : body ≠ []) (n : Nat) :
    turn e body (.sendHeader (u32Bytes e n)) (.sent (u32Bytes e n).length) = .sendBody body := by
  rw [turn_sendHeader (by rw [u32Bytes_length]; decide), List.drop_length, loopSendHeader,
    if_pos rfl, loopSendBody, if_neg h]

theorem turn_whole_body (h : body ≠ []) :
    turn e body (.sendBody body) (.sent body.length) = .recvHeader [] := by
  rw [turn_sendBody (Nat.ne_of_gt (List.length_pos_iff.mpr h)), List.drop_length, loopSendBody,
    if_pos rfl, loopRecvHeader_nil]

theorem turn_reply_header (h : n < 2 ^ 32) :
    turn e body (.recvHeader []) (.received (u32Bytes e n)) = loopRecvBody n [] := by
  rw [turn_recvHeader (u32Bytes_ne_nil e n), List.nil_append, loopRecvHeader, u32Bytes_length,
    if_neg (Nat.lt_irrefl 4), u32Value_u32Bytes, Nat.mod_eq_of_lt h]

theorem turn_reply_body {r : Bytes} (h : r ≠ []) (hvalid : utf8Valid r = true) :
    turn e body (.recvBody r.length []) (.received r) = .returned r := by
  rw [turn_recvBody h, List.nil_append, loopRecvBody, if_neg (Nat.lt_irrefl _), finish,
    if_pos hvalid]

end Equations

/-- A turn that sends leaves the rest, in the same or the next loop. -/
theorem turn_sent (body : Bytes) {ph : Phase} {n : Nat} (hn : 0 < n)
    (hle : n ≤ ph.offered.length) :
    (turn e body ph (.sent n)).left body = (ph.left body).drop n
      ∧ (turn e body ph (.sent n)).got e = [] ∧ turn e body ph (.sent n) ≠ .raised := by
  have hne : n ≠ 0 := Nat.ne_of_gt hn
  cases ph with
  | sendHeader left =>
      have hdrop : (Phase.left body (.sendHeader left)).drop n = left.drop n ++ body :=
        List.drop_append_of_le_length hle
      rw [turn_sendHeader hne, hdrop]
      exact loopSendHeader_eq e body _
  | sendBody left =>
      rw [turn_sendBody hne]
      exact loopSendBody_eq e body _
  | recvHeader data => exact absurd hle (Nat.not_le.mpr hn)
  | recvBody size data => exact absurd hle (Nat.not_le.mpr hn)
  | returned resp => exact absurd hle (Nat.not_le.mpr hn)
  | raised => exact absurd hle (Nat.not_le.mpr hn)

/-- The end of `send`. -/
theorem finish_eq (body resp : Bytes) :
    (finish resp = .raised ∧ utf8Valid resp = false)
      ∨ ((finish resp).left body = [] ∧ (finish resp).got e = encodeFrame e resp
        ∧ finish resp ≠ .raised) := by
  rw [finish]
  split_ifs with hvalid
  · exact Or.inr ⟨rfl, rfl, Phase.noConfusion⟩
  · exact Or.inl ⟨rfl, Bool.eq_false_iff.mpr hvalid⟩

/-- A turn that receives part of a reply `r`: what has come grows by it, or all
    of `r` has come and is not UTF-8. -/
theorem turn_received (body : Bytes) {new rest r : Bytes} {ph : Phase} (h : ph.Proper)
    (hnew : new ≠ []) (hle : new.length ≤ ph.remain) (hr : r.length < 2 ^ 32)
    (hgot : ph.got e ++ (new ++ rest) = encodeFrame e r) :
    (turn e body ph (.received new) = .raised ∧ utf8Valid r = false)
      ∨ ((turn e body ph (.received new)).left body = []
        ∧ (turn e body ph (.received new)).got e = ph.got e ++ new
        ∧ turn e body ph (.received new) ≠ .raised) := by
  have hpos : 0 < new.length := List.length_pos_iff.mpr hnew
  cases ph with
  | recvHeader data =>
      have hdata : data.length < 4 := h
      have hle' : new.length ≤ 4 - data.length := hle
      have hgot' : (data ++ new) ++ rest = encodeFrame e r := by
        rw [List.append_assoc]
        exact hgot
      have hcame : Phase.got e (.recvHeader data) ++ new = data ++ new := rfl
      rw [turn_recvHeader hnew, hcame, loopRecvHeader]
      split_ifs with hlt
      · exact Or.inr ⟨rfl, rfl, Phase.noConfusion⟩
      · -- the header is complete: it announces the length of the reply
        have hlen : (data ++ new).length = 4 := by
          rw [List.length_append] at hlt ⊢
          omega
        have hhead : data ++ new = u32Bytes e r.length := by
          have ht := take_encodeFrame e r []
          rw [List.append_nil, ← hgot', List.take_left' hlen] at ht
          exact ht
        rw [hhead, u32Value_u32Bytes, Nat.mod_eq_of_lt hr, loopRecvBody]
        split_ifs with hsize
        · exact Or.inr ⟨rfl, List.append_nil _, Phase.noConfusion⟩
        · have hnil : r = [] := List.eq_nil_of_length_eq_zero (by simpa using hsize)
          rw [hnil]
          exact Or.inr ⟨rfl, List.append_nil _, Phase.noConfusion⟩
  | recvBody size data =>
      obtain ⟨hdata, hsize⟩ : data.length < size ∧ size < 2 ^ 32 := h
      have hle' : new.length ≤ size - data.length := hle
      have hframe : u32Bytes e size ++ ((data ++ new) ++ rest) = u32Bytes e r.length ++ r := by
        rw [List.append_assoc data, ← List.append_assoc]
        exact hgot
      obtain ⟨hword, hbody⟩ := List.append_inj hframe
        (by rw [u32Bytes_length, u32Bytes_length])
      have hlen : size = r.length := by
        have hval := congrArg (u32Value e) hword
        rw [u32Value_u32Bytes, u32Value_u32Bytes, Nat.mod_eq_of_lt hsize, Nat.mod_eq_of_lt hr]
          at hval
        exact hval
      have hcame : Phase.got e (.recvBody size data) ++ new = u32Bytes e size ++ (data ++ new) :=
        List.append_assoc _ _ _
      rw [turn_recvBody hnew, hcame, loopRecvBody]
      split_ifs with hlt
      · exact Or.inr ⟨rfl, rfl, Phase.noConfusion⟩
      · -- the body is complete: it is the reply
        have hfull : (data ++ new).length = r.length := by
          rw [List.length_append] at hlt ⊢
          omega
        have hall : data ++ new = r :=
          (List.append_inj (hbody.trans (List.append_nil r).symm) hfull).1
        rw [hall, hlen]
        exact finish_eq e body r
  | sendHeader left => exact absurd hle (Nat.not_le.mpr hpos)
  | sendBody left => exact absurd hle (Nat.not_le.mpr hpos)
  | returned resp => exact absurd hle (Nat.not_le.mpr hpos)
  | raised => exact absurd hle (Nat.not_le.mpr hpos)

/-- A system call that fails or lets nothing through ends `send`, unless it is
    through already. -/
theorem turn_fails (body : Bytes) (ph : Phase) {io : IoResult}
    (hio : io = .failed ∨ io = .sent 0 ∨ io = .received []) :
    turn e body ph io = .raised ∨ turn e body ph io = ph := by
  rcases hio with rfl | rfl | rfl
  · cases ph with
    | returned resp => exact Or.inr rfl
    | _ => exact Or.inl rfl
  · cases ph with
    | returned resp => exact Or.inr rfl
    | _ => exact Or.inl rfl
  · cases ph with
    | returned resp => exact Or.inr rfl
    | _ => exact Or.inl rfl

/-- No turn leaves a loop with nothing to do. -/
theorem turn_proper {body : Bytes} {ph : Phase} (h : ph.Proper) {io : IoResult}
    (hle : ∀ new, io = .received new → new.length ≤ ph.remain) : (turn e body ph io).Proper := by
  cases ph with
  | sendHeader left =>
      cases io with
      | sent n =>
          rw [turn]
          split_ifs
          · trivial
          · exact proper_loopSendHeader e body _
      | received new => trivial
      | failed => trivial
  | sendBody left =>
      cases io with
      | sent n =>
          rw [turn]
          split_ifs
          · trivial
          · exact proper_loopSendBody e _
      | received new => trivial
      | failed => trivial
  | recvHeader data =>
      cases io with
      | sent n => trivial
      | received new =>
          have hdata : data.length < 4 := h
          have hnew : new.length ≤ 4 - data.length := hle new rfl
          rw [turn]
          split_ifs
          · trivial
          · refine proper_loopRecvHeader e ?_
            rw [List.length_append]
            omega
      | failed => trivial
  | recvBody size data =>
      cases io with
      | sent n => trivial
      | received new =>
          have hdata : data.length < size := h.1
          have hnew : new.length ≤ size - data.length := hle new rfl
          rw [turn]
          split_ifs
          · trivial
          · refine proper_loopRecvBody h.2 ?_
            rw [List.length_append]
            omega
      | failed => trivial
  | returned resp => exact h
  | raised => cases io <;> trivial

/-! ## One exchange

    A connection while a request is on its way: nothing has come back, what the
    server has not read and what is not sent make up the request's frame; or
    the server has read all of it and answered, and what has come and what is
    still to come make up the frame of its answer. -/

inductive Exchange (body : Bytes) (ph : Phase) (unread pending : Bytes) :
    Option Bytes → Prop where
  | waiting (hleft : unread ++ ph.left body = encodeFrame e body) (hgot : ph.got e = [])
      (hpending : pending = []) : Exchange body ph unread pending none
  | answered {r : Bytes} (hleft : ph.left body = []) (hunread : unread = [])
      (hr : r.length < 2 ^ 32) (hgot : ph.got e ++ pending = encodeFrame e r) :
      Exchange body ph unread pending (some r)

section Exchange

variable {e} {body unread pending : Bytes} {ph : Phase} {answer : Option Bytes}

/-- A request begins on a connection without leftovers. -/
theorem exchange_enter (h : body.length < 2 ^ 32) :
    Exchange e body (enter e body) [] [] none :=
  .waiting (enter_eq e h).1 (enter_eq e h).2.1 rfl

/-- What is offered is the front of what is left. -/
theorem offered_take {n : Nat} (hle : n ≤ ph.offered.length) :
    ph.offered.take n = (ph.left body).take n := by
  cases ph with
  | sendHeader left => exact (List.take_append_of_le_length hle).symm
  | sendBody left => rfl
  | recvHeader data => rfl
  | recvBody size data => rfl
  | returned resp => rfl
  | raised => rfl

/-- The client sends. -/
theorem exchange_sent (h : Exchange e body ph unread pending answer) {n : Nat} (hn : 0 < n)
    (hle : n ≤ ph.offered.length) :
    Exchange e body (turn e body ph (.sent n)) (unread ++ ph.offered.take n) pending answer := by
  obtain ⟨hleft', hgot', -⟩ := turn_sent e body hn hle
  have htake : ph.offered.take n = (ph.left body).take n := offered_take hle
  cases h with
  | waiting hleft hgot hpending =>
      refine .waiting ?_ hgot' hpending
      rw [hleft', htake, List.append_assoc, List.take_append_drop]
      exact hleft
  | answered hleft hunread hr hgot =>
      -- nothing was left to send
      exfalso
      rw [hleft, List.take_nil] at htake
      have hlen := congrArg List.length htake
      rw [List.length_take, List.length_nil] at hlen
      omega

/-- The server takes a frame and answers it: it took the request. -/
theorem exchange_serve (h : Exchange e body ph unread pending answer) {p rest r : Bytes}
    (hsplit : splitFrame e unread = some (p, rest)) (hbody : body.length < 2 ^ 32)
    (hr : r.length < 2 ^ 32) :
    answer = none ∧ p = body ∧ Exchange e body ph rest (pending ++ encodeFrame e r) (some r) := by
  obtain ⟨hunread, hpos, hp⟩ := splitFrame_eq_some.mp hsplit
  cases h with
  | waiting hleft hgot hpending =>
      rw [hunread, List.append_assoc] at hleft
      obtain ⟨rfl, hnil⟩ := encodeFrame_align hp hbody hleft
      obtain ⟨hrest, hleft0⟩ := List.append_eq_nil_iff.mp hnil
      refine ⟨rfl, rfl, .answered hleft0 hrest hr ?_⟩
      rw [hgot, hpending]
      rfl
  | answered hleft hempty hr' hgot =>
      rw [hempty] at hsplit
      cases hsplit

/-- The client receives. -/
theorem exchange_received (h : Exchange e body ph unread pending answer) (hproper : ph.Proper)
    {new rest : Bytes} (hnew : new ≠ []) (hle : new.length ≤ ph.remain)
    (hpending : pending = new ++ rest) :
    turn e body ph (.received new) = .raised
      ∨ Exchange e body (turn e body ph (.received new)) unread rest answer := by
  cases h with
  | waiting hleft hgot hnone =>
      rw [hnone] at hpending
      exact absurd (List.append_eq_nil_iff.mp hpending.symm).1 hnew
  | answered hleft hunread hr hgot =>
      rw [hpending] at hgot
      rcases turn_received e body hproper hnew hle hr hgot with
        ⟨hraised, -⟩ | ⟨hleft', hgot', -⟩
      · exact Or.inl hraised
      · refine Or.inr (.answered hleft' hunread hr ?_)
        rw [hgot', List.append_assoc]
        exact hgot

/-- **NOTHING IS LEFT OVER**: when `send` returns, it returns the server's answer
    to this request, and the connection holds no byte more. -/
theorem exchange_returned {resp : Bytes} (h : Exchange e body (.returned resp) unread pending
    answer) (hresp : (Phase.returned resp).Proper) :
    answer = some resp ∧ unread = [] ∧ pending = [] := by
  cases h with
  | waiting hleft hgot hpending =>
      have hlen := congrArg List.length (show encodeFrame e resp = [] from hgot)
      rw [encodeFrame_length, List.length_nil] at hlen
      omega
  | answered hleft hunread hr hgot =>
      obtain ⟨rfl, hnil⟩ := encodeFrame_align hresp hr hgot
      exact ⟨rfl, hunread, hnil⟩

end Exchange

/-! ## A call against a script of kernel events -/

/-- What the kernel does at one system call: let at most `k + 1` bytes through,
    let none through, or fail it. -/
inductive IoEvent where
  | chunk (k : Nat)
  | nothing
  | error
deriving DecidableEq

/-- The sender with its connection: the bytes the server will send, and the
    bytes written. -/
structure Run where
  phase  : Phase
  stream : Bytes
  out    : Bytes

/-- One system call: a `send` while there is something to send, else a
    `recv`. -/
def ioStep (body : Bytes) (r : Run) : IoEvent → Run
  | .chunk k =>
      if r.phase.offered ≠ [] then
        { r with
          phase := turn e body r.phase (.sent (min (k + 1) r.phase.offered.length))
          out := r.out ++ r.phase.offered.take (min (k + 1) r.phase.offered.length) }
      else
        { r with
          phase := turn e body r.phase (.received (r.stream.take (min (k + 1) r.phase.remain)))
          stream := r.stream.drop (min (k + 1) r.phase.remain) }
  | .nothing =>
      if r.phase.offered ≠ [] then { r with phase := turn e body r.phase (.sent 0) }
      else { r with phase := turn e body r.phase (.received []) }
  | .error => { r with phase := turn e body r.phase .failed }

/-- `NamedPipeTransport.send` on a connection on which the server answers
    `reply`. -/
def namedPipeTransportSend (service fcallStr : PyStr) (evs : List IoEvent) (reply : Bytes) :
    Run :=
  evs.foldl (ioStep e (bodyUtf8 service fcallStr))
    ⟨enter e (bodyUtf8 service fcallStr), reply, []⟩

/-- What is sent and what is left make up the frame, until an exception. -/
def Whole (body : Bytes) (r : Run) : Prop :=
  r.phase = .raised ∨ r.out ++ r.phase.left body = encodeFrame e body

/-- Whatever is not a `send` leaves nothing to send, or has failed. -/
theorem turn_other (body : Bytes) {ph : Phase} {io : IoResult} (h : ∀ n, io = .sent n → n = 0) :
    turn e body ph io = .raised
      ∨ (turn e body ph io).left body = ph.left body ∧ ph.offered = [] := by
  cases ph with
  | sendHeader left =>
      cases io with
      | sent n => exact Or.inl (if_pos (h n rfl))
      | received new => exact Or.inl rfl
      | failed => exact Or.inl rfl
  | sendBody left =>
      cases io with
      | sent n => exact Or.inl (if_pos (h n rfl))
      | received new => exact Or.inl rfl
      | failed => exact Or.inl rfl
  | recvHeader data =>
      cases io with
      | sent n => exact Or.inl rfl
      | received new =>
          refine Or.inr ⟨?_, rfl⟩
          rw [turn, loopRecvHeader, loopRecvBody, finish]
          split_ifs <;> rfl
      | failed => exact Or.inl rfl
  | recvBody size data =>
      cases io with
      | sent n => exact Or.inl rfl
      | received new =>
          refine Or.inr ⟨?_, rfl⟩
          rw [turn, loopRecvBody, finish]
          split_ifs <;> rfl
      | failed => exact Or.inl rfl
  | returned resp => exact Or.inr ⟨rfl, rfl⟩
  | raised => cases io <;> exact Or.inl rfl

theorem whole_other {body : Bytes} {r : Run} {stream : Bytes} {io : IoResult}
    (hr : Whole e body r) (h : ∀ n, io = .sent n → n = 0) :
    Whole e body { r with phase := turn e body r.phase io, stream := stream } := by
  rcases hr with hraised | hleft
  · left
    show turn e body r.phase io = .raised
    rw [hraised]
    cases io <;> rfl
  · rcases turn_other e body h with hraised | ⟨hsame, -⟩
    · exact Or.inl hraised
    · right
      show r.out ++ (turn e body r.phase io).left body = _
      rw [hsame]
      exact hleft

theorem whole_ioStep {body : Bytes} {r : Run} (hr : Whole e body r) (ev : IoEvent) :
    Whole e body (ioStep e body r ev) := by
  cases ev with
  | chunk k =>
      rw [ioStep]
      split_ifs with hoffered
      · have hpos := List.length_pos_iff.mpr hoffered
        obtain ⟨hleft', -, -⟩ := turn_sent e body
          (show 0 < min (k + 1) r.phase.offered.length by omega)
          (Nat.min_le_right (k + 1) r.phase.offered.length)
        rcases hr with hraised | hleft
        · rw [hraised] at hoffered
          exact absurd rfl hoffered
        · right
          show (r.out ++ r.phase.offered.take _) ++ (turn e body r.phase _).left body = _
          rw [hleft', offered_take (Nat.min_le_right _ _), List.append_assoc,
            List.take_append_drop]
          exact hleft
      · exact whole_other e hr (by rintro n ⟨⟩)
  | nothing =>
      rw [ioStep]
      split_ifs with hoffered
      · exact whole_other e hr (fun n h => (IoResult.sent.inj h).symm)
      · exact whole_other e hr (by rintro n ⟨⟩)
  | error => exact whole_other e hr (by rintro n ⟨⟩)

/-- **ONE FRAME GOES OUT**: whatever the kernel does, a `send` that has sent all
    it had to has written exactly the frame of its request. -/
theorem send_out {service fcallStr : PyStr}
    (h : (bodyUtf8 service fcallStr).length < 2 ^ 32) (evs : List IoEvent) (reply : Bytes) :
    Whole e (bodyUtf8 service fcallStr) (namedPipeTransportSend e service fcallStr evs reply) := by
  have hstart : Whole e (bodyUtf8 service fcallStr)
      ⟨enter e (bodyUtf8 service fcallStr), reply, []⟩ := Or.inr (enter_eq e h).1
  rw [namedPipeTransportSend]
  -- induction on the script, the run generalised
  revert hstart
  generalize (⟨enter e (bodyUtf8 service fcallStr), reply, []⟩ : Run) = r
  intro hr
  induction evs generalizing r with
  | nil => exact hr
  | cons ev evs ih => exact ih _ (whole_ioStep e hr ev)

end PyTransport
