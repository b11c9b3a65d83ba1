import Searpc.OutcomeLoopProofs
import Searpc.PipeIoProofs

/-! # Exact transfer — `pipe_write_n` and `pipe_read_n` turn by turn

    In `PipeIoProofs` the two loops run against a kernel that follows a script.
    Here they are as the source has them, with `ptr` and `nleft` side by side,
    against what their system calls report: any finite sequence of counts,
    interrupts and errors.

    `ptr` and the bytes still to go always make up `n`, and what has been
    transferred is the first `ptr` bytes.  The loops end alike but for a count
    of zero: an error to `pipe_write_n`, the end of the file to `pipe_read_n`.
    `scripted_calls_exact` brings this back to the scripts, and so to the
    handlers and clients whose transfers follow them. -/

namespace SearpcPipeTransfer

open ByteMemory OutcomeLoop SearpcPipeIo

/-! ## Reports -/

/-- What `read(2)` and `write(2)` report: a count, `EINTR`, or another error. -/
inductive Outcome where
  | count (k : Nat)
  | eintr
  | error
deriving DecidableEq

/-- The bytes a report stands for. -/
def Outcome.bytes : Outcome → Nat
  | .count k => k
  | _ => 0

/-- The sum of the reported counts. -/
def total (outs : List Outcome) : Nat := (outs.map Outcome.bytes).sum

/-- A report after which both loops go on. -/
def Outcome.Moves (o : Outcome) : Prop := o = .eintr ∨ ∃ k, o = .count (k + 1)

/-- Both loops go on after every report. -/
def Smooth (outs : List Outcome) : Prop := ∀ o ∈ outs, o.Moves

/-- A report of the kind comes before `n` bytes have been transferred, and before
    any other that ends a loop. -/
def CameFirst (n : Nat) (stop : Outcome → Prop) (outs : List Outcome) : Prop :=
  ∃ pre o post, outs = pre ++ o :: post ∧ Smooth pre ∧ total pre < n ∧ stop o

/-! ## `pipe_write_n` -/

/-- The locals of `pipe_write_n`, and what the stream has got from it. -/
structure WriteLoop where
  ptr    : Nat
  nleft  : Nat
  stream : Bytes

/-- The loop of `pipe_write_n(fd, vptr, n)`.  `n` is the size of an object and
    fits the signed type of the result. -/
def pipeWriteNLoop (vptr : Bytes) (n : Nat) : Loop WriteLoop Outcome WriteRet where
  done l := if 0 < l.nleft then none else some ⟨n, l.stream⟩
  turn l
    | .count nwritten =>
        if nwritten = 0 then .ret ⟨-1, l.stream⟩
        else
          .more ⟨l.ptr + nwritten, l.nleft - nwritten,
            l.stream ++ (vptr.drop l.ptr).take nwritten⟩
    -- `nwritten = 0`, and `write` is called again
    | .eintr => .more l
    | .error => .ret ⟨-1, l.stream⟩

/-- `write` takes no more than it is offered. -/
def mayWrite (l : WriteLoop) (o : Outcome) : Prop := o.bytes ≤ l.nleft

/-- `pipe_write_n` on a byte string, against what its calls of `write` report. -/
def pipeWriteNWith (vptr : Bytes) (outs : List Outcome) : Run WriteLoop Outcome WriteRet :=
  (pipeWriteNLoop vptr vptr.length).run outs ⟨0, vptr.length, []⟩

/-- What the calls of `write` may report. -/
def WriteOutcomes (vptr : Bytes) (outs : List Outcome) : Prop :=
  (pipeWriteNLoop vptr vptr.length).Allowed mayWrite outs ⟨0, vptr.length, []⟩

/-! ## `pipe_read_n` -/

/-- The locals of `pipe_read_n` with the buffer, and what is still in the
    stream. -/
structure ReadState where
  mem   : Mem
  ptr   : Nat
  nleft : Nat
  rest  : Bytes

/-- The loop of `pipe_read_n(fd, vptr, n)`. -/
def pipeReadNLoop (n : Nat) : Loop ReadState Outcome ReadRet where
  done l := if 0 < l.nleft then none else some ⟨((n - l.nleft : Nat) : Int), l.mem, l.rest⟩
  turn l
    | .count nread =>
        -- EOF
        if nread = 0 then .ret ⟨((n - l.nleft : Nat) : Int), l.mem, l.rest⟩
        else
          .more ⟨store l.mem l.ptr (l.rest.take nread), l.ptr + nread, l.nleft - nread,
            l.rest.drop nread⟩
    -- `nread = 0`, and `read` is called again
    | .eintr => .more l
    | .error => .ret ⟨-1, l.mem, l.rest⟩

/-- `read` gives no more than is asked for, and no more than there is. -/
def mayRead (l : ReadState) (o : Outcome) : Prop := o.bytes ≤ l.nleft ∧ o.bytes ≤ l.rest.length

/-- `pipe_read_n` for `n` bytes of a stream, against what its calls of `read`
    report. -/
def pipeReadNWith (n : Nat) (mem : Mem) (s : Bytes) (outs : List Outcome) :
    Run ReadState Outcome ReadRet :=
  (pipeReadNLoop n).run outs ⟨mem, 0, n, s⟩

/-- What the calls of `read` may report. -/
def ReadOutcomes (n : Nat) (mem : Mem) (s : Bytes) (outs : List Outcome) : Prop :=
  (pipeReadNLoop n).Allowed mayRead outs ⟨mem, 0, n, s⟩

/-! ## Sequences of reports -/

theorem total_append (outs more : List Outcome) :
    total (outs ++ more) = total outs + total more := by
  rw [total, List.map_append, List.sum_append]
  rfl

theorem total_snoc (outs : List Outcome) (o : Outcome) :
    total (outs ++ [o]) = total outs + o.bytes := by
  rw [total_append]
  exact congrArg (total outs + ·) (Nat.add_zero o.bytes)

theorem smooth_nil : Smooth [] := fun _ ho => absurd ho List.not_mem_nil

theorem smooth_snoc {outs : List Outcome} {o : Outcome} (h : Smooth outs) (ho : o.Moves) :
    Smooth (outs ++ [o]) := by
  intro p hp
  rcases List.mem_append.mp hp with hp | hp
  · exact h p hp
  · rw [List.mem_singleton.mp hp]
    exact ho

theorem not_moves_error : ¬ Outcome.error.Moves := by
  rintro (h | ⟨k, h⟩)
  · cases h
  · cases h

theorem not_moves_zero : ¬ (Outcome.count 0).Moves := by
  rintro (h | ⟨k, h⟩)
  · cases h
  · cases h

/-- The first report that ends a loop is one report. -/
theorem stop_unique {pre pre' post post' : List Outcome} {o o' : Outcome}
    (h : pre ++ o :: post = pre' ++ o' :: post') (hpre : Smooth pre) (hpre' : Smooth pre')
    (ho : ¬ o.Moves) (ho' : ¬ o'.Moves) : pre = pre' ∧ o = o' := by
  induction pre generalizing pre' with
  | nil =>
      cases pre' with
      | nil => exact ⟨rfl, (List.cons.inj h).1⟩
      | cons p pre' =>
          obtain ⟨rfl, -⟩ := List.cons.inj h
          exact absurd (hpre' o List.mem_cons_self) ho
  | cons p pre ih =>
      cases pre' with
      | nil =>
          obtain ⟨rfl, -⟩ := List.cons.inj h
          exact absurd (hpre p List.mem_cons_self) ho'
      | cons p' pre' =>
          obtain ⟨rfl, htail⟩ := List.cons.inj h
          obtain ⟨hsame, hstop⟩ := ih htail (fun q hq => hpre q (List.mem_cons_of_mem p hq))
            (fun q hq => hpre' q (List.mem_cons_of_mem p hq))
          exact ⟨by rw [hsame], hstop⟩

/-- Nothing comes first among reports after which a loop goes on. -/
theorem not_cameFirst_of_smooth {n : Nat} {stop : Outcome → Prop}
    (hstop : ∀ o, stop o → ¬ o.Moves) {outs : List Outcome} (h : Smooth outs) :
    ¬ CameFirst n stop outs := by
  rintro ⟨pre, o, post, rfl, -, -, ho⟩
  exact hstop o ho (h o (List.mem_append_right pre List.mem_cons_self))

/-- Nothing comes before `n` bytes once they have come. -/
theorem not_cameFirst_of_total {n : Nat} {stop : Outcome → Prop}
    (hstop : ∀ o, stop o → ¬ o.Moves) {used rest : List Outcome} (h : Smooth used)
    (htotal : n ≤ total used) : ¬ CameFirst n stop (used ++ rest) := by
  rintro ⟨pre, o, post, hsplit, hpre, hlt, ho⟩
  rcases List.append_eq_append_iff.mp hsplit with ⟨mid, hpre', -⟩ | ⟨mid, hused, hrest⟩
  · rw [hpre', total_append] at hlt
    omega
  · cases mid with
    | nil =>
        rw [List.append_nil] at hused
        rw [hused] at htotal
        omega
    | cons p mid =>
        obtain ⟨rfl, -⟩ := List.cons.inj hrest
        refine hstop o ho (h o ?_)
        rw [hused]
        exact List.mem_append_right pre List.mem_cons_self

/-- Once a report has ended the loop, that report came first. -/
theorem cameFirst_iff_of_stop {n : Nat} {stop : Outcome → Prop}
    (hstop : ∀ o, stop o → ¬ o.Moves) {pre rest : List Outcome} {o : Outcome} (h : Smooth pre)
    (htotal : total pre < n) (ho : ¬ o.Moves) : CameFirst n stop (pre ++ o :: rest) ↔ stop o := by
  constructor
  · rintro ⟨pre', o', post, hsplit, hpre', -, ho'⟩
    obtain ⟨-, rfl⟩ := stop_unique hsplit h hpre' ho (hstop o' ho')
    exact ho'
  · intro hstops
    exact ⟨pre, o, rest, rfl, h, htotal, hstops⟩

/-- The reports are used up, and there is more to transfer. -/
def Waits (n : Nat) (outs : List Outcome) : Prop := Smooth outs ∧ total outs < n

theorem not_waits_of_total {n : Nat} {used rest : List Outcome} (htotal : n ≤ total used) :
    ¬ Waits n (used ++ rest) := by
  rintro ⟨-, hlt⟩
  rw [total_append] at hlt
  omega

theorem not_waits_of_stop {n : Nat} {pre rest : List Outcome} {o : Outcome} (ho : ¬ o.Moves) :
    ¬ Waits n (pre ++ o :: rest) := fun h =>
  ho (h.1 o (List.mem_append_right pre List.mem_cons_self))

/-! ## What a call of `pipe_write_n` comes to -/

section Write

variable {vptr : Bytes}

/-- At the head of the loop: `ptr` and `nleft` make up the whole, and the stream
    has got what `ptr` has passed. -/
structure Writing (vptr : Bytes) (used : List Outcome) (l : WriteLoop) : Prop where
  smooth : Smooth used
  ptr    : l.ptr = total used
  split  : l.ptr + l.nleft = vptr.length
  stream : l.stream = vptr.take l.ptr

/-- What ends `pipe_write_n` early. -/
def WriteFails (o : Outcome) : Prop := o = .error ∨ o = .count 0

theorem WriteFails.stops {o : Outcome} (h : WriteFails o) : ¬ o.Moves := by
  rcases h with rfl | rfl
  · exact not_moves_error
  · exact not_moves_zero

/-- How the loop returns. -/
inductive Wrote (vptr : Bytes) : List Outcome → WriteRet → Prop where
  | all {used : List Outcome} (hsmooth : Smooth used) (htotal : total used = vptr.length) :
      Wrote vptr used ⟨vptr.length, vptr⟩
  | fails {pre : List Outcome} {o : Outcome} (hsmooth : Smooth pre)
      (htotal : total pre < vptr.length) (ho : WriteFails o) :
      Wrote vptr (pre ++ [o]) ⟨-1, vptr.take (total pre)⟩

/-- The loop goes on while something is left. -/
theorem write_open {n : Nat} {l : WriteLoop} :
    (pipeWriteNLoop vptr n).done l = none ↔ 0 < l.nleft := by
  simp [pipeWriteNLoop]

/-- It ends with the count it was given. -/
theorem write_done {n : Nat} {l : WriteLoop} (h : l.nleft = 0) :
    (pipeWriteNLoop vptr n).done l = some ⟨n, l.stream⟩ :=
  if_neg (by omega)

/-- A count moves `ptr` and `nleft` together. -/
theorem write_turn {l : WriteLoop} (vptr : Bytes) (n : Nat) {k : Nat} (h : 0 < k) :
    (pipeWriteNLoop vptr n).turn l (.count k)
      = .more ⟨l.ptr + k, l.nleft - k, l.stream ++ (vptr.drop l.ptr).take k⟩ :=
  if_neg (Nat.ne_of_gt h)

/-- **A TURN OF `pipe_write_n`** moves `ptr` and `nleft` together, or ends the
    loop. -/
theorem write_rule (vptr : Bytes) :
    Rule (pipeWriteNLoop vptr vptr.length) mayWrite (Writing vptr) (Wrote vptr) where
  done := by
    intro used l r h hdone
    have hleft : l.nleft = 0 := by
      by_contra hleft
      cases (write_open.mpr (Nat.pos_of_ne_zero hleft)).symm.trans hdone
    have hall : l.ptr = vptr.length := by
      rw [← h.split, hleft, Nat.add_zero]
    obtain rfl := Option.some.inj ((write_done hleft).symm.trans hdone)
    rw [h.stream, hall, List.take_length]
    exact .all h.smooth (h.ptr.symm.trans hall)
  more := by
    intro used l o l' h _ hmay hturn
    cases o with
    | count nwritten =>
        cases nwritten with
        | zero => cases hturn
        | succ k =>
            have hle : k + 1 ≤ l.nleft := hmay
            have hsplit := h.split
            cases (write_turn vptr vptr.length (Nat.succ_pos k)).symm.trans hturn
            constructor
            case smooth => exact smooth_snoc h.smooth (.inr ⟨k, rfl⟩)
            case ptr =>
                rw [total_snoc, ← h.ptr]
                rfl
            case split =>
                dsimp only
                omega
            case stream =>
                dsimp only
                rw [h.stream, List.take_add]
    | eintr =>
        cases hturn
        exact ⟨smooth_snoc h.smooth (.inl rfl), by rw [total_snoc, ← h.ptr]; rfl, h.split,
          h.stream⟩
    | error => cases hturn
  ret := by
    intro used l o r h hdone _ hturn
    have hleft : 0 < l.nleft := write_open.mp hdone
    have hsplit := h.split
    have hptr := h.ptr
    have hlt : total used < vptr.length := by omega
    cases o with
    | count nwritten =>
        cases nwritten with
        | zero =>
            cases hturn
            rw [h.stream, h.ptr]
            exact .fails h.smooth hlt (.inr rfl)
        | succ k => cases (write_turn vptr vptr.length (Nat.succ_pos k)).symm.trans hturn
    | eintr => cases hturn
    | error =>
        cases hturn
        rw [h.stream, h.ptr]
        exact .fails h.smooth hlt (.inl rfl)

/-- What has been put on the stream. -/
def written (r : Run WriteLoop Outcome WriteRet) : Bytes := r.view WriteLoop.stream WriteRet.out

/-- The value returned, once the call has returned. -/
def writeRet (r : Run WriteLoop Outcome WriteRet) : Option Int := r.result.map WriteRet.ret

/-- An exact write: the stream has got a prefix as long as the counts that were
    reported, `n` is returned for the whole, `-1` where a failure came first,
    and nothing while there is more to write. -/
structure WriteExact (vptr : Bytes) (outs used : List Outcome)
    (r : Run WriteLoop Outcome WriteRet) : Prop where
  split  : outs = used ++ r.unused
  bound  : total used ≤ vptr.length
  stream : written r = vptr.take (total used)
  whole  : writeRet r = some (vptr.length : Int) ↔ written r = vptr
  failed : writeRet r = some (-1) ↔ CameFirst vptr.length WriteFails outs
  waits  : writeRet r = none ↔ Waits vptr.length outs

/-- A prefix that is shorter is not the whole. -/
theorem take_ne_self {n : Nat} (h : n < vptr.length) : vptr.take n ≠ vptr := by
  intro hall
  have hlen := congrArg List.length hall
  rw [List.length_take] at hlen
  omega

/-- While the loop waits for `write`. -/
theorem writeExact_waits {outs : List Outcome} {l : WriteLoop} (hsmooth : Smooth outs)
    (htotal : total outs < vptr.length) (hstream : l.stream = vptr.take (total outs)) :
    WriteExact vptr outs outs (.waiting l) := by
  constructor
  case split => exact (List.append_nil outs).symm
  case bound => exact Nat.le_of_lt htotal
  case stream => exact hstream
  case whole =>
      refine iff_of_false (by rintro ⟨⟩) (fun hall => take_ne_self htotal ?_)
      exact hstream.symm.trans hall
  case failed =>
      exact iff_of_false (by rintro ⟨⟩) (not_cameFirst_of_smooth (fun _ ho => ho.stops) hsmooth)
  case waits => exact iff_of_true rfl ⟨hsmooth, htotal⟩

theorem writeExact_all {used : List Outcome} (rest : List Outcome) (hsmooth : Smooth used)
    (htotal : total used = vptr.length) :
    WriteExact vptr (used ++ rest) used (.returned ⟨vptr.length, vptr⟩ rest) := by
  have hall : vptr.length ≤ total used := Nat.le_of_eq htotal.symm
  constructor
  case split => rfl
  case bound => exact Nat.le_of_eq htotal
  case stream =>
      rw [htotal, List.take_length]
      rfl
  case whole => exact iff_of_true rfl rfl
  case failed =>
      refine iff_of_false (fun hret => ?_)
        (not_cameFirst_of_total (fun _ ho => ho.stops) hsmooth hall)
      cases Option.some.inj hret
  case waits => exact iff_of_false (by rintro ⟨⟩) (not_waits_of_total hall)

theorem writeExact_fails {pre : List Outcome} {o : Outcome} (rest : List Outcome)
    (hsmooth : Smooth pre) (htotal : total pre < vptr.length) (ho : WriteFails o) :
    WriteExact vptr (pre ++ o :: rest) (pre ++ [o])
      (.returned ⟨-1, vptr.take (total pre)⟩ rest) := by
  have hsum : total (pre ++ [o]) = total pre := by
    rw [total_snoc]
    rcases ho with rfl | rfl <;> rfl
  constructor
  case split => exact (List.append_assoc pre [o] rest).symm
  case bound => exact hsum ▸ Nat.le_of_lt htotal
  case stream =>
      rw [hsum]
      rfl
  case whole =>
      refine iff_of_false (fun hret => ?_) (take_ne_self htotal)
      cases Option.some.inj hret
  case failed =>
      rw [cameFirst_iff_of_stop (fun _ hp => hp.stops) hsmooth htotal ho.stops]
      exact iff_of_true rfl ho
  case waits => exact iff_of_false (by rintro ⟨⟩) (not_waits_of_stop ho.stops)

/-- **EVERY CALL OF `pipe_write_n`** is exact. -/
theorem write_exact {outs : List Outcome} (h : WriteOutcomes vptr outs) :
    ∃ used, WriteExact vptr outs used (pipeWriteNWith vptr outs) := by
  have hstart : Writing vptr [] ⟨0, vptr.length, []⟩ := ⟨smooth_nil, rfl, Nat.zero_add _, rfl⟩
  rcases (write_rule vptr).run outs [] _ hstart h with
    ⟨l, hrun, hdone, hinv⟩ | ⟨r, used, rest, hrun, rfl, hpost⟩
  · have hleft : 0 < l.nleft := write_open.mp hdone
    have hsplit := hinv.split
    have hptr : l.ptr = total outs := hinv.ptr
    refine ⟨outs, ?_⟩
    rw [pipeWriteNWith, hrun]
    exact writeExact_waits hinv.smooth (by omega) (hptr ▸ hinv.stream)
  · refine ⟨used, ?_⟩
    rw [pipeWriteNWith, hrun]
    have hpost : Wrote vptr used r := hpost
    cases hpost with
    | all hsmooth htotal => exact writeExact_all rest hsmooth htotal
    | @fails pre o hsmooth htotal ho =>
        rw [List.append_assoc]
        exact writeExact_fails rest hsmooth htotal ho

end Write

/-! ## What a call of `pipe_read_n` comes to -/

section Read

variable {n : Nat} {mem : Mem} {s : Bytes}

/-- At the head of the loop: `ptr` and `nleft` make up `n`, and what `ptr` has
    passed is the beginning of the stream. -/
structure Reading (n : Nat) (mem : Mem) (s : Bytes) (used : List Outcome) (l : ReadState) :
    Prop where
  smooth : Smooth used
  ptr    : l.ptr = total used
  split  : l.ptr + l.nleft = n
  there  : l.ptr ≤ s.length
  mem    : l.mem = store mem 0 (s.take l.ptr)
  rest   : l.rest = s.drop l.ptr

/-- How the loop returns. -/
inductive Read (n : Nat) (mem : Mem) (s : Bytes) : List Outcome → ReadRet → Prop where
  | all {used : List Outcome} (hsmooth : Smooth used) (htotal : total used = n)
      (hthere : total used ≤ s.length) :
      Read n mem s used
        ⟨((total used : Nat) : Int), store mem 0 (s.take (total used)), s.drop (total used)⟩
  | eof {pre : List Outcome} (hsmooth : Smooth pre) (htotal : total pre < n)
      (hthere : total pre ≤ s.length) :
      Read n mem s (pre ++ [.count 0])
        ⟨((total pre : Nat) : Int), store mem 0 (s.take (total pre)), s.drop (total pre)⟩
  | fails {pre : List Outcome} (hsmooth : Smooth pre) (htotal : total pre < n)
      (hthere : total pre ≤ s.length) :
      Read n mem s (pre ++ [.error])
        ⟨-1, store mem 0 (s.take (total pre)), s.drop (total pre)⟩

theorem read_open {l : ReadState} : (pipeReadNLoop n).done l = none ↔ 0 < l.nleft := by
  simp [pipeReadNLoop]

theorem read_done {l : ReadState} (h : l.nleft = 0) :
    (pipeReadNLoop n).done l = some ⟨((n - l.nleft : Nat) : Int), l.mem, l.rest⟩ :=
  if_neg (by omega)

theorem read_turn {l : ReadState} (n : Nat) {k : Nat} (h : 0 < k) :
    (pipeReadNLoop n).turn l (.count k)
      = .more ⟨store l.mem l.ptr (l.rest.take k), l.ptr + k, l.nleft - k, l.rest.drop k⟩ :=
  if_neg (Nat.ne_of_gt h)

/-- **A TURN OF `pipe_read_n`** moves `ptr` and `nleft` together, or ends the
    loop. -/
theorem read_rule (n : Nat) (mem : Mem) (s : Bytes) :
    Rule (pipeReadNLoop n) mayRead (Reading n mem s) (Read n mem s) where
  done := by
    intro used l r h hdone
    have hleft : l.nleft = 0 := by
      by_contra hleft
      cases (read_open.mpr (Nat.pos_of_ne_zero hleft)).symm.trans hdone
    have hall : total used = n := by
      rw [← h.ptr, ← h.split, hleft, Nat.add_zero]
    have hcount : n - l.nleft = total used := by
      rw [hleft, hall, Nat.sub_zero]
    have hthere := h.there
    obtain rfl := Option.some.inj ((read_done hleft).symm.trans hdone)
    rw [h.mem, h.rest, hcount, h.ptr]
    rw [h.ptr] at hthere
    exact .all h.smooth hall hthere
  more := by
    intro used l o l' h _ hmay hturn
    cases o with
    | count nread =>
        cases nread with
        | zero => cases hturn
        | succ k =>
            obtain ⟨hle, hmore⟩ : k + 1 ≤ l.nleft ∧ k + 1 ≤ l.rest.length := hmay
            have hsplit := h.split
            have hthere := h.there
            have hlen : (s.take l.ptr).length = l.ptr := List.length_take_of_le hthere
            cases (read_turn n (Nat.succ_pos k)).symm.trans hturn
            constructor
            case smooth => exact smooth_snoc h.smooth (.inr ⟨k, rfl⟩)
            case ptr =>
                rw [total_snoc, ← h.ptr]
                rfl
            case split =>
                dsimp only
                omega
            case there =>
                rw [h.rest, List.length_drop] at hmore
                dsimp only
                omega
            case mem =>
                have hbehind := store_behind mem (s.take l.ptr) (l.rest.take (k + 1))
                rw [hlen] at hbehind
                dsimp only
                rw [h.mem, hbehind, h.rest, ← List.take_add]
            case rest =>
                dsimp only
                rw [h.rest, List.drop_drop]
    | eintr =>
        cases hturn
        exact ⟨smooth_snoc h.smooth (.inl rfl), by rw [total_snoc, ← h.ptr]; rfl, h.split,
          h.there, h.mem, h.rest⟩
    | error => cases hturn
  ret := by
    intro used l o r h hdone _ hturn
    have hleft : 0 < l.nleft := read_open.mp hdone
    have hsplit := h.split
    have hptr := h.ptr
    have hthere := h.there
    have hlt : total used < n := by omega
    rw [hptr] at hthere
    cases o with
    | count nread =>
        cases nread with
        | zero =>
            have hcount : n - l.nleft = total used := by omega
            cases hturn
            rw [h.mem, h.rest, hcount, hptr]
            exact .eof h.smooth hlt hthere
        | succ k => cases (read_turn n (Nat.succ_pos k)).symm.trans hturn
    | eintr => cases hturn
    | error =>
        cases hturn
        rw [h.mem, h.rest, hptr]
        exact .fails h.smooth hlt hthere

/-- The buffer. -/
def buffer (r : Run ReadState Outcome ReadRet) : Mem := r.view ReadState.mem ReadRet.mem

/-- What is still in the stream. -/
def unread (r : Run ReadState Outcome ReadRet) : Bytes := r.view ReadState.rest ReadRet.rest

/-- The value returned, once the call has returned. -/
def readRet (r : Run ReadState Outcome ReadRet) : Option Int := r.result.map ReadRet.ret

/-- What an exact read moves: the next bytes of the stream, as many as the counts
    that were reported, stand at the front of the buffer, and nothing else is
    touched. -/
structure ReadMoves (n : Nat) (mem : Mem) (s : Bytes) (outs used : List Outcome)
    (r : Run ReadState Outcome ReadRet) : Prop where
  split     : outs = used ++ r.unused
  bound     : total used ≤ n ∧ total used ≤ s.length
  stored    : slice (buffer r) (total used) = s.take (total used)
  untouched : ∀ i, total used ≤ i → buffer r i = mem i
  rest      : unread r = s.drop (total used)

/-- What an exact read returns: `n` when `n` bytes have come, their number when
    EOF came first, `-1` when an error did, and nothing while there is more to
    read. -/
structure ReadReturns (n : Nat) (outs used : List Outcome) (ret : Option Int) : Prop where
  full   : ret = some (n : Int) ↔ total used = n
  count  : ∀ k : Nat, ret = some (k : Int) → k = total used
  eof    : (∃ k : Nat, k < n ∧ ret = some (k : Int)) ↔ CameFirst n (· = .count 0) outs
  failed : ret = some (-1) ↔ CameFirst n (· = .error) outs
  waits  : ret = none ↔ Waits n outs

theorem readMoves_of_store {outs used : List Outcome} {r : Run ReadState Outcome ReadRet}
    (hsplit : outs = used ++ r.unused) (hle : total used ≤ n) (hthere : total used ≤ s.length)
    (hbuffer : buffer r = store mem 0 (s.take (total used)))
    (hunread : unread r = s.drop (total used)) : ReadMoves n mem s outs used r := by
  have hlen : (s.take (total used)).length = total used := List.length_take_of_le hthere
  refine ⟨hsplit, ⟨hle, hthere⟩, ?_, fun i hi => ?_, hunread⟩
  · rw [hbuffer]
    exact slice_store_eq mem hlen
  · rw [hbuffer, store, hlen]
    exact if_neg (by omega)

/-- The report that ends the loop moves nothing. -/
theorem readMoves_stop {pre : List Outcome} {o : Outcome} {ret : Int} (rest : List Outcome)
    (ho : o.bytes = 0) (htotal : total pre < n) (hthere : total pre ≤ s.length) :
    ReadMoves n mem s ((pre ++ [o]) ++ rest) (pre ++ [o])
      (.returned ⟨ret, store mem 0 (s.take (total pre)), s.drop (total pre)⟩ rest) := by
  have hsum : total (pre ++ [o]) = total pre := by
    rw [total_snoc, ho, Nat.add_zero]
  refine readMoves_of_store rfl ?_ ?_ ?_ ?_
  · rw [hsum]
    exact Nat.le_of_lt htotal
  · rw [hsum]
    exact hthere
  · rw [hsum]
    rfl
  · rw [hsum]
    rfl

theorem not_moves_of_eof (o : Outcome) (h : o = .count 0) : ¬ o.Moves := h ▸ not_moves_zero

theorem not_moves_of_error (o : Outcome) (h : o = .error) : ¬ o.Moves := h ▸ not_moves_error

theorem readReturns_waits {outs : List Outcome} (hsmooth : Smooth outs)
    (htotal : total outs < n) : ReadReturns n outs outs none := by
  constructor
  case full => exact iff_of_false (by rintro ⟨⟩) (Nat.ne_of_lt htotal)
  case count => rintro k ⟨⟩
  case eof =>
      exact iff_of_false (by rintro ⟨k, -, ⟨⟩⟩) (not_cameFirst_of_smooth not_moves_of_eof hsmooth)
  case failed =>
      exact iff_of_false (by rintro ⟨⟩) (not_cameFirst_of_smooth not_moves_of_error hsmooth)
  case waits => exact iff_of_true rfl ⟨hsmooth, htotal⟩

theorem readReturns_all {used : List Outcome} (rest : List Outcome) (hsmooth : Smooth used)
    (htotal : total used = n) :
    ReadReturns n (used ++ rest) used (some ((total used : Nat) : Int)) := by
  have hall : n ≤ total used := Nat.le_of_eq htotal.symm
  constructor
  case full =>
      rw [htotal]
      exact iff_of_true rfl rfl
  case count =>
      intro k hk
      exact (Int.ofNat.inj (Option.some.inj hk)).symm
  case eof =>
      refine iff_of_false ?_ (not_cameFirst_of_total not_moves_of_eof hsmooth hall)
      rintro ⟨k, hlt, hk⟩
      have hcount : total used = k := Int.ofNat.inj (Option.some.inj hk)
      omega
  case failed =>
      refine iff_of_false ?_ (not_cameFirst_of_total not_moves_of_error hsmooth hall)
      intro hret
      cases Option.some.inj hret
  case waits => exact iff_of_false (by rintro ⟨⟩) (not_waits_of_total hall)

theorem readReturns_eof {pre : List Outcome} (rest : List Outcome) (hsmooth : Smooth pre)
    (htotal : total pre < n) :
    ReadReturns n (pre ++ .count 0 :: rest) (pre ++ [.count 0])
      (some ((total pre : Nat) : Int)) := by
  have hsum : total (pre ++ [.count 0]) = total pre := total_snoc pre (.count 0)
  constructor
  case full =>
      rw [hsum]
      refine iff_of_false (fun hret => ?_) (Nat.ne_of_lt htotal)
      have hcount : total pre = n := Int.ofNat.inj (Option.some.inj hret)
      omega
  case count =>
      intro k hk
      rw [hsum]
      exact (Int.ofNat.inj (Option.some.inj hk)).symm
  case eof =>
      rw [cameFirst_iff_of_stop not_moves_of_eof hsmooth htotal not_moves_zero]
      exact iff_of_true ⟨total pre, htotal, rfl⟩ rfl
  case failed =>
      rw [cameFirst_iff_of_stop not_moves_of_error hsmooth htotal not_moves_zero]
      refine iff_of_false (fun hret => ?_) (by rintro ⟨⟩)
      cases Option.some.inj hret
  case waits => exact iff_of_false (by rintro ⟨⟩) (not_waits_of_stop not_moves_zero)

theorem readReturns_fails {pre : List Outcome} (rest : List Outcome) (hsmooth : Smooth pre)
    (htotal : total pre < n) :
    ReadReturns n (pre ++ .error :: rest) (pre ++ [.error]) (some (-1)) := by
  have hnever : ∀ k : Nat, some (-1 : Int) ≠ some (k : Int) := by
    intro k hret
    cases Option.some.inj hret
  constructor
  case full =>
      rw [total_snoc]
      exact iff_of_false (hnever n) (Nat.ne_of_lt htotal)
  case count => exact fun k hk => absurd hk (hnever k)
  case eof =>
      rw [cameFirst_iff_of_stop not_moves_of_eof hsmooth htotal not_moves_error]
      exact iff_of_false (fun ⟨k, _, hk⟩ => hnever k hk) (by rintro ⟨⟩)
  case failed =>
      rw [cameFirst_iff_of_stop not_moves_of_error hsmooth htotal not_moves_error]
      exact iff_of_true rfl rfl
  case waits => exact iff_of_false (by rintro ⟨⟩) (not_waits_of_stop not_moves_error)

/-- **EVERY CALL OF `pipe_read_n`** is exact. -/
theorem read_exact {outs : List Outcome} (h : ReadOutcomes n mem s outs) :
    ∃ used, ReadMoves n mem s outs used (pipeReadNWith n mem s outs)
      ∧ ReadReturns n outs used (readRet (pipeReadNWith n mem s outs)) := by
  have hstart : Reading n mem s [] ⟨mem, 0, n, s⟩ :=
    ⟨smooth_nil, rfl, Nat.zero_add n, Nat.zero_le _, (store_nil mem 0).symm, rfl⟩
  rcases (read_rule n mem s).run outs [] _ hstart h with
    ⟨l, hrun, hdone, hinv⟩ | ⟨r, used, rest, hrun, rfl, hpost⟩
  · -- the loop waits for `read`
    have hleft : 0 < l.nleft := read_open.mp hdone
    have hsplit := hinv.split
    have hptr : l.ptr = total outs := hinv.ptr
    have hlt : total outs < n := by omega
    refine ⟨outs, ?_⟩
    rw [pipeReadNWith, hrun]
    exact ⟨readMoves_of_store (List.append_nil outs).symm (Nat.le_of_lt hlt) (hptr ▸ hinv.there)
      (hptr ▸ hinv.mem) (hptr ▸ hinv.rest), readReturns_waits hinv.smooth hlt⟩
  · refine ⟨used, ?_⟩
    rw [pipeReadNWith, hrun]
    have hpost : Read n mem s used r := hpost
    cases hpost with
    | all hsmooth htotal hthere =>
        exact ⟨readMoves_of_store rfl (Nat.le_of_eq htotal) hthere rfl rfl,
          readReturns_all rest hsmooth htotal⟩
    | @eof pre hsmooth htotal hthere =>
        refine ⟨readMoves_stop rest rfl htotal hthere, ?_⟩
        rw [List.append_assoc]
        exact readReturns_eof rest hsmooth htotal
    | @fails pre hsmooth htotal hthere =>
        refine ⟨readMoves_stop rest rfl htotal hthere, ?_⟩
        rw [List.append_assoc]
        exact readReturns_fails rest hsmooth htotal

end Read

/-! ## Kernels that follow a script

    What the loops do on a script, they do on the reports the kernel gives while
    it follows the script. -/

/-- The scripted loop of `pipe_write_n`, from any turn on. -/
theorem pipeWriteLoop_ends (vptr : Bytes) (evs : List WriteEvent) :
    ∀ l : WriteLoop, l.ptr + l.nleft = vptr.length →
      (pipeWriteNLoop vptr vptr.length).Ends mayWrite l
        ⟨(pipeWriteLoop vptr.length evs (vptr.drop l.ptr)).ret,
          l.stream ++ (pipeWriteLoop vptr.length evs (vptr.drop l.ptr)).out⟩ := by
  induction evs with
  | nil =>
      intro l hsplit
      have hlen : (vptr.drop l.ptr).length = l.nleft := by
        rw [List.length_drop]
        omega
      rcases Nat.eq_zero_or_pos l.nleft with hzero | hpos
      · have hnil := List.eq_nil_of_length_eq_zero (hlen.trans hzero)
        rw [pipeWriteLoop, hnil, List.append_nil]
        exact ends_done (write_done hzero)
      · -- the rest goes in one piece
        have hrest : (vptr.drop l.ptr).take l.nleft = vptr.drop l.ptr := by
          rw [← hlen, List.take_length]
        refine ends_more (write_open.mpr hpos) (o := .count l.nleft) (Nat.le_refl _)
          (write_turn vptr vptr.length hpos) ?_
        rw [hrest]
        exact ends_done (write_done (Nat.sub_self _))
  | cons ev evs ih =>
      intro l hsplit
      have hlen : (vptr.drop l.ptr).length = l.nleft := by
        rw [List.length_drop]
        omega
      rw [pipeWriteLoop]
      by_cases hzero : (vptr.drop l.ptr).length = 0
      · rw [if_pos hzero, List.append_nil]
        exact ends_done (write_done (hlen.symm.trans hzero))
      · have hopen : (pipeWriteNLoop vptr vptr.length).done l = none :=
          write_open.mpr (by omega)
        rw [if_neg hzero]
        cases ev with
        | chunk k =>
            have hpos : 0 < min (k + 1) (vptr.drop l.ptr).length := by omega
            obtain ⟨j, hj⟩ := Nat.exists_eq_succ_of_ne_zero (Nat.ne_of_gt hpos)
            have htake : (vptr.drop l.ptr).take (k + 1) = (vptr.drop l.ptr).take (j + 1) := by
              rw [List.take_eq_take_min, hj]
            simp only [sysWrite, hj, writeTurn, htake]
            have hends := ih ⟨l.ptr + (j + 1), l.nleft - (j + 1),
              l.stream ++ (vptr.drop l.ptr).take (j + 1)⟩ (by dsimp only; omega)
            dsimp only at hends
            rw [← List.drop_drop, List.append_assoc] at hends
            have hmay : mayWrite l (.count (j + 1)) := show j + 1 ≤ l.nleft by omega
            exact ends_more hopen hmay (write_turn vptr vptr.length (Nat.succ_pos j)) hends
        | zero =>
            refine ends_ret hopen (o := .count 0) (Nat.zero_le _) ?_
            simp only [sysWrite, writeTurn, List.append_nil]
            rfl
        | eintr => exact ends_more hopen (o := .eintr) (Nat.zero_le _) rfl (ih l hsplit)
        | error =>
            refine ends_ret hopen (o := .error) (Nat.zero_le _) ?_
            simp only [sysWrite, writeTurn, List.append_nil]
            rfl

/-- The loop of `pipe_read_n` can end at every turn, by the count or by EOF. -/
theorem pipeReadNLoop_stops {n : Nat} {l : ReadState} (hsplit : l.ptr + l.nleft = n) :
    (pipeReadNLoop n).Ends mayRead l ⟨(l.ptr : Int), l.mem, l.rest⟩ := by
  have hcount : n - l.nleft = l.ptr := by omega
  rcases Nat.eq_zero_or_pos l.nleft with hzero | hpos
  · refine ends_done ?_
    rw [read_done hzero, hcount]
  · refine ends_ret (read_open.mpr hpos) (o := .count 0) ⟨Nat.zero_le _, Nat.zero_le _⟩ ?_
    show Turn.ret _ = _
    rw [hcount]

/-- The scripted loop of `pipe_read_n`, from any turn on. -/
theorem pipeReadLoop_ends (n : Nat) (evs : List ReadEvent) :
    ∀ l : ReadState, l.ptr + l.nleft = n →
      (pipeReadNLoop n).Ends mayRead l (pipeReadLoop evs l.rest ⟨l.mem, l.ptr, l.nleft⟩) := by
  induction evs with
  | nil =>
      intro l hsplit
      rw [pipeReadLoop]
      dsimp only
      rw [List.take_eq_take_min, List.drop_eq_drop_min]
      rcases Nat.eq_zero_or_pos (min l.nleft l.rest.length) with hzero | hpos
      · rw [hzero, List.take_zero, store_nil, List.drop_zero, Nat.add_zero]
        exact pipeReadNLoop_stops hsplit
      · -- the rest comes in one piece, and EOF after it
        have hopen : (pipeReadNLoop n).done l = none := read_open.mpr (by omega)
        have hmay : mayRead l (.count (min l.nleft l.rest.length)) :=
          ⟨Nat.min_le_left _ _, Nat.min_le_right _ _⟩
        exact ends_more hopen hmay (read_turn n hpos)
          (pipeReadNLoop_stops (by dsimp only; omega))
  | cons ev evs ih =>
      intro l hsplit
      rw [pipeReadLoop]
      by_cases hzero : l.nleft = 0
      · rw [if_pos hzero]
        exact pipeReadNLoop_stops hsplit
      · have hopen : (pipeReadNLoop n).done l = none := read_open.mpr (Nat.pos_of_ne_zero hzero)
        rw [if_neg hzero]
        cases ev with
        | chunk k =>
            obtain ⟨m, hm⟩ : ∃ m, m = min (min l.nleft (k + 1)) l.rest.length := ⟨_, rfl⟩
            have hread : sysRead l.rest l.nleft (.chunk k)
                = (.data (l.rest.take m), l.rest.drop m) := by
              rw [sysRead, List.take_eq_take_min, List.drop_eq_drop_min, hm]
            dsimp only
            rw [hread]
            rcases Nat.eq_zero_or_pos m with hnil | hpos
            · rw [hnil]
              exact pipeReadNLoop_stops hsplit
            · have hlen : (l.rest.take m).length = m := List.length_take_of_le (by omega)
              have hne : l.rest.take m ≠ [] := List.ne_nil_of_length_pos (by rw [hlen]; exact hpos)
              have hmay : mayRead l (.count m) :=
                ⟨show m ≤ l.nleft by omega, show m ≤ l.rest.length by omega⟩
              have hends := ih ⟨store l.mem l.ptr (l.rest.take m), l.ptr + m, l.nleft - m,
                l.rest.drop m⟩ (by dsimp only; omega)
              rw [readTurn_data _ hne, hlen]
              exact ends_more hopen hmay (read_turn n hpos) hends
        | eintr =>
            exact ends_more hopen (o := .eintr) ⟨Nat.zero_le _, Nat.zero_le _⟩ rfl (ih l hsplit)
        | error => exact ends_ret hopen (o := .error) ⟨Nat.zero_le _, Nat.zero_le _⟩ rfl

/-- The scripted loops are these: every scripted call is a call with reports its
    system calls may give. -/
theorem pipeWriteN_ends (evs : List WriteEvent) (vptr : Bytes) : ∃ outs,
    WriteOutcomes vptr outs ∧ pipeWriteNWith vptr outs = .returned (pipeWriteN evs vptr) [] :=
  pipeWriteLoop_ends vptr evs ⟨0, vptr.length, []⟩ (Nat.zero_add _)

theorem pipeReadN_ends (evs : List ReadEvent) (n : Nat) (mem : Mem) (s : Bytes) : ∃ outs,
    ReadOutcomes n mem s outs
      ∧ pipeReadNWith n mem s outs = .returned (pipeReadN evs s mem n) [] :=
  pipeReadLoop_ends n evs ⟨mem, 0, n, s⟩ (Nat.zero_add n)

/-- **SCRIPTED CALLS ARE EXACT**: each returns, having used all the reports of its
    kernel, with what these reports say on the stream and in the buffer. -/
theorem scripted_calls_exact (wevs : List WriteEvent) (vptr : Bytes) (revs : List ReadEvent)
    (n : Nat) (mem : Mem) (s : Bytes) :
    (∃ outs, WriteOutcomes vptr outs
        ∧ WriteExact vptr outs outs (.returned (pipeWriteN wevs vptr) []))
      ∧ ∃ outs, ReadOutcomes n mem s outs
        ∧ ReadMoves n mem s outs outs (.returned (pipeReadN revs s mem n) [])
        ∧ ReadReturns n outs outs (some (pipeReadN revs s mem n).ret) := by
  constructor
  · obtain ⟨outs, hmay, hrun⟩ := pipeWriteN_ends wevs vptr
    obtain ⟨used, hexact⟩ := write_exact hmay
    rw [hrun] at hexact
    obtain rfl : outs = used := hexact.split.trans (List.append_nil used)
    exact ⟨outs, hmay, hexact⟩
  · obtain ⟨outs, hmay, hrun⟩ := pipeReadN_ends revs n mem s
    obtain ⟨used, hmoves, hreturns⟩ := read_exact hmay
    rw [hrun] at hmoves hreturns
    obtain rfl : outs = used := hmoves.split.trans (List.append_nil used)
    exact ⟨outs, hmay, hmoves, hreturns⟩

/-! ## Exact transfer -/

/-- **EXACT TRANSFER**: for every byte string, every count and every sequence of
    reports, `pipe_write_n` has put on the stream a prefix of its input as long
    as the counts reported, and `pipe_read_n` has stored the next bytes of the
    stream at the front of the buffer; each returns the full count, a short one
    at EOF, or `-1` exactly when the reports say so. -/
theorem transfer_exact {vptr : Bytes} {outs : List Outcome} (hwrite : WriteOutcomes vptr outs)
    {n : Nat} {mem : Mem} {s : Bytes} {outs' : List Outcome}
    (hread : ReadOutcomes n mem s outs') :
    (∃ used, WriteExact vptr outs used (pipeWriteNWith vptr outs))
      ∧ ∃ used, ReadMoves n mem s outs' used (pipeReadNWith n mem s outs')
        ∧ ReadReturns n outs' used (readRet (pipeReadNWith n mem s outs')) :=
  ⟨write_exact hwrite, read_exact hread⟩

/-- A write in two pieces with an interrupt between them, and a read that fails
    behind a short count. -/
theorem transfer_exact_pieces :
    writeRet (pipeWriteNWith (ascii "abc") [.count 1, .eintr, .count 2]) = some 3
      ∧ readRet (pipeReadNWith 4 (fill 0) (ascii "abcde") [.count 3, .eintr, .error])
        = some (-1) := by
  have hwrite : WriteOutcomes (ascii "abc") [.count 1, .eintr, .count 2] :=
    allowed_more (show 1 ≤ 3 by decide) rfl (allowed_more (Nat.zero_le _) rfl
      (allowed_more (show 2 ≤ 2 by decide) rfl trivial))
  have hread : ReadOutcomes 4 (fill 0) (ascii "abcde") [.count 3, .eintr, .error] :=
    allowed_more ⟨show 3 ≤ 4 by decide, show 3 ≤ 5 by decide⟩ rfl
      (allowed_more ⟨Nat.zero_le _, Nat.zero_le _⟩ rfl
        (allowed_ret ⟨Nat.zero_le _, Nat.zero_le _⟩ rfl))
  obtain ⟨⟨used, hexact⟩, used', -, hreturns⟩ := transfer_exact hwrite hread
  have hsmooth : Smooth [.count 3, .eintr] :=
    smooth_snoc (smooth_snoc smooth_nil (.inr ⟨2, rfl⟩)) (.inl rfl)
  refine ⟨hexact.whole.mpr (by decide), hreturns.failed.mpr ?_⟩
  exact ⟨[.count 3, .eintr], .error, [], rfl, hsmooth, by decide, rfl⟩

end SearpcPipeTransfer
