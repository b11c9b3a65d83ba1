import Searpc.ByteMemoryProofs

/-! # `pipe_read_n` and `pipe_write_n` — the transfer loops

    Both loops call `read(2)` or `write(2)` until the count is used up, retry
    on `EINTR`, and give up with `-1` on any other error.  They differ at zero:
    a `read` that returns nothing is EOF and ends the loop with a SHORT,
    non-negative count, a `write` that returns zero is an error.

    One turn of each loop is a function of the system call's result
    (`readTurn`, `writeTurn`); a call is the loop run against a script of what
    the kernel does, and `pipeReadN_spec`, `pipeWriteN_spec` say what any call
    achieves whatever the script. -/

namespace SearpcPipeIo

open ByteMemory

/-! ## Reading -/

/-- What one `read(2)` gives: the bytes delivered (none at EOF), `EINTR`, or
    another error. -/
inductive ReadResult where
  | data (bs : Bytes)
  | eintr
  | error
deriving DecidableEq

/-- The locals of `pipe_read_n`: the buffer, the offset of `ptr` in it, and
    `nleft`. -/
structure ReadLoop where
  mem   : Mem
  ptr   : Nat
  nleft : Nat

/-- The loop on entry. -/
def ReadLoop.enter (mem : Mem) (n : Nat) : ReadLoop := ⟨mem, 0, n⟩

/-- A turn goes on with the loop or returns. -/
inductive ReadTurn where
  | more (l : ReadLoop)
  | ret (r : Int) (mem : Mem)

/-- One turn of `while (nleft > 0)` in `pipe_read_n`; `n - nleft` is `ptr`. -/
def readTurn (l : ReadLoop) : ReadResult → ReadTurn
  | .data [] => .ret l.ptr l.mem
  | .data bs => .more ⟨store l.mem l.ptr bs, l.ptr + bs.length, l.nleft - bs.length⟩
  | .eintr => .more l
  | .error => .ret (-1) l.mem

theorem readTurn_data (l : ReadLoop) {bs : Bytes} (h : bs ≠ []) :
    readTurn l (.data bs)
      = .more ⟨store l.mem l.ptr bs, l.ptr + bs.length, l.nleft - bs.length⟩ := by
  cases bs with
  | nil => exact absurd rfl h
  | cons b bs => rfl

/-- What the kernel does at one `read(2)`: deliver at most `k + 1` bytes,
    interrupt the call, or fail it. -/
inductive ReadEvent where
  | chunk (k : Nat)
  | eintr
  | error
deriving DecidableEq

/-- `read(fd, ptr, nleft)` on a stream that ends in EOF. -/
def sysRead (s : Bytes) (nleft : Nat) : ReadEvent → ReadResult × Bytes
  | .chunk k => (.data (s.take (min nleft (k + 1))), s.drop (min nleft (k + 1)))
  | .eintr => (.eintr, s)
  | .error => (.error, s)

/-- The outcome of a call: the value returned, the buffer, and the part of the
    stream not read. -/
structure ReadRet where
  ret  : Int
  mem  : Mem
  rest : Bytes

/-- The loop of `pipe_read_n` against a script of kernel events.  When the
    script is used up the kernel delivers whatever is asked for, up to EOF. -/
def pipeReadLoop : List ReadEvent → Bytes → ReadLoop → ReadRet
  | [], s, l =>
      ⟨((l.ptr + min l.nleft s.length : Nat) : Int), store l.mem l.ptr (s.take l.nleft),
        s.drop l.nleft⟩
  | ev :: evs, s, l =>
      if l.nleft = 0 then ⟨l.ptr, l.mem, s⟩
      else
        match readTurn l (sysRead s l.nleft ev).1 with
        | .more l' => pipeReadLoop evs (sysRead s l.nleft ev).2 l'
        | .ret r mem => ⟨r, mem, (sysRead s l.nleft ev).2⟩

/-- `pipe_read_n(fd, vptr, n)`. -/
def pipeReadN (evs : List ReadEvent) (s : Bytes) (mem : Mem) (n : Nat) : ReadRet :=
  pipeReadLoop evs s (.enter mem n)

/-- A call that did not fail: everything asked for or everything there was,
    stored from the start of the buffer. -/
def ReadRet.Full (r : ReadRet) (s : Bytes) (l : ReadLoop) : Prop :=
  r.ret = ((l.ptr + min l.nleft s.length : Nat) : Int)
    ∧ r.mem = store l.mem l.ptr (s.take l.nleft) ∧ r.rest = s.drop l.nleft

/-- A turn that got a chunk leaves the rest of the work to the loop. -/
private theorem full_of_chunk {r : ReadRet} {s : Bytes} {l : ReadLoop} {m : Nat}
    (hm : m ≤ l.nleft) (hms : m ≤ s.length)
    (h : r.Full (s.drop m)
      ⟨store l.mem l.ptr (s.take m), l.ptr + (s.take m).length, l.nleft - (s.take m).length⟩) :
    r.Full s l := by
  have hlen : (s.take m).length = m := by rw [List.length_take]; omega
  obtain ⟨h1, h2, h3⟩ := h
  simp only [hlen] at h1 h2 h3
  refine ⟨?_, ?_, ?_⟩
  · rw [h1, List.length_drop]
    congr 1
    omega
  · have hst := store_store l.mem l.ptr (s.take m) ((s.drop m).take (l.nleft - m))
    rw [hlen, ← List.take_add] at hst
    rw [h2, hst]
    congr 2
    omega
  · rw [h3, List.drop_drop]
    congr 1
    omega

/-- **THE READ LOOP**: whatever the script, the call fails or is full; without
    an error event it is full. -/
theorem pipeReadLoop_spec :
    ∀ (evs : List ReadEvent) (s : Bytes) (l : ReadLoop),
      ((pipeReadLoop evs s l).ret = -1 ∧ .error ∈ evs) ∨ (pipeReadLoop evs s l).Full s l := by
  intro evs
  induction evs with
  | nil => intro s l; exact Or.inr ⟨rfl, rfl, rfl⟩
  | cons ev evs ih =>
      intro s l
      simp only [pipeReadLoop]
      by_cases h0 : l.nleft = 0
      · rw [if_pos h0]
        refine Or.inr ⟨?_, ?_, ?_⟩
        · simp [h0]
        · simp [h0]
        · simp [h0]
      · rw [if_neg h0]
        cases ev with
        | eintr =>
            rcases ih s l with ⟨hr, he⟩ | hf
            · exact Or.inl ⟨hr, List.mem_cons_of_mem _ he⟩
            · exact Or.inr hf
        | error => exact Or.inl ⟨rfl, List.mem_cons_self⟩
        | chunk k =>
            by_cases hnil : s = []
            · -- EOF: the loop breaks with what it has
              subst hnil
              refine Or.inr ⟨?_, ?_, ?_⟩ <;> simp [sysRead, readTurn]
            · have hpos := List.length_pos_iff.mpr hnil
              obtain ⟨m, hm⟩ : ∃ m, m = min (min l.nleft (k + 1)) s.length := ⟨_, rfl⟩
              have hread : sysRead s l.nleft (.chunk k) = (.data (s.take m), s.drop m) := by
                simp only [sysRead]
                rw [List.take_eq_take_min, List.drop_eq_drop_min, hm]
              have hne : s.take m ≠ [] := by
                intro h
                have := congrArg List.length h
                rw [List.length_take, List.length_nil] at this
                omega
              rw [hread, readTurn_data l hne]
              rcases ih (s.drop m)
                  ⟨store l.mem l.ptr (s.take m), l.ptr + (s.take m).length,
                    l.nleft - (s.take m).length⟩ with ⟨hr, he⟩ | hf
              · exact Or.inl ⟨hr, List.mem_cons_of_mem _ he⟩
              · exact Or.inr (full_of_chunk (by omega) (by omega) hf)

/-- `pipe_read_n` fails, or reads the next `n` bytes of the stream or all that
    came before EOF. -/
theorem pipeReadN_spec (evs : List ReadEvent) (s : Bytes) (mem : Mem) (n : Nat) :
    ((pipeReadN evs s mem n).ret = -1 ∧ .error ∈ evs)
    ∨ ((pipeReadN evs s mem n).ret = ((min n s.length : Nat) : Int)
        ∧ (pipeReadN evs s mem n).mem = store mem 0 (s.take n)
        ∧ (pipeReadN evs s mem n).rest = s.drop n) := by
  rcases pipeReadLoop_spec evs s (.enter mem n) with h | ⟨h1, h2, h3⟩
  · exact Or.inl h
  · refine Or.inr ⟨?_, h2, h3⟩
    rw [show (pipeReadN evs s mem n).ret = _ from h1]
    simp [ReadLoop.enter]

/-! ## Writing -/

/-- What one `write(2)` gives: a count, `EINTR`, or another error. -/
inductive WriteResult where
  | wrote (k : Nat)
  | eintr
  | error
deriving DecidableEq

/-- A turn goes on with the bytes still to write or returns. -/
inductive WriteTurn where
  | more (left : Bytes)
  | fail

/-- One turn of `while (nleft > 0)` in `pipe_write_n`: a zero count is an
    error here. -/
def writeTurn (left : Bytes) : WriteResult → WriteTurn
  | .wrote 0 => .fail
  | .wrote (k + 1) => .more (left.drop (k + 1))
  | .eintr => .more left
  | .error => .fail

/-- What the kernel does at one `write(2)`: take at most `k + 1` bytes, take
    none, interrupt the call, or fail it. -/
inductive WriteEvent where
  | chunk (k : Nat)
  | zero
  | eintr
  | error
deriving DecidableEq

/-- `write(fd, ptr, nleft)`: the result and the bytes the stream took. -/
def sysWrite (left : Bytes) : WriteEvent → WriteResult × Bytes
  | .chunk k => (.wrote (min (k + 1) left.length), left.take (k + 1))
  | .zero => (.wrote 0, [])
  | .eintr => (.eintr, [])
  | .error => (.error, [])

/-- The outcome of a call: the value returned and the bytes put on the stream. -/
structure WriteRet where
  ret : Int
  out : Bytes

/-- The loop of `pipe_write_n` against a script of kernel events.  When the
    script is used up the kernel takes everything. -/
def pipeWriteLoop (n : Nat) : List WriteEvent → Bytes → WriteRet
  | [], left => ⟨n, left⟩
  | ev :: evs, left =>
      if left.length = 0 then ⟨n, []⟩
      else
        match writeTurn left (sysWrite left ev).1 with
        | .more left' =>
            let r := pipeWriteLoop n evs left'
            ⟨r.ret, (sysWrite left ev).2 ++ r.out⟩
        | .fail => ⟨-1, (sysWrite left ev).2⟩

/-- `pipe_write_n(fd, vptr, n)`, `n` being the length of what stands at
    `vptr`. -/
def pipeWriteN (evs : List WriteEvent) (bs : Bytes) : WriteRet :=
  pipeWriteLoop bs.length evs bs

/-- **THE WRITE LOOP**: the stream takes everything and the count comes back,
    or an error cuts the transfer after a prefix. -/
theorem pipeWriteLoop_spec (n : Nat) :
    ∀ (evs : List WriteEvent) (left : Bytes),
      ((pipeWriteLoop n evs left).ret = -1 ∧ (pipeWriteLoop n evs left).out <+: left
        ∧ (.error ∈ evs ∨ .zero ∈ evs))
      ∨ ((pipeWriteLoop n evs left).ret = n ∧ (pipeWriteLoop n evs left).out = left) := by
  intro evs
  induction evs with
  | nil => intro left; exact Or.inr ⟨rfl, rfl⟩
  | cons ev evs ih =>
      intro left
      simp only [pipeWriteLoop]
      by_cases h0 : left.length = 0
      · rw [if_pos h0]
        exact Or.inr ⟨rfl, (List.eq_nil_of_length_eq_zero h0).symm⟩
      · rw [if_neg h0]
        cases ev with
        | eintr =>
            rcases ih left with ⟨hr, ho, he⟩ | hf
            · refine Or.inl ⟨hr, ho, ?_⟩
              rcases he with he | he
              · exact Or.inl (List.mem_cons_of_mem _ he)
              · exact Or.inr (List.mem_cons_of_mem _ he)
            · exact Or.inr hf
        | error => exact Or.inl ⟨rfl, List.nil_prefix, Or.inl List.mem_cons_self⟩
        | zero => exact Or.inl ⟨rfl, List.nil_prefix, Or.inr List.mem_cons_self⟩
        | chunk k =>
            obtain ⟨j, hj⟩ : ∃ j, min (k + 1) left.length = j + 1 :=
              ⟨min (k + 1) left.length - 1, by omega⟩
            have htake : left.take (k + 1) = left.take (j + 1) := by
              rw [← hj, ← List.take_eq_take_min]
            have hcut : left.take (k + 1) ++ left.drop (j + 1) = left := by
              rw [htake, List.take_append_drop]
            simp only [sysWrite, hj, writeTurn]
            rcases ih (left.drop (j + 1)) with ⟨hr, ho, he⟩ | ⟨hr, ho⟩
            · refine Or.inl ⟨hr, ?_, ?_⟩
              · have := (List.prefix_append_right_inj (left.take (k + 1))).mpr ho
                rw [hcut] at this
                exact this
              · rcases he with he | he
                · exact Or.inl (List.mem_cons_of_mem _ he)
                · exact Or.inr (List.mem_cons_of_mem _ he)
            · refine Or.inr ⟨hr, ?_⟩
              rw [ho]
              exact hcut

theorem pipeWriteN_spec (evs : List WriteEvent) (bs : Bytes) :
    ((pipeWriteN evs bs).ret = -1 ∧ (pipeWriteN evs bs).out <+: bs
      ∧ (.error ∈ evs ∨ .zero ∈ evs))
    ∨ ((pipeWriteN evs bs).ret = bs.length ∧ (pipeWriteN evs bs).out = bs) :=
  pipeWriteLoop_spec bs.length evs bs

/-! ## A connection's kernel side -/

/-- The scripts of the calls a thread makes on one descriptor, numbered in the
    order of the calls. -/
structure Env where
  reads  : Nat → List ReadEvent
  writes : Nat → List WriteEvent

/-- A kernel that never interrupts, splits or fails a call. -/
def Env.smooth : Env := ⟨fun _ => [], fun _ => []⟩

/-- On a smooth kernel a read is full. -/
theorem pipeReadN_smooth (s : Bytes) (mem : Mem) (n : Nat) :
    pipeReadN [] s mem n
      = ⟨((min n s.length : Nat) : Int), store mem 0 (s.take n), s.drop n⟩ := by
  simp [pipeReadN, pipeReadLoop, ReadLoop.enter]

theorem pipeWriteN_smooth (bs : Bytes) : pipeWriteN [] bs = ⟨bs.length, bs⟩ := rfl

end SearpcPipeIo
