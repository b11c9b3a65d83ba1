import Searpc.SlowLogProofs
import Searpc.ThreadsProofs

/-! # Rotating the slow log — callers, `searpc_server_reopen_slow_log`, and logrotate

    Every thread that serves a call may print to the slow log, and any of them
    may be told to reopen it, while somebody outside renames and creates files.
    `slow_log_fp` is read and written under `slow_log_lock`, but only in places:
    a call looks at it without the lock, and `reopen` opens the new `FILE` before
    it takes the lock and closes the old one after it has let go.

    The machine has one step for each of these places, and one for each part of
    an entry that stdio takes into its buffer, hands to the kernel, or fails to.
    What it comes to is the log of the abstract machine (`replay`), in which an
    entry and a reopening are one step each: no entry is torn, lost or written
    into a file that has been closed, as long as stdio does not fail, which
    nobody looks at (`rotation_atomic`).

    The time in an entry is another matter.  It is formatted before the lock is
    taken, from the one `struct tm` that `localtime` has for everybody, so that
    two calls at a time may print ANY TIME AT ALL (`any_stamp`).

    All of this needs a log that was there from the start.  `reopen` closes
    whatever `slow_log_fp` was, and without a log that is `NULL`
    (`rotation_safe_iff`). -/

namespace SearpcLogRotation

open ByteMemory SearpcServer SearpcSlowLog SharedThreads

variable {F M σ τ : Type}

/-! ## The machine -/

/-- A `FILE`: what it was opened on, what stdio has not handed on yet, and how
    often it was closed. -/
structure File where
  inode  : Nat
  buffer : Bytes
  closes : Nat

/-- What has happened to the log, in order: entries, with the time they give, and
    reopenings. -/
inductive Happened where
  | printed (c : Call) (stamp : Bytes)
  | reopened (inode : Nat)

/-- What the threads share: which file a name stands for, or would if it were
    created now; what the files hold; the `FILE`s opened so far; `slow_log_fp`;
    who has `slow_log_lock`; the threads between `localtime` and the end of
    `strftime`, and whose time is in the `struct tm`, if nobody else has been at
    it.  The rest is only watched: whether anything illegal was done, whether two
    were at the `struct tm`, whether stdio failed, and what has happened. -/
structure Log (τ : Type) where
  paths     : Bytes → Nat
  disk      : Nat → Bytes
  files     : Nat → File
  nextFile  : Nat
  slowLogFp : Option Nat
  lock      : Option τ
  inside    : List τ
  tm        : Option τ
  fault     : Bool
  raced     : Bool
  lost      : Bool
  history   : List Happened

/-- A process that has opened a log on `inode`, or none. -/
def Log.start (paths : Bytes → Nat) (disk : Nat → Bytes) : Option Nat → Log τ
  | none =>
      ⟨paths, disk, fun _ => ⟨0, [], 0⟩, 0, none, none, [], none, false, false, false, []⟩
  | some inode =>
      ⟨paths, disk, fun _ => ⟨inode, [], 0⟩, 1, some 0, none, [], none, false, false, false, []⟩

/-- An operation of stdio on a `FILE` leaves `file` of it; a closed one must not
    be touched. -/
def Log.use (g : Log τ) (f : Nat) (file : File) : Log τ :=
  { g with
    files := Function.update g.files f file
    fault := g.fault || decide (0 < (g.files f).closes) }

/-- Bytes go to the end of a file, whoever else has it open: `"a+"`. -/
def Log.append (g : Log τ) (inode : Nat) (bs : Bytes) : Log τ :=
  { g with disk := Function.update g.disk inode (g.disk inode ++ bs) }

/-- Stdio fails, and nobody looks. -/
def Log.lose (g : Log τ) : Log τ := { g with lost := true }

/-- `localtime` fills the `struct tm`. -/
def Log.localtime (g : Log τ) (tm : Option τ) : Log τ :=
  { g with tm := if g.inside = [] then tm else none, raced := g.raced || !g.inside.isEmpty }

/-- Where a thread stands: in no call; in a call that did or did not take the
    time when it began; in `print_slow_log_if_necessary` between `localtime` and
    the end of `strftime`, at the lock with the time as text, in `fprintf` with
    the rest of the entry, or in `fflush`; in `reopen` with the new `FILE` at the
    lock, behind it, with the old one behind the swap, or at `fclose`. -/
inductive Pc where
  | idle
  | called (c : Call) (timed : Bool)
  | stamping (c : Call)
  | printing (c : Call) (stamp : Bytes)
  | writing (rest : Bytes)
  | flushing
  | opened (f : Nat)
  | swapping (f : Nat)
  | swapped (old : Option Nat)
  | closing (old : Option Nat)

section

variable (S : Server F M σ)

/-- A call that runs a function that is not filtered. -/
def Asked (c : Call) : Prop :=
  ∃ item ∈ S.ranFunction c.svcName c.func, item.fname ∉ S.slowLog.filteredFuncs

/-- The time at which a call began, as text. -/
def stamp (c : Call) : Bytes := S.printer.strftime (c.clock.start / 1000000)

/-- The entry of a call with `stamp` for its time. -/
def stamped (stamp : Bytes) (c : Call) : Bytes :=
  entryText { S.printer with strftime := fun _ => stamp }
    ⟨c.clock.start, c.svcName, c.func, c.clock.finish - c.clock.start⟩

theorem stamped_stamp (c : Call) : stamped S (stamp S c) c = S.entry c := rfl

variable [DecidableEq τ]

/-- A step of a thread. -/
inductive Move (t : τ) : Pc × Log τ → Pc × Log τ → Prop where
  -- `searpc_server_call_function`: `slow_log_fp` is looked at twice, unlocked
  | call {g : Log τ} (c : Call) : Move t (.idle, g) (.called c g.slowLogFp.isSome, g)
  | quiet {g : Log τ} {c : Call} {timed : Bool}
      (h : g.slowLogFp = none ∨ ¬ Asked S c ∨ timed = true ∧ ¬ S.Logged c) :
      Move t (.called c timed, g) (.idle, g)
  -- `start` was not set
  | untimed {g : Log τ} {c : Call} (hfp : g.slowLogFp ≠ none) (h : Asked S c) :
      Move t (.called c false, g) (.idle, { g with fault := true })
  -- `print_slow_log_if_necessary`
  | localtime {g : Log τ} {c : Call} (hfp : g.slowLogFp ≠ none) (h : S.Logged c) :
      Move t (.called c true, g)
        (.stamping c, { g.localtime (some t) with inside := t :: g.inside })
  -- from a `struct tm` that somebody else has been at, `strftime` makes anything
  | strftime {g : Log τ} {c : Call} (text : Bytes) (h : g.tm = some t → text = stamp S c) :
      Move t (.stamping c, g) (.printing c text, { g with inside := g.inside.erase t })
  | lock {g : Log τ} {c : Call} {text : Bytes} (hl : g.lock = none) :
      Move t (.printing c text, g)
        (.writing (stamped S text c),
          { g with lock := some t, history := g.history ++ [.printed c text] })
  | put {g : Log τ} {rest : Bytes} {f j : Nat} (hfp : g.slowLogFp = some f) (hj : 0 < j)
      (hr : j ≤ rest.length) :
      Move t (.writing rest, g) (.writing (rest.drop j),
        g.use f { g.files f with buffer := (g.files f).buffer ++ rest.take j })
  | putNull {g : Log τ} {rest : Bytes} (hfp : g.slowLogFp = none) :
      Move t (.writing rest, g) (.idle, { g with fault := true })
  -- stdio may hand on what it has at any time
  | spill {g : Log τ} {pc : Pc} {f j : Nat} (hpc : (∃ rest, pc = .writing rest) ∨ pc = .flushing)
      (hfp : g.slowLogFp = some f) (hj : 0 < j) (hb : j ≤ (g.files f).buffer.length) :
      Move t (pc, g) (pc,
        (g.use f { g.files f with buffer := (g.files f).buffer.drop j }).append (g.files f).inode
          ((g.files f).buffer.take j))
  | written {g : Log τ} : Move t (.writing [], g) (.flushing, g)
  | unlock {g : Log τ} {f : Nat} (hfp : g.slowLogFp = some f) (hb : (g.files f).buffer = []) :
      Move t (.flushing, g) (.idle, { g.use f (g.files f) with lock := none })
  -- what `fprintf` fails to print, what the kernel does not take, and `fflush`
  -- that leaves something in the buffer
  | skip {g : Log τ} {rest : Bytes} {f j : Nat} (hfp : g.slowLogFp = some f) (hj : 0 < j)
      (hr : j ≤ rest.length) :
      Move t (.writing rest, g) (.writing (rest.drop j), (g.use f (g.files f)).lose)
  | discard {g : Log τ} {pc : Pc} {f j : Nat}
      (hpc : (∃ rest, pc = .writing rest) ∨ pc = .flushing) (hfp : g.slowLogFp = some f)
      (hj : 0 < j) (hb : j ≤ (g.files f).buffer.length) :
      Move t (pc, g) (pc,
        (g.use f { g.files f with buffer := (g.files f).buffer.drop j }).lose)
  | unlockFail {g : Log τ} {f : Nat} (hfp : g.slowLogFp = some f) :
      Move t (.flushing, g) (.idle, { (g.use f (g.files f)).lose with lock := none })
  -- `searpc_server_reopen_slow_log`
  | reopenStdout {g : Log τ} (h : S.printer.logToStdout = true) : Move t (.idle, g) (.idle, g)
  | fopenFail {g : Log τ} (h : S.printer.logToStdout = false) : Move t (.idle, g) (.idle, g)
  | fopen {g : Log τ} (path : Bytes) (h : S.printer.logToStdout = false) :
      Move t (.idle, g) (.opened g.nextFile,
        { g with
          files := Function.update g.files g.nextFile ⟨g.paths path, [], 0⟩
          nextFile := g.nextFile + 1 })
  | lockSwap {g : Log τ} {f : Nat} (hl : g.lock = none) :
      Move t (.opened f, g) (.swapping f, { g with lock := some t })
  | swap {g : Log τ} {f : Nat} :
      Move t (.swapping f, g) (.swapped g.slowLogFp,
        { g with
          slowLogFp := some f
          history := g.history ++ [.reopened (g.files f).inode] })
  | unlockSwap {g : Log τ} {old : Option Nat} :
      Move t (.swapped old, g) (.closing old, { g with lock := none })
  | fclose {g : Log τ} {f : Nat} :
      Move t (.closing (some f), g) (.idle,
        (g.use f { g.files f with buffer := [], closes := (g.files f).closes + 1 }).append
          (g.files f).inode (g.files f).buffer)
  -- it closes the file in any case, with as much of the buffer as the kernel took
  | fcloseFail {g : Log τ} {f : Nat} (j : Nat) :
      Move t (.closing (some f), g) (.idle,
        ((g.use f { g.files f with buffer := [], closes := (g.files f).closes + 1 }).append
          (g.files f).inode ((g.files f).buffer.take j)).lose)
  | fcloseNull {g : Log τ} : Move t (.closing none, g) (.idle, { g with fault := true })

end

/-- Others rename, create and remove, and the rest of the process calls
    `localtime`.  Nobody else writes to the log's files. -/
inductive Outside : Log τ → Log τ → Prop where
  | rename {g : Log τ} (paths : Bytes → Nat) : Outside g { g with paths := paths }
  | localtime {g : Log τ} : Outside g (g.localtime none)

/-- `searpc_server_init_with_slow_log`; `stdout` is the file standard output goes
    to, and `opens` whether `fopen` succeeds. -/
def searpcServerInitWithSlowLog (S : Server F M σ) (paths : Bytes → Nat) (disk : Nat → Bytes)
    (stdout : Nat) (opens : Bool) (slowLogPath : Option Bytes) : Option (Log τ) :=
  if S.printer.logToStdout = true then some (.start paths disk (some stdout))
  else
    match slowLogPath with
    | some path => if opens = true then some (.start paths disk (some (paths path))) else none
    | none => some (.start paths disk none)

/-! ## What it should be -/

/-- A log that is in one file at a time, and what the files hold. -/
structure Replay where
  inode : Nat
  disk  : Nat → Bytes

section

variable (S : Server F M σ)

/-- An entry goes to the file the log is in; reopening turns to another. -/
def Replay.step (r : Replay) : Happened → Replay
  | .printed c text =>
      { r with disk := Function.update r.disk r.inode (r.disk r.inode ++ stamped S text c) }
  | .reopened inode => { r with inode := inode }

/-- A history, entry by entry. -/
def replay (r : Replay) (history : List Happened) : Replay := history.foldl (Replay.step S) r

end

theorem use_same (g : Log τ) (f : Nat) (file : File) : (g.use f file).files f = file :=
  Function.update_self ..

theorem use_other (g : Log τ) {f f' : Nat} (h : f' ≠ f) (file : File) :
    (g.use f file).files f' = g.files f' :=
  Function.update_of_ne h ..

/-- Using a `FILE` that is open is legal. -/
theorem use_fault {g : Log τ} {f : Nat} (h : (g.files f).closes = 0) (file : File) :
    (g.use f file).fault = g.fault := by
  simp [Log.use, h]

/-- Looking at a `FILE` that is open changes nothing. -/
theorem use_open {g : Log τ} {f : Nat} (h : (g.files f).closes = 0) :
    g.use f (g.files f) = g := by
  simp [Log.use, h]

theorem append_same (g : Log τ) (inode : Nat) (bs : Bytes) :
    (g.append inode bs).disk inode = g.disk inode ++ bs :=
  Function.update_self ..

theorem append_other (g : Log τ) {inode i : Nat} (h : i ≠ inode) (bs : Bytes) :
    (g.append inode bs).disk i = g.disk i :=
  Function.update_of_ne h ..

theorem append_nil (g : Log τ) (inode : Nat) : g.append inode [] = g := by
  simp [Log.append]

@[simp] theorem replay_append (S : Server F M σ) (r : Replay) (history : List Happened)
    (h : Happened) : replay S r (history ++ [h]) = (replay S r history).step S h :=
  List.foldl_concat ..

theorem step_printed_same (S : Server F M σ) (r : Replay) (c : Call) (text : Bytes) :
    (r.step S (.printed c text)).disk r.inode = r.disk r.inode ++ stamped S text c :=
  Function.update_self ..

theorem step_printed_other (S : Server F M σ) (r : Replay) {i : Nat} (h : i ≠ r.inode) (c : Call)
    (text : Bytes) : (r.step S (.printed c text)).disk i = r.disk i :=
  Function.update_of_ne h ..

/-- Two at the `struct tm` are seen. -/
theorem localtime_raced {g : Log τ} (tm : Option τ) (h : (g.localtime tm).raced = false) :
    g.raced = false ∧ g.inside = [] ∧ (g.localtime tm).tm = tm := by
  obtain ⟨hraced, hinside⟩ := Bool.or_eq_false_iff.mp h
  have hnobody : g.inside = [] := List.isEmpty_iff.mp (by simpa using hinside)
  exact ⟨hraced, hnobody, if_pos hnobody⟩

/-! ## Assertions -/

/-- The `FILE` a thread holds apart from `slow_log_fp`. -/
inductive Holds : Pc → Nat → Prop where
  | opened {f : Nat} : Holds (.opened f) f
  | swapping {f : Nat} : Holds (.swapping f) f
  | swapped {f : Nat} : Holds (.swapped (some f)) f
  | closing {f : Nat} : Holds (.closing (some f)) f

/-- No `FILE` is held by two. -/
def Apart (l m : Pc) : Prop := ∀ f, Holds l f → ¬ Holds m f

/-- A `FILE` that is open and not the log's. -/
structure Held (g : Log τ) (f : Nat) : Prop where
  lt     : f < g.nextFile
  closes : (g.files f).closes = 0
  other  : g.slowLogFp ≠ some f

section

variable (S : Server F M σ) (r : Replay)

/-- Nothing is in the buffers, and the files hold what they should, unless stdio
    failed. -/
def Settled (g : Log τ) : Prop :=
  g.lost = false →
    (∀ inode, g.disk inode = (replay S r g.history).disk inode)
      ∧ ∀ f, g.slowLogFp = some f → (g.files f).buffer = []

/-- The files will hold what they should when the buffer of the log and `rest`
    are written, unless stdio failed. -/
def Printing (g : Log τ) (rest : Bytes) : Prop :=
  g.lost = false → ∀ f, g.slowLogFp = some f → ∀ inode,
    g.disk inode ++ (if inode = (g.files f).inode then (g.files f).buffer ++ rest else [])
      = (replay S r g.history).disk inode

/-- What the threads keep together. -/
structure Sound (g : Log τ) : Prop where
  fault   : g.fault = false
  log     : ∃ f, g.slowLogFp = some f ∧ f < g.nextFile ∧ (g.files f).closes = 0
    ∧ (g.files f).inode = (replay S r g.history).inode
  once    : ∀ f, (g.files f).closes ≤ 1
  empty   : g.lost = false → ∀ f, g.slowLogFp ≠ some f → (g.files f).buffer = []
  settled : g.lock = none → Settled S r g
  begun   : g.lost = false → ∀ inode, g.disk inode <+: (replay S r g.history).disk inode
  logged  : ∀ c text, Happened.printed c text ∈ g.history → S.Logged c
  own     : g.raced = false → ∀ c text, Happened.printed c text ∈ g.history → text = stamp S c

/-- What a thread knows where it stands. -/
def Knows (t : τ) : Pc → Log τ → Prop
  | .idle, _ => True
  | .called _ timed, _ => timed = true
  | .stamping c, g => S.Logged c ∧ t ∈ g.inside ∧ (g.raced = false → g.tm = some t)
  | .printing c text, g => S.Logged c ∧ (g.raced = false → text = stamp S c)
  | .writing rest, g => g.lock = some t ∧ Printing S r g rest
  | .flushing, g => g.lock = some t ∧ Printing S r g []
  | .opened f, g => Held g f
  | .swapping f, g => g.lock = some t ∧ Settled S r g ∧ Held g f
  | .swapped old, g => g.lock = some t ∧ Settled S r g ∧ ∃ f, old = some f ∧ Held g f
  | .closing old, g => ∃ f, old = some f ∧ Held g f

end

section Steps

variable {S : Server F M σ} {r : Replay} {g g' : Log τ} {t u : τ} {l l' m : Pc}

/-- Whoever is alone with the `struct tm` stays so, whoever has the lock finds the
    log as it was, and whoever holds a `FILE` the `FILE`. -/
theorem Knows.frame (h : Knows S r u m g) (hraced : g'.raced = false → g.raced = false)
    (hinside : u ∈ g.inside → u ∈ g'.inside
      ∧ (g'.raced = false → g.tm = some u → g'.tm = some u))
    (hlock : g.lock = some u → g'.lock = some u ∧ (∀ rest, Printing S r g rest →
      Printing S r g' rest) ∧ (Settled S r g → Settled S r g'))
    (hheld : ∀ f, Holds m f → Held g f → Held g' f) : Knows S r u m g' := by
  cases m with
  | idle => trivial
  | called => exact h
  | stamping =>
      obtain ⟨hlogged, hin, hown⟩ := h
      obtain ⟨hin', htm⟩ := hinside hin
      exact ⟨hlogged, hin', fun hr => htm hr (hown (hraced hr))⟩
  | printing =>
      obtain ⟨hlogged, hown⟩ := h
      exact ⟨hlogged, fun hr => hown (hraced hr)⟩
  | writing rest =>
      obtain ⟨hl, hp⟩ := h
      obtain ⟨hl', hprint, -⟩ := hlock hl
      exact ⟨hl', hprint rest hp⟩
  | flushing =>
      obtain ⟨hl, hp⟩ := h
      obtain ⟨hl', hprint, -⟩ := hlock hl
      exact ⟨hl', hprint [] hp⟩
  | opened f => exact hheld f .opened h
  | swapping f =>
      obtain ⟨hl, hs, hf⟩ := h
      obtain ⟨hl', -, hsettled⟩ := hlock hl
      exact ⟨hl', hsettled hs, hheld f .swapping hf⟩
  | swapped old =>
      obtain ⟨hl, hs, f, rfl, hf⟩ := h
      obtain ⟨hl', -, hsettled⟩ := hlock hl
      exact ⟨hl', hsettled hs, f, rfl, hheld f .swapped hf⟩
  | closing old =>
      obtain ⟨f, rfl, hf⟩ := h
      exact ⟨f, rfl, hheld f .closing hf⟩

/-- A thread that has the lock has it alone. -/
theorem lock_alone (h : g.lock = some t) (hne : u ≠ t) : g.lock ≠ some u := by
  rw [h]
  exact fun heq => hne (Option.some.inj heq).symm

/-- An entry begins. -/
theorem printing_lock (hs : Sound S r g) (hl : g.lock = none) (c : Call) (text : Bytes) :
    Printing S r { g with lock := some t, history := g.history ++ [.printed c text] }
      (stamped S text c) := by
  intro hlost
  obtain ⟨hdisk, hbuffer⟩ := hs.settled hl hlost
  obtain ⟨f, hfp, -, -, hinode⟩ := hs.log
  intro f' hfp' i
  obtain rfl : f = f' := Option.some.inj (hfp.symm.trans hfp')
  show g.disk i ++ (if i = (g.files f).inode then (g.files f).buffer ++ stamped S text c else [])
    = (replay S r (g.history ++ [.printed c text])).disk i
  rw [hbuffer f hfp, hdisk, replay_append, hinode, List.nil_append]
  by_cases hi : i = (replay S r g.history).inode
  · rw [if_pos hi, hi, step_printed_same]
  · rw [if_neg hi, step_printed_other S _ hi, List.append_nil]

/-- Bytes go into the buffer. -/
theorem printing_put {f : Nat} (hfp : g.slowLogFp = some f) {rest : Bytes} (j : Nat)
    (h : Printing S r g rest) :
    Printing S r (g.use f { g.files f with buffer := (g.files f).buffer ++ rest.take j })
      (rest.drop j) := by
  intro hlost f' hfp' i
  obtain rfl : f = f' := Option.some.inj (hfp.symm.trans hfp')
  rw [use_same, List.append_assoc, List.take_append_drop]
  exact h hlost f hfp i

/-- Bytes leave the buffer. -/
theorem printing_spill {f : Nat} (hfp : g.slowLogFp = some f) {rest : Bytes} (j : Nat)
    (h : Printing S r g rest) :
    Printing S r ((g.use f { g.files f with buffer := (g.files f).buffer.drop j }).append
      (g.files f).inode ((g.files f).buffer.take j)) rest := by
  intro hlost f' hfp' i
  obtain rfl : f = f' := Option.some.inj (hfp.symm.trans hfp')
  have hfile : ∀ bs, ((g.use f { g.files f with buffer := (g.files f).buffer.drop j }).append
      (g.files f).inode bs).files f = { g.files f with buffer := (g.files f).buffer.drop j } :=
    fun _ => use_same ..
  rw [hfile]
  show _ = (replay S r g.history).disk i
  rw [← h hlost f hfp i]
  by_cases hi : i = (g.files f).inode
  · rw [if_pos hi, if_pos hi, hi, append_same]
    show (g.disk _ ++ (g.files f).buffer.take j) ++ ((g.files f).buffer.drop j ++ rest) = _
    rw [List.append_assoc, ← List.append_assoc (List.take j _), List.take_append_drop]
  · rw [if_neg hi, if_neg hi, append_other _ hi]
    rfl

/-- An entry that stdio failed to print. -/
theorem printing_lost (h : g.lost = true) (rest : Bytes) : Printing S r g rest := by
  intro hlost
  rw [h] at hlost
  cases hlost

/-- The log's `FILE` is used. -/
theorem Sound.use (hs : Sound S r g) (hlock : g.lock ≠ none) {f : Nat} (hfp : g.slowLogFp = some f)
    (buffer : Bytes) (inode : Nat) (bs : Bytes) {rest : Bytes}
    (hp : Printing S r ((g.use f { g.files f with buffer := buffer }).append inode bs) rest) :
    Sound S r ((g.use f { g.files f with buffer := buffer }).append inode bs) := by
  obtain ⟨f', hfp', hlt, hopen, hcurrent⟩ := hs.log
  obtain rfl : f = f' := Option.some.inj (hfp.symm.trans hfp')
  have hsame := use_same g f { g.files f with buffer := buffer }
  have hfault := use_fault hopen { g.files f with buffer := buffer }
  refine ⟨hfault.trans hs.fault, ⟨f, hfp, hlt, ?_, ?_⟩, fun f' => ?_,
    fun hlost f' hne => ?_, fun hl => absurd hl hlock, fun hlost i => ⟨_, hp hlost f hfp i⟩,
    hs.logged, hs.own⟩
  · exact (congrArg File.closes hsame).trans hopen
  · exact (congrArg File.inode hsame).trans hcurrent
  · show ((g.use f _).files f').closes ≤ 1
    by_cases hf : f' = f
    · rw [hf, use_same]
      exact hs.once f
    · rw [use_other g hf]
      exact hs.once f'
  · have hf : f' ≠ f := fun heq => hne (heq ▸ hfp)
    show ((g.use f _).files f').buffer = []
    rw [use_other g hf]
    exact hs.empty hlost f' hne

/-- After stdio has failed there is less to say. -/
theorem Sound.lose (hs : Sound S r g) : Sound S r g.lose :=
  ⟨hs.fault, hs.log, hs.once, (fun h => by cases h), (fun _ h => by cases h),
    (fun h => by cases h), hs.logged, hs.own⟩

/-- The lock is taken or let go, by somebody who knows the log. -/
theorem Sound.lock (hs : Sound S r g) (lock : Option τ) (h : lock = none → Settled S r g) :
    Sound S r { g with lock := lock } :=
  ⟨hs.fault, hs.log, hs.once, hs.empty, fun hl => h hl, hs.begun, hs.logged, hs.own⟩

/-- Somebody is at the `struct tm`. -/
theorem Sound.localtime (hs : Sound S r g) (tm : Option τ) (inside : List τ) :
    Sound S r { g.localtime tm with inside := inside } :=
  ⟨hs.fault, hs.log, hs.once, hs.empty, fun hl => hs.settled hl, hs.begun, hs.logged,
    fun hr => hs.own (localtime_raced tm hr).1⟩

/-- A new `FILE`. -/
theorem sound_fopen (hs : Sound S r g) (inode : Nat) :
    Sound S r { g with
        files := Function.update g.files g.nextFile ⟨inode, [], 0⟩, nextFile := g.nextFile + 1 }
      ∧ Held { g with
        files := Function.update g.files g.nextFile ⟨inode, [], 0⟩, nextFile := g.nextFile + 1 }
        g.nextFile := by
  obtain ⟨f, hfp, hlt, hopen, hcurrent⟩ := hs.log
  have hsame : Function.update g.files g.nextFile ⟨inode, [], 0⟩ f = g.files f :=
    Function.update_of_ne (Nat.ne_of_lt hlt) ..
  refine ⟨⟨hs.fault, ⟨f, hfp, Nat.lt_succ_of_lt hlt, ?_, ?_⟩, fun f' => ?_,
    fun hlost f' hne => ?_, fun hl hlost => ?_, hs.begun, hs.logged, hs.own⟩,
    Nat.lt_succ_self _, ?_, ?_⟩
  · simp only [hsame, hopen]
  · simp only [hsame, hcurrent]
  · show (Function.update g.files g.nextFile ⟨inode, [], 0⟩ f').closes ≤ 1
    by_cases hf : f' = g.nextFile
    · rw [hf, Function.update_self]
      exact Nat.zero_le 1
    · rw [Function.update_of_ne hf]
      exact hs.once f'
  · show (Function.update g.files g.nextFile ⟨inode, [], 0⟩ f').buffer = []
    by_cases hf : f' = g.nextFile
    · rw [hf, Function.update_self]
    · rw [Function.update_of_ne hf]
      exact hs.empty hlost f' hne
  · obtain ⟨hdisk, hbuffer⟩ := hs.settled hl hlost
    refine ⟨hdisk, fun f' hfp' => ?_⟩
    obtain rfl : f = f' := Option.some.inj (hfp.symm.trans hfp')
    simp only [hsame]
    exact hbuffer f hfp
  · simp
  · show g.slowLogFp ≠ some g.nextFile
    rw [hfp]
    exact fun heq => Nat.ne_of_lt hlt (Option.some.inj heq)

/-- The log turns to another `FILE`, and its own is held. -/
theorem sound_swap (hs : Sound S r g) (hl : g.lock = some t) (hsettled : Settled S r g) {f : Nat}
    (hf : Held g f) :
    Sound S r { g with
        slowLogFp := some f, history := g.history ++ [.reopened (g.files f).inode] }
      ∧ Settled S r { g with
        slowLogFp := some f, history := g.history ++ [.reopened (g.files f).inode] }
      ∧ ∃ old, g.slowLogFp = some old ∧ Held { g with
        slowLogFp := some f, history := g.history ++ [.reopened (g.files f).inode] } old := by
  obtain ⟨old, hfp, hlt, hopen, -⟩ := hs.log
  have hne : f ≠ old := fun heq => hf.other (heq ▸ hfp)
  have hdisk : ∀ i, (replay S r (g.history ++ [.reopened (g.files f).inode])).disk i
      = (replay S r g.history).disk i := by
    intro i
    rw [replay_append]
    rfl
  have hprinted : ∀ {c text},
      Happened.printed c text ∈ g.history ++ [.reopened (g.files f).inode] →
        Happened.printed c text ∈ g.history := by
    intro c text hc
    rcases List.mem_append.mp hc with hc | hc
    · exact hc
    · cases List.mem_singleton.mp hc
  refine ⟨⟨hs.fault, ⟨f, rfl, hf.lt, hf.closes, ?_⟩, hs.once, fun hlost f' hne' => ?_,
    fun hl' => ?_, fun hlost i => ?_, fun c text hc => hs.logged c text (hprinted hc),
    fun hr c text hc => hs.own hr c text (hprinted hc)⟩,
    fun hlost => ⟨fun i => ?_, fun f' hfp' => ?_⟩, old, hfp,
    hlt, hopen, fun heq => hne (Option.some.inj heq)⟩
  · simp [Replay.step]
  · -- the old one has been flushed
    by_cases hold : f' = old
    · rw [hold]
      exact (hsettled hlost).2 old hfp
    · exact hs.empty hlost f' (fun heq => hold (Option.some.inj (heq.symm.trans hfp)))
  · have hl'' : g.lock = none := hl'
    rw [hl] at hl''
    cases hl''
  · show g.disk i <+: (replay S r (g.history ++ [.reopened (g.files f).inode])).disk i
    rw [hdisk]
    exact hs.begun hlost i
  · exact ((hsettled hlost).1 i).trans (hdisk i).symm
  · obtain rfl : f = f' := Option.some.inj hfp'
    exact hs.empty hlost f hf.other

/-- A `FILE` that is not the log's is closed, and what is in its buffer goes to
    the file or nowhere. -/
theorem sound_fclose (hs : Sound S r g) {f : Nat} (hf : Held g f) {bs : Bytes}
    (hbs : g.lost = false → bs = []) :
    Sound S r ((g.use f { g.files f with buffer := [], closes := (g.files f).closes + 1 }).append
      (g.files f).inode bs) := by
  obtain ⟨f', hfp, hlt, hopen, hcurrent⟩ := hs.log
  have hne : f' ≠ f := fun heq => hf.other (heq ▸ hfp)
  have hdisk : g.lost = false → ∀ i,
      ((g.use f { g.files f with buffer := [], closes := (g.files f).closes + 1 }).append
        (g.files f).inode bs).disk i = g.disk i := by
    intro hlost i
    rw [hbs hlost, append_nil]
    rfl
  have hsame := use_other g hne { g.files f with buffer := [], closes := (g.files f).closes + 1 }
  have hfault :=
    use_fault hf.closes { g.files f with buffer := [], closes := (g.files f).closes + 1 }
  refine ⟨hfault.trans hs.fault, ⟨f', hfp, hlt, ?_, ?_⟩, fun f'' => ?_,
    fun hlost f'' hne' => ?_, fun hl hlost => ?_, fun hlost i => ?_, hs.logged, hs.own⟩
  · exact (congrArg File.closes hsame).trans hopen
  · exact (congrArg File.inode hsame).trans hcurrent
  · show ((g.use f _).files f'').closes ≤ 1
    by_cases hf' : f'' = f
    · rw [hf', use_same, hf.closes]
    · rw [use_other g hf']
      exact hs.once f''
  · show ((g.use f _).files f'').buffer = []
    by_cases hf' : f'' = f
    · rw [hf', use_same]
    · rw [use_other g hf']
      exact hs.empty hlost f'' hne'
  · obtain ⟨hdisk', hbuffer⟩ := hs.settled hl hlost
    refine ⟨fun i => (hdisk hlost i).trans (hdisk' i), fun f'' hfp' => ?_⟩
    obtain rfl : f' = f'' := Option.some.inj (hfp.symm.trans hfp')
    exact (congrArg File.buffer hsame).trans (hbuffer f' hfp)
  · rw [hdisk hlost]
    exact hs.begun hlost i

/-- What a thread holds is open and not the log's. -/
theorem knows_held (h : Knows S r t l g) {f : Nat} (hf : Holds l f) : Held g f := by
  cases hf with
  | opened => exact h
  | swapping => exact h.2.2
  | swapped =>
      obtain ⟨-, -, f', hf', hheld⟩ := h
      exact Option.some.inj hf' ▸ hheld
  | closing =>
      obtain ⟨f', hf', hheld⟩ := h
      exact Option.some.inj hf' ▸ hheld

variable [DecidableEq τ]

/-- **A THREAD'S OWN STEP.** -/
theorem move_own (h : Move S t (l, g) (l', g')) (hs : Sound S r g) (hk : Knows S r t l g) :
    Sound S r g' ∧ Knows S r t l' g' := by
  obtain ⟨f₀, hfp₀, hlt₀, hopen₀, hcurrent₀⟩ := hs.log
  cases h with
  | call c =>
      refine ⟨hs, ?_⟩
      show g.slowLogFp.isSome = true
      rw [hfp₀]
      rfl
  | quiet => exact ⟨hs, trivial⟩
  | untimed => cases hk
  | localtime _ hlogged =>
      refine ⟨hs.localtime (some t) (t :: g.inside), hlogged, List.mem_cons_self, fun hr => ?_⟩
      exact (localtime_raced (some t) hr).2.2
  | strftime text htext =>
      obtain ⟨hlogged, -, hown⟩ := hk
      exact ⟨⟨hs.fault, hs.log, hs.once, hs.empty, fun hl => hs.settled hl, hs.begun, hs.logged,
        hs.own⟩, hlogged, fun hr => htext (hown hr)⟩
  | @lock _ c text hl =>
      obtain ⟨hlogged, hown⟩ := hk
      have hp := printing_lock (t := t) hs hl c text
      have hprinted : ∀ {c' text'}, Happened.printed c' text' ∈ g.history ++ [.printed c text] →
          Happened.printed c' text' ∈ g.history ∨ c' = c ∧ text' = text := by
        intro c' text' hc
        rcases List.mem_append.mp hc with hc | hc
        · exact Or.inl hc
        · cases List.mem_singleton.mp hc
          exact Or.inr ⟨rfl, rfl⟩
      refine ⟨⟨hs.fault, ⟨f₀, hfp₀, hlt₀, hopen₀, ?_⟩, hs.once, hs.empty, fun hno => ?_,
        fun hlost i => ⟨_, hp hlost f₀ hfp₀ i⟩, fun c' text' hc => ?_, fun hr c' text' hc => ?_⟩,
        rfl, hp⟩
      · rw [replay_append]
        exact hcurrent₀
      · cases hno
      · rcases hprinted hc with hc | ⟨rfl, -⟩
        · exact hs.logged c' text' hc
        · exact hlogged
      · rcases hprinted hc with hc | ⟨rfl, rfl⟩
        · exact hs.own hr c' text' hc
        · exact hown hr
  | @put _ rest f j hfp hj hr =>
      obtain ⟨hl, hp⟩ := hk
      have hlock : g.lock ≠ none := by
        rw [hl]
        simp
      have hp' := printing_put hfp j hp
      rw [← append_nil (g.use f _) 0] at hp' ⊢
      exact ⟨hs.use hlock hfp _ 0 [] hp', hl, hp'⟩
  | putNull hfp =>
      rw [hfp₀] at hfp
      cases hfp
  | @spill _ pc f j hpc hfp hj hb =>
      have hlock : g.lock = some t := by
        rcases hpc with ⟨rest, rfl⟩ | rfl
        · exact hk.1
        · exact hk.1
      have hne : g.lock ≠ none := by
        rw [hlock]
        simp
      rcases hpc with ⟨rest, rfl⟩ | rfl
      · have hp := printing_spill hfp j hk.2
        exact ⟨hs.use hne hfp _ _ _ hp, hlock, hp⟩
      · have hp := printing_spill hfp j hk.2
        exact ⟨hs.use hne hfp _ _ _ hp, hlock, hp⟩
  | written => exact ⟨hs, hk⟩
  | @unlock _ f hfp hb =>
      obtain rfl : f₀ = f := Option.some.inj (hfp₀.symm.trans hfp)
      rw [use_open hopen₀]
      refine ⟨hs.lock none (fun _ hlost => ⟨fun i => ?_, fun f' hfp' => ?_⟩), trivial⟩
      · have h := hk.2 hlost f₀ hfp i
        rw [hb] at h
        simpa using h
      · obtain rfl : f₀ = f' := Option.some.inj (hfp.symm.trans hfp')
        exact hb
  | @skip _ rest f j hfp hj hr =>
      obtain rfl : f₀ = f := Option.some.inj (hfp₀.symm.trans hfp)
      rw [use_open hopen₀]
      exact ⟨hs.lose, hk.1, printing_lost rfl _⟩
  | @discard _ pc f j hpc hfp hj hb =>
      have hlock : g.lock = some t := by
        rcases hpc with ⟨rest, rfl⟩ | rfl
        · exact hk.1
        · exact hk.1
      have hne : g.lock ≠ none := by
        rw [hlock]
        simp
      have hp := printing_lost (S := S) (r := r) (g := (g.lose.use f
        { g.files f with buffer := (g.files f).buffer.drop j }).append 0 []) rfl
      have hsound := hs.lose.use hne hfp _ 0 [] (hp [])
      rw [append_nil] at hp hsound
      rcases hpc with ⟨rest, rfl⟩ | rfl
      · exact ⟨hsound, hlock, hp rest⟩
      · exact ⟨hsound, hlock, hp []⟩
  | @unlockFail _ f hfp =>
      obtain rfl : f₀ = f := Option.some.inj (hfp₀.symm.trans hfp)
      rw [use_open hopen₀]
      exact ⟨hs.lose.lock none (fun _ h => by cases h), trivial⟩
  | reopenStdout => exact ⟨hs, trivial⟩
  | fopenFail => exact ⟨hs, trivial⟩
  | fopen path => exact sound_fopen hs (g.paths path)
  | lockSwap hl =>
      have hsettled := hs.settled hl
      exact ⟨hs.lock (some t) (fun _ => hsettled), rfl, hsettled, hk.lt, hk.closes, hk.other⟩
  | swap =>
      obtain ⟨hl, hsettled, hf⟩ := hk
      obtain ⟨hsound, hsettled', hold⟩ := sound_swap hs hl hsettled hf
      exact ⟨hsound, hl, hsettled', hold⟩
  | unlockSwap =>
      obtain ⟨-, hsettled, f, rfl, hf⟩ := hk
      exact ⟨hs.lock none (fun _ => hsettled), f, rfl, hf.lt, hf.closes, hf.other⟩
  | @fclose _ f =>
      obtain ⟨f', hf, hheld⟩ := hk
      obtain rfl : f = f' := Option.some.inj hf
      exact ⟨sound_fclose hs hheld (fun hlost => hs.empty hlost f hheld.other), trivial⟩
  | @fcloseFail _ f j =>
      obtain ⟨f', hf, hheld⟩ := hk
      obtain rfl : f = f' := Option.some.inj hf
      have hbs : g.lost = false → (g.files f).buffer.take j = [] := by
        intro hlost
        rw [hs.empty hlost f hheld.other, List.take_nil]
      exact ⟨(sound_fclose hs hheld hbs).lose, trivial⟩
  | fcloseNull =>
      obtain ⟨f, hf, -⟩ := hk
      cases hf

/-- What a step does to a `FILE` that somebody else holds: nothing. -/
theorem held_other (h : Move S t (l, g) (l', g')) {f : Nat} (hf : Held g f)
    (hnot : ¬ Holds l f) : Held g' f := by
  have huse : ∀ {f' : Nat} {file : File}, f ≠ f' → ((g.use f' file).files f).closes = 0 :=
    fun hne => (congrArg File.closes (use_other g hne _)).trans hf.closes
  have hlog : ∀ {f' : Nat}, g.slowLogFp = some f' → f ≠ f' :=
    fun hfp heq => hf.other (heq ▸ hfp)
  cases h with
  | put hfp => exact ⟨hf.lt, huse (hlog hfp), hf.other⟩
  | spill _ hfp => exact ⟨hf.lt, huse (hlog hfp), hf.other⟩
  | unlock hfp => exact ⟨hf.lt, huse (hlog hfp), hf.other⟩
  | skip hfp => exact ⟨hf.lt, huse (hlog hfp), hf.other⟩
  | discard _ hfp => exact ⟨hf.lt, huse (hlog hfp), hf.other⟩
  | unlockFail hfp => exact ⟨hf.lt, huse (hlog hfp), hf.other⟩
  | fopen path =>
      have hsame : Function.update g.files g.nextFile ⟨g.paths path, [], 0⟩ f = g.files f :=
        Function.update_of_ne (Nat.ne_of_lt hf.lt) ..
      exact ⟨Nat.lt_succ_of_lt hf.lt, (congrArg File.closes hsame).trans hf.closes, hf.other⟩
  | swap =>
      exact ⟨hf.lt, hf.closes, fun heq => hnot (Option.some.inj heq ▸ .swapping)⟩
  | fclose => exact ⟨hf.lt, huse (fun heq => hnot (heq ▸ .closing)), hf.other⟩
  | fcloseFail => exact ⟨hf.lt, huse (fun heq => hnot (heq ▸ .closing)), hf.other⟩
  | _ => exact ⟨hf.lt, hf.closes, hf.other⟩

/-- What a thread holds after a step it held before, or it is new, or was the
    log's. -/
theorem holds_move (h : Move S t (l, g) (l', g')) {f : Nat} (hf : Holds l' f) :
    Holds l f ∨ f = g.nextFile ∨ g.slowLogFp = some f := by
  cases h with
  | fopen path =>
      cases hf
      exact Or.inr (Or.inl rfl)
  | swap =>
      generalize hfp : g.slowLogFp = old at hf ⊢
      cases hf
      exact Or.inr (Or.inr rfl)
  | lockSwap =>
      cases hf
      exact Or.inl .opened
  | unlockSwap =>
      cases hf
      exact Or.inl .swapped
  | spill => exact Or.inl hf
  | discard => exact Or.inl hf
  | _ => cases hf

theorem move_raced (h : Move S t (l, g) (l', g')) (hr : g'.raced = false) : g.raced = false := by
  cases h with
  | localtime => exact (localtime_raced (some t) hr).1
  | _ => exact hr

/-- Whoever is alone with the `struct tm` finds it as it was. -/
theorem move_inside (h : Move S t (l, g) (l', g')) (hne : u ≠ t) (hin : u ∈ g.inside) :
    u ∈ g'.inside ∧ (g'.raced = false → g.tm = some u → g'.tm = some u) := by
  cases h with
  | localtime =>
      refine ⟨List.mem_cons_of_mem _ hin, fun hr _ => ?_⟩
      have hnobody : g.inside = [] := (localtime_raced (some t) hr).2.1
      rw [hnobody] at hin
      cases hin
  | strftime => exact ⟨(List.mem_erase_of_ne hne).mpr hin, fun _ htm => htm⟩
  | _ => exact ⟨hin, fun _ htm => htm⟩

/-- **NO INTERFERENCE** of a step with what another thread knows. -/
theorem move_others (h : Move S t (l, g) (l', g')) (hs : Sound S r g) (hk : Knows S r t l g)
    (hne : u ≠ t) (hm : Knows S r u m g) (hapart : Apart l m) :
    Knows S r u m g' ∧ Apart l' m := by
  constructor
  · refine hm.frame (move_raced h) (move_inside h hne) (fun hl => ?_)
      (fun f hf hheld => held_other h hheld (fun hf' => hapart f hf' hf))
    obtain ⟨f₀, hfp₀, hlt₀, -, -⟩ := hs.log
    -- the log's own `FILE` stays as it is, and so does what is said of it
    have hsame : ∀ {g' : Log τ}, g'.files f₀ = g.files f₀ → g'.slowLogFp = g.slowLogFp →
        (g'.lost = false → g.lost = false ∧ ∀ i, g'.disk i = g.disk i) →
        g'.history = g.history → (∀ rest, Printing S r g rest → Printing S r g' rest)
          ∧ (Settled S r g → Settled S r g') := by
      intro g' hfile hfp hdisk hhist
      refine ⟨fun rest hp hlost f hf i => ?_, fun hsettled hlost => ⟨fun i => ?_, fun f hf => ?_⟩⟩
      · obtain rfl : f₀ = f := Option.some.inj (hfp₀.symm.trans (hfp ▸ hf))
        obtain ⟨hlost', hdisk'⟩ := hdisk hlost
        rw [hfile, hdisk', hhist]
        exact hp hlost' f₀ hfp₀ i
      · obtain ⟨hlost', hdisk'⟩ := hdisk hlost
        rw [hdisk', hhist]
        exact (hsettled hlost').1 i
      · obtain rfl : f₀ = f := Option.some.inj (hfp₀.symm.trans (hfp ▸ hf))
        rw [hfile]
        exact (hsettled (hdisk hlost).1).2 f₀ hfp₀
    -- while `u` has the lock, the others are outside of it
    cases h with
    | lock hno =>
        rw [hno] at hl
        cases hl
    | put => exact absurd hl (lock_alone hk.1 hne)
    | @spill _ pc f j hpc =>
        rcases hpc with ⟨rest, rfl⟩ | rfl
        · exact absurd hl (lock_alone hk.1 hne)
        · exact absurd hl (lock_alone hk.1 hne)
    | unlock => exact absurd hl (lock_alone hk.1 hne)
    | skip => exact absurd hl (lock_alone hk.1 hne)
    | @discard _ pc f j hpc =>
        rcases hpc with ⟨rest, rfl⟩ | rfl
        · exact absurd hl (lock_alone hk.1 hne)
        · exact absurd hl (lock_alone hk.1 hne)
    | unlockFail => exact absurd hl (lock_alone hk.1 hne)
    | fopen path =>
        exact ⟨hl, hsame (Function.update_of_ne (Nat.ne_of_lt hlt₀) ..) rfl
          (fun hlost => ⟨hlost, fun _ => rfl⟩) rfl⟩
    | lockSwap hno =>
        rw [hno] at hl
        cases hl
    | swap => exact absurd hl (lock_alone hk.1 hne)
    | unlockSwap => exact absurd hl (lock_alone hk.1 hne)
    | @fclose _ f' =>
        have hheld : Held g f' := knows_held hk .closing
        have hne' : f₀ ≠ f' := fun heq => hheld.other (heq ▸ hfp₀)
        refine ⟨hl, hsame (use_other g hne' _) rfl (fun hlost => ⟨hlost, fun i => ?_⟩) rfl⟩
        rw [hs.empty hlost f' hheld.other, append_nil]
        rfl
    | @fcloseFail _ f' j =>
        have hheld : Held g f' := knows_held hk .closing
        have hne' : f₀ ≠ f' := fun heq => hheld.other (heq ▸ hfp₀)
        exact ⟨hl, hsame (use_other g hne' _) rfl (fun hlost => by cases hlost) rfl⟩
    | _ => exact ⟨hl, fun _ hp => hp, fun hsettled => hsettled⟩
  · intro f hf hf'
    have hheld := knows_held hm hf'
    rcases holds_move h hf with hold | rfl | hfp
    · exact hapart f hold hf'
    · exact absurd hheld.lt (Nat.lt_irrefl _)
    · exact hheld.other hfp

/-- The assertions hold in every interleaving. -/
theorem annotated (S : Server F M σ) (r : Replay) :
    Annotated (τ := τ) (Move S) Outside (Sound S r) (Knows S r) Apart where
  symm _ _ h f hf hf' := h f hf' hf
  own _ _ _ _ _ h hs hk := move_own h hs hk
  others _ _ _ _ _ _ _ h hs hk hne hm hapart := move_others h hs hk hne hm hapart
  outside g g' h hs := by
    cases h with
    | rename paths =>
        refine ⟨⟨hs.fault, hs.log, hs.once, hs.empty, hs.settled, hs.begun, hs.logged, hs.own⟩,
          fun t l hk => ?_⟩
        exact hk.frame id (fun hin => ⟨hin, fun _ htm => htm⟩)
          (fun hl => ⟨hl, fun _ hp => hp, fun hsettled => hsettled⟩)
          (fun f _ hf => ⟨hf.lt, hf.closes, hf.other⟩)
    | localtime =>
        refine ⟨hs.localtime none g.inside, fun t l hk => ?_⟩
        refine hk.frame (fun hr => (localtime_raced none hr).1)
          (fun hin => ⟨hin, fun hr _ => ?_⟩)
          (fun hl => ⟨hl, fun _ hp => hp, fun hsettled => hsettled⟩)
          (fun f _ hf => ⟨hf.lt, hf.closes, hf.other⟩)
        have hnobody : g.inside = [] := (localtime_raced none hr).2.1
        rw [hnobody] at hin
        cases hin

/-! ## No `FILE` is forgotten -/

/-- What a step does to a `FILE` that is the log's, that the thread holds, or
    that is closed; and which `FILE`s are new. -/
theorem move_accounts (h : Move S t (l, g) (l', g')) (hs : Sound S r g) (hk : Knows S r t l g)
    (f : Nat) :
    (f < g'.nextFile → f < g.nextFile ∨ Holds l' f)
      ∧ (g.slowLogFp = some f → g'.slowLogFp = some f ∨ Holds l' f)
      ∧ (Holds l f → Holds l' f ∨ g'.slowLogFp = some f ∨ (g'.files f).closes = 1)
      ∧ (f < g.nextFile → (g.files f).closes = 1 → (g'.files f).closes = 1) := by
  have hlt : f < g.nextFile → f < g.nextFile ∨ Holds l' f := Or.inl
  have hfp : g.slowLogFp = some f → g.slowLogFp = some f ∨ Holds l' f := Or.inl
  obtain ⟨f₀, hfp₀, -, hopen₀, -⟩ := hs.log
  -- using a `FILE` that is open leaves the closed ones as they are
  have huse : ∀ {file : File} {f' : Nat}, (g.files f').closes = 0 → (g.files f).closes = 1 →
      ((g.use f' file).files f).closes = 1 := by
    intro file f' hopen hone
    have hne : f ≠ f' := by
      rintro rfl
      rw [hopen] at hone
      cases hone
    rw [use_other g hne]
    exact hone
  have hlog : ∀ {f' : Nat}, g.slowLogFp = some f' → (g.files f').closes = 0 := by
    intro f' hfp'
    obtain rfl : f₀ = f' := Option.some.inj (hfp₀.symm.trans hfp')
    exact hopen₀
  cases h with
  | fopen path =>
      refine ⟨fun hlt' => ?_, hfp, (fun hf => by cases hf), fun hlt' hone => ?_⟩
      · rcases Nat.lt_succ_iff_lt_or_eq.mp hlt' with hlt' | rfl
        · exact Or.inl hlt'
        · exact Or.inr .opened
      · show (Function.update g.files g.nextFile ⟨g.paths path, [], 0⟩ f).closes = 1
        rw [Function.update_of_ne (Nat.ne_of_lt hlt')]
        exact hone
  | lockSwap =>
      refine ⟨hlt, hfp, fun hf => ?_, fun _ hone => hone⟩
      cases hf
      exact Or.inl .swapping
  | swap =>
      refine ⟨hlt, fun hfp' => Or.inr ?_, fun hf => ?_, fun _ hone => hone⟩
      · rw [hfp']
        exact .swapped
      · cases hf
        exact Or.inr (Or.inl rfl)
  | unlockSwap =>
      refine ⟨hlt, hfp, fun hf => ?_, fun _ hone => hone⟩
      cases hf
      exact Or.inl .closing
  | @fclose _ f' =>
      have hopen : (g.files f').closes = 0 := (knows_held hk .closing).closes
      refine ⟨hlt, hfp, fun hf => ?_, fun _ hone => huse hopen hone⟩
      cases hf
      refine Or.inr (Or.inr ?_)
      show ((g.use f _).files f).closes = 1
      rw [use_same, hopen]
  | @fcloseFail _ f' =>
      have hopen : (g.files f').closes = 0 := (knows_held hk .closing).closes
      refine ⟨hlt, hfp, fun hf => ?_, fun _ hone => huse hopen hone⟩
      cases hf
      refine Or.inr (Or.inr ?_)
      show ((g.use f _).files f).closes = 1
      rw [use_same, hopen]
  | put hfp' => exact ⟨hlt, hfp, (fun hf => by cases hf), fun _ hone => huse (hlog hfp') hone⟩
  | spill _ hfp' => exact ⟨hlt, hfp, Or.inl, fun _ hone => huse (hlog hfp') hone⟩
  | unlock hfp' => exact ⟨hlt, hfp, (fun hf => by cases hf), fun _ hone => huse (hlog hfp') hone⟩
  | skip hfp' => exact ⟨hlt, hfp, (fun hf => by cases hf), fun _ hone => huse (hlog hfp') hone⟩
  | discard _ hfp' => exact ⟨hlt, hfp, Or.inl, fun _ hone => huse (hlog hfp') hone⟩
  | unlockFail hfp' =>
      exact ⟨hlt, hfp, (fun hf => by cases hf), fun _ hone => huse (hlog hfp') hone⟩
  | fcloseNull => exact ⟨hlt, hfp, (fun hf => by cases hf), fun _ hone => hone⟩
  | _ => exact ⟨hlt, hfp, (fun hf => by cases hf), fun _ hone => hone⟩

end Steps

section Runs

variable [DecidableEq τ] (S : Server F M σ)

/-- What a process that has just opened its log, or has none, may get into. -/
def Runs (g : Log τ) : Config τ Pc (Log τ) → Prop :=
  Reachable (Move S) Outside ⟨fun _ => .idle, g⟩

end Runs

section Rotation

variable [DecidableEq τ] {S : Server F M σ} {paths : Bytes → Nat} {disk : Nat → Bytes}
  {inode : Nat} {c d : Config τ Pc (Log τ)}

omit [DecidableEq τ] in
/-- A log that has just been opened. -/
theorem meets_start :
    (Config.mk (fun _ => Pc.idle) (Log.start paths disk (some inode)) : Config τ Pc (Log τ)).Meets
      (Sound S ⟨inode, disk⟩) (Knows S ⟨inode, disk⟩) Apart := by
  refine ⟨⟨rfl, ⟨0, rfl, Nat.one_pos, rfl, rfl⟩, fun _ => Nat.zero_le 1, fun _ _ _ => rfl,
    fun _ _ => ⟨fun _ => rfl, fun _ _ => rfl⟩, fun _ _ => List.prefix_refl _, fun _ _ hc => ?_,
    fun _ _ _ hc => ?_⟩, fun _ => trivial, fun _ _ _ f hf => ?_⟩
  · exact absurd hc List.not_mem_nil
  · exact absurd hc List.not_mem_nil
  · cases hf

theorem meets_runs (h : Runs S (.start paths disk (some inode)) c) :
    c.Meets (Sound S ⟨inode, disk⟩) (Knows S ⟨inode, disk⟩) Apart :=
  meets_reachable (annotated S ⟨inode, disk⟩) meets_start h

/-- Every `FILE` is closed, the log's, or held. -/
theorem accounted (h : Runs S (.start paths disk (some inode)) c) {f : Nat}
    (hf : f < c.shared.nextFile) :
    (c.shared.files f).closes = 1 ∨ c.shared.slowLogFp = some f ∨ ∃ t, Holds (c.pcs t) f := by
  induction h with
  | start =>
      obtain rfl : f = 0 := Nat.lt_one_iff.mp hf
      exact Or.inr (Or.inl rfl)
  | @step c d hr hstep ih =>
      have hc := meets_runs hr
      cases hstep with
      | outside hout =>
          cases hout with
          | rename => exact ih hf
          | localtime => exact ih hf
      | @run t l g hrun =>
          obtain ⟨hlt, hfp, hholds, hclosed⟩ := move_accounts hrun hc.shared (hc.each t) f
          have hself : Holds l f → ∃ u, Holds (Function.update c.pcs t l u) f := fun hl =>
            ⟨t, by rw [Function.update_self]; exact hl⟩
          rcases hlt hf with hlt | hl
          · rcases ih hlt with hone | hcur | ⟨u, hu⟩
            · exact Or.inl (hclosed hlt hone)
            · exact Or.inr ((hfp hcur).imp_right hself)
            · by_cases hut : u = t
              · rw [hut] at hu
                rcases hholds hu with hl | hcur | hone
                · exact Or.inr (Or.inr (hself hl))
                · exact Or.inr (Or.inl hcur)
                · exact Or.inl hone
              · refine Or.inr (Or.inr ⟨u, ?_⟩)
                show Holds (Function.update c.pcs t l u) f
                rw [Function.update_of_ne hut]
                exact hu
          · exact Or.inr (Or.inr (hself hl))

/-- Without a log, the first reopening that gets through closes `NULL`. -/
theorem null_faults (hstdout : S.printer.logToStdout = false) (paths : Bytes → Nat)
    (disk : Nat → Bytes) (t : τ) :
    ∃ c : Config τ Pc (Log τ), Runs S (.start paths disk none) c ∧ c.shared.fault = true := by
  -- `fopen`, lock, swap, unlock, `fclose`
  have h₀ : Runs S (.start paths disk none)
      (⟨Function.update (fun _ => Pc.idle) t Pc.idle, .start paths disk none⟩ :
        Config τ Pc (Log τ)) := by
    rw [Function.update_eq_self]
    exact .start
  have h₁ := h₀.thread (.fopen [] hstdout)
  have h₂ := h₁.thread (.lockSwap rfl)
  have h₃ := h₂.thread .swap
  have h₄ := h₃.thread .unlockSwap
  have h₅ := h₄.thread .fcloseNull
  exact ⟨_, h₅, rfl⟩

/-- **ROTATION IS SAFE, EXACTLY** when there is a log to begin with: then in every
    interleaving of calls, reopenings and renamings no `FILE` is used that is
    not open, none is closed twice, and the open ones are the log's and those
    that a reopening is about to put in or to close.  A process that was given
    no path does well until somebody reopens its log. -/
theorem rotation_safe_iff (S : Server F M σ) (paths : Bytes → Nat) (disk : Nat → Bytes)
    (stdout : Nat) (opens : Bool) (slowLogPath : Option Bytes) {g₀ : Log τ} (t : τ)
    (h₀ : searpcServerInitWithSlowLog S paths disk stdout opens slowLogPath = some g₀) :
    (∀ c, Runs S g₀ c → c.shared.fault = false
        ∧ ∀ f < c.shared.nextFile, (c.shared.files f).closes ≤ 1
          ∧ ((c.shared.files f).closes = 0
            ↔ c.shared.slowLogFp = some f ∨ ∃ t, Holds (c.pcs t) f))
      ↔ S.printer.logToStdout = true ∨ slowLogPath.isSome := by
  have hsafe : ∀ inode, ∀ c : Config τ Pc (Log τ), Runs S (.start paths disk (some inode)) c →
      c.shared.fault = false ∧ ∀ f < c.shared.nextFile, (c.shared.files f).closes ≤ 1
        ∧ ((c.shared.files f).closes = 0
          ↔ c.shared.slowLogFp = some f ∨ ∃ t, Holds (c.pcs t) f) := by
    intro inode c hc
    have hmeets := meets_runs hc
    refine ⟨hmeets.shared.fault, fun f hf => ⟨hmeets.shared.once f, fun hopen => ?_, ?_⟩⟩
    · rcases accounted hc hf with hone | hother
      · rw [hopen] at hone
        cases hone
      · exact hother
    · rintro (hcur | ⟨u, hu⟩)
      · obtain ⟨f', hfp, -, hopen, -⟩ := hmeets.shared.log
        obtain rfl : f' = f := Option.some.inj (hfp.symm.trans hcur)
        exact hopen
      · exact (knows_held (hmeets.each u) hu).closes
  unfold searpcServerInitWithSlowLog at h₀
  by_cases hstdout : S.printer.logToStdout = true
  · rw [if_pos hstdout] at h₀
    rw [← Option.some.inj h₀]
    exact iff_of_true (hsafe stdout) (Or.inl hstdout)
  · rw [if_neg hstdout] at h₀
    cases slowLogPath with
    | some path =>
        have h₀' : (if opens = true then some (Log.start paths disk (some (paths path))) else none)
            = some g₀ := h₀
        by_cases hopens : opens = true
        · rw [if_pos hopens] at h₀'
          rw [← Option.some.inj h₀']
          exact iff_of_true (hsafe (paths path)) (Or.inr rfl)
        · rw [if_neg hopens] at h₀'
          cases h₀'
    | none =>
        refine iff_of_false (fun hall => ?_) (fun h => ?_)
        · obtain ⟨c, hc, hfault⟩ := null_faults (S := S) (by simpa using hstdout) paths disk t
          rw [Option.some.inj h₀] at hc
          rw [(hall c hc).1] at hfault
          cases hfault
        · rcases h with h | h
          · exact hstdout h
          · cases h

/-! ## What the files say -/

/-- The calls of a history. -/
def calls : List Happened → List Call
  | [] => []
  | .printed c _ :: history => c :: calls history
  | .reopened _ :: history => calls history

/-- The files it reopened, in order. -/
def inodes : List Happened → List Nat
  | [] => []
  | .printed _ _ :: history => inodes history
  | .reopened inode :: history => inode :: inodes history

/-- Its entries, one after the other. -/
def entries (S : Server F M σ) : List Happened → Bytes
  | [] => []
  | .printed c text :: history => stamped S text c ++ entries S history
  | .reopened _ :: history => entries S history

/-- A file the log does not come to stays as it is. -/
theorem replay_other (S : Server F M σ) {i : Nat} {history : List Happened} :
    ∀ {r : Replay}, i ∉ r.inode :: inodes history → (replay S r history).disk i = r.disk i := by
  induction history with
  | nil => exact fun _ => rfl
  | cons h history ih =>
      intro r hi
      cases h with
      | printed c text =>
          have hne : i ≠ r.inode := List.ne_of_not_mem_cons hi
          exact (ih (r := r.step S (.printed c text)) hi).trans
            (step_printed_other S r hne c text)
      | reopened inode =>
          exact ih (r := r.step S (.reopened inode)) (List.not_mem_of_not_mem_cons hi)

/-- File after file, the entries of a log that comes to no file twice. -/
theorem replay_text (S : Server F M σ) {history : List Happened} :
    ∀ {r : Replay}, (r.inode :: inodes history).Nodup → (∀ i ∈ inodes history, r.disk i = []) →
      (r.inode :: inodes history).flatMap (replay S r history).disk
        = r.disk r.inode ++ entries S history := by
  induction history with
  | nil => exact fun {_} _ _ => rfl
  | cons h history ih =>
      intro r hnd hempty
      cases h with
      | printed c text =>
          have hrest : ∀ i ∈ inodes history, (r.step S (.printed c text)).disk i = [] := by
            intro i hi
            have hne : i ≠ r.inode := fun heq => (List.nodup_cons.mp hnd).1 (heq ▸ hi)
            rw [step_printed_other S r hne]
            exact hempty i hi
          have h := ih (r := r.step S (.printed c text)) hnd hrest
          rw [show (r.step S (.printed c text)).inode = r.inode from rfl, step_printed_same,
            List.append_assoc] at h
          exact h
      | reopened inode =>
          obtain ⟨hnot, hnd'⟩ := List.nodup_cons.mp hnd
          have hrest : ∀ i ∈ inodes history, (r.step S (.reopened inode)).disk i = [] :=
            fun i hi => hempty i (List.mem_cons_of_mem _ hi)
          have h := ih (r := r.step S (.reopened inode)) hnd' hrest
          have hsame := replay_other S (r := r.step S (.reopened inode)) hnot
          have hnew : r.disk inode = [] := hempty inode List.mem_cons_self
          show (replay S (r.step S (.reopened inode)) history).disk r.inode
              ++ (inode :: inodes history).flatMap
                (replay S (r.step S (.reopened inode)) history).disk = _
          rw [hsame]
          refine congrArg (r.disk r.inode ++ ·) (h.trans ?_)
          show r.disk inode ++ _ = _
          rw [hnew]
          rfl

/-- Entries that give the times of their calls are what the log that was never
    rotated says of these calls. -/
theorem entries_run (S : Server F M σ) (w : σ) {history : List Happened}
    (hlogged : ∀ c text, .printed c text ∈ history → S.Logged c)
    (hown : ∀ c text, .printed c text ∈ history → text = stamp S c) :
    entries S history = (S.run ⟨w, []⟩ (calls history)).text := by
  have hall : ∀ c ∈ calls history, S.Logged c := by
    intro c hc
    induction history with
    | nil => exact absurd hc List.not_mem_nil
    | cons h history ih =>
        have hrest := ih (fun c text h => hlogged c text (List.mem_cons_of_mem _ h))
          (fun c text h => hown c text (List.mem_cons_of_mem _ h))
        cases h with
        | printed c' text =>
            rcases List.mem_cons.mp hc with rfl | hc
            · exact hlogged c text List.mem_cons_self
            · exact hrest hc
        | reopened => exact hrest hc
  have hentries : entries S history = (calls history).flatMap S.entry := by
    induction history with
    | nil => rfl
    | cons h history ih =>
        have hrest := ih (fun c text h => hlogged c text (List.mem_cons_of_mem _ h))
          (fun c text h => hown c text (List.mem_cons_of_mem _ h))
        cases h with
        | printed c text =>
            have htext := hown c text List.mem_cons_self
            show stamped S text c ++ _ = S.entry c ++ _
            rw [htext, stamped_stamp, hrest (fun c' h => hall c' (List.mem_cons_of_mem _ h))]
            rfl
        | reopened => exact hrest hall
  have hfilter : (calls history).filter (fun c => S.Logged c) = calls history :=
    List.filter_eq_self.mpr (fun c hc => decide_eq_true (hall c hc))
  rw [run_text, hfilter, hentries]
  rfl

/-- What has happened stays so. -/
theorem history_step (h : Step (Move S) Outside c d) : c.shared.history <+: d.shared.history := by
  cases h with
  | outside hout =>
      cases hout with
      | rename => exact List.prefix_refl _
      | localtime => exact List.prefix_refl _
  | @run t l g hrun =>
      generalize c.pcs t = pc at hrun
      cases hrun with
      | lock => exact List.prefix_append _ _
      | swap => exact List.prefix_append _ _
      | _ => exact List.prefix_refl _

theorem history_runs {start : Config τ Pc (Log τ)} (h : Reachable (Move S) Outside start c) :
    start.shared.history <+: c.shared.history := by
  induction h with
  | start => exact List.prefix_refl _
  | step _ hstep ih => exact ih.trans (history_step hstep)

/-- **THE LOG IS ATOMIC**, whatever the interleaving of calls, reopenings and
    renamings.  What has happened only grows, and the entries are those of calls
    that are logged; they give the times of their calls if no two were at the
    `struct tm`.  As long as stdio does not fail, every file holds what an entry
    at a time would have put there, but for an entry that is being written; and a
    log that comes to no file twice says, read file after file, its entries in
    order, which is what the log of these calls would say that was never
    rotated, if the times are right. -/
theorem rotation_atomic (S : Server F M σ) (paths : Bytes → Nat) (disk : Nat → Bytes)
    (inode : Nat) {c : Config τ Pc (Log τ)}
    (h : Runs S (Log.start paths disk (some inode)) c) :
    (∀ d, Reachable (Move S) Outside c d → c.shared.history <+: d.shared.history)
    ∧ (∀ x text, .printed x text ∈ c.shared.history → S.Logged x)
    ∧ (c.shared.raced = false →
      ∀ x text, .printed x text ∈ c.shared.history → text = stamp S x)
    ∧ (c.shared.lost = false →
      (∀ i, c.shared.disk i <+: (replay S ⟨inode, disk⟩ c.shared.history).disk i)
      ∧ (c.shared.lock = none →
        (∀ i, c.shared.disk i = (replay S ⟨inode, disk⟩ c.shared.history).disk i)
        ∧ ((inode :: inodes c.shared.history).Nodup →
          (∀ i ∈ inode :: inodes c.shared.history, disk i = []) →
          (inode :: inodes c.shared.history).flatMap c.shared.disk
              = entries S c.shared.history
            ∧ (c.shared.raced = false → ∀ w,
              entries S c.shared.history
                = (S.run ⟨w, []⟩ (calls c.shared.history)).text)))) := by
  have hs := (meets_runs h).shared
  refine ⟨fun d hd => history_runs hd, hs.logged, hs.own, fun hlost => ⟨hs.begun hlost,
    fun hl => ?_⟩⟩
  have hdisk := (hs.settled hl hlost).1
  refine ⟨hdisk, fun hnd hempty => ⟨?_, fun hr w => entries_run S w hs.logged (hs.own hr)⟩⟩
  have htext := replay_text S (r := ⟨inode, disk⟩) hnd
    (fun i hi => hempty i (List.mem_cons_of_mem _ hi))
  rw [funext hdisk]
  refine htext.trans ?_
  show disk inode ++ _ = _
  rw [hempty inode List.mem_cons_self, List.nil_append]

/-! ## One entry and a rotation -/

theorem entry_pos (S : Server F M σ) (c : Call) : 0 < (S.entry c).length := by
  have hnewline : (ascii "\n").length = 1 := by decide
  rw [Server.entry, entryText, List.length_append, hnewline]
  exact Nat.succ_pos _

/-- Nobody is printing, and all went well. -/
structure Quiet (g : Log τ) : Prop where
  lock   : g.lock = none
  inside : g.inside = []
  raced  : g.raced = false
  lost   : g.lost = false

/-- A thread that is let alone prints its entry. -/
theorem prints {pcs : τ → Pc} {t : τ} {g : Log τ} {x : Call}
    (h : Runs S (.start paths disk (some inode)) ⟨Function.update pcs t .idle, g⟩)
    (hq : Quiet g) (hx : S.Logged x) :
    ∃ g', Runs S (.start paths disk (some inode)) ⟨Function.update pcs t .idle, g'⟩
      ∧ g'.history = g.history ++ [.printed x (stamp S x)] ∧ Quiet g' ∧ g'.paths = g.paths := by
  have hs := (meets_runs h).shared
  obtain ⟨f, hfp, -⟩ := hs.log
  have hb : (g.files f).buffer = [] := (hs.settled hq.lock hq.lost).2 f hfp
  have hsome : g.slowLogFp.isSome = true := congrArg Option.isSome hfp
  have hne : g.slowLogFp ≠ none := Option.isSome_iff_ne_none.mp hsome
  have hfull := List.take_length (l := S.entry x)
  have h₁ := h.thread (.call x)
  rw [hsome] at h₁
  have h₄ := ((h₁.thread (.localtime hne hx)).thread (.strftime _ (fun _ => rfl))).thread
    (.lock hq.lock)
  rw [stamped_stamp] at h₄
  have h₅ := h₄.thread (.put hfp (entry_pos S x) (Nat.le_refl _))
  rw [List.drop_length] at h₅
  have h₇ := (h₅.thread .written).thread (.spill (f := f) (j := (S.entry x).length)
    (Or.inr rfl) hfp (entry_pos S x) (by
      show (S.entry x).length ≤ (((Log.use _ f _).files f).buffer).length
      rw [use_same, hfull, List.length_append]
      exact Nat.le_add_left ..))
  have h₈ := h₇.thread (.unlock (f := f) hfp (by
    show (((Log.use _ f _).files f).buffer) = []
    rw [use_same]
    show (((Log.use _ f _).files f).buffer).drop _ = []
    rw [use_same]
    show ((g.files f).buffer ++ (S.entry x).take (S.entry x).length).drop _ = []
    rw [hb, List.nil_append, hfull, List.drop_length]))
  refine ⟨_, h₈, rfl, ⟨rfl, ?_, ?_, hq.lost⟩, rfl⟩
  · show (t :: g.inside).erase t = []
    rw [List.erase_cons_head, hq.inside]
  · show (g.raced || !g.inside.isEmpty) = false
    rw [hq.raced, hq.inside]
    rfl

/-- A thread that is let alone reopens the log. -/
theorem reopens {pcs : τ → Pc} {t : τ} {g : Log τ}
    (h : Runs S (.start paths disk (some inode)) ⟨Function.update pcs t .idle, g⟩)
    (hq : Quiet g) (hstdout : S.printer.logToStdout = false) (path : Bytes) :
    ∃ g', Runs S (.start paths disk (some inode)) ⟨Function.update pcs t .idle, g'⟩
      ∧ g'.history = g.history ++ [.reopened (g.paths path)] ∧ Quiet g'
      ∧ g'.paths = g.paths := by
  obtain ⟨old, hfp, -⟩ := (meets_runs h).shared.log
  have hold : g.slowLogFp = some old := hfp
  have h₂ := (h.thread (.fopen path hstdout)).thread (.lockSwap hq.lock)
  have h₄ := (h₂.thread .swap).thread .unlockSwap
  simp only [hold] at h₄
  have h₅ := h₄.thread .fclose
  exact ⟨_, h₅, by simp [Log.append, Log.use], ⟨rfl, hq.inside, hq.raced, hq.lost⟩, rfl⟩

/-- Of two calls at a time, one may print any time. -/
theorem any_stamp {x y : Call} (hx : S.Logged x) (hy : S.Logged y) {t u : τ} (htu : t ≠ u)
    (text : Bytes) : ∃ c : Config τ Pc (Log τ), Runs S (.start paths disk (some inode)) c
      ∧ c.shared.lost = false ∧ c.shared.history = [.printed x text] := by
  have h₀ : Runs S (.start paths disk (some inode))
      (⟨fun _ => Pc.idle, .start paths disk (some inode)⟩ : Config τ Pc (Log τ)) := .start
  have h₂ := (h₀.move (t := t) rfl (.call x)).thread (.localtime (by simp [Log.start]) hx)
  have h₃ := h₂.move (t := u) (l := .idle) (Function.update_of_ne htu.symm ..) (.call y)
  have h₄ := h₃.thread (.localtime (by simp [Log.start, Log.localtime]) hy)
  -- now the `struct tm` is nobody's
  have h₅ := h₄.move (t := t) (l := .stamping x)
    (by rw [Function.update_of_ne htu, Function.update_self])
    (.strftime text (fun htm => by simp [Log.start, Log.localtime] at htm))
  exact ⟨_, h₅.thread (.lock rfl), rfl, rfl⟩

end Rotation

/-- The calls of the sample server that are logged. -/
theorem list_logged : loginServer.Logged (loginCall "[\"list\"]") := by
  decide +kernel

/-- Two threads, a log that is there, and none. -/
theorem rotation_safe_iff_login :
    (∀ c, Runs (τ := Bool) loginServer (.start (fun _ => 0) (fun _ => []) (some 0)) c →
        c.shared.fault = false
        ∧ ∀ f < c.shared.nextFile, (c.shared.files f).closes ≤ 1
          ∧ ((c.shared.files f).closes = 0
            ↔ c.shared.slowLogFp = some f ∨ ∃ t, Holds (c.pcs t) f))
      ∧ ¬ ∀ c, Runs (τ := Bool) loginServer (.start (fun _ => 0) (fun _ => []) none) c →
        c.shared.fault = false
        ∧ ∀ f < c.shared.nextFile, (c.shared.files f).closes ≤ 1
          ∧ ((c.shared.files f).closes = 0
            ↔ c.shared.slowLogFp = some f ∨ ∃ t, Holds (c.pcs t) f) := by
  constructor
  · exact (rotation_safe_iff loginServer (fun _ => 0) (fun _ => []) 0 true (some []) true rfl).mpr
      (Or.inr rfl)
  · intro hall
    rcases (rotation_safe_iff loginServer (fun _ => 0) (fun _ => []) 0 true none true rfl).mp hall
      with h | h
    · cases h
    · cases h

/-- An entry, a renaming and a reopening, and another entry. -/
theorem rotation_atomic_login :
    ∃ c, Runs (τ := Bool) loginServer (.start (fun _ => 0) (fun _ => []) (some 0)) c
      ∧ c.shared.disk 0 ++ c.shared.disk 1
        = (loginServer.run ⟨(), []⟩ [loginCall "[\"list\"]", loginCall "[\"list\"]"]).text := by
  have h₀ : Runs loginServer (.start (fun _ => 0) (fun _ => []) (some 0))
      (⟨Function.update (fun _ => Pc.idle) true Pc.idle,
        .start (fun _ => 0) (fun _ => []) (some 0)⟩ : Config Bool Pc (Log Bool)) := by
    rw [Function.update_eq_self]
    exact .start
  obtain ⟨g₁, h₁, hhist₁, hq₁, -⟩ := prints h₀ ⟨rfl, rfl, rfl, rfl⟩ list_logged
  have h₂ := Reachable.step h₁ (.outside (.rename (fun _ => 1)))
  obtain ⟨g₃, h₃, hhist₃, hq₃, -⟩ :=
    reopens h₂ ⟨hq₁.lock, hq₁.inside, hq₁.raced, hq₁.lost⟩ rfl []
  obtain ⟨g₄, h₄, hhist₄, hq₄, -⟩ := prints h₃ hq₃ list_logged
  have hhist : g₄.history = [.printed (loginCall "[\"list\"]") (stamp loginServer
      (loginCall "[\"list\"]")), .reopened 1, .printed (loginCall "[\"list\"]") (stamp loginServer
      (loginCall "[\"list\"]"))] := by
    rw [hhist₄, hhist₃]
    show (g₁.history ++ _) ++ _ = _
    rw [hhist₁]
    rfl
  obtain ⟨-, -, -, hall⟩ := rotation_atomic loginServer _ _ _ h₄
  obtain ⟨-, htext⟩ := (hall hq₄.lost).2 hq₄.lock
  rw [show (Config.mk _ g₄).shared.history = _ from hhist] at htext
  obtain ⟨htext', hrun⟩ := htext (by decide) (fun _ _ => rfl)
  rw [show (0 :: inodes _) = [0, 1] from rfl, List.flatMap_cons, List.flatMap_singleton] at htext'
  exact ⟨_, h₄, htext'.trans (hrun hq₄.raced ())⟩

end SearpcLogRotation
