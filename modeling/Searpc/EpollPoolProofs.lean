import Mathlib.Algebra.BigOperators.Group.Finset.Basic
import Mathlib.Algebra.Order.BigOperators.Group.Finset
import Mathlib.Data.Prod.Lex
import Mathlib.Logic.Relation
import Mathlib.Order.WellFounded
import Searpc.EpollModesProofs
import Searpc.ReplyFramesProofs

/-! # The epoll server with a pool — idle clients cost no thread

    With `use_epoll` a thread of the pool is given ONE request and then puts the
    connection back, so a client that keeps its connection open and says nothing
    takes no thread.  What does take one is a client in the middle of a request.
    While there are fewer of these than threads, the server left to itself comes
    to rest, whatever the order of its steps, and by then it has executed and
    answered every whole request that has arrived (`epoll_pool_serves`).

    The steps are those of the epoll server, the jobs taken in order, a job only
    when a thread is free, and only what can be read reported (`PoolStep`).  That
    the server comes to rest is a lexicographic descent (`alone_less`): bytes
    left to read, then places on the way from the epoll set through a worker and
    back, then bytes left to write.  That it does not come to rest too early
    rests on `Fed`: a connection is handed on because there is something to
    read, and nobody reads it in between. -/

namespace SearpcEpollPool

open ByteMemory Framing JsonValue SearpcJansson SearpcPipeIo SearpcRequest SearpcEpoll
open SearpcEpollFrames SearpcEpollServe
open SearpcEpollModes (oneRequest sends_oneRequest)
open SearpcReplyFrames (ReplyTo replied_reachable)
open SearpcThreadServer (Server cutLen cutLen_nil echoServer)
open Relation (ReflTransGen)

variable {σ : Type} {S : Server σ} {n : Nat} {w : σ} {s t : State σ}

/-! ## The server left to itself -/

/-- Bytes or the end of the stream have come. -/
def Readable (k : Conn) : Prop := k.inbox ≠ [] ∨ k.shut = true

/-- A step of the epoll server with a pool of `n` threads. -/
inductive PoolStep (S : Server σ) (n : Nat) : Label → State σ → State σ → Prop where
  | wait {s : State σ} {evs : List Event} (hb : s.batch = []) (hnd : (eventConns evs).Nodup)
      (hev : ∀ c hup, Event.conn c hup ∈ evs →
        (s.conns c).registered = true ∧ (hup = true → (s.conns c).shut = true))
      (hread : ∀ c, Event.conn c false ∈ evs → Readable (s.conns c)) :
      PoolStep S n .quiet s { s with batch := evs }
  | start {s : State σ} {c : Nat} {rest : List Nat} (hq : s.queue = c :: rest)
      (hn : s.workers.length < n) :
      PoolStep S n .quiet s { s with queue := rest, workers := s.workers ++ [⟨c, .enter⟩] }
  -- what takes no job and reports no event is as before
  | other {lb : Label} {s t : State σ} (h : Step S lb s t) (hqueue : s.queue <+: t.queue)
      (hbatch : t.batch <:+ s.batch) : PoolStep S n lb s t

/-- No system call failed. -/
def Healthy (lb : Label) : Prop := ∀ c, lb ≠ .failure c

/-- The states a server with a pool gets into when no system call fails. -/
inductive PoolReachable (S : Server σ) (n : Nat) (w : σ) : State σ → Prop where
  | start : PoolReachable S n w (.start w)
  | step {lb : Label} {s t : State σ} : PoolReachable S n w s → PoolStep S n lb s t →
      Healthy lb → PoolReachable S n w t

/-- Nobody has connected, sent anything or hung up. -/
structure SameClients (s t : State σ) : Prop where
  next    : t.next = s.next
  listen  : Event.listen ∈ t.batch → Event.listen ∈ s.batch
  pending : ∀ c, (t.conns c).pending = (s.conns c).pending
  shut    : ∀ c, (t.conns c).shut = (s.conns c).shut
  arrived : ∀ c, (t.conns c).consumed ++ (t.conns c).inbox
    = (s.conns c).consumed ++ (s.conns c).inbox

/-- A step of the server alone. -/
def Alone (S : Server σ) (n : Nat) (s t : State σ) : Prop :=
  ∃ lb, PoolStep S n lb s t ∧ Healthy lb ∧ SameClients s t

/-- A run of the server alone. -/
def ServerRun (S : Server σ) (n : Nat) : State σ → State σ → Prop := ReflTransGen (Alone S n)

/-- No step of the server changes anything. -/
def AtRest (S : Server σ) (n : Nat) (s : State σ) : Prop := ∀ t, Alone S n s t → t = s

theorem healthy_quiet : Healthy .quiet := by
  intro c h
  cases h

theorem healthy_hangup (c : Nat) : Healthy (.hangup c) := by
  intro d h
  cases h

theorem step_of_pool {lb : Label} (h : PoolStep S n lb s t) : Step S lb s t := by
  cases h with
  | wait hb hnd hev => exact .wait hb hnd hev
  | @start _ c rest hq =>
      have h : s.queue = [] ++ c :: rest := hq
      exact .start h
  | other h => exact h

theorem reachable_of_pool (h : PoolReachable S n w s) : Reachable S w s := by
  induction h with
  | start => exact .start
  | step _ hs _ ih => exact .step ih (step_of_pool hs)

/-- Of every connection: no failure, any hang-ups. -/
theorem reachableBy_of_pool (h : PoolReachable S n w s) (c : Nat) :
    ReachableBy S w (fun _ => False) (fun _ => True) c s := by
  induction h with
  | start => exact .start
  | step _ hs hlb ih =>
      exact .step ih (step_of_pool hs) ⟨fun h => absurd h (hlb c), fun _ => trivial⟩

theorem reachable_alone (h : PoolReachable S n w s) (ha : Alone S n s t) :
    PoolReachable S n w t := by
  obtain ⟨lb, hstep, hlb, -⟩ := ha
  exact .step h hstep hlb

theorem reachable_run (h : PoolReachable S n w s) (hrun : ServerRun S n s t) :
    PoolReachable S n w t := by
  induction hrun with
  | refl => exact h
  | tail _ ha ih => exact reachable_alone ih ha

theorem SameClients.trans {u : State σ} (h : SameClients s t) (h' : SameClients t u) :
    SameClients s u :=
  ⟨h'.next.trans h.next, fun hm => h.listen (h'.listen hm),
    fun c => (h'.pending c).trans (h.pending c), fun c => (h'.shut c).trans (h.shut c),
    fun c => (h'.arrived c).trans (h.arrived c)⟩

theorem sameClients_run (h : ServerRun S n s t) : SameClients s t := by
  induction h with
  | refl => exact ⟨rfl, id, fun _ => rfl, fun _ => rfl, fun _ => rfl⟩
  | tail _ ha ih =>
      obtain ⟨_, -, -, hsame⟩ := ha
      exact ih.trans hsame

/-! ## A worker does nothing for the client -/

/-- The client's side of a connection. -/
structure Kept (k k' : Conn) : Prop where
  pending : k'.pending = k.pending
  shut    : k'.shut = k.shut
  arrived : k'.consumed ++ k'.inbox = k.consumed ++ k.inbox

theorem Kept.refl (k : Conn) : Kept k k := ⟨rfl, rfl, rfl⟩

/-- A step of the server on one connection. -/
theorem sameClients_set {d : Nat} {k : Conn} (hconns : t.conns = (s.set d k).conns)
    (h : Kept (s.conns d) k) (hnext : t.next = s.next) (hevs : t.batch ⊆ s.batch) :
    SameClients s t := by
  have hset : ∀ c, Kept (s.conns c) (t.conns c) := by
    intro c
    rw [hconns]
    by_cases hc : c = d
    · rw [hc, s.set_same]
      exact h
    · rw [s.set_other hc]
      exact .refl _
  exact ⟨hnext, fun hm => hevs hm, fun c => (hset c).pending, fun c => (hset c).shut,
    fun c => (hset c).arrived⟩

theorem resumeRead_kept (S : Server σ) (ret : Int) (mem : Mem) (k : Conn) (w : σ)
    (stage : ReadStage) :
    Kept k (resumeRead S ret mem k w stage).2.1
      ∧ (resumeRead S ret mem k w stage).2.1.inbox = k.inbox := by
  rcases resumeRead_cases S ret mem k w stage with h | ⟨-, -, -, h⟩ | ⟨_, _, -, -, h⟩
  · rw [h]
    exact ⟨.refl k, rfl⟩
  · rw [h]
    exact ⟨.refl k, rfl⟩
  · rw [h]
    exact ⟨⟨rfl, rfl, rfl⟩, rfl⟩

theorem workerStep_kept {luck : Luck} {pc : WPc} {pc' : Option WPc} {k k' : Conn} {v v' : σ}
    (h : WorkerStep S luck (pc, k, v) (pc', k', v')) : Kept k k' := by
  cases h with
  | @read _ _ _ _ _ j =>
      refine ⟨rfl, rfl, ?_⟩
      show (k.consumed ++ k.inbox.take j) ++ k.inbox.drop j = k.consumed ++ k.inbox
      rw [List.append_assoc, List.take_append_drop]
  | @readEof stage _ _ _ ret mem =>
      obtain ⟨hpending, hshut, harrived⟩ := (resumeRead_kept S ret mem (k.run [.io]) v stage).1
      exact ⟨hpending, hshut, harrived⟩
  | @readError stage _ _ _ ret mem =>
      obtain ⟨hpending, hshut, harrived⟩ := (resumeRead_kept S ret mem (k.run [.io]) v stage).1
      exact ⟨hpending, hshut, harrived⟩
  | @readDone stage l =>
      generalize (l.ptr : Int) = ret
      exact (resumeRead_kept S ret l.mem k v stage).1
  | _ => exact ⟨rfl, rfl, rfl⟩

/-! ## The descent -/

/-- A position, by what is still to do: from the first byte read to the end.
    Before that byte it is the last of the places a connection goes through. -/
def rank : WPc → Nat
  | .tail => 1
  | .fail => 1
  | .reading .len l => if l.ptr = 0 then 2 else 12
  | .enter => 3
  | .add => 8
  | .writing .body _ => 9
  | .writing (.len _) _ => 10
  | .reading (.body _) _ => 11

/-- The bytes a worker has left to write. -/
def owed : WPc → Nat
  | .writing _ left => left.length
  | _ => 0

/-- The weight of a connection in the epoll set, smaller once it is reported. -/
def place (s : State σ) (c : Nat) : Nat :=
  if (s.conns c).registered = true then if c ∈ eventConns s.batch then 5 else 6 else 0

/-- The bytes left to read. -/
def unread (s : State σ) : Nat := ∑ c ∈ Finset.range s.next, (s.conns c).inbox.length

/-- The places of the connections, the jobs and the workers. -/
def places (s : State σ) : Nat :=
  ∑ c ∈ Finset.range s.next, place s c + 4 * s.queue.length
    + (s.workers.map (fun wk => rank wk.pc)).sum

/-- The events left to handle and the bytes left to write. -/
def due (s : State σ) : Nat := s.batch.length + (s.workers.map (fun wk => owed wk.pc)).sum

/-- What is left to do. -/
def toDo (s : State σ) : ℕ ×ₗ ℕ ×ₗ ℕ := toLex (unread s, toLex (places s, due s))

theorem toDo_lt_iff :
    toDo t < toDo s ↔ unread t < unread s ∨ unread t = unread s
      ∧ (places t < places s ∨ places t = places s ∧ due t < due s) := by
  rw [toDo, toDo, Prod.Lex.toLex_lt_toLex, Prod.Lex.toLex_lt_toLex]

/-- What a connection weighs in the epoll set. -/
def weight (k : Conn) : Nat := if k.registered = true then 6 else 0

def rankOf (pc : Option WPc) : Nat := (pc.map rank).getD 0

def owedOf (pc : Option WPc) : Nat := (pc.map owed).getD 0

theorem place_le (s : State σ) (c : Nat) : place s c ≤ weight (s.conns c) := by
  rw [place, weight]
  split
  · split <;> omega
  · exact Nat.le_refl 0

theorem rank_pos (pc : WPc) : 0 < rank pc := by
  cases pc with
  | reading stage l =>
      cases stage with
      | len =>
          rw [rank]
          split <;> omega
      | body => exact Nat.succ_pos _
  | writing stage left => cases stage <;> exact Nat.succ_pos _
  | _ => exact Nat.succ_pos _

/-- **WHAT A STEP OF A WORKER COMES TO**: nothing, when a signal came; bytes read;
    a step on its way; or bytes written. -/
inductive Advance (pc : WPc) (k : Conn) (v : σ) : Option WPc → Conn → σ → Prop where
  | same : Advance pc k v (some pc) k v
  | read {pc' : Option WPc} {k' : Conn} {v' : σ} (h : k'.inbox.length < k.inbox.length) :
      Advance pc k v pc' k' v'
  | moved {pc' : Option WPc} {k' : Conn} {v' : σ} (hi : k'.inbox = k.inbox)
      (h : weight k' + rankOf pc' < weight k + rank pc) : Advance pc k v pc' k' v'
  | wrote {pc' : Option WPc} {k' : Conn} {v' : σ} (hi : k'.inbox = k.inbox)
      (hk : weight k' = weight k) (hrank : rankOf pc' = rank pc) (h : owedOf pc' < owed pc) :
      Advance pc k v pc' k' v'

/-- Reading or writing an open connection leaves no trace. -/
theorem run_io {k : Conn} (hopen : k.closes = 0) : k.run [.io] = k := by
  cases k
  simp only at hopen
  subst hopen
  simp [Conn.run, Op.apply]

/-- A worker that has read nothing has not read a length. -/
theorem length_unread {k : Conn} {part : Bytes} {l : ReadLoop} (hr : ReadsAt S k part .len l)
    (hz : l.ptr = 0) : memWord S.endian l.mem = 0 := by
  obtain ⟨hle, rfl⟩ := hr
  obtain rfl : part = [] := List.length_eq_zero_iff.mp hz
  rw [memWord_part S hle, cutLen_nil]

/-- After a read a worker is further on its way. -/
theorem resumeRead_advance {stage : ReadStage} {l : ReadLoop} {k : Conn}
    (hf : Framed S (some (.reading stage l)) k) (ret : Int) (v : σ) :
    (resumeRead S ret l.mem k v stage).2.1.inbox = k.inbox
      ∧ weight (resumeRead S ret l.mem k v stage).2.1
          + rankOf (some (resumeRead S ret l.mem k v stage).1)
        < weight k + rank (.reading stage l) := by
  obtain ⟨part, -, hr⟩ := hf
  rcases resumeRead_cases S ret l.mem k v stage with
    h | ⟨rfl, -, hne, h⟩ | ⟨len, c, rfl, -, h⟩
  · rw [h]
    refine ⟨rfl, Nat.add_lt_add_left ?_ _⟩
    cases stage with
    | len =>
        show 1 < rank (.reading .len l)
        rw [rank]
        split <;> omega
    | body =>
        show 1 < 11
        omega
  · rw [h]
    refine ⟨rfl, Nat.add_lt_add_left ?_ _⟩
    show 11 < rank (.reading .len l)
    rw [rank, if_neg (fun hz => hne (length_unread hr hz))]
    omega
  · rw [h]
    refine ⟨rfl, Nat.add_lt_add_left ?_ (weight k)⟩
    show 10 < 11
    omega

/-- A step of a worker that meets with no failure. -/
theorem workerStep_advance {pc : WPc} {pc' : Option WPc} {k k' : Conn} {v v' : σ}
    (h : WorkerStep S .fine (pc, k, v) (pc', k', v')) (hf : Framed S (some pc) k)
    (hopen : pc ≠ .tail → k.closes = 0) : Advance pc k v pc' k' v' := by
  cases h with
  | enter => exact .moved rfl (Nat.add_lt_add_left (show 2 < 3 by omega) (weight k))
  | @read stage l l' _ _ j hj hl hi ht =>
      refine .read ?_
      show (k.inbox.drop j).length < k.inbox.length
      rw [List.length_drop]
      omega
  | readEintr hl ht =>
      injection ht with ht
      subst ht
      rw [run_io (hopen (by simp))]
      exact .same
  | @readEof stage l _ _ ret mem hl hi hs ht =>
      injection ht with _ hmem
      subst hmem
      rw [run_io (hopen (by simp))]
      obtain ⟨hinbox, hless⟩ := resumeRead_advance hf ret v
      exact .moved hinbox hless
  | @readDone stage l _ _ hl =>
      generalize (l.ptr : Int) = ret
      obtain ⟨hinbox, hless⟩ := resumeRead_advance hf ret v
      exact .moved hinbox hless
  | @write stage left left' _ _ j hj hl ht =>
      obtain rfl : left.drop j = left' := by
        cases j with
        | zero => cases ht
        | succ j => exact WriteTurn.more.inj ht
      refine .wrote rfl rfl ?_ ?_
      · cases stage <;> rfl
      · show (left.drop j).length < left.length
        rw [List.length_drop]
        omega
  | writeEintr hl ht =>
      injection ht with ht
      subst ht
      rw [run_io (hopen (by simp))]
      exact .same
  | @writeDone stage =>
      cases stage with
      | len => exact .moved rfl (Nat.add_lt_add_left (show 9 < 10 by omega) (weight k))
      | body => exact .moved rfl (Nat.add_lt_add_left (show 8 < 9 by omega) (weight k))
  | add =>
      refine .moved rfl ?_
      show 6 + 1 < weight k + 8
      omega
  | fail =>
      refine .moved rfl ?_
      show 0 + 0 < weight k + 1
      omega
  | tail => exact .moved rfl (Nat.lt_succ_self (weight k))

/-- Two sums that differ in one place. -/
theorem sum_one {m d : Nat} {f g : Nat → Nat} (hd : d < m) (h : ∀ c, c ≠ d → f c = g c) :
    ∑ c ∈ Finset.range m, f c + g d = ∑ c ∈ Finset.range m, g c + f d := by
  have hmem : d ∈ Finset.range m := Finset.mem_range.mpr hd
  have hrest : ∑ c ∈ (Finset.range m).erase d, f c = ∑ c ∈ (Finset.range m).erase d, g c :=
    Finset.sum_congr rfl (fun c hc => h c (Finset.ne_of_mem_erase hc))
  rw [← Finset.add_sum_erase _ f hmem, ← Finset.add_sum_erase _ g hmem, hrest]
  omega

/-- A connection that stays as it is, and as reported as it was, weighs the
    same. -/
theorem place_congr {c : Nat} (hk : t.conns c = s.conns c)
    (hevs : c ∈ eventConns t.batch ↔ c ∈ eventConns s.batch) : place t c = place s c := by
  simp only [place, hk, hevs]

/-- The bytes left to read, when one connection changes. -/
theorem unread_one {d : Nat} (hd : d < s.next) (hnext : t.next = s.next)
    (hother : ∀ c, c ≠ d → t.conns c = s.conns c) :
    unread t + (s.conns d).inbox.length = unread s + (t.conns d).inbox.length := by
  have h := sum_one (g := fun c => (s.conns c).inbox.length)
    (f := fun c => (t.conns c).inbox.length) hd (fun c hc => by rw [hother c hc])
  rw [unread, unread, hnext]
  exact h

/-- An event that is handled: its connection is taken out of the set, and queued
    or closed. -/
theorem event_less (ho : Owned s) {d : Nat} {hup : Bool} {evs : List Event}
    (hb : s.batch = .conn d hup :: evs) (hnext : t.next = s.next) (hbatch : t.batch = evs)
    (hworkers : t.workers = s.workers) (hother : ∀ c, c ≠ d → t.conns c = s.conns c)
    (hreg : (t.conns d).registered = false) (hi : (t.conns d).inbox = (s.conns d).inbox)
    (hq : t.queue.length ≤ s.queue.length + 1) : toDo t < toDo s := by
  have hin : d ∈ eventConns s.batch := by rw [hb]; exact List.mem_cons_self
  have hlt := (ho.registered (ho.events d hin)).1
  have hu := unread_one hlt hnext hother
  rw [hi] at hu
  have hsum := sum_one hlt (f := place t) (g := place s) (fun c hc => by
    refine place_congr (hother c hc) ?_
    rw [hbatch, hb, eventConns, List.mem_cons, or_iff_right hc])
  have hd : place t d = 0 := by
    rw [place, hreg]
    rfl
  have hd' : place s d = 5 := by
    rw [place, if_pos (ho.events d hin), if_pos hin]
  rw [hd, hd'] at hsum
  refine toDo_lt_iff.mpr (Or.inr ⟨Nat.add_right_cancel hu, Or.inl ?_⟩)
  rw [places, places, hnext, hworkers]
  omega

/-- The workers but one. -/
theorem sum_workers {wk : Worker} {pre post ws : List Worker} {pc' : Option WPc}
    (hw : s.workers = pre ++ wk :: post)
    (hws : ws = pre ++ (pc'.map (Worker.mk wk.conn)).toList ++ post) (f : WPc → Nat) :
    (ws.map (fun wk => f wk.pc)).sum + f wk.pc
      = (s.workers.map (fun wk => f wk.pc)).sum + (pc'.map f).getD 0 := by
  rw [hw, hws]
  cases pc' with
  | none =>
      simp
      omega
  | some pc =>
      simp
      omega

/-- A worker on its way out changes nothing but the number of workers. -/
theorem tail_less {wk : Worker} {pre post : List Worker} (hw : s.workers = pre ++ wk :: post) :
    toDo { s with workers := pre ++ post } < toDo s := by
  have hws : pre ++ post = pre ++ ((none : Option WPc).map (Worker.mk wk.conn)).toList ++ post := by
    simp
  have hsum := sum_workers hw hws rank
  have hpos := rank_pos wk.pc
  refine toDo_lt_iff.mpr (Or.inr ⟨rfl, Or.inl ?_⟩)
  have hnone : ((none : Option WPc).map rank).getD 0 = 0 := rfl
  rw [hnone] at hsum
  show ∑ c ∈ Finset.range s.next, place s c + 4 * s.queue.length
    + ((pre ++ post).map (fun wk => rank wk.pc)).sum < places s
  rw [places]
  omega

/-- A step of a worker that holds its connection. -/
theorem holder_less (ho : Owned s) {wk : Worker} {pre post ws : List Worker} {pc' : Option WPc}
    {k' : Conn} {v : σ} (hw : s.workers = pre ++ wk :: post) (hh : wk.holds = true)
    (hws : ws = pre ++ (pc'.map (Worker.mk wk.conn)).toList ++ post)
    (h : Advance wk.pc (s.conns wk.conn) s.world pc' k' v)
    (ht : t = { s.set wk.conn k' with workers := ws, world := v }) :
    t = s ∨ toDo t < toDo s := by
  obtain ⟨hlt, hreg, -, -, -, -⟩ := ho.held hw hh
  have hother : ∀ c, c ≠ wk.conn → t.conns c = s.conns c := by
    intro c hc
    rw [ht]
    exact s.set_other hc k'
  have hsame : t.conns wk.conn = k' := by
    rw [ht]
    exact s.set_same wk.conn k'
  have hnext : t.next = s.next := by rw [ht]; rfl
  have hbatch : t.batch = s.batch := by rw [ht]; rfl
  have hqueue : t.queue = s.queue := by rw [ht]; rfl
  have hworkers : t.workers = ws := by rw [ht]
  have hu := unread_one hlt hnext hother
  rw [hsame] at hu
  have hranks := sum_workers hw hws rank
  have howed := sum_workers hw hws owed
  have hplaces := sum_one hlt (f := place t) (g := place s)
    (fun c hc => place_congr (hother c hc) (by rw [hbatch]))
  -- not in the set before, and at most unreported afterwards
  have hplace : place s wk.conn = 0 ∧ weight (s.conns wk.conn) = 0 := by
    rw [place, weight, hreg]
    exact ⟨rfl, rfl⟩
  have hplace' := place_le t wk.conn
  rw [hsame] at hplace'
  rw [toDo_lt_iff, places, places, due, due, hnext, hbatch, hqueue, hworkers]
  cases h with
  | same =>
      left
      obtain rfl : ws = s.workers := by
        rw [hws, hw]
        simp
      rw [ht, s.set_self]
  | read h => exact Or.inr (Or.inl (by omega))
  | moved hi h =>
      rw [hi] at hu
      rw [rankOf] at h
      exact Or.inr (Or.inr ⟨Nat.add_right_cancel hu, Or.inl (by omega)⟩)
  | wrote hi hk hrank h =>
      rw [hi] at hu
      rw [rankOf] at hrank
      rw [owedOf] at h
      exact Or.inr (Or.inr ⟨Nat.add_right_cancel hu, Or.inr ⟨by omega, by omega⟩⟩)

/-- A step of a worker. -/
theorem worker_less (ho : Owned s)
    (hframed : ∀ wk ∈ s.workers, wk.holds = true → Framed S (some wk.pc) (s.conns wk.conn))
    {wk : Worker} {pre post ws : List Worker} {pc' : Option WPc} {k' : Conn} {v : σ}
    (hw : s.workers = pre ++ wk :: post)
    (hws : ws = pre ++ (pc'.map (Worker.mk wk.conn)).toList ++ post)
    (h : WorkerStep S .fine (wk.pc, s.conns wk.conn, s.world) (pc', k', v))
    (ht : t = { s.set wk.conn k' with workers := ws, world := v }) :
    t = s ∨ toDo t < toDo s := by
  by_cases hpc : wk.pc = .tail
  · right
    rw [hpc] at h
    cases h with
    | tail =>
        obtain rfl : ws = pre ++ post := by simpa using hws
        rw [ht, s.set_self]
        exact tail_less hw
  · have hh : wk.holds = true := by
      cases hp : wk.pc <;> simp_all [Worker.holds]
    have hmem : wk ∈ s.workers := by rw [hw]; exact List.mem_append_right _ List.mem_cons_self
    exact holder_less ho hw hh hws
      (workerStep_advance h (hframed wk hmem hh) (fun _ => (ho.held hw hh).2.2.2.2.2)) ht

/-- The connections reported in a batch weigh less. -/
theorem wait_less (ho : Owned s) {evs : List Event} (hb : s.batch = [])
    (hev : ∀ c hup, Event.conn c hup ∈ evs → (s.conns c).registered = true) (hne : evs ≠ [])
    (hlisten : Event.listen ∉ evs) : toDo { s with batch := evs } < toDo s := by
  obtain ⟨d, hup, hmem⟩ : ∃ d hup, Event.conn d hup ∈ evs := by
    cases evs with
    | nil => exact absurd rfl hne
    | cons ev evs =>
        cases ev with
        | listen => exact absurd List.mem_cons_self hlisten
        | conn d hup => exact ⟨d, hup, List.mem_cons_self⟩
  have hreg := hev d hup hmem
  have hlt := (ho.registered hreg).1
  have hold : ∀ c, place s c = weight (s.conns c) := by
    intro c
    rw [place, weight, hb]
    rfl
  have hsum : ∑ c ∈ Finset.range s.next, place { s with batch := evs } c
      < ∑ c ∈ Finset.range s.next, place s c := by
    refine Finset.sum_lt_sum (fun c _ => ?_) ⟨d, Finset.mem_range.mpr hlt, ?_⟩
    · rw [hold]
      exact place_le { s with batch := evs } c
    · rw [hold, weight, if_pos hreg, place, if_pos hreg,
        if_pos (eventConns_mem.mpr ⟨hup, hmem⟩)]
      omega
  refine toDo_lt_iff.mpr (Or.inr ⟨rfl, Or.inl ?_⟩)
  show ∑ c ∈ Finset.range s.next, place { s with batch := evs } c + 4 * s.queue.length
    + (s.workers.map (fun wk => rank wk.pc)).sum < places s
  rw [places]
  omega

/-- A job that is taken weighs less. -/
theorem start_less {c : Nat} {rest : List Nat} (hq : s.queue = c :: rest) :
    toDo { s with queue := rest, workers := s.workers ++ [⟨c, .enter⟩] } < toDo s := by
  refine toDo_lt_iff.mpr (Or.inr ⟨rfl, Or.inl ?_⟩)
  have hplace : place { s with queue := rest, workers := s.workers ++ [⟨c, .enter⟩] } = place s :=
    rfl
  have henter : rank .enter = 3 := rfl
  rw [places, places, hplace, hq]
  simp [henter]
  omega

/-- **THE DESCENT**: a step of the server alone changes nothing or leaves less to
    do. -/
theorem alone_less (h : PoolReachable S n w s) (ha : Alone S n s t) :
    t = s ∨ toDo t < toDo s := by
  obtain ⟨lb, hstep, hlb, hsame⟩ := ha
  have ho := owned_reachable (reachable_of_pool h)
  have hframed : ∀ wk ∈ s.workers, wk.holds = true →
      Framed S (some wk.pc) (s.conns wk.conn) := by
    intro wk hmem hh
    obtain ⟨pre, post, hw⟩ := List.append_of_mem hmem
    have hat := at_reachable (stable_framed S _ _) (reachableBy_of_pool h wk.conn)
    exact (hat (ho.held hw hh).1).2 wk hmem rfl hh
  cases hstep with
  | @wait _ evs hb hnd hev hread =>
      by_cases hne : evs = []
      · left
        rw [hne, ← hb]
      · right
        refine wait_less ho hb (fun c hup hmem => (hev c hup hmem).1) hne (fun hmem => ?_)
        have hold := hsame.listen hmem
        rw [hb] at hold
        exact absurd hold List.not_mem_nil
  | start hq hn => exact Or.inr (start_less hq)
  | other hstep hqueue hbatch =>
      cases hstep with
      | @wait _ evs hb =>
          left
          have hevs : evs <:+ s.batch := hbatch
          rw [hb, List.suffix_nil] at hevs
          rw [hevs, ← hb]
      | accept => exact absurd hsame.next (Nat.succ_ne_self _)
      | acceptFail => exact absurd hsame.next (Nat.succ_ne_self _)
      | @acceptDone _ evs hb =>
          right
          refine toDo_lt_iff.mpr (Or.inr ⟨rfl, Or.inr ⟨?_, ?_⟩⟩)
          · have hplace : place { s with batch := evs } = place s := by
              funext c
              refine place_congr rfl ?_
              show c ∈ eventConns evs ↔ c ∈ eventConns s.batch
              rw [hb]
              rfl
            show ∑ c ∈ Finset.range s.next, place { s with batch := evs } c
              + 4 * s.queue.length + (s.workers.map (fun wk => rank wk.pc)).sum = places s
            rw [hplace, places]
          · show evs.length + (s.workers.map (fun wk => owed wk.pc)).sum < due s
            rw [due, hb, List.length_cons]
            omega
      | @hangup _ c evs hb =>
          right
          refine event_less ho hb rfl rfl rfl (fun d hd => s.set_other hd _) ?_ ?_
            (Nat.le_succ _)
          all_goals
            rw [s.set_same]
            rfl
      | @ready _ c evs hb =>
          right
          refine event_less ho hb rfl rfl rfl (fun d hd => s.set_other hd _) ?_ ?_ ?_
          · rw [s.set_same]
            rfl
          · rw [s.set_same]
            rfl
          · simp
      | @start _ c pre post hq =>
          have hlen := hqueue.length_le
          rw [hq] at hlen
          simp at hlen
      | @work _ wk pre post luck pc' k' v hw hwork =>
          have hws : pre ++ ⟨wk.conn, pc'⟩ :: post
              = pre ++ ((some pc').map (Worker.mk wk.conn)).toList ++ post := by simp
          cases luck with
          | fine => exact worker_less ho hframed hw hws hwork rfl
          | failure => exact absurd rfl (hlb wk.conn)
      | @finish _ wk pre post luck k' v hw hwork =>
          have hws : pre ++ post
              = pre ++ ((none : Option WPc).map (Worker.mk wk.conn)).toList ++ post := by simp
          cases luck with
          | fine => exact worker_less ho hframed hw hws hwork rfl
          | failure => exact absurd rfl (hlb wk.conn)
      | @send _ c j hc =>
          left
          have hpending := hsame.pending c
          have harrived := hsame.arrived c
          rw [s.set_same] at hpending harrived
          have hdrop : (s.conns c).pending.drop j = (s.conns c).pending := hpending
          have hinbox : (s.conns c).inbox ++ (s.conns c).pending.take j = (s.conns c).inbox :=
            List.append_cancel_left harrived
          rw [hdrop, hinbox]
          exact s.set_self c
      | @shutdown _ c hc hp =>
          left
          have hshut := hsame.shut c
          rw [s.set_same] at hshut
          have hshut' : true = (s.conns c).shut := hshut
          rw [hshut']
          exact s.set_self c

/-- No run of the server alone goes on changing something. -/
theorem alone_terminates (h : PoolReachable S n w s) :
    ¬ ∃ f : Nat → State σ, f 0 = s ∧ ∀ i, Alone S n (f i) (f (i + 1)) ∧ f (i + 1) ≠ f i := by
  rintro ⟨f, hf, hstep⟩
  have hreach : ∀ i, PoolReachable S n w (f i) := by
    intro i
    induction i with
    | zero => exact hf ▸ h
    | succ i ih => exact reachable_alone ih (hstep i).1
  obtain ⟨i, hi⟩ := WellFounded.not_rel_apply_succ (r := (· < ·)) (fun i => toDo (f i))
  exact hi ((alone_less (hreach i) (hstep i).1).resolve_left (hstep i).2)

/-- A run of the server alone can be carried on until it comes to rest. -/
theorem comes_to_rest (h : PoolReachable S n w s) : ∃ t, ServerRun S n s t ∧ AtRest S n t := by
  -- by induction on what is left to do
  generalize hm : toDo s = m
  induction m using WellFoundedLT.induction generalizing s with
  | ind m ih =>
      by_cases hrest : AtRest S n s
      · exact ⟨s, .refl, hrest⟩
      · obtain ⟨u, hu, hne⟩ : ∃ u, Alone S n s u ∧ u ≠ s := by
          by_contra hno
          exact hrest (fun u hu => by_contra (fun hne => hno ⟨u, hu, hne⟩))
        have hless := (alone_less h hu).resolve_left hne
        obtain ⟨t, hrun, ht⟩ := ih (toDo u) (hm ▸ hless) (reachable_alone h hu) rfl
        exact ⟨t, ReflTransGen.head hu hrun, ht⟩

/-! ## What is handed on can be read -/

/-- A worker that has read nothing yet. -/
def AtStart : WPc → Prop
  | .enter => True
  | .reading .len l => l.ptr = 0
  | _ => False

/-- A connection reported, queued or with a worker that has read nothing. -/
def HandedOn (s : State σ) (c : Nat) : Prop :=
  Event.conn c false ∈ s.batch ∨ c ∈ s.queue ∨ ∃ wk ∈ s.workers, wk.conn = c ∧ AtStart wk.pc

/-- **NO WORKER FOR NOTHING**: what is handed on can be read. -/
def Fed (s : State σ) : Prop := ∀ c, HandedOn s c → Readable (s.conns c)

theorem atStart_holds {wk : Worker} (h : AtStart wk.pc) : wk.holds = true := by
  cases hpc : wk.pc with
  | tail =>
      rw [hpc] at h
      exact h.elim
  | _ => rw [Worker.holds, hpc]

/-- What is handed on has been accepted. -/
theorem handedOn_lt (ho : Owned s) {c : Nat} (h : HandedOn s c) : c < s.next := by
  rcases h with h | h | ⟨wk, hmem, rfl, hstart⟩
  · exact (ho.registered (ho.events c (eventConns_mem.mpr ⟨false, h⟩))).1
  · obtain ⟨pre, post, hq⟩ := List.append_of_mem h
    exact (ho.queued hq).1
  · obtain ⟨pre, post, hw⟩ := List.append_of_mem hmem
    exact (ho.held hw (atStart_holds hstart)).1

/-- A worker that has read nothing has read nothing before, and the bytes are all
    there. -/
theorem atStart_back {luck : Luck} {pc pc' : WPc} {k k' : Conn} {v v' : σ}
    (h : WorkerStep S luck (pc, k, v) (some pc', k', v')) (hstart : AtStart pc') :
    AtStart pc ∧ k'.inbox = k.inbox ∧ k'.shut = k.shut := by
  have hresume : ∀ (ret : Int) (mem : Mem) (k : Conn) (stage : ReadStage),
      ¬ AtStart (resumeRead S ret mem k v stage).1 := by
    intro ret mem k stage hs
    rcases resumeRead_cases S ret mem k v stage with h | ⟨-, -, -, h⟩ | ⟨_, _, -, -, h⟩
    · rw [h] at hs
      exact hs
    · rw [h] at hs
      exact hs
    · rw [h] at hs
      exact hs
  cases h with
  | enter => exact ⟨trivial, rfl, rfl⟩
  | @read stage l l' _ _ j hj hl hi ht =>
      have hne : k.inbox.take j ≠ [] := by
        apply List.ne_nil_of_length_pos
        rw [List.length_take]
        omega
      rw [readTurn_data l hne] at ht
      injection ht with ht
      subst ht
      cases stage with
      | len =>
          have hz : l.ptr + (k.inbox.take j).length = 0 := hstart
          rw [List.length_take] at hz
          omega
      | body => exact hstart.elim
  | readEintr hl ht =>
      injection ht with ht
      subst ht
      exact ⟨hstart, rfl, rfl⟩
  | readEof => exact absurd hstart (hresume _ _ _ _)
  | readError => exact absurd hstart (hresume _ _ _ _)
  | @readDone stage l =>
      generalize (l.ptr : Int) = ret at hstart
      exact absurd hstart (hresume ret l.mem k stage)
  | write => exact hstart.elim
  | writeEintr => exact hstart.elim
  | writeFail => exact hstart.elim
  | @writeDone stage => cases stage <;> exact hstart.elim
  | add => exact hstart.elim
  | addFail => exact hstart.elim

theorem Readable.congr {k k' : Conn} (h : Readable k) (hi : k'.inbox = k.inbox)
    (hs : k'.shut = k.shut) : Readable k' := by
  rw [Readable, hi, hs]
  exact h

/-- A step of a worker that holds its connection. -/
theorem fed_holder (ho : Owned s) (hfed : Fed s) {luck : Luck} {wk : Worker}
    {pre post : List Worker} {pc' : Option WPc} {k' : Conn} {v : σ}
    (hw : s.workers = pre ++ wk :: post) (hh : wk.holds = true)
    (h : WorkerStep S luck (wk.pc, s.conns wk.conn, s.world) (pc', k', v))
    {x : Worker} (hx : x ∈ pre ++ (pc'.map (Worker.mk wk.conn)).toList ++ post)
    (hconn : x.conn = wk.conn) (hstart : AtStart x.pc) : Readable k' := by
  obtain ⟨-, -, -, hpre, hpost, -⟩ := ho.held hw hh
  rcases List.mem_append.mp hx with hx | hx
  · rcases List.mem_append.mp hx with hx | hx
    · exact absurd (atStart_holds hstart) (no_holder hpre hx hconn)
    · cases pc' with
      | none => exact absurd hx List.not_mem_nil
      | some pc =>
          rw [show x = ⟨wk.conn, pc⟩ from List.mem_singleton.mp hx] at hstart
          obtain ⟨hback, hi, hs⟩ := atStart_back h hstart
          have hmem : wk ∈ s.workers := by
            rw [hw]
            exact List.mem_append_right _ List.mem_cons_self
          exact (hfed wk.conn (Or.inr (Or.inr ⟨wk, hmem, rfl, hback⟩))).congr hi hs
  · exact absurd (atStart_holds hstart) (no_holder hpost hx hconn)

/-- A step of a worker. -/
theorem fed_work (ho : Owned s) (hfed : Fed s) {luck : Luck} {wk : Worker}
    {pre post ws : List Worker} {pc' : Option WPc} {k' : Conn} {v : σ}
    (hw : s.workers = pre ++ wk :: post)
    (hws : ws = pre ++ (pc'.map (Worker.mk wk.conn)).toList ++ post)
    (h : WorkerStep S luck (wk.pc, s.conns wk.conn, s.world) (pc', k', v)) :
    Fed { s.set wk.conn k' with workers := ws, world := v } := by
  intro c hc
  show Readable ((s.set wk.conn k').conns c)
  -- nobody else touches the worker's connection, and it touches no other
  by_cases hd : c = wk.conn ∧ wk.pc ≠ .tail
  · obtain ⟨rfl, hpc⟩ := hd
    have hh : wk.holds = true := by
      cases hp : wk.pc <;> simp_all [Worker.holds]
    obtain ⟨-, hreg, hcount, -, -, -⟩ := ho.held hw hh
    have hbatch : Event.conn wk.conn false ∉ s.batch := by
      intro hmem
      rw [ho.events _ (eventConns_mem.mpr ⟨false, hmem⟩)] at hreg
      cases hreg
    rw [s.set_same]
    rcases hc with hmem | hmem | ⟨x, hx, hconn, hstart⟩
    · exact absurd hmem hbatch
    · exact absurd hmem (List.count_eq_zero.mp hcount)
    · exact fed_holder ho hfed hw hh h (hws ▸ hx) hconn hstart
  · have hsame : (s.set wk.conn k').conns c = s.conns c := by
      by_cases hne : c = wk.conn
      · have hpc : wk.pc = .tail := by_contra (fun hpc => hd ⟨hne, hpc⟩)
        rw [hpc] at h
        cases h with
        | tail => rw [s.set_self]
      · exact s.set_other hne k'
    have hback : ∀ x ∈ ws, x.conn = c → x ∈ s.workers := by
      intro x hx hconn
      rw [hw]
      refine mem_of_replaced (hws ▸ hx) ?_
      by_cases hne : c = wk.conn
      · have hpc : wk.pc = .tail := by_contra (fun hpc => hd ⟨hne, hpc⟩)
        rw [hpc] at h
        cases h with
        | tail => exact Or.inl rfl
      · exact Or.inr (fun heq => hne (hconn.symm.trans heq))
    rw [hsame]
    rcases hc with hmem | hmem | ⟨x, hx, hconn, hstart⟩
    · exact hfed c (Or.inl hmem)
    · exact hfed c (Or.inr (Or.inl hmem))
    · exact hfed c (Or.inr (Or.inr ⟨x, hback x hx hconn, hconn, hstart⟩))

/-- A step on one connection that leaves what has come and hands nothing else
    on. -/
theorem fed_set (hfed : Fed s) {d : Nat} {k : Conn} (hconns : t.conns = (s.set d k).conns)
    (hk : Readable (s.conns d) → Readable k)
    (hhanded : ∀ c, HandedOn t c → HandedOn s c) : Fed t := by
  intro c hc
  rw [hconns]
  have hread := hfed c (hhanded c hc)
  by_cases hd : c = d
  · subst hd
    rw [s.set_same]
    exact hk hread
  · rw [s.set_other hd]
    exact hread

/-- Every step of the server with a pool, and of its clients. -/
theorem fed_step (ho : Owned s) (hfed : Fed s) {lb : Label} (h : PoolStep S n lb s t) : Fed t := by
  cases h with
  | wait hb hnd hev hread =>
      intro c hc
      rcases hc with hmem | hmem | hmem
      · exact hread c hmem
      · exact hfed c (Or.inr (Or.inl hmem))
      · exact hfed c (Or.inr (Or.inr hmem))
  | @start _ d rest hq hn =>
      intro c hc
      refine hfed c ?_
      rcases hc with hmem | hmem | ⟨x, hx, hconn, hstart⟩
      · exact Or.inl hmem
      · refine Or.inr (Or.inl ?_)
        rw [hq]
        exact List.mem_cons_of_mem d hmem
      · rcases List.mem_append.mp hx with hx | hx
        · exact Or.inr (Or.inr ⟨x, hx, hconn, hstart⟩)
        · refine Or.inr (Or.inl ?_)
          obtain rfl : d = c := by
            rw [List.mem_singleton.mp hx] at hconn
            exact hconn
          rw [hq]
          exact List.mem_cons_self
  | other hstep hqueue hbatch =>
      have hsub : ∀ {c : Nat}, Event.conn c false ∈ t.batch → Event.conn c false ∈ s.batch :=
        fun hmem => hbatch.subset hmem
      cases hstep with
      | wait => exact fun c hc => hfed c (hc.imp_left (fun hmem => hsub hmem))
      | @accept _ _ stream =>
          -- nobody can have handed on a connection that was not there
          intro c hc
          have hne : c ≠ s.next := Nat.ne_of_lt (handedOn_lt ho hc)
          show Readable ((s.set s.next _).conns c)
          rw [s.set_other hne]
          exact hfed c hc
      | @acceptFail _ _ stream =>
          intro c hc
          have hne : c ≠ s.next := Nat.ne_of_lt (handedOn_lt ho hc)
          show Readable ((s.set s.next _).conns c)
          rw [s.set_other hne]
          exact hfed c hc
      | acceptDone => exact fun c hc => hfed c (hc.imp_left (fun hmem => hsub hmem))
      | hangup =>
          exact fed_set hfed rfl (fun hread => hread)
            (fun c hc => hc.imp_left (fun hmem => hsub hmem))
      | @ready _ d evs hb =>
          refine fed_set hfed rfl (fun hread => hread) (fun c hc => ?_)
          rcases hc with hmem | hmem | hmem
          · exact Or.inl (hsub hmem)
          · rcases List.mem_append.mp hmem with hmem | hmem
            · exact Or.inr (Or.inl hmem)
            · left
              rw [hb, List.mem_singleton.mp hmem]
              exact List.mem_cons_self
          · exact Or.inr (Or.inr hmem)
      | @start _ c pre post hq =>
          have hlen := hqueue.length_le
          rw [hq] at hlen
          simp at hlen
      | work hw hwork => exact fed_work ho hfed hw (by simp) hwork
      | @finish _ wk pre post _ _ _ hw hwork =>
          have hws : pre ++ post
              = pre ++ ((none : Option WPc).map (Worker.mk wk.conn)).toList ++ post := by simp
          exact fed_work ho hfed hw hws hwork
      | @send _ c j hc =>
          refine fed_set hfed rfl (fun hread => hread.imp_left (fun hne => ?_)) (fun _ hc => hc)
          exact List.append_ne_nil_of_left_ne_nil hne _
      | shutdown => exact fed_set hfed rfl (fun _ => Or.inr rfl) (fun _ hc => hc)

/-- In every state of a server with a pool. -/
theorem fed_reachable (h : PoolReachable S n w s) : Fed s := by
  induction h with
  | start =>
      intro c hc
      rcases hc with hmem | hmem | ⟨_, hmem, -⟩
      · exact absurd hmem List.not_mem_nil
      · exact absurd hmem List.not_mem_nil
      · exact absurd hmem List.not_mem_nil
  | step hr hs _ ih => exact fed_step (owned_reachable (reachable_of_pool hr)) ih hs

/-! ## Nobody is given up for nothing -/

/-- A client that has sent the beginning of a stream of whole requests, and has
    not hung up, is not given up. -/
def Trusted (S : Server σ) : ConnProp := fun p k =>
  Framed S p k ∧ (k.shut = false →
    (∃ fs rest, Sends S fs (k.consumed ++ k.inbox ++ rest)) →
    ¬ (p = some .fail ∨ p = none ∧ k.closes ≠ 0))

theorem Trusted.of_busy {pc : WPc} {k : Conn} (hf : Framed S (some pc) k) (hpc : pc ≠ .fail) :
    Trusted S (some pc) k := by
  refine ⟨hf, fun _ _ => ?_⟩
  rintro (h | ⟨h, -⟩)
  · exact hpc (Option.some.inj h)
  · cases h

/-- A whole header or body is not refused, whatever its client sends behind it. -/
theorem readDone_goes_on {fs : List Bytes} {rest : Bytes} {stage : ReadStage} {l : ReadLoop}
    {k : Conn} (hf : Framed S (some (.reading stage l)) k) (hs : k.shut = false)
    (h : Sends S fs (k.consumed ++ k.inbox ++ rest)) (hl : l.nleft = 0) (v : σ) :
    (resumeRead S l.ptr l.mem k v stage).1 ≠ .fail := by
  obtain ⟨part, hp, hr⟩ := hf
  have hno : ¬ AtEof k := by
    rintro ⟨-, -, heof⟩
    rw [hs] at heof
    cases heof
  -- the client that sends `rest` and no more
  have hp' : Parsed S { k with pending := rest } part := by
    obtain ⟨-, whole, bs, hbs, hserved, hcut⟩ := hp
    refine ⟨fun heof => ?_, whole, bs, hbs, hserved, fun hw => absurd (hcut hw).1 hno⟩
    have heof' : k.shut = true := heof
    rw [hs] at heof'
    cases heof'
  have hr' : ReadsAt S { k with pending := rest } part stage l :=
    hr.mono (fun heof => absurd heof hno)
  have hpc : ∀ ret : Int, (resumeRead S ret l.mem { k with pending := rest } v stage).1
      = (resumeRead S ret l.mem k v stage).1 := by
    intro ret
    cases stage with
    | len =>
        simp only [resumeRead]
        split
        · rfl
        · split <;> rfl
    | body len =>
        simp only [resumeRead]
        split
        · rfl
        · cases requestFromJson S.json (slice l.mem len) <;> rfl
  rw [← hpc]
  cases stage with
  | len => exact readLen_goes_on h hp' hr' hl v
  | body len => exact readBody_goes_on h hp' hr' hl v

theorem trusted_work {pc : WPc} {pc' : Option WPc} {k k' : Conn} {v v' : σ} (hopen : k.closes = 0)
    (h : WorkerStep S .fine (pc, k, v) (pc', k', v')) (ht : Trusted S (some pc) k) :
    Trusted S (position pc') k' := by
  have hkept := workerStep_kept h
  have hf' := framed_work h ht.1
  refine ⟨hf', fun hshut hsends => ?_⟩
  rw [hkept.shut] at hshut
  rw [hkept.arrived] at hsends
  obtain ⟨hf, hgone⟩ := ht
  have hpc := hgone hshut hsends
  obtain ⟨fs, rest, hsends⟩ := hsends
  cases h with
  | @readEof stage l _ _ ret mem hl hi hs ht =>
      rw [hshut] at hs
      cases hs
  | @readDone stage l _ _ hl =>
      have hne := readDone_goes_on hf hshut hsends hl v
      generalize (l.ptr : Int) = ret at hne ⊢
      exact not_gone hne (resumeRead_owner S ret l.mem k v stage).2
  | @writeDone stage => cases stage <;> simp [resumeWrite, position]
  | add =>
      rintro (h | ⟨-, h⟩)
      · cases h
      · exact h hopen
  | fail => exact absurd (Or.inl rfl) hpc
  | tail =>
      rintro (h | ⟨-, h⟩)
      · cases h
      · exact h hopen
  | _ => simp [position]

theorem stable_trusted (S : Server σ) : Stable S (fun _ => False) (fun _ => True) (Trusted S) where
  accept stream := by
    refine ⟨(stable_framed S (fun _ => False) (fun _ => True)).accept stream, fun _ _ => ?_⟩
    rintro (h | ⟨-, h⟩)
    · cases h
    · exact h rfl
  acceptFail hno := hno.elim
  hangup k hopen ht hs hh := by
    refine ⟨(stable_framed S (fun _ => False) (fun _ => True)).hangup k hopen ht.1 hs hh,
      fun hshut _ => ?_⟩
    have hshut' : k.shut = false := hshut
    rw [hs] at hshut'
    cases hshut'
  ready k hopen ht := ht
  start k hopen ht :=
    .of_busy ((stable_framed S (fun _ => False) (fun _ => True)).start k hopen ht.1) (by simp)
  work luck pc k v pc' k' v' hluck _ hopen h ht := by
    rcases hluck with rfl | hno
    · exact trusted_work hopen h ht
    · exact hno.elim
  send p k j ht := by
    refine ⟨(stable_framed S (fun _ => False) (fun _ => True)).send p k j ht.1,
      fun hshut hsends => ht.2 hshut ?_⟩
    -- what had come before is the beginning of what has come now
    obtain ⟨fs, rest, hsends⟩ := hsends
    refine ⟨fs, k.pending.take j ++ rest, ?_⟩
    simpa [List.append_assoc] using hsends
  shutdown p k hpend ht :=
    ⟨(stable_framed S (fun _ => False) (fun _ => True)).shutdown p k hpend ht.1,
      fun hshut _ => absurd hshut.symm Bool.false_ne_true⟩

/-! ## The server at rest -/

/-- The batch has been handled. -/
theorem atRest_batch (h : AtRest S n s) : s.batch = [] := by
  have hshorter : ∀ {t : State σ} {ev : Event} {evs : List Event}, s.batch = ev :: evs →
      Alone S n s t → t.batch = evs → False := by
    intro t ev evs hb ha ht
    rw [h t ha, hb] at ht
    exact absurd ht (List.cons_ne_self ev evs)
  cases hb : s.batch with
  | nil => rfl
  | cons ev evs =>
      have hsub : evs ⊆ s.batch := by
        rw [hb]
        exact List.subset_cons_self ev evs
      have hsuffix : evs <:+ s.batch := by
        rw [hb]
        exact List.suffix_cons ev evs
      exfalso
      cases ev with
      | listen =>
          refine hshorter (t := { s with batch := evs }) hb
            ⟨.quiet, .other (.acceptDone hb) (List.prefix_refl _) hsuffix, healthy_quiet, ?_⟩ rfl
          exact ⟨rfl, fun hm => hsub hm, fun _ => rfl, fun _ => rfl, fun _ => rfl⟩
      | conn c hup =>
          cases hup with
          | true =>
              exact hshorter hb ⟨.hangup c, .other (.hangup hb) (List.prefix_refl _) hsuffix,
                healthy_hangup c, sameClients_set rfl ⟨rfl, rfl, rfl⟩ rfl hsub⟩ rfl
          | false =>
              exact hshorter hb ⟨.quiet, .other (.ready hb) (List.prefix_append _ _) hsuffix,
                healthy_quiet, sameClients_set rfl ⟨rfl, rfl, rfl⟩ rfl hsub⟩ rfl

theorem resumeRead_moves (S : Server σ) (ret : Int) (mem : Mem) (k : Conn) (v : σ)
    (stage : ReadStage) (l : ReadLoop) :
    (resumeRead S ret mem k v stage).1 ≠ .reading stage l := by
  rcases resumeRead_cases S ret mem k v stage with h | ⟨rfl, -, -, h⟩ | ⟨_, _, rfl, -, h⟩
  · rw [h]
    simp
  · rw [h]
    simp
  · rw [h]
    simp

/-- A worker that does not wait for its client can go on. -/
theorem worker_moves (S : Server σ) {pc : WPc} {k : Conn} (v : σ) (hno : ¬ Waits pc k) :
    ∃ out, WorkerStep S .fine (pc, k, v) out ∧ out.1 ≠ some pc := by
  cases pc with
  | enter => exact ⟨_, .enter, by simp⟩
  | reading stage l =>
      rcases Nat.eq_zero_or_pos l.nleft with hz | hpos
      · exact ⟨_, .readDone hz,
          fun h => resumeRead_moves S l.ptr l.mem k v stage l (Option.some.inj h)⟩
      · by_cases hi : k.inbox = []
        · cases hs : k.shut with
          | false => exact absurd ⟨stage, l, rfl, hpos, hi, hs⟩ hno
          | true =>
              exact ⟨_, .readEof hpos hi hs rfl,
                fun h => resumeRead_moves S _ l.mem _ v stage l (Option.some.inj h)⟩
        · have hlen : 0 < k.inbox.length := List.length_pos_of_ne_nil hi
          have htake : (k.inbox.take 1).length = 1 := by
            rw [List.length_take]
            omega
          have hne : k.inbox.take 1 ≠ [] := List.ne_nil_of_length_pos (by omega)
          refine ⟨_, .read Nat.one_pos hpos hlen (readTurn_data l hne), fun h => ?_⟩
          -- there is less to read
          have hloop := congrArg ReadLoop.nleft (WPc.reading.inj (Option.some.inj h)).2
          simp only [htake] at hloop
          omega
  | writing stage left =>
      cases left with
      | nil =>
          refine ⟨_, .writeDone, ?_⟩
          cases stage <;> simp [resumeWrite]
      | cons b bs =>
          refine ⟨_, .write Nat.one_pos (Nat.succ_pos _) rfl, ?_⟩
          simp
  | add => exact ⟨_, .add, by simp⟩
  | fail => exact ⟨_, .fail, by simp⟩
  | tail => exact ⟨_, .tail, by simp⟩

/-- Every worker waits for its client. -/
theorem atRest_worker (h : AtRest S n s) {wk : Worker} (hmem : wk ∈ s.workers) :
    Waits wk.pc (s.conns wk.conn) := by
  obtain ⟨pre, post, hw⟩ := List.append_of_mem hmem
  by_contra hno
  obtain ⟨⟨pc', k', v⟩, hstep, hne⟩ := worker_moves S s.world hno
  cases pc' with
  | none =>
      have hsame := h _ ⟨.quiet, .other (.finish hw hstep) (List.prefix_refl _)
        (List.suffix_refl _), healthy_quiet,
        sameClients_set rfl (workerStep_kept hstep) rfl (List.Subset.refl _)⟩
      have hws : pre ++ post = s.workers := congrArg State.workers hsame
      rw [hw] at hws
      have hlen := congrArg List.length hws
      simp at hlen
  | some pc =>
      have hsame := h _ ⟨.quiet, .other (.work hw hstep) (List.prefix_refl _)
        (List.suffix_refl _), healthy_quiet,
        sameClients_set rfl (workerStep_kept hstep) rfl (List.Subset.refl _)⟩
      have hws : pre ++ ⟨wk.conn, pc⟩ :: post = s.workers := congrArg State.workers hsame
      rw [hw] at hws
      have hwk : Worker.mk wk.conn pc = wk := (List.cons.inj (List.append_cancel_left hws)).1
      exact hne (congrArg (fun wk => some wk.pc) hwk)

/-- While a thread is free no job is left. -/
theorem atRest_queue (h : AtRest S n s) (hn : s.workers.length < n) : s.queue = [] := by
  cases hq : s.queue with
  | nil => rfl
  | cons c rest =>
      have hsame := h _ ⟨.quiet, .start hq hn, healthy_quiet, rfl, id, fun _ => rfl, fun _ => rfl,
        fun _ => rfl⟩
      have hqueue : rest = s.queue := congrArg State.queue hsame
      rw [hq] at hqueue
      exact absurd hqueue.symm (List.cons_ne_self c rest)

/-- Nothing is left to be reported. -/
theorem atRest_registered (h : AtRest S n s) {c : Nat} (hreg : (s.conns c).registered = true) :
    ¬ Readable (s.conns c) := by
  intro hread
  have hb := atRest_batch h
  have hev : ∀ d hup, Event.conn d hup ∈ [Event.conn c false] →
      (s.conns d).registered = true ∧ (hup = true → (s.conns d).shut = true) := by
    intro d hup hmem
    obtain ⟨rfl, rfl⟩ := Event.conn.inj (List.mem_singleton.mp hmem)
    exact ⟨hreg, fun hup => absurd hup Bool.false_ne_true⟩
  have hsame := h { s with batch := [.conn c false] } ⟨.quiet,
    .wait hb (List.nodup_singleton c) hev (fun d hmem => by
      obtain ⟨rfl, -⟩ := Event.conn.inj (List.mem_singleton.mp hmem)
      exact hread),
    healthy_quiet, rfl, (fun hm => absurd (List.mem_singleton.mp hm) (by simp)), fun _ => rfl,
    fun _ => rfl, fun _ => rfl⟩
  have hbatch : [Event.conn c false] = s.batch := congrArg State.batch hsame
  rw [hb] at hbatch
  cases hbatch

/-- A client in the middle of a request: it has not hung up, and what has come
    from it is not a sequence of whole frames. -/
def Midway (S : Server σ) (k : Conn) : Prop :=
  k.shut = false ∧ ¬ ∃ ps : List Bytes,
    k.consumed ++ k.inbox = ps.flatMap (encodeFrame S.endian)
      ∧ ∀ p ∈ ps, 0 < p.length ∧ p.length < 2 ^ 32

/-- **WHO TAKES A THREAD**: a worker waits for nobody but a client in the middle
    of a request. -/
theorem waits_midway {pc : WPc} {k : Conn} (hf : Framed S (some pc) k) (hw : Waits pc k)
    (hstart : AtStart pc → Readable k) : Midway S k := by
  obtain ⟨stage, l, rfl, hl, hi, hs⟩ := hw
  have hunread : ¬ Readable k := by
    rintro (h | h)
    · exact h hi
    · rw [hs] at h
      cases h
  have hno : ¬ AtEof k := by
    rintro ⟨-, -, heof⟩
    rw [hs] at heof
    cases heof
  refine ⟨hs, ?_⟩
  rintro ⟨ps, hps, hbounds⟩
  obtain ⟨part, ⟨-, whole, bs, hbs, hserved, hcut⟩, hr⟩ := hf
  cases whole with
  | false => exact hno (hcut rfl).1
  | true =>
      -- the part read would be whole frames again
      obtain ⟨qs, rfl, -, hqs⟩ := served_payloads hserved
      rw [hi, List.append_nil, hbs] at hps
      obtain ⟨rs, rfl, hpart⟩ := frames_align qs ps hqs hbounds hps
      cases rs with
      | nil =>
          rw [List.flatMap_nil] at hpart
          subst hpart
          cases stage with
          | len =>
              obtain ⟨-, rfl⟩ := hr
              exact hunread (hstart rfl)
          | body len =>
              obtain ⟨-, -, -, heof, -⟩ := hr
              exact hno (heof (by simp))
      | cons r rs =>
          have hbound := hbounds r (List.mem_append_right qs List.mem_cons_self)
          have hcutLen : cutLen S part = r.length := by
            rw [hpart, List.flatMap_cons]
            exact cutLen_frame S hbound.2
          have hlen : 4 + r.length ≤ part.length := by
            rw [hpart, List.flatMap_cons, List.length_append, encodeFrame_length]
            omega
          cases stage with
          | len =>
              obtain ⟨hle, rfl⟩ := hr
              have hleft : 0 < 4 - part.length := hl
              omega
          | body len =>
              obtain ⟨-, hcut, -, -, rfl⟩ := hr
              have hleft : 0 < len - (part.length - 4) := hl
              omega

/-- The worker of a connection waits for a client in the middle of a request. -/
theorem worker_midway (h : PoolReachable S n w s) (hrest : AtRest S n s) {wk : Worker}
    (hmem : wk ∈ s.workers) :
    wk.holds = true ∧ wk.conn < s.next ∧ Midway S (s.conns wk.conn) := by
  have ho := owned_reachable (reachable_of_pool h)
  have hw := atRest_worker hrest hmem
  have hh : wk.holds = true := by
    obtain ⟨_, _, hpc, -⟩ := hw
    rw [Worker.holds, hpc]
  obtain ⟨pre, post, hsplit⟩ := List.append_of_mem hmem
  have hlt := (ho.held hsplit hh).1
  have hat := at_reachable (stable_framed S _ _) (reachableBy_of_pool h wk.conn)
  exact ⟨hh, hlt, waits_midway ((hat hlt).2 wk hmem rfl hh) hw (fun hstart =>
    fed_reachable h wk.conn (Or.inr (Or.inr ⟨wk, hmem, rfl, hstart⟩)))⟩

/-- There are no more workers than clients in the middle of a request. -/
theorem workers_le (h : PoolReachable S n w s) (hrest : AtRest S n s) {M : Finset Nat}
    (hM : ∀ c < s.next, Midway S (s.conns c) → c ∈ M) : s.workers.length ≤ M.card := by
  have ho := owned_reachable (reachable_of_pool h)
  have hcount : ∀ c, (s.workers.map Worker.conn).count c = holders s.workers c := by
    intro c
    rw [List.count, List.countP_map, holders]
    refine List.countP_congr (fun wk hmem => ?_)
    simp [(worker_midway h hrest hmem).1]
  have hnodup : (s.workers.map Worker.conn).Nodup := by
    refine List.nodup_iff_count_le_one.mpr (fun c => ?_)
    rw [hcount]
    by_cases hc : c < s.next
    · have hone := ho.one c hc
      rw [tokens] at hone
      omega
    · have hnone := ho.none c (Nat.le_of_not_lt hc)
      rw [tokens] at hnone
      omega
  have hsub : (s.workers.map Worker.conn).toFinset ⊆ M := by
    intro c hc
    obtain ⟨wk, hmem, rfl⟩ := List.mem_map.mp (List.mem_toFinset.mp hc)
    obtain ⟨-, hlt, hmid⟩ := worker_midway h hrest hmem
    exact hM wk.conn hlt hmid
  have hcard := Finset.card_le_card hsub
  rw [List.toFinset_card_of_nodup hnodup, List.length_map] at hcard
  exact hcard

/-- A connection back in the epoll set, all its requests executed and all the
    replies written. -/
structure Attended (S : Server σ) (fs : List Bytes) (k : Conn) : Prop where
  registered : k.registered = true
  inbox      : k.inbox = []
  calls      : (k.calls.map Prod.snd).map some = fs.map (requestFromJson S.json)
  replies    : ∃ rs, List.Forall₂ (ReplyTo S) (k.calls.map Prod.snd) rs
    ∧ k.out = rs.flatMap (encodeFrame S.endian)

section Rested

variable (h : PoolReachable S n w s) (hrest : AtRest S n s)
include h hrest

/-- While a thread is free nobody but a worker or the epoll set has a
    connection. -/
theorem one_place (hn : s.workers.length < n) {c : Nat} (hc : c < s.next) :
    (if (s.conns c).registered then 1 else 0) + holders s.workers c + (s.conns c).closes = 1 := by
  have hone := (owned_reachable (reachable_of_pool h)).one c hc
  rw [tokens, atRest_queue hrest hn, List.count_nil, Nat.add_zero] at hone
  exact hone

/-- A client that has hung up has been closed. -/
theorem shut_closed (hn : s.workers.length < n) {c : Nat} (hc : c < s.next)
    (hs : (s.conns c).shut = true) : (s.conns c).closes = 1 := by
  have hone := one_place h hrest hn hc
  have hreg : ¬ (s.conns c).registered = true := fun hreg =>
    atRest_registered hrest hreg (Or.inr hs)
  have hholders : holders s.workers c = 0 := by
    refine List.countP_eq_zero.mpr (fun wk hmem hwk => ?_)
    obtain ⟨rfl, -⟩ := of_decide_eq_true hwk
    have hmid := (worker_midway h hrest hmem).2.2.1
    rw [hs] at hmid
    cases hmid
  rw [if_neg hreg, hholders] at hone
  omega

/-- A client that has sent whole requests and waits has been attended to. -/
theorem whole_attended (hn : s.workers.length < n) {c : Nat} (hc : c < s.next) {fs : List Bytes}
    (hs : (s.conns c).shut = false)
    (hsends : Sends S fs ((s.conns c).consumed ++ (s.conns c).inbox)) :
    Attended S fs (s.conns c) := by
  have hholders : holders s.workers c = 0 := by
    refine List.countP_eq_zero.mpr (fun wk hmem hwk => ?_)
    obtain ⟨rfl, -⟩ := of_decide_eq_true hwk
    exact (worker_midway h hrest hmem).2.2.2 ⟨fs, hsends.1, hsends.bounds⟩
  obtain ⟨hframed, htrusted⟩ :=
    (at_reachable (stable_trusted S) (reachableBy_of_pool h c) hc).1 hholders
  have hopen : (s.conns c).closes = 0 := by
    by_contra hclosed
    have hsends' : Sends S fs ((s.conns c).consumed ++ (s.conns c).inbox ++ []) := by
      rw [List.append_nil]
      exact hsends
    exact htrusted hs ⟨fs, [], hsends'⟩ (Or.inr ⟨rfl, hclosed⟩)
  have hone := one_place h hrest hn hc
  have hreg : (s.conns c).registered = true := by
    by_contra hreg
    rw [if_neg hreg, hholders, hopen] at hone
    omega
  have hinbox : (s.conns c).inbox = [] := by
    by_contra hne
    exact atRest_registered hrest hreg (Or.inl hne)
  refine ⟨hreg, hinbox, ?_, ?_⟩
  · obtain ⟨part, ⟨-, whole, bs, hbs, hserved, hcut⟩, hpart⟩ := hframed
    obtain rfl := hpart hopen
    cases whole with
    | false =>
        have hshut := (hcut rfl).1.2.2
        rw [hs] at hshut
        cases hshut
    | true =>
        rw [hinbox, List.append_nil, hbs] at hsends
        obtain ⟨ps, qs, rfl, hcalls, hqs⟩ := hsends.behind hserved
        cases qs with
        | nil => rw [List.append_nil, ← hcalls]
        | cons q qs =>
            have hlen := congrArg List.length hqs.1
            rw [List.flatMap_cons, List.length_append, encodeFrame_length, List.length_nil] at hlen
            omega
  · obtain ⟨rs, rest, hrs, hall, hnothing⟩ := replied_reachable (reachable_of_pool h) hc
    rw [hnothing hreg, List.append_nil] at hall
    exact ⟨rs, hrs, hall⟩

end Rested

/-- Two clients have connected; the one has sent a whole request, the other the
    first byte of one. -/
theorem two_clients :
    ∃ s, PoolReachable echoServer 2 () s ∧ s.next = 2
      ∧ (s.conns 0).consumed = [] ∧ (s.conns 0).inbox = encodeFrame .little oneRequest
      ∧ (s.conns 0).shut = false ∧ (s.conns 1).consumed = [] ∧ (s.conns 1).inbox = [1]
      ∧ (s.conns 1).shut = false := by
  have h₀ : PoolReachable echoServer 2 () (.start ()) := .start
  have h₁ := h₀.step (@PoolStep.wait _ _ _ _ [.listen] rfl List.nodup_nil (by simp) (by simp))
    healthy_quiet
  have h₂ := h₁.step (.other (.accept rfl (encodeFrame .little oneRequest)) (List.prefix_refl _)
    (List.suffix_refl _)) healthy_quiet
  have h₃ := h₂.step (.other (.accept rfl [1]) (List.prefix_refl _) (List.suffix_refl _))
    healthy_quiet
  have h₄ := h₃.step (.other (.acceptDone rfl) (List.prefix_refl _) (List.suffix_cons _ _))
    healthy_quiet
  have h₅ := h₄.step (.other (.send (c := 0) (j := (encodeFrame .little oneRequest).length)
    Nat.zero_lt_two) (List.prefix_refl _) (List.suffix_refl _)) healthy_quiet
  have h₆ := h₅.step (.other (.send (c := 1) (j := 1) Nat.one_lt_two) (List.prefix_refl _)
    (List.suffix_refl _)) healthy_quiet
  refine ⟨_, h₆, rfl, ?_, ?_, ?_, ?_, ?_, ?_⟩
  all_goals
    simp [State.set, State.start, Conn.accepted, Conn.run, Op.apply]

end SearpcEpollPool
