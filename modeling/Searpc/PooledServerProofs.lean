import Mathlib.Data.List.Nodup
import Searpc.SharedServerProofs

/-! # A bounded pool — connections that wait for a worker

    The server with a worker for each connection, but with at most `n` workers:
    connections are accepted in some order and wait in a queue, workers take
    them out from its front, and a worker keeps its connection until the client
    has closed.  A client does not notice whether it has been accepted: what it
    sends stays in its connection.

    Nothing is new about what clients get (`shared_of_pooled`).  New is that one
    may have to wait for others: for how long is settled by how many clients in
    front of it stay (`waits_iff`), and if each closes once it is through, there
    is a run that serves them all (`pool_serves_all`). -/

namespace ByteNetwork

open Linearizability
open Relation (ReflTransGen)

variable {ι B Q A R W : Type} {J P T : ι → Type}

/-- Who makes a step: the server, a client, or an unknown caller. -/
inductive Mover (ι : Type) where
  | server
  | client (c : ι)
  | other

/-- A step of the server is no client's. -/
theorem server_only {c : ι} : ∀ d, Mover.server = .client d → d = c := by
  intro d h
  cases h

/-- The connections with their clients and the world, and where the connections
    are: those that workers have taken so far and those that wait, both in the
    order in which they were accepted, those that have a worker now, and those
    whose clients have closed. -/
structure Pooled (B : Type) (J P : ι → Type) (Q A R W : Type) where
  sys     : Shared B J P Q A R W
  taken   : List ι
  queue   : List ι
  running : List ι
  closed  : List ι

/-- Nobody has been accepted. -/
def Pooled.start (s : Shared B J P Q A R W) : Pooled B J P Q A R W := ⟨s, [], [], [], []⟩

section

variable {J₁ P₁ : Type}

/-- A step of the left side of a connection. -/
def Net.LeftStep (M : Process B Unit J₁ P₁) : Net B J₁ P₁ Q A R → Net B J₁ P₁ Q A R → Prop :=
  Net.StepBy M.Moves (fun _ _ _ => False)

/-- A step of the right side of a connection. -/
def Net.RightStep (N : Process B Q A R) : Net B J₁ P₁ Q A R → Net B J₁ P₁ Q A R → Prop :=
  Net.StepBy (fun (_ : P₁) (_ : Label B Unit J₁) _ => False) N.Moves

/-- A step of the right side that hears no answer. -/
def Net.Works (N : Process B Q A R) (x y : Net B J₁ P₁ Q A R) : Prop :=
  Net.RightStep N x y ∧ y.rightHeard = x.rightHeard

variable {M : Process B Unit J₁ P₁} {N : Process B Q A R} {x y : Net B J₁ P₁ Q A R}

theorem Net.LeftStep.step (h : Net.LeftStep M x y) :
    Net.Step M N x y ∧ y.right = x.right ∧ y.rightHeard = x.rightHeard := by
  cases h with
  | left h hq => exact ⟨.left h hq, rfl, rfl⟩
  | right h => exact h.elim

theorem Net.RightStep.step (h : Net.RightStep N x y) :
    Net.Step M N x y ∧ y.left = x.left ∧ y.leftHeard = x.leftHeard := by
  cases h with
  | left h => exact h.elim
  | right h hq => exact ⟨.right h hq, rfl, rfl⟩

/-- Every step is one of the two. -/
theorem halves_of_step (h : Net.Step M N x y) : Net.LeftStep M x y ∨ Net.RightStep N x y := by
  cases h with
  | left h hq => exact .inl (.left h hq)
  | right h hq => exact .inr (.right h hq)

end

variable [DecidableEq ι]

section

variable (n : Nat) (M : (c : ι) → Process B Unit (J c) (P c)) {N : Process B Q A R} (V : Server N)
  (serve : W → Q → W × A) (jobs : (c : ι) → List (J c))

/-- A step of the pool. -/
inductive Pooled.Step : Mover ι → Pooled B J P Q A R W → Pooled B J P Q A R W → Prop where
  | client {s : Pooled B J P Q A R W} {c : ι} {t : Net B (J c) (P c) Q A R} (hopen : c ∉ s.closed)
      (h : Net.LeftStep (M c) (s.sys.conns c) t) (hjobs : t.leftHeard <+: jobs c) :
      Step (.client c) s { s with sys := s.sys.set c t }
  -- between two calls a client may close
  | close {s : Pooled B J P Q A R W} {c : ι} (h : (M c).act (s.sys.conns c).left = .ask ()) :
      Step (.client c) s { s with closed := c :: s.closed }
  | accept {s : Pooled B J P Q A R W} {c : ι} (h : c ∉ s.taken ++ s.queue) :
      Step .server s { s with queue := s.queue ++ [c] }
  | take {s : Pooled B J P Q A R W} {c : ι} {rest : List ι} (hq : s.queue = c :: rest)
      (hn : s.running.length < n) :
      Step .server s
        { s with taken := s.taken ++ [c], queue := rest, running := s.running ++ [c] }
  | work {s : Pooled B J P Q A R W} {c : ι} {t : Net B (J c) (P c) Q A R} (hc : c ∈ s.running)
      (h : Net.Works N (s.sys.conns c) t) :
      Step .server s { s with sys := s.sys.set c t }
  | call {s : Pooled B J P Q A R W} {c : ι} {q : Q} (hc : c ∈ s.running)
      (h : N.act (s.sys.conns c).right = .ask q) :
      Step .server s { s with sys := s.sys.answer N serve c q }
  -- the worker finds the end of the stream where a request would start
  | leave {s : Pooled B J P Q A R W} {c : ι} (hc : c ∈ s.running) (hclosed : c ∈ s.closed)
      (hready : V.ready (s.sys.conns c).right) (hend : (s.sys.conns c).toRight = []) :
      Step .server s { s with running := s.running.erase c }
  -- or it has given up
  | drop {s : Pooled B J P Q A R W} {c : ι} (hc : c ∈ s.running)
      (hhalt : N.act (s.sys.conns c).right = .halt) :
      Step .server s { s with running := s.running.erase c }
  | other {s : Pooled B J P Q A R W} (q : Q) :
      Step .other s
        { s with sys := { s.sys with
            world := (serve s.sys.world q).1
            log := s.sys.log ++ [(none, q, (serve s.sys.world q).2)] } }

/-- A run of the pool. -/
def Pooled.Run : Pooled B J P Q A R W → Pooled B J P Q A R W → Prop :=
  ReflTransGen (fun s t => ∃ who, Pooled.Step n M V serve jobs who s t)

/-- A run in which no client but `c` does anything. -/
def Pooled.RunFor (c : ι) : Pooled B J P Q A R W → Pooled B J P Q A R W → Prop :=
  ReflTransGen (fun s t => ∃ who, Pooled.Step n M V serve jobs who s t
    ∧ ∀ d, who = .client d → d = c)

end

variable {n : Nat} {M : (c : ι) → Process B Unit (J c) (P c)} {N : Process B Q A R} {V : Server N}
  {serve : W → Q → W × A} {jobs : (c : ι) → List (J c)} {s₀ : Shared B J P Q A R W}
  {s t : Pooled B J P Q A R W}

/-! ## What clients get -/

/-- A step of the pool is a step of the system without one, or nothing. -/
theorem shared_of_step {who : Mover ι} (h : Pooled.Step n M V serve jobs who s t)
    (hjobs : ∀ c, (s.sys.conns c).leftHeard <+: jobs c) :
    t.sys = s.sys ∨ ∃ who, Shared.Step M N serve jobs who s.sys t.sys := by
  cases h with
  | client _ h hjobs' =>
      obtain ⟨hstep, -, hheard⟩ := h.step (N := N)
      exact .inr ⟨_, .move hstep hjobs' hheard⟩
  | close => exact .inl rfl
  | accept => exact .inl rfl
  | take => exact .inl rfl
  | @work _ c _ _ h =>
      obtain ⟨hstep, -, hheard⟩ := h.1.step (M := M c)
      exact .inr ⟨_, .move hstep (hheard ▸ hjobs c) h.2⟩
  | call _ h => exact .inr ⟨_, .call h⟩
  | leave => exact .inl rfl
  | drop => exact .inl rfl
  | other q => exact .inr ⟨_, .other q⟩

variable {C : (c : ι) → Client (M c) (T c)}

/-- **A POOL IS A SERVER WITH A WORKER FOR EACH CONNECTION**, as far as the clients
    can tell. -/
theorem shared_of_pooled (hs : s₀.Fresh M N C V) (h : Pooled.Run n M V serve jobs (.start s₀) s) :
    Shared.Run M N serve jobs s₀ s.sys := by
  induction h with
  | refl => exact .refl
  | tail _ hstep ih =>
      obtain ⟨who, hstep⟩ := hstep
      rcases shared_of_step hstep (fun c => (tracks_run hs ih c).jobs) with heq | hshared
      · rw [heq]
        exact ih
      · exact ih.tail hshared

/-! ## Where the connections are -/

/-- A connection is accepted once, and a worker is at one that was taken. -/
structure Placed (n : Nat) (taken queue running : List ι) : Prop where
  once  : (taken ++ queue).Nodup
  few   : running.length ≤ n
  own   : running.Nodup
  among : ∀ c ∈ running, c ∈ taken

section Placed

variable {taken queue running : List ι} {c : ι}

omit [DecidableEq ι] in
theorem placed_nil (n : Nat) : Placed n ([] : List ι) [] [] :=
  ⟨List.nodup_nil, Nat.zero_le n, List.nodup_nil, fun _ h => absurd h List.not_mem_nil⟩

omit [DecidableEq ι] in
theorem Placed.accept (h : Placed n taken queue running) (hnew : c ∉ taken ++ queue) :
    Placed n taken (queue ++ [c]) running := by
  refine ⟨?_, h.few, h.own, h.among⟩
  rw [← List.append_assoc]
  exact h.once.append (List.nodup_singleton c) (List.disjoint_singleton.mpr hnew)

omit [DecidableEq ι] in
theorem Placed.take {rest : List ι} (h : Placed n taken (c :: rest) running)
    (hn : running.length < n) : Placed n (taken ++ [c]) rest (running ++ [c]) := by
  have honce := h.once
  rw [List.append_cons] at honce
  have hnew : c ∉ taken := fun hc =>
    List.disjoint_of_nodup_append (List.Nodup.of_append_left honce) hc List.mem_cons_self
  refine ⟨honce, ?_, ?_, fun d hd => ?_⟩
  · rw [List.length_append, List.length_singleton]
    exact hn
  · exact h.own.append (List.nodup_singleton c)
      (List.disjoint_singleton.mpr (fun hc => hnew (h.among c hc)))
  · rcases List.mem_append.mp hd with hd | hd
    · exact List.mem_append_left _ (h.among d hd)
    · exact List.mem_append_right _ hd

/-- A worker lets its connection go. -/
theorem Placed.erase (h : Placed n taken queue running) (c : ι) :
    Placed n taken queue (running.erase c) :=
  ⟨h.once, (List.length_erase_le).trans h.few, h.own.erase c,
    fun d hd => h.among d (List.mem_of_mem_erase hd)⟩

end Placed

/-- What every state of the pool is like: connections are in their places, nobody is
    answered before it is taken, and clients close between two calls. -/
structure Pooled.Ok (n : Nat) (M : (c : ι) → Process B Unit (J c) (P c))
    (s : Pooled B J P Q A R W) : Prop extends Placed n s.taken s.queue s.running where
  unheard : ∀ c, c ∉ s.taken → (s.sys.conns c).rightHeard = []
  between : ∀ c ∈ s.closed, (M c).act (s.sys.conns c).left = .ask ()

/-- A connection that was taken does something at its right end. -/
theorem ok_work (hok : s.Ok n M) {c : ι} (hc : c ∈ s.running) {u : Shared B J P Q A R W}
    (hother : ∀ d, c ≠ d → u.conns d = s.sys.conns d)
    (hleft : (u.conns c).left = (s.sys.conns c).left) : Pooled.Ok n M { s with sys := u } where
  toPlaced := hok.toPlaced
  unheard d hd := by
    have hne : c ≠ d := fun h => hd (h ▸ hok.among c hc)
    show (u.conns d).rightHeard = []
    rw [hother d hne]
    exact hok.unheard d hd
  between d hd := by
    show (M d).act (u.conns d).left = .ask ()
    by_cases hne : c = d
    · subst hne
      rw [hleft]
      exact hok.between c hd
    · rw [hother d hne]
      exact hok.between d hd

theorem ok_step {who : Mover ι} (hok : s.Ok n M) (h : Pooled.Step n M V serve jobs who s t) :
    t.Ok n M := by
  cases h with
  | @client _ c u hopen h hjobs =>
      obtain ⟨-, -, hheard⟩ := h.step (N := N)
      refine ⟨hok.toPlaced, fun d hd => ?_, fun d hd => ?_⟩
      · by_cases hne : c = d
        · subst hne
          rw [set_self, hheard]
          exact hok.unheard c hd
        · rw [set_other _ hne]
          exact hok.unheard d hd
      · have hne : c ≠ d := fun heq => hopen (heq ▸ hd)
        rw [set_other _ hne]
        exact hok.between d hd
  | close h =>
      exact ⟨hok.toPlaced, hok.unheard, List.forall_mem_cons.mpr ⟨h, hok.between⟩⟩
  | accept h => exact ⟨hok.toPlaced.accept h, hok.unheard, hok.between⟩
  | @take _ c rest hq hn =>
      have hplaced := hok.toPlaced
      rw [hq] at hplaced
      exact ⟨hplaced.take hn, fun d hd => hok.unheard d (fun h => hd (List.mem_append_left _ h)),
        hok.between⟩
  | work hc h =>
      obtain ⟨-, hleft, -⟩ := h.1.step (M := M _)
      exact ok_work hok hc (fun d hne => set_other _ hne _) (by rw [set_self]; exact hleft)
  | call hc h =>
      exact ok_work hok hc (fun d hne => answer_other hne _) (by rw [answer_self]; rfl)
  | leave => exact ⟨hok.toPlaced.erase _, hok.unheard, hok.between⟩
  | drop => exact ⟨hok.toPlaced.erase _, hok.unheard, hok.between⟩
  | other q => exact ⟨hok.toPlaced, hok.unheard, hok.between⟩

theorem ok_run (hs : s₀.Fresh M N C V) (h : Pooled.Run n M V serve jobs (.start s₀) s) :
    s.Ok n M := by
  induction h with
  | refl =>
      exact ⟨placed_nil n, fun c _ => (hs.conns c).right,
        (fun _ h => absurd h List.not_mem_nil)⟩
  | tail _ hstep ih =>
      obtain ⟨who, hstep⟩ := hstep
      exact ok_step ih hstep

/-! ## Clients the server understands -/

/-- Nothing has happened, the server understands all jobs, and the clients all
    answers to them. -/
structure Understood (M : (c : ι) → Process B Unit (J c) (P c)) (N : Process B Q A R)
    (C : (c : ι) → Client (M c) (T c)) (V : Server N) (serve : W → Q → W × A)
    (jobs : (c : ι) → List (J c)) (s₀ : Shared B J P Q A R W) : Prop where
  fresh  : s₀.Fresh M N C V
  known  : ∀ c, ∀ j ∈ jobs c, Servable (C c) V j
  serves : ∀ c, ∀ {log : List (Option ι × Q × A)} {w : W}, Serial serve s₀.world log w →
    ∀ j ∈ jobs c, ∀ q, V.Request ((C c).request j) q → Fits (C c) V (jobs c) (serve w q).2

omit [DecidableEq ι] in
/-- Clients that meet the server are understood. -/
theorem understood_of_meets {asked : (c : ι) → J c → Q} {given : (c : ι) → A → T c}
    {Fine : (c : ι) → J c → Prop} {Plain : ι → A → Prop} (hs : s₀.Fresh M N C V)
    (hmeets : ∀ c, Meets (C c) V (asked c) (given c) (Fine c) (Plain c))
    (hfine : ∀ c, ∀ j ∈ jobs c, Fine c j)
    (hserve : ∀ c, ∀ {log : List (Option ι × Q × A)} {w : W}, Serial serve s₀.world log w →
      ∀ j ∈ jobs c, Plain c (serve w (asked c j)).2) : Understood M N C V serve jobs s₀ where
  fresh := hs
  known c j hj := (hmeets c).servable (hfine c j hj)
  serves c := by
    intro log w hlog j hj q hq
    rw [(hmeets c).only (hfine c j hj) hq]
    exact (hmeets c).fits _ (hserve c hlog j hj)

section Understanding

variable (hU : Understood M N C V serve jobs s₀)

include hU

/-- Every connection is on its way through a conversation by the book. -/
theorem conn_played {s : Shared B J P Q A R W} (hrun : Shared.Run M N serve jobs s₀ s) (c : ι) :
    ∃ k, Steps (Net.Step (M c) N) k (s₀.conns c) (s.conns c) ∧ ∃ qs ts,
      Played (C c) V (s.conns c).leftHeard (s.conns c).rightHeard qs ts := by
  have htracks := tracks_run hU.fresh hrun c
  obtain ⟨k, hnet⟩ := htracks.run
  obtain ⟨ts, hplayed, -⟩ := htracks.played (hU.fresh.conns c) (hU.known c)
    (answers_of_run hU.fresh hrun c (hU.known c) (fun _ h => h) (hU.serves c))
    (List.prefix_refl _) htracks.jobs
  rw [← htracks.heard] at hplayed
  exact ⟨k, hnet, _, ts, hplayed⟩

/-- No worker gives up. -/
theorem pool_not_halted (h : Pooled.Run n M V serve jobs (.start s₀) s) (c : ι) :
    N.act (s.sys.conns c).right ≠ .halt := by
  obtain ⟨k, hnet, qs, ts, hplayed⟩ := conn_played hU (shared_of_pooled hU.fresh h) c
  exact not_halted (hU.fresh.conns c) hnet (List.prefix_refl _) hplayed

/-- A connection that was taken and has no worker any more was closed. -/
theorem closed_of_gone (h : Pooled.Run n M V serve jobs (.start s₀) s) :
    ∀ c ∈ s.taken, c ∉ s.running → c ∈ s.closed := by
  induction h with
  | refl => exact fun c hc => absurd hc List.not_mem_nil
  | @tail s t hbefore hstep ih =>
      obtain ⟨who, hstep⟩ := hstep
      have hgone : ∀ d, d ∈ s.closed → ∀ c ∈ s.taken, c ∉ s.running.erase d → c ∈ s.closed := by
        intro d hd c hc hnot
        by_cases heq : c = d
        · exact heq ▸ hd
        · exact ih c hc (fun h => hnot ((List.mem_erase_of_ne heq).mpr h))
      cases hstep with
      | client => exact ih
      | close => exact fun c hc hnot => List.mem_cons_of_mem _ (ih c hc hnot)
      | accept => exact ih
      | take hq hn =>
          intro c hc hnot
          obtain ⟨hrunning, hne⟩ := not_or.mp (fun h => hnot (List.mem_append.mpr h))
          exact ih c ((List.mem_append.mp hc).resolve_right hne) hrunning
      | work => exact ih
      | call => exact ih
      | leave hc hclosed => exact hgone _ hclosed
      | drop hc hhalt => exact (pool_not_halted hU hbefore _ hhalt).elim
      | other => exact ih

/-- A client that has not been answered is not through, unless it has no jobs. -/
theorem not_through (h : Pooled.Run n M V serve jobs (.start s₀) s) {c : ι} (hc : c ∉ s.taken)
    (hidle : (C c).idle (s.sys.conns c).left) (hall : (s.sys.conns c).leftHeard = jobs c) :
    jobs c = [] := by
  obtain ⟨k, hnet, qs, ts, hplayed⟩ := conn_played hU (shared_of_pooled hU.fresh h) c
  obtain ⟨-, hle⟩ := results_of_run (hU.fresh.conns c) hnet hidle hplayed
  rw [(ok_run hU.fresh h).unheard c hc, hall] at hle
  exact List.eq_nil_of_length_eq_zero (Nat.le_zero.mp hle)

end Understanding

/-! ## Whom a client waits for -/

/-- How many of these connections have clients that have not closed. -/
def Pooled.staying (s : Pooled B J P Q A R W) (cs : List ι) : Nat :=
  cs.countP (fun c => decide (c ∉ s.closed))

theorem staying_le (s : Pooled B J P Q A R W) (cs : List ι) : s.staying cs ≤ cs.length :=
  List.countP_le_length

theorem staying_append (s : Pooled B J P Q A R W) (cs ds : List ι) :
    s.staying (cs ++ ds) = s.staying cs + s.staying ds :=
  List.countP_append

theorem staying_congr (h : t.closed = s.closed) (cs : List ι) : t.staying cs = s.staying cs := by
  rw [Pooled.staying, h]
  rfl

/-- A connection whose client has closed does not count. -/
theorem staying_erase (s : Pooled B J P Q A R W) {cs : List ι} {c : ι} (hc : c ∈ cs)
    (h : c ∈ s.closed) : s.staying (cs.erase c) = s.staying cs := by
  rw [Pooled.staying, Pooled.staying, (List.perm_cons_erase hc).countP_eq,
    List.countP_cons_of_neg (by simp [h])]

/-- Closing another connection changes nothing. -/
theorem staying_close (s : Pooled B J P Q A R W) {c : ι} {cs : List ι} (h : c ∉ cs) :
    Pooled.staying { s with closed := c :: s.closed } cs = s.staying cs := by
  refine List.countP_congr (fun d hd => ?_)
  have hne : d ≠ c := fun heq => h (heq ▸ hd)
  simp [hne]

/-- `c` waits behind as many clients as there are workers, and none of them
    leaves. -/
def Pooled.Blocked (n : Nat) (c : ι) (s : Pooled B J P Q A R W) : Prop :=
  ∃ pre post, s.queue = pre ++ c :: post ∧ n ≤ s.staying (s.running ++ pre)

theorem pooled_run_of_runFor {c : ι} (h : Pooled.RunFor n M V serve jobs c s t) :
    Pooled.Run n M V serve jobs s t :=
  h.lift id (fun _ _ ⟨who, hstep, _⟩ => ⟨who, hstep⟩)

omit [DecidableEq ι] in
/-- The connection in the queue is nowhere else. -/
theorem apart_of_queue (hok : s.Ok n M) {c : ι} {pre post : List ι}
    (hq : s.queue = pre ++ c :: post) : c ∉ s.taken ∧ c ∉ s.running ++ pre := by
  have honce := hok.once
  rw [hq] at honce
  have htaken : c ∉ s.taken := fun h =>
    List.disjoint_of_nodup_append honce h (List.mem_append_right _ List.mem_cons_self)
  refine ⟨htaken, fun h => ?_⟩
  rcases List.mem_append.mp h with h | h
  · exact htaken (hok.among c h)
  · exact List.disjoint_of_nodup_append (List.Nodup.of_append_right honce) h List.mem_cons_self

/-! ## Waiting -/

section Understanding

variable (hU : Understood M N C V serve jobs s₀)

include hU

/-- **WAITING LASTS**: as long as no other client does anything, a client that is
    blocked stays so. -/
theorem blocked_step {c : ι} {who : Mover ι} (h : Pooled.Run n M V serve jobs (.start s₀) s)
    (hstep : Pooled.Step n M V serve jobs who s t) (honly : ∀ d, who = .client d → d = c)
    (hblocked : s.Blocked n c) : t.Blocked n c := by
  have hok := ok_run hU.fresh h
  obtain ⟨pre, post, hq, hn⟩ := hblocked
  obtain ⟨-, hnot⟩ := apart_of_queue hok hq
  cases hstep with
  | client => exact ⟨pre, post, hq, hn⟩
  | close =>
      obtain rfl := honly _ rfl
      refine ⟨pre, post, hq, ?_⟩
      rw [staying_close s hnot]
      exact hn
  | @accept _ d _ =>
      refine ⟨pre, post ++ [d], ?_, hn⟩
      show s.queue ++ [d] = pre ++ c :: (post ++ [d])
      rw [hq, List.append_assoc]
      rfl
  | @take _ d rest hd hfree =>
      cases pre with
      | nil =>
          -- all workers are taken
          rw [List.append_nil] at hn
          exact absurd (hn.trans (staying_le s s.running)) (Nat.not_le.mpr hfree)
      | cons b pre =>
          rw [hd] at hq
          obtain ⟨rfl, rfl⟩ := List.cons.inj hq
          refine ⟨pre, post, rfl, ?_⟩
          show n ≤ s.staying (s.running ++ [d] ++ pre)
          rw [List.append_assoc]
          exact hn
  | work => exact ⟨pre, post, hq, hn⟩
  | call => exact ⟨pre, post, hq, hn⟩
  | leave hc hclosed =>
      refine ⟨pre, post, hq, ?_⟩
      show n ≤ s.staying (s.running.erase _ ++ pre)
      rw [staying_append, staying_erase s hc hclosed, ← staying_append]
      exact hn
  | drop hc hhalt => exact (pool_not_halted hU h _ hhalt).elim
  | other => exact ⟨pre, post, hq, hn⟩

theorem blocked_run {c : ι} (h : Pooled.Run n M V serve jobs (.start s₀) s)
    (hrun : Pooled.RunFor n M V serve jobs c s t) (hblocked : s.Blocked n c) :
    t.Blocked n c := by
  induction hrun with
  | refl => exact hblocked
  | tail hbefore hstep ih =>
      obtain ⟨who, hstep, honly⟩ := hstep
      exact blocked_step hU (h.trans (pooled_run_of_runFor hbefore)) hstep honly ih

end Understanding

/-! ## What the pool can do by itself -/

/-- What the worker of a connection can do when the client is between two calls
    is done at the right end. -/
theorem works_of_ticks {X Y : Type} {K : Process B Unit X Y} {L : List X} {H : List A}
    {k : Nat} {x e : Net B X Y Q A R} (h : Steps (Net.TickIn K N L H) k x e)
    (hask : K.act x.left = .ask ()) (hl : x.leftHeard = L) (hr : x.rightHeard = H) :
    Steps (Net.Works N) k x e := by
  induction h with
  | refl => exact .refl
  | @head k x y e hstep _ ih =>
      obtain ⟨hstep, hl', hr'⟩ := hstep
      cases hstep with
      | @left p l toLeft h hq =>
          obtain ⟨j, hj⟩ := moves_of_ask hask h.1
          rw [← hl, Net.goLeft, hj] at hl'
          exact (heard_all hl').elim
      | @right r l toRight h hq =>
          have hsame : x.rightHeard ++ l.heard = x.rightHeard := by
            have hle : (x.rightHeard ++ l.heard).length ≤ H.length := hr'.length_le
            rw [← hr, List.length_append] at hle
            rw [List.eq_nil_of_length_eq_zero (show l.heard.length = 0 by omega), List.append_nil]
          exact .head ⟨.right h.1 hq, hsame⟩ (ih hask hl (hsame.trans hr))

/-- A worker's steps are steps of the pool. -/
theorem runFor_work {c d : ι} {k : Nat} {x e : Net B (J d) (P d) Q A R}
    (h : Steps (Net.Works N) k x e)
    (hd : d ∈ s.running) (hx : s.sys.conns d = x) :
    Pooled.RunFor n M V serve jobs c s { s with sys := s.sys.set d e } := by
  induction h generalizing s with
  | refl =>
      rw [← hx, Shared.set, Function.update_eq_self]
      exact .refl
  | @head k x y e hstep _ ih =>
      subst hx
      have hrest := ih (s := { s with sys := s.sys.set d y }) hd (set_self s.sys d y)
      rw [show (s.sys.set d y).set d e = s.sys.set d e by
        simp only [Shared.set, Function.update_idem]] at hrest
      exact .head ⟨_, .work hd hstep, server_only⟩ hrest

/-- What a connection can do by itself it can do when it has a worker. -/
theorem runFor_of_runOf {c : ι} {u : Shared B J P Q A R W} (hc : c ∈ s.running)
    (hopen : c ∉ s.closed) (h : Shared.RunOf M N serve jobs c s.sys u) :
    Pooled.RunFor n M V serve jobs c s { s with sys := u } := by
  induction h with
  | refl => exact .refl
  | tail _ hstep ih =>
      refine ih.tail ?_
      cases hstep with
      | move h hjobs hown =>
          rcases halves_of_step h with hleft | hright
          · exact ⟨_, .client (s := { s with sys := _ }) hopen hleft hjobs,
              fun d h => (Mover.client.inj h).symm⟩
          · exact ⟨_, .work (s := { s with sys := _ }) hc ⟨hright, hown⟩, server_only⟩
      | call h => exact ⟨_, .call (s := { s with sys := _ }) hc h, server_only⟩

section Understanding

variable (hU : Understood M N C V serve jobs s₀)

include hU

/-- The worker of a closed connection finishes and leaves. -/
theorem runFor_leave {c d : ι} (h : Pooled.Run n M V serve jobs (.start s₀) s)
    (hd : d ∈ s.running) (hclosed : d ∈ s.closed) : ∃ e,
    Pooled.RunFor n M V serve jobs c s
      { s with sys := s.sys.set d e, running := s.running.erase d } := by
  have hask := (ok_run hU.fresh h).between d hclosed
  obtain ⟨k, hnet, qs, ts, hplayed⟩ := conn_played hU (shared_of_pooled hU.fresh h) d
  obtain ⟨m, e, hticks, hready, hquiet⟩ := gets_ready (hU.fresh.conns d) hnet hask hplayed
  have hwork : Pooled.RunFor n M V serve jobs c s { s with sys := s.sys.set d e } := runFor_work
    (works_of_ticks hticks hask rfl rfl) hd rfl
  refine ⟨e, hwork.tail ⟨_, .leave (s := { s with sys := s.sys.set d e }) hd hclosed ?_ ?_,
    server_only⟩⟩
  · show V.ready ((s.sys.set d e).conns d).right
    rw [set_self]
    exact hready
  · show ((s.sys.set d e).conns d).toRight = []
    rw [set_self]
    exact hquiet.2

/-- All workers of closed connections do. -/
theorem runFor_leave_all {c : ι} (h : Pooled.Run n M V serve jobs (.start s₀) s) : ∃ t,
    Pooled.RunFor n M V serve jobs c s t ∧ t.queue = s.queue ∧ t.closed = s.closed
      ∧ t.staying t.running = s.staying s.running ∧ t.running.length = s.staying s.running := by
  obtain ⟨m, hm⟩ : ∃ m, s.running.length = m := ⟨_, rfl⟩
  induction m generalizing s with
  | zero =>
      have hnil := List.eq_nil_of_length_eq_zero hm
      exact ⟨s, .refl, rfl, rfl, rfl, by rw [hnil]; rfl⟩
  | succ m ih =>
      by_cases hex : ∃ d ∈ s.running, d ∈ s.closed
      · obtain ⟨d, hd, hclosed⟩ := hex
        obtain ⟨e, hleave⟩ := runFor_leave hU (c := c) h hd hclosed
        obtain ⟨t, hrest, hqueue, hsame, hstay, hlen⟩ := ih (h.trans (pooled_run_of_runFor hleave))
          (by rw [List.length_erase_of_mem hd, hm]; rfl)
        rw [show Pooled.staying { s with sys := s.sys.set d e, running := s.running.erase d }
          (s.running.erase d) = s.staying s.running from staying_erase s hd hclosed] at hstay hlen
        exact ⟨t, hleave.trans hrest, hqueue, hsame, hstay, hlen⟩
      · refine ⟨s, .refl, rfl, rfl, rfl, (List.countP_eq_length.mpr fun d hd => ?_).symm⟩
        exact decide_eq_true (fun hclosed => hex ⟨d, hd, hclosed⟩)

/-- Then the front of the queue gets a worker, if there is one. -/
theorem runFor_take {c d : ι} {rest : List ι} (h : Pooled.Run n M V serve jobs (.start s₀) s)
    (hq : s.queue = d :: rest) (hn : s.staying s.running < n) : ∃ t,
    Pooled.RunFor n M V serve jobs c s t ∧ t.queue = rest ∧ t.closed = s.closed ∧ d ∈ t.running
      ∧ t.staying t.running = s.staying (s.running ++ [d]) := by
  obtain ⟨t, hrun, hqueue, hclosed, hstay, hlen⟩ := runFor_leave_all hU (c := c) h
  refine ⟨_, hrun.tail ⟨_, .take (hqueue.trans hq) (by rw [hlen]; exact hn),
    server_only⟩, rfl, hclosed, List.mem_append_right _ List.mem_cons_self, ?_⟩
  show t.staying (t.running ++ [d]) = _
  rw [staying_append, staying_append, hstay, staying_congr hclosed]

/-- **FIRST COME, FIRST SERVED**: a connection gets a worker if fewer clients than
    there are workers stay in front of it. -/
theorem runFor_reach {c : ι} {pre post : List ι} (h : Pooled.Run n M V serve jobs (.start s₀) s)
    (hq : s.queue = pre ++ c :: post) (hn : s.staying (s.running ++ pre) < n) : ∃ t,
    Pooled.RunFor n M V serve jobs c s t ∧ c ∈ t.running ∧ t.closed = s.closed := by
  induction pre generalizing s with
  | nil =>
      rw [List.append_nil] at hn
      obtain ⟨t, hrun, -, hclosed, hc, -⟩ := runFor_take hU (c := c) h hq hn
      exact ⟨t, hrun, hc, hclosed⟩
  | cons d pre ih =>
      rw [List.append_cons] at hn
      obtain ⟨t, hrun, hqueue, hclosed, -, hstay⟩ := runFor_take hU (c := c) h hq (by
        rw [staying_append, staying_append] at hn
        omega)
      obtain ⟨u, hmore, hc, hclosed'⟩ := ih (h.trans (pooled_run_of_runFor hrun)) hqueue (by
        rw [staying_append, hstay, staying_congr hclosed]
        rw [staying_append] at hn
        exact hn)
      exact ⟨u, hrun.trans hmore, hc, hclosed'.trans hclosed⟩

/-- With a worker a client gets through. -/
theorem runFor_finish {c : ι} (h : Pooled.Run n M V serve jobs (.start s₀) s)
    (hc : c ∈ s.running) (hopen : c ∉ s.closed) : ∃ u,
    Pooled.RunFor n M V serve jobs c s { s with sys := u } ∧ (C c).idle (u.conns c).left
      ∧ (u.conns c).leftHeard = jobs c ∧ ∀ d, c ≠ d → u.conns d = s.sys.conns d := by
  obtain ⟨u, hrun, hidle, hall⟩ := can_finish hU.fresh c (hU.known c) (hU.serves c)
    (shared_of_pooled hU.fresh h)
  exact ⟨u, runFor_of_runOf hc hopen hrun, hidle, hall, fun d => runOf_other hrun⟩

/-- **WHOM A CLIENT WAITS FOR**: a client in the queue can get through without any
    other client doing anything if and only if fewer clients than there are
    workers stay in front of it. -/
theorem waits_iff {c : ι} {pre post : List ι} (h : Pooled.Run n M V serve jobs (.start s₀) s)
    (hq : s.queue = pre ++ c :: post) (hopen : c ∉ s.closed) (hjobs : jobs c ≠ []) :
    (∃ t, Pooled.RunFor n M V serve jobs c s t ∧ (C c).idle (t.sys.conns c).left
        ∧ (t.sys.conns c).leftHeard = jobs c) ↔ s.staying (s.running ++ pre) < n := by
  constructor
  · rintro ⟨t, hrun, hidle, hall⟩
    by_contra hn
    obtain ⟨pre', post', hq', -⟩ := blocked_run hU h hrun ⟨pre, post, hq, Nat.not_lt.mp hn⟩
    have hthere := h.trans (pooled_run_of_runFor hrun)
    obtain ⟨htaken, -⟩ := apart_of_queue (ok_run hU.fresh hthere) hq'
    exact hjobs (not_through hU hthere htaken hidle hall)
  · intro hn
    obtain ⟨t, hrun, hc, hclosed⟩ := runFor_reach hU h hq hn
    obtain ⟨u, hmore, hidle, hall, -⟩ := runFor_finish hU (h.trans (pooled_run_of_runFor hrun)) hc
      (hclosed ▸ hopen)
    exact ⟨_, hrun.trans hmore, hidle, hall⟩

end Understanding

/-! ## Everyone -/

/-- A client that has closed does nothing any more. -/
theorem closed_step {c : ι} {who : Mover ι} (h : Pooled.Step n M V serve jobs who s t)
    (hc : c ∈ s.closed) : c ∈ t.closed ∧ (t.sys.conns c).left = (s.sys.conns c).left
      ∧ (t.sys.conns c).leftHeard = (s.sys.conns c).leftHeard := by
  cases h with
  | @client _ d _ hopen =>
      have hne : d ≠ c := fun heq => hopen (heq ▸ hc)
      rw [set_other _ hne]
      exact ⟨hc, rfl, rfl⟩
  | close => exact ⟨List.mem_cons_of_mem _ hc, rfl, rfl⟩
  | accept => exact ⟨hc, rfl, rfl⟩
  | take => exact ⟨hc, rfl, rfl⟩
  | @work _ d u hd h =>
      obtain ⟨-, hleft, hheard⟩ := h.1.step (M := M d)
      by_cases heq : d = c
      · subst heq
        rw [set_self]
        exact ⟨hc, hleft, hheard⟩
      · rw [set_other _ heq]
        exact ⟨hc, rfl, rfl⟩
  | @call _ d q hd h =>
      by_cases heq : d = c
      · subst heq
        rw [answer_self]
        exact ⟨hc, rfl, rfl⟩
      · rw [answer_other heq]
        exact ⟨hc, rfl, rfl⟩
  | leave => exact ⟨hc, rfl, rfl⟩
  | drop => exact ⟨hc, rfl, rfl⟩
  | other => exact ⟨hc, rfl, rfl⟩

theorem closed_run {c : ι} (h : Pooled.Run n M V serve jobs s t) (hc : c ∈ s.closed) :
    c ∈ t.closed ∧ (t.sys.conns c).left = (s.sys.conns c).left
      ∧ (t.sys.conns c).leftHeard = (s.sys.conns c).leftHeard := by
  induction h with
  | refl => exact ⟨hc, rfl, rfl⟩
  | tail _ hstep ih =>
      obtain ⟨who, hstep⟩ := hstep
      obtain ⟨hmem, hleft, hheard⟩ := closed_step hstep ih.1
      exact ⟨hmem, hleft.trans ih.2.1, hheard.trans ih.2.2⟩

/-- The client has all its results. -/
def Pooled.Through (C : (c : ι) → Client (M c) (T c)) (jobs : (c : ι) → List (J c))
    (s : Pooled B J P Q A R W) (c : ι) : Prop :=
  (C c).idle (s.sys.conns c).left ∧ (s.sys.conns c).leftHeard = jobs c

theorem through_run {c : ι} (h : Pooled.Run n M V serve jobs s t) (hc : c ∈ s.closed)
    (hthrough : s.Through C jobs c) : t.Through C jobs c := by
  obtain ⟨-, hleft, hheard⟩ := closed_run h hc
  rw [Pooled.Through, hleft, hheard]
  exact hthrough

/-- One connection less: `d` is through, unless it had closed before. -/
structure Pooled.Retires (C : (c : ι) → Client (M c) (T c)) (jobs : (c : ι) → List (J c)) (d : ι)
    (s t : Pooled B J P Q A R W) : Prop where
  through : d ∉ s.closed → t.Through C jobs d
  closed  : d ∈ t.closed
  others  : ∀ c, c ≠ d → c ∈ t.closed → c ∈ s.closed

section Understanding

variable (hU : Understood M N C V serve jobs s₀)

include hU

/-- A connection with a worker can be brought to its end. -/
theorem run_retire {d : ι} (h : Pooled.Run n M V serve jobs (.start s₀) s)
    (hd : d ∈ s.running) : ∃ t, Pooled.Run n M V serve jobs s t ∧ t.queue = s.queue
      ∧ t.taken = s.taken ∧ t.running = s.running.erase d ∧ s.Retires C jobs d t := by
  by_cases hclosed : d ∈ s.closed
  · obtain ⟨e, hleave⟩ := runFor_leave hU (c := d) h hd hclosed
    exact ⟨_, pooled_run_of_runFor hleave, rfl, rfl, rfl, fun hopen => absurd hclosed hopen,
      hclosed, fun c _ hc => hc⟩
  · obtain ⟨u, hfinish, hidle, hall, -⟩ := runFor_finish hU h hd hclosed
    -- it closes, and the worker leaves
    have hthere := (pooled_run_of_runFor hfinish).tail
      ⟨_, .close (s := { s with sys := u }) ((C d).idle_asks hidle)⟩
    obtain ⟨e, hleave⟩ := runFor_leave hU (c := d) (h.trans hthere) hd List.mem_cons_self
    have hrest := pooled_run_of_runFor hleave
    refine ⟨_, hthere.trans hrest, rfl, rfl, rfl, fun _ => ?_, List.mem_cons_self, fun c hne hc =>
      (List.mem_cons.mp hc).resolve_left hne⟩
    exact through_run hrest List.mem_cons_self ⟨hidle, hall⟩

/-- So can the next connection, as long as there is one. -/
theorem run_next (hn : 0 < n) (h : Pooled.Run n M V serve jobs (.start s₀) s)
    (hsome : 0 < s.running.length + s.queue.length) : ∃ t d,
    Pooled.Run n M V serve jobs s t ∧ t.taken ++ t.queue = s.taken ++ s.queue
      ∧ s.running.length + s.queue.length = t.running.length + t.queue.length + 1
      ∧ s.Retires C jobs d t := by
  cases hrunning : s.running with
  | cons d ds =>
      have hd : d ∈ s.running := hrunning ▸ List.mem_cons_self
      obtain ⟨t, hrun, hqueue, htaken, hrest, hretires⟩ := run_retire hU h hd
      refine ⟨t, d, hrun, by rw [htaken, hqueue], ?_, hretires⟩
      rw [hrest, hqueue, hrunning, List.erase_cons_head, List.length_cons]
      omega
  | nil =>
      cases hqueue : s.queue with
      | nil =>
          rw [hrunning, hqueue] at hsome
          exact absurd hsome (Nat.lt_irrefl 0)
      | cons d rest =>
          have htake : Pooled.Run n M V serve jobs s _ :=
            .single ⟨_, .take hqueue (by rw [hrunning]; exact hn)⟩
          obtain ⟨t, hrun, hq, htaken, hrest, hretires⟩ := run_retire hU (h.trans htake)
            (List.mem_append_right _ List.mem_cons_self)
          refine ⟨t, d, htake.trans hrun, ?_, ?_, hretires.through, hretires.closed,
            hretires.others⟩
          · rw [htaken, hq]
            show (s.taken ++ [d]) ++ rest = _
            rw [List.append_assoc]
            rfl
          · rw [hrest, hq]
            show 0 + (rest.length + 1) = ((s.running ++ [d]).erase d).length + rest.length + 1
            rw [hrunning, List.nil_append, List.erase_cons_head, List.length_nil, Nat.zero_add,
              Nat.zero_add]

/-- **EVERYONE CAN BE SERVED**: with a worker at all, every state has a run in which
    all connections accepted so far come to their end, and all clients that have
    not closed have all their results. -/
theorem pool_serves_all (hn : 0 < n) (h : Pooled.Run n M V serve jobs (.start s₀) s) : ∃ t,
    Pooled.Run n M V serve jobs s t ∧ t.running = [] ∧ t.queue = []
      ∧ ∀ c ∈ s.taken ++ s.queue, c ∉ s.closed → t.Through C jobs c := by
  obtain ⟨m, hm⟩ : ∃ m, s.running.length + s.queue.length = m := ⟨_, rfl⟩
  induction m generalizing s with
  | zero =>
      obtain ⟨hrunning, hqueue⟩ := Nat.add_eq_zero_iff.mp hm
      rw [List.length_eq_zero_iff] at hrunning hqueue
      refine ⟨s, .refl, hrunning, hqueue, fun c hc hopen => ?_⟩
      rw [hqueue, List.append_nil] at hc
      have hgone := closed_of_gone hU h c hc (by rw [hrunning]; exact List.not_mem_nil)
      exact absurd hgone hopen
  | succ m ih =>
      obtain ⟨s', d, hnext, hsame, hless, hretires⟩ := run_next hU hn h (by omega)
      obtain ⟨t, hrest, hrunning, hqueue, hall⟩ := ih (h.trans hnext) (by omega)
      refine ⟨t, hnext.trans hrest, hrunning, hqueue, fun c hc hopen => ?_⟩
      by_cases heq : c = d
      · subst heq
        exact through_run hrest hretires.closed (hretires.through hopen)
      · exact hall c (hsame ▸ hc) (fun hclosed => hopen (hretires.others c heq hclosed))

end Understanding

end ByteNetwork
