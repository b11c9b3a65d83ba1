import Mathlib.Logic.Function.Basic
import Searpc.ByteSessionProofs
import Searpc.LinearizableProofs

/-! # One server, many connections — nobody waits for others

    A process of the server for each connection, a client at the other end of
    each, and ONE world that the questions of all of them act on, each question
    at one instant.  The clients may be of different kinds; the world may also
    be changed by callers of whom nothing is known.

    Seen from one connection, the world is a source of answers, so the run of
    the whole system, restricted to a connection, is a run of two processes, and
    what is known of those carries over (`shared_moves`, `can_finish`).

    That a question is asked and answered AT ONE INSTANT is assumed here of
    whatever answers: it is right where answers are given without waiting, and
    says nothing about what questions that overlap come to.  Those are the
    subject of the concurrent server, of which this one is a special case
    (`concurrent_of_shared`). -/

namespace ByteNetwork

open Linearizability
open Relation (ReflTransGen)

variable {ι B Q A R W : Type} {J P T : ι → Type}

/-- All connections, the world, and the questions answered so far, each with its
    connection, or none for an unknown caller. -/
structure Shared (B : Type) (J P : ι → Type) (Q A R W : Type) where
  conns : (c : ι) → Net B (J c) (P c) Q A R
  world : W
  log   : List (Option ι × Q × A)

variable [DecidableEq ι]

/-- The questions and answers of a connection. -/
def callsOf (c : ι) (log : List (Option ι × Q × A)) : List (Q × A) := callsBy (some c) log

theorem callsOf_append (c : ι) (log : List (Option ι × Q × A)) (e : Option ι × Q × A) :
    callsOf c (log ++ [e]) = callsOf c log ++ if e.1 = some c then [e.2] else [] :=
  callsBy_append (some c) log e

theorem mem_log {c : ι} {log : List (Option ι × Q × A)} {x : Q × A} (h : x ∈ callsOf c log) :
    ∃ y ∈ log, y.2 = x :=
  mem_callsBy h

/-- Replace a connection. -/
def Shared.set (s : Shared B J P Q A R W) (c : ι) (t : Net B (J c) (P c) Q A R) :
    Shared B J P Q A R W :=
  { s with conns := Function.update s.conns c t }

@[simp] theorem set_self (s : Shared B J P Q A R W) (c : ι) (t : Net B (J c) (P c) Q A R) :
    (s.set c t).conns c = t := by
  simp [Shared.set]

theorem set_other (s : Shared B J P Q A R W) {c d : ι} (h : c ≠ d) (t : Net B (J c) (P c) Q A R) :
    (s.set c t).conns d = s.conns d := by
  simp [Shared.set, Function.update_of_ne (Ne.symm h)]

section

variable (M : (c : ι) → Process B Unit (J c) (P c)) (N : Process B Q A R)
  (serve : W → Q → W × A) (jobs : (c : ι) → List (J c))

/-- The server of a connection asks the world. -/
def Shared.answer (N : Process B Q A R) (serve : W → Q → W × A) (s : Shared B J P Q A R W)
    (c : ι) (q : Q) : Shared B J P Q A R W :=
  { s.set c ((s.conns c).goRight (N.answered (s.conns c).right (serve s.world q).2)
      ⟨[], [], [(serve s.world q).2], [q]⟩ (s.conns c).toRight) with
    world := (serve s.world q).1
    log := s.log ++ [(some c, q, (serve s.world q).2)] }

/-- A step of the system: of a connection by itself, of a connection's server
    with the world, or of an unknown caller.  A question is asked and answered in
    one step, which the steps of `Concurrent` take apart. -/
inductive Shared.Step : Option ι → Shared B J P Q A R W → Shared B J P Q A R W → Prop where
  | move {s : Shared B J P Q A R W} {c : ι} {t : Net B (J c) (P c) Q A R}
      (h : Net.Step (M c) N (s.conns c) t) (hjobs : t.leftHeard <+: jobs c)
      (hown : t.rightHeard = (s.conns c).rightHeard) : Step (some c) s (s.set c t)
  | call {s : Shared B J P Q A R W} {c : ι} {q : Q} (h : N.act (s.conns c).right = .ask q) :
      Step (some c) s (s.answer N serve c q)
  | other {s : Shared B J P Q A R W} (q : Q) :
      Step none s
        { s with
          world := (serve s.world q).1
          log := s.log ++ [(none, q, (serve s.world q).2)] }

/-- A run of the system. -/
def Shared.Run : Shared B J P Q A R W → Shared B J P Q A R W → Prop :=
  ReflTransGen (fun s t => ∃ who, Shared.Step M N serve jobs who s t)

/-- A run in which only one connection moves. -/
def Shared.RunOf (c : ι) : Shared B J P Q A R W → Shared B J P Q A R W → Prop :=
  ReflTransGen (Shared.Step M N serve jobs (some c))

/-- A connection seen by itself. -/
def Shared.Tracks (s₀ s : Shared B J P Q A R W) (c : ι) : Prop :=
  ByteNetwork.Tracks (M c) N (jobs c) (s₀.conns c) (s.conns c) (callsOf c s.log)

/-- A system in which nothing has happened. -/
structure Shared.Fresh (C : (c : ι) → Client (M c) (T c)) (V : Server N)
    (s : Shared B J P Q A R W) : Prop where
  conns : ∀ c, (s.conns c).Fresh (C c) V
  log   : s.log = []

end

variable {M : (c : ι) → Process B Unit (J c) (P c)} {N : Process B Q A R}
  {serve : W → Q → W × A} {jobs : (c : ι) → List (J c)} {s₀ s t : Shared B J P Q A R W}

/-! ## One connection -/

section Answers

variable {c d : ι}

theorem answer_self (s : Shared B J P Q A R W) (q : Q) :
    (s.answer N serve c q).conns c = (s.conns c).goRight
      (N.answered (s.conns c).right (serve s.world q).2) ⟨[], [], [(serve s.world q).2], [q]⟩
      (s.conns c).toRight :=
  set_self s c _

theorem answer_other (h : c ≠ d) (q : Q) : (s.answer N serve c q).conns d = s.conns d :=
  set_other s h _

theorem calls_answer_self (q : Q) :
    callsOf c (s.answer N serve c q).log = callsOf c s.log ++ [(q, (serve s.world q).2)] := by
  rw [Shared.answer, callsOf_append, if_pos rfl]

theorem calls_answer_other (h : c ≠ d) (q : Q) :
    callsOf d (s.answer N serve c q).log = callsOf d s.log := by
  rw [Shared.answer, callsOf_append, if_neg (fun heq => h (Option.some.inj heq)), List.append_nil]

end Answers

theorem tracks_step {c : ι} {who : Option ι} (h : Shared.Tracks M N jobs s₀ s c)
    (hstep : Shared.Step M N serve jobs who s t) : Shared.Tracks M N jobs s₀ t c := by
  obtain ⟨n, hrun⟩ := h.run
  cases hstep with
  | @move _ d u hmove hjobs hown =>
      by_cases hd : d = c
      · subst hd
        refine ⟨⟨n + 1, ?_⟩, ?_, ?_, ?_⟩
        · rw [set_self]
          exact hrun.trans (.head hmove .refl)
        · rw [set_self]
          exact hjobs
        · rw [set_self, hown]
          exact h.heard
        · rw [set_self, asked_of_heard hmove hown]
          exact h.asked
      · have hother := set_other s hd u
        exact ⟨⟨n, by rw [hother]; exact hrun⟩, by rw [hother]; exact h.jobs,
          by rw [hother]; exact h.heard, by rw [hother]; exact h.asked⟩
  | @call _ d q hask =>
      by_cases hd : d = c
      · subst hd
        have hstep : Net.Step (M d) N (s.conns d) ((s.answer N serve d q).conns d) := by
          rw [answer_self]
          exact .right (.ask _ hask) rfl
        refine ⟨⟨n + 1, hrun.trans (.head hstep .refl)⟩, ?_, ?_, ?_⟩
        · rw [answer_self]
          exact h.jobs
        · rw [answer_self, calls_answer_self, List.map_append, ← h.heard]
          rfl
        · rw [answer_self, calls_answer_self, List.map_append, ← h.asked]
          rfl
      · exact ⟨⟨n, by rw [answer_other hd]; exact hrun⟩, by rw [answer_other hd]; exact h.jobs,
          by rw [answer_other hd, calls_answer_other hd]; exact h.heard,
          by rw [answer_other hd, calls_answer_other hd]; exact h.asked⟩
  | other q =>
      have hlast : ∀ a, callsOf c (s.log ++ [(none, q, a)]) = callsOf c s.log := by
        intro a
        rw [callsOf_append, if_neg (Option.some_ne_none c).symm, List.append_nil]
      exact ⟨h.run, h.jobs, by rw [hlast]; exact h.heard, by rw [hlast]; exact h.asked⟩

variable {C : (c : ι) → Client (M c) (T c)} {V : Server N}

theorem tracks_run (hs : s₀.Fresh M N C V) (hrun : Shared.Run M N serve jobs s₀ s) (c : ι) :
    Shared.Tracks M N jobs s₀ s c := by
  induction hrun with
  | refl =>
      have h := hs.conns c
      refine ⟨⟨0, .refl⟩, ?_, ?_, ?_⟩
      · rw [h.left]
        exact List.nil_prefix
      · rw [h.right, hs.log]
        rfl
      · rw [h.asked, hs.log]
        rfl
  | tail _ hstep ih =>
      obtain ⟨who, hstep⟩ := hstep
      exact tracks_step ih hstep

/-! ## All connections -/

/-- The log is serial because each question is answered in the step that asks it. -/
theorem serial_run (hs : s₀.log = []) (hrun : Shared.Run M N serve jobs s₀ s) :
    Serial serve s₀.world s.log s.world := by
  induction hrun with
  | refl =>
      rw [hs]
      exact .nil
  | tail _ hstep ih =>
      obtain ⟨who, hstep⟩ := hstep
      cases hstep with
      | move => exact ih
      | call => exact ih.snoc _ _
      | other => exact ih.snoc _ _

/-- **ANSWERS TO JOBS**: what holds of the world's answers to the jobs of a client
    holds of all answers on its connection, if with it they fit. -/
theorem answers_of_run (hs : s₀.Fresh M N C V) (hrun : Shared.Run M N serve jobs s₀ s) (c : ι)
    (hjobs : ∀ j ∈ jobs c, Servable (C c) V j) {Good : A → Prop}
    (hfits : ∀ a, Good a → Fits (C c) V (jobs c) a)
    (hserve : ∀ {log : List (Option ι × Q × A)} {w : W}, Serial serve s₀.world log w →
      ∀ j ∈ jobs c, ∀ q, V.Request ((C c).request j) q → Good (serve w q).2) :
    ∀ x ∈ callsOf c s.log, Good x.2 := by
  refine (tracks_run hs hrun c).answers (hs.conns c) hjobs (fun _ => True) (fun a _ => hfits a)
    (fun x hx j hj hreq => ?_) (fun _ _ => trivial)
  obtain ⟨y, hy, rfl⟩ := mem_log hx
  obtain ⟨before, v, hbefore, hanswer⟩ := (serial_run hs.log hrun).answered y hy
  rw [hanswer]
  exact hserve hbefore j hj y.2.1 hreq

/-- A tick of a connection is a step of the system. -/
theorem step_of_conn_tick {c : ι} {u : Net B (J c) (P c) Q A R}
    (h : Net.TickIn (M c) N (jobs c) (s.conns c).rightHeard (s.conns c) u) :
    Shared.Step M N serve jobs (some c) s (s.set c u) :=
  .move (step_of_tick h) h.2.1
    (h.2.2.eq_of_length_le (grows_stepBy h.1).right.length_le)

/-- **NOBODY WAITS FOR OTHERS**: unless its client is through, every connection
    can make a step of its own. -/
theorem shared_moves (hs : s₀.Fresh M N C V) (hrun : Shared.Run M N serve jobs s₀ s) (c : ι)
    (hjobs : ∀ j ∈ jobs c, Servable (C c) V j)
    (hserve : ∀ {log : List (Option ι × Q × A)} {w : W}, Serial serve s₀.world log w →
      ∀ j ∈ jobs c, ∀ q, V.Request ((C c).request j) q → Fits (C c) V (jobs c) (serve w q).2) :
    ((C c).idle (s.conns c).left ∧ (s.conns c).leftHeard = jobs c)
      ∨ ∃ t, Shared.Step M N serve jobs (some c) s t := by
  have htracks := tracks_run hs hrun c
  obtain ⟨n, hnet⟩ := htracks.run
  obtain ⟨ts, hplayed, -⟩ := htracks.played (hs.conns c) hjobs
    (answers_of_run hs hrun c hjobs (fun _ h => h) hserve) htracks.jobs (List.prefix_refl _)
  rw [← htracks.heard] at hplayed
  rcases run_moves (hs.conns c) hnet htracks.jobs hplayed with
    hover | ⟨u, hu⟩ | ⟨j, hj, q, hq, hask⟩
  · exact .inl hover
  · exact .inr ⟨_, step_of_conn_tick hu⟩
  · exact .inr ⟨_, .call hask⟩

theorem runOf_ticks {c : ι} {H : List A} {n : Nat} {x u : Net B (J c) (P c) Q A R}
    (h : Steps (Net.TickIn (M c) N (jobs c) H) n x u) : ∀ {s : Shared B J P Q A R W},
      s.conns c = x → x.rightHeard = H → Shared.RunOf M N serve jobs c s (s.set c u) := by
  induction h with
  | refl =>
      rintro s rfl _
      rw [Shared.set, Function.update_eq_self]
      exact .refl
  | @head n x y u hstep _ ih =>
      rintro s rfl rfl
      have hheard : y.rightHeard = (s.conns c).rightHeard :=
        hstep.2.2.eq_of_length_le (grows_stepBy hstep.1).right.length_le
      have hrest := ih (s := s.set c y) (set_self s c y) hheard
      rw [show (s.set c y).set c u = s.set c u by
        simp only [Shared.set, Function.update_idem]] at hrest
      exact .head (step_of_conn_tick hstep) hrest

theorem run_of_runOf {c : ι} (h : Shared.RunOf M N serve jobs c s t) :
    Shared.Run M N serve jobs s t :=
  h.lift id (fun _ _ hstep => ⟨some c, hstep⟩)

/-- What one connection does is nothing to the others. -/
theorem runOf_other {c d : ι} (h : Shared.RunOf M N serve jobs c s t) (hd : c ≠ d) :
    t.conns d = s.conns d := by
  induction h with
  | refl => rfl
  | tail _ hstep ih =>
      rw [← ih]
      cases hstep with
      | move => exact set_other _ hd _
      | call => exact answer_other hd _

/-- **EVERY CLIENT CAN FINISH BY ITSELF**: from every state some run of its
    connection alone brings it through all its jobs. -/
theorem can_finish (hs : s₀.Fresh M N C V) (c : ι) (hjobs : ∀ j ∈ jobs c, Servable (C c) V j)
    (hserve : ∀ {log : List (Option ι × Q × A)} {w : W}, Serial serve s₀.world log w →
      ∀ j ∈ jobs c, ∀ q, V.Request ((C c).request j) q → Fits (C c) V (jobs c) (serve w q).2)
    {s : Shared B J P Q A R W} (hrun : Shared.Run M N serve jobs s₀ s) :
    ∃ t, Shared.RunOf M N serve jobs c s t ∧ (C c).idle (t.conns c).left
      ∧ (t.conns c).leftHeard = jobs c := by
  -- induction on the answers still to come
  obtain ⟨d, hd⟩ : ∃ d, (jobs c).length - (callsOf c s.log).length = d := ⟨_, rfl⟩
  induction d generalizing s with
  | zero =>
      have htracks := tracks_run hs hrun c
      obtain ⟨n, hnet⟩ := htracks.run
      obtain ⟨ts, hplayed, -⟩ := htracks.played (hs.conns c) hjobs
        (answers_of_run hs hrun c hjobs (fun _ h => h) hserve) htracks.jobs (List.prefix_refl _)
      rw [← htracks.heard] at hplayed
      obtain ⟨k, e, hrest, hout⟩ := joins_played (hs.conns c) hnet htracks.jobs hplayed
      have hended := hout.ended (by rw [htracks.heard, List.length_map]; omega)
      refine ⟨_, runOf_ticks hrest rfl rfl, ?_⟩
      rw [set_self]
      exact hended
  | succ d ih =>
      have htracks := tracks_run hs hrun c
      obtain ⟨n, hnet⟩ := htracks.run
      obtain ⟨ts, hplayed, -⟩ := htracks.played (hs.conns c) hjobs
        (answers_of_run hs hrun c hjobs (fun _ h => h) hserve) htracks.jobs (List.prefix_refl _)
      rw [← htracks.heard] at hplayed
      obtain ⟨k, e, hrest, hout⟩ := joins_played (hs.conns c) hnet htracks.jobs hplayed
      obtain ⟨j, hj, q, hq, hask, -⟩ := hout.held (by rw [htracks.heard, List.length_map]; omega)
      have hthere : Shared.RunOf M N serve jobs c s (s.set c e) := runOf_ticks hrest rfl rfl
      have hcall : Shared.Step M N serve jobs (some c) (s.set c e)
          ((s.set c e).answer N serve c q) :=
        .call (by rw [set_self]; exact hask)
      have hgo := hthere.tail hcall
      obtain ⟨t, hmore, hend⟩ := ih (hrun.trans (run_of_runOf hgo)) (by
        rw [calls_answer_self, List.length_append, List.length_singleton]
        show (jobs c).length - ((callsOf c s.log).length + 1) = d
        omega)
      exact ⟨t, hgo.trans hmore, hend⟩

/-- Any number of clients can be brought through, one after the other. -/
theorem can_finish_all (hs : s₀.Fresh M N C V) (cs : List ι)
    (hjobs : ∀ c ∈ cs, ∀ j ∈ jobs c, Servable (C c) V j)
    (hserve : ∀ {log : List (Option ι × Q × A)} {w : W}, Serial serve s₀.world log w →
      ∀ c ∈ cs, ∀ j ∈ jobs c, ∀ q, V.Request ((C c).request j) q →
        Fits (C c) V (jobs c) (serve w q).2)
    (hrun : Shared.Run M N serve jobs s₀ s) :
    ∃ t, Shared.Run M N serve jobs s t
      ∧ ∀ c ∈ cs, (C c).idle (t.conns c).left ∧ (t.conns c).leftHeard = jobs c := by
  induction cs with
  | nil => exact ⟨s, .refl, fun c hc => absurd hc List.not_mem_nil⟩
  | cons c cs ih =>
      obtain ⟨t, hthere, hcs⟩ := ih (fun d hd => hjobs d (List.mem_cons_of_mem c hd))
        (fun hlog d hd => hserve hlog d (List.mem_cons_of_mem c hd))
      obtain ⟨u, hmore, hc⟩ := can_finish hs c (hjobs c List.mem_cons_self)
        (fun hlog => hserve hlog c List.mem_cons_self) (hrun.trans hthere)
      refine ⟨u, hthere.trans (run_of_runOf hmore), fun d hd => ?_⟩
      by_cases heq : c = d
      · exact heq ▸ hc
      · rw [runOf_other hmore heq]
        exact hcs d ((List.mem_cons.mp hd).resolve_left (Ne.symm heq))

/-! ## Clients the server understands -/

section Meeting

variable {asked : (c : ι) → J c → Q} {given : (c : ι) → A → T c} {Fine : (c : ι) → J c → Prop}
  {Plain : ι → A → Prop}

theorem plain_of_run (hs : s₀.Fresh M N C V) {c : ι}
    (hmeets : Meets (C c) V (asked c) (given c) (Fine c) (Plain c))
    (hrun : Shared.Run M N serve jobs s₀ s) (hfine : ∀ j ∈ jobs c, Fine c j)
    (hserve : ∀ {log : List (Option ι × Q × A)} {w : W}, Serial serve s₀.world log w →
      ∀ j ∈ jobs c, Plain c (serve w (asked c j)).2) : ∀ x ∈ callsOf c s.log, Plain c x.2 :=
  answers_of_run hs hrun c (fun j hj => hmeets.servable (hfine j hj)) (fun _ ha => hmeets.fits _ ha)
    (fun hlog j hj q hq => by
      rw [hmeets.only (hfine j hj) hq]
      exact hserve hlog j hj)

/-- **WAIT-FREE**: whatever the others do, a client that is not through has a step
    of its connection, and steps of its connection alone bring it through. -/
theorem meets_progress (hs : s₀.Fresh M N C V)
    (hmeets : ∀ c, Meets (C c) V (asked c) (given c) (Fine c) (Plain c))
    (hrun : Shared.Run M N serve jobs s₀ s) (c : ι) (hfine : ∀ j ∈ jobs c, Fine c j)
    (hserve : ∀ {log : List (Option ι × Q × A)} {w : W}, Serial serve s₀.world log w →
      ∀ j ∈ jobs c, Plain c (serve w (asked c j)).2) :
    (((C c).idle (s.conns c).left ∧ (s.conns c).leftHeard = jobs c)
        ∨ ∃ t, Shared.Step M N serve jobs (some c) s t)
      ∧ ∃ t, Shared.RunOf M N serve jobs c s t ∧ (C c).idle (t.conns c).left
        ∧ (t.conns c).leftHeard = jobs c := by
  have hservable : ∀ j ∈ jobs c, Servable (C c) V j := fun j hj => (hmeets c).servable (hfine j hj)
  have hfits : ∀ {log : List (Option ι × Q × A)} {w : W}, Serial serve s₀.world log w →
      ∀ j ∈ jobs c, ∀ q, V.Request ((C c).request j) q →
        Fits (C c) V (jobs c) (serve w q).2 := by
    intro log w hlog j hj q hq
    rw [(hmeets c).only (hfine j hj) hq]
    exact (hmeets c).fits _ (hserve hlog j hj)
  exact ⟨shared_moves hs hrun c hservable hfits, can_finish hs c hservable hfits hrun⟩

/-- From the start, all clients that are looked at can be brought through. -/
theorem meets_finish (serve : W → Q → W × A) (jobs : (c : ι) → List (J c))
    (hs : s₀.Fresh M N C V)
    (hmeets : ∀ c, Meets (C c) V (asked c) (given c) (Fine c) (Plain c)) (cs : List ι)
    (hfine : ∀ c ∈ cs, ∀ j ∈ jobs c, Fine c j)
    (hserve : ∀ w, ∀ c ∈ cs, ∀ j ∈ jobs c, Plain c (serve w (asked c j)).2) :
    ∃ t, Shared.Run M N serve jobs s₀ t ∧ ∀ c ∈ cs, (C c).idle (t.conns c).left
      ∧ (t.conns c).leftHeard = jobs c ∧ ∀ x ∈ callsOf c t.log, Plain c x.2 := by
  obtain ⟨t, hrun, hall⟩ := can_finish_all hs cs
    (fun c hc j hj => (hmeets c).servable (hfine c hc j hj))
    (fun {_ w} _ c hc j hj q hq => by
      rw [(hmeets c).only (hfine c hc j hj) hq]
      exact (hmeets c).fits _ (hserve w c hc j hj)) .refl
  refine ⟨t, hrun, fun c hc => ⟨(hall c hc).1, (hall c hc).2, ?_⟩⟩
  exact plain_of_run hs (hmeets c) hrun (hfine c hc) (fun {_ w} _ => hserve w c hc)

end Meeting

end ByteNetwork
