import Searpc.PooledServerProofs
import Searpc.RelayProofs

/-! # A concurrent server — questions whose answers take their time

    A process of the server for each connection, and one OBJECT that all of them
    ask.  A question and its answer are two steps, between which everybody else
    goes on: any number of questions may be open, and callers of whom nothing is
    known ask theirs.  Of the object only its histories are known.

    If a world that takes questions one by one explains these, it explains what
    the clients see (`concurrent_linearizable`): each of them has its own calls,
    in its own order, and every earlier state of the run is explained by a
    beginning of the same log.  So a call that was over before another was begun
    stands before it, whichever clients made them.

    Calls really do overlap: any two clients can have their calls open at the
    same time (`calls_overlap`).  An object that may answer at once can do
    all that the server of one world does (`concurrent_of_shared`).  A bounded
    number of workers changes nothing of this (`concurrent_of_pool`).

    What is asked may be a layer over another object, with which each caller
    deals by itself (`Object.through`). -/

namespace ByteNetwork

open Linearizability
open Relation (ReflTransGen)

variable {ι υ B Q A R W : Type} {J P T : ι → Type}

/-! ## The system -/

/-- What an object may do: any set of histories. -/
abbrev Object (κ Q A : Type) := List (Event κ Q A) → Prop

/-- Every history is explained by a world that starts with `w`. -/
def Object.LinearizableTo {κ : Type} [DecidableEq κ] (O : Object κ Q A) (serve : W → Q → W × A)
    (w : W) : Prop :=
  ∀ hist, O hist → Linearizable serve w hist

/-- The object whose callers pass their questions on to another one. -/
def Object.through {κ Q' A' : Type} [DecidableEq κ] (route : Route Q A Q' A')
    (O : Object κ Q' A') : Object κ Q A :=
  fun outer => ∃ phase inner, Relays route phase outer inner ∧ (inner = [] ∨ O inner)

/-- An object that may answer every question at once, as the world does. -/
def Object.AnswersAtOnce {κ : Type} [DecidableEq κ] (O : Object κ Q A) (serve : W → Q → W × A)
    (w : W) : Prop :=
  ∀ hist v, OneByOne serve w hist v → ∀ k q, O (hist ++ [.asked k q])
    ∧ O (hist ++ [.asked k q] ++ [.answered k (serve v q).2])

section Objects

variable {κ Q' A' : Type} [DecidableEq κ] {serve : W → Q → W × A} {w : W}

/-- **A LAYER OVER A LINEARIZABLE OBJECT IS LINEARIZABLE**. -/
theorem Object.LinearizableTo.through {O : Object κ Q' A'} {serve' : W → Q' → W × A'}
    (h : O.LinearizableTo serve' w) (route : Route Q A Q' A') :
    Object.LinearizableTo (.through route O) (route.serve serve') w := by
  intro outer houter
  obtain ⟨phase, inner, hrelays, hinner⟩ := houter
  refine hrelays.linearizable ?_
  rcases hinner with rfl | hinner
  · exact ⟨[], w, .nil, linearizes_nil⟩
  · exact h inner hinner

theorem Object.AnswersAtOnce.through {O : Object κ Q' A'} {serve' : W → Q' → W × A'}
    (h : O.AnswersAtOnce serve' w) (route : Route Q A Q' A') :
    Object.AnswersAtOnce (.through route O) (route.serve serve') w := by
  have hinner : ∀ {inner v}, OneByOne serve' w inner v → inner = [] ∨ O inner := by
    intro inner v hinner
    cases hinner with
    | nil => exact .inl rfl
    | snoc hinner k q => exact .inr (h _ _ hinner k q).2
  intro outer v houter k q
  refine ⟨?_, ?_⟩
  · obtain ⟨inner, hrelays, hone⟩ := houter.relays
    exact ⟨_, inner, hrelays.ask k q rfl, hinner hone⟩
  · obtain ⟨inner, hrelays, hone⟩ := (houter.snoc k q).relays
    exact ⟨_, inner, hrelays, hinner hone⟩

/-- All that a world explains. -/
theorem linearizable_answersAtOnce :
    Object.AnswersAtOnce (κ := κ) (Linearizable serve w) serve w := by
  intro hist v h k q
  obtain ⟨log, hserial, hlog, -⟩ := h.explained
  obtain ⟨log', hserial', hlog', -⟩ := (h.snoc k q).explained
  exact ⟨⟨log, v, hserial, hlog.ask q k⟩, ⟨log', _, hserial', hlog'⟩⟩

end Objects

/-- All connections and what the object was asked and answered, by the servers of
    the connections and by unknown callers. -/
structure Concurrent (B : Type) (J P : ι → Type) (Q A R υ : Type) where
  conns : (c : ι) → Net B (J c) (P c) Q A R
  hist  : List (Event (ι ⊕ υ) Q A)

/-- Nothing was asked. -/
def Concurrent.start (s : Shared B J P Q A R W) : Concurrent B J P Q A R υ := ⟨s.conns, []⟩

/-- Who makes a step: a client, the server of a connection, or an unknown caller. -/
inductive Actor (ι : Type) where
  | client (c : ι)
  | server (c : ι)
  | other

variable [DecidableEq ι]

/-- Replace a connection, and go on with the history. -/
def Concurrent.set (s : Concurrent B J P Q A R υ) (c : ι) (x : Net B (J c) (P c) Q A R)
    (hist : List (Event (ι ⊕ υ) Q A)) : Concurrent B J P Q A R υ :=
  ⟨Function.update s.conns c x, hist⟩

section

variable [DecidableEq υ] (M : (c : ι) → Process B Unit (J c) (P c)) (N : Process B Q A R)
  (O : Object (ι ⊕ υ) Q A) (jobs : (c : ι) → List (J c))

/-- A step of the system. -/
inductive Concurrent.Step :
    Actor ι → Concurrent B J P Q A R υ → Concurrent B J P Q A R υ → Prop where
  | client {s : Concurrent B J P Q A R υ} {c : ι} {x : Net B (J c) (P c) Q A R}
      (h : Net.LeftStep (M c) (s.conns c) x) (hjobs : x.leftHeard <+: jobs c) :
      Step (.client c) s (s.set c x s.hist)
  | work {s : Concurrent B J P Q A R υ} {c : ι} {x : Net B (J c) (P c) Q A R}
      (h : Net.Works N (s.conns c) x) : Step (.server c) s (s.set c x s.hist)
  -- the server of a connection asks, and waits
  | ask {s : Concurrent B J P Q A R υ} {c : ι} {q : Q} (h : N.act (s.conns c).right = .ask q)
      (hfree : Free (.inl c) s.hist) (hO : O (s.hist ++ [.asked (.inl c) q])) :
      Step (.server c) s { s with hist := s.hist ++ [.asked (.inl c) q] }
  | answer {s : Concurrent B J P Q A R υ} {c : ι} {q : Q} {a : A}
      (h : N.act (s.conns c).right = .ask q) (hwaiting : Waiting (.inl c) s.hist)
      (hO : O (s.hist ++ [.answered (.inl c) a])) :
      Step (.server c) s (s.set c ((s.conns c).goRight (N.answered (s.conns c).right a)
        ⟨[], [], [a], [q]⟩ (s.conns c).toRight) (s.hist ++ [.answered (.inl c) a]))
  -- and so does an unknown caller
  | otherAsk {s : Concurrent B J P Q A R υ} {u : υ} {q : Q} (hfree : Free (.inr u) s.hist)
      (hO : O (s.hist ++ [.asked (.inr u) q])) :
      Step .other s { s with hist := s.hist ++ [.asked (.inr u) q] }
  | otherAnswer {s : Concurrent B J P Q A R υ} {u : υ} {a : A} (hwaiting : Waiting (.inr u) s.hist)
      (hO : O (s.hist ++ [.answered (.inr u) a])) :
      Step .other s { s with hist := s.hist ++ [.answered (.inr u) a] }

/-- A run of the system. -/
def Concurrent.Run : Concurrent B J P Q A R υ → Concurrent B J P Q A R υ → Prop :=
  ReflTransGen (fun s t => ∃ who, Concurrent.Step M N O jobs who s t)

/-- A connection seen by itself: its server has asked the questions of the history
    and has its answers, but for one that is open. -/
structure Concurrent.Follows (s₀ : Shared B J P Q A R W) (s : Concurrent B J P Q A R υ) (c : ι) :
    Prop where
  run   : ∃ n, Steps (Net.Step (M c) N) n (s₀.conns c) (s.conns c)
  jobs  : (s.conns c).leftHeard <+: jobs c
  heard : (s.conns c).rightHeard = answersOf (.inl c) s.hist
  asked : questionsOf (.inl c) s.hist = (s.conns c).rightAsked
    ∨ ∃ q, N.act (s.conns c).right = .ask q
      ∧ questionsOf (.inl c) s.hist = (s.conns c).rightAsked ++ [q]

end

variable {M : (c : ι) → Process B Unit (J c) (P c)} {N : Process B Q A R}
  {jobs : (c : ι) → List (J c)} {s₀ : Shared B J P Q A R W} {s t : Concurrent B J P Q A R υ}

/-! ## One connection -/

theorem concurrent_set_self (s : Concurrent B J P Q A R υ) (c : ι) (x : Net B (J c) (P c) Q A R)
    (hist : List (Event (ι ⊕ υ) Q A)) : (s.set c x hist).conns c = x :=
  Function.update_self ..

theorem concurrent_set_other (s : Concurrent B J P Q A R υ) {c d : ι} (h : c ≠ d)
    (x : Net B (J c) (P c) Q A R) (hist : List (Event (ι ⊕ υ) Q A)) :
    (s.set c x hist).conns d = s.conns d :=
  Function.update_of_ne h.symm ..

/-- A server that waits for its answer stays where it is. -/
theorem right_waits {J₁ P₁ : Type} {K : Process B Unit J₁ P₁} {x y : Net B J₁ P₁ Q A R}
    (h : Net.Step K N x y) (hheard : y.rightHeard = x.rightHeard) {q : Q}
    (hask : N.act x.right = .ask q) : y.right = x.right := by
  cases h with
  | left => rfl
  | right h hq =>
      obtain ⟨a, rfl, -⟩ := moves_of_ask_right hask h
      exact absurd (List.append_right_eq_self.mp hheard) (List.cons_ne_nil a [])

variable [DecidableEq υ] {O : Object (ι ⊕ υ) Q A} {serve : W → Q → W × A}

/-- What a connection does between its questions. -/
theorem follows_net {c : ι} (h : s.Follows M N jobs s₀ c) {x : Net B (J c) (P c) Q A R}
    (hstep : Net.Step (M c) N (s.conns c) x) (hjobs : x.leftHeard <+: jobs c)
    (hheard : x.rightHeard = (s.conns c).rightHeard) :
    Concurrent.Follows M N jobs s₀ (s.set c x s.hist) c := by
  obtain ⟨n, hrun⟩ := h.run
  have hself := concurrent_set_self s c x s.hist
  refine ⟨⟨n + 1, ?_⟩, ?_, ?_, ?_⟩
  · rw [hself]
    exact hrun.trans (.head hstep .refl)
  · rw [hself]
    exact hjobs
  · rw [hself, hheard]
    exact h.heard
  · rw [hself, asked_of_heard hstep hheard]
    refine h.asked.imp id (fun ⟨q, hask, hq⟩ => ⟨q, ?_, hq⟩)
    rw [right_waits hstep hheard hask]
    exact hask

/-- What does not touch a connection. -/
theorem follows_other {c : ι} (h : s.Follows M N jobs s₀ c) (hconn : t.conns c = s.conns c)
    (hquestions : questionsOf (.inl c) t.hist = questionsOf (.inl c) s.hist)
    (hanswers : answersOf (.inl c) t.hist = answersOf (.inl c) s.hist) :
    t.Follows M N jobs s₀ c := by
  refine ⟨?_, ?_, ?_, ?_⟩
  · rw [hconn]
    exact h.run
  · rw [hconn]
    exact h.jobs
  · rw [hconn, hanswers]
    exact h.heard
  · rw [hconn, hquestions]
    exact h.asked

variable {C : (c : ι) → Client (M c) (T c)} {V : Server N}

/-- As many questions as answers, but for one that is open. -/
theorem Concurrent.Follows.lengths {c : ι} (h : s.Follows M N jobs s₀ c)
    (hs : (s₀.conns c).Fresh (C c) V) :
    (s.conns c).rightAsked.length = (answersOf (.inl c) s.hist).length := by
  obtain ⟨n, hrun⟩ := h.run
  rw [← h.heard]
  exact asked_length hrun (by rw [hs.asked, hs.right]; rfl)

theorem follows_step {who : Actor ι} (hs : s₀.Fresh M N C V) {c : ι}
    (h : s.Follows M N jobs s₀ c) (hstep : Concurrent.Step M N O jobs who s t) :
    t.Follows M N jobs s₀ c := by
  have hlengths := h.lengths (hs.conns c)
  cases hstep with
  | @client _ d x hleft hjobs =>
      by_cases hd : d = c
      · subst hd
        obtain ⟨hnet, -, hheard⟩ := hleft.step (N := N)
        exact follows_net h hnet hjobs hheard
      · exact follows_other h (concurrent_set_other s hd x _) rfl rfl
  | @work _ d x hworks =>
      by_cases hd : d = c
      · subst hd
        obtain ⟨hnet, -, hheard⟩ := hworks.1.step (M := M d)
        exact follows_net h hnet (hheard ▸ h.jobs) hworks.2
      · exact follows_other h (concurrent_set_other s hd x _) rfl rfl
  | @ask _ d q hask hfree =>
      by_cases hd : d = c
      · subst hd
        refine ⟨h.run, h.jobs, h.heard.trans (answers_asked q).symm, .inr ⟨q, hask, ?_⟩⟩
        rw [questions_asked]
        rcases h.asked with hasked | ⟨q', -, hasked⟩
        · rw [hasked]
        · rw [Free, hasked, List.length_append, List.length_singleton] at hfree
          omega
      · exact follows_other h rfl (questions_asked_other q (fun heq => hd (Sum.inl.inj heq)))
          (answers_asked q)
  | @answer _ d q a hask hwaiting =>
      by_cases hd : d = c
      · subst hd
        obtain ⟨n, hrun⟩ := h.run
        have hself := concurrent_set_self s d ((s.conns d).goRight
          (N.answered (s.conns d).right a) ⟨[], [], [a], [q]⟩ (s.conns d).toRight)
          (s.hist ++ [.answered (.inl d) a])
        refine ⟨⟨n + 1, ?_⟩, ?_, ?_, .inl ?_⟩
        · rw [hself]
          exact hrun.trans (.head (.right (.ask a hask) rfl) .refl)
        · rw [hself]
          exact h.jobs
        · rw [hself]
          exact (congrArg (· ++ [a]) h.heard).trans (answers_answered a).symm
        · rw [hself]
          refine (questions_answered a).trans ?_
          rcases h.asked with hasked | ⟨q', hask', hasked⟩
          · rw [Waiting, hasked] at hwaiting
            omega
          · rw [hasked, Act.ask.inj (hask'.symm.trans hask)]
            rfl
      · exact follows_other h (concurrent_set_other s hd _ _) (questions_answered a)
          (answers_answered_other a (fun heq => hd (Sum.inl.inj heq)))
  | otherAsk =>
      exact follows_other h rfl (questions_asked_other _ Sum.inr_ne_inl) (answers_asked _)
  | otherAnswer =>
      exact follows_other h rfl (questions_answered _)
        (answers_answered_other _ Sum.inr_ne_inl)

theorem follows_run (hs : s₀.Fresh M N C V) (hrun : Concurrent.Run M N O jobs (.start s₀) s)
    (c : ι) : s.Follows M N jobs s₀ c := by
  induction hrun with
  | refl =>
      have h := hs.conns c
      refine ⟨⟨0, .refl⟩, ?_, h.right, .inl h.asked.symm⟩
      show (s₀.conns c).leftHeard <+: jobs c
      rw [h.left]
      exact List.nil_prefix
  | tail _ hstep ih =>
      obtain ⟨who, hstep⟩ := hstep
      exact follows_step hs ih hstep

/-- **WHAT A LOG SAYS IS A RUN**: calls that explain the questions and answers of a
    connection are those of a run of it, in which the client stands where it
    stands. -/
theorem Concurrent.Follows.tracks {c : ι} (h : s.Follows M N jobs s₀ c)
    (hs : (s₀.conns c).Fresh (C c) V) {calls : List (Q × A)}
    (hasked : calls.map Prod.fst <+: questionsOf (.inl c) s.hist)
    (hanswered : answersOf (.inl c) s.hist <+: calls.map Prod.snd) :
    ∃ x, Tracks (M c) N (jobs c) (s₀.conns c) x calls ∧ x.left = (s.conns c).left
      ∧ x.leftHeard = (s.conns c).leftHeard := by
  obtain ⟨n, hrun⟩ := h.run
  have hlengths := h.lengths hs
  have hle := hanswered.length_le
  have hle' := hasked.length_le
  rw [List.length_map] at hle hle'
  by_cases hlast : calls.length = (s.conns c).rightAsked.length
  · -- no answer that is still to come
    refine ⟨s.conns c, ⟨⟨n, hrun⟩, h.jobs, ?_, ?_⟩, rfl, rfl⟩
    · rw [h.heard]
      exact hanswered.eq_of_length (by rw [List.length_map]; omega)
    · have hprefix : (s.conns c).rightAsked <+: questionsOf (.inl c) s.hist := by
        rcases h.asked with hq | ⟨q, -, hq⟩
        · rw [hq]
        · rw [hq]
          exact List.prefix_append _ _
      exact ((List.prefix_of_prefix_length_le hasked hprefix (by
        rw [List.length_map]
        omega)).eq_of_length (by rw [List.length_map]; omega)).symm
  · -- the open question is answered in the log
    rcases h.asked with hq | ⟨q, hask, hq⟩
    · rw [hq] at hle'
      omega
    · rw [hq, List.length_append, List.length_singleton] at hle'
      have hall : calls.map Prod.fst = (s.conns c).rightAsked ++ [q] := by
        rw [← hq]
        exact hasked.eq_of_length (by
          rw [List.length_map, hq, List.length_append, List.length_singleton]
          omega)
      obtain ⟨new, hnew⟩ := hanswered
      have hsize := congrArg List.length hnew
      rw [List.length_append, List.length_map] at hsize
      obtain ⟨a, rfl⟩ := List.length_eq_one_iff.mp (show new.length = 1 by omega)
      refine ⟨(s.conns c).goRight (N.answered (s.conns c).right a) ⟨[], [], [a], [q]⟩
        (s.conns c).toRight, ⟨⟨n + 1, hrun.trans (.head (.right (.ask a hask) rfl) .refl)⟩,
        h.jobs, ?_, hall.symm⟩, rfl, rfl⟩
      rw [← hnew, ← h.heard]
      rfl

/-! ## All connections -/

/-- What a log says of the clients: each one that keeps to what the server takes,
    and whose answers it can take, has its calls in it. -/
def Accounts (C : (c : ι) → Client (M c) (T c)) (asked : (c : ι) → J c → Q)
    (given : (c : ι) → A → T c) (Fine : (c : ι) → J c → Prop) (Plain : ι → A → Prop)
    (jobs : (c : ι) → List (J c)) (s : Concurrent B J P Q A R υ)
    (log : List ((ι ⊕ υ) × Q × A)) : Prop :=
  ∀ c, (∀ j ∈ jobs c, Fine c j) → (∀ x ∈ callsBy (.inl c) log, Plain c x.2) →
    (s.conns c).leftHeard <+: jobs c
      ∧ InOrder (C c) (asked c) (given c) (s.conns c).leftHeard (callsBy (.inl c) log)
        (s.conns c).left

theorem hist_grows (hrun : Concurrent.Run M N O jobs s t) : s.hist <+: t.hist := by
  induction hrun with
  | refl => exact List.prefix_refl _
  | tail _ hstep ih =>
      obtain ⟨who, hstep⟩ := hstep
      refine ih.trans ?_
      cases hstep with
      | client => exact List.prefix_refl _
      | work => exact List.prefix_refl _
      | _ => exact List.prefix_append _ _

/-- The object did what it may. -/
theorem hist_run (hrun : Concurrent.Run M N O jobs (.start s₀) s) : s.hist = [] ∨ O s.hist := by
  induction hrun with
  | refl => exact .inl rfl
  | tail _ hstep ih =>
      obtain ⟨who, hstep⟩ := hstep
      cases hstep with
      | client => exact ih
      | work => exact ih
      | ask _ _ hO => exact .inr hO
      | answer _ _ hO => exact .inr hO
      | otherAsk _ hO => exact .inr hO
      | otherAnswer _ hO => exact .inr hO

section Meeting

variable {asked : (c : ι) → J c → Q} {given : (c : ι) → A → T c} {Fine : (c : ι) → J c → Prop}
  {Plain : ι → A → Prop}

/-- What explains the history explains the clients. -/
theorem accounts_of_linearizes (hs : s₀.Fresh M N C V)
    (hmeets : ∀ c, Meets (C c) V (asked c) (given c) (Fine c) (Plain c))
    (hrun : Concurrent.Run M N O jobs (.start s₀) s) {log : List ((ι ⊕ υ) × Q × A)}
    (hlog : Linearizes s.hist log) : Accounts C asked given Fine Plain jobs s log := by
  intro c hfine hplain
  obtain ⟨x, htracks, hleft, hbegun⟩ := (follows_run hs hrun c).tracks (hs.conns c)
    (hlog.asked (.inl c)) (hlog.answered (.inl c))
  have hin := htracks.inOrder (hs.conns c) (hmeets c) hfine hplain
  rw [hleft, hbegun] at hin
  exact ⟨hbegun ▸ htracks.jobs, hin⟩

/-- **LINEARIZABLE, IF THE OBJECT IS**: one sequence of calls explains all that the
    object was asked and answered and all that the clients have seen, and a
    beginning of it every earlier state. -/
theorem concurrent_linearizable (hs : s₀.Fresh M N C V)
    (hmeets : ∀ c, Meets (C c) V (asked c) (given c) (Fine c) (Plain c))
    (hO : O.LinearizableTo serve s₀.world)
    (hrun : Concurrent.Run M N O jobs (.start s₀) s) :
    ∃ log v, Serial serve s₀.world log v ∧ Linearizes s.hist log
      ∧ Accounts C asked given Fine Plain jobs s log
      ∧ ∀ s', Concurrent.Run M N O jobs (.start s₀) s' → Concurrent.Run M N O jobs s' s →
        ∃ l, l <+: log ∧ Linearizes s'.hist l ∧ Accounts C asked given Fine Plain jobs s' l := by
  obtain ⟨log, v, hserial, hlog⟩ : Linearizable serve s₀.world s.hist := by
    rcases hist_run hrun with hnil | hhist
    · rw [hnil]
      exact ⟨[], s₀.world, .nil, linearizes_nil⟩
    · exact hO s.hist hhist
  refine ⟨log, v, hserial, hlog, accounts_of_linearizes hs hmeets hrun hlog,
    fun s' hrun' hlater => ?_⟩
  obtain ⟨l, hl, hpast⟩ := hlog.before (hist_grows hlater)
  exact ⟨l, hl, hpast, accounts_of_linearizes hs hmeets hrun' hpast⟩

end Meeting

/-- What holds of the world's answers to jobs holds of those in a log that explains
    the history, if with it those that came fit. -/
theorem plain_of_linearizes (hs : s₀.Fresh M N C V) {c : ι} {ask : J c → Q} {give : A → T c}
    {Fit : J c → Prop} {Takes : A → Prop} (hmeets : Meets (C c) V ask give Fit Takes)
    (hrun : Concurrent.Run M N O jobs (.start s₀) s) {log : List ((ι ⊕ υ) × Q × A)} {w v : W}
    (hserial : Serial serve w log v) (hlog : Linearizes s.hist log) (hfine : ∀ j ∈ jobs c, Fit j)
    (Short Good : A → Prop) (hplain : ∀ a, Short a → Good a → Takes a)
    (hserve : ∀ v, ∀ j ∈ jobs c, Good (serve v (ask j)).2)
    (hshort : ∀ x ∈ callsBy (.inl c) log, Short x.2) : ∀ x ∈ callsBy (.inl c) log, Takes x.2 := by
  obtain ⟨y, htracks, -, -⟩ := (follows_run hs hrun c).tracks (hs.conns c)
    (hlog.asked (.inl c)) (hlog.answered (.inl c))
  have hgood := htracks.answers (hs.conns c) (fun j hj => hmeets.servable (hfine j hj)) Short
    (fun a ha hg => hmeets.fits _ (hplain a ha hg)) (fun x hx j hj hreq => by
      obtain ⟨z, hz, rfl⟩ := mem_callsBy hx
      obtain ⟨-, u, -, hanswer⟩ := hserial.answered z hz
      rw [hanswer, hmeets.only (hfine j hj) hreq]
      exact hserve u j hj) hshort
  exact fun x hx => hplain _ (hshort x hx) (hgood x hx)

/-! ## Calls do overlap -/

/-- What a connection does by itself is a run of the system. -/
theorem concurrent_ticks {c : ι} {H : List A} {n : Nat} {x y : Net B (J c) (P c) Q A R}
    (h : Steps (Net.TickIn (M c) N (jobs c) H) n x y) : ∀ {s : Concurrent B J P Q A R υ},
      s.conns c = x → x.rightHeard = H → Concurrent.Run M N O jobs s (s.set c y s.hist) := by
  induction h with
  | refl =>
      rintro s rfl _
      rw [Concurrent.set, Function.update_eq_self]
      exact .refl
  | @head n x y z hstep _ ih =>
      rintro s rfl rfl
      obtain ⟨hnet, hjobs, hheard⟩ := hstep
      have hsame : y.rightHeard = (s.conns c).rightHeard :=
        hheard.eq_of_length_le (grows_stepBy hnet).right.length_le
      have hrest := ih (s := s.set c y s.hist) (concurrent_set_self s c y _) hsame
      rw [show (s.set c y s.hist).set c z (s.set c y s.hist).hist = s.set c z s.hist by
        simp only [Concurrent.set, Function.update_idem]] at hrest
      rcases halves_of_step (step_of_tick ⟨hnet, hjobs, hheard⟩) with hleft | hright
      · exact .head ⟨_, .client hleft hjobs⟩ hrest
      · exact .head ⟨_, .work ⟨hright, hsame⟩⟩ hrest

/-- A client brings the server of its connection to its question. -/
theorem comes_to_ask {c : ι} (hs : (s.conns c).Fresh (C c) V) {j : J c} (hj : Servable (C c) V j)
    (hjobs : [j] <+: jobs c) : ∃ q x, Concurrent.Run M N O jobs s (s.set c x s.hist)
      ∧ N.act x.right = .ask q := by
  obtain ⟨hgood, q, hq⟩ := hj
  obtain ⟨n, x, hrun, -, hholds, -⟩ := ticks_request (L := jobs c) (H := (s.conns c).rightHeard)
    hs.idle hs.ready hs.quiet hgood hq (by rw [hs.left]; exact hjobs) (List.prefix_refl _)
  exact ⟨q, x, concurrent_ticks hrun rfl rfl, V.holds_asks hholds⟩

/-- **CALLS DO OVERLAP**: any two clients with jobs can have their calls open at the
    same time. -/
theorem calls_overlap (hs : s₀.Fresh M N C V) {c d : ι} (hne : c ≠ d) {j : J c} {k : J d}
    (hj : Servable (C c) V j) (hk : Servable (C d) V k) (hc : [j] <+: jobs c)
    (hd : [k] <+: jobs d) :
    ∃ s : Concurrent B J P Q A R υ, Concurrent.Run M N (Linearizable serve s₀.world) jobs
      (.start s₀) s ∧ Waiting (.inl c) s.hist ∧ Waiting (.inl d) s.hist := by
  have hother : (.inl d : ι ⊕ υ) ≠ .inl c := fun heq => hne (Sum.inl.inj heq).symm
  obtain ⟨q, x, hrun, hask⟩ := comes_to_ask (O := Linearizable serve s₀.world)
    (s := (.start s₀ : Concurrent B J P Q A R υ)) (hs.conns c) hj hc
  have hself : ((Concurrent.start s₀ : Concurrent B J P Q A R υ).set c x []).conns d
      = s₀.conns d := concurrent_set_other _ hne x []
  obtain ⟨q', y, hrun', hask'⟩ := comes_to_ask (O := Linearizable serve s₀.world)
    (s := (Concurrent.start s₀ : Concurrent B J P Q A R υ).set c x [])
    (by rw [hself]; exact hs.conns d) hk hd
  have hopen : Linearizes ([] ++ [.asked (.inl c) q] : List (Event (ι ⊕ υ) Q A)) [] :=
    linearizes_nil.ask q _
  have hopen' : Linearizes ([] ++ [.asked (.inl c) q] ++ [.asked (.inl d) q'] :
      List (Event (ι ⊕ υ) Q A)) [] := hopen.ask q' _
  have hfirst := hrun'.tail ⟨_, .ask (c := c) (q := q)
    (by rw [concurrent_set_other _ hne.symm, concurrent_set_self]; exact hask) rfl
    ⟨[], s₀.world, .nil, hopen⟩⟩
  have hsecond := hfirst.tail ⟨_, .ask (c := d) (q := q')
    (by rw [concurrent_set_self]; exact hask')
    (by
      rw [Free, questions_asked_other q hother.symm, answers_asked]
      rfl)
    ⟨[], s₀.world, .nil, hopen'⟩⟩
  refine ⟨_, hrun.trans hsecond, ?_, ?_⟩
  · rw [Waiting, questions_asked_other q' hother, questions_asked, answers_asked, answers_asked]
    rfl
  · rw [Waiting, questions_asked, questions_asked_other q hother.symm, answers_asked,
      answers_asked]
    rfl

/-! ## A bounded number of workers -/

/-- The concurrent server, and where its connections are, as in the pool of the
    server of one world. -/
structure ConcurrentPool (B : Type) (J P : ι → Type) (Q A R υ : Type) where
  sys     : Concurrent B J P Q A R υ
  taken   : List ι
  queue   : List ι
  running : List ι
  closed  : List ι

/-- Nobody has been accepted. -/
def ConcurrentPool.start (s : Shared B J P Q A R W) : ConcurrentPool B J P Q A R υ :=
  ⟨.start s, [], [], [], []⟩

/-- A client acts until it has closed, and at the server's end of a connection
    somebody must have it. -/
inductive ConcurrentPool.Allows (s : ConcurrentPool B J P Q A R υ) : Actor ι → Prop where
  | client {c : ι} (hopen : c ∉ s.closed) : Allows s (.client c)
  | server {c : ι} (hc : c ∈ s.running) : Allows s (.server c)
  | other : Allows s .other

section

variable (n : Nat) (M : (c : ι) → Process B Unit (J c) (P c)) {N : Process B Q A R} (V : Server N)
  (O : Object (ι ⊕ υ) Q A) (jobs : (c : ι) → List (J c))

/-- A step of the pool. -/
inductive ConcurrentPool.Step :
    ConcurrentPool B J P Q A R υ → ConcurrentPool B J P Q A R υ → Prop where
  | move {s : ConcurrentPool B J P Q A R υ} {who : Actor ι} {u : Concurrent B J P Q A R υ}
      (hwho : s.Allows who) (h : Concurrent.Step M N O jobs who s.sys u) :
      Step s { s with sys := u }
  -- the listener and the workers do what those of the other pool do
  | close {s : ConcurrentPool B J P Q A R υ} {c : ι}
      (h : (M c).act (s.sys.conns c).left = .ask ()) : Step s { s with closed := c :: s.closed }
  | accept {s : ConcurrentPool B J P Q A R υ} {c : ι} (h : c ∉ s.taken ++ s.queue) :
      Step s { s with queue := s.queue ++ [c] }
  | take {s : ConcurrentPool B J P Q A R υ} {c : ι} {rest : List ι} (hq : s.queue = c :: rest)
      (hn : s.running.length < n) :
      Step s { s with taken := s.taken ++ [c], queue := rest, running := s.running ++ [c] }
  | leave {s : ConcurrentPool B J P Q A R υ} {c : ι} (hc : c ∈ s.running) (hclosed : c ∈ s.closed)
      (hready : V.ready (s.sys.conns c).right) (hend : (s.sys.conns c).toRight = []) :
      Step s { s with running := s.running.erase c }
  | drop {s : ConcurrentPool B J P Q A R υ} {c : ι} (hc : c ∈ s.running)
      (hhalt : N.act (s.sys.conns c).right = .halt) :
      Step s { s with running := s.running.erase c }

/-- A run of the pool. -/
def ConcurrentPool.Run : ConcurrentPool B J P Q A R υ → ConcurrentPool B J P Q A R υ → Prop :=
  ReflTransGen (ConcurrentPool.Step n M V O jobs)

end

section Pool

variable {n : Nat} {p p' : ConcurrentPool B J P Q A R υ}

/-- A run of the pool is a run of the server without one. -/
theorem concurrent_of_pool (hrun : ConcurrentPool.Run n M V O jobs p p') :
    Concurrent.Run M N O jobs p.sys p'.sys := by
  induction hrun with
  | refl => exact .refl
  | tail _ hstep ih =>
      cases hstep with
      | move _ h => exact ih.tail ⟨_, h⟩
      | _ => exact ih

/-- The connections are in their places, and nobody asks for one that was not
    taken. -/
theorem placed_of_pool (hrun : ConcurrentPool.Run n M V O jobs (.start s₀) p) :
    Placed n p.taken p.queue p.running
      ∧ ∀ c, c ∉ p.taken → questionsOf (.inl c) p.sys.hist = [] := by
  induction hrun with
  | refl => exact ⟨placed_nil n, fun _ _ => rfl⟩
  | @tail p p' _ hstep ih =>
      obtain ⟨hplaced, hnone⟩ := ih
      cases hstep with
      | move hwho h =>
          refine ⟨hplaced, fun c hc => ?_⟩
          cases h with
          | client => exact hnone c hc
          | work => exact hnone c hc
          | @ask _ d q =>
              cases hwho with
              | server hd =>
                  have hne : d ≠ c := fun heq => hc (heq ▸ hplaced.among d hd)
                  exact (questions_asked_other q (fun heq => hne (Sum.inl.inj heq))).trans
                    (hnone c hc)
          | answer => exact (questions_answered _).trans (hnone c hc)
          | @otherAsk _ u q =>
              have hne : (.inr u : ι ⊕ υ) ≠ .inl c := Sum.inr_ne_inl
              exact (questions_asked_other q hne).trans (hnone c hc)
          | otherAnswer => exact (questions_answered _).trans (hnone c hc)
      | close => exact ⟨hplaced, hnone⟩
      | accept h => exact ⟨hplaced.accept h, hnone⟩
      | take hq hn =>
          rw [hq] at hplaced
          exact ⟨hplaced.take hn, fun c hc => hnone c (fun h => hc (List.mem_append_left _ h))⟩
      | leave => exact ⟨hplaced.erase _, hnone⟩
      | drop => exact ⟨hplaced.erase _, hnone⟩

end Pool

/-! ## Objects that answer at once -/

section AtOnce

variable {a b : Shared B J P Q A R W} {hist : List (Event (ι ⊕ υ) Q A)} {w : W}

/-- The world's answer in two steps. -/
theorem ask_at_once {c : ι} {q : Q} (hask : N.act (a.conns c).right = .ask q)
    (hO : O.AnswersAtOnce serve w) (h : OneByOne serve w hist a.world) :
    Concurrent.Step M N O jobs (.server c) ⟨a.conns, hist⟩
        ⟨a.conns, hist ++ [.asked (.inl c) q]⟩
      ∧ Concurrent.Step M N O jobs (.server c)
        ⟨a.conns, hist ++ [.asked (.inl c) q]⟩ ⟨(a.answer N serve c q).conns,
          hist ++ [.asked (.inl c) q] ++ [.answered (.inl c) (serve a.world q).2]⟩ := by
  obtain ⟨hasked, hanswered⟩ := hO hist a.world h (.inl c) q
  exact ⟨.ask hask (h.free _) hasked, .answer hask (h.waiting _ q) hanswered⟩

/-- The world's answer to an unknown caller. -/
theorem other_at_once (u : υ) (q : Q) (hO : O.AnswersAtOnce serve w)
    (h : OneByOne serve w hist a.world) :
    Concurrent.Step M N O jobs .other ⟨a.conns, hist⟩
        ⟨a.conns, hist ++ [.asked (.inr u) q]⟩
      ∧ Concurrent.Step M N O jobs .other
        ⟨a.conns, hist ++ [.asked (.inr u) q]⟩ ⟨a.conns,
          hist ++ [.asked (.inr u) q] ++ [.answered (.inr u) (serve a.world q).2]⟩ := by
  obtain ⟨hasked, hanswered⟩ := hO hist a.world h (.inr u) q
  exact ⟨.otherAsk (h.free _) hasked, .otherAnswer (h.waiting _ q) hanswered⟩

/-- **THE SERVER OF ONE WORLD IS A SPECIAL CASE**: its runs are those in which every
    question is answered before the next one is asked. -/
theorem concurrent_of_shared (u : υ) (hO : O.AnswersAtOnce serve s₀.world)
    (hrun : Shared.Run M N serve jobs s₀ a) :
    ∃ hist, Concurrent.Run M N O jobs (.start s₀) ⟨a.conns, hist⟩
      ∧ OneByOne serve s₀.world hist a.world := by
  induction hrun with
  | refl => exact ⟨[], .refl, .nil⟩
  | @tail a b _ hstep ih =>
      obtain ⟨hist, hrun, hone⟩ := ih
      obtain ⟨who, hstep⟩ := hstep
      cases hstep with
      | move h hjobs hown =>
          refine ⟨hist, hrun.tail ?_, hone⟩
          rcases halves_of_step h with hleft | hright
          · exact ⟨_, .client hleft hjobs⟩
          · exact ⟨_, .work ⟨hright, hown⟩⟩
      | call hask =>
          obtain ⟨h₁, h₂⟩ := ask_at_once hask hO hone
          exact ⟨_, (hrun.tail ⟨_, h₁⟩).tail ⟨_, h₂⟩, hone.snoc _ _⟩
      | other q =>
          obtain ⟨h₁, h₂⟩ := other_at_once u q hO hone
          exact ⟨_, (hrun.tail ⟨_, h₁⟩).tail ⟨_, h₂⟩, hone.snoc _ q⟩

/-- So is the pool of one world. -/
theorem pool_of_pooled (u : υ) {n : Nat} (hO : O.AnswersAtOnce serve s₀.world)
    {p : Pooled B J P Q A R W} (hrun : Pooled.Run n M V serve jobs (.start s₀) p) :
    ∃ hist, ConcurrentPool.Run n M V O jobs (.start s₀)
        ⟨⟨p.sys.conns, hist⟩, p.taken, p.queue, p.running, p.closed⟩
      ∧ OneByOne serve s₀.world hist p.sys.world := by
  induction hrun with
  | refl => exact ⟨[], .refl, .nil⟩
  | @tail p p' _ hstep ih =>
      obtain ⟨hist, hrun, hone⟩ := ih
      obtain ⟨who, hstep⟩ := hstep
      cases hstep with
      | client hopen h hjobs =>
          exact ⟨hist, hrun.tail (.move (.client hopen) (.client h hjobs)), hone⟩
      | close h => exact ⟨hist, hrun.tail (.close h), hone⟩
      | accept h => exact ⟨hist, hrun.tail (.accept h), hone⟩
      | take hq hn => exact ⟨hist, hrun.tail (.take hq hn), hone⟩
      | work hc h => exact ⟨hist, hrun.tail (.move (.server hc) (.work h)), hone⟩
      | call hc hask =>
          obtain ⟨h₁, h₂⟩ := ask_at_once hask hO hone
          exact ⟨_, (hrun.tail (.move (.server hc) h₁)).tail (.move (.server hc) h₂),
            hone.snoc _ _⟩
      | leave hc hclosed hready hend =>
          exact ⟨hist, hrun.tail (.leave hc hclosed hready hend), hone⟩
      | drop hc hhalt => exact ⟨hist, hrun.tail (.drop hc hhalt), hone⟩
      | other q =>
          obtain ⟨h₁, h₂⟩ := other_at_once u q hO hone
          exact ⟨_, (hrun.tail (.move .other h₁)).tail (.move .other h₂), hone.snoc _ q⟩

end AtOnce

end ByteNetwork
