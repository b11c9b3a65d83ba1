import Mathlib.Logic.Function.Basic
import Searpc.LinearizableProofs

/-! # Relayed calls — answers that take a question

    Whoever is asked may have to ask somebody else before it can answer.  Here
    each caller of an OUTER object has a process there of its own: it looks at the
    question, and either knows the answer, or passes a question on to the INNER
    object and makes its answer of the one it gets (`Route`).  Meanwhile
    everybody else goes on.

    If a world that takes questions one by one explains the inner history, the
    same world, asked through the route, explains the outer one
    (`Relays.linearizable`): nothing that the processes do by themselves has to
    happen at an instant.  In the proof the inner log tells when a passed question
    takes effect, and a process that knows its answer takes effect when it finds
    out. -/

namespace Linearizability

variable {κ Q A Q' A' W : Type}

/-! ## Routes -/

/-- What comes of a question: its answer, or a question to pass on, and what the
    answer to that one means. -/
abbrev Route (Q A Q' A' : Type) := Q → A ⊕ Q' × (A' → A)

/-- A world asked through a route. -/
def Route.serve (route : Route Q A Q' A') (serve : W → Q' → W × A') (w : W) (q : Q) : W × A :=
  match route q with
  | .inl a => (w, a)
  | .inr (q', give) => ((serve w q').1, give (serve w q').2)

theorem Route.serve_known {route : Route Q A Q' A'} {q : Q} {a : A} (h : route q = .inl a)
    (serve : W → Q' → W × A') (w : W) : route.serve serve w q = (w, a) := by
  rw [Route.serve, h]

theorem Route.serve_passed {route : Route Q A Q' A'} {q : Q} {q' : Q'} {give : A' → A}
    (h : route q = .inr (q', give)) (serve : W → Q' → W × A') (w : W) :
    route.serve serve w q = ((serve w q').1, give (serve w q').2) := by
  rw [Route.serve, h]

/-- What the process of a caller is at. -/
inductive Phase (Q A Q' A' : Type) where
  | free
  | asked (q : Q)
  | inside (q : Q) (q' : Q') (give : A' → A)
  | done (a : A)

variable [DecidableEq κ]

/-- The processes at work: what the outer object was asked and answered, and the
    inner one. -/
inductive Relays (route : Route Q A Q' A') :
    (κ → Phase Q A Q' A') → List (Event κ Q A) → List (Event κ Q' A') → Prop where
  | start : Relays route (fun _ => .free) [] []
  | ask {phase : κ → Phase Q A Q' A'} {outer : List (Event κ Q A)} {inner : List (Event κ Q' A')}
      (h : Relays route phase outer inner) (k : κ) (q : Q) (hk : phase k = .free) :
      Relays route (Function.update phase k (.asked q)) (outer ++ [.asked k q]) inner
  | know {phase : κ → Phase Q A Q' A'} {outer : List (Event κ Q A)} {inner : List (Event κ Q' A')}
      (h : Relays route phase outer inner) {k : κ} {q : Q} {a : A} (hk : phase k = .asked q)
      (hroute : route q = .inl a) : Relays route (Function.update phase k (.done a)) outer inner
  | pass {phase : κ → Phase Q A Q' A'} {outer : List (Event κ Q A)} {inner : List (Event κ Q' A')}
      (h : Relays route phase outer inner) {k : κ} {q : Q} {q' : Q'} {give : A' → A}
      (hk : phase k = .asked q) (hroute : route q = .inr (q', give)) :
      Relays route (Function.update phase k (.inside q q' give)) outer (inner ++ [.asked k q'])
  | back {phase : κ → Phase Q A Q' A'} {outer : List (Event κ Q A)} {inner : List (Event κ Q' A')}
      (h : Relays route phase outer inner) {k : κ} {q : Q} {q' : Q'} {give : A' → A} (a' : A')
      (hk : phase k = .inside q q' give) :
      Relays route (Function.update phase k (.done (give a'))) outer (inner ++ [.answered k a'])
  | answer {phase : κ → Phase Q A Q' A'} {outer : List (Event κ Q A)}
      {inner : List (Event κ Q' A')} (h : Relays route phase outer inner) {k : κ} {a : A}
      (hk : phase k = .done a) :
      Relays route (Function.update phase k .free) (outer ++ [.answered k a]) inner

/-! ## One log for the other -/

/-- How a process at a phase stands with the outer log and with the inner one: a
    question takes effect outside when the one that was passed on does. -/
inductive Phase.Allows (route : Route Q A Q' A') :
    Phase Q A Q' A' → Standing Q A → Standing Q' A' → Prop where
  | free : Allows route .free .even .even
  | asked (q : Q) : Allows route (.asked q) (.waits q) .even
  | inside {q : Q} {q' : Q'} {give : A' → A} (h : route q = .inr (q', give)) :
      Allows route (.inside q q' give) (.waits q) (.waits q')
  | effect {q : Q} {q' : Q'} {give : A' → A} (a' : A') :
      Allows route (.inside q q' give) (.ahead (give a')) (.ahead a')
  | done (a : A) : Allows route (.done a) (.ahead a) .even

/-- A process whose passed question waits. -/
theorem Phase.Allows.of_waits {route : Route Q A Q' A'} {p : Phase Q A Q' A'} {s : Standing Q A}
    {q' : Q'} (h : p.Allows route s (.waits q')) :
    ∃ q give, p = .inside q q' give ∧ route q = .inr (q', give) ∧ s = .waits q := by
  cases h with
  | inside h => exact ⟨_, _, rfl, h, rfl⟩

/-- How a process stands with both logs. -/
def Stands (route : Route Q A Q' A') (k : κ) (p : Phase Q A Q' A') (outer : List (Event κ Q A))
    (inner : List (Event κ Q' A')) (log : List (κ × Q × A)) (log' : List (κ × Q' × A')) : Prop :=
  ∃ s s', p.Allows route s s' ∧ s.Of k outer log ∧ s'.Of k inner log'

/-- An outer log that goes with an inner one. -/
structure Matches (route : Route Q A Q' A') (phase : κ → Phase Q A Q' A')
    (outer : List (Event κ Q A)) (inner : List (Event κ Q' A')) (log : List (κ × Q × A))
    (log' : List (κ × Q' × A')) : Prop where
  linearizes : Linearizes outer log
  stands     : ∀ k, Stands route k (phase k) outer inner log log'

section Matches

variable {route : Route Q A Q' A'} {phase : κ → Phase Q A Q' A'} {outer : List (Event κ Q A)}
  {inner : List (Event κ Q' A')} {log : List (κ × Q × A)} {log' : List (κ × Q' × A')}
  {serve : W → Q' → W × A'} {w v : W} {k : κ}

variable {outer₂ : List (Event κ Q A)} {inner₂ : List (Event κ Q' A')} {log₂ : List (κ × Q × A)}
  {log₂' : List (κ × Q' × A')}

/-- One that does nothing stands as before. -/
theorem Stands.still {p : Phase Q A Q' A'} (h : Stands route k p outer inner log log')
    (hs : ∀ {s : Standing Q A}, s.Of k outer log → s.Of k outer₂ log₂)
    (hs' : ∀ {s : Standing Q' A'}, s.Of k inner log' → s.Of k inner₂ log₂') :
    Stands route k p outer₂ inner₂ log₂ log₂' := by
  obtain ⟨s, s', hallows, h, h'⟩ := h
  exact ⟨s, s', hallows, hs h, hs' h'⟩

/-- One process goes on, and the others stand as before. -/
theorem stands_update {p : Phase Q A Q' A'} {s : Standing Q A} {s' : Standing Q' A'}
    (hp : p.Allows route s s') (hs : s.Of k outer₂ log₂) (hs' : s'.Of k inner₂ log₂')
    (hothers : ∀ j, k ≠ j → Stands route j (phase j) outer₂ inner₂ log₂ log₂') (j : κ) :
    Stands route j (Function.update phase k p j) outer₂ inner₂ log₂ log₂' := by
  by_cases hj : k = j
  · subst hj
    rw [Function.update_self]
    exact ⟨s, s', hp, hs, hs'⟩
  · rw [Function.update_of_ne (Ne.symm hj)]
    exact hothers j hj

/-- A log in which one more open question takes effect. -/
theorem Matches.of_effect (h : Matches route phase outer inner log log') {q : Q} {a : A}
    {phase₂ : κ → Phase Q A Q' A'}
    (hstands : ∀ j, Stands route j (phase₂ j) outer inner (log ++ [(k, q, a)]) log₂') :
    Matches route phase₂ outer inner (log ++ [(k, q, a)]) log₂' := by
  refine ⟨h.linearizes.grows (List.prefix_append _ _) (fun j => ?_), hstands⟩
  obtain ⟨s, -, -, hs, -⟩ := hstands j
  exact hs.asked

/-- A history in which one more question is answered. -/
theorem Matches.of_answer (h : Matches route phase outer inner log log') {a : A}
    {phase₂ : κ → Phase Q A Q' A'}
    (hstands : ∀ j, Stands route j (phase₂ j) (outer ++ [.answered k a]) inner log log') :
    Matches route phase₂ (outer ++ [.answered k a]) inner log log' := by
  refine ⟨h.linearizes.snoc (List.prefix_refl _) _ (fun j => ?_) (fun j => ?_), hstands⟩
  · obtain ⟨s, -, -, hs, -⟩ := hstands j
    exact hs.asked
  · obtain ⟨s, -, -, hs, -⟩ := hstands j
    exact hs.answered

/-- **A PASSED QUESTION TAKES EFFECT**, and with it the one it was passed on for. -/
theorem Matches.effect (h : Matches route phase outer inner log log')
    (hserial : Serial (route.serve serve) w log v) {q' : Q'}
    (hle : (callsBy k (log' ++ [(k, q', (serve v q').2)])).map Prod.fst <+: questionsOf k inner) :
    ∃ log₂, Serial (route.serve serve) w log₂ (serve v q').1
      ∧ Matches route phase outer inner log₂ (log' ++ [(k, q', (serve v q').2)]) := by
  obtain ⟨s, s', hallows, hs, hs'⟩ := h.stands k
  obtain rfl := hs'.only_waits hle
  obtain ⟨q, give, hphase, hroute, rfl⟩ := hallows.of_waits
  have hnext := hserial.snoc k q
  rw [Route.serve_passed hroute serve v] at hnext
  refine ⟨_, hnext, h.of_effect (fun j => ?_)⟩
  by_cases hj : k = j
  · subst hj
    refine ⟨_, _, ?_, hs.effect _, hs'.effect _⟩
    rw [hphase]
    exact .effect _
  · exact (h.stands j).still (fun hs => hs.other_effect hj _) (fun hs' => hs'.other_effect hj _)

/-- The outer log follows the inner one, as long as that keeps to what was passed
    on. -/
theorem matches_grow {before : List (κ × Q' × A')}
    (hbefore : ∀ v, Serial serve w before v →
      ∃ log, Serial (route.serve serve) w log v ∧ Matches route phase outer inner log before)
    (hserial : Serial serve w log' v) (hle : before <+: log')
    (hasked : ∀ k, (callsBy k log').map Prod.fst <+: questionsOf k inner) :
    ∃ log, Serial (route.serve serve) w log v ∧ Matches route phase outer inner log log' := by
  induction hserial with
  | nil =>
      obtain rfl := List.prefix_nil.mp hle
      exact hbefore _ .nil
  | snoc k q' hserial ih =>
      rcases List.prefix_concat_iff.mp hle with rfl | hle
      · exact hbefore _ (hserial.snoc k q')
      · obtain ⟨log, hlog, hmatches⟩ := ih hle (fun j =>
          ((callsBy_mono (List.prefix_append _ _)).map Prod.fst).trans (hasked j))
        exact hmatches.effect hlog (hasked k)

/-- **THE PROCESSES AT WORK**: a log that explains the inner history has one beside
    it that explains the outer history, from the same world to the same world. -/
theorem Relays.explained (h : Relays route phase outer inner) :
    ∀ {log' : List (κ × Q' × A')} {v : W}, Serial serve w log' v → Linearizes inner log' →
      ∃ log, Serial (route.serve serve) w log v ∧ Matches route phase outer inner log log' := by
  induction h with
  | start =>
      intro log' v hserial hlog
      obtain rfl := linearizes_nothing hlog
      obtain rfl := serial_nothing hserial
      exact ⟨[], .nil, linearizes_nil, fun k => ⟨_, _, .free, ⟨rfl, rfl⟩, ⟨rfl, rfl⟩⟩⟩
  | ask _ k q hk ih =>
      intro log' v hserial hlog
      obtain ⟨log, hserial, h⟩ := ih hserial hlog
      obtain ⟨s, s', hallows, hs, hs'⟩ := h.stands k
      rw [hk] at hallows
      cases hallows
      exact ⟨log, hserial, h.linearizes.ask q k, stands_update (.asked q) (hs.ask q) hs'
        (fun j hj => (h.stands j).still (fun hs => hs.other_asked hj q) id)⟩
  | @know _ _ _ _ k q a hk hroute ih =>
      intro log' v hserial hlog
      obtain ⟨log, hserial, h⟩ := ih hserial hlog
      obtain ⟨s, s', hallows, hs, hs'⟩ := h.stands k
      rw [hk] at hallows
      cases hallows
      have hnext := hserial.snoc k q
      rw [Route.serve_known hroute serve v] at hnext
      exact ⟨_, hnext, h.of_effect (stands_update (.done a) (hs.effect a) hs'
        (fun j hj => (h.stands j).still (fun hs => hs.other_effect hj _) id))⟩
  | @pass _ _ _ _ k q q' give hk hroute ih =>
      intro log' v hserial hlog
      -- the question may take effect as soon as it is passed on
      obtain ⟨before, hle, hbefore⟩ := hlog.before (List.prefix_append _ _)
      refine matches_grow (fun v hserial => ?_) hserial hle hlog.asked
      obtain ⟨log, hserial, h⟩ := ih hserial hbefore
      obtain ⟨s, s', hallows, hs, hs'⟩ := h.stands k
      rw [hk] at hallows
      cases hallows
      exact ⟨log, hserial, h.linearizes, stands_update (.inside hroute) hs (hs'.ask q')
        (fun j hj => (h.stands j).still id (fun hs' => hs'.other_asked hj q'))⟩
  | @back _ _ inner _ k q q' give a' hk ih =>
      intro log' v hserial hlog
      -- and has done so when its answer comes
      obtain ⟨before, hle, hbefore⟩ := hlog.before (List.prefix_append _ _)
      have hasked : ∀ j, (callsBy j log').map Prod.fst <+: questionsOf j inner := by
        intro j
        rw [← questions_answered a']
        exact hlog.asked j
      obtain ⟨log, hserial, h⟩ := matches_grow (fun v hserial => ih hserial hbefore) hserial hle
        hasked
      obtain ⟨s, s', hallows, hs, hs'⟩ := h.stands k
      obtain rfl := hs'.only_ahead (hlog.answered k)
      rw [hk] at hallows
      cases hallows
      exact ⟨log, hserial, h.linearizes, stands_update (.done _) hs hs'.answer
        (fun j hj => (h.stands j).still id (fun hs' => hs'.other_answered hj a'))⟩
  | @answer _ _ _ _ k a hk ih =>
      intro log' v hserial hlog
      obtain ⟨log, hserial, h⟩ := ih hserial hlog
      obtain ⟨s, s', hallows, hs, hs'⟩ := h.stands k
      rw [hk] at hallows
      cases hallows
      exact ⟨log, hserial, h.of_answer (stands_update .free hs.answer hs'
        (fun j hj => (h.stands j).still (fun hs => hs.other_answered hj a) id))⟩

/-- **AN OBJECT THAT ASKS A LINEARIZABLE ONE IS LINEARIZABLE**. -/
theorem Relays.linearizable (h : Relays route phase outer inner)
    (hinner : Linearizable serve w inner) : Linearizable (route.serve serve) w outer := by
  obtain ⟨log', v, hserial, hlog⟩ := hinner
  obtain ⟨log, hserial, h⟩ := h.explained hserial hlog
  exact ⟨log, v, hserial, h.linearizes⟩

end Matches

/-! ## One question at a time -/

theorem update_free (k : κ) :
    Function.update (fun _ => .free) k .free = (fun _ => .free : κ → Phase Q A Q' A') :=
  Function.update_eq_self k _

/-- A world that takes questions one by one does so through the route. -/
theorem OneByOne.relays {route : Route Q A Q' A'} {serve : W → Q' → W × A'} {w v : W}
    {outer : List (Event κ Q A)} (h : OneByOne (route.serve serve) w outer v) :
    ∃ inner, Relays route (fun _ => .free) outer inner ∧ OneByOne serve w inner v := by
  induction h with
  | nil => exact ⟨[], .start, .nil⟩
  | @snoc outer v h k q ih =>
      obtain ⟨inner, hrelays, hinner⟩ := ih
      have hasked := hrelays.ask k q rfl
      cases hroute : route q with
      | inl a =>
          have hdone := (hasked.know (Function.update_self ..) hroute).answer
            (Function.update_self ..)
          simp only [Function.update_idem, update_free] at hdone
          rw [Route.serve_known hroute]
          exact ⟨inner, hdone, hinner⟩
      | inr x =>
          obtain ⟨q', give⟩ := x
          have hdone := ((hasked.pass (Function.update_self ..) hroute).back (serve v q').2
            (Function.update_self ..)).answer (Function.update_self ..)
          simp only [Function.update_idem, update_free] at hdone
          rw [Route.serve_passed hroute]
          exact ⟨_, hdone, hinner.snoc k q'⟩

end Linearizability
