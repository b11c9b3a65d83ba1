import Mathlib.Logic.Function.Basic

/-! # Threads over a shared state — assertions that do not interfere

    Threads take steps on a state they share, each with a position of its own,
    in any order, and the world outside may change the shared state between any
    two of them.  What holds in every interleaving is shown thread by thread
    (`Annotated`): an invariant of the shared state, an assertion at each
    position, kept by the thread's own steps and NOT DISTURBED by those of the
    others, and a relation between the positions of any two threads, for what
    they hold apart from each other.

    The rule (`meets_reachable`) is the only induction over interleavings. -/

namespace SharedThreads

variable {τ L G : Type}

/-- Where each thread stands, and what they share. -/
structure Config (τ L G : Type) where
  pcs    : τ → L
  shared : G

section

variable [DecidableEq τ] (S : τ → L × G → L × G → Prop) (E : G → G → Prop)

/-- A step of one thread, or of the world outside. -/
inductive Step : Config τ L G → Config τ L G → Prop where
  | run {c : Config τ L G} {t : τ} {l : L} {g : G} (h : S t (c.pcs t, c.shared) (l, g)) :
      Step c ⟨Function.update c.pcs t l, g⟩
  | outside {c : Config τ L G} {g : G} (h : E c.shared g) : Step c ⟨c.pcs, g⟩

/-- The configurations that interleavings lead to. -/
inductive Reachable (start : Config τ L G) : Config τ L G → Prop where
  | start : Reachable start start
  | step {c d : Config τ L G} : Reachable start c → Step S E c d → Reachable start d

end

/-- An invariant `I` of the shared state, an assertion `P` at each thread's
    position, and a relation `R` between the positions of two threads. -/
structure Annotated (S : τ → L × G → L × G → Prop) (E : G → G → Prop) (I : G → Prop)
    (P : τ → L → G → Prop) (R : L → L → Prop) : Prop where
  symm    : ∀ l m, R l m → R m l
  own     : ∀ t l g l' g', S t (l, g) (l', g') → I g → P t l g → I g' ∧ P t l' g'
  others  : ∀ t l g l' g' u m, S t (l, g) (l', g') → I g → P t l g → u ≠ t → P u m g → R l m →
    P u m g' ∧ R l' m
  outside : ∀ g g', E g g' → I g → I g' ∧ ∀ t l, P t l g → P t l g'

/-- The three of them hold. -/
structure Config.Meets (I : G → Prop) (P : τ → L → G → Prop) (R : L → L → Prop)
    (c : Config τ L G) : Prop where
  shared : I c.shared
  each   : ∀ t, P t (c.pcs t) c.shared
  apart  : ∀ t u, t ≠ u → R (c.pcs t) (c.pcs u)

section

variable [DecidableEq τ] {S : τ → L × G → L × G → Prop} {E : G → G → Prop} {I : G → Prop}
  {P : τ → L → G → Prop} {R : L → L → Prop}

/-- A thread takes a step from where it stands. -/
theorem Reachable.move {start : Config τ L G} {pcs : τ → L} {t : τ} {l l' : L} {g g' : G}
    (h : Reachable S E start ⟨pcs, g⟩) (hpc : pcs t = l) (hs : S t (l, g) (l', g')) :
    Reachable S E start ⟨Function.update pcs t l', g'⟩ := by
  subst hpc
  exact .step h (.run (c := ⟨pcs, g⟩) hs)

/-- One thread goes on by itself. -/
theorem Reachable.thread {start : Config τ L G} {pcs : τ → L} {t : τ} {l l' : L} {g g' : G}
    (h : Reachable S E start ⟨Function.update pcs t l, g⟩) (hs : S t (l, g) (l', g')) :
    Reachable S E start ⟨Function.update pcs t l', g'⟩ := by
  have hnext := h.move (Function.update_self ..) hs
  rw [Function.update_idem] at hnext
  exact hnext

theorem meets_step (h : Annotated S E I P R) {c d : Config τ L G} (hc : c.Meets I P R)
    (hs : Step S E c d) : d.Meets I P R := by
  obtain ⟨hshared, heach, hapart⟩ := hc
  cases hs with
  | @run t l g hrun =>
      obtain ⟨hI, hP⟩ := h.own t _ _ l g hrun hshared (heach t)
      have hother : ∀ u, u ≠ t → P u (c.pcs u) g ∧ R l (c.pcs u) := fun u hu =>
        h.others t _ _ l g u _ hrun hshared (heach t) hu (heach u) (hapart t u (Ne.symm hu))
      refine ⟨hI, fun u => ?_, fun u v huv => ?_⟩
      · by_cases hu : u = t
        · subst hu
          simpa using hP
        · simpa [hu] using (hother u hu).1
      · by_cases hu : u = t
        · subst hu
          simpa [Ne.symm huv] using (hother v (Ne.symm huv)).2
        · by_cases hv : v = t
          · subst hv
            simpa [hu] using h.symm _ _ (hother u hu).2
          · simpa [hu, hv] using hapart u v huv
  | outside hE =>
      obtain ⟨hI, hP⟩ := h.outside _ _ hE hshared
      exact ⟨hI, fun t => hP t _ (heach t), hapart⟩

/-- **EVERY INTERLEAVING** meets the assertions. -/
theorem meets_reachable (h : Annotated S E I P R) {start c : Config τ L G}
    (h₀ : start.Meets I P R) (hr : Reachable S E start c) : c.Meets I P R := by
  induction hr with
  | start => exact h₀
  | step _ hs ih => exact meets_step h ih hs

end

end SharedThreads
