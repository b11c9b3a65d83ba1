import Mathlib.Data.List.Infix

/-! # Calls that overlap — what one sequence of calls can explain

    Callers share an object.  Each asks one question at a time, but while it
    waits for the answer others may ask theirs: a HISTORY is what was asked and
    answered, in the order in which it happened.

    A world that takes questions one by one (`Serial`) explains a history
    (`Linearizes`) if the same callers ask it the same, get the same answers, and
    at every moment there is a place in its log before which all stands that has
    been answered, and behind which all that has not been asked.  So each call
    takes effect at an instant between its question and its answer, and a
    beginning of the log explains a beginning of the history
    (`Linearizes.before`).  How a caller stands with such a log is its `Standing`;
    where every question is answered before the next one is asked, everybody is
    even with it (`OneByOne.explained`). -/

namespace Linearizability

variable {κ κ' Q A W : Type}

/-! ## One by one -/

/-- The world went through the questions one by one and gave these answers; each
    entry of the log says who asked. -/
inductive Serial (serve : W → Q → W × A) : W → List (κ × Q × A) → W → Prop where
  | nil {w : W} : Serial serve w [] w
  | snoc {w w' : W} {log : List (κ × Q × A)} (who : κ) (q : Q) (h : Serial serve w log w') :
      Serial serve w (log ++ [(who, q, (serve w' q).2)]) (serve w' q).1

section Serial

variable {serve : W → Q → W × A} {w w' : W} {log : List (κ × Q × A)}

/-- Every answer is one of the world's. -/
theorem Serial.answered (h : Serial serve w log w') :
    ∀ x ∈ log, ∃ (before : List (κ × Q × A)) (v : W),
      Serial serve w before v ∧ x.2.2 = (serve v x.2.1).2 := by
  induction h with
  | nil => exact fun x hx => absurd hx List.not_mem_nil
  | @snoc v log who q hbefore ih =>
      intro x hx
      rcases List.mem_append.mp hx with hx | hx
      · exact ih x hx
      · rw [List.mem_singleton.mp hx]
        exact ⟨log, v, hbefore, rfl⟩

theorem serial_nothing (h : Serial serve w ([] : List (κ × Q × A)) w') : w' = w := by
  generalize hlog : ([] : List (κ × Q × A)) = log at h
  cases h with
  | nil => rfl
  | snoc who q h => exact absurd hlog.symm (List.append_ne_nil_of_right_ne_nil _ (by simp))

/-- The callers under other names. -/
theorem Serial.rename (f : κ → κ') (h : Serial serve w log w') :
    Serial serve w (log.map (fun x => (f x.1, x.2))) w' := by
  induction h with
  | nil => exact .nil
  | snoc who q _ ih =>
      rw [List.map_append, List.map_singleton]
      exact ih.snoc (f who) q

end Serial

section

variable [DecidableEq κ]

/-- The questions and answers of a caller. -/
def callsBy (k : κ) (log : List (κ × Q × A)) : List (Q × A) :=
  log.filterMap (fun e => if e.1 = k then some e.2 else none)

theorem callsBy_append (k : κ) (log : List (κ × Q × A)) (e : κ × Q × A) :
    callsBy k (log ++ [e]) = callsBy k log ++ if e.1 = k then [e.2] else [] := by
  rw [callsBy, List.filterMap_append]
  congr 1
  by_cases h : e.1 = k
  · simp [h]
  · simp [h]

theorem callsBy_mono {k : κ} {log log' : List (κ × Q × A)} (h : log <+: log') :
    callsBy k log <+: callsBy k log' :=
  h.filterMap _

theorem mem_callsBy {k : κ} {log : List (κ × Q × A)} {x : Q × A} (h : x ∈ callsBy k log) :
    ∃ y ∈ log, y.2 = x := by
  obtain ⟨y, hy, heq⟩ := List.mem_filterMap.mp h
  split_ifs at heq
  exact ⟨y, hy, Option.some.inj heq⟩

/-! ## Histories -/

/-- A caller asks, or has its answer. -/
inductive Event (κ Q A : Type) where
  | asked (k : κ) (q : Q)
  | answered (k : κ) (a : A)

/-- What a caller has asked. -/
def questionsOf (k : κ) (hist : List (Event κ Q A)) : List Q :=
  hist.filterMap (fun
    | .asked k' q => if k' = k then some q else none
    | .answered _ _ => none)

/-- What a caller was answered. -/
def answersOf (k : κ) (hist : List (Event κ Q A)) : List A :=
  hist.filterMap (fun
    | .asked _ _ => none
    | .answered k' a => if k' = k then some a else none)

/-- A caller that waits for nothing. -/
def Free (k : κ) (hist : List (Event κ Q A)) : Prop :=
  (questionsOf k hist).length = (answersOf k hist).length

/-- A caller that waits for its answer. -/
def Waiting (k : κ) (hist : List (Event κ Q A)) : Prop :=
  (questionsOf k hist).length = (answersOf k hist).length + 1

section Events

variable {k k' : κ} {hist hist' : List (Event κ Q A)} {log log' : List (κ × Q × A)} (q : Q) (a : A)

theorem questions_asked :
    questionsOf k (hist ++ [.asked k q]) = questionsOf k hist ++ [q] := by
  simp [questionsOf]

theorem questions_asked_other (h : k' ≠ k) :
    questionsOf k (hist ++ [.asked k' q]) = questionsOf k hist := by
  simp [questionsOf, h]

theorem questions_answered :
    questionsOf k (hist ++ [.answered k' a]) = questionsOf k hist := by
  simp [questionsOf]

theorem answers_asked : answersOf k (hist ++ [.asked k' q]) = answersOf k hist := by
  simp [answersOf]

theorem answers_answered :
    answersOf k (hist ++ [.answered k a]) = answersOf k hist ++ [a] := by
  simp [answersOf]

theorem answers_answered_other (h : k' ≠ k) :
    answersOf k (hist ++ [.answered k' a]) = answersOf k hist := by
  simp [answersOf, h]

theorem questions_mono (k : κ) (h : hist <+: hist') :
    questionsOf k hist <+: questionsOf k hist' :=
  h.filterMap _

theorem answers_mono (k : κ) (h : hist <+: hist') : answersOf k hist <+: answersOf k hist' :=
  h.filterMap _

/-! ## Explanations -/

/-- A log explains a history: each caller's calls in it are the first that it asked
    for, with the answers it has; and every moment of the history has its place
    in the log, with all before it that was answered by then, and nothing before
    it that had not been asked. -/
structure Linearizes (hist : List (Event κ Q A)) (log : List (κ × Q × A)) : Prop where
  asked    : ∀ k, (callsBy k log).map Prod.fst <+: questionsOf k hist
  answered : ∀ k, answersOf k hist <+: (callsBy k log).map Prod.snd
  between  : ∀ past, past <+: hist → ∃ l, l <+: log
    ∧ ∀ k, (answersOf k past).length ≤ (callsBy k l).length
      ∧ (callsBy k l).length ≤ (questionsOf k past).length

/-- Some world's log explains it. -/
def Linearizable (serve : W → Q → W × A) (w : W) (hist : List (Event κ Q A)) : Prop :=
  ∃ log v, Serial serve w log v ∧ Linearizes hist log

theorem linearizes_nil : Linearizes ([] : List (Event κ Q A)) [] where
  asked _ := List.prefix_refl _
  answered _ := List.prefix_refl _
  between past hpast := by
    rw [List.prefix_nil.mp hpast]
    exact ⟨[], List.prefix_refl _, fun k => ⟨Nat.le_refl _, Nat.le_refl _⟩⟩

/-- Nothing happens where nothing is asked. -/
theorem linearizes_nothing (h : Linearizes ([] : List (Event κ Q A)) log) : log = [] := by
  cases log with
  | nil => rfl
  | cons e log =>
      have hasked := List.prefix_nil.mp (h.asked e.1)
      rw [callsBy, List.filterMap_cons, if_pos rfl] at hasked
      exact absurd hasked (List.cons_ne_nil _ _)

/-- One more event, and a log that goes on. -/
theorem Linearizes.snoc (h : Linearizes hist log) (hle : log <+: log') (e : Event κ Q A)
    (hasked : ∀ k, (callsBy k log').map Prod.fst <+: questionsOf k (hist ++ [e]))
    (hanswered : ∀ k, answersOf k (hist ++ [e]) <+: (callsBy k log').map Prod.snd) :
    Linearizes (hist ++ [e]) log' where
  asked := hasked
  answered := hanswered
  between past hpast := by
    rcases List.prefix_concat_iff.mp hpast with rfl | hpast
    · refine ⟨log', List.prefix_refl _, fun k => ?_⟩
      have h₁ := (hasked k).length_le
      have h₂ := (hanswered k).length_le
      rw [List.length_map] at h₁ h₂
      exact ⟨h₂, h₁⟩
    · obtain ⟨l, hl, hsizes⟩ := h.between past hpast
      exact ⟨l, hl.trans hle, hsizes⟩

/-- A log that goes on with open questions. -/
theorem Linearizes.grows (h : Linearizes hist log) (hle : log <+: log')
    (hasked : ∀ k, (callsBy k log').map Prod.fst <+: questionsOf k hist) :
    Linearizes hist log' where
  asked := hasked
  answered k := (h.answered k).trans ((callsBy_mono hle).map Prod.snd)
  between past hpast := by
    obtain ⟨l, hl, hsizes⟩ := h.between past hpast
    exact ⟨l, hl.trans hle, hsizes⟩

/-- A question that is open need not have taken effect. -/
theorem Linearizes.ask (h : Linearizes hist log) (k : κ) :
    Linearizes (hist ++ [.asked k q]) log := by
  refine h.snoc (List.prefix_refl _) _ (fun k' => ?_) (fun k' => ?_)
  · exact (h.asked k').trans (questions_mono k' (List.prefix_append _ _))
  · rw [answers_asked]
    exact h.answered k'

/-- **A BEGINNING OF THE LOG EXPLAINS A BEGINNING OF THE HISTORY**. -/
theorem Linearizes.before (h : Linearizes hist log) {past : List (Event κ Q A)}
    (hpast : past <+: hist) : ∃ l, l <+: log ∧ Linearizes past l := by
  obtain ⟨l, hl, hsizes⟩ := h.between past hpast
  refine ⟨l, hl, fun k => ?_, fun k => ?_, fun past' hpast' => ?_⟩
  · have hcalls := ((callsBy_mono (k := k) hl).map Prod.fst).trans (h.asked k)
    refine List.prefix_of_prefix_length_le hcalls (questions_mono k hpast) ?_
    rw [List.length_map]
    exact (hsizes k).2
  · have hanswers := (answers_mono k hpast).trans (h.answered k)
    refine List.prefix_of_prefix_length_le hanswers ((callsBy_mono hl).map Prod.snd) ?_
    rw [List.length_map]
    exact (hsizes k).1
  · obtain ⟨l', hl', hsizes'⟩ := h.between past' (hpast'.trans hpast)
    rcases List.prefix_or_prefix_of_prefix hl' hl with hle | hle
    · exact ⟨l', hle, hsizes'⟩
    · -- then `l` itself is early enough
      refine ⟨l, List.prefix_refl _, fun k => ⟨?_, ?_⟩⟩
      · exact (answers_mono k hpast').length_le.trans (hsizes k).1
      · exact (callsBy_mono hle).length_le.trans (hsizes' k).2

end Events

/-! ## Standing with a log -/

/-- How a caller stands with a log: it has its answer; it waits, and its question
    has not taken effect; or it has, with this answer. -/
inductive Standing (Q A : Type) where
  | even
  | waits (q : Q)
  | ahead (a : A)

/-- What that means for its questions, its answers and its calls in the log. -/
def Standing.Of (s : Standing Q A) (k : κ) (hist : List (Event κ Q A)) (log : List (κ × Q × A)) :
    Prop :=
  match s with
  | .even => questionsOf k hist = (callsBy k log).map Prod.fst
      ∧ answersOf k hist = (callsBy k log).map Prod.snd
  | .waits q => questionsOf k hist = (callsBy k log).map Prod.fst ++ [q]
      ∧ answersOf k hist = (callsBy k log).map Prod.snd
  | .ahead a => questionsOf k hist = (callsBy k log).map Prod.fst
      ∧ answersOf k hist ++ [a] = (callsBy k log).map Prod.snd

section Standing

variable {k k' : κ} {hist hist' : List (Event κ Q A)} {log log' : List (κ × Q × A)}
  {s : Standing Q A} {q : Q} {a : A}

/-- It depends on nothing else. -/
theorem Standing.Of.same (h : s.Of k hist log) (hq : questionsOf k hist' = questionsOf k hist)
    (ha : answersOf k hist' = answersOf k hist) (hc : callsBy k log' = callsBy k log) :
    s.Of k hist' log' := by
  unfold Standing.Of
  rw [hq, ha, hc]
  exact h

/-- What others ask, are answered and do does not matter. -/
theorem Standing.Of.other_asked (h : s.Of k hist log) (hk : k' ≠ k) (q : Q) :
    s.Of k (hist ++ [.asked k' q]) log :=
  h.same (questions_asked_other q hk) (answers_asked q) rfl

theorem Standing.Of.other_answered (h : s.Of k hist log) (hk : k' ≠ k) (a : A) :
    s.Of k (hist ++ [.answered k' a]) log :=
  h.same (questions_answered a) (answers_answered_other a hk) rfl

theorem Standing.Of.other_effect (h : s.Of k hist log) (hk : k' ≠ k) (y : Q × A) :
    s.Of k hist (log ++ [(k', y)]) :=
  h.same rfl rfl ((callsBy_append k log (k', y)).trans (by rw [if_neg hk, List.append_nil]))

theorem calls_effect (k : κ) (log : List (κ × Q × A)) (y : Q × A) :
    callsBy k (log ++ [(k, y)]) = callsBy k log ++ [y] := by
  rw [callsBy_append, if_pos rfl]

/-- A question waits, takes effect, and is answered. -/
theorem Standing.Of.ask (h : Standing.even.Of k hist log) (q : Q) :
    (Standing.waits q).Of k (hist ++ [.asked k q]) log :=
  ⟨by rw [questions_asked, h.1], by rw [answers_asked, h.2]⟩

theorem Standing.Of.effect (h : (Standing.waits q).Of k hist log) (a : A) :
    (Standing.ahead a).Of k hist (log ++ [(k, q, a)]) :=
  ⟨by rw [calls_effect, List.map_append, h.1]; rfl,
    by rw [calls_effect, List.map_append, h.2]; rfl⟩

theorem Standing.Of.answer (h : (Standing.ahead a).Of k hist log) :
    Standing.even.Of k (hist ++ [.answered k a]) log :=
  ⟨by rw [questions_answered, h.1], by rw [answers_answered, h.2]⟩

/-- The calls in the log are among the questions, and have the answers. -/
theorem Standing.Of.asked (h : s.Of k hist log) :
    (callsBy k log).map Prod.fst <+: questionsOf k hist := by
  cases s with
  | even => exact h.1 ▸ List.prefix_refl _
  | waits q => exact h.1 ▸ List.prefix_append _ _
  | ahead a => exact h.1 ▸ List.prefix_refl _

theorem Standing.Of.answered (h : s.Of k hist log) :
    answersOf k hist <+: (callsBy k log).map Prod.snd := by
  cases s with
  | even => exact h.2 ▸ List.prefix_refl _
  | waits q => exact h.2 ▸ List.prefix_refl _
  | ahead a => exact h.2 ▸ List.prefix_append _ _

/-- Only a question that waits can take effect. -/
theorem Standing.Of.only_waits (h : s.Of k hist log)
    (hle : (callsBy k (log ++ [(k, q, a)])).map Prod.fst <+: questionsOf k hist) :
    s = .waits q := by
  rw [calls_effect, List.map_append] at hle
  have hsize := hle.length_le
  rw [List.length_append] at hsize
  cases s with
  | even =>
      rw [h.1] at hsize
      exact absurd hsize (by simp)
  | waits p =>
      rw [h.1] at hle
      exact congrArg Standing.waits (List.singleton_inj.mp (List.append_cancel_left
        (hle.eq_of_length (by simp)))).symm
  | ahead b =>
      rw [h.1] at hsize
      exact absurd hsize (by simp)

/-- Only a question that has taken effect can be answered. -/
theorem Standing.Of.only_ahead (h : s.Of k hist log)
    (hle : answersOf k (hist ++ [.answered k a]) <+: (callsBy k log).map Prod.snd) :
    s = .ahead a := by
  rw [answers_answered] at hle
  have hsize := hle.length_le
  rw [List.length_append] at hsize
  cases s with
  | even =>
      rw [← h.2] at hsize
      exact absurd hsize (by simp)
  | waits p =>
      rw [← h.2] at hsize
      exact absurd hsize (by simp)
  | ahead b =>
      rw [← h.2] at hle
      exact congrArg Standing.ahead (List.singleton_inj.mp (List.append_cancel_left
        (hle.eq_of_length (by simp)))).symm

end Standing

/-! ## One at a time -/

/-- Every question is answered before the next one is asked. -/
inductive OneByOne (serve : W → Q → W × A) (w : W) : List (Event κ Q A) → W → Prop where
  | nil : OneByOne serve w [] w
  | snoc {hist : List (Event κ Q A)} {v : W} (h : OneByOne serve w hist v) (k : κ) (q : Q) :
      OneByOne serve w (hist ++ [.asked k q] ++ [.answered k (serve v q).2]) (serve v q).1

section OneByOne

variable {serve : W → Q → W × A} {w v : W} {hist : List (Event κ Q A)}

/-- The log is what was asked and answered. -/
theorem OneByOne.explained (h : OneByOne serve w hist v) :
    ∃ log, Serial serve w log v ∧ Linearizes hist log ∧ ∀ k, Standing.even.Of k hist log := by
  induction h with
  | nil => exact ⟨[], .nil, linearizes_nil, fun _ => ⟨rfl, rfl⟩⟩
  | @snoc hist v h k q ih =>
      obtain ⟨log, hserial, hlog, heven⟩ := ih
      have hall : ∀ j, Standing.even.Of j (hist ++ [.asked k q] ++ [.answered k (serve v q).2])
          (log ++ [(k, q, (serve v q).2)]) := by
        intro j
        by_cases hj : k = j
        · subst hj
          exact (((heven k).ask q).effect _).answer
        · exact (((heven j).other_asked hj q).other_answered hj _).other_effect hj _
      exact ⟨_, hserial.snoc k q, (hlog.ask q k).snoc (List.prefix_append _ _) _
        (fun j => (hall j).asked) (fun j => (hall j).answered), hall⟩

/-- Nobody waits, and whoever asks then waits. -/
theorem OneByOne.free (h : OneByOne serve w hist v) (k : κ) : Free k hist := by
  obtain ⟨log, -, -, heven⟩ := h.explained
  rw [Free, (heven k).1, (heven k).2, List.length_map, List.length_map]

theorem OneByOne.waiting (h : OneByOne serve w hist v) (k : κ) (q : Q) :
    Waiting k (hist ++ [.asked k q]) := by
  have hfree := h.free k
  rw [Waiting, questions_asked, answers_asked, List.length_append, List.length_singleton]
  exact congrArg (· + 1) hfree

end OneByOne

end

end Linearizability
