import Mathlib.Data.List.Infix
import Mathlib.Logic.Relation

/-! # Two processes and two queues — results no schedule can change

    A process writes, reads, asks its surroundings a question, or moves by
    itself; two of them talk over a pair of byte queues, and the kernel decides
    who runs and how many bytes a call moves.  A process that does not mind how
    its transfers are cut (`wrote_add`, `got_append`) makes a network in which
    steps of one byte have the DIAMOND property, once the answers to the
    questions are given: two different steps can each be followed by one that
    brings them together.

    So one schedule stands for all (`Diamond.joins`).  A client and a server are
    each described on their own (`Client`, `Server`), the obvious schedule shows
    what they come to (`Played`), and every run, however chunked, is on its way
    there (`played_of_run`). -/

namespace ByteNetwork

/-! ## Steps that commute -/

section Diamond

variable {S : Type} {E : S → S → Prop}

/-- A run of a given number of steps. -/
inductive Steps (E : S → S → Prop) : Nat → S → S → Prop where
  | refl {s : S} : Steps E 0 s s
  | head {n : Nat} {s t u : S} (h : E s t) (hrest : Steps E n t u) : Steps E (n + 1) s u

theorem Steps.trans {n m : Nat} {s t u : S} (h : Steps E n s t) (h' : Steps E m t u) :
    Steps E (n + m) s u := by
  induction h with
  | refl => rwa [Nat.zero_add]
  | head hstep _ ih =>
      rw [Nat.add_right_comm]
      exact .head hstep (ih h')

theorem Steps.reflTransGen {n : Nat} {s t : S} (h : Steps E n s t) :
    Relation.ReflTransGen E s t := by
  induction h with
  | refl => exact .refl
  | head hstep _ ih => exact .head hstep ih

theorem Steps.of_reflTransGen {s t : S} (h : Relation.ReflTransGen E s t) :
    ∃ n, Steps E n s t := by
  induction h with
  | refl => exact ⟨0, .refl⟩
  | tail _ hstep ih =>
      obtain ⟨n, hn⟩ := ih
      exact ⟨n + 1, hn.trans (.head hstep .refl)⟩

theorem Steps.mono {E' : S → S → Prop} (hE : ∀ s t, E s t → E' s t) {n : Nat} {s t : S}
    (h : Steps E n s t) : Steps E' n s t := by
  induction h with
  | refl => exact .refl
  | head hstep _ ih => exact .head (hE _ _ hstep) ih

/-- Something that every step keeps is kept by a run. -/
theorem Steps.keeps {P : S → S → Prop} (hrefl : ∀ s, P s s)
    (htrans : ∀ s t u, P s t → P t u → P s u) (hstep : ∀ s t, E s t → P s t) {n : Nat} {s t : S}
    (h : Steps E n s t) : P s t := by
  induction h with
  | refl => exact hrefl _
  | head h _ ih => exact htrans _ _ _ (hstep _ _ h) ih

/-- Two different steps from a state can be brought together by one step each. -/
def Diamond (E : S → S → Prop) : Prop :=
  ∀ s t u, E s t → E s u → t = u ∨ ∃ v, E t v ∧ E u v

/-- Nothing can be done. -/
def Stuck (E : S → S → Prop) (s : S) : Prop := ∀ t, ¬ E s t

/-- A step aside costs a run to the end nothing. -/
theorem Diamond.strip (hD : Diamond E) {n : Nat} {s e : S} (hrun : Steps E n s e)
    (hend : Stuck E e) : ∀ u, E s u → ∃ k, n = k + 1 ∧ Steps E k u e := by
  induction hrun with
  | refl =>
      intro u hu
      exact absurd hu (hend u)
  | @head n s t e ht hrest ih =>
      intro u hu
      rcases hD s t u ht hu with rfl | ⟨v, htv, huv⟩
      · exact ⟨n, rfl, hrest⟩
      · obtain ⟨k, rfl, hv⟩ := ih hend v htv
        exact ⟨k + 1, rfl, .head huv hv⟩

/-- **ONE SCHEDULE STANDS FOR ALL**: if one run comes to an end, every run is a
    beginning of one of the same length to the same end. -/
theorem Diamond.joins (hD : Diamond E) {n m : Nat} {s e u : S} (hrun : Steps E n s e)
    (hend : Stuck E e) (hu : Steps E m s u) : ∃ k, n = m + k ∧ Steps E k u e := by
  induction hu generalizing n with
  | refl => exact ⟨n, (Nat.zero_add n).symm, hrun⟩
  | head hstep _ ih =>
      obtain ⟨k, rfl, hk⟩ := hD.strip hrun hend _ hstep
      obtain ⟨j, rfl, hj⟩ := ih hk
      exact ⟨j, by omega, hj⟩

end Diamond

/-! ## Processes -/

variable {B Q A P : Type}

/-- What a process does next: offer bytes, ask for at most so many, put a
    question to its surroundings, move by itself, or nothing ever again. -/
inductive Act (B Q : Type) where
  | write (bs : List B)
  | read (n : Nat)
  | ask (q : Q)
  | tau
  | halt

/-- Neither reads nor writes. -/
def Act.Apart (act : Act B Q) : Prop := (∀ bs, act ≠ .write bs) ∧ ∀ n, act ≠ .read n

theorem apart_ask (q : Q) : (.ask q : Act B Q).Apart := by simp [Act.Apart]

theorem apart_tau : (.tau : Act B Q).Apart := by simp [Act.Apart]

theorem apart_halt : (.halt : Act B Q).Apart := by simp [Act.Apart]

/-- A process: what it does next, and how it goes on when some of its bytes were
    taken, some bytes came, its question was answered, or it moved.  It does not
    matter to it whether bytes go and come at once or in two parts. -/
structure Process (B Q A P : Type) where
  act      : P → Act B Q
  wrote    : P → Nat → P
  got      : P → List B → P
  answered : P → A → P
  moved    : P → P
  wrote_add : ∀ {p : P} {bs : List B} {i j : Nat}, act p = .write bs → 0 < i → 0 < j →
    i + j ≤ bs.length → act (wrote p i) = .write (bs.drop i)
      ∧ wrote (wrote p i) j = wrote p (i + j)
  got_append : ∀ {p : P} {n : Nat} {new more : List B}, act p = .read n → new ≠ [] → more ≠ [] →
    new.length + more.length ≤ n → act (got p new) = .read (n - new.length)
      ∧ got (got p new) more = got p (new ++ more)

/-- What a move uses and makes: bytes read, bytes written, answers heard,
    questions asked. -/
structure Label (B Q A : Type) where
  used  : List B
  made  : List B
  heard : List A
  asked : List Q

/-- One label after the other. -/
def Label.append (l m : Label B Q A) : Label B Q A :=
  ⟨l.used ++ m.used, l.made ++ m.made, l.heard ++ m.heard, l.asked ++ m.asked⟩

/-- Only bytes read. -/
def Label.took (bs : List B) : Label B Q A := ⟨bs, [], [], []⟩

/-- Only bytes written. -/
def Label.gave (bs : List B) : Label B Q A := ⟨[], bs, [], []⟩

theorem Label.gave_append (bs bs' : List B) :
    (Label.gave bs).append (.gave bs') = (.gave (bs ++ bs') : Label B Q A) := rfl

/-- A move of a process, the kernel cutting transfers as it likes. -/
inductive Process.Moves (M : Process B Q A P) : P → Label B Q A → P → Prop where
  | write {p : P} {bs : List B} {n : Nat} (h : M.act p = .write bs) (hn : 0 < n)
      (hle : n ≤ bs.length) : Moves M p (.gave (bs.take n)) (M.wrote p n)
  | read {p : P} {n : Nat} {new : List B} (h : M.act p = .read n) (hnew : new ≠ [])
      (hle : new.length ≤ n) : Moves M p (.took new) (M.got p new)
  | ask {p : P} {q : Q} (a : A) (h : M.act p = .ask q) :
      Moves M p ⟨[], [], [a], [q]⟩ (M.answered p a)
  | tau {p : P} (h : M.act p = .tau) : Moves M p (.took []) (M.moved p)

/-- A move of one byte at most. -/
def Process.Tick (M : Process B Q A P) (p : P) (l : Label B Q A) (p' : P) : Prop :=
  M.Moves p l p' ∧ l.used.length + l.made.length ≤ 1

/-- A run of ticks and what it uses and makes in all. -/
inductive Process.Ticks (M : Process B Q A P) : Nat → P → Label B Q A → P → Prop where
  | refl {p : P} : Ticks M 0 p (.took []) p
  | head {n : Nat} {p p' p'' : P} {l m : Label B Q A} (h : M.Tick p l p')
      (hrest : Ticks M n p' m p'') : Ticks M (n + 1) p (l.append m) p''

section Processes

variable {M : Process B Q A P}

theorem Process.Ticks.one {p p' : P} {l : Label B Q A} (h : M.Tick p l p') : M.Ticks 1 p l p' := by
  have hrun := Process.Ticks.head h .refl
  rwa [show l.append (.took []) = l by simp [Label.append, Label.took]] at hrun

theorem Process.Ticks.trans {n m : Nat} {p p' p'' : P} {l l' : Label B Q A}
    (h : M.Ticks n p l p') (h' : M.Ticks m p' l' p'') : M.Ticks (n + m) p (l.append l') p'' := by
  induction h with
  | refl =>
      rw [Nat.zero_add]
      rwa [show (Label.took []).append l' = l' by simp [Label.append, Label.took]]
  | @head n p q p' l m hstep _ ih =>
      rw [Nat.add_right_comm, show (l.append m).append l' = l.append (m.append l') by
        simp [Label.append]]
      exact .head hstep (ih h')

theorem tick_size (bs : List B) :
    (Label.gave (bs.take 1) : Label B Q A).used.length + (bs.take 1).length ≤ 1 := by
  rw [List.length_take]
  show 0 + min 1 bs.length ≤ 1
  omega

/-- A question and its answer are one tick. -/
theorem Process.tick_ask {p : P} {q : Q} (h : M.act p = .ask q) (a : A) :
    M.Tick p ⟨[], [], [a], [q]⟩ (M.answered p a) :=
  ⟨.ask a h, Nat.zero_le _⟩

theorem Process.tick_tau {p : P} (h : M.act p = .tau) : M.Tick p (.took []) (M.moved p) :=
  ⟨.tau h, Nat.zero_le _⟩

/-- Bytes written at once can be written one by one. -/
theorem Process.ticks_write {n : Nat} : ∀ {p : P} {bs : List B}, M.act p = .write bs →
    n + 1 ≤ bs.length → M.Ticks (n + 1) p (.gave (bs.take (n + 1))) (M.wrote p (n + 1)) := by
  induction n with
  | zero =>
      intro p bs h hle
      exact .one ⟨.write h Nat.one_pos hle, tick_size bs⟩
  | succ n ih =>
      intro p bs h hle
      obtain ⟨hact, hadd⟩ := M.wrote_add h Nat.one_pos (Nat.succ_pos n) (by omega)
      have hrest := ih hact (by rw [List.length_drop]; omega)
      have hfirst : M.Tick p (.gave (bs.take 1)) (M.wrote p 1) :=
        ⟨.write h Nat.one_pos (by omega), tick_size bs⟩
      have hrun := Process.Ticks.head hfirst hrest
      rw [hadd, Nat.add_comm 1] at hrun
      rw [Label.gave_append, ← List.take_add, Nat.add_comm 1] at hrun
      exact hrun

/-- Bytes read at once can be read one by one. -/
theorem Process.ticks_read (new : List B) : ∀ {p : P} {n : Nat}, M.act p = .read n → new ≠ [] →
    new.length ≤ n → M.Ticks new.length p (.took new) (M.got p new) := by
  induction new with
  | nil =>
      intro p n _ hne
      exact absurd rfl hne
  | cons b new ih =>
      intro p n h _ hle
      by_cases hnil : new = []
      · subst hnil
        refine .one ⟨.read h (List.cons_ne_nil b []) hle, ?_⟩
        simp [Label.took]
      · obtain ⟨hact, hadd⟩ := M.got_append h (List.cons_ne_nil b []) hnil
          (by rw [List.length_cons] at hle; simp only [List.length_singleton]; omega)
        have hrest := ih hact hnil (by
          rw [List.length_cons] at hle
          simp only [List.length_singleton]
          omega)
        have hfirst : M.Tick p (.took [b]) (M.got p [b]) :=
          ⟨.read h (List.cons_ne_nil b []) (by
            rw [List.length_cons] at hle
            simp only [List.length_singleton]
            omega), by simp [Label.took]⟩
        have hrun := Process.Ticks.head hfirst hrest
        rw [hadd] at hrun
        exact hrun

/-- **CUTS DO NOT MATTER**: every move is a run of ticks. -/
theorem Process.ticks_of_moves {p p' : P} {l : Label B Q A} (h : M.Moves p l p') :
    ∃ n, 0 < n ∧ M.Ticks n p l p' := by
  cases h with
  | @write bs n h hn hle =>
      obtain ⟨n, rfl⟩ := Nat.exists_eq_add_of_le' hn
      exact ⟨_, hn, Process.ticks_write h hle⟩
  | read h hnew hle => exact ⟨_, List.length_pos_iff.mpr hnew, Process.ticks_read _ h hnew hle⟩
  | ask a h => exact ⟨1, Nat.one_pos, .one (Process.tick_ask h a)⟩
  | tau h => exact ⟨1, Nat.one_pos, .one (Process.tick_tau h)⟩

/-- A run that only writes. -/
def Process.Gives (M : Process B Q A P) (p : P) (bs : List B) (p' : P) : Prop :=
  ∃ n, M.Ticks n p (.gave bs) p'

/-- A run that only reads. -/
def Process.Takes (M : Process B Q A P) (p : P) (bs : List B) (p' : P) : Prop :=
  ∃ n, M.Ticks n p (.took bs) p'

theorem Process.Gives.trans {p p' p'' : P} {bs bs' : List B} (h : M.Gives p bs p')
    (h' : M.Gives p' bs' p'') : M.Gives p (bs ++ bs') p'' := by
  obtain ⟨n, hn⟩ := h
  obtain ⟨m, hm⟩ := h'
  exact ⟨n + m, hn.trans hm⟩

theorem Process.Takes.trans {p p' p'' : P} {bs bs' : List B} (h : M.Takes p bs p')
    (h' : M.Takes p' bs' p'') : M.Takes p (bs ++ bs') p'' := by
  obtain ⟨n, hn⟩ := h
  obtain ⟨m, hm⟩ := h'
  exact ⟨n + m, hn.trans hm⟩

/-- All that is offered is written, maybe nothing. -/
theorem Process.gives_write {p : P} {bs : List B} (h : M.act p = .write bs) (hne : bs ≠ []) :
    M.Gives p bs (M.wrote p bs.length) := by
  obtain ⟨n, hn⟩ := Nat.exists_eq_add_of_le' (List.length_pos_iff.mpr hne)
  have hrun := Process.ticks_write (M := M) h (Nat.le_of_eq hn.symm)
  rw [← hn, List.take_length] at hrun
  exact ⟨_, hrun⟩

/-- All that is asked for is read. -/
theorem Process.takes_read (new : List B) {p : P} (h : M.act p = .read new.length)
    (hne : new ≠ []) : M.Takes p new (M.got p new) :=
  ⟨_, Process.ticks_read new h hne (Nat.le_refl _)⟩

theorem Process.Gives.tau {p p' : P} {bs : List B} (h : M.Gives p bs p')
    (hact : M.act p' = .tau) : M.Gives p bs (M.moved p') := by
  have hlast : M.Gives p' [] (M.moved p') := ⟨1, .one (Process.tick_tau hact)⟩
  have hrun := h.trans hlast
  rwa [List.append_nil] at hrun

theorem Process.Takes.tau {p p' : P} {bs : List B} (h : M.Takes p bs p')
    (hact : M.act p' = .tau) : M.Takes p bs (M.moved p') := by
  have hlast : M.Takes p' [] (M.moved p') := ⟨1, .one (Process.tick_tau hact)⟩
  have hrun := h.trans hlast
  rwa [List.append_nil] at hrun

theorem Process.gives_nil {p : P} : M.Gives p [] p := ⟨0, .refl⟩

/-- What a tick does is settled by the bytes and answers it finds. -/
theorem Process.tick_unique {p t u : P} {l m : Label B Q A} (hl : M.Tick p l t)
    (hm : M.Tick p m u) {inq : List B} (hinq : l.used <+: inq) (hinq' : m.used <+: inq)
    {given : List A} (hgiven : l.heard <+: given) (hgiven' : m.heard <+: given) :
    l = m ∧ t = u := by
  obtain ⟨hl, hsize⟩ := hl
  obtain ⟨hm, hsize'⟩ := hm
  cases hl with
  | @write bs n h hn hle =>
      cases hm with
      | @write bs' n' h' hn' hle' =>
          obtain rfl := Act.write.inj (h.symm.trans h')
          simp only [Label.gave, List.length_nil, List.length_take] at hsize hsize'
          obtain rfl : n = n' := by omega
          exact ⟨rfl, rfl⟩
      | read h' => cases h.symm.trans h'
      | ask a h' => cases h.symm.trans h'
      | tau h' => cases h.symm.trans h'
  | @read n new h hnew hle =>
      cases hm with
      | write h' => cases h.symm.trans h'
      | @read n' new' h' hnew' hle' =>
          have hpos := List.length_pos_iff.mpr hnew
          have hpos' := List.length_pos_iff.mpr hnew'
          simp only [Label.took, List.length_nil] at hsize hsize'
          obtain rfl : new = new' := List.IsPrefix.eq_of_length
            (List.prefix_of_prefix_length_le hinq hinq' (by
              show new.length ≤ new'.length
              omega)) (by omega)
          exact ⟨rfl, rfl⟩
      | ask a h' => cases h.symm.trans h'
      | tau h' => cases h.symm.trans h'
  | @ask q a h =>
      cases hm with
      | write h' => cases h.symm.trans h'
      | read h' => cases h.symm.trans h'
      | @ask q' a' h' =>
          obtain rfl := Act.ask.inj (h.symm.trans h')
          have hsame : [a] = [a'] := List.IsPrefix.eq_of_length
            (List.prefix_of_prefix_length_le hgiven hgiven' (Nat.le_refl 1)) rfl
          obtain rfl := List.cons.inj hsame |>.1
          exact ⟨rfl, rfl⟩
      | tau h' => cases h.symm.trans h'
  | tau h =>
      cases hm with
      | write h' => cases h.symm.trans h'
      | read h' => cases h.symm.trans h'
      | ask a h' => cases h.symm.trans h'
      | tau h' => exact ⟨rfl, rfl⟩

/-- Every question of a move is answered in it. -/
theorem Process.Moves.asked_length {p p' : P} {l : Label B Q A} (h : M.Moves p l p') :
    l.asked.length = l.heard.length := by
  cases h <;> rfl

end Processes

/-! ## Two processes on a connection -/

variable {Q₁ A₁ Q₂ A₂ R : Type}

/-- Two processes, the bytes on their way, the answers each side has heard and
    the questions the right side has asked. -/
structure Net (B A₁ P Q₂ A₂ R : Type) where
  left       : P
  right      : R
  toLeft     : List B
  toRight    : List B
  leftHeard  : List A₁
  rightHeard : List A₂
  rightAsked : List Q₂

/-- Nothing is on its way. -/
def Net.Quiet (s : Net B A₁ P Q₂ A₂ R) : Prop := s.toLeft = [] ∧ s.toRight = []

/-- The left side has moved, and `toLeft` is what it left in its queue. -/
def Net.goLeft (s : Net B A₁ P Q₂ A₂ R) (p : P) (l : Label B Q₁ A₁) (toLeft : List B) :
    Net B A₁ P Q₂ A₂ R :=
  { s with
    left := p
    toLeft := toLeft
    toRight := s.toRight ++ l.made
    leftHeard := s.leftHeard ++ l.heard }

/-- The right side has moved. -/
def Net.goRight (s : Net B A₁ P Q₂ A₂ R) (r : R) (l : Label B Q₂ A₂) (toRight : List B) :
    Net B A₁ P Q₂ A₂ R :=
  { s with
    right := r
    toRight := toRight
    toLeft := s.toLeft ++ l.made
    rightHeard := s.rightHeard ++ l.heard
    rightAsked := s.rightAsked ++ l.asked }

/-- A step of either side, in a given way to move. -/
inductive Net.StepBy (m : P → Label B Q₁ A₁ → P → Prop) (n : R → Label B Q₂ A₂ → R → Prop) :
    Net B A₁ P Q₂ A₂ R → Net B A₁ P Q₂ A₂ R → Prop where
  | left {s : Net B A₁ P Q₂ A₂ R} {p : P} {l : Label B Q₁ A₁} {toLeft : List B}
      (h : m s.left l p) (hq : s.toLeft = l.used ++ toLeft) : StepBy m n s (s.goLeft p l toLeft)
  | right {s : Net B A₁ P Q₂ A₂ R} {r : R} {l : Label B Q₂ A₂} {toRight : List B}
      (h : n s.right l r) (hq : s.toRight = l.used ++ toRight) :
      StepBy m n s (s.goRight r l toRight)

section Nets

variable (M : Process B Q₁ A₁ P) (N : Process B Q₂ A₂ R)

/-- A step of a network, transfers cut in any way and questions answered in any
    way. -/
def Net.Step : Net B A₁ P Q₂ A₂ R → Net B A₁ P Q₂ A₂ R → Prop := Net.StepBy M.Moves N.Moves

/-- A tick, with the answers taken from two given lists. -/
def Net.TickIn (L : List A₁) (H : List A₂) (s t : Net B A₁ P Q₂ A₂ R) : Prop :=
  Net.StepBy M.Tick N.Tick s t ∧ t.leftHeard <+: L ∧ t.rightHeard <+: H

variable {M N} {L : List A₁} {H : List A₂} {s t u : Net B A₁ P Q₂ A₂ R}

/-- What comes after what was heard. -/
theorem heard_next {α : Type} {old new all : List α} (h : old ++ new <+: all) :
    new <+: all.drop old.length := by
  obtain ⟨rest, rfl⟩ := h
  rw [List.append_assoc, List.drop_left]
  exact List.prefix_append new rest

/-- **THE DIAMOND**: with the answers given, ticks commute. -/
theorem diamond : Diamond (Net.TickIn M N L H) := by
  rintro s t u ⟨ht, htl, htr⟩ ⟨hu, hul, hur⟩
  cases ht with
  | @left p l toLeft h hq =>
      cases hu with
      | @left p' l' toLeft' h' hq' =>
          obtain ⟨rfl, rfl⟩ := Process.tick_unique h h' ⟨toLeft, hq.symm⟩ ⟨toLeft', hq'.symm⟩
            (heard_next htl) (heard_next hul)
          obtain rfl := List.append_cancel_left (hq.symm.trans hq')
          exact .inl rfl
      | @right r l' toRight h' hq' =>
          right
          refine ⟨(s.goLeft p l toLeft).goRight r l' (toRight ++ l.made), ⟨.right h' ?_, htl, hur⟩,
            ?_⟩
          · show s.toRight ++ l.made = l'.used ++ (toRight ++ l.made)
            rw [hq', List.append_assoc]
          · rw [show (s.goLeft p l toLeft).goRight r l' (toRight ++ l.made)
              = (s.goRight r l' toRight).goLeft p l (toLeft ++ l'.made) from rfl]
            refine ⟨.left h ?_, htl, hur⟩
            show s.toLeft ++ l'.made = l.used ++ (toLeft ++ l'.made)
            rw [hq, List.append_assoc]
  | @right r l toRight h hq =>
      cases hu with
      | @left p l' toLeft h' hq' =>
          right
          refine ⟨(s.goLeft p l' toLeft).goRight r l (toRight ++ l'.made), ?_, .right h ?_, hul,
            htr⟩
          · rw [show (s.goLeft p l' toLeft).goRight r l (toRight ++ l'.made)
              = (s.goRight r l toRight).goLeft p l' (toLeft ++ l.made) from rfl]
            refine ⟨.left h' ?_, hul, htr⟩
            show s.toLeft ++ l.made = l'.used ++ (toLeft ++ l.made)
            rw [hq', List.append_assoc]
          · show s.toRight ++ l'.made = l.used ++ (toRight ++ l'.made)
            rw [hq, List.append_assoc]
      | @right r' l' toRight' h' hq' =>
          obtain ⟨rfl, rfl⟩ := Process.tick_unique h h' ⟨toRight, hq.symm⟩ ⟨toRight', hq'.symm⟩
            (heard_next htr) (heard_next hur)
          obtain rfl := List.append_cancel_left (hq.symm.trans hq')
          exact .inl rfl

/-- What is heard and asked only grows. -/
structure Net.Grows (s t : Net B A₁ P Q₂ A₂ R) : Prop where
  left  : s.leftHeard <+: t.leftHeard
  right : s.rightHeard <+: t.rightHeard
  asked : s.rightAsked <+: t.rightAsked

theorem grows_refl (s : Net B A₁ P Q₂ A₂ R) : s.Grows s :=
  ⟨List.prefix_refl _, List.prefix_refl _, List.prefix_refl _⟩

theorem Net.Grows.trans (h : s.Grows t) (h' : t.Grows u) : s.Grows u :=
  ⟨h.left.trans h'.left, h.right.trans h'.right, h.asked.trans h'.asked⟩

theorem grows_stepBy {m : P → Label B Q₁ A₁ → P → Prop} {n : R → Label B Q₂ A₂ → R → Prop}
    (h : Net.StepBy m n s t) : s.Grows t := by
  cases h with
  | left => exact ⟨List.prefix_append _ _, List.prefix_refl _, List.prefix_refl _⟩
  | right => exact ⟨List.prefix_refl _, List.prefix_append _ _, List.prefix_append _ _⟩

theorem grows_run {n : Nat} (h : Steps (Net.Step M N) n s t) : s.Grows t :=
  h.keeps grows_refl (fun _ _ _ => Net.Grows.trans) (fun _ _ => grows_stepBy)

theorem grows_ticks {n : Nat} (h : Steps (Net.TickIn M N L H) n s t) : s.Grows t :=
  h.keeps grows_refl (fun _ _ _ => Net.Grows.trans) (fun _ _ hstep => grows_stepBy hstep.1)

/-- Every question asked was answered. -/
theorem asked_length {n : Nat} (h : Steps (Net.Step M N) n s t)
    (hs : s.rightAsked.length = s.rightHeard.length) :
    t.rightAsked.length = t.rightHeard.length := by
  induction h with
  | refl => exact hs
  | @head n s t u hstep _ ih =>
      refine ih ?_
      cases hstep with
      | left => exact hs
      | @right r l toRight h hq =>
          show (s.rightAsked ++ l.asked).length = (s.rightHeard ++ l.heard).length
          rw [List.length_append, List.length_append, hs, h.asked_length]

/-- A step that hears no answer asks no question. -/
theorem asked_of_heard (h : Net.Step M N s t) (hsame : t.rightHeard = s.rightHeard) :
    t.rightAsked = s.rightAsked := by
  cases h with
  | left => rfl
  | @right r l toRight h hq =>
      have hheard : l.heard = [] := List.append_right_eq_self.mp hsame
      have hlen := h.asked_length
      rw [hheard, List.length_nil] at hlen
      show s.rightAsked ++ l.asked = s.rightAsked
      rw [List.eq_nil_of_length_eq_zero hlen, List.append_nil]

/-! ## Runs of one side -/

/-- A run of the left side alone. -/
theorem ticks_left {n : Nat} {p p' : P} {l : Label B Q₁ A₁} (h : M.Ticks n p l p') :
    ∀ {s : Net B A₁ P Q₂ A₂ R} {q : List B}, s.left = p → s.toLeft = l.used ++ q →
      s.leftHeard ++ l.heard <+: L → s.rightHeard <+: H →
      Steps (Net.TickIn M N L H) n s (s.goLeft p' l q) := by
  induction h with
  | refl =>
      rintro s toLeft rfl hq _ _
      rw [show s.goLeft s.left (.took []) toLeft = s by
        simp only [Net.goLeft, Label.took, List.append_nil]
        rw [← show s.toLeft = toLeft from hq]]
      exact .refl
  | @head n p p' p'' l m hstep _ ih =>
      rintro s toLeft rfl hq hl hr
      rw [Label.append, List.append_assoc] at hq
      have hl' : (s.leftHeard ++ l.heard) ++ m.heard <+: L := by
        rw [List.append_assoc]
        exact hl
      have hrest := ih (s := s.goLeft p' l (m.used ++ toLeft)) (q := toLeft) rfl rfl hl' hr
      rw [show (s.goLeft p' l (m.used ++ toLeft)).goLeft p'' m toLeft
          = s.goLeft p'' (l.append m) toLeft by
        simp only [Net.goLeft, Label.append, List.append_assoc]] at hrest
      exact .head ⟨.left hstep hq, (List.prefix_append _ _).trans hl', hr⟩ hrest

/-- A run of the right side alone. -/
theorem ticks_right {n : Nat} {r r' : R} {l : Label B Q₂ A₂} (h : N.Ticks n r l r') :
    ∀ {s : Net B A₁ P Q₂ A₂ R} {q : List B}, s.right = r → s.toRight = l.used ++ q →
      s.leftHeard <+: L → s.rightHeard ++ l.heard <+: H →
      Steps (Net.TickIn M N L H) n s (s.goRight r' l q) := by
  induction h with
  | refl =>
      rintro s toRight rfl hq _ _
      rw [show s.goRight s.right (.took []) toRight = s by
        simp only [Net.goRight, Label.took, List.append_nil]
        rw [← show s.toRight = toRight from hq]]
      exact .refl
  | @head n r r' r'' l m hstep _ ih =>
      rintro s toRight rfl hq hl hr
      rw [Label.append, List.append_assoc] at hq
      have hr' : (s.rightHeard ++ l.heard) ++ m.heard <+: H := by
        rw [List.append_assoc]
        exact hr
      have hrest := ih (s := s.goRight r' l (m.used ++ toRight)) (q := toRight) rfl rfl hl hr'
      rw [show (s.goRight r' l (m.used ++ toRight)).goRight r'' m toRight
          = s.goRight r'' (l.append m) toRight by
        simp only [Net.goRight, Label.append, List.append_assoc]] at hrest
      exact .head ⟨.right hstep hq, hl, (List.prefix_append _ _).trans hr'⟩ hrest

/-- A step is a run of ticks. -/
theorem ticks_of_step (h : Net.Step M N s t) (hl : t.leftHeard <+: L) (hr : t.rightHeard <+: H) :
    ∃ n, 0 < n ∧ Steps (Net.TickIn M N L H) n s t := by
  cases h with
  | left h hq =>
      obtain ⟨n, hn, hrun⟩ := Process.ticks_of_moves h
      exact ⟨n, hn, ticks_left hrun rfl hq hl hr⟩
  | right h hq =>
      obtain ⟨n, hn, hrun⟩ := Process.ticks_of_moves h
      exact ⟨n, hn, ticks_right hrun rfl hq hl hr⟩

/-- So is a run, and one of no fewer steps. -/
theorem ticks_of_run {m : Nat} (h : Steps (Net.Step M N) m s t) (hl : t.leftHeard <+: L)
    (hr : t.rightHeard <+: H) : ∃ n, m ≤ n ∧ Steps (Net.TickIn M N L H) n s t := by
  induction h with
  | refl => exact ⟨0, Nat.le_refl 0, .refl⟩
  | head hstep hrest ih =>
      have hgrows := grows_run hrest
      obtain ⟨n, hn, hfirst⟩ := ticks_of_step hstep (hgrows.left.trans hl) (hgrows.right.trans hr)
      obtain ⟨k, hk, htail⟩ := ih hl hr
      exact ⟨n + k, by omega, hfirst.trans htail⟩

/-- A tick is a step. -/
theorem step_of_tick (h : Net.TickIn M N L H s t) : Net.Step M N s t := by
  obtain ⟨h, -, -⟩ := h
  cases h with
  | left h hq => exact .left h.1 hq
  | right h hq => exact .right h.1 hq

end Nets

end ByteNetwork
