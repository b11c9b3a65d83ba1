/-! # Loops that wait — one system call a turn

    A `while` loop makes a call in every turn, and what the call reports decides
    whether the loop goes on or returns.  Against a finite sequence of reports
    it has returned, with some of them left over, or it waits for the next.

    `Rule.run` is the rule for such loops: an invariant that sees the reports
    used so far holds at the head of every turn, and a postcondition when the
    loop returns.  For systems of several parties `run_ends` turns "never stuck"
    and "never longer than" into "comes to an end". -/

namespace OutcomeLoop

variable {L O R : Type}

/-- A turn goes on with the loop or returns. -/
inductive Turn (L R : Type) where
  | more (l : L)
  | ret (r : R)

/-- A loop: what it returns at its head, if it is through there, and what a turn
    does with the report of its call. -/
structure Loop (L O R : Type) where
  done : L → Option R
  turn : L → O → Turn L R

/-- Where a loop stands: in its next call, or returned, with the reports it had
    no use for. -/
inductive Run (L O R : Type) where
  | waiting (l : L)
  | returned (r : R) (unused : List O)

/-- What was returned; nothing while the loop waits. -/
def Run.result : Run L O R → Option R
  | .waiting _ => none
  | .returned r _ => some r

/-- The reports that were not used. -/
def Run.unused : Run L O R → List O
  | .waiting _ => []
  | .returned _ unused => unused

/-- Something that both a waiting loop and a returned one have. -/
def Run.view {α : Type} (f : L → α) (g : R → α) : Run L O R → α
  | .waiting l => f l
  | .returned r _ => g r

/-- The loop against a sequence of reports. -/
def Loop.run (P : Loop L O R) : List O → L → Run L O R
  | [], l =>
      match P.done l with
      | some r => .returned r []
      | none => .waiting l
  | o :: outs, l =>
      match P.done l with
      | some r => .returned r (o :: outs)
      | none =>
          match P.turn l o with
          | .more l' => P.run outs l'
          | .ret r => .returned r outs

/-- Reports that the calls of the loop may give, where `may` says what one call
    may give. -/
def Loop.Allowed (P : Loop L O R) (may : L → O → Prop) : List O → L → Prop
  | [], _ => True
  | o :: outs, l =>
      P.done l = none → may l o ∧ ∀ l', P.turn l o = .more l' → P.Allowed may outs l'

/-! ## The loop equations -/

section Equations

variable {P : Loop L O R} {l l' : L} {o : O} {r : R} {outs : List O}

theorem run_done (h : P.done l = some r) : P.run outs l = .returned r outs := by
  cases outs with
  | nil => rw [Loop.run, h]
  | cons o outs => rw [Loop.run, h]

theorem run_waits (h : P.done l = none) : P.run [] l = .waiting l := by
  rw [Loop.run, h]

theorem run_more (h : P.done l = none) (hturn : P.turn l o = .more l') :
    P.run (o :: outs) l = P.run outs l' := by
  rw [Loop.run, h]
  dsimp only
  rw [hturn]

theorem run_ret (h : P.done l = none) (hturn : P.turn l o = .ret r) :
    P.run (o :: outs) l = .returned r outs := by
  rw [Loop.run, h]
  dsimp only
  rw [hturn]

end Equations

/-! ## What a loop can come to -/

section Allowed

variable {P : Loop L O R} {may : L → O → Prop} {l l' : L} {o : O} {r : R} {outs : List O}

theorem allowed_more (hmay : may l o) (hturn : P.turn l o = .more l')
    (h : P.Allowed may outs l') : P.Allowed may (o :: outs) l := by
  refine fun _ => ⟨hmay, fun l'' hl'' => ?_⟩
  cases hturn.symm.trans hl''
  exact h

theorem allowed_ret (hmay : may l o) (hturn : P.turn l o = .ret r) :
    P.Allowed may (o :: outs) l := by
  refine fun _ => ⟨hmay, fun l'' hl'' => ?_⟩
  cases hturn.symm.trans hl''

end Allowed

/-- Some reports that its calls may give lead the loop to a result. -/
def Loop.Ends (P : Loop L O R) (may : L → O → Prop) (l : L) (r : R) : Prop :=
  ∃ outs, P.Allowed may outs l ∧ P.run outs l = .returned r []

section Ends

variable {P : Loop L O R} {may : L → O → Prop} {l l' : L} {o : O} {r : R}

theorem ends_done (h : P.done l = some r) : P.Ends may l r := ⟨[], trivial, run_done h⟩

theorem ends_more (h : P.done l = none) (hmay : may l o) (hturn : P.turn l o = .more l')
    (hends : P.Ends may l' r) : P.Ends may l r := by
  obtain ⟨outs, hall, hrun⟩ := hends
  exact ⟨o :: outs, allowed_more hmay hturn hall, (run_more h hturn).trans hrun⟩

theorem ends_ret (h : P.done l = none) (hmay : may l o) (hturn : P.turn l o = .ret r) :
    P.Ends may l r :=
  ⟨[o], allowed_ret hmay hturn, run_ret h hturn⟩

end Ends

/-! ## The rule -/

/-- What has to be shown of a loop: the invariant is kept by every turn, and
    gives the postcondition wherever the loop returns. -/
structure Rule (P : Loop L O R) (may : L → O → Prop) (Inv : List O → L → Prop)
    (Post : List O → R → Prop) : Prop where
  done : ∀ used l r, Inv used l → P.done l = some r → Post used r
  more : ∀ used l o l', Inv used l → P.done l = none → may l o → P.turn l o = .more l' →
    Inv (used ++ [o]) l'
  ret  : ∀ used l o r, Inv used l → P.done l = none → may l o → P.turn l o = .ret r →
    Post (used ++ [o]) r

/-- **THE RULE**: the loop waits, with the invariant over all reports, or has
    returned with the postcondition over those it used. -/
theorem Rule.run {P : Loop L O R} {may : L → O → Prop} {Inv : List O → L → Prop}
    {Post : List O → R → Prop} (h : Rule P may Inv Post) (outs : List O) :
    ∀ (used : List O) (l : L), Inv used l → P.Allowed may outs l →
      (∃ l', P.run outs l = .waiting l' ∧ P.done l' = none ∧ Inv (used ++ outs) l')
      ∨ ∃ r mid rest, P.run outs l = .returned r rest ∧ outs = mid ++ rest
        ∧ Post (used ++ mid) r := by
  induction outs with
  | nil =>
      intro used l hinv _
      cases hdone : P.done l with
      | none =>
          left
          refine ⟨l, run_waits hdone, hdone, ?_⟩
          rw [List.append_nil]
          exact hinv
      | some r =>
          right
          refine ⟨r, [], [], run_done hdone, rfl, ?_⟩
          rw [List.append_nil]
          exact h.done used l r hinv hdone
  | cons o outs ih =>
      intro used l hinv hall
      cases hdone : P.done l with
      | some r =>
          right
          refine ⟨r, [], o :: outs, run_done hdone, rfl, ?_⟩
          rw [List.append_nil]
          exact h.done used l r hinv hdone
      | none =>
          obtain ⟨hmay, hnext⟩ := hall hdone
          cases hturn : P.turn l o with
          | ret r =>
              right
              exact ⟨r, [o], outs, run_ret hdone hturn, rfl,
                h.ret used l o r hinv hdone hmay hturn⟩
          | more l' =>
              have hinv' := h.more used l o l' hinv hdone hmay hturn
              rw [run_more hdone hturn]
              rcases ih (used ++ [o]) l' hinv' (hnext l' hturn) with
                ⟨l'', hrun, hdone', hend⟩ | ⟨r, mid, rest, hrun, hsplit, hpost⟩
              · left
                refine ⟨l'', hrun, hdone', ?_⟩
                rw [List.append_assoc] at hend
                exact hend
              · right
                refine ⟨r, o :: mid, rest, hrun, by rw [hsplit]; rfl, ?_⟩
                rw [List.append_assoc] at hpost
                exact hpost

/-! ## Runs that end -/

/-- **A BOUNDED RUN ENDS**, where it can always be made longer before its end. -/
theorem run_ends {S : Type} {P : Nat → S → Prop} {E : S → Prop} (bound : Nat) {s : S}
    (hstart : P 0 s) (hbound : ∀ n t, P n t → n ≤ bound)
    (hmoves : ∀ n t, P n t → ¬ E t → ∃ u, P (n + 1) u) : ∃ n t, P n t ∧ E t := by
  -- a run of any length, unless the end is reached before
  have hgrow : ∀ m, (∃ n t, P n t ∧ E t) ∨ ∃ t, P m t := by
    intro m
    induction m with
    | zero => exact .inr ⟨s, hstart⟩
    | succ m ih =>
        rcases ih with hend | ⟨t, ht⟩
        · exact .inl hend
        · by_cases hend : E t
          · exact .inl ⟨m, t, ht, hend⟩
          · exact .inr (hmoves m t ht hend)
  rcases hgrow (bound + 1) with hend | ⟨t, ht⟩
  · exact hend
  · have hle := hbound (bound + 1) t ht
    omega

end OutcomeLoop
