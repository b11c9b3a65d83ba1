import Searpc.ConcurrentServerProofs

/-! # Direct runs — the same calls without a wire

    Above the questions a world is asked stand the calls of the programs that
    ask them: calls of another type, with outcomes of another type, each meant
    to act on the world at once.  A run of such calls has no wire in it, and no
    texts.

    Where every call, asked as a question and its answer decoded, acts as it is
    meant to, a log of the world shows a direct run (`direct_of_serial`), and
    clients that find their calls in the log find themselves in that run
    (`explains_of_inOrder`). -/

namespace ByteNetwork

open Linearizability

variable {ι B Q A R W : Type} {J P T X O : ι → Type}

/-! ## Programs that act directly -/

/-- Calls that act on the world, one after the other; in between others change it,
    each time by a question. -/
inductive DirectRun (serve : W → Q → W × A) (Acts : (c : ι) → X c → O c → W → W → Prop) :
    W → List (Option (Σ c, X c × O c)) → W → Prop where
  | nil {w : W} : DirectRun serve Acts w [] w
  | own {w v v' : W} {es : List (Option (Σ c, X c × O c))} {c : ι} {x : X c} {o : O c}
      (h : DirectRun serve Acts w es v) (hacts : Acts c x o v v') :
      DirectRun serve Acts w (es ++ [some ⟨c, x, o⟩]) v'
  | other {w v : W} {es : List (Option (Σ c, X c × O c))} (h : DirectRun serve Acts w es v)
      (q : Q) : DirectRun serve Acts w (es ++ [none]) (serve v q).1

variable [DecidableEq ι]

/-- An event, if it is a call of `c`. -/
def ownCall (c : ι) : Option (Σ c, X c × O c) → Option (X c × O c)
  | none => none
  | some ⟨d, y⟩ => if h : d = c then some (h ▸ y) else none

/-- The calls of a program and their outcomes. -/
def ownCalls (c : ι) (es : List (Option (Σ c, X c × O c))) : List (X c × O c) :=
  es.filterMap (ownCall c)

theorem ownCall_self (c : ι) (y : X c × O c) : ownCall c (some ⟨c, y⟩) = some y := dif_pos rfl

theorem ownCall_other {c d : ι} (h : d ≠ c) (y : X d × O d) : ownCall c (some ⟨d, y⟩) = none :=
  dif_neg h

/-! ## What a log shows -/

section Direct

variable (decode : (c : ι) → X c → A → O c)

/-- The calls behind the questions of a log: each program's questions are those
    of its calls, in order. -/
def direct : ((c : ι) → List (X c)) → List (Option ι × Q × A) → List (Option (Σ c, X c × O c))
  | _, [] => []
  | prog, (none, _, _) :: log => none :: direct prog log
  | prog, (some c, _, a) :: log =>
      match prog c with
      | [] => direct prog log
      | x :: xs => some ⟨c, x, decode c x a⟩ :: direct (Function.update prog c xs) log

theorem direct_cons {prog : (c : ι) → List (X c)} {c : ι} {x : X c} {xs : List (X c)}
    (h : prog c = x :: xs) (q : Q) (a : A) (log : List (Option ι × Q × A)) :
    direct decode prog ((some c, q, a) :: log)
      = some ⟨c, x, decode c x a⟩ :: direct decode (Function.update prog c xs) log := by
  rw [direct, h]

theorem direct_skip {prog : (c : ι) → List (X c)} {c : ι} (h : prog c = []) (q : Q) (a : A)
    (log : List (Option ι × Q × A)) :
    direct decode prog ((some c, q, a) :: log) = direct decode prog log := by
  rw [direct, h]

/-- What is left of the programs. -/
def remaining (prog : (c : ι) → List (X c)) (log : List (Option ι × Q × A)) (c : ι) : List (X c) :=
  (prog c).drop (callsOf c log).length

theorem calls_cons_self (c : ι) (y : Q × A) (log : List (Option ι × Q × A)) :
    callsOf c ((some c, y) :: log) = y :: callsOf c log := by
  rw [callsOf, callsBy, List.filterMap_cons, if_pos rfl]
  rfl

theorem calls_cons_other {c : ι} {who : Option ι} (h : who ≠ some c) (y : Q × A)
    (log : List (Option ι × Q × A)) : callsOf c ((who, y) :: log) = callsOf c log := by
  rw [callsOf, callsBy, List.filterMap_cons, if_neg h]
  rfl

/-- A call takes the first of its program away. -/
theorem remaining_cons {prog : (c : ι) → List (X c)} {c : ι} {x : X c} {xs : List (X c)}
    (h : prog c = x :: xs) (y : Q × A) (log : List (Option ι × Q × A)) :
    remaining prog ((some c, y) :: log) = remaining (Function.update prog c xs) log := by
  funext d
  by_cases hd : d = c
  · subst hd
    simp only [remaining, calls_cons_self, Function.update_self, List.length_cons, h,
      List.drop_succ_cons]
  · have hne : some c ≠ some d := fun heq => hd (Option.some.inj heq).symm
    simp only [remaining, calls_cons_other hne, Function.update_of_ne hd]

theorem direct_append (log log' : List (Option ι × Q × A)) :
    ∀ prog : (c : ι) → List (X c), direct decode prog (log ++ log')
      = direct decode prog log ++ direct decode (remaining prog log) log' := by
  induction log with
  | nil => exact fun _ => rfl
  | cons e log ih =>
      intro prog
      obtain ⟨who, y⟩ := e
      cases who with
      | none =>
          have hsame : remaining prog ((none, y) :: log) = remaining prog log := by
            funext d
            rw [remaining, calls_cons_other (Option.some_ne_none d).symm]
            rfl
          rw [List.cons_append, direct, direct, ih, hsame]
          rfl
      | some c =>
          cases h : prog c with
          | nil =>
              have hsame : remaining prog ((some c, y) :: log) = remaining prog log := by
                funext d
                by_cases hd : d = c
                · subst hd
                  simp only [remaining, h, List.drop_nil]
                · have hne : some c ≠ some d := fun heq => hd (Option.some.inj heq).symm
                  rw [remaining, calls_cons_other hne]
                  rfl
              rw [List.cons_append, direct_skip decode h, direct_skip decode h, ih, hsame]
          | cons x xs =>
              rw [List.cons_append, direct_cons decode h, direct_cons decode h, ih,
                remaining_cons h]
              rfl

/-- **LATER IS APPENDED**. -/
theorem direct_grows (prog : (c : ι) → List (X c)) {log log' : List (Option ι × Q × A)}
    (h : log <+: log') : direct decode prog log <+: direct decode prog log' := by
  obtain ⟨more, rfl⟩ := h
  rw [direct_append]
  exact List.prefix_append _ _

/-- A program's calls are its own, with its own answers. -/
theorem own_direct (c : ι) (log : List (Option ι × Q × A)) :
    ∀ prog : (c : ι) → List (X c), ownCalls c (direct decode prog log)
      = List.zipWith (fun x y => (x, decode c x y.2)) (prog c) (callsOf c log) := by
  induction log with
  | nil => exact fun _ => List.zipWith_nil_right.symm
  | cons e log ih =>
      intro prog
      obtain ⟨who, q, a⟩ := e
      cases who with
      | none =>
          rw [direct, calls_cons_other (Option.some_ne_none c).symm]
          exact ih prog
      | some d =>
          cases h : prog d with
          | nil =>
              rw [direct_skip decode h, ih]
              by_cases hd : d = c
              · subst hd
                rw [h, List.zipWith_nil_left, List.zipWith_nil_left]
              · rw [calls_cons_other (fun heq => hd (Option.some.inj heq))]
          | cons x xs =>
              rw [direct_cons decode h, ownCalls, List.filterMap_cons]
              by_cases hd : d = c
              · subst hd
                rw [ownCall_self, calls_cons_self, h, List.zipWith_cons_cons]
                refine congrArg ((x, decode d x a) :: ·) ((ih _).trans ?_)
                rw [Function.update_self]
              · rw [ownCall_other hd, calls_cons_other (fun heq => hd (Option.some.inj heq))]
                refine (ih _).trans ?_
                rw [Function.update_of_ne (Ne.symm hd)]

end Direct

/-- **THE LOG SHOWS A DIRECT RUN**, if each call acts as its question does. -/
theorem direct_of_serial {serve : W → Q → W × A} {Acts : (c : ι) → X c → O c → W → W → Prop}
    {decode : (c : ι) → X c → A → O c} (asked : (c : ι) → X c → Q) {prog : (c : ι) → List (X c)}
    (hacts : ∀ c, ∀ x ∈ prog c, ∀ v, Acts c x (decode c x (serve v (asked c x)).2) v
      (serve v (asked c x)).1) {w v : W} {log : List (Option ι × Q × A)}
    (h : Serial serve w log v)
    (hcalls : ∀ c, (callsOf c log).map Prod.fst <+: (prog c).map (asked c)) :
    DirectRun serve Acts w (direct decode prog log) v := by
  induction h with
  | nil => exact .nil
  | @snoc v log who q _ ih =>
      have hbefore : ∀ c, (callsOf c log).map Prod.fst <+: (prog c).map (asked c) := by
        intro c
        refine List.IsPrefix.trans ?_ (hcalls c)
        rw [callsOf_append, List.map_append]
        exact List.prefix_append _ _
      rw [direct_append]
      cases who with
      | none => exact (ih hbefore).other q
      | some c =>
          -- the question is that of the next call of the program
          obtain ⟨rest, hrest⟩ := hcalls c
          rw [callsOf_append, if_pos rfl, List.map_append, List.append_assoc] at hrest
          have hdrop := congrArg (List.drop (callsOf c log).length) hrest
          rw [List.drop_left' (List.length_map _), ← List.map_drop] at hdrop
          obtain ⟨x, xs, hleft, hq, -⟩ := List.map_eq_cons_iff.mp hdrop.symm
          have hmem : x ∈ prog c := List.mem_of_mem_drop (hleft ▸ List.mem_cons_self)
          rw [direct_cons decode hleft]
          have hact := hacts c x hmem v
          rw [hq] at hact
          exact (ih hbefore).own hact

/-! ## What a run shows -/

/-- How a program finds itself in a direct run: its calls are the first of those
    it is to make, it has outcomes of the first of them, and between two calls
    none of those it has begun is missing. -/
structure Explains {X O : Type} (prog : List X) (begun : Nat) (idle : Prop) (outcomes : List O)
    (es : List (X × O)) : Prop where
  calls : es.map Prod.fst <+: prog
  has   : outcomes <+: es.map Prod.snd
  whole : idle → es.length = begun ∧ outcomes = es.map Prod.snd

theorem zipWith_prefix {α β γ : Type} (f : α → β → γ) (as : List α) {bs bs' : List β}
    (h : bs <+: bs') : List.zipWith f as bs <+: List.zipWith f as bs' := by
  obtain ⟨rest, rfl⟩ := h
  induction bs generalizing as with
  | nil =>
      rw [List.zipWith_nil_right]
      exact List.nil_prefix
  | cons b bs ih =>
      cases as with
      | nil => exact List.nil_prefix
      | cons a as =>
          obtain ⟨more, hmore⟩ := ih as
          exact ⟨more, congrArg (f a b :: ·) hmore⟩

theorem zipWith_fst {α β γ : Type} (f : α → β → γ) (as : List α) (bs : List β) :
    (List.zipWith (fun a b => (a, f a b)) as bs).map Prod.fst <+: as := by
  induction as generalizing bs with
  | nil => exact List.prefix_refl _
  | cons a as ih =>
      cases bs with
      | nil => exact List.nil_prefix
      | cons b bs => exact List.cons_prefix_cons.mpr ⟨rfl, ih bs⟩

/-- **A CLIENT FINDS ITSELF IN THE DIRECT RUN** that a log shows, if it finds its
    calls in the log. -/
theorem explains_of_inOrder (c : ι) {M : Process B Unit (J c) (P c)} {C : Client M (T c)}
    {asked : J c → Q} (given : (c : ι) → A → T c) (prog : (c : ι) → List (X c)) (job : X c → J c)
    (decode : (c : ι) → X c → T c → O c) {log : List (Option ι × Q × A)} {begun : List (J c)}
    {p : P c} (hbegun : begun <+: (prog c).map job)
    (h : InOrder C asked (given c) begun (callsOf c log) p) :
    Explains (prog c) begun.length (C.idle p) (List.zipWith (decode c) (prog c) (C.rets p))
      (ownCalls c (direct (fun c x a => decode c x (given c a)) prog log)) := by
  have hown := own_direct (fun c x a => decode c x (given c a)) c log prog
  have hsnd : (ownCalls c (direct (fun c x a => decode c x (given c a)) prog log)).map Prod.snd
      = List.zipWith (decode c) (prog c) ((callsOf c log).map (fun y => given c y.2)) := by
    rw [hown, List.map_zipWith, List.zipWith_map_right]
  refine ⟨?_, ?_, fun hidle => ?_⟩
  · rw [hown]
    exact zipWith_fst _ _ _
  · rw [hsnd]
    exact zipWith_prefix _ _ h.rets
  · obtain ⟨hall, hrets⟩ := h.whole hidle
    have hlen := congrArg List.length hall
    rw [List.length_map, List.length_map] at hlen
    have hbound : begun.length ≤ (prog c).length :=
      hbegun.length_le.trans (Nat.le_of_eq (List.length_map _))
    refine ⟨?_, ?_⟩
    · rw [hown, List.length_zipWith, hlen]
      exact Nat.min_eq_right hbound
    · rw [hsnd, hrets]

/-! ## Unknown callers -/

/-- A log, without the names of the unknown callers. -/
def known {υ : Type} (log : List ((ι ⊕ υ) × Q × A)) : List (Option ι × Q × A) :=
  log.map (fun x => (x.1.getLeft?, x.2))

theorem calls_known {υ : Type} [DecidableEq υ] (c : ι) (log : List ((ι ⊕ υ) × Q × A)) :
    callsOf c (known log) = callsBy (.inl c) log := by
  rw [callsOf, callsBy, callsBy, known, List.filterMap_map]
  congr 1
  funext x
  obtain ⟨who, y⟩ := x
  cases who with
  | inl d => simp [Sum.getLeft?]
  | inr u => simp [Sum.getLeft?]

omit [DecidableEq ι] in
theorem known_mono {υ : Type} {log log' : List ((ι ⊕ υ) × Q × A)} (h : log <+: log') :
    known log <+: known log' :=
  h.map _

end ByteNetwork
