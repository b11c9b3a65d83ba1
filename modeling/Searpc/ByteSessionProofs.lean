import Searpc.ByteNetworkProofs

/-! # Clients and servers — calls over a byte stream, one after the other

    A client asks its program for the next job, sends a request, and waits for
    the reply; a server takes a request, asks its surroundings, and gives a
    reply.  `Client` and `Server` say so of ONE process each, with no schedule
    and no peer in sight.

    `Played` is the conversation by the book: the jobs in order, one question
    each, one result each.  `played_of_run` says that every run of the two
    together is a piece of it, and `run_moves` that none gets stuck before its
    end.  Whoever answers the questions keeps a list of the calls (`Tracks`);
    `Tracks.inOrder` says what the client has to do with it. -/

namespace ByteNetwork

variable {B J P T Q A R : Type}

/-! ## The two ends -/

/-- A process that makes calls: between calls it asks for a job, then it sends
    the request and waits, and the reply gives one more result. -/
structure Client (M : Process B Unit J P) (T : Type) where
  rets    : P → List T
  idle    : P → Prop
  waits   : J → P → Prop
  Good    : J → Prop
  request : J → List B
  reply   : J → List B → T → Prop
  idle_asks   : ∀ {p}, idle p → M.act p = .ask ()
  waits_reads : ∀ {j p}, waits j p → ∃ n, M.act p = .read n
  grow    : ∀ {p l p'}, M.Moves p l p' → rets p <+: rets p'
  send    : ∀ {j p}, idle p → Good j → ∃ p', M.Gives (M.answered p j) (request j) p'
    ∧ waits j p' ∧ rets p' = rets p
  receive : ∀ {j p bs t}, waits j p → reply j bs t → ∃ p', M.Takes p bs p'
    ∧ idle p' ∧ rets p' = rets p ++ [t]

/-- A process that serves: it takes a request, asks a question, and gives the
    reply. -/
structure Server (N : Process B Q A R) where
  ready   : R → Prop
  holds   : Q → R → Prop
  Request : List B → Q → Prop
  reply   : A → List B → Prop
  ready_reads : ∀ {r}, ready r → ∃ n, N.act r = .read n
  holds_asks  : ∀ {q r}, holds q r → N.act r = .ask q
  take    : ∀ {r bs q}, ready r → Request bs q → ∃ r', N.Takes r bs r' ∧ holds q r'
  give    : ∀ {q r a bs}, holds q r → reply a bs → ∃ r', N.Gives (N.answered r a) bs r' ∧ ready r'

variable {M : Process B Unit J P} {N : Process B Q A R}

/-- **THE CONVERSATION BY THE BOOK** for a sequence of jobs and a sequence of
    answers: the questions the server asks and the results the client gets. -/
inductive Played (C : Client M T) (V : Server N) : List J → List A → List Q → List T → Prop where
  | done {as : List A} : Played C V [] as [] []
  | waiting {j : J} {js : List J} {q : Q} (hj : C.Good j) (hq : V.Request (C.request j) q) :
      Played C V (j :: js) [] [] []
  | next {j : J} {js : List J} {q : Q} {qs : List Q} {a : A} {as : List A} {t : T} {ts : List T}
      {bs : List B} (hj : C.Good j) (hq : V.Request (C.request j) q) (ha : V.reply a bs)
      (ht : C.reply j bs t) (h : Played C V js as qs ts) :
      Played C V (j :: js) (a :: as) (q :: qs) (t :: ts)

/-- A job whose request the server understands. -/
def Servable (C : Client M T) (V : Server N) (j : J) : Prop :=
  C.Good j ∧ ∃ q, V.Request (C.request j) q

/-- An answer whose reply the client understands, whatever its job was. -/
def Fits (C : Client M T) (V : Server N) (js : List J) (a : A) : Prop :=
  ∃ bs, V.reply a bs ∧ ∀ j ∈ js, ∃ t, C.reply j bs t

section Played

variable {C : Client M T} {V : Server N}

/-- There is a conversation for every sequence of such jobs and answers. -/
theorem played_exists {js : List J} (hjs : ∀ j ∈ js, Servable C V j) :
    ∀ as : List A, (∀ a ∈ as, Fits C V js a) → ∃ qs ts, Played C V js as qs ts := by
  induction js with
  | nil => exact fun _ _ => ⟨[], [], .done⟩
  | cons j js ih =>
      intro as has
      obtain ⟨hj, q, hq⟩ := hjs j List.mem_cons_self
      cases as with
      | nil => exact ⟨[], [], .waiting hj hq⟩
      | cons a as =>
          obtain ⟨bs, ha, hreplies⟩ := has a List.mem_cons_self
          obtain ⟨t, ht⟩ := hreplies j List.mem_cons_self
          obtain ⟨qs, ts, h⟩ := ih (fun i hi => hjs i (List.mem_cons_of_mem j hi))
            as (fun b hb => by
              obtain ⟨bs', hb', hall⟩ := has b (List.mem_cons_of_mem a hb)
              exact ⟨bs', hb', fun i hi => hall i (List.mem_cons_of_mem j hi)⟩)
          exact ⟨q :: qs, t :: ts, .next hj hq ha ht h⟩

/-- One question and one result for each answered job. -/
theorem Played.lengths {js : List J} {as : List A} {qs : List Q} {ts : List T}
    (h : Played C V js as qs ts) :
    qs.length = min js.length as.length ∧ ts.length = min js.length as.length := by
  induction h with
  | done => exact ⟨(Nat.zero_min _).symm, (Nat.zero_min _).symm⟩
  | waiting => exact ⟨(Nat.min_zero _).symm, (Nat.min_zero _).symm⟩
  | next _ _ _ _ _ ih =>
      simp only [List.length_cons]
      omega

end Played

/-- A client and a server that understand each other: what a job asks of the
    server, and what an answer gives the client. -/
structure Meets (C : Client M T) (V : Server N) (asked : J → Q) (given : A → T)
    (Fine : J → Prop) (Plain : A → Prop) : Prop where
  job   : ∀ {j}, Fine j → C.Good j ∧ V.Request (C.request j) (asked j)
  only  : ∀ {j q}, Fine j → V.Request (C.request j) q → q = asked j
  reply : ∀ {a}, Plain a → ∃ bs, V.reply a bs ∧ ∀ j, C.reply j bs (given a)
  back  : ∀ {j a bs t}, V.reply a bs → C.reply j bs t → t = given a

section Meets

variable {C : Client M T} {V : Server N} {asked : J → Q} {given : A → T} {Fine : J → Prop}
  {Plain : A → Prop}

theorem Meets.servable (h : Meets C V asked given Fine Plain) {j : J} (hj : Fine j) :
    Servable C V j :=
  ⟨(h.job hj).1, _, (h.job hj).2⟩

theorem Meets.fits (h : Meets C V asked given Fine Plain) (js : List J) {a : A} (ha : Plain a) :
    Fits C V js a := by
  obtain ⟨bs, hbs, hreply⟩ := h.reply ha
  exact ⟨bs, hbs, fun j _ => ⟨_, hreply j⟩⟩

/-- The conversation of such a pair. -/
theorem Meets.played (hmeets : Meets C V asked given Fine Plain) {js : List J} {as : List A}
    {qs : List Q} {ts : List T} (h : Played C V js as qs ts) (hjs : ∀ j ∈ js, Fine j) :
    qs = (js.take as.length).map asked ∧ ts = (as.take js.length).map given := by
  induction h with
  | done => exact ⟨by rw [List.take_nil]; rfl, rfl⟩
  | waiting => exact ⟨rfl, by rw [List.take_nil]; rfl⟩
  | next hj hq ha ht _ ih =>
      obtain ⟨hhead, htail⟩ := List.forall_mem_cons.mp hjs
      obtain ⟨hqs, hts⟩ := ih htail
      rw [hmeets.only hhead hq, hmeets.back ha ht, hqs, hts]
      exact ⟨rfl, rfl⟩

end Meets

/-! ## The schedule by the book -/

section Schedule

variable {C : Client M T} {V : Server N} {L : List J} {H : List A}
  {s : Net B J P Q A R}

/-- A question at the left waits for the next job. -/
theorem moves_of_ask {p p' : P} {q : Unit} {l : Label B Unit J} (hact : M.act p = .ask q)
    (h : M.Moves p l p') : ∃ j, l.heard = [j] := by
  cases h with
  | write h => cases hact.symm.trans h
  | read h => cases hact.symm.trans h
  | ask a h => exact ⟨a, rfl⟩
  | tau h => cases hact.symm.trans h

theorem moves_of_ask_right {r r' : R} {q : Q} {l : Label B Q A} (hact : N.act r = .ask q)
    (h : N.Moves r l r') : ∃ a, l = ⟨[], [], [a], [q]⟩ ∧ r' = N.answered r a := by
  cases h with
  | write h => cases hact.symm.trans h
  | read h => cases hact.symm.trans h
  | ask a h =>
      obtain rfl := Act.ask.inj (hact.symm.trans h)
      exact ⟨a, rfl, rfl⟩
  | tau h => cases hact.symm.trans h

/-- A reader waits for bytes. -/
theorem moves_of_read {α β X : Type} {K : Process B α β X} {p p' : X} {n : Nat}
    {l : Label B α β} (hact : K.act p = .read n) (h : K.Moves p l p') : l.used ≠ [] := by
  cases h with
  | write h => cases hact.symm.trans h
  | read h hnew => exact hnew
  | ask a h => cases hact.symm.trans h
  | tau h => cases hact.symm.trans h

/-- The whole list has been heard. -/
theorem heard_all {α : Type} {old : List α} {a : α} (h : old ++ [a] <+: old) : False := by
  have hle := h.length_le
  rw [List.length_append, List.length_singleton] at hle
  omega

/-- A client without a next job and a server without a request are stuck. -/
theorem stuck_over (hidle : C.idle s.left) (hready : V.ready s.right) (hquiet : s.Quiet)
    (hall : s.leftHeard = L) : Stuck (Net.TickIn M N L H) s := by
  rintro t ⟨hstep, hl, hr⟩
  cases hstep with
  | @left p l toLeft h hq =>
      obtain ⟨j, hj⟩ := moves_of_ask (C.idle_asks hidle) h.1
      rw [← hall, Net.goLeft, hj] at hl
      exact heard_all hl
  | @right r l toRight h hq =>
      obtain ⟨n, hread⟩ := V.ready_reads hready
      rw [hquiet.2] at hq
      exact moves_of_read hread h.1 (List.append_eq_nil_iff.mp hq.symm).1

/-- So are a client that waits and a server that is not answered. -/
theorem stuck_waiting {j : J} {q : Q} (hwaits : C.waits j s.left) (hholds : V.holds q s.right)
    (hquiet : s.Quiet) (hall : s.rightHeard = H) : Stuck (Net.TickIn M N L H) s := by
  rintro t ⟨hstep, hl, hr⟩
  cases hstep with
  | @left p l toLeft h hq =>
      obtain ⟨n, hread⟩ := C.waits_reads hwaits
      rw [hquiet.1] at hq
      exact moves_of_read hread h.1 (List.append_eq_nil_iff.mp hq.symm).1
  | @right r l toRight h hq =>
      obtain ⟨a, rfl, -⟩ := moves_of_ask_right (V.holds_asks hholds) h.1
      rw [← hall] at hr
      exact heard_all hr

/-- The next job is sent and taken. -/
theorem ticks_request {j : J} {q : Q} (hidle : C.idle s.left) (hready : V.ready s.right)
    (hquiet : s.Quiet) (hj : C.Good j) (hq : V.Request (C.request j) q)
    (hl : s.leftHeard ++ [j] <+: L) (hr : s.rightHeard <+: H) :
    ∃ n t, Steps (Net.TickIn M N L H) n s t ∧ C.waits j t.left ∧ V.holds q t.right ∧ t.Quiet
      ∧ t.leftHeard = s.leftHeard ++ [j] ∧ t.rightHeard = s.rightHeard
      ∧ t.rightAsked = s.rightAsked ∧ C.rets t.left = C.rets s.left := by
  obtain ⟨p, ⟨n, hsend⟩, hwaits, hrets⟩ := C.send hidle hj
  obtain ⟨r, ⟨m, htake⟩, hholds⟩ := V.take hready hq
  have hleft : M.Ticks (1 + n) s.left ⟨[], C.request j, [j], [()]⟩ p :=
    (Process.Ticks.one (Process.tick_ask (C.idle_asks hidle) j)).trans hsend
  have hfirst := ticks_left (N := N) (L := L) (H := H) hleft (s := s) (q := []) rfl
    hquiet.1 hl hr
  have hsecond := ticks_right (M := M) (L := L) (H := H) htake
    (s := s.goLeft p ⟨[], C.request j, [j], [()]⟩ []) (q := []) rfl
    (by show s.toRight ++ C.request j = C.request j ++ []
        rw [hquiet.2, List.nil_append, List.append_nil]) hl
    (by show s.rightHeard ++ [] <+: H
        rwa [List.append_nil])
  refine ⟨_, _, hfirst.trans hsecond, hwaits, hholds, ⟨rfl, rfl⟩, rfl, ?_, ?_, hrets⟩
  · exact List.append_nil _
  · exact List.append_nil _

/-- It is answered, and the reply comes back. -/
theorem ticks_reply {j : J} {q : Q} {a : A} {bs : List B} {x : T} (hwaits : C.waits j s.left)
    (hholds : V.holds q s.right) (hquiet : s.Quiet) (ha : V.reply a bs) (ht : C.reply j bs x)
    (hl : s.leftHeard <+: L) (hr : s.rightHeard ++ [a] <+: H) :
    ∃ n t, Steps (Net.TickIn M N L H) n s t ∧ C.idle t.left ∧ V.ready t.right ∧ t.Quiet
      ∧ t.leftHeard = s.leftHeard ∧ t.rightHeard = s.rightHeard ++ [a]
      ∧ t.rightAsked = s.rightAsked ++ [q] ∧ C.rets t.left = C.rets s.left ++ [x] := by
  obtain ⟨r, ⟨n, hgive⟩, hready⟩ := V.give hholds ha
  obtain ⟨p, ⟨m, hreceive⟩, hidle, hrets⟩ := C.receive hwaits ht
  have hright : N.Ticks (1 + n) s.right ⟨[], bs, [a], [q]⟩ r :=
    (Process.Ticks.one (Process.tick_ask (V.holds_asks hholds) a)).trans hgive
  have hfirst := ticks_right (M := M) (L := L) (H := H) hright (s := s) (q := []) rfl
    hquiet.2 hl hr
  have hsecond := ticks_left (N := N) (L := L) (H := H) hreceive
    (s := s.goRight r ⟨[], bs, [a], [q]⟩ []) (q := []) rfl
    (by show s.toLeft ++ bs = bs ++ []
        rw [hquiet.1, List.nil_append, List.append_nil])
    (by show s.leftHeard ++ [] <+: L
        rwa [List.append_nil]) hr
  refine ⟨_, _, hfirst.trans hsecond, hidle, hready, ⟨rfl, rfl⟩, ?_, rfl, rfl, hrets⟩
  exact List.append_nil _

/-- What the schedule by the book comes to. -/
structure Outcome (C : Client M T) (V : Server N) (L : List J) (H : List A) (qs : List Q)
    (ts : List T) (e : Net B J P Q A R) : Prop where
  stuck : Stuck (Net.TickIn M N L H) e
  asked : e.rightAsked = qs
  rets  : C.rets e.left = ts
  ended : L.length ≤ H.length → C.idle e.left ∧ e.leftHeard = L
  rests : L.length ≤ H.length → V.ready e.right ∧ e.Quiet
  held  : H.length < L.length → ∃ j ∈ L, ∃ q, V.Request (C.request j) q ∧ N.act e.right = .ask q
    ∧ C.waits j e.left

/-- **THE SCHEDULE BY THE BOOK** ends where the conversation says. -/
theorem ticks_played {js : List J} {as : List A} {qs : List Q} {ts : List T}
    (h : Played C V js as qs ts) : ∀ {s : Net B J P Q A R}, C.idle s.left → V.ready s.right →
      s.Quiet → s.leftHeard ++ js = L → s.rightHeard ++ as = H →
      s.leftHeard.length = s.rightHeard.length →
      ∃ n e, Steps (Net.TickIn M N L H) n s e
        ∧ Outcome C V L H (s.rightAsked ++ qs) (C.rets s.left ++ ts) e := by
  induction h with
  | @done as =>
      intro s hidle hready hquiet hl hr hlen
      rw [List.append_nil] at hl
      refine ⟨0, s, .refl, stuck_over hidle hready hquiet hl, (List.append_nil _).symm,
        (List.append_nil _).symm, fun _ => ⟨hidle, hl⟩, fun _ => ⟨hready, hquiet⟩, fun hlt => ?_⟩
      rw [← hl, ← hr, List.length_append] at hlt
      omega
  | @waiting j js q hj hq =>
      intro s hidle hready hquiet hl hr hlen
      rw [List.append_nil] at hr
      obtain ⟨n, e, hrun, hwaits, hholds, hquiet', -, hheard, hasked, hrets⟩ :=
        ticks_request (L := L) (H := H) hidle hready hquiet hj hq
          (by rw [← hl, List.append_cons s.leftHeard j js]; exact List.prefix_append _ _)
          (by rw [hr])
      have hlong : ¬ L.length ≤ H.length := by
        rw [← hl, ← hr, List.length_append, List.length_cons]
        omega
      refine ⟨n, e, hrun, stuck_waiting hwaits hholds hquiet' (hheard.trans hr), ?_, ?_,
        fun hle => absurd hle hlong, fun hle => absurd hle hlong,
        fun _ => ⟨j, ?_, q, hq, V.holds_asks hholds, hwaits⟩⟩
      · rw [hasked, List.append_nil]
      · rw [hrets, List.append_nil]
      · rw [← hl]
        exact List.mem_append_right _ List.mem_cons_self
  | @next j js q qs a as t ts bs hj hq ha ht _ ih =>
      intro s hidle hready hquiet hl hr hlen
      have hl' : s.leftHeard ++ [j] ++ js = L := by rw [← hl, List.append_assoc]; rfl
      have hr' : s.rightHeard ++ [a] ++ as = H := by rw [← hr, List.append_assoc]; rfl
      obtain ⟨n, s₁, hrun₁, hwaits, hholds, hquiet₁, hleft₁, hheard₁, hasked₁, hrets₁⟩ :=
        ticks_request (L := L) (H := H) hidle hready hquiet hj hq
          (by rw [← hl']; exact List.prefix_append _ _) (by rw [← hr]; exact List.prefix_append _ _)
      obtain ⟨m, s₂, hrun₂, hidle₂, hready₂, hquiet₂, hleft₂, hheard₂, hasked₂, hrets₂⟩ :=
        ticks_reply (L := L) (H := H) hwaits hholds hquiet₁ ha ht
          (by rw [hleft₁, ← hl']; exact List.prefix_append _ _)
          (by rw [hheard₁, ← hr']; exact List.prefix_append _ _)
      have hleft : s₂.leftHeard = s.leftHeard ++ [j] := hleft₂.trans hleft₁
      have hheard : s₂.rightHeard = s.rightHeard ++ [a] := by rw [hheard₂, hheard₁]
      obtain ⟨k, e, hrun, hout⟩ := ih hidle₂ hready₂ hquiet₂ (by rw [hleft, hl'])
        (by rw [hheard, hr']) (by rw [hleft, hheard]; simp only [List.length_append, hlen]; rfl)
      rw [hasked₂, hasked₁, hrets₂, hrets₁, List.append_assoc, List.append_assoc] at hout
      exact ⟨n + m + k, e, (hrun₁.trans hrun₂).trans hrun, hout⟩

end Schedule

/-! ## Every schedule -/

/-- A connection on which nothing has happened. -/
structure Net.Fresh (C : Client M T) (V : Server N) (s : Net B J P Q A R) : Prop where
  idle  : C.idle s.left
  rets  : C.rets s.left = []
  ready : V.ready s.right
  quiet : s.Quiet
  left  : s.leftHeard = []
  right : s.rightHeard = []
  asked : s.rightAsked = []

section Runs

variable {C : Client M T} {V : Server N} {s u : Net B J P Q A R} {js : List J} {qs : List Q}
  {ts : List T} {n : Nat}

/-- A run is the beginning of one that ends by the book. -/
theorem joins_played (hs : s.Fresh C V) (hrun : Steps (Net.Step M N) n s u)
    (hjs : u.leftHeard <+: js) (h : Played C V js u.rightHeard qs ts) :
    ∃ k e, Steps (Net.TickIn M N js u.rightHeard) k u e
      ∧ Outcome C V js u.rightHeard qs ts e := by
  obtain ⟨m, e, hbook, hout⟩ := ticks_played h (L := js) (H := u.rightHeard) hs.idle hs.ready
    hs.quiet (by rw [hs.left]; rfl) (by rw [hs.right]; rfl) (by rw [hs.left, hs.right]; rfl)
  obtain ⟨m', -, hticks⟩ := ticks_of_run hrun hjs (List.prefix_refl u.rightHeard)
  obtain ⟨k, -, hrest⟩ := diamond.joins hbook hout.stuck hticks
  rw [hs.asked, hs.rets] at hout
  exact ⟨k, e, hrest, hout⟩

theorem rets_ticks {L : List J} {H : List A} {t : Net B J P Q A R}
    (h : Steps (Net.TickIn M N L H) n s t) : C.rets s.left <+: C.rets t.left := by
  refine h.keeps (P := fun s t : Net B J P Q A R => C.rets s.left <+: C.rets t.left)
    (fun _ => List.prefix_refl _) (fun _ _ _ => List.IsPrefix.trans) (fun s t hstep => ?_)
  obtain ⟨hstep, -, -⟩ := hstep
  cases hstep with
  | left h _ => exact C.grow h.1
  | right => exact List.prefix_refl _

/-- **EVERY RUN IS BY THE BOOK**: the server has asked the questions of the
    conversation, and the client has some of its results. -/
theorem played_of_run (hs : s.Fresh C V) (hrun : Steps (Net.Step M N) n s u)
    (hjs : u.leftHeard <+: js) (h : Played C V js u.rightHeard qs ts) :
    u.rightAsked = qs ∧ C.rets u.left <+: ts := by
  obtain ⟨k, e, hrest, hout⟩ := joins_played hs hrun hjs h
  have hasked := asked_length hrun (by rw [hs.asked, hs.right]; rfl)
  have hgrows := (grows_ticks hrest).asked
  rw [hout.asked] at hgrows
  have hle := hgrows.length_le
  have hlens := h.lengths
  refine ⟨hgrows.eq_of_length (by omega), ?_⟩
  rw [← hout.rets]
  exact rets_ticks hrest

/-- **NO RUN GETS STUCK**: unless all jobs are done, a side can tick or the server
    asks a question that is one of a job. -/
theorem run_moves (hs : s.Fresh C V) (hrun : Steps (Net.Step M N) n s u)
    (hjs : u.leftHeard <+: js) (h : Played C V js u.rightHeard qs ts) :
    (C.idle u.left ∧ u.leftHeard = js) ∨ (∃ t, Net.TickIn M N js u.rightHeard u t)
      ∨ ∃ j ∈ js, ∃ q, V.Request (C.request j) q ∧ N.act u.right = .ask q := by
  obtain ⟨k, e, hrest, hout⟩ := joins_played hs hrun hjs h
  cases hrest with
  | head hstep _ => exact .inr (.inl ⟨_, hstep⟩)
  | refl =>
      by_cases hle : js.length ≤ u.rightHeard.length
      · exact .inl (hout.ended hle)
      · obtain ⟨j, hj, q, hq, hask, -⟩ := hout.held (by omega)
        exact .inr (.inr ⟨j, hj, q, hq, hask⟩)

/-- A client that is through with its jobs stays as it is. -/
theorem left_stays {L : List J} {H : List A} {t : Net B J P Q A R} (hask : M.act s.left = .ask ())
    (hall : s.leftHeard = L) (h : Steps (Net.TickIn M N L H) n s t) : t.left = s.left := by
  induction h with
  | refl => rfl
  | @head n s t u hstep _ ih =>
      obtain ⟨hstep, hl, -⟩ := hstep
      cases hstep with
      | @left p l toLeft h hq =>
          obtain ⟨j, hj⟩ := moves_of_ask hask h.1
          rw [← hall, Net.goLeft, hj] at hl
          exact (heard_all hl).elim
      | right h hq => exact ih hask hall

/-- **ALL RESULTS ARE THERE** when the client is through with its jobs. -/
theorem results_of_run (hs : s.Fresh C V) (hrun : Steps (Net.Step M N) n s u)
    (hidle : C.idle u.left) (h : Played C V u.leftHeard u.rightHeard qs ts) :
    C.rets u.left = ts ∧ u.leftHeard.length ≤ u.rightHeard.length := by
  obtain ⟨k, e, hrest, hout⟩ := joins_played hs hrun (List.prefix_refl _) h
  have hleft := left_stays (C.idle_asks hidle) rfl hrest
  refine ⟨by rw [← hleft]; exact hout.rets, ?_⟩
  by_contra hlt
  obtain ⟨j, -, q, -, -, hwaits⟩ := hout.held (Nat.lt_of_not_le hlt)
  obtain ⟨m, hread⟩ := C.waits_reads hwaits
  rw [hleft, C.idle_asks hidle] at hread
  cases hread

/-- A process of the server that has asked or halted waits for its answer. -/
theorem right_stays {L : List J} {t : Net B J P Q A R}
    (hact : (∃ q, N.act s.right = .ask q) ∨ N.act s.right = .halt)
    (h : Steps (Net.TickIn M N L H) n s t) (hall : s.rightHeard = H) : t.right = s.right := by
  induction h with
  | refl => rfl
  | @head n s t u hstep _ ih =>
      obtain ⟨hstep, -, hr⟩ := hstep
      cases hstep with
      | left h hq => exact ih hact hall
      | @right r l toRight h hq =>
          obtain ⟨h, -⟩ := h
          cases h with
          | write h => rcases hact with ⟨q, hask⟩ | hhalt <;> simp_all
          | read h => rcases hact with ⟨q, hask⟩ | hhalt <;> simp_all
          | ask a h =>
              rw [← hall] at hr
              exact (heard_all hr).elim
          | tau h => rcases hact with ⟨q, hask⟩ | hhalt <;> simp_all

/-- **QUESTIONS COME FROM JOBS**. -/
theorem ask_of_run (hs : s.Fresh C V) (hrun : Steps (Net.Step M N) n s u)
    (hjs : u.leftHeard <+: js) (h : Played C V js u.rightHeard qs ts) {q : Q}
    (hask : N.act u.right = .ask q) : ∃ j ∈ js, V.Request (C.request j) q := by
  obtain ⟨k, e, hrest, hout⟩ := joins_played hs hrun hjs h
  have hright := right_stays (.inl ⟨q, hask⟩) hrest rfl
  rw [← hright] at hask
  by_cases hle : js.length ≤ u.rightHeard.length
  · obtain ⟨m, hread⟩ := V.ready_reads (hout.rests hle).1
    cases hread.symm.trans hask
  · obtain ⟨j, hj, q', hq', hask', -⟩ := hout.held (by omega)
    obtain rfl := Act.ask.inj (hask'.symm.trans hask)
    exact ⟨j, hj, hq'⟩

/-- **THE SERVER NEVER HALTS** on such jobs. -/
theorem not_halted (hs : s.Fresh C V) (hrun : Steps (Net.Step M N) n s u)
    (hjs : u.leftHeard <+: js) (h : Played C V js u.rightHeard qs ts) :
    N.act u.right ≠ .halt := by
  intro hhalt
  obtain ⟨k, e, hrest, hout⟩ := joins_played hs hrun hjs h
  rw [← right_stays (.inr hhalt) hrest rfl] at hhalt
  by_cases hle : js.length ≤ u.rightHeard.length
  · obtain ⟨m, hread⟩ := V.ready_reads (hout.rests hle).1
    cases hread.symm.trans hhalt
  · obtain ⟨j, -, q, -, hask, -⟩ := hout.held (by omega)
    cases hask.symm.trans hhalt

/-- A client that asks for a job is between two calls. -/
theorem idle_of_ask (hs : s.Fresh C V) (hrun : Steps (Net.Step M N) n s u)
    (hask : M.act u.left = .ask ()) (h : Played C V u.leftHeard u.rightHeard qs ts) :
    C.idle u.left := by
  obtain ⟨k, e, hrest, hout⟩ := joins_played hs hrun (List.prefix_refl _) h
  have hleft := left_stays hask rfl hrest
  rw [← hleft] at hask ⊢
  by_cases hle : u.leftHeard.length ≤ u.rightHeard.length
  · exact (hout.ended hle).1
  · obtain ⟨j, -, q, -, -, hwaits⟩ := hout.held (Nat.lt_of_not_le hle)
    obtain ⟨m, hread⟩ := C.waits_reads hwaits
    cases hread.symm.trans hask

/-- Then the server gets ready by itself. -/
theorem gets_ready (hs : s.Fresh C V) (hrun : Steps (Net.Step M N) n s u)
    (hask : M.act u.left = .ask ()) (h : Played C V u.leftHeard u.rightHeard qs ts) :
    ∃ k e, Steps (Net.TickIn M N u.leftHeard u.rightHeard) k u e ∧ V.ready e.right ∧ e.Quiet := by
  obtain ⟨k, e, hrest, hout⟩ := joins_played hs hrun (List.prefix_refl _) h
  exact ⟨k, e, hrest, hout.rests (results_of_run hs hrun (idle_of_ask hs hrun hask h) h).2⟩

end Runs

/-! ## The calls of a connection -/

/-- A run of a connection, and the calls that its server's questions and their
    answers make. -/
structure Tracks (M : Process B Unit J P) (N : Process B Q A R) (js : List J)
    (s u : Net B J P Q A R) (calls : List (Q × A)) : Prop where
  run   : ∃ n, Steps (Net.Step M N) n s u
  jobs  : u.leftHeard <+: js
  heard : u.rightHeard = calls.map Prod.snd
  asked : u.rightAsked = calls.map Prod.fst

/-- A connection's calls: they are the first of the jobs its client has begun, its
    results are the first of their answers, and between two calls nothing is
    missing. -/
structure InOrder {M : Process B Unit J P} (C : Client M T) (asked : J → Q) (given : A → T)
    (begun : List J) (calls : List (Q × A)) (p : P) : Prop where
  asks  : calls.map Prod.fst <+: begun.map asked
  rets  : C.rets p <+: calls.map (fun x => given x.2)
  whole : C.idle p → calls.map Prod.fst = begun.map asked
    ∧ C.rets p = calls.map (fun x => given x.2)

section Tracks

variable {C : Client M T} {V : Server N} {s u : Net B J P Q A R} {js js' : List J}
  {calls : List (Q × A)}

/-- What the server hears it asked before. -/
theorem net_step_calls (h : Net.Step M N s u) :
    (u.rightHeard = s.rightHeard ∧ u.rightAsked = s.rightAsked)
      ∨ ∃ q a, N.act s.right = .ask q ∧ u.rightHeard = s.rightHeard ++ [a]
        ∧ u.rightAsked = s.rightAsked ++ [q] := by
  cases h with
  | left => exact .inl ⟨rfl, rfl⟩
  | right h hq =>
      cases h with
      | write => exact .inl ⟨List.append_nil _, List.append_nil _⟩
      | read => exact .inl ⟨List.append_nil _, List.append_nil _⟩
      | ask a h => exact .inr ⟨_, a, h, rfl, rfl⟩
      | tau => exact .inl ⟨List.append_nil _, List.append_nil _⟩

/-- The calls are the conversation by the book on the jobs begun. -/
theorem Tracks.played (h : Tracks M N js s u calls) (hs : s.Fresh C V)
    (hjobs : ∀ j ∈ js, Servable C V j) (hfits : ∀ x ∈ calls, Fits C V js x.2)
    (hjs : u.leftHeard <+: js') (hsub : js' <+: js) :
    ∃ ts, Played C V js' (calls.map Prod.snd) (calls.map Prod.fst) ts ∧ C.rets u.left <+: ts := by
  obtain ⟨n, hrun⟩ := h.run
  obtain ⟨qs, ts, hplayed⟩ := played_exists (fun j hj => hjobs j (hsub.subset hj)) u.rightHeard
    (fun a ha => by
      rw [h.heard] at ha
      obtain ⟨x, hx, rfl⟩ := List.mem_map.mp ha
      obtain ⟨bs, hbs, hall⟩ := hfits x hx
      exact ⟨bs, hbs, fun j hj => hall j (hsub.subset hj)⟩)
  obtain ⟨hasked, hrets⟩ := played_of_run hs hrun hjs hplayed
  rw [h.heard, ← hasked, h.asked] at hplayed
  exact ⟨ts, hplayed, hrets⟩

/-- **IN ORDER**: a client the server understands makes the calls of its jobs, gets
    the results of its own calls only, and has all of them when it is through. -/
theorem Tracks.inOrder {asked : J → Q} {given : A → T} {Fine : J → Prop} {Plain : A → Prop}
    (h : Tracks M N js s u calls) (hs : s.Fresh C V) (hmeets : Meets C V asked given Fine Plain)
    (hfine : ∀ j ∈ js, Fine j) (hplain : ∀ x ∈ calls, Plain x.2) :
    InOrder C asked given u.leftHeard calls u.left := by
  obtain ⟨n, hrun⟩ := h.run
  obtain ⟨ts, hplayed, hrets⟩ := h.played hs (fun j hj => hmeets.servable (hfine j hj))
    (fun x hx => hmeets.fits _ (hplain x hx)) (List.prefix_refl _) h.jobs
  have hlens := hplayed.lengths.1
  rw [List.length_map, List.length_map] at hlens
  have hle : calls.length ≤ u.leftHeard.length := by omega
  obtain ⟨hqs, hts⟩ := hmeets.played hplayed (fun j hj => hfine j (h.jobs.subset hj))
  rw [List.length_map] at hqs
  rw [List.take_of_length_le (by rw [List.length_map]; exact hle), List.map_map] at hts
  refine ⟨?_, ?_, fun hidle => ?_⟩
  · rw [hqs]
    exact (List.take_prefix _ _).map _
  · rw [hts] at hrets
    exact hrets
  · rw [← h.heard] at hplayed
    obtain ⟨hall, hlen⟩ := results_of_run hs hrun hidle hplayed
    rw [h.heard, List.length_map] at hlen
    rw [Nat.le_antisymm hle hlen, List.take_length] at hqs
    exact ⟨hqs, hall.trans hts⟩

/-- **ANSWERS TO JOBS**: what holds of the answers to questions of the client's jobs
    holds of all its answers, if with it those that came fit. -/
theorem Tracks.answers (hs : s.Fresh C V) (hjobs : ∀ j ∈ js, Servable C V j)
    (Short : A → Prop) {Good : A → Prop} (hfits : ∀ a, Short a → Good a → Fits C V js a)
    (h : Tracks M N js s u calls)
    (hserve : ∀ x ∈ calls, ∀ j ∈ js, V.Request (C.request j) x.1 → Good x.2)
    (hshort : ∀ x ∈ calls, Short x.2) : ∀ x ∈ calls, Good x.2 := by
  obtain ⟨⟨n, hrun⟩, hsub, hheard, hasked⟩ := h
  replace hrun := hrun.reflTransGen
  induction hrun generalizing calls with
  | refl =>
      rw [hs.right] at hheard
      rw [List.map_eq_nil_iff.mp hheard.symm]
      exact fun x hx => absurd hx List.not_mem_nil
  | @tail t u hbefore hstep ih =>
      obtain ⟨m, hrun⟩ := Steps.of_reflTransGen hbefore
      have hsub' : t.leftHeard <+: js := (grows_stepBy hstep).left.trans hsub
      rcases net_step_calls hstep with ⟨hheard', hasked'⟩ | ⟨q, a, hask, hheard', hasked'⟩
      · exact ih hserve hshort hsub' (hheard'.symm.trans hheard) (hasked'.symm.trans hasked)
      · -- the question is the one of a job
        obtain ⟨calls, y, rfl⟩ : ∃ calls' y, calls = calls' ++ [y] := by
          refine (List.eq_nil_or_concat' calls).resolve_left (fun hnil => ?_)
          rw [hheard', hnil] at hheard
          exact absurd hheard (by simp)
        rw [hheard', List.map_append, List.map_singleton] at hheard
        rw [hasked', List.map_append, List.map_singleton] at hasked
        obtain ⟨hheard, hlast⟩ := List.append_inj' hheard rfl
        obtain ⟨hasked, hlast'⟩ := List.append_inj' hasked rfl
        obtain ⟨hserve, hserve'⟩ := List.forall_mem_append.mp hserve
        obtain ⟨hshort, -⟩ := List.forall_mem_append.mp hshort
        have hgood := ih hserve hshort hsub' hheard hasked
        have htracks : Tracks M N js s t calls := ⟨⟨m, hrun⟩, hsub', hheard, hasked⟩
        obtain ⟨ts, hplayed, -⟩ := htracks.played hs hjobs
          (fun x hx => hfits _ (hshort x hx) (hgood x hx)) hsub' (List.prefix_refl _)
        rw [← hheard] at hplayed
        obtain ⟨j, hj, hreq⟩ := ask_of_run hs hrun hsub' hplayed hask
        rw [(List.cons.inj hlast').1] at hreq
        exact List.forall_mem_append.mpr ⟨hgood, List.forall_mem_singleton.mpr
          (hserve' y (List.mem_singleton.mpr rfl) j hj hreq)⟩

end Tracks

end ByteNetwork
