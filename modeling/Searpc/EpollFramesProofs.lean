import Searpc.EpollProofs

/-! # Frames over epoll — what the workers execute

    A worker of the epoll server reads one frame into a zero-filled buffer,
    takes a short read for a success, and leaves it to the JSON decoder to
    refuse what is missing.  So a call is made for a segment of the stream that
    is a whole frame, or for one cut by EOF and padded with zeros; and at most
    the last segment is cut, since behind it there is nothing to read.

    `Framed` says this for every position of a worker; the order of the calls,
    the prefix property and the agreement with the thread server are read off
    it. -/

namespace SearpcEpollFrames

open ByteMemory Framing JsonValue SearpcJansson SearpcPipeIo SearpcRequest SearpcEpoll
open SearpcThreadServer (Server cutLen cutMem cutLen_nil cutLen_of_header)

variable {σ : Type}

/-! ## Segments -/

/-- The request a worker reads from a segment of the stream: the announced
    length, the rest of the segment over zeros. -/
def Decoded (S : Server σ) (seg : Bytes) (c : Call) : Prop :=
  0 < cutLen S seg
    ∧ requestFromJson S.json (slice (cutMem S (fill 0) seg) (cutLen S seg)) = some c

/-- The bytes fall into consecutive segments, one for each call, each call with
    the position its segment ends at; `whole` tells whether all of the segments
    are whole frames or the last one is cut. -/
inductive Served (S : Server σ) : Bool → Bytes → List (Nat × Call) → Prop where
  | nil : Served S true [] []
  | whole {bs seg : Bytes} {cs : List (Nat × Call)} {c : Call} : Served S true bs cs →
      Decoded S seg c → seg.length = 4 + cutLen S seg →
      Served S true (bs ++ seg) (cs ++ [((bs ++ seg).length, c)])
  | cut {bs seg : Bytes} {cs : List (Nat × Call)} {c : Call} : Served S true bs cs →
      Decoded S seg c → seg.length < 4 + cutLen S seg →
      Served S false (bs ++ seg) (cs ++ [((bs ++ seg).length, c)])

/-- Nothing is missing in the body of a whole segment. -/
theorem slice_cutMem_full (S : Server σ) (buf : Mem) {seg : Bytes}
    (h : seg.length = 4 + cutLen S seg) : slice (cutMem S buf seg) (cutLen S seg) = seg.drop 4 := by
  have hlen : (seg.drop 4).length = cutLen S seg := by
    rw [List.length_drop]
    omega
  have htake : (seg.drop 4).take (cutLen S seg) = seg.drop 4 :=
    List.take_of_length_le (Nat.le_of_eq hlen)
  show slice (store buf 0 ((seg.drop 4).take (cutLen S seg))) (cutLen S seg) = seg.drop 4
  rw [htake, slice_store_eq buf hlen]

/-- A whole segment is an encoded frame. -/
theorem segment_frame (S : Server σ) {seg : Bytes} (h : seg.length = 4 + cutLen S seg) :
    seg = encodeFrame S.endian (seg.drop 4) := by
  have h4 : (seg.take 4).length = 4 := by
    rw [List.length_take]
    omega
  have hlen : (seg.drop 4).length = u32Value S.endian (seg.take 4) := by
    rw [List.length_drop, ← cutLen_of_header S (by omega)]
    omega
  calc seg = seg.take 4 ++ seg.drop 4 := (List.take_append_drop 4 seg).symm
    _ = encodeFrame S.endian (seg.drop 4) := by
      rw [encodeFrame, hlen, u32Bytes_u32Value S.endian h4]

/-- The body of a cut segment ends in a zero byte. -/
theorem cut_has_zero (S : Server σ) {seg : Bytes} (hpos : 0 < cutLen S seg)
    (h : seg.length < 4 + cutLen S seg) :
    (0 : UInt8) ∈ slice (cutMem S (fill 0) seg) (cutLen S seg) := by
  have hlen : ((seg.drop 4).take (cutLen S seg)).length < cutLen S seg := by
    rw [List.length_take, List.length_drop]
    omega
  show (0 : UInt8) ∈ slice (store (fill 0) 0 ((seg.drop 4).take (cutLen S seg))) (cutLen S seg)
  rw [slice_store, slice_fill, List.drop_replicate]
  refine List.mem_append_right _ (List.mem_replicate.mpr ⟨?_, rfl⟩)
  omega

/-- Whole segments are encoded payloads that decode to the calls. -/
theorem served_payloads {S : Server σ} {bs : Bytes} {cs : List (Nat × Call)}
    (h : Served S true bs cs) :
    ∃ ps : List Bytes, bs = ps.flatMap (encodeFrame S.endian)
      ∧ ps.map (requestFromJson S.json) = (cs.map Prod.snd).map some
      ∧ ∀ p ∈ ps, 0 < p.length ∧ p.length < 2 ^ 32 := by
  generalize hw : true = whole at h
  induction h with
  | nil => exact ⟨[], rfl, rfl, fun p hp => nomatch hp⟩
  | @whole bs seg cs c _ hdec hlen ih =>
      obtain ⟨ps, hbs, hcalls, hps⟩ := ih rfl
      have hdrop : (seg.drop 4).length = cutLen S seg := by
        rw [List.length_drop]
        omega
      refine ⟨ps ++ [seg.drop 4], ?_, ?_, ?_⟩
      · rw [List.flatMap_append, ← hbs, List.flatMap_singleton, ← segment_frame S hlen]
      · have hreq := hdec.2
        rw [slice_cutMem_full S _ hlen] at hreq
        simp [hcalls, hreq]
      · intro p hp
        rcases List.mem_append.mp hp with hp | hp
        · exact hps p hp
        · rw [List.mem_singleton.mp hp, hdrop]
          exact ⟨hdec.1, memWord_lt _ _⟩
  | cut => exact nomatch hw

/-- A decoder that refuses NUL bytes executes whole frames only. -/
theorem served_whole_of_refusesNul {S : Server σ} (hJ : RefusesNul S.json) {whole : Bool}
    {bs : Bytes} {cs : List (Nat × Call)} (h : Served S whole bs cs) : whole = true := by
  cases h with
  | nil => rfl
  | whole => rfl
  | cut _ hdec hlt =>
      exact absurd (cut_has_zero S hdec.1 hlt) (requestFromJson_ne_zero hJ hdec.2)

/-- Each call was made further along in the stream than those before it. -/
theorem served_positions {S : Server σ} {whole : Bool} {bs : Bytes} {cs : List (Nat × Call)}
    (h : Served S whole bs cs) :
    (cs.map Prod.fst).Pairwise (· < ·) ∧ ∀ x ∈ cs.map Prod.fst, x ≤ bs.length := by
  -- a segment has at least a byte of header, so its end is further on
  have hsnoc : ∀ {bs seg : Bytes} {cs : List (Nat × Call)} {c : Call}, Decoded S seg c →
      ((cs.map Prod.fst).Pairwise (· < ·) ∧ ∀ x ∈ cs.map Prod.fst, x ≤ bs.length) →
      ((cs ++ [((bs ++ seg).length, c)]).map Prod.fst).Pairwise (· < ·)
        ∧ ∀ x ∈ (cs ++ [((bs ++ seg).length, c)]).map Prod.fst, x ≤ (bs ++ seg).length := by
    intro bs seg cs c hdec ih
    have hpos : 0 < seg.length := by
      cases seg with
      | nil => exact absurd hdec.1 (by rw [cutLen_nil]; omega)
      | cons => exact Nat.succ_pos _
    rw [List.map_append, List.length_append]
    refine ⟨List.pairwise_append.mpr ⟨ih.1, List.pairwise_singleton _ _, ?_⟩, ?_⟩
    · intro x hx y hy
      have hle := ih.2 x hx
      rw [List.mem_singleton.mp hy]
      show x < bs.length + seg.length
      omega
    · intro x hx
      rcases List.mem_append.mp hx with hx | hx
      · exact Nat.le_add_right_of_le (ih.2 x hx)
      · rw [List.mem_singleton.mp hx]
  induction h with
  | nil => exact ⟨List.Pairwise.nil, fun x hx => nomatch hx⟩
  | whole _ hdec _ ih => exact hsnoc hdec ih
  | cut _ hdec _ ih => exact hsnoc hdec ih

/-! ## The frame invariant -/

/-- Nothing is left to read. -/
def AtEof (k : Conn) : Prop := k.inbox = [] ∧ k.pending = [] ∧ k.shut = true

/-- What has been read: the segments of the calls, then `part`; behind a cut
    segment there is nothing. -/
def Parsed (S : Server σ) (k : Conn) (part : Bytes) : Prop :=
  (k.shut = true → k.pending = [])
    ∧ ∃ whole bs, k.consumed = bs ++ part ∧ Served S whole bs k.calls
        ∧ (whole = false → AtEof k ∧ part = [])

/-- How far a worker that has read `part` of its frame has got in a
    `pipe_read_n`.  A header cut by EOF is taken for a whole one. -/
def ReadsAt (S : Server σ) (k : Conn) (part : Bytes) : ReadStage → ReadLoop → Prop
  | .len, l =>
      part.length ≤ 4
        ∧ l = ⟨store (wordMem S.endian 0) 0 part, part.length, 4 - part.length⟩
  | .body len, l =>
      0 < len ∧ cutLen S part = len ∧ part.length ≤ 4 + len ∧ (part.length < 4 → AtEof k)
        ∧ l = ⟨cutMem S (fill 0) part, part.length - 4, len - (part.length - 4)⟩

/-- **THE FRAME INVARIANT** of a connection and its worker. -/
def Framed (S : Server σ) : ConnProp
  | none, k => ∃ part, Parsed S k part ∧ (k.closes = 0 → part = [])
  | some (.reading stage l), k => ∃ part, Parsed S k part ∧ ReadsAt S k part stage l
  | some .fail, k => ∃ part, Parsed S k part
  | some _, k => Parsed S k []

section Parsed

variable {S : Server σ} {k : Conn} {part : Bytes}

/-- Nothing has been read from a connection just accepted. -/
theorem Parsed.accepted (S : Server σ) (stream : Bytes) : Parsed S (.accepted stream) [] :=
  ⟨(fun hs => nomatch hs), true, [], rfl, .nil, fun hw => nomatch hw⟩

theorem AtEof.send (h : AtEof k) (j : Nat) :
    AtEof { k with inbox := k.inbox ++ k.pending.take j, pending := k.pending.drop j } := by
  obtain ⟨hi, hp, hs⟩ := h
  refine ⟨?_, ?_, hs⟩
  · show k.inbox ++ k.pending.take j = []
    rw [hi, hp, List.take_nil, List.append_nil]
  · show k.pending.drop j = []
    rw [hp, List.drop_nil]

theorem Parsed.send (h : Parsed S k part) (j : Nat) :
    Parsed S { k with inbox := k.inbox ++ k.pending.take j, pending := k.pending.drop j }
      part := by
  obtain ⟨hshut, whole, bs, hbs, hserved, hcut⟩ := h
  refine ⟨fun hs => ?_, whole, bs, hbs, hserved, fun hw => ?_⟩
  · show k.pending.drop j = []
    rw [hshut hs, List.drop_nil]
  · obtain ⟨heof, hpart⟩ := hcut hw
    exact ⟨heof.send j, hpart⟩

theorem Parsed.shutdown (hp : k.pending = []) (h : Parsed S k part) :
    Parsed S { k with shut := true } part := by
  obtain ⟨-, whole, bs, hbs, hserved, hcut⟩ := h
  refine ⟨fun _ => hp, whole, bs, hbs, hserved, fun hw => ?_⟩
  obtain ⟨⟨hi, hp', -⟩, hpart⟩ := hcut hw
  exact ⟨⟨hi, hp', rfl⟩, hpart⟩

/-- Bytes that arrive belong to the frame being read. -/
theorem Parsed.read (h : Parsed S k part) {j : Nat} (hj : 0 < j) (hi : j ≤ k.inbox.length) :
    Parsed S { k with consumed := k.consumed ++ k.inbox.take j, inbox := k.inbox.drop j }
      (part ++ k.inbox.take j) := by
  obtain ⟨hshut, whole, bs, hbs, hserved, hcut⟩ := h
  refine ⟨hshut, whole, bs, ?_, hserved, fun hw => ?_⟩
  · show k.consumed ++ k.inbox.take j = bs ++ (part ++ k.inbox.take j)
    rw [hbs, List.append_assoc]
  · obtain ⟨⟨hempty, -, -⟩, -⟩ := hcut hw
    rw [hempty] at hi
    exact absurd hi (Nat.not_le_of_lt hj)

/-- A call closes its segment. -/
theorem Parsed.call (h : Parsed S k part) {c : Call} (hdec : Decoded S part c)
    (hle : part.length ≤ 4 + cutLen S part) (hshort : part.length < 4 + cutLen S part → AtEof k) :
    Parsed S { k with calls := k.calls ++ [(k.consumed.length, c)] } [] := by
  obtain ⟨hshut, whole, bs, hbs, hserved, hcut⟩ := h
  cases whole with
  | false =>
      -- behind a cut segment nothing was read, not even a header
      obtain ⟨-, rfl⟩ := hcut rfl
      exact absurd hdec.1 (by rw [cutLen_nil]; omega)
  | true =>
      rcases Nat.eq_or_lt_of_le hle with heq | hlt
      · refine ⟨hshut, true, bs ++ part, ?_, ?_, fun hw => nomatch hw⟩
        · show k.consumed = bs ++ part ++ []
          rw [hbs, List.append_nil]
        · show Served S true (bs ++ part) (k.calls ++ [(k.consumed.length, c)])
          rw [hbs]
          exact .whole hserved hdec heq
      · refine ⟨hshut, false, bs ++ part, ?_, ?_, fun _ => ⟨hshort hlt, rfl⟩⟩
        · show k.consumed = bs ++ part ++ []
          rw [hbs, List.append_nil]
        · show Served S false (bs ++ part) (k.calls ++ [(k.consumed.length, c)])
          rw [hbs]
          exact .cut hserved hdec hlt

end Parsed

section ReadSteps

variable {S : Server σ} {k : Conn} {part : Bytes} {stage : ReadStage} {l : ReadLoop}

/-- More bytes do not change a header that is there. -/
theorem cutLen_append (S : Server σ) {part : Bytes} (h : 4 ≤ part.length) (bs : Bytes) :
    cutLen S (part ++ bs) = cutLen S part := by
  show memWord _ (store _ 0 ((part ++ bs).take 4)) = memWord _ (store _ 0 (part.take 4))
  rw [List.take_append_of_le_length h]

/-- A turn of the read loop that delivers bytes keeps track of them. -/
theorem ReadsAt.read (h : ReadsAt S k part stage l) {j : Nat} (hj : 0 < j) (hl : j ≤ l.nleft)
    (hi : j ≤ k.inbox.length) {l' : ReadLoop} (ht : readTurn l (.data (k.inbox.take j)) = .more l')
    (k' : Conn) : ReadsAt S k' (part ++ k.inbox.take j) stage l' := by
  have hlen : (k.inbox.take j).length = j := by
    rw [List.length_take]
    omega
  have hne : k.inbox.take j ≠ [] := fun h0 => by
    rw [h0] at hlen
    exact absurd hlen (Nat.ne_of_lt hj)
  rw [readTurn_data l hne] at ht
  injection ht with ht
  subst ht
  rw [hlen]
  cases stage with
  | len =>
      obtain ⟨hle, rfl⟩ := h
      have hj4 : j ≤ 4 - part.length := hl
      refine ⟨?_, ?_⟩
      · rw [List.length_append]
        omega
      · show ReadLoop.mk (store (store _ 0 part) part.length _) _ _ = _
        rw [store_behind, List.length_append, hlen, Nat.sub_sub]
  | body len =>
      obtain ⟨hpos, hcut, hle, heof, rfl⟩ := h
      have hjl : j ≤ len - (part.length - 4) := hl
      -- after a cut header the client is at EOF and nothing can arrive
      have h4 : 4 ≤ part.length := by
        by_contra hlt
        have hempty := (heof (by omega)).1
        rw [hempty] at hi
        exact absurd hi (Nat.not_le_of_lt hj)
      have hcut' : cutLen S (part ++ k.inbox.take j) = len := by rw [cutLen_append S h4, hcut]
      refine ⟨hpos, hcut', ?_, ?_, ?_⟩
      · rw [List.length_append]
        omega
      · rw [List.length_append]
        omega
      · have hmem : store (cutMem S (fill 0) part) (part.length - 4) (k.inbox.take j)
            = cutMem S (fill 0) (part ++ k.inbox.take j) := by
          have hst := store_behind (fill 0) (part.drop 4) (k.inbox.take j)
          rw [List.length_drop] at hst
          have htake : (part.drop 4).take len = part.drop 4 :=
            List.take_of_length_le (by rw [List.length_drop]; omega)
          have htake' : (part.drop 4 ++ k.inbox.take j).take len
              = part.drop 4 ++ k.inbox.take j :=
            List.take_of_length_le (by rw [List.length_append, List.length_drop]; omega)
          simp only [cutMem]
          rw [hcut, hcut', List.drop_append_of_le_length h4, htake, htake', hst]
        have hptr : part.length - 4 + j = part.length + j - 4 := by omega
        have hleft : len - (part.length - 4) - j = len - (part.length + j - 4) := by omega
        show ReadLoop.mk _ (part.length - 4 + j) (len - (part.length - 4) - j) = _
        rw [hmem, List.length_append, hlen, hptr, hleft]

/-- `ReadsAt` only looks at whether nothing is left to read. -/
theorem ReadsAt.mono (h : ReadsAt S k part stage l) {k' : Conn} (heof : AtEof k → AtEof k') :
    ReadsAt S k' part stage l := by
  cases stage with
  | len => exact h
  | body len =>
      obtain ⟨hpos, hcut, hle, hshort, hl⟩ := h
      exact ⟨hpos, hcut, hle, fun hlt => heof (hshort hlt), hl⟩

/-- The length in a header of which `part` has come. -/
theorem memWord_part (S : Server σ) {part : Bytes} (h : part.length ≤ 4) :
    memWord S.endian (store (wordMem S.endian 0) 0 part) = cutLen S part := by
  show _ = memWord _ (store _ 0 (part.take 4))
  rw [List.take_of_length_le h]

/-- A read of the header that returned, in full or at EOF. -/
theorem framed_readLen (hp : Parsed S k part) (hr : ReadsAt S k part .len l)
    (hfull : part.length < 4 → AtEof k) (ret : Int) (w : σ) :
    Framed S (some (resumeRead S ret l.mem k w .len).1) (resumeRead S ret l.mem k w .len).2.1 := by
  obtain ⟨hle, rfl⟩ := hr
  have hword := memWord_part S hle
  rcases resumeRead_cases S ret (store (wordMem S.endian 0) 0 part) k w .len with
    h | ⟨-, -, hne, h⟩ | ⟨_, _, hstage, -, -⟩
  · rw [h]
    exact ⟨part, hp⟩
  · rw [h]
    rw [hword] at hne ⊢
    have hdrop : part.drop 4 = [] := List.drop_eq_nil_of_le hle
    refine ⟨part, hp, Nat.pos_of_ne_zero hne, rfl, by omega, hfull, ?_⟩
    show ReadLoop.mk (fill 0) 0 (cutLen S part) = _
    simp only [cutMem, hdrop, List.take_nil, store_nil]
    congr 1 <;> omega
  · cases hstage

/-- A read of the body that returned, in full or at EOF. -/
theorem framed_readBody {len : Nat} (hp : Parsed S k part) (hr : ReadsAt S k part (.body len) l)
    (hfull : part.length < 4 + len → AtEof k) (ret : Int) (w : σ) :
    Framed S (some (resumeRead S ret l.mem k w (.body len)).1)
      (resumeRead S ret l.mem k w (.body len)).2.1 := by
  obtain ⟨hpos, rfl, hle, -, rfl⟩ := hr
  rcases resumeRead_cases S ret (cutMem S (fill 0) part) k w (.body (cutLen S part)) with
    h | ⟨hstage, -⟩ | ⟨_, c, hstage, hreq, h⟩
  · rw [h]
    exact ⟨part, hp⟩
  · cases hstage
  · cases hstage
    rw [h]
    exact hp.call ⟨hpos, hreq⟩ hle hfull

/-- A read that failed. -/
theorem framed_readFail (hp : Parsed S k part) (mem : Mem) (w : σ) (stage : ReadStage) :
    Framed S (some (resumeRead S (-1) mem k w stage).1) (resumeRead S (-1) mem k w stage).2.1 := by
  cases stage with
  | len => exact ⟨part, hp⟩
  | body len => exact ⟨part, hp⟩

end ReadSteps

/-! ## The invariant survives every step -/

/-- A worker that has not let go stands where it stands. -/
theorem framed_position {S : Server σ} {pc : WPc} {k : Conn} (h : Framed S (some pc) k)
    (hpc : pc ≠ .tail) : Framed S (position (some pc)) k := by
  cases pc with
  | tail => exact absurd rfl hpc
  | _ => exact h

/-- A step of a worker keeps the frame invariant. -/
theorem framed_work {S : Server σ} {luck : Luck} {pc : WPc} {pc' : Option WPc} {k k' : Conn}
    {w w' : σ} (h : WorkerStep S luck (pc, k, w) (pc', k', w')) (hf : Framed S (some pc) k) :
    Framed S (position pc') k' := by
  cases h with
  | enter => exact ⟨[], hf, Nat.zero_le 4, by rw [store_nil]; rfl⟩
  | @read stage l l' _ _ j hj hl hi ht =>
      obtain ⟨part, hp, hr⟩ := hf
      exact ⟨_, hp.read hj hi, hr.read hj hl hi ht _⟩
  | readEintr hl ht =>
      injection ht with ht
      subst ht
      obtain ⟨part, hp, hr⟩ := hf
      exact ⟨part, hp, hr.mono id⟩
  | @readEof stage l _ _ ret mem hl hi hs ht =>
      injection ht with _ hmem
      subst hmem
      obtain ⟨part, hp, hr⟩ := hf
      have heof : AtEof k := ⟨hi, hp.1 hs, hs⟩
      refine framed_position ?_ (resumeRead_owner S ret l.mem _ w stage).2
      cases stage with
      | len => exact framed_readLen (k := k.run [.io]) hp hr (fun _ => heof) ret w
      | body len =>
          exact framed_readBody (k := k.run [.io]) hp (hr.mono id) (fun _ => heof) ret w
  | @readError stage l _ _ ret mem hl ht =>
      injection ht with hret hmem
      subst hret
      obtain ⟨part, hp, -⟩ := hf
      exact framed_position (framed_readFail (k := k.run [.io]) hp mem w stage)
        (resumeRead_owner S (-1) mem _ w stage).2
  | @readDone stage l _ _ hl =>
      obtain ⟨part, hp, hr⟩ := hf
      -- what comes back does not matter, and must not be computed with
      generalize (l.ptr : Int) = ret
      refine framed_position ?_ (resumeRead_owner S ret l.mem k w stage).2
      cases stage with
      | len =>
          have hfull : part.length < 4 → AtEof k := by
            obtain ⟨-, rfl⟩ := hr
            have h0 : 4 - part.length = 0 := hl
            omega
          exact framed_readLen hp hr hfull ret w
      | body len =>
          have hfull : part.length < 4 + len → AtEof k := by
            obtain ⟨hpos, -, -, hshort, rfl⟩ := hr
            have h0 : len - (part.length - 4) = 0 := hl
            omega
          exact framed_readBody hp hr hfull ret w
  | write => exact hf
  | writeEintr => exact hf
  | writeFail => exact ⟨[], hf⟩
  | @writeDone stage => cases stage <;> exact hf
  | add => exact ⟨[], hf, fun _ => rfl⟩
  | addFail => exact ⟨[], hf⟩
  | fail =>
      obtain ⟨part, hp⟩ := hf
      refine ⟨part, hp, fun hc => ?_⟩
      have hc' : k.closes + 1 = 0 := hc
      exact nomatch hc'
  | tail => exact ⟨[], hf, fun _ => rfl⟩

/-- The frame invariant survives everything. -/
theorem stable_framed (S : Server σ) (lucky : Luck → Prop) (hangs : Conn → Prop) :
    Stable S lucky hangs (Framed S) where
  accept stream := ⟨[], .accepted S stream, fun _ => rfl⟩
  acceptFail _ stream := ⟨[], .accepted S stream, fun _ => rfl⟩
  hangup k hopen hf _ _ := by
    obtain ⟨part, hp, hpart⟩ := hf
    exact ⟨part, hp, fun _ => hpart hopen⟩
  ready k hopen hf := hf
  start k hopen hf := by
    obtain ⟨part, hp, hpart⟩ := hf
    rw [hpart hopen] at hp
    exact hp
  work luck pc k w pc' k' w' _ _ _ h hf := framed_work h hf
  send p k j hf := by
    cases p with
    | none =>
        obtain ⟨part, hp, hpart⟩ := hf
        exact ⟨part, hp.send j, hpart⟩
    | some pc =>
        cases pc with
        | reading stage l =>
            obtain ⟨part, hp, hr⟩ := hf
            exact ⟨part, hp.send j, hr.mono (fun heof => heof.send j)⟩
        | fail =>
            obtain ⟨part, hp⟩ := hf
            exact ⟨part, hp.send j⟩
        | _ => exact Parsed.send hf j
  shutdown p k hpend hf := by
    cases p with
    | none =>
        obtain ⟨part, hp, hpart⟩ := hf
        exact ⟨part, hp.shutdown hpend, hpart⟩
    | some pc =>
        cases pc with
        | reading stage l =>
            obtain ⟨part, hp, hr⟩ := hf
            exact ⟨part, hp.shutdown hpend, hr.mono (fun heof => ⟨heof.1, heof.2.1, rfl⟩)⟩
        | fail =>
            obtain ⟨part, hp⟩ := hf
            exact ⟨part, hp.shutdown hpend⟩
        | _ => exact Parsed.shutdown hpend hf

/-- Whoever holds a connection, what was read from it is known. -/
theorem framed_parsed {S : Server σ} {p : Option WPc} {k : Conn} (h : Framed S p k) :
    ∃ part, Parsed S k part := by
  cases p with
  | none =>
      obtain ⟨part, hp, -⟩ := h
      exact ⟨part, hp⟩
  | some pc =>
      cases pc with
      | reading stage l =>
          obtain ⟨part, hp, -⟩ := h
          exact ⟨part, hp⟩
      | fail => exact h
      | _ => exact ⟨[], h⟩

/-- In every reachable state. -/
theorem parsed_reachable {S : Server σ} {w : σ} {s : State σ} (h : Reachable S w s) {c : Nat}
    (hc : c < s.next) : ∃ part, Parsed S (s.conns c) part := by
  obtain ⟨p, hf⟩ := (at_reachable (stable_framed S _ _) (h.by_any c)).exists hc
  exact framed_parsed hf

/-! ## Streams of whole frames -/

/-- A client that sends whole decodable frames, none longer than an `int`
    counts. -/
def Sends (S : Server σ) (fs : List Bytes) (stream : Bytes) : Prop :=
  stream = fs.flatMap (encodeFrame S.endian)
    ∧ ∀ f ∈ fs, 0 < f.length ∧ f.length < 2 ^ 31 ∧ (requestFromJson S.json f).isSome

theorem Sends.bounds {S : Server σ} {fs : List Bytes} {stream : Bytes} (h : Sends S fs stream) :
    ∀ f ∈ fs, 0 < f.length ∧ f.length < 2 ^ 32 := by
  intro f hf
  obtain ⟨hpos, hlt, -⟩ := h.2 f hf
  exact ⟨hpos, by omega⟩

/-- Behind whole segments there are whole frames. -/
theorem Sends.behind {S : Server σ} {fs : List Bytes} {bs rest : Bytes} {cs : List (Nat × Call)}
    (h : Sends S fs (bs ++ rest)) (hs : Served S true bs cs) :
    ∃ ps qs, fs = ps ++ qs ∧ ps.map (requestFromJson S.json) = (cs.map Prod.snd).map some
      ∧ Sends S qs rest := by
  obtain ⟨ps, rfl, hcalls, hps⟩ := served_payloads hs
  obtain ⟨qs, rfl, hrest⟩ := frames_align ps fs hps h.bounds h.1
  exact ⟨ps, qs, rfl, hcalls, hrest, fun f hf => h.2 f (List.mem_append_right ps hf)⟩

/-- The header in front of a frame announces it. -/
theorem cutLen_frame (S : Server σ) {f rest : Bytes} (hf : f.length < 2 ^ 32) :
    cutLen S (encodeFrame S.endian f ++ rest) = f.length := by
  have h4 : 4 ≤ (encodeFrame S.endian f ++ rest).length := by
    rw [List.length_append, encodeFrame_length]
    omega
  rw [cutLen_of_header S h4, take_encodeFrame, u32Value_u32Bytes, Nat.mod_eq_of_lt hf]

/-- What stands at the front of a stream of whole frames: nothing, or a frame
    of which a header tells the length. -/
theorem Sends.front {S : Server σ} {fs : List Bytes} {part rest : Bytes}
    (h : Sends S fs (part ++ rest)) (hne : part ≠ []) :
    ∃ f ∈ fs, (4 ≤ part.length → cutLen S part = f.length)
      ∧ (rest = [] → 4 + f.length ≤ part.length)
      ∧ (part.length = 4 + f.length → part = encodeFrame S.endian f) := by
  cases fs with
  | nil =>
      have hnil : part ++ rest = [] := h.1
      exact absurd (List.append_eq_nil_iff.mp hnil).1 hne
  | cons f fs =>
      have hs : part ++ rest = encodeFrame S.endian f ++ fs.flatMap (encodeFrame S.endian) := h.1
      have hlt := (h.bounds f List.mem_cons_self).2
      have hlen := encodeFrame_length S.endian f
      refine ⟨f, List.mem_cons_self, fun h4 => ?_, fun hrest => ?_, fun hpart => ?_⟩
      · rw [← cutLen_append S h4 rest, hs, cutLen_frame S hlt]
      · rw [hrest, List.append_nil] at hs
        rw [hs, List.length_append, hlen]
        omega
      · exact (List.append_inj hs (hpart.trans hlen.symm)).1

/-- No cut segment was executed from a stream of whole frames. -/
theorem Sends.parsed {S : Server σ} {fs : List Bytes} {k : Conn} {part : Bytes}
    (h : Sends S fs k.stream) (hp : Parsed S k part) :
    ∃ bs, k.consumed = bs ++ part ∧ Served S true bs k.calls := by
  obtain ⟨-, whole, bs, hbs, hserved, hcut⟩ := hp
  generalize k.calls = calls at hserved ⊢
  cases hserved with
  | nil => exact ⟨_, hbs, .nil⟩
  | whole hs hdec hlen => exact ⟨_, hbs, .whole hs hdec hlen⟩
  | @cut bs seg cs c hs hdec hlt =>
      -- the cut segment would be the rest of the stream, which is whole frames
      obtain ⟨⟨hi, hpend, -⟩, rfl⟩ := hcut rfl
      have hstream : k.stream = bs ++ (seg ++ []) := by
        rw [Conn.stream, hbs, hi, hpend]
        simp
      rw [hstream] at h
      obtain ⟨ps, qs, -, -, hqs⟩ := h.behind hs
      have hne : seg ≠ [] := fun h0 => by
        have hpos := hdec.1
        rw [h0, cutLen_nil] at hpos
        exact absurd hpos (Nat.lt_irrefl 0)
      obtain ⟨f, -, hcutLen, hend, -⟩ := hqs.front hne
      have hle := hend rfl
      have hlen := hcutLen (by omega)
      omega

/-! ## No frame is dropped -/

/-- A connection whose client sends whole frames is given up or closed only
    when all of them have been executed. -/
def Drained (S : Server σ) (fs : List Bytes) (p : Option WPc) (k : Conn) : Prop :=
  Framed S p k
    ∧ (p = some .fail ∨ p = none ∧ k.closes ≠ 0 → Sends S fs k.stream →
        AtEof k ∧ Parsed S k [])

/-- Nothing is said of a worker that goes on. -/
theorem Drained.of_busy {S : Server σ} {fs : List Bytes} {pc : WPc} {k : Conn}
    (hf : Framed S (some pc) k) (hpc : pc ≠ .fail) : Drained S fs (some pc) k := by
  refine ⟨hf, ?_⟩
  rintro (h | ⟨h, -⟩)
  · exact absurd (Option.some.inj h) hpc
  · exact nomatch h

/-- Behind the calls made there are whole frames again. -/
theorem Sends.rest {S : Server σ} {fs : List Bytes} {k : Conn} {part : Bytes}
    (h : Sends S fs k.stream) (hp : Parsed S k part) :
    ∃ ps qs, fs = ps ++ qs
      ∧ ps.map (requestFromJson S.json) = (k.calls.map Prod.snd).map some
      ∧ Sends S qs (part ++ (k.inbox ++ k.pending)) := by
  obtain ⟨bs, hbs, hserved⟩ := h.parsed hp
  have hstream : k.stream = bs ++ (part ++ (k.inbox ++ k.pending)) := by
    rw [Conn.stream, hbs, List.append_assoc, List.append_assoc]
  rw [hstream] at h
  exact h.behind hserved

/-- On a stream of whole frames EOF comes between two of them. -/
theorem Sends.eof {S : Server σ} {fs : List Bytes} {k : Conn} {part : Bytes}
    (h : Sends S fs k.stream) (hp : Parsed S k part) (heof : AtEof k)
    (hshort : 4 ≤ part.length → part.length < 4 + cutLen S part) : part = [] := by
  obtain ⟨ps, qs, -, -, hqs⟩ := h.rest hp
  by_contra hne
  obtain ⟨f, -, hcutLen, hend, -⟩ := hqs.front hne
  have hle := hend (by rw [heof.1, heof.2.1, List.append_nil])
  have hlen := hcutLen (by omega)
  have hlt := hshort (by omega)
  omega

/-- On a stream of whole frames the part read is the start of one. -/
theorem Sends.frame {S : Server σ} {fs : List Bytes} {k : Conn} {part : Bytes}
    (h : Sends S fs k.stream) (hp : Parsed S k part) (hne : part ≠ []) :
    ∃ f, (0 < f.length ∧ f.length < 2 ^ 31 ∧ (requestFromJson S.json f).isSome)
      ∧ (4 ≤ part.length → cutLen S part = f.length)
      ∧ (part.length = 4 + f.length → part = encodeFrame S.endian f) := by
  obtain ⟨ps, qs, -, -, hqs⟩ := h.rest hp
  obtain ⟨f, hf, hcutLen, -, hfull⟩ := hqs.front hne
  exact ⟨f, hqs.2 f hf, hcutLen, hfull⟩

/-- A header read in full from such a stream is not refused. -/
theorem readLen_goes_on {S : Server σ} {fs : List Bytes} {k : Conn} {part : Bytes} {l : ReadLoop}
    (h : Sends S fs k.stream) (hp : Parsed S k part) (hr : ReadsAt S k part .len l)
    (hl : l.nleft = 0) (w : σ) : (resumeRead S l.ptr l.mem k w .len).1 ≠ .fail := by
  obtain ⟨hle, rfl⟩ := hr
  have h4 : part.length = 4 := by
    have h0 : 4 - part.length = 0 := hl
    omega
  have hne : part ≠ [] := List.ne_nil_of_length_pos (by omega)
  obtain ⟨f, ⟨hpos, -, -⟩, hcutLen, -⟩ := h.frame hp hne
  simp only [resumeRead, memWord_part S hle, hcutLen (Nat.le_of_eq h4.symm)]
  rw [if_neg (by omega), if_neg (by omega)]
  intro hfail
  cases hfail

/-- Nor is a body. -/
theorem readBody_goes_on {S : Server σ} {fs : List Bytes} {k : Conn} {part : Bytes} {l : ReadLoop}
    {len : Nat} (h : Sends S fs k.stream) (hp : Parsed S k part)
    (hr : ReadsAt S k part (.body len) l) (hl : l.nleft = 0) (w : σ) :
    (resumeRead S l.ptr l.mem k w (.body len)).1 ≠ .fail := by
  obtain ⟨hpos, hcut, hle, -, rfl⟩ := hr
  have hlen : part.length = 4 + len := by
    have h0 : len - (part.length - 4) = 0 := hl
    omega
  have hne : part ≠ [] := List.ne_nil_of_length_pos (by omega)
  obtain ⟨f, ⟨-, hlt, hdec⟩, hcutLen, hfull⟩ := h.frame hp hne
  have hflen : f.length = len := by rw [← hcutLen (by omega), hcut]
  have hbody : slice (cutMem S (fill 0) part) len = f := by
    rw [← hcut, slice_cutMem_full S _ (by omega), hfull (by omega), drop_header]
  have hret : ¬ ((part.length - 4 : Nat) : Int).bmod (2 ^ 32) < 0 := by
    rw [Int.bmod_eq_of_le_mul_two (by omega) (by omega)]
    omega
  obtain ⟨c, hc⟩ := Option.isSome_iff_exists.mp hdec
  simp only [resumeRead, hbody, hc]
  rw [if_neg hret]
  intro hfail
  cases hfail

theorem resumeRead_len_conn (S : Server σ) (ret : Int) (mem : Mem) (k : Conn) (w : σ) :
    (resumeRead S ret mem k w .len).2.1 = k := by
  rcases resumeRead_cases S ret mem k w .len with h | ⟨-, -, -, h⟩ | ⟨_, _, hstage, -, -⟩
  · rw [h]
  · rw [h]
  · cases hstage

/-- A worker that neither fails nor lets go is not on its way to the close. -/
theorem not_gone {pc : WPc} {k : Conn} (hfail : pc ≠ .fail) (htail : pc ≠ .tail) :
    ¬ (position (some pc) = some .fail ∨ position (some pc) = none ∧ k.closes ≠ 0) := by
  cases pc with
  | fail => exact absurd rfl hfail
  | tail => exact absurd rfl htail
  | _ =>
      rintro (h | ⟨h, -⟩)
      · exact nomatch h
      · exact nomatch h

/-- A worker that meets with no failure gives up only at the end of the
    stream. -/
theorem drained_work {S : Server σ} {fs : List Bytes} {pc : WPc} {pc' : Option WPc} {k k' : Conn}
    {w w' : σ} (hopen : k.closes = 0) (h : WorkerStep S .fine (pc, k, w) (pc', k', w'))
    (hd : Drained S fs (some pc) k) : Drained S fs (position pc') k' := by
  have hf' := framed_work h hd.1
  obtain ⟨hf, hdone⟩ := hd
  cases h with
  | enter => exact .of_busy hf' (by simp)
  | read => exact .of_busy hf' (by simp)
  | readEintr => exact .of_busy hf' (by simp)
  | @readEof stage l _ _ ret mem hl hi hs ht =>
      injection ht with _ hmem
      subst hmem
      refine ⟨hf', fun _ hsends => ?_⟩
      rw [resumeRead_stream] at hsends
      have hsends' : Sends S fs k.stream := hsends
      obtain ⟨part, hp, hr⟩ := hf
      have heof : AtEof k := ⟨hi, hp.1 hs, hs⟩
      cases stage with
      | len =>
          -- the regular end: EOF where the next header would start
          obtain ⟨hle, rfl⟩ := hr
          have hleft : 0 < 4 - part.length := hl
          obtain rfl := hsends'.eof hp heof (by omega)
          rw [resumeRead_len_conn]
          exact ⟨heof, hp⟩
      | body len =>
          obtain ⟨hpos, hcut, hle, -, rfl⟩ := hr
          have hleft : 0 < len - (part.length - 4) := hl
          obtain rfl := hsends'.eof hp heof (by omega)
          rw [cutLen_nil] at hcut
          omega
  | @readDone stage l _ _ hl =>
      -- a whole header or body is never refused, so the worker goes on
      refine ⟨hf', fun hgone hsends => ?_⟩
      rw [resumeRead_stream] at hsends
      obtain ⟨part, hp, hr⟩ := hf
      refine absurd hgone (not_gone ?_ (resumeRead_owner S l.ptr l.mem k w stage).2)
      cases stage with
      | len => exact readLen_goes_on hsends hp hr hl w
      | body len => exact readBody_goes_on hsends hp hr hl w
  | write => exact .of_busy hf' (by simp)
  | writeEintr => exact .of_busy hf' (by simp)
  | @writeDone stage => cases stage <;> exact .of_busy hf' (by simp [resumeWrite])
  | add =>
      refine ⟨hf', ?_⟩
      rintro (h | ⟨-, h⟩)
      · cases h
      · exact absurd hopen h
  | fail => exact ⟨hf', fun _ hsends => hdone (Or.inl rfl) hsends⟩
  | tail =>
      refine ⟨hf', ?_⟩
      rintro (h | ⟨-, h⟩)
      · cases h
      · exact absurd hopen h

/-- Without failures, and with hang-ups only once everything was read, nothing
    is lost. -/
theorem stable_drained (S : Server σ) (fs : List Bytes) :
    Stable S (fun _ => False) (fun k => k.inbox = []) (Drained S fs) where
  accept stream := by
    refine ⟨(stable_framed S (fun _ => False) (fun k => k.inbox = [])).accept stream, ?_⟩
    rintro (h | ⟨-, h⟩)
    · exact nomatch h
    · exact absurd rfl h
  acceptFail hno := hno.elim
  hangup k hopen hd hs hi := by
    -- the one place where the condition on hang-ups is needed
    obtain ⟨hf, -⟩ := hd
    refine ⟨(stable_framed S (fun _ => True) (fun _ => True)).hangup k hopen hf hs trivial,
      fun _ _ => ?_⟩
    obtain ⟨part, hp, hpart⟩ := hf
    rw [hpart hopen] at hp
    exact ⟨⟨hi, hp.1 hs, hs⟩, hp⟩
  ready k hopen hd := hd
  start k hopen hd :=
    .of_busy ((stable_framed S (fun _ => True) (fun _ => True)).start k hopen hd.1) (by simp)
  work luck pc k w pc' k' w' hluck _ hopen h hd := by
    rcases hluck with rfl | hno
    · exact drained_work hopen h hd
    · exact hno.elim
  send p k j hd := by
    refine ⟨(stable_framed S (fun _ => True) (fun _ => True)).send p k j hd.1,
      fun hgone hsends => ?_⟩
    have hstream : (Conn.stream { k with
        inbox := k.inbox ++ k.pending.take j, pending := k.pending.drop j }) = k.stream := by
      simp [Conn.stream]
    rw [hstream] at hsends
    obtain ⟨heof, hp⟩ := hd.2 hgone hsends
    exact ⟨heof.send j, hp.send j⟩
  shutdown p k hpend hd := by
    refine ⟨(stable_framed S (fun _ => True) (fun _ => True)).shutdown p k hpend hd.1,
      fun hgone hsends => ?_⟩
    obtain ⟨heof, hp⟩ := hd.2 hgone hsends
    exact ⟨⟨heof.1, heof.2.1, rfl⟩, hp.shutdown hpend⟩

end SearpcEpollFrames
