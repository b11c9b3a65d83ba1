import Searpc.ByteMemoryProofs

/-! # Length-prefixed framing — the reference reading of a byte stream

    A frame is a 32-bit length in native byte order followed by that many
    payload bytes.  `scan` is the reference reader: it takes complete,
    non-empty frames off the front of a stream, decodes each payload, and stops
    at the first frame that is empty, cut short or undecodable.  Nothing here
    knows how the bytes arrive; a receiver is judged against `scan`. -/

namespace Framing

open ByteMemory

variable {α : Type}

/-- A payload with its length in front. -/
def encodeFrame (e : Endian) (p : Bytes) : Bytes := u32Bytes e p.length ++ p

@[simp] theorem encodeFrame_length (e : Endian) (p : Bytes) :
    (encodeFrame e p).length = 4 + p.length := by
  rw [encodeFrame, List.length_append, u32Bytes_length]

/-- The header of an encoded frame. -/
theorem take_encodeFrame (e : Endian) (p rest : Bytes) :
    (encodeFrame e p ++ rest).take 4 = u32Bytes e p.length := by
  rw [encodeFrame, List.append_assoc]
  exact List.take_left' (u32Bytes_length e p.length)

/-- What stands behind the header. -/
theorem drop_encodeFrame (e : Endian) (p rest : Bytes) :
    (encodeFrame e p ++ rest).drop 4 = p ++ rest := by
  rw [encodeFrame, List.append_assoc]
  exact List.drop_left' (u32Bytes_length e p.length)

theorem drop_header (e : Endian) (p : Bytes) : (encodeFrame e p).drop 4 = p := by
  have h := drop_encodeFrame e p []
  rw [List.append_nil, List.append_nil] at h
  exact h

/-- A frame at the front of a frame is that frame. -/
theorem encodeFrame_align {e : Endian} {p q rest : Bytes} (hp : p.length < 2 ^ 32)
    (hq : q.length < 2 ^ 32) (h : encodeFrame e p ++ rest = encodeFrame e q) :
    p = q ∧ rest = [] := by
  have hhead : u32Bytes e p.length = u32Bytes e q.length := by
    have ht := take_encodeFrame e q []
    rw [List.append_nil, ← h, take_encodeFrame] at ht
    exact ht
  have hlen : p.length = q.length := by
    have hval := congrArg (u32Value e) hhead
    rw [u32Value_u32Bytes, u32Value_u32Bytes, Nat.mod_eq_of_lt hp, Nat.mod_eq_of_lt hq] at hval
    exact hval
  have htail : p ++ rest = q := by
    rw [← drop_header e q, ← h, drop_encodeFrame]
  obtain ⟨hpq, hrest⟩ := List.append_inj (htail.trans (List.append_nil q).symm) hlen
  exact ⟨hpq, hrest⟩

/-- Take one complete non-empty frame off the front of a stream. -/
def splitFrame (e : Endian) (s : Bytes) : Option (Bytes × Bytes) :=
  let len := u32Value e (s.take 4)
  if 4 ≤ s.length ∧ 0 < len ∧ len ≤ s.length - 4 then
    some ((s.drop 4).take len, (s.drop 4).drop len)
  else none

/-- What the reference reader finds: the payloads it accepted, what they
    decode to, and the part of the stream it did not accept. -/
structure Scan (α : Type) where
  payloads : List Bytes
  calls    : List α
  tail     : Bytes
deriving DecidableEq

/-- The reference reader, with a bound on the number of frames. -/
def scanN (e : Endian) (dec : Bytes → Option α) : Nat → Bytes → Scan α
  | 0, s => ⟨[], [], s⟩
  | n + 1, s =>
      match splitFrame e s with
      | none => ⟨[], [], s⟩
      | some (p, rest) =>
          match dec p with
          | none => ⟨[], [], s⟩
          | some c =>
              let r := scanN e dec n rest
              ⟨p :: r.payloads, c :: r.calls, r.tail⟩

/-- The reference reader: a stream has fewer frames than bytes. -/
def scan (e : Endian) (dec : Bytes → Option α) (s : Bytes) : Scan α :=
  scanN e dec s.length s

/-- **FRAME INVERSION**: a frame is split off exactly when the stream starts
    with the encoding of a non-empty payload whose length fits the header. -/
theorem splitFrame_eq_some {e : Endian} {s p rest : Bytes} :
    splitFrame e s = some (p, rest)
      ↔ s = encodeFrame e p ++ rest ∧ 0 < p.length ∧ p.length < 2 ^ 32 := by
  constructor
  · intro h
    simp only [splitFrame] at h
    by_cases hc : 4 ≤ s.length ∧ 0 < u32Value e (s.take 4)
        ∧ u32Value e (s.take 4) ≤ s.length - 4
    · rw [if_pos hc] at h
      obtain ⟨h4, hpos, hle⟩ := hc
      obtain ⟨hp, hrest⟩ := Prod.mk.inj (Option.some.inj h)
      have hlen4 : (s.take 4).length = 4 := by rw [List.length_take]; omega
      have hplen : p.length = u32Value e (s.take 4) := by
        rw [← hp, List.length_take, List.length_drop]
        omega
      refine ⟨?_, by omega, by rw [hplen]; exact u32Value_lt e hlen4⟩
      rw [encodeFrame, hplen, u32Bytes_u32Value e hlen4, List.append_assoc, ← hp, ← hrest,
        List.take_append_drop, List.take_append_drop]
    · rw [if_neg hc] at h
      exact nomatch h
  · rintro ⟨rfl, hpos, hlt⟩
    have hlen : (encodeFrame e p ++ rest).length = 4 + p.length + rest.length := by
      rw [List.length_append, encodeFrame_length]
    have hval : u32Value e (u32Bytes e p.length) = p.length := by
      rw [u32Value_u32Bytes, Nat.mod_eq_of_lt hlt]
    simp only [splitFrame, take_encodeFrame, drop_encodeFrame, hval, hlen]
    rw [if_pos (by omega), List.take_left, List.drop_left]

/-- Splitting a frame off strictly shortens the stream. -/
theorem splitFrame_length {e : Endian} {s p rest : Bytes}
    (h : splitFrame e s = some (p, rest)) : rest.length < s.length := by
  obtain ⟨hs, -, -⟩ := splitFrame_eq_some.mp h
  rw [hs, List.length_append, encodeFrame_length]
  omega

/-- The bound does not matter once it covers the stream. -/
theorem scanN_eq_scan (e : Endian) (dec : Bytes → Option α) :
    ∀ (n : Nat) (s : Bytes), s.length ≤ n → scanN e dec n s = scan e dec s := by
  intro n
  induction n using Nat.strongRecOn with
  | _ n ih =>
      intro s hs
      show scanN e dec n s = scanN e dec s.length s
      rcases Nat.eq_or_lt_of_le hs with heq | hlt
      · rw [heq]
      · obtain ⟨m, rfl⟩ : ∃ m, n = m + 1 := ⟨n - 1, by omega⟩
        cases hl : s.length with
        | zero =>
            have hnone : splitFrame e s = none := by
              cases hsp : splitFrame e s with
              | none => rfl
              | some pr =>
                  have := splitFrame_length hsp
                  omega
            simp only [scanN, hnone]
        | succ k =>
            simp only [scanN]
            cases hsp : splitFrame e s with
            | none => rfl
            | some pr =>
                obtain ⟨p, rest⟩ := pr
                have hr := splitFrame_length hsp
                have h1 : scanN e dec m rest = scan e dec rest :=
                  ih m (by omega) rest (by omega)
                have h2 : scanN e dec k rest = scan e dec rest :=
                  ih k (by omega) rest (by omega)
                simp only [h1, h2]

/-- The reader accepts a complete decodable frame and goes on behind it. -/
theorem scan_cons {e : Endian} {dec : Bytes → Option α} {s p rest : Bytes} {c : α}
    (hs : splitFrame e s = some (p, rest)) (hc : dec p = some c) :
    scan e dec s = ⟨p :: (scan e dec rest).payloads, c :: (scan e dec rest).calls,
      (scan e dec rest).tail⟩ := by
  have hlt := splitFrame_length hs
  obtain ⟨n, hn⟩ : ∃ n, s.length = n + 1 := ⟨s.length - 1, by omega⟩
  rw [show scan e dec s = scanN e dec s.length s from rfl, hn]
  simp only [scanN, hs, hc]
  rw [scanN_eq_scan e dec n rest (by omega)]

/-- The reader stops where no complete frame starts. -/
theorem scan_stop {e : Endian} {dec : Bytes → Option α} {s : Bytes}
    (hs : splitFrame e s = none) : scan e dec s = ⟨[], [], s⟩ := by
  rw [scan]
  cases s.length with
  | zero => rfl
  | succ n => simp only [scanN, hs]

/-- The reader stops at a frame it cannot decode. -/
theorem scan_undecodable {e : Endian} {dec : Bytes → Option α} {s p rest : Bytes}
    (hs : splitFrame e s = some (p, rest)) (hc : dec p = none) :
    scan e dec s = ⟨[], [], s⟩ := by
  rw [scan]
  cases s.length with
  | zero => rfl
  | succ n => simp only [scanN, hs, hc]

/-- The reader takes encoded decodable payloads off the front of any stream. -/
theorem scan_append {e : Endian} {dec : Bytes → Option α} (tail : Bytes) :
    ∀ (ps : List Bytes) (cs : List α), ps.map dec = cs.map some →
      (∀ p ∈ ps, 0 < p.length ∧ p.length < 2 ^ 32) →
      scan e dec (ps.flatMap (encodeFrame e) ++ tail)
        = ⟨ps ++ (scan e dec tail).payloads, cs ++ (scan e dec tail).calls,
            (scan e dec tail).tail⟩ := by
  intro ps
  induction ps with
  | nil =>
      intro cs hcs _
      cases cs with
      | nil => rfl
      | cons c cs => exact nomatch hcs
  | cons p ps ih =>
      intro cs hcs hlen
      cases cs with
      | nil => exact nomatch hcs
      | cons c cs =>
          have hc : dec p = some c := (List.cons.inj hcs).1
          have hps : ps.map dec = cs.map some := (List.cons.inj hcs).2
          obtain ⟨hpos, hlt⟩ := hlen p List.mem_cons_self
          have hs : splitFrame e ((p :: ps).flatMap (encodeFrame e) ++ tail)
              = some (p, ps.flatMap (encodeFrame e) ++ tail) := by
            rw [splitFrame_eq_some]
            exact ⟨by simp [List.append_assoc], hpos, hlt⟩
          rw [scan_cons hs hc,
            ih cs hps (fun q hq => hlen q (List.mem_cons_of_mem p hq))]
          rfl

/-- **ALIGNMENT**: frames at the front of a sequence of frames are its first
    frames. -/
theorem frames_align {e : Endian} {rest : Bytes} :
    ∀ (ps fs : List Bytes), (∀ p ∈ ps, 0 < p.length ∧ p.length < 2 ^ 32) →
      (∀ f ∈ fs, 0 < f.length ∧ f.length < 2 ^ 32) →
      ps.flatMap (encodeFrame e) ++ rest = fs.flatMap (encodeFrame e) →
      ∃ qs, fs = ps ++ qs ∧ rest = qs.flatMap (encodeFrame e) := by
  intro ps
  induction ps with
  | nil => exact fun fs _ _ h => ⟨fs, rfl, h⟩
  | cons p ps ih =>
      intro fs hps hfs h
      have hp : splitFrame e (fs.flatMap (encodeFrame e))
          = some (p, ps.flatMap (encodeFrame e) ++ rest) := by
        rw [← h, splitFrame_eq_some]
        exact ⟨by simp [List.append_assoc], hps p List.mem_cons_self⟩
      cases fs with
      | nil => exact nomatch hp
      | cons f fs =>
          have hf : splitFrame e ((f :: fs).flatMap (encodeFrame e))
              = some (f, fs.flatMap (encodeFrame e)) := by
            rw [splitFrame_eq_some]
            exact ⟨by simp, hfs f List.mem_cons_self⟩
          rw [hf] at hp
          obtain ⟨rfl, hrest⟩ := Prod.mk.inj (Option.some.inj hp)
          obtain ⟨qs, rfl, hqs⟩ := ih fs (fun q hq => hps q (List.mem_cons_of_mem _ hq))
            (fun q hq => hfs q (List.mem_cons_of_mem _ hq)) hrest.symm
          exact ⟨qs, rfl, hqs⟩

/-! ## Headers narrower than the length

    A writer may hold a length wider than the header.  The header then carries
    the length modulo `2 ^ 32`, the payload follows whole, and a reader that
    trusts headers goes astray at that frame. -/

/-- The header of a frame carries the low 32 bits of the length. -/
theorem u32Bytes_mod (e : Endian) (n : Nat) : u32Bytes e (n % 2 ^ 32) = u32Bytes e n := by
  rw [← u32Value_u32Bytes e n]
  exact u32Bytes_u32Value e (u32Bytes_length e n)

/-- `n` frames taken off the front of a stream by a reader that trusts headers:
    the payloads, and what it has not read. -/
def readFrames (e : Endian) : Nat → Bytes → Option (List Bytes × Bytes)
  | 0, s => some ([], s)
  | n + 1, s =>
      let len := u32Value e (s.take 4)
      if 4 + len ≤ s.length then
        (readFrames e n ((s.drop 4).drop len)).map (fun r => ((s.drop 4).take len :: r.1, r.2))
      else none

/-- The reader takes the header's word for the length. -/
theorem readFrames_encodeFrame (e : Endian) (p rest : Bytes) (n : Nat) :
    readFrames e (n + 1) (encodeFrame e p ++ rest)
      = (readFrames e n ((p ++ rest).drop (p.length % 2 ^ 32))).map
          (fun r => ((p ++ rest).take (p.length % 2 ^ 32) :: r.1, r.2)) := by
  have hle := Nat.mod_le p.length (2 ^ 32)
  simp only [readFrames, take_encodeFrame, drop_encodeFrame, u32Value_u32Bytes,
    List.length_append, encodeFrame_length]
  exact if_pos (by omega)

/-- **FRAMES READ BACK, EXACTLY**: a reader that trusts headers gets the
    payloads of a sequence of frames, and stops at its end, if and only if all
    lengths fit the header. -/
theorem readFrames_iff (e : Endian) (ps : List Bytes) :
    readFrames e ps.length (ps.flatMap (encodeFrame e)) = some (ps, [])
      ↔ ∀ p ∈ ps, p.length < 2 ^ 32 := by
  induction ps with
  | nil => exact iff_of_true rfl (fun p hp => by cases hp)
  | cons p ps ih =>
      rw [List.length_cons, List.flatMap_cons, readFrames_encodeFrame, List.forall_mem_cons]
      constructor
      · intro h
        obtain ⟨⟨qs, rest⟩, hread, heq⟩ := Option.map_eq_some_iff.mp h
        obtain ⟨hcons, rfl⟩ := Prod.mk.inj heq
        obtain ⟨hp, rfl⟩ := List.cons.inj hcons
        -- what was taken is `p`, so the header told its length
        have hfit : p.length % 2 ^ 32 = p.length := by
          have hlen := congrArg List.length hp
          rw [List.length_take, List.length_append] at hlen
          have hle := Nat.mod_le p.length (2 ^ 32)
          omega
        rw [hfit, List.drop_left] at hread
        refine ⟨?_, ih.mp hread⟩
        rw [← hfit]
        exact Nat.mod_lt _ (by decide)
      · rintro ⟨hp, hps⟩
        rw [Nat.mod_eq_of_lt hp, List.drop_left, List.take_left, ih.mpr hps]
        rfl

end Framing
