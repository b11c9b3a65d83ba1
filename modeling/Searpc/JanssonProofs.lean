import Searpc.JsonTextProofs

/-! # The JSON library behind the RPC layer

    libsearpc links against jansson, which is not part of the repository.  The
    two functions whose inner workings matter, `json_dumps` and `json_loadb`,
    are parameters of every model below (`Jansson`), and what the RPC layer
    relies on is a named hypothesis about them (`RoundTrips`, `RefusesNul`).
    `textCodec` is a codec with these properties, so the hypotheses can be met
    by real JSON text. -/

namespace SearpcJansson

open ByteMemory JsonValue

/-- `json_dumps` and `json_loadb`.  The dumper is asked for an array or object,
    with `JSON_COMPACT` (`true`) or no flag (`false`); the loader runs without
    flags and reports `jerror.text` when it fails.  It reads its buffer from the
    left: `stops s` when it gives up at a bad token inside `s`, before it asks
    for the byte behind. -/
structure Jansson where
  dumps : Json → Bool → Bytes
  loadb : Bytes → Except Bytes Json
  stops : Bytes → Bool

/-- `Good` values survive the codec as elements of arrays and as members of
    objects with distinct keys; among them are null, every 64-bit integer and
    every UTF-8 string.  Printed text is not empty and NUL-terminates itself. -/
structure RoundTrips (J : Jansson) (Good : Json → Prop) : Prop where
  null : Good .null
  int : ∀ i, IntRange i → Good (.int i)
  str : ∀ s, Text s → Good (.str s)
  array : ∀ vs c, (∀ v ∈ vs, Good v) → J.loadb (J.dumps (.arr vs) c) = .ok (.arr vs)
  object : ∀ ms c, (∀ m ∈ ms, Text m.1 ∧ Good m.2) → (ms.map Prod.fst).Nodup →
    J.loadb (J.dumps (.obj ms) c) = .ok (.obj ms)
  text_ne_nil : ∀ v c, J.dumps v c ≠ []
  text_no_nul : ∀ v c, (0 : UInt8) ∉ J.dumps v c

/-- `json_loadb` without flags rejects a buffer that contains a NUL byte. -/
def RefusesNul (J : Jansson) : Prop :=
  ∀ s v, J.loadb s = .ok v → (0 : UInt8) ∉ s

/-- Reading from the left: where the loader stops it refuses, with the same
    error whatever follows; and what it still accepts with more behind it means
    the same. -/
structure Streams (J : Jansson) : Prop where
  refuses : ∀ s, J.stops s = true → ∃ text, J.loadb s = .error text
  same : ∀ s t, J.stops s = true → J.loadb (s ++ t) = J.loadb s
  complete : ∀ s t v v', J.loadb s = .ok v → J.loadb (s ++ t) = .ok v' → v' = v

/-! ## A codec that meets the hypotheses -/

/-- JSON text as the codec. -/
def textCodec : Jansson where
  dumps v c := JsonText.dump c v
  loadb s :=
    match JsonText.load s with
    | some v => .ok v
    | none => .error (ascii "invalid JSON text")
  stops := JsonText.badStart

/-- What JSON text carries inside a container. -/
def carried (v : Json) : Prop := JsonText.Encodable v ∧ JsonText.depth v < JsonText.maxDepth

theorem textCodec_loadb {s : Bytes} {v : Json} (h : JsonText.load s = some v) :
    textCodec.loadb s = .ok v := by
  show (match JsonText.load s with
    | some v => Except.ok v
    | none => Except.error (ascii "invalid JSON text")) = .ok v
  rw [h]

theorem textCodec_loadb_none {s : Bytes} (h : JsonText.load s = none) :
    textCodec.loadb s = .error (ascii "invalid JSON text") := by
  show (match JsonText.load s with
    | some v => Except.ok v
    | none => Except.error (ascii "invalid JSON text")) = .error _
  rw [h]

/-- **THE HYPOTHESES ARE MET** by JSON text. -/
theorem textCodec_roundTrips : RoundTrips textCodec carried where
  null := ⟨trivial, by decide⟩
  int := fun _ hi => ⟨hi, by simp [JsonText.depth, JsonText.maxDepth]⟩
  str := fun _ hs => ⟨hs, by simp [JsonText.depth, JsonText.maxDepth]⟩
  array := by
    intro vs c h
    refine textCodec_loadb (JsonText.load_dump c ?_ ?_ rfl)
    · exact (JsonText.encodableList_iff vs).mpr (fun v hv => (h v hv).1)
    · have hd : JsonText.depthList vs ≤ JsonText.maxDepth - 1 :=
        JsonText.depthList_le.mpr (fun v hv => Nat.le_sub_one_of_lt (h v hv).2)
      simp only [JsonText.depth, JsonText.maxDepth] at hd ⊢
      omega
  object := by
    intro ms c h hnd
    refine textCodec_loadb (JsonText.load_dump c ?_ ?_ rfl)
    · exact ⟨(JsonText.encodableMembers_iff ms).mpr (fun m hm => ⟨(h m hm).1, (h m hm).2.1⟩), hnd⟩
    · have hd : JsonText.depthMembers ms ≤ JsonText.maxDepth - 1 :=
        JsonText.depthMembers_le.mpr (fun m hm => Nat.le_sub_one_of_lt (h m hm).2.2)
      simp only [JsonText.depth, JsonText.maxDepth] at hd ⊢
      omega
  text_ne_nil := by
    intro v c h
    obtain ⟨b, t, hd, -⟩ := JsonText.dump_cons c v
    have : JsonText.dump c v = [] := h
    rw [hd] at this
    exact nomatch this
  text_no_nul := fun v c => JsonText.dump_ne_zero c v

theorem textCodec_refusesNul : RefusesNul textCodec := by
  intro s v h
  cases hl : JsonText.load s with
  | none =>
      rw [textCodec_loadb_none hl] at h
      cases h
  | some w => exact JsonText.load_ne_zero hl

theorem textCodec_streams : Streams textCodec where
  refuses := by
    intro s hs
    have hload := JsonText.load_badStart hs []
    rw [List.append_nil] at hload
    exact ⟨_, textCodec_loadb_none hload⟩
  same := by
    intro s t hs
    have hload := JsonText.load_badStart hs []
    rw [List.append_nil] at hload
    rw [textCodec_loadb_none hload, textCodec_loadb_none (JsonText.load_badStart hs t)]
  complete := by
    intro s t v v' h h'
    have hload : ∀ {s v}, textCodec.loadb s = .ok v → JsonText.load s = some v := by
      intro s v h
      cases hl : JsonText.load s with
      | none =>
          rw [textCodec_loadb_none hl] at h
          cases h
      | some w =>
          rw [textCodec_loadb hl] at h
          cases h
          rfl
    exact JsonText.load_append (hload h) (hload h')

end SearpcJansson
