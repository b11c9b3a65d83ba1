import Searpc.JanssonProofs

/-! # The request envelope — `request_to_json` and `request_from_json`

    A request travels as a JSON object with two string members, `service` and
    `request`; the second is itself the JSON text of the call.  A member whose
    text is not UTF-8 is silently left out by the encoder, and the decoder
    refuses an object in which either member is missing or not a string. -/

namespace SearpcRequest

open ByteMemory JsonValue SearpcJansson

/-- A decoded request: the service name and the call text. -/
abbrev Call := Bytes × Bytes

/-- `json_object_set_string_member`. -/
def jsonObjectSetStringMember (ms : List (Bytes × Json)) (key value : Bytes) :
    List (Bytes × Json) :=
  jsonObjectSetNew ms key (jsonString value)

/-- `json_object_get_string_member`. -/
def jsonObjectGetStringMember (object : Option Json) (key : Bytes) : Option Bytes :=
  match jsonObjectGet object key with
  | none => none
  | some v => jsonStringValue (some v)

/-- The members `request_to_json` puts into its object.  `fcall_str` is copied
    into a zeroed buffer one byte longer, so it ends at its first NUL. -/
def requestMembers (service fcallStr : Bytes) : List (Bytes × Json) :=
  jsonObjectSetStringMember (jsonObjectSetStringMember [] (ascii "service") service)
    (ascii "request") (cstr fcallStr)

/-- `request_to_json`. -/
def requestToJson (J : Jansson) (service fcallStr : Bytes) : Bytes :=
  J.dumps (.obj (requestMembers service fcallStr)) false

/-- `request_from_json`: the service and the call, or `-1`. -/
def requestFromJson (J : Jansson) (content : Bytes) : Option Call :=
  match J.loadb content with
  | .error _ => none
  | .ok object =>
      match jsonObjectGetStringMember (some object) (ascii "service"),
        jsonObjectGetStringMember (some object) (ascii "request") with
      | some service, some fcallStr => some (service, fcallStr)
      | _, _ => none

/-- Both members are there when both texts are UTF-8. -/
theorem requestMembers_text {service fcallStr : Bytes} (hs : Text service)
    (hf : Text fcallStr) :
    requestMembers service fcallStr
      = [(ascii "service", .str service), (ascii "request", .str fcallStr)] := by
  have hc : cstr fcallStr = fcallStr := cstr_eq_self hf.2
  have hne : ascii "service" ≠ ascii "request" := by decide
  simp only [requestMembers, jsonObjectSetStringMember, hc, jsonString_of_valid hs.1,
    jsonString_of_valid hf.1, jsonObjectSetNew, memberSet, if_neg hne]

/-- The decoder on an object with the two members. -/
theorem requestFromJson_members {J : Jansson} {content service fcallStr : Bytes}
    (hload : J.loadb content
      = .ok (.obj [(ascii "service", .str service), (ascii "request", .str fcallStr)]))
    (hs : (0 : UInt8) ∉ service) (hf : (0 : UInt8) ∉ fcallStr) :
    requestFromJson J content = some (service, fcallStr) := by
  have hne : ascii "service" ≠ ascii "request" := by decide
  simp only [requestFromJson, hload, jsonObjectGetStringMember, jsonObjectGet, memberGet_cons,
    if_true, if_neg hne, jsonStringValue, cstr_eq_self hs, cstr_eq_self hf]

/-- **ENVELOPE ROUND TRIP**: the decoder undoes the encoder on UTF-8 text. -/
theorem requestFromJson_requestToJson {J : Jansson} {Good : Json → Prop}
    (hJ : RoundTrips J Good) {service fcallStr : Bytes} (hs : Text service)
    (hf : Text fcallStr) :
    requestFromJson J (requestToJson J service fcallStr) = some (service, fcallStr) := by
  have hload : J.loadb (requestToJson J service fcallStr)
      = .ok (.obj [(ascii "service", .str service), (ascii "request", .str fcallStr)]) := by
    show J.loadb (J.dumps (.obj (requestMembers service fcallStr)) false) = _
    rw [requestMembers_text hs hf]
    have hkeys : Text (ascii "service") ∧ Text (ascii "request")
        ∧ [ascii "service", ascii "request"].Nodup := by decide
    refine hJ.object _ false ?_ hkeys.2.2
    intro m hm
    rcases List.mem_cons.mp hm with rfl | hm
    · exact ⟨hkeys.1, hJ.str service hs⟩
    · rcases List.mem_cons.mp hm with rfl | hm
      · exact ⟨hkeys.2.1, hJ.str fcallStr hf⟩
      · exact nomatch hm
  exact requestFromJson_members hload hs.2 hf.2

/-- The codec's refusal of NUL bytes carries over to requests. -/
theorem requestFromJson_ne_zero {J : Jansson} (hJ : RefusesNul J) {content : Bytes}
    {c : Call} (h : requestFromJson J content = some c) : (0 : UInt8) ∉ content := by
  cases hl : J.loadb content with
  | error t =>
      simp only [requestFromJson, hl] at h
      exact nomatch h
  | ok v => exact hJ content v hl

end SearpcRequest
