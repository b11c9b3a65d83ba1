import Searpc.EpollModesProofs
import Searpc.FcallProofs
import Searpc.PipeClientProofs
import Searpc.PyTransportProofs

/-! # Python and C clients — one request, two texts

    A `searpc_func` stub prints the call with Python's `json.dumps` and the
    envelope around it once more; the C client prints both with jansson.  The
    texts differ in spacing and escaping and so do the lengths in front of
    them.  To the server there is no difference: either way it gets one frame
    with the same service and a call text that parses to the same array. -/

namespace PyClient

open ByteMemory Framing JsonValue SearpcJansson SearpcRequest SearpcFcall SearpcPipeClient
open SearpcEpoll SearpcEpollFrames SearpcEpollModes PyJson PyTransport Utf8Text
open SearpcPipeIo (Env pipeWriteN pipeWriteN_spec)
open SearpcThreadServer (Server NoFail noFail_smooth echoServer namedPipeClientHandler
  pipeWriteN_noFail)

variable {σ : Type}

/-! ## The two clients -/

/-- The call text of the stub that `searpc_func` makes for `func`. -/
def stubFcallStr (name : PyStr) (args : List PyValue) : PyStr :=
  dumps (.list (.str name :: args))

/-- A Python argument and the C parameter for the same value. -/
inductive SameValue : PyValue → Param → Prop where
  | int {i : Int} {value : Int64} : value.toInt32.toInt = i → SameValue (.int i) (.int value)
  | int64 {i : Int} {value : Int64} : value.toInt = i → SameValue (.int i) (.int64 value)
  | null : SameValue .none (.string none)
  | string {s : PyStr} : SameValue (.str s) (.string (some (utf8 s)))
  | json {v : PyValue} : SameValue v (.json (some v.json))

/-- Both stand for the same JSON value. -/
theorem SameValue.element_eq {v : PyValue} {p : Param} (h : SameValue v p) (hv : v.Proper) :
    p.element = v.json ∧ p.Utf8 := by
  cases h with
  | int hi => exact ⟨congrArg Json.int hi, trivial⟩
  | int64 hi => exact ⟨congrArg Json.int hi, trivial⟩
  | null => exact ⟨rfl, trivial⟩
  | @string s =>
      have hc : cstr (utf8 s) = utf8 s := cstr_eq_self (zero_not_mem_utf8 hv)
      refine ⟨congrArg Json.str hc, ?_⟩
      show utf8Valid (cstr (utf8 s)) = true
      rw [hc]
      exact utf8Valid_utf8 s
  | json => exact ⟨rfl, trivial⟩

theorem sameValues_elements {args : List PyValue} {params : List Param}
    (h : List.Forall₂ SameValue args params) (hargs : ∀ v ∈ args, v.Proper) :
    elements params = args.map PyValue.json := by
  have hboth : (∀ p ∈ params, p.Utf8) ∧ params.map Param.element = args.map PyValue.json := by
    induction h with
    | nil => exact ⟨fun p hp => absurd hp List.not_mem_nil, rfl⟩
    | @cons v p args params hv _ ih =>
        obtain ⟨hel, hutf⟩ := hv.element_eq (hargs v List.mem_cons_self)
        obtain ⟨hall, hmap⟩ := ih (fun u hu => hargs u (List.mem_cons_of_mem v hu))
        refine ⟨List.forall_mem_cons.mpr ⟨hutf, hall⟩, ?_⟩
        rw [List.map_cons, List.map_cons, hel, hmap]
  rw [elements_eq hboth.1, hboth.2]

/-- The array both clients send. -/
def callArray (fname : PyStr) (args : List PyValue) : List Json :=
  .str (utf8 fname) :: args.map PyValue.json

/-! ## The call texts -/

section Texts

variable {J : Jansson} {Good : Json → Prop} {fname : PyStr} {args : List PyValue}

/-- The C text: `fcall_to_str` prints the call array. -/
theorem fcallToStr_same {params : List Param} (hf : NoNul fname)
    (hsame : List.Forall₂ SameValue args params) (hargs : ∀ v ∈ args, v.Proper) :
    fcallToStr J (utf8 fname) (params.map .param)
      = some (J.dumps (.arr (callArray fname args)) true) := by
  have harr := fcallArray_params (utf8 fname) params
  rw [sameValues_elements hsame hargs, cstr_eq_self (zero_not_mem_utf8 hf),
    if_pos (utf8Valid_utf8 fname)] at harr
  rw [fcallToStr, harr]
  rfl

theorem callArray_good (hJ : RoundTrips J Good) (hf : NoNul fname)
    (hgood : ∀ v ∈ args, Good v.json) : ∀ v ∈ callArray fname args, Good v := by
  intro v hv
  rcases List.mem_cons.mp hv with rfl | hv
  · exact hJ.str _ (text_utf8 hf)
  · obtain ⟨u, hu, rfl⟩ := List.mem_map.mp hv
    exact hgood u hu

theorem proper_call (hf : NoNul fname) (hargs : ∀ v ∈ args, v.Proper) :
    (PyValue.list (.str fname :: args)).Proper :=
  ⟨hf, (properList_iff args).mpr hargs⟩

/-- The Python text parses to the call array. -/
theorem loadb_stub (hJ : RoundTrips J Good) (hpy : ReadsPython J Good) (hf : NoNul fname)
    (hargs : ∀ v ∈ args, v.Proper) (hgood : ∀ v ∈ args, Good v.json) :
    J.loadb (utf8 (stubFcallStr fname args)) = .ok (.arr (callArray fname args)) := by
  have hread := hpy.list (.str fname :: args) (proper_call hf hargs)
    (List.forall_mem_cons.mpr ⟨hJ.str _ (text_utf8 hf), hgood⟩)
  rw [PyValue.json, jsonList_eq] at hread
  exact hread

/-- The Python envelope decodes to the service and the call text. -/
theorem requestFromJson_body (hJ : RoundTrips J Good) (hpy : ReadsPython J Good)
    {service fcallStr : PyStr} (hs : NoNul service) (hc : NoNul fcallStr) :
    requestFromJson J (bodyUtf8 service fcallStr) = some (utf8 service, utf8 fcallStr) := by
  refine requestFromJson_members ?_ (zero_not_mem_utf8 hs) (zero_not_mem_utf8 hc)
  have hkeys : NoNul "service".toList ∧ NoNul "request".toList
      ∧ ["service".toList, "request".toList].Nodup := by decide
  have hread := hpy.dict [("service".toList, .str service), ("request".toList, .str fcallStr)]
    ⟨⟨hkeys.1, hs, hkeys.2.1, hc, trivial⟩, hkeys.2.2⟩ (by
      intro m hm
      rcases List.mem_cons.mp hm with rfl | hm
      · exact hJ.str _ (text_utf8 hs)
      · rw [List.mem_singleton.mp hm]
        exact hJ.str _ (text_utf8 hc))
  exact hread

end Texts

/-! ## The frames -/

/-- Exactly one frame, in which either server end finds exactly one call. -/
structure OneCall (S : Server σ) (stream : Bytes) (call : Call) : Prop where
  frame : ∃ body, requestFromJson S.json body = some call
    ∧ ∀ rest, splitFrame S.endian (stream ++ rest) = some (body, rest)
  thread : ∀ (env : Env) (junk : Mem) (w : σ) (n : Nat), NoFail env → 2 < n →
    (namedPipeClientHandler S env (4 * n) (.start junk w stream)).h.calls = [call]
  epoll : ∀ (w : σ) (s : State σ) (c : Nat),
    ReachableBy S w (fun _ => False) (fun k => k.inbox = []) c s → c < s.next →
    (s.conns c).stream = stream →
    (s.conns c).calls.map Prod.snd <+: [call]
      ∧ ((s.conns c).closes ≠ 0 → (s.conns c).calls.map Prod.snd = [call])

/-- The frame of a decodable body of less than `2 ^ 31` bytes is one call. -/
theorem oneCall_frame {S : Server σ} {body : Bytes} {call : Call}
    (hdec : requestFromJson S.json body = some call) (hpos : 0 < body.length)
    (hlt : body.length < 2 ^ 31) : OneCall S (encodeFrame S.endian body) call := by
  have hsends : Sends S [body] (encodeFrame S.endian body) := by
    refine ⟨(List.append_nil _).symm, fun f hf => ?_⟩
    rw [List.mem_singleton.mp hf, hdec]
    exact ⟨hpos, hlt, rfl⟩
  have hcs : [body].map (requestFromJson S.json) = [call].map some := by
    rw [List.map_singleton, List.map_singleton, hdec]
  have hinj := List.map_injective_iff.mpr (Option.some_injective Call)
  refine ⟨⟨body, hdec, fun rest => ?_⟩, fun env junk w n hnf hn => ?_,
    fun w s c hs hc hstream => ?_⟩
  · exact splitFrame_eq_some.mpr ⟨rfl, hpos, by omega⟩
  · exact thread_calls hsends hcs hnf junk w hn
  · rw [← hstream] at hsends
    refine ⟨?_, fun hclosed => ?_⟩
    · have hpre := epoll_calls_inOrder hs.reachable hc hsends
      rw [hcs] at hpre
      obtain ⟨calls, hcalls, heq⟩ := List.prefix_map_iff.mp hpre
      rw [hinj heq]
      exact hcalls
    · have hall := epoll_calls_closed hs hc hsends hclosed
      rw [hcs] at hall
      exact hinj hall

/-- The bytes of a C request are the frame of its text. -/
theorem requestBytes_frame {J : Jansson} {Good : Json → Prop} (hJ : RoundTrips J Good)
    (e : Endian) {service fcallStr : Bytes}
    (h : (requestToJson J service fcallStr).length < 2 ^ 32) :
    requestBytes e J service fcallStr = encodeFrame e (requestToJson J service fcallStr) := by
  have hlen : requestLen J service fcallStr = (requestToJson J service fcallStr).length := by
    have hnul : (0 : UInt8) ∉ requestToJson J service fcallStr := hJ.text_no_nul _ _
    rw [requestLen, cstr_eq_self hnul, Nat.mod_eq_of_lt h]
  rw [requestBytes, hlen, List.take_length]
  rfl

/-- On a kernel that fails no call the C client writes its whole request. -/
theorem searpcNamedPipeSend_out {env : Env} (hnf : NoFail env) (e : Endian) (J : Jansson)
    (junk : Mem) (service fcallStr reply : Bytes) :
    (searpcNamedPipeSend e J env junk service fcallStr reply).out
      = requestBytes e J service fcallStr := by
  obtain ⟨r0, hr0⟩ : ∃ r : SearpcPipeClient.Run,
      r = ⟨.start J junk service fcallStr, reply, [], 0, 0⟩ := ⟨_, rfl⟩
  have hsend : searpcNamedPipeSend e J env junk service fcallStr reply
      = SearpcPipeClient.ioStep e env (SearpcPipeClient.ioStep e env
          (SearpcPipeClient.ioStep e env (SearpcPipeClient.ioStep e env r0))) := by
    rw [hr0]
    rfl
  have hpc0 : r0.c.pc = .writeLen := by
    rw [hr0]
    rfl
  have hpc1 : (SearpcPipeClient.ioStep e env r0).c.pc = .writeBody := by
    simp only [SearpcPipeClient.ioStep, hpc0, afterWriteLen, if_neg (pipeWriteN_noFail hnf _ _)]
  have hpc2 : (SearpcPipeClient.ioStep e env (SearpcPipeClient.ioStep e env r0)).c.pc
      = .readLen := by
    generalize SearpcPipeClient.ioStep e env r0 = r1 at hpc1
    simp only [SearpcPipeClient.ioStep, hpc1, afterWriteBody, if_neg (pipeWriteN_noFail hnf _ _)]
  -- the length, the text, and two reads that write nothing
  obtain ⟨ho3, hpc3⟩ := ioStep_read_out e env (Or.inl hpc2)
  obtain ⟨ho4, -⟩ := ioStep_read_out e env (Or.inr hpc3)
  rw [hsend, ho4, ho3]
  rcases ioStep_writeBody e env hpc1 with hf | ⟨hc2, -, ho2⟩
  · rw [hf] at hpc2
    cases hpc2
  · rcases ioStep_writeLen e env hpc0 with hf | ⟨hc1, -, ho1⟩
    · rw [hf] at hpc1
      cases hpc1
    · rw [ho2, ho1, hc1, hr0]
      rfl

/-! ## The two clients together -/

/-- **INTERCHANGEABLE CLIENTS**: for every service, function and argument list,
    the Python stub and the C client each write one frame, in which the server
    finds the same service and, in different texts, the same call array. -/
theorem clients_interchangeable {S : Server σ} {Good : Json → Prop}
    (hJ : RoundTrips S.json Good) (hutf : PrintsUtf8 S.json Good) (hpy : ReadsPython S.json Good)
    {service fname : PyStr} (hs : NoNul service) (hf : NoNul fname) {args : List PyValue}
    {params : List Param} (hsame : List.Forall₂ SameValue args params)
    (hargs : ∀ v ∈ args, v.Proper) (hgood : ∀ v ∈ args, Good v.json)
    (hpylen : (bodyUtf8 service (stubFcallStr fname args)).length < 2 ^ 31)
    (hclen : ∀ text, fcallToStr S.json (utf8 fname) (params.map .param) = some text →
      (requestToJson S.json (utf8 service) text).length < 2 ^ 31) :
    ∃ text, fcallToStr S.json (utf8 fname) (params.map .param) = some text
      ∧ S.json.loadb text = .ok (.arr (callArray fname args))
      ∧ S.json.loadb (utf8 (stubFcallStr fname args)) = .ok (.arr (callArray fname args))
      ∧ (∀ (evs : List IoEvent) (reply : Bytes) (r : PyTransport.Run),
          r = namedPipeTransportSend S.endian service (stubFcallStr fname args) evs reply →
          r.phase ≠ .raised → r.phase.left (bodyUtf8 service (stubFcallStr fname args)) = [] →
          OneCall S r.out (utf8 service, utf8 (stubFcallStr fname args)))
      ∧ ∀ (env : Env) (junk : Mem) (reply : Bytes), NoFail env →
          OneCall S (searpcNamedPipeSend S.endian S.json env junk (utf8 service) text reply).out
            (utf8 service, text) := by
  have htext := fcallToStr_same (J := S.json) hf hsame hargs
  have harray := callArray_good hJ hf hgood
  have hstub : NoNul (stubFcallStr fname args) := noNul_dumps (proper_call hf hargs)
  refine ⟨_, htext, hJ.array _ true harray, loadb_stub hJ hpy hf hargs hgood, ?_, ?_⟩
  · rintro evs reply r rfl hraised hleft
    have hdec := requestFromJson_body hJ hpy hs hstub
    rcases send_out S.endian (Nat.lt_trans hpylen (by decide)) evs reply with hr | hout
    · exact absurd hr hraised
    · rw [hleft, List.append_nil] at hout
      rw [hout]
      exact oneCall_frame hdec (List.length_pos_iff.mpr (bodyUtf8_ne_nil _ _)) hpylen
  · intro env junk reply hnf
    have hlen := hclen _ htext
    have hcall : Text (S.json.dumps (.arr (callArray fname args)) true) :=
      ⟨hutf _ true harray, hJ.text_no_nul _ _⟩
    rw [searpcNamedPipeSend_out hnf, requestBytes_frame hJ _ (Nat.lt_trans hlen (by decide))]
    refine oneCall_frame (requestFromJson_requestToJson hJ (text_utf8 hs) hcall) ?_ hlen
    exact List.length_pos_iff.mpr (hJ.text_ne_nil _ _)

/-- An integer, `None`, a string with a quote, an accent and a character above
    U+FFFF, and a list with a dict. -/
def sampleArgs : List PyValue :=
  [.int (-1), .none, .str ['"', Char.ofNat 0xE9, Char.ofNat 0x1F600],
    .list [.int 1, .dict [(['k'], .none)]]]

def sampleParams : List Param :=
  [.int64 (-1), .string none, .string (some (utf8 ['"', Char.ofNat 0xE9, Char.ofNat 0x1F600])),
    .json (some (PyValue.list [.int 1, .dict [(['k'], .none)]]).json)]

/-- Both clients' requests with these arguments. -/
theorem clients_interchangeable_sample :
    ∃ text, fcallToStr textCodec (ascii "f") (sampleParams.map .param) = some text
      ∧ textCodec.loadb text = textCodec.loadb (utf8 (stubFcallStr ['f'] sampleArgs))
      ∧ OneCall echoServer (namedPipeTransportSend .little ['s'] (stubFcallStr ['f'] sampleArgs)
          [.chunk 3, .chunk 1000] []).out (ascii "s", utf8 (stubFcallStr ['f'] sampleArgs))
      ∧ OneCall echoServer (searpcNamedPipeSend .little textCodec .smooth (fill 0) (ascii "s") text
          []).out (ascii "s", text) := by
  have hsame : List.Forall₂ SameValue sampleArgs sampleParams :=
    .cons (.int64 (by decide)) (.cons .null (.cons .string (.cons .json .nil)))
  have hargs : ∀ v ∈ sampleArgs, v.Proper ∧ carried v.json := by
    have h1 : IntRange (-1) ∧ IntRange 1 := by decide
    have hk : NoNul ['k'] ∧ [['k']].Nodup ∧ [utf8 ['k']].Nodup := by decide
    have hstr : NoNul ['"', Char.ofNat 0xE9, Char.ofNat 0x1F600] := by decide
    intro v hv
    simp only [sampleArgs, List.mem_cons, List.not_mem_nil, or_false] at hv
    rcases hv with rfl | rfl | rfl | rfl
    · exact ⟨h1.1, h1.1, by decide⟩
    · exact ⟨trivial, trivial, by decide⟩
    · exact ⟨hstr, text_utf8 hstr, by decide⟩
    · exact ⟨⟨h1.2, ⟨⟨hk.1, trivial, trivial⟩, hk.2.1⟩, trivial⟩,
        ⟨h1.2, ⟨⟨text_utf8 hk.1, trivial, trivial⟩, hk.2.2⟩, trivial⟩, by decide⟩
  have hf : NoNul ['f'] := by decide
  have hproper := fun v hv => (hargs v hv).1
  obtain ⟨text, htext, hload, hstub, hpython, hc⟩ :=
    clients_interchangeable (S := echoServer) textCodec_roundTrips textCodec_printsUtf8
      textCodec_readsPython (show NoNul ['s'] by decide) hf hsame hproper
      (fun v hv => (hargs v hv).2) (by decide +kernel) (by
        intro text htext
        have hsent := fcallToStr_same (J := textCodec) hf hsame hproper
        obtain rfl := Option.some.inj (htext.symm.trans hsent)
        decide +kernel)
  have hphase : (namedPipeTransportSend .little ['s'] (stubFcallStr ['f'] sampleArgs)
      [.chunk 3, .chunk 1000] []).phase = .recvHeader [] := by decide +kernel
  refine ⟨text, htext, hload.trans hstub.symm, ?_, hc .smooth (fill 0) [] noFail_smooth⟩
  refine hpython [.chunk 3, .chunk 1000] [] _ rfl ?_ ?_
  · rw [hphase]
    exact Phase.noConfusion
  · rw [hphase]
    rfl

end PyClient
