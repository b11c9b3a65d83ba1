import Searpc.PyDecodeProofs
import Searpc.PyJsonProofs

/-! # The Python server — `SearpcServer.call_function`

    A call is parsed, its function looked up and run, and whatever it returns
    or raises becomes a reply.  Values are JSON values with text as its UTF-8
    bytes, as the decoders take them; a function is any transformer of some
    world; an exception is known by its `str(e)`, which for an exception that
    is not the server's own may itself raise.

    `findFn_servicesAfter` says which function a call finds, after whatever
    services were created and functions registered.  A client stub that takes
    JSON asks whether what it finds under `ret` is true, where the scalar stubs
    ask whether it is there. -/

namespace PySearpcServer

open ByteMemory JsonValue JsonText PyJson Utf8Text SearpcReply PySearpcDecode

/-- Python's `json` module: a text for every value, and `loads`, which answers
    `none` where it raises. -/
structure JsonModule where
  dumps : Json → PyStr
  loads : Bytes → Option Json

/-! ## `json.dumps` of a parsed value -/

/-- The character a UTF-8 sequence stands for. -/
def charOf : Bytes → Char
  | [a] => Char.ofNat a.toNat
  | [a, b] => Char.ofNat (a.toNat % 32 * 64 + b.toNat % 64)
  | [a, b, c] => Char.ofNat (a.toNat % 16 * 4096 + b.toNat % 64 * 64 + c.toNat % 64)
  | [a, b, c, d] =>
      Char.ofNat (a.toNat % 8 * 262144 + b.toNat % 64 * 4096 + c.toNat % 64 * 64 + d.toNat % 64)
  | _ => Char.ofNat 0xFFFD

/-- The string of some UTF-8 bytes. -/
def decodeUtf8 (s : Bytes) : PyStr := (chars s).map charOf

mutual
/-- `json.dumps`, with the text of a float as a parameter. -/
def dumpsJson (floatRepr : UInt64 → PyStr) : Json → PyStr
  | .null => ['n', 'u', 'l', 'l']
  | .bool true => ['t', 'r', 'u', 'e']
  | .bool false => ['f', 'a', 'l', 's', 'e']
  | .int i => dumpsInt i
  | .real bits => floatRepr bits
  | .str s => dumpsStr (decodeUtf8 s)
  | .arr [] => ['[', ']']
  | .arr (v :: vs) => '[' :: (dumpsJson floatRepr v ++ dumpsJsonElems floatRepr vs)
  | .obj [] => ['\x7b', '\x7d']
  | .obj ((k, v) :: ms) =>
      '\x7b' :: (dumpsStr (decodeUtf8 k)
        ++ (':' :: ' ' :: (dumpsJson floatRepr v ++ dumpsJsonMembers floatRepr ms)))

/-- The text after the first element, closing bracket included. -/
def dumpsJsonElems (floatRepr : UInt64 → PyStr) : List Json → PyStr
  | [] => [']']
  | v :: vs => ',' :: ' ' :: (dumpsJson floatRepr v ++ dumpsJsonElems floatRepr vs)

/-- The text after the first member, closing brace included. -/
def dumpsJsonMembers (floatRepr : UInt64 → PyStr) : List (Bytes × Json) → PyStr
  | [] => ['\x7d']
  | (k, v) :: ms =>
      ',' :: ' ' :: (dumpsStr (decodeUtf8 k)
        ++ (':' :: ' ' :: (dumpsJson floatRepr v ++ dumpsJsonMembers floatRepr ms)))
end

/-- Every character of a text is ASCII. -/
def Ascii (s : PyStr) : Prop := ∀ c ∈ s, c.toNat < 0x80

instance (s : PyStr) : Decidable (Ascii s) :=
  List.decidableBAll (fun c : Char => c.toNat < 0x80) s

theorem ascii_cons {c : Char} (hc : c.toNat < 0x80) {s : PyStr} (h : Ascii s) : Ascii (c :: s) :=
  List.forall_mem_cons.mpr ⟨hc, h⟩

theorem ascii_append {s t : PyStr} (hs : Ascii s) (ht : Ascii t) : Ascii (s ++ t) :=
  List.forall_mem_append.mpr ⟨hs, ht⟩

/-- A text of ASCII characters has as many bytes as characters. -/
theorem Ascii.utf8_length {s : PyStr} (h : Ascii s) : (utf8 s).length = s.length := by
  induction s with
  | nil => rfl
  | cons c s ih =>
      obtain ⟨hc, hs⟩ := List.forall_mem_cons.mp h
      rw [utf8_ascii hc, List.length_cons, List.length_cons, ih hs]

theorem ascii_dumpsStr (s : PyStr) : Ascii (dumpsStr s) := by
  refine ascii_cons (by decide) (ascii_append ?_ (by decide))
  intro c hc
  obtain ⟨d, -, hd⟩ := List.mem_flatMap.mp hc
  have hle : c.toNat ≤ 0x7E := (escapeChar_printable hd).2
  omega

theorem ascii_dumpsInt (i : Int) : Ascii (dumpsInt i) := by
  intro c hc
  obtain ⟨b, hb, rfl⟩ := List.mem_map.mp hc
  have hlt : b.toNat < 0x80 := UInt8.lt_iff_toNat_lt.mp (dumpInt_ascii i b hb)
  have hvalid : b.toNat.isValidChar := Or.inl (by omega)
  rw [Char.ofNat, dif_pos hvalid]
  exact hlt

mutual
/-- **ONLY ASCII**: whatever the value, its text is ASCII if those of floats
    are. -/
theorem ascii_dumpsJson {floatRepr : UInt64 → PyStr} (hf : ∀ bits, Ascii (floatRepr bits)) :
    ∀ v : Json, Ascii (dumpsJson floatRepr v)
  | .null => show Ascii ['n', 'u', 'l', 'l'] by decide
  | .bool true => show Ascii ['t', 'r', 'u', 'e'] by decide
  | .bool false => show Ascii ['f', 'a', 'l', 's', 'e'] by decide
  | .int i => ascii_dumpsInt i
  | .real bits => hf bits
  | .str s => ascii_dumpsStr _
  | .arr [] => show Ascii ['[', ']'] by decide
  | .arr (v :: vs) =>
      ascii_cons (by decide) (ascii_append (ascii_dumpsJson hf v) (ascii_dumpsJsonElems hf vs))
  | .obj [] => show Ascii ['\x7b', '\x7d'] by decide
  | .obj ((_, v) :: ms) =>
      ascii_cons (by decide) (ascii_append (ascii_dumpsStr _) (ascii_cons (by decide)
        (ascii_cons (by decide)
          (ascii_append (ascii_dumpsJson hf v) (ascii_dumpsJsonMembers hf ms)))))

theorem ascii_dumpsJsonElems {floatRepr : UInt64 → PyStr} (hf : ∀ bits, Ascii (floatRepr bits)) :
    ∀ vs : List Json, Ascii (dumpsJsonElems floatRepr vs)
  | [] => show Ascii [']'] by decide
  | v :: vs =>
      ascii_cons (by decide) (ascii_cons (by decide)
        (ascii_append (ascii_dumpsJson hf v) (ascii_dumpsJsonElems hf vs)))

theorem ascii_dumpsJsonMembers {floatRepr : UInt64 → PyStr}
    (hf : ∀ bits, Ascii (floatRepr bits)) :
    ∀ ms : List (Bytes × Json), Ascii (dumpsJsonMembers floatRepr ms)
  | [] => show Ascii ['\x7d'] by decide
  | (_, v) :: ms =>
      ascii_cons (by decide) (ascii_cons (by decide) (ascii_append (ascii_dumpsStr _)
        (ascii_cons (by decide) (ascii_cons (by decide)
          (ascii_append (ascii_dumpsJson hf v) (ascii_dumpsJsonMembers hf ms))))))
end

/-! ## The same text as before -/

/-- No character starts with a continuation byte. -/
def Leads : Bytes → Prop
  | [] => True
  | b :: _ => ¬ (0x80 ≤ b ∧ b ≤ 0xBF)

/-- A lead byte keeps its continuations to itself. -/
theorem chars_group {rest : Bytes} (hrest : Leads rest) (b : UInt8) (cs : Bytes)
    (hcs : ∀ c ∈ cs, 0x80 ≤ c ∧ c ≤ 0xBF) :
    chars (b :: (cs ++ rest)) = (b :: cs) :: chars rest := by
  induction cs generalizing b with
  | nil =>
      cases rest with
      | nil => rfl
      | cons c rest =>
          obtain ⟨w, ws, hw⟩ := chars_cons c rest
          rw [List.nil_append, chars, hw]
          exact if_neg hrest
  | cons c cs ih =>
      obtain ⟨hc, hcs⟩ := List.forall_mem_cons.mp hcs
      rw [List.cons_append, chars, ih c hcs]
      exact if_pos hc

/-- The encoding of a character: its lead byte and its continuations. -/
theorem utf8Encode_char (c : Char) :
    ∃ b cs, utf8Encode c.toNat = b :: cs ∧ ¬ (0x80 ≤ b ∧ b ≤ 0xBF)
      ∧ (∀ d ∈ cs, 0x80 ≤ d ∧ d ≤ 0xBF) ∧ charOf (b :: cs) = c := by
  have hscalar := scalar_toNat c
  rw [Scalar] at hscalar
  have hbyte : ∀ n, n < 256 → (UInt8.ofNat n).toNat = n := fun n hn => by
    rw [UInt8.toNat_ofNat', Nat.mod_eq_of_lt hn]
  have hcont : ∀ n, 0x80 ≤ UInt8.ofNat (0x80 + n % 64) ∧ UInt8.ofNat (0x80 + n % 64) ≤ 0xBF := by
    intro n
    rw [UInt8.le_iff_toNat_le, UInt8.le_iff_toNat_le, hbyte _ (by omega)]
    exact ⟨Nat.le_add_right _ _, show 0x80 + n % 64 ≤ 0xBF by omega⟩
  have hlead : ∀ n, n < 256 → n < 0x80 ∨ 0xC0 ≤ n →
      ¬ (0x80 ≤ UInt8.ofNat n ∧ UInt8.ofNat n ≤ 0xBF) := by
    intro n hn hor hboth
    rw [UInt8.le_iff_toNat_le, UInt8.le_iff_toNat_le, hbyte n hn] at hboth
    have h1 : 0x80 ≤ n := hboth.1
    have h2 : n ≤ 0xBF := hboth.2
    omega
  have hchar : ∀ n, n = c.toNat → Char.ofNat n = c := by
    rintro n rfl
    exact Char.ofNat_toNat c
  rw [utf8Encode]
  split_ifs with h1 h2 h3
  · refine ⟨_, [], rfl, hlead _ (by omega) (.inl h1), by simp, hchar _ ?_⟩
    rw [hbyte _ (by omega)]
  · refine ⟨_, _, rfl, hlead _ (by omega) (.inr (by omega)),
      List.forall_mem_singleton.mpr (hcont _), hchar _ ?_⟩
    rw [hbyte _ (by omega), hbyte _ (by omega)]
    omega
  · refine ⟨_, _, rfl, hlead _ (by omega) (.inr (by omega)),
      List.forall_mem_cons.mpr ⟨hcont _, List.forall_mem_singleton.mpr (hcont _)⟩, hchar _ ?_⟩
    rw [hbyte _ (by omega), hbyte _ (by omega), hbyte _ (by omega)]
    omega
  · refine ⟨_, _, rfl, hlead _ (by omega) (.inr (by omega)),
      List.forall_mem_cons.mpr ⟨hcont _, List.forall_mem_cons.mpr
        ⟨hcont _, List.forall_mem_singleton.mpr (hcont _)⟩⟩, hchar _ ?_⟩
    rw [hbyte _ (by omega), hbyte _ (by omega), hbyte _ (by omega), hbyte _ (by omega)]
    omega

theorem leads_utf8 (s : PyStr) : Leads (utf8 s) := by
  cases s with
  | nil => trivial
  | cons c s =>
      obtain ⟨b, cs, hb, hlead, -, -⟩ := utf8Encode_char c
      rw [utf8_cons, hb]
      exact hlead

/-- A string comes back from its UTF-8 bytes. -/
theorem decodeUtf8_utf8 (s : PyStr) : decodeUtf8 (utf8 s) = s := by
  induction s with
  | nil => rfl
  | cons c s ih =>
      obtain ⟨b, cs, hb, -, hcs, hc⟩ := utf8Encode_char c
      rw [utf8_cons, hb, decodeUtf8, List.cons_append, chars_group (leads_utf8 s) b cs hcs,
        List.map_cons, hc]
      exact congrArg _ ih

mutual
/-- The two printers agree on the values both know. -/
theorem dumpsJson_json (floatRepr : UInt64 → PyStr) :
    ∀ v : PyValue, dumpsJson floatRepr v.json = dumps v
  | .none => rfl
  | .int _ => rfl
  | .str s => congrArg dumpsStr (decodeUtf8_utf8 s)
  | .list [] => rfl
  | .list (v :: vs) => by
      show '[' :: (dumpsJson floatRepr v.json ++ dumpsJsonElems floatRepr (jsonList vs)) = _
      rw [dumpsJson_json floatRepr v, dumpsJsonElems_json floatRepr vs]
      rfl
  | .dict [] => rfl
  | .dict ((k, v) :: ms) => by
      show '\x7b' :: (dumpsStr (decodeUtf8 (utf8 k)) ++ (':' :: ' ' ::
        (dumpsJson floatRepr v.json ++ dumpsJsonMembers floatRepr (jsonMembers ms)))) = _
      rw [decodeUtf8_utf8, dumpsJson_json floatRepr v, dumpsJsonMembers_json floatRepr ms]
      rfl

theorem dumpsJsonElems_json (floatRepr : UInt64 → PyStr) :
    ∀ vs : List PyValue, dumpsJsonElems floatRepr (jsonList vs) = dumpsElems vs
  | [] => rfl
  | v :: vs => by
      rw [jsonList, dumpsJsonElems, dumpsJson_json floatRepr v, dumpsJsonElems_json floatRepr vs]
      rfl

theorem dumpsJsonMembers_json (floatRepr : UInt64 → PyStr) :
    ∀ ms : List (PyStr × PyValue), dumpsJsonMembers floatRepr (jsonMembers ms) = dumpsMembers ms
  | [] => rfl
  | (k, v) :: ms => by
      rw [jsonMembers, dumpsJsonMembers, decodeUtf8_utf8, dumpsJson_json floatRepr v,
        dumpsJsonMembers_json floatRepr ms]
      rfl
end

/-! ## `SearpcServer` -/

/-- What a function ends in: a value, a value that `json.dumps` refuses, or an
    exception, with its `str(e)` unless that raises in turn. -/
inductive FnResult where
  | returned (v : Json)
  | unserialisable
  | raised (str : Option Bytes)

/-- A registered function. -/
abbrev Fn (σ : Type) := List Json → σ → σ × FnResult

/-- A dict by its items. -/
abbrev Dict (α : Type) := List (Bytes × α)

/-- `d.get(key)`. -/
def dictGet {α : Type} (d : Dict α) (key : Bytes) : Option α :=
  (d.find? (fun m => m.1 = key)).map Prod.snd

/-- `d[key] = value`. -/
def dictSet {α : Type} : Dict α → Bytes → α → Dict α
  | [], key, value => [(key, value)]
  | (k, v) :: d, key, value =>
      if k = key then (k, value) :: d else (k, v) :: dictSet d key value

theorem dictGet_dictSet {α : Type} (d : Dict α) (key key' : Bytes) (value : α) :
    dictGet (dictSet d key value) key' = if key = key' then some value else dictGet d key' := by
  induction d with
  | nil =>
      by_cases hkey : key = key'
      · simp [dictSet, dictGet, hkey]
      · simp [dictSet, dictGet, hkey]
  | cons m d ih =>
      obtain ⟨k, v⟩ := m
      rw [dictSet]
      by_cases hk : k = key
      · rw [if_pos hk]
        by_cases hkey : key = key'
        · simp [dictGet, hk, hkey]
        · simp [dictGet, hk, hkey]
      · rw [if_neg hk]
        by_cases hother : k = key'
        · have hne : key ≠ key' := fun h => hk (hother.trans h.symm)
          simp [dictGet, hother, hne]
        · simpa [dictGet, hother] using ih

variable {σ : Type}

/-- `SearpcServer.services`: each service by its `func_table`. -/
abbrev Services (σ : Type) := Dict (Dict (Fn σ))

/-- `SearpcServer.create_service`. -/
def createService (services : Services σ) (svcname : Bytes) : Services σ :=
  dictSet services svcname []

/-- `SearpcServer.register_function`; the function's `__name__` stands in for a
    missing name.  Absent where it raises. -/
def registerFunction (services : Services σ) (svcname : Bytes) (fn : Fn σ) (name : Bytes)
    (fname : Option Bytes) : Option (Services σ) :=
  (dictGet services svcname).map
    (fun funcTable => dictSet services svcname (dictSet funcTable (fname.getD name) fn))

/-- The function a service has under a name. -/
def findFn (services : Services σ) (svcname fname : Bytes) : Option (Fn σ) :=
  (dictGet services svcname).bind (fun funcTable => dictGet funcTable fname)

/-- What a program does to its server. -/
inductive ServerOp (σ : Type) where
  | createService (svcname : Bytes)
  | registerFunction (svcname : Bytes) (fn : Fn σ) (name : Bytes) (fname : Option Bytes)

/-- One operation; one that raises leaves the server as it is. -/
def applyOp (services : Services σ) : ServerOp σ → Services σ
  | .createService svcname => createService services svcname
  | .registerFunction svcname fn name fname =>
      (registerFunction services svcname fn name fname).getD services

/-- The server after the operations of a program, the latest first. -/
def servicesAfter : List (ServerOp σ) → Services σ
  | [] => []
  | op :: earlier => applyOp (servicesAfter earlier) op

/-- The service has been created. -/
def created (svcname : Bytes) : List (ServerOp σ) → Bool
  | [] => false
  | .createService svcname' :: earlier => svcname' = svcname || created svcname earlier
  | .registerFunction _ _ _ _ :: earlier => created svcname earlier

/-- The last function registered under the name, since the service was last
    created. -/
def lastRegistered (svcname fname : Bytes) : List (ServerOp σ) → Option (Fn σ)
  | [] => none
  | .createService svcname' :: earlier =>
      if svcname' = svcname then none else lastRegistered svcname fname earlier
  | .registerFunction svcname' fn name fname' :: earlier =>
      if svcname' = svcname ∧ fname'.getD name = fname ∧ created svcname earlier = true then some fn
      else lastRegistered svcname fname earlier

theorem dictGet_servicesAfter (svcname : Bytes) (history : List (ServerOp σ)) :
    (dictGet (servicesAfter history) svcname).isSome = created svcname history := by
  induction history with
  | nil => rfl
  | cons op earlier ih =>
      cases op with
      | createService svcname' =>
          rw [servicesAfter, applyOp, createService, dictGet_dictSet, created]
          by_cases hsvc : svcname' = svcname
          · simp [hsvc]
          · simp [hsvc, ih]
      | registerFunction svcname' fn name fname =>
          rw [servicesAfter, applyOp, registerFunction, created, ← ih]
          cases htable : dictGet (servicesAfter earlier) svcname' with
          | none => rfl
          | some funcTable =>
              show (dictGet (dictSet _ svcname' _) svcname).isSome = _
              rw [dictGet_dictSet]
              by_cases hsvc : svcname' = svcname
              · rw [if_pos hsvc, ← hsvc, htable]
                rfl
              · rw [if_neg hsvc]

/-- **EVERY HISTORY OF A SERVER**: a call finds the function that was registered
    last under its name, in the service as it was last created. -/
theorem findFn_servicesAfter (svcname fname : Bytes) (history : List (ServerOp σ)) :
    findFn (servicesAfter history) svcname fname = lastRegistered svcname fname history := by
  induction history with
  | nil => rfl
  | cons op earlier ih =>
      cases op with
      | createService svcname' =>
          rw [servicesAfter, applyOp, createService, lastRegistered, findFn, dictGet_dictSet]
          by_cases hsvc : svcname' = svcname
          · rw [if_pos hsvc, if_pos hsvc]
            rfl
          · rw [if_neg hsvc, if_neg hsvc]
            exact ih
      | registerFunction svcname' fn name fname' =>
          have hcreated := dictGet_servicesAfter svcname earlier
          rw [servicesAfter, applyOp, registerFunction, lastRegistered, ← hcreated, ← ih]
          cases htable : dictGet (servicesAfter earlier) svcname' with
          | none =>
              -- the service is missing, and the operation raises
              rw [if_neg]
              · rfl
              · rintro ⟨rfl, -, hsome⟩
                rw [htable] at hsome
                cases hsome
          | some funcTable =>
              show findFn (dictSet _ svcname' _) svcname fname = _
              rw [findFn, dictGet_dictSet]
              by_cases hsvc : svcname' = svcname
              · subst hsvc
                rw [if_pos rfl, htable, findFn, htable]
                show dictGet (dictSet funcTable _ fn) fname = _
                rw [dictGet_dictSet]
                simp
              · rw [if_neg hsvc, if_neg (fun h => hsvc h.1), findFn]

/-- How `_call_function` raises: the parse, the service, the name and the rest
    of the call, a name that is no key, a name without function, the function. -/
inductive Raised where
  | badCall (fcallstr : Json)
  | noService (svcname : Json)
  | noName (argv : Json)
  | notKey (fname : Json)
  | noFunction (fname : Json)
  | byFunction (str : Option Bytes)

/-- Python's own texts: of its exceptions, and of `'%s' % fname`. -/
structure Texts where
  parse     : Json → Bytes
  lookup    : Json → Bytes
  subscript : Json → Bytes
  format    : Json → Bytes

/-- `str(e)`, absent where it raises. -/
def Texts.str (T : Texts) : Raised → Option Bytes
  | .badCall fcallstr => some (ascii "bad call str: " ++ T.parse fcallstr)
  | .noService svcname => some (T.lookup svcname)
  | .noName argv => some (T.subscript argv)
  | .notKey fname => some (T.lookup fname)
  | .noFunction fname => some (ascii "No such funtion " ++ T.format fname)
  | .byFunction str => str

/-- `json.loads(fcallstr)`: only text can be parsed. -/
def parseCall (M : JsonModule) : Json → Option Json
  | .str s => M.loads s
  | _ => none

/-- `argv[0]` and `argv[1:]`. -/
def nameAndArgs : Json → Option (Json × List Json)
  | .arr (v :: vs) => some (v, vs)
  | .str s =>
      match chars s with
      | c :: cs => some (.str c, cs.map .str)
      | [] => none
  | _ => none

/-- `service.func_table.get(fname, None)`: the keys are strings, and lists and
    dicts cannot be looked up. -/
def getFn (funcTable : Dict (Fn σ)) : Json → Except Raised (Fn σ)
  | .str s =>
      match dictGet funcTable s with
      | some fn => .ok fn
      | none => .error (.noFunction (.str s))
  | .arr vs => .error (.notKey (.arr vs))
  | .obj ms => .error (.notKey (.obj ms))
  | fname => .error (.noFunction fname)

/-- `self.services[svcname]`. -/
def getService (services : Services σ) : Json → Except Raised (Dict (Fn σ))
  | .str s =>
      match dictGet services s with
      | some funcTable => .ok funcTable
      | none => .error (.noService (.str s))
  | svcname => .error (.noService svcname)

/-- `_call_function` up to the call: the function and its arguments. -/
def resolve (M : JsonModule) (services : Services σ) (svcname fcallstr : Json) :
    Except Raised (Fn σ × List Json) :=
  match parseCall M fcallstr with
  | none => .error (.badCall fcallstr)
  | some argv => do
      let funcTable ← getService services svcname
      match nameAndArgs argv with
      | none => .error (.noName argv)
      | some (fname, args) => do
          let fn ← getFn funcTable fname
          return (fn, args)

/-- `_call_function`; no value where `json.dumps` is going to refuse it. -/
def callFunctionOrRaise (M : JsonModule) (services : Services σ) (w : σ)
    (svcname fcallstr : Json) : σ × Except Raised (Option Json) :=
  match resolve M services svcname fcallstr with
  | .error e => (w, .error e)
  | .ok (fn, args) =>
      let r := fn args w
      match r.2 with
      | .returned v => (r.1, .ok (some v))
      | .unserialisable => (r.1, .ok none)
      | .raised str => (r.1, .error (.byFunction str))

/-- `{'err_code': 555, 'err_msg': str(e)}`. -/
def errorReply (msg : Bytes) : Json :=
  .obj [(ascii "err_code", .int 555), (ascii "err_msg", .str msg)]

/-- `{'ret': retVal}`. -/
def valueReply (v : Json) : Json := .obj [(ascii "ret", v)]

/-- `SearpcServer.call_function`: the text of the reply, absent where it
    raises. -/
def callFunction (M : JsonModule) (T : Texts) (services : Services σ) (w : σ)
    (svcname fcallstr : Json) : σ × Option PyStr :=
  let r := callFunctionOrRaise M services w svcname fcallstr
  (r.1,
    match r.2 with
    | .error e => (T.str e).map (fun msg => M.dumps (errorReply msg))
    | .ok v => v.map (fun v => M.dumps (valueReply v)))

/-! ## Stubs -/

/-- `newfunc`, the stub `searpc_func` makes for a function name. -/
def newfunc (M : JsonModule) (type : RpcType) (callRemoteFuncSync : Bytes → Bytes)
    (name : Bytes) (args : List Json) : Except PyError PyRet :=
  fret M.loads (callRemoteFuncSync (utf8 (M.dumps (.arr (.str name :: args))))) type

/-- The value a stub gives its caller. -/
def PyRet.Is (v : Json) : Except PyError PyRet → Prop
  | .ok (.value v') => v' = v
  | .ok .none => v = .null
  | _ => False

/-- A call text that parses back runs the function it names. -/
theorem callFunction_returned {M : JsonModule} (T : Texts) {services : Services σ} {w w' : σ}
    {svcname name : Bytes} {fn : Fn σ} {args : List Json} {v : Json} {fcallstr : Bytes}
    (hfind : findFn services svcname name = some fn) (hfn : fn args w = (w', .returned v))
    (hload : M.loads fcallstr = some (.arr (.str name :: args))) :
    callFunction M T services w (.str svcname) (.str fcallstr)
      = (w', some (M.dumps (valueReply v))) := by
  obtain ⟨funcTable, hservice, hfunc⟩ := Option.bind_eq_some_iff.mp hfind
  have hresolve : resolve M services (.str svcname) (.str fcallstr) = .ok (fn, args) := by
    simp only [resolve, parseCall, hload, getService, hservice, nameAndArgs, getFn, bind,
      Except.bind, hfunc]
    rfl
  simp only [callFunction, callFunctionOrRaise, hresolve, hfn]
  rfl

/-- What the JSON stub makes of a value reply. -/
theorem fretJson_valueReply {loads : Bytes → Option Json} {retStr : Bytes} {v : Json}
    (h : loads retStr = some (valueReply v)) :
    fret loads retStr .json = .ok (if truthy v then .value v else .none) := by
  have hne : ascii "ret" ≠ ascii "err_code" := by decide
  have hcommon : fretCommon loads retStr = .ok (valueReply v) := by
    simp only [fretCommon, h, valueReply, contains, memberGet_cons, if_neg hne, memberGet_nil]
    rfl
  have hsub : subscript (valueReply v) (.str (ascii "ret")) = .ok v := by
    simp only [valueReply, subscript, memberGet_cons, if_pos]
  rw [fret_eq, hcommon]
  show fretTail .json (valueReply v) = _
  rw [fretTail, hsub]
  cases htrue : truthy v <;> simp only [bind, Except.bind, htrue] <;> rfl

/-- **JSON CALLS IN PYTHON, EXACTLY**: a stub for a JSON function gives its caller
    the value the function returned if and only if that value is `None` or
    true in Python. -/
theorem newfunc_json_iff {M : JsonModule} (T : Texts) {services : Services σ} {w w' : σ}
    {svcname name : Bytes} {fn : Fn σ} {args : List Json} {v : Json}
    {callRemoteFuncSync : Bytes → Bytes} (hfind : findFn services svcname name = some fn)
    (hfn : fn args w = (w', .returned v))
    (hcall : M.loads (utf8 (M.dumps (.arr (.str name :: args)))) = some (.arr (.str name :: args)))
    (hreply : M.loads (utf8 (M.dumps (valueReply v))) = some (valueReply v))
    (hsend : ∀ fcallstr text, (callFunction M T services w (.str svcname) (.str fcallstr)).2
      = some text → callRemoteFuncSync fcallstr = utf8 text) :
    PyRet.Is v (newfunc M .json callRemoteFuncSync name args) ↔ v = .null ∨ truthy v = true := by
  have hrun := callFunction_returned T hfind hfn hcall
  have htext := hsend _ _ (congrArg Prod.snd hrun)
  rw [newfunc, htext, fretJson_valueReply hreply]
  cases htrue : truthy v with
  | true => exact iff_of_true rfl (.inr rfl)
  | false =>
      show v = .null ↔ _
      simp

/-- The module, for values without floats. -/
def plainJson : JsonModule := ⟨dumpsJson (fun _ => []), load⟩

/-- No texts of exceptions. -/
def noTexts : Texts := ⟨fun _ => [], fun _ => [], fun _ => [], fun _ => []⟩

/-- A function that returns a value, whatever it is called with. -/
def constFn (v : Json) : Fn Unit := fun _ w => (w, .returned v)

/-- A server with one function `f`. -/
def constServices (v : Json) : Services Unit := [(ascii "s", [(ascii "f", constFn v)])]

/-- What a transport delivers that reaches it. -/
def constTransport (v : Json) (fcallstr : Bytes) : Bytes :=
  ((callFunction plainJson noTexts (constServices v) () (.str (ascii "s")) (.str fcallstr)).2.map
    utf8).getD []

theorem constTransport_eq (v : Json) (fcallstr : Bytes) (text : PyStr)
    (h : (callFunction plainJson noTexts (constServices v) () (.str (ascii "s"))
      (.str fcallstr)).2 = some text) : constTransport v fcallstr = utf8 text := by
  rw [constTransport, h]
  rfl

/-- `f ()` returns `{"a": 1}`. -/
theorem newfunc_json_dict :
    PyRet.Is (.obj [(ascii "a", .int 1)])
      (newfunc plainJson .json (constTransport (.obj [(ascii "a", .int 1)])) (ascii "f") []) :=
  (newfunc_json_iff noTexts (show findFn (constServices _) (ascii "s") (ascii "f")
    = some (constFn (.obj [(ascii "a", .int 1)])) from rfl) rfl (by decide +kernel)
    (by decide +kernel) (constTransport_eq _)).mpr (.inr rfl)

/-- `f ()` returns `[]`, and its caller gets `None`. -/
theorem newfunc_json_empty :
    ¬ ∀ v : Json, PyRet.Is v (newfunc plainJson .json (constTransport v) (ascii "f") []) := by
  intro h
  have hnone : newfunc plainJson .json (constTransport (.arr [])) (ascii "f") [] = .ok .none := by
    decide +kernel
  have his := h (.arr [])
  rw [hnone] at his
  cases his

end PySearpcServer
