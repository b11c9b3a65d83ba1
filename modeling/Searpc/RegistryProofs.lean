import Searpc.ServerProofs

/-! # The registry over whole runs — what the history of calls says

    Marshals are first-wins, functions last-wins; creating a service that is
    there does nothing, removing one takes its functions along.  A history is
    the list of calls so far, NEWEST FIRST; three functions read off it which
    marshal a signature means, which services are there and which function a
    name means, and the tables of the server agree with them after every
    sequence of calls. -/

namespace SearpcRegistry

open ByteMemory JsonValue SearpcJansson SearpcServer

variable {F M ρ : Type}

/-! ## Tables -/

theorem lookup_insert {α : Type} (table : Table α) (k key : Bytes) (value : α) :
    lookup (SearpcServer.insert table k value) key
      = if k = key then some value else lookup table key := by
  by_cases hk : k = key
  · rw [if_pos hk, lookup, SearpcServer.insert, List.find?_cons_of_pos (by simpa using hk),
      Option.map_some]
  · rw [if_neg hk, lookup, SearpcServer.insert, List.find?_cons_of_neg (by simpa using hk), lookup]
    congr 1
    induction table with
    | nil => rfl
    | cons e table ih =>
        by_cases he : e.1 = k
        · rw [List.filter_cons_of_neg (by simpa using he), ih,
            List.find?_cons_of_neg (by rw [he]; simpa using hk)]
        · rw [List.filter_cons_of_pos (by simpa using he), List.find?_cons, List.find?_cons, ih]

theorem lookup_remove {α : Type} (table : Table α) (k key : Bytes) :
    lookup (remove table k) key = if k = key then none else lookup table key := by
  induction table with
  | nil => exact (ite_self none).symm
  | cons e table ih =>
      rw [remove] at ih ⊢
      by_cases he : e.1 = k
      · rw [List.filter_cons_of_neg (by simpa using he), ih]
        by_cases hk : k = key
        · rw [if_pos hk, if_pos hk]
        · rw [if_neg hk, if_neg hk, lookup, lookup,
            List.find?_cons_of_neg (by rw [he]; simpa using hk)]
      · rw [List.filter_cons_of_pos (by simpa using he)]
        by_cases hk : e.1 = key
        · have hne : ¬ k = key := fun h => he (hk.trans h.symm)
          rw [if_neg hne, lookup, lookup, List.find?_cons_of_pos (by simpa using hk),
            List.find?_cons_of_pos (by simpa using hk)]
        · rw [lookup, List.find?_cons_of_neg (by simpa using hk), ← lookup, ih, lookup, lookup,
            List.find?_cons_of_neg (by simpa using hk)]

/-! ## Calls and histories -/

/-- A call that changes the registry. -/
inductive Op (F M : Type) where
  | createService (svcName : Bytes)
  | removeService (svcName : Bytes)
  | registerMarshal (signature : Bytes) (marshal : M)
  | registerFunction (svcName : Bytes) (func : F) (fname signature : Bytes)

/-- The registry after a call. -/
def step (R : Registry F M) : Op F M → Registry F M
  | .createService svcName => searpcCreateService R svcName
  | .removeService svcName => searpcRemoveService R svcName
  | .registerMarshal signature marshal => (searpcServerRegisterMarshal R signature marshal).2
  | .registerFunction svcName func fname signature =>
      (searpcServerRegisterFunction R svcName func fname signature).2

/-- The registry after a history, from `searpc_server_init`. -/
def after : List (Op F M) → Registry F M
  | [] => ⟨[], []⟩
  | op :: history => step (after history) op

/-- The first marshal ever registered under a signature. -/
def marshalOf : List (Op F M) → Bytes → Option M
  | [], _ => none
  | .registerMarshal signature marshal :: history, key =>
      (marshalOf history key).or (if signature = key then some marshal else none)
  | .createService _ :: history, key => marshalOf history key
  | .removeService _ :: history, key => marshalOf history key
  | .registerFunction _ _ _ _ :: history, key => marshalOf history key

/-- The service was created, and not removed since. -/
def serviceExists : List (Op F M) → Bytes → Bool
  | [], _ => false
  | .createService svcName :: history, svc => svcName = svc || serviceExists history svc
  | .removeService svcName :: history, svc => svcName ≠ svc && serviceExists history svc
  | .registerMarshal _ _ :: history, svc => serviceExists history svc
  | .registerFunction _ _ _ _ :: history, svc => serviceExists history svc

/-- The implementation and the marshal of the last successful registration of a
    function in a service, since the service was last created from absence. -/
def registration : List (Op F M) → Bytes → Bytes → Option (F × M)
  | [], _, _ => none
  | .createService svcName :: history, svc, fname =>
      if svcName = svc ∧ serviceExists history svc = false then none
      else registration history svc fname
  | .removeService svcName :: history, svc, fname =>
      if svcName = svc then none else registration history svc fname
  | .registerMarshal _ _ :: history, svc, fname => registration history svc fname
  | .registerFunction svcName func name signature :: history, svc, fname =>
      if svcName = svc ∧ name = fname ∧ serviceExists history svc = true then
        match marshalOf history signature with
        | some marshal => some (func, marshal)
        | none => registration history svc fname
      else registration history svc fname

/-! ## What a call does -/

/-- A service that is there stays as it is. -/
theorem createService_cases (R : Registry F M) (svcName : Bytes) :
    (∃ service, lookup R.serviceTable svcName = some service ∧ searpcCreateService R svcName = R)
      ∨ lookup R.serviceTable svcName = none ∧ searpcCreateService R svcName
        = ⟨R.marshalTable, SearpcServer.insert R.serviceTable svcName ⟨svcName, []⟩⟩ := by
  rw [searpcCreateService]
  cases hsvc : lookup R.serviceTable svcName with
  | some service => exact .inl ⟨service, rfl, rfl⟩
  | none => exact .inr ⟨rfl, rfl⟩

/-- So does a marshal. -/
theorem registerMarshal_cases (R : Registry F M) (signature : Bytes) (marshal : M) :
    (∃ mitem, lookup R.marshalTable signature = some mitem
        ∧ (searpcServerRegisterMarshal R signature marshal).2 = R)
      ∨ lookup R.marshalTable signature = none
        ∧ (searpcServerRegisterMarshal R signature marshal).2
          = ⟨SearpcServer.insert R.marshalTable signature ⟨marshal, signature⟩,
              R.serviceTable⟩ := by
  rw [searpcServerRegisterMarshal]
  cases hsig : lookup R.marshalTable signature with
  | some mitem => exact .inl ⟨mitem, rfl, rfl⟩
  | none => exact .inr ⟨rfl, rfl⟩

/-- A function needs its service and a marshal. -/
theorem registerFunction_cases (R : Registry F M) (svcName : Bytes) (func : F)
    (fname signature : Bytes) :
    ((lookup R.serviceTable svcName = none ∨ lookup R.marshalTable signature = none)
        ∧ (searpcServerRegisterFunction R svcName func fname signature).2 = R)
      ∨ ∃ service mitem, lookup R.serviceTable svcName = some service
        ∧ lookup R.marshalTable signature = some mitem
        ∧ (searpcServerRegisterFunction R svcName func fname signature).2
          = ⟨R.marshalTable, SearpcServer.insert R.serviceTable svcName
              ⟨service.name, SearpcServer.insert service.funcTable fname
                ⟨func, fname, mitem⟩⟩⟩ := by
  rw [searpcServerRegisterFunction]
  cases hsvc : lookup R.serviceTable svcName with
  | none => exact .inl ⟨.inl rfl, rfl⟩
  | some service =>
      cases hsig : lookup R.marshalTable signature with
      | none => exact .inl ⟨.inr rfl, rfl⟩
      | some mitem => exact .inr ⟨service, mitem, rfl, rfl, rfl⟩

/-! ## Refinement -/

/-- What a table entry of a function stands for. -/
def FuncItem.pair (item : FuncItem F M) : F × M := (item.func, item.marshal.mfunc)

/-- The tables say what the history says. -/
structure Matches (R : Registry F M) (history : List (Op F M)) : Prop where
  marshals  : ∀ key, (lookup R.marshalTable key).map MarshalItem.mfunc = marshalOf history key
  services  : ∀ svc, (lookup R.serviceTable svc).isSome = serviceExists history svc
  functions : ∀ svc fname, (findFunction R svc fname).map FuncItem.pair
    = registration history svc fname

theorem matches_createService {R : Registry F M} {history : List (Op F M)} (h : Matches R history)
    (svcName : Bytes) :
    Matches (searpcCreateService R svcName) (.createService svcName :: history) := by
  have hexists := h.services svcName
  rcases createService_cases R svcName with ⟨service, hsvc, hsame⟩ | ⟨hsvc, hnew⟩
  · rw [hsvc, Option.isSome_some] at hexists
    rw [hsame]
    refine ⟨h.marshals, fun svc => ?_, fun svc fname => ?_⟩
    · rw [serviceExists, h.services svc]
      by_cases heq : svcName = svc
      · rw [← heq, ← hexists, Bool.or_true]
      · rw [decide_eq_false heq, Bool.false_or]
    · rw [registration, if_neg, h.functions svc fname]
      rintro ⟨rfl, hno⟩
      rw [← hexists] at hno
      cases hno
  · rw [hsvc, Option.isSome_none] at hexists
    rw [hnew]
    refine ⟨h.marshals, fun svc => ?_, fun svc fname => ?_⟩
    · rw [serviceExists, ← h.services svc, lookup_insert]
      by_cases heq : svcName = svc
      · rw [if_pos heq, decide_eq_true heq]
        rfl
      · rw [if_neg heq, decide_eq_false heq, Bool.false_or]
    · rw [registration, findFunction, lookup_insert]
      by_cases heq : svcName = svc
      · rw [if_pos heq, if_pos ⟨heq, by rw [← heq, hexists]⟩]
        rfl
      · rw [if_neg heq, if_neg (fun hand => heq hand.1), ← h.functions svc fname, findFunction]

theorem matches_removeService {R : Registry F M} {history : List (Op F M)} (h : Matches R history)
    (svcName : Bytes) :
    Matches (searpcRemoveService R svcName) (.removeService svcName :: history) := by
  refine ⟨h.marshals, fun svc => ?_, fun svc fname => ?_⟩
  · rw [serviceExists, ← h.services svc, searpcRemoveService, lookup_remove]
    by_cases heq : svcName = svc
    · rw [if_pos heq, decide_eq_false (not_not_intro heq), Bool.false_and]
      rfl
    · rw [if_neg heq, decide_eq_true heq, Bool.true_and]
  · rw [registration, findFunction, searpcRemoveService, lookup_remove]
    by_cases heq : svcName = svc
    · rw [if_pos heq, if_pos heq]
      rfl
    · rw [if_neg heq, if_neg heq, ← h.functions svc fname, findFunction]

theorem matches_registerMarshal {R : Registry F M} {history : List (Op F M)} (h : Matches R history)
    (signature : Bytes) (marshal : M) :
    Matches (searpcServerRegisterMarshal R signature marshal).2
      (.registerMarshal signature marshal :: history) := by
  rcases registerMarshal_cases R signature marshal with ⟨mitem, hsig, hsame⟩ | ⟨hsig, hnew⟩
  · rw [hsame]
    refine ⟨fun key => ?_, h.services, h.functions⟩
    rw [marshalOf, ← h.marshals key]
    by_cases heq : signature = key
    · rw [← heq, hsig]
      rfl
    · rw [if_neg heq, Option.or_none]
  · rw [hnew]
    refine ⟨fun key => ?_, h.services, h.functions⟩
    rw [marshalOf, ← h.marshals key, lookup_insert]
    by_cases heq : signature = key
    · rw [if_pos heq, if_pos heq, ← heq, hsig]
      rfl
    · rw [if_neg heq, if_neg heq, Option.or_none]

theorem matches_registerFunction {R : Registry F M} {history : List (Op F M)}
    (h : Matches R history) (svcName : Bytes) (func : F) (name signature : Bytes) :
    Matches (searpcServerRegisterFunction R svcName func name signature).2
      (.registerFunction svcName func name signature :: history) := by
  have hexists := h.services svcName
  have hmarshal := h.marshals signature
  rcases registerFunction_cases R svcName func name signature with
    ⟨hsvc | hsig, hsame⟩ | ⟨service, mitem, hsvc, hsig, hnew⟩
  · rw [hsvc, Option.isSome_none] at hexists
    rw [hsame]
    refine ⟨h.marshals, h.services, fun svc fname => ?_⟩
    rw [registration, if_neg, h.functions svc fname]
    rintro ⟨rfl, -, hno⟩
    rw [← hexists] at hno
    cases hno
  · rw [hsig, Option.map_none] at hmarshal
    rw [hsame]
    refine ⟨h.marshals, h.services, fun svc fname => ?_⟩
    rw [registration, ← hmarshal, ite_self, h.functions svc fname]
  · rw [hsvc, Option.isSome_some] at hexists
    rw [hsig, Option.map_some] at hmarshal
    rw [hnew]
    refine ⟨h.marshals, fun svc => ?_, fun svc fname => ?_⟩
    · rw [serviceExists, ← h.services svc, lookup_insert]
      by_cases heq : svcName = svc
      · rw [if_pos heq, ← heq, hsvc]
        rfl
      · rw [if_neg heq]
    · have hold := h.functions svc fname
      rw [findFunction] at hold
      rw [registration, ← hmarshal, findFunction, lookup_insert]
      by_cases heq : svcName = svc
      · subst heq
        rw [hsvc] at hold
        rw [if_pos rfl]
        dsimp only at hold ⊢
        rw [lookup_insert]
        by_cases hname : name = fname
        · rw [if_pos hname, if_pos ⟨rfl, hname, hexists.symm⟩]
          rfl
        · rw [if_neg hname, if_neg (fun hand => hname hand.2.1), hold]
      · rw [if_neg heq, if_neg (fun hand => heq hand.1), hold]

/-- One call keeps the tables and the history in step. -/
theorem matches_step {R : Registry F M} {history : List (Op F M)} (h : Matches R history)
    (op : Op F M) : Matches (step R op) (op :: history) := by
  cases op with
  | createService svcName => exact matches_createService h svcName
  | removeService svcName => exact matches_removeService h svcName
  | registerMarshal signature marshal => exact matches_registerMarshal h signature marshal
  | registerFunction svcName func fname signature =>
      exact matches_registerFunction h svcName func fname signature

/-- **THE TABLES REFINE THE HISTORY**, after every sequence of calls. -/
theorem after_matches (history : List (Op F M)) : Matches (after history) history := by
  induction history with
  | nil => exact ⟨fun _ => rfl, fun _ => rfl, fun _ _ => rfl⟩
  | cons op history ih => exact matches_step ih op

/-- The text of an error reply that names what was not found. -/
def notFound (J : Jansson) (code : Int) (what name : Bytes) : Bytes :=
  errorToJson J code (snprintf 255 (what ++ name ++ ascii "."))

/-- **DISPATCH BY HISTORY**: a call that names a function is answered as the
    history says. -/
theorem callFunction_history {R : Registry F M} {history : List (Op F M)} (h : Matches R history)
    {J : Jansson} {func fname : Bytes} {array : Json} (hload : J.loadb func = .ok array)
    (hname : jsonStringValue (jsonArrayGet (some array) 0) = some fname)
    (mfunc : M → F → Json → ρ) (slowLog : Option SlowLog) (clock : Clock) (svcName : Bytes) :
    (searpcServerCallFunction J R mfunc slowLog clock svcName func).outcome
      = if serviceExists history svcName = true then
          match registration history svcName fname with
          | some (impl, marshal) => .ran (mfunc marshal impl array)
          | none => .errorReply 500 (notFound J 500 (ascii "cannot find function ") fname)
        else .errorReply 501 (notFound J 501 (ascii "cannot find service ") svcName) := by
  rw [← h.services svcName, ← h.functions svcName fname, findFunction]
  cases hsvc : lookup R.serviceTable svcName with
  | none =>
      simp only [searpcServerCallFunction, hsvc]
      rfl
  | some service =>
      simp only [searpcServerCallFunction, hsvc, hload, hname, Option.isSome_some, if_true]
      cases lookup service.funcTable fname with
      | none => rfl
      | some fitem => rfl

/-! ## What stays -/

/-- A table with one entry set, at a service. -/
theorem findFunction_insert (R : Registry F M) (svcName : Bytes) (service : Service F M)
    (svc fname : Bytes) :
    findFunction ⟨R.marshalTable, SearpcServer.insert R.serviceTable svcName service⟩ svc fname
      = if svcName = svc then lookup service.funcTable fname else findFunction R svc fname := by
  rw [findFunction, lookup_insert]
  by_cases heq : svcName = svc
  · rw [if_pos heq, if_pos heq]
  · rw [if_neg heq, if_neg heq]
    rfl

/-- No call touches a marshal that is registered. -/
theorem marshalOf_append {history : List (Op F M)} {key : Bytes} {marshal : M}
    (h : marshalOf history key = some marshal) (later : List (Op F M)) :
    marshalOf (later ++ history) key = some marshal := by
  induction later with
  | nil => exact h
  | cons op later ih =>
      cases op with
      | registerMarshal signature other =>
          rw [List.cons_append, marshalOf, ih]
          rfl
      | _ => exact ih

/-- A call that may change what a name means in a service. -/
def Touches (svc fname : Bytes) : Op F M → Prop
  | .removeService svcName => svcName = svc
  | .registerFunction svcName _ name _ => svcName = svc ∧ name = fname
  | _ => False

/-- A service that is not removed stays. -/
theorem serviceExists_append {history : List (Op F M)} {svc fname : Bytes}
    (h : serviceExists history svc = true) {later : List (Op F M)}
    (hlater : ∀ op ∈ later, ¬ Touches svc fname op) :
    serviceExists (later ++ history) svc = true := by
  induction later with
  | nil => exact h
  | cons op later ih =>
      have ih' := ih (fun o ho => hlater o (List.mem_cons_of_mem _ ho))
      cases op with
      | createService svcName =>
          rw [List.cons_append, serviceExists, ih', Bool.or_true]
      | removeService svcName =>
          have hne : svcName ≠ svc := hlater _ List.mem_cons_self
          rw [List.cons_append, serviceExists, ih', decide_eq_true hne]
          rfl
      | _ => exact ih'

/-- A function stays until its name or its service is touched. -/
theorem registration_append {history : List (Op F M)} {svc fname : Bytes} {pair : F × M}
    (h : registration history svc fname = some pair) (hsvc : serviceExists history svc = true)
    {later : List (Op F M)} (hlater : ∀ op ∈ later, ¬ Touches svc fname op) :
    registration (later ++ history) svc fname = some pair := by
  induction later with
  | nil => exact h
  | cons op later ih =>
      have hrest := fun o ho => hlater o (List.mem_cons_of_mem _ ho)
      have hop := hlater op List.mem_cons_self
      cases op with
      | createService svcName =>
          rw [List.cons_append, registration, if_neg, ih hrest]
          rintro ⟨-, hno⟩
          rw [serviceExists_append hsvc hrest] at hno
          cases hno
      | removeService svcName =>
          have hne : ¬ svcName = svc := hop
          rw [List.cons_append, registration, if_neg hne, ih hrest]
      | registerMarshal signature marshal => exact ih hrest
      | registerFunction svcName func name signature =>
          rw [List.cons_append, registration, if_neg, ih hrest]
          exact fun hand => hop ⟨hand.1, hand.2.1⟩

/-- A call of a function that is there runs it. -/
theorem callFunction_ran {R : Registry F M} {svc fname : Bytes} {item : FuncItem F M}
    (h : findFunction R svc fname = some item) {J : Jansson} {func : Bytes} {array : Json}
    (hload : J.loadb func = .ok array)
    (hname : jsonStringValue (jsonArrayGet (some array) 0) = some fname)
    (mfunc : M → F → Json → ρ) (slowLog : Option SlowLog) (clock : Clock) :
    (searpcServerCallFunction J R mfunc slowLog clock svc func).outcome
      = .ran (mfunc item.marshal.mfunc item.func array) := by
  rw [findFunction] at h
  cases hsvc : lookup R.serviceTable svc with
  | none =>
      rw [hsvc] at h
      cases h
  | some service =>
      rw [hsvc] at h
      simp only [searpcServerCallFunction, hsvc, hload, hname, h]

end SearpcRegistry
