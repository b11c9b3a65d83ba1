import Searpc.RegistryProofs
import Mathlib.Data.List.Forall2

/-! # What the slow log says — two runs of calls

    The log prints the raw text of a request, and requests carry passwords.  So
    functions can be kept out by name, and the name that counts is that of the
    function that ran: however the request spells it, the registry finds the
    function under its own name (`Keyed`).

    One call adds the entry of a `Logged` call or nothing, and a call of a
    filtered function is never logged.  Two runs in which some calls are
    replaced by others of the same filtered function therefore log the same
    calls, and write the same text. -/

namespace SearpcSlowLog

open ByteMemory JsonValue SearpcJansson SearpcServer SearpcRegistry

variable {F M σ : Type}

/-! ## The text -/

/-- How the log is printed: whether it goes to standard output, `strftime` of a
    `tv_sec` in local time, and microseconds as `"%.3f"` seconds. -/
structure Printer where
  logToStdout : Bool
  strftime    : Int → Bytes
  seconds     : Int → Bytes

/-- `"%.*s"` with the precision `(int) len`.  A negative precision counts as none,
    and the string is printed to its NUL. -/
def percentS (len : Nat) (s : Bytes) : Bytes :=
  if (Int32.ofNat len).toInt < 0 then cstr s else cstr (s.take (Int32.ofNat len).toInt.toNat)

/-- What `print_slow_log_if_necessary` writes for a line. -/
def entryText (P : Printer) (line : LogLine) : Bytes :=
  (if P.logToStdout then ascii "[seafile-slow-rpc] " else [])
    ++ ascii "[" ++ P.strftime (line.start / 1000000) ++ ascii "] \"" ++ cstr line.svcName
    ++ ascii "\" " ++ percentS line.func.length line.func ++ ascii " " ++ P.seconds line.intv
    ++ ascii "\n"

/-! ## Runs -/

/-- A call of `searpc_server_call_function`: the service, the request and the
    times at which it starts and ends. -/
structure Call where
  svcName : Bytes
  func    : Bytes
  clock   : Clock

/-- The world the functions act on, and the text of the log. -/
structure State (σ : Type) where
  world : σ
  text  : Bytes

/-- What stays the same during a run: the codec, the calls that made the registry,
    what running a marshal does to the world and returns, the filter and the
    threshold, and how the log is printed. -/
structure Server (F M σ : Type) where
  json    : Jansson
  history : List (Op F M)
  mfunc   : M → F → Json → σ → σ × Bytes
  slowLog : SlowLog
  printer : Printer

section

variable (S : Server F M σ)

def Server.registry : Registry F M := after S.history

/-- The call itself, with slow logging on. -/
def Server.call (c : Call) : Called (σ → σ × Bytes) :=
  searpcServerCallFunction S.json S.registry S.mfunc (some S.slowLog) c.clock c.svcName c.func

/-- What a call does. -/
def Server.serve (s : State σ) (c : Call) : State σ where
  world :=
    match (S.call c).outcome with
    | .ran run => (run s.world).1
    | _ => s.world
  text :=
    match (S.call c).log with
    | some line => s.text ++ entryText S.printer line
    | none => s.text

/-- A run of calls. -/
def Server.run (s : State σ) (calls : List Call) : State σ := calls.foldl S.serve s

/-- The request is an array whose first element is the name, escaped as it may
    be. -/
def Server.Names (func name : Bytes) : Prop :=
  ∃ spelled rest, S.json.loadb func = .ok (.arr (.str spelled :: rest)) ∧ cstr spelled = name

/-- The function a request runs. -/
def Server.ranFunction (svcName func : Bytes) : Option (FuncItem F M) :=
  match S.json.loadb func with
  | .ok (.arr (.str spelled :: _)) => findFunction S.registry svcName (cstr spelled)
  | _ => none

/-- A call that runs a function that is not filtered, and for long enough. -/
def Server.Logged (c : Call) : Prop :=
  ∃ item ∈ S.ranFunction c.svcName c.func, item.fname ∉ S.slowLog.filteredFuncs
    ∧ S.slowLog.threshold ≤ (c.clock.finish - c.clock.start).tdiv 1000

instance (c : Call) : Decidable (S.Logged c) :=
  inferInstanceAs (Decidable (∃ item ∈ S.ranFunction c.svcName c.func, _))

/-- The entry of a call. -/
def Server.entry (c : Call) : Bytes :=
  entryText S.printer ⟨c.clock.start, c.svcName, c.func, c.clock.finish - c.clock.start⟩

/-- Two calls of the same service at the same times, with the same request or
    with requests that name the same filtered function. -/
structure Server.SameCall (c c' : Call) : Prop where
  svcName : c.svcName = c'.svcName
  clock   : c.clock = c'.clock
  func    : c.func = c'.func
    ∨ ∃ name ∈ S.slowLog.filteredFuncs, S.Names c.func name ∧ S.Names c'.func name

end

/-! ## Names in the registry -/

/-- What is found under a name has that name. -/
def Keyed (R : Registry F M) : Prop :=
  ∀ svc fname item, findFunction R svc fname = some item → item.fname = fname

theorem keyed_step {R : Registry F M} (h : Keyed R) (op : Op F M) : Keyed (step R op) := by
  intro svc fname item hfind
  cases op with
  | createService svcName =>
      rw [step] at hfind
      rcases createService_cases R svcName with ⟨service, -, hsame⟩ | ⟨-, hnew⟩
      · rw [hsame] at hfind
        exact h svc fname item hfind
      · rw [hnew, findFunction_insert] at hfind
        by_cases heq : svcName = svc
        · rw [if_pos heq] at hfind
          cases hfind
        · rw [if_neg heq] at hfind
          exact h svc fname item hfind
  | removeService svcName =>
      rw [step, findFunction, searpcRemoveService, lookup_remove] at hfind
      by_cases heq : svcName = svc
      · rw [if_pos heq] at hfind
        cases hfind
      · rw [if_neg heq] at hfind
        exact h svc fname item hfind
  | registerMarshal signature marshal =>
      rw [step] at hfind
      rcases registerMarshal_cases R signature marshal with ⟨mitem, -, hsame⟩ | ⟨-, hnew⟩
      · rw [hsame] at hfind
        exact h svc fname item hfind
      · rw [hnew] at hfind
        exact h svc fname item hfind
  | registerFunction svcName func name signature =>
      rw [step] at hfind
      rcases registerFunction_cases R svcName func name signature with
        ⟨-, hsame⟩ | ⟨service, mitem, hsvc, -, hnew⟩
      · rw [hsame] at hfind
        exact h svc fname item hfind
      · rw [hnew, findFunction_insert] at hfind
        by_cases heq : svcName = svc
        · rw [if_pos heq, lookup_insert] at hfind
          by_cases hname : name = fname
          · rw [if_pos hname] at hfind
            rw [← Option.some.inj hfind]
            exact hname
          · rw [if_neg hname] at hfind
            have hold : findFunction R svc fname = lookup service.funcTable fname := by
              rw [findFunction, ← heq, hsvc]
            exact h svc fname item (hold.trans hfind)
        · rw [if_neg heq] at hfind
          exact h svc fname item hfind

/-- Functions keep their names over every sequence of calls. -/
theorem after_keyed (history : List (Op F M)) : Keyed (after history) := by
  induction history with
  | nil => rintro svc fname item ⟨⟩
  | cons op history ih => exact keyed_step ih op

/-! ## One call -/

section Calls

variable {S : Server F M σ} {c : Call}

theorem rpcIncludePasswd_iff (log : SlowLog) (fname : Bytes) :
    rpcIncludePasswd log fname = true ↔ fname ∈ log.filteredFuncs := by
  rw [rpcIncludePasswd, List.any_eq_true]
  constructor
  · rintro ⟨rpcName, hmem, heq⟩
    exact of_decide_eq_true heq ▸ hmem
  · intro hmem
    exact ⟨fname, hmem, decide_eq_true rfl⟩

theorem ranFunction_array (S : Server F M σ) (svcName : Bytes) {func spelled : Bytes}
    {rest : List Json} (hload : S.json.loadb func = .ok (.arr (.str spelled :: rest))) :
    S.ranFunction svcName func = findFunction S.registry svcName (cstr spelled) := by
  rw [Server.ranFunction, hload]

/-- What runs was named by a string at the front of an array. -/
theorem array_of_ranFunction {svcName func : Bytes} {item : FuncItem F M}
    (h : S.ranFunction svcName func = some item) :
    ∃ spelled rest, S.json.loadb func = .ok (.arr (.str spelled :: rest))
      ∧ findFunction S.registry svcName (cstr spelled) = some item := by
  rw [Server.ranFunction] at h
  split at h
  · next spelled rest hload => exact ⟨spelled, rest, hload, h⟩
  · cases h

/-- The test of the slow log: an empty filter needs no search. -/
theorem log_test (log : SlowLog) (fname : Bytes) (line : Option LogLine) :
    (if log.filteredFuncs = [] ∨ rpcIncludePasswd log fname = false then line else none)
      = if fname ∈ log.filteredFuncs then none else line := by
  by_cases hmem : fname ∈ log.filteredFuncs
  · have hne : log.filteredFuncs ≠ [] := List.ne_nil_of_mem hmem
    have hpasswd := (rpcIncludePasswd_iff log fname).mpr hmem
    rw [if_pos hmem, if_neg (by rw [hpasswd]; simp [hne])]
  · have hpasswd : rpcIncludePasswd log fname = false :=
      Bool.eq_false_iff.mpr (fun h => hmem ((rpcIncludePasswd_iff log fname).mp h))
    rw [if_neg hmem, if_pos (.inr hpasswd)]

/-- A call that runs a function logs it unless it is filtered. -/
theorem call_some {item : FuncItem F M} (h : S.ranFunction c.svcName c.func = some item) :
    (∃ run, (S.call c).outcome = .ran run)
      ∧ (S.call c).log = if item.fname ∈ S.slowLog.filteredFuncs then none
        else printSlowLogIfNecessary S.slowLog c.svcName c.func c.clock.start c.clock.finish := by
  obtain ⟨spelled, rest, hload, hfind⟩ := array_of_ranFunction h
  have hname : jsonStringValue (jsonArrayGet (some (.arr (.str spelled :: rest))) 0)
      = some (cstr spelled) := rfl
  rw [findFunction] at hfind
  cases hsvc : lookup S.registry.serviceTable c.svcName with
  | none =>
      rw [hsvc] at hfind
      cases hfind
  | some service =>
      rw [hsvc] at hfind
      dsimp only at hfind
      simp only [Server.call, searpcServerCallFunction, hsvc, hload, hname, hfind, log_test]
      exact ⟨⟨_, rfl⟩, trivial⟩

/-- Any other call runs nothing and logs nothing. -/
theorem call_none (h : S.ranFunction c.svcName c.func = none) :
    (∀ run, (S.call c).outcome ≠ .ran run) ∧ (S.call c).log = none := by
  cases hsvc : lookup S.registry.serviceTable c.svcName with
  | none =>
      simp only [Server.call, searpcServerCallFunction, hsvc]
      exact ⟨by rintro run ⟨⟩, trivial⟩
  | some service =>
      cases hload : S.json.loadb c.func with
      | error text =>
          simp only [Server.call, searpcServerCallFunction, hsvc, hload]
          exact ⟨by rintro run ⟨⟩, trivial⟩
      | ok array =>
          cases hname : jsonStringValue (jsonArrayGet (some array) 0) with
          | none =>
              simp only [Server.call, searpcServerCallFunction, hsvc, hload, hname]
              exact ⟨by rintro run ⟨⟩, trivial⟩
          | some fname =>
              obtain ⟨spelled, rest, rfl, rfl⟩ := jsonStringValue_head hname
              rw [ranFunction_array S c.svcName hload, findFunction, hsvc] at h
              dsimp only at h
              simp only [Server.call, searpcServerCallFunction, hsvc, hload, hname, h]
              exact ⟨by rintro run ⟨⟩, trivial⟩

/-- **ONE CALL** runs a function exactly when its request names one that is
    registered, and adds an entry to the log exactly when it is logged. -/
theorem call_step (S : Server F M σ) (s : State σ) (c : Call) :
    ((∃ run, (S.call c).outcome = .ran run) ↔ (S.ranFunction c.svcName c.func).isSome)
      ∧ (S.serve s c).text = s.text ++ if S.Logged c then S.entry c else [] := by
  cases h : S.ranFunction c.svcName c.func with
  | none =>
      obtain ⟨hrun, hlog⟩ := call_none h
      have hnot : ¬ S.Logged c := by
        rintro ⟨item, hitem, -⟩
        cases h.symm.trans hitem
      refine ⟨iff_of_false (fun ⟨run, hr⟩ => hrun run hr) Bool.false_ne_true, ?_⟩
      rw [Server.serve, hlog, if_neg hnot, List.append_nil]
  | some item =>
      obtain ⟨hrun, hlog⟩ := call_some h
      have hlogged : S.Logged c ↔ item.fname ∉ S.slowLog.filteredFuncs
          ∧ S.slowLog.threshold ≤ (c.clock.finish - c.clock.start).tdiv 1000 := by
        constructor
        · rintro ⟨item', hitem, htest⟩
          obtain rfl := Option.some.inj (h.symm.trans hitem)
          exact htest
        · intro htest
          exact ⟨item, h, htest⟩
      refine ⟨iff_of_true hrun rfl, ?_⟩
      rw [Server.serve, hlog]
      by_cases hfiltered : item.fname ∈ S.slowLog.filteredFuncs
      · rw [if_pos hfiltered, if_neg (fun hl => (hlogged.mp hl).1 hfiltered), List.append_nil]
      · rw [if_neg hfiltered, printSlowLogIfNecessary]
        by_cases hfast : (c.clock.finish - c.clock.start).tdiv 1000 < S.slowLog.threshold
        · rw [if_pos hfast, if_neg (fun hl => absurd (hlogged.mp hl).2 (Int.not_le.mpr hfast)),
            List.append_nil]
        · rw [if_neg hfast, if_pos (hlogged.mpr ⟨hfiltered, Int.not_lt.mp hfast⟩)]
          rfl

/-- **A FILTERED FUNCTION IS NOT LOGGED**, however the request names it. -/
theorem not_logged_of_names {name : Bytes}
    (hname : name ∈ S.slowLog.filteredFuncs) (hnames : S.Names c.func name) : ¬ S.Logged c := by
  obtain ⟨spelled, rest, hload, rfl⟩ := hnames
  rintro ⟨item, hran, hfiltered, -⟩
  have hfind := (ranFunction_array S c.svcName hload).symm.trans hran
  exact hfiltered (after_keyed S.history c.svcName (cstr spelled) item hfind ▸ hname)

end Calls

/-! ## Two runs -/

section Runs

variable {S : Server F M σ}

/-- **A RUN** appends the entries of its logged calls. -/
theorem run_text (s : State σ) (calls : List Call) :
    (S.run s calls).text = s.text ++ (calls.filter (fun c => S.Logged c)).flatMap S.entry := by
  induction calls generalizing s with
  | nil => exact (List.append_nil _).symm
  | cons c calls ih =>
      have hstep := (call_step S s c).2
      rw [Server.run, List.foldl_cons, ← Server.run, ih (S.serve s c), hstep, List.append_assoc]
      by_cases hlogged : S.Logged c
      · rw [if_pos hlogged, List.filter_cons, if_pos (decide_eq_true hlogged), List.flatMap_cons]
      · have hnot : ¬ decide (S.Logged c) = true := fun hl => hlogged (of_decide_eq_true hl)
        rw [if_neg hlogged, List.filter_cons, if_neg hnot]
        rfl

/-- The same calls are logged in both runs. -/
theorem filter_logged_eq {calls calls' : List Call}
    (h : List.Forall₂ S.SameCall calls calls') :
    calls.filter (fun c => S.Logged c) = calls'.filter (fun c => S.Logged c) := by
  induction h with
  | nil => rfl
  | @cons c c' calls calls' hsame _ ih =>
      rcases hsame.func with hfunc | ⟨name, hname, hnames, hnames'⟩
      · have heq : c = c' := by
          obtain ⟨svcName, func, clock⟩ := c
          obtain ⟨svcName', func', clock'⟩ := c'
          obtain rfl : svcName = svcName' := hsame.svcName
          obtain rfl : func = func' := hfunc
          obtain rfl : clock = clock' := hsame.clock
          rfl
        rw [heq, List.filter_cons, List.filter_cons, ih]
      · have hnot : ¬ decide (S.Logged c) = true := fun hl =>
          not_logged_of_names hname hnames (of_decide_eq_true hl)
        have hnot' : ¬ decide (S.Logged c') = true := fun hl =>
          not_logged_of_names hname hnames' (of_decide_eq_true hl)
        rw [List.filter_cons, List.filter_cons, if_neg hnot, if_neg hnot', ih]

/-- **FILTERED FUNCTIONS DO NOT LEAK** into the slow log: two runs of calls that
    differ only in the requests of filtered functions write the same text,
    whatever the worlds they start in; and the text has one entry, in call
    order, for exactly the calls that ran a registered function that is not
    filtered and lasted at least the threshold.  The keys of the registry are
    live, as they are when no function was registered again
    (`SearpcRegistryCells.callFunction_agree`). -/
theorem slowLog_hides_filtered (S : Server F M σ) {calls calls' : List Call}
    (h : List.Forall₂ S.SameCall calls calls') (w w' : σ) :
    (S.run ⟨w, []⟩ calls).text = (S.run ⟨w', []⟩ calls').text
      ∧ (S.run ⟨w, []⟩ calls).text
        = (calls.filter (fun c => S.Logged c)).flatMap S.entry
      ∧ ∀ c, (∃ run, (S.call c).outcome = .ran run)
        ↔ (S.ranFunction c.svcName c.func).isSome := by
  refine ⟨?_, ?_, ?_⟩
  · rw [run_text, run_text, filter_logged_eq h]
  · rw [run_text]
    rfl
  · intro c
    exact (call_step S ⟨w, []⟩ c).1

end Runs

/-- `login`, which is filtered, and `list`; two milliseconds after the epoch. -/
def loginServer : Server Unit Unit Unit where
  json := textCodec
  history :=
    [.registerFunction (ascii "s") () (ascii "list") (ascii "sig"),
      .registerFunction (ascii "s") () (ascii "login") (ascii "sig"),
      .registerMarshal (ascii "sig") (), .createService (ascii "s")]
  mfunc _ _ _ w := (w, ascii "\x7b\"ret\":null\x7d")
  slowLog := ⟨2, [ascii "login"]⟩
  printer := ⟨false, fun _ => ascii "1970/01/01 00:00:00", fun _ => ascii "0.002"⟩

def loginCall (func : String) : Call := ⟨ascii "s", ascii func, ⟨0, 2000⟩⟩

/-- Two spellings of a login, and no trace of either. -/
theorem slowLog_hides_filtered_login :
    (loginServer.run ⟨(), []⟩ [loginCall "[\"login\", \"secret\"]", loginCall "[\"list\"]"]).text
        = (loginServer.run ⟨(), []⟩ [loginCall " [\"log\\u0069n\"]", loginCall "[\"list\"]"]).text
      ∧ (loginServer.run ⟨(), []⟩
          [loginCall "[\"login\", \"secret\"]", loginCall "[\"list\"]"]).text
        = ascii "[1970/01/01 00:00:00] \"s\" [\"list\"] 0.002\n" := by
  have hsame : List.Forall₂ loginServer.SameCall
      [loginCall "[\"login\", \"secret\"]", loginCall "[\"list\"]"]
      [loginCall " [\"log\\u0069n\"]", loginCall "[\"list\"]"] := by
    refine .cons ⟨rfl, rfl, .inr ⟨ascii "login", List.mem_singleton_self _, ?_, ?_⟩⟩
      (.cons ⟨rfl, rfl, .inl rfl⟩ .nil)
    · exact ⟨ascii "login", [.str (ascii "secret")], by decide +kernel, by decide⟩
    · exact ⟨ascii "login", [], by decide +kernel, by decide⟩
  obtain ⟨htext, hentries, -⟩ := slowLog_hides_filtered loginServer hsame () ()
  exact ⟨htext, hentries.trans (by decide +kernel)⟩

end SearpcSlowLog
