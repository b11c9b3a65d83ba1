import Mathlib.Data.List.Nodup
import Searpc.JanssonProofs
import Searpc.Utf8Proofs

/-! # Python's JSON text — `json.dumps` with its defaults

    The Python side prints JSON with a space behind each comma and colon and
    with everything outside printable ASCII as `\u` escapes, in surrogate pairs
    above U+FFFF; the C side prints compact text with raw UTF-8.  The texts
    differ, the values do not: `dumps` spells the same value, so any parser
    that reads all spellings reads both alike. -/

namespace PyJson

open ByteMemory JsonValue JsonText SearpcJansson Utf8Text

/-! ## Values -/

/-- A Python string: its code points, no lone surrogate among them. -/
abbrev PyStr := List Char

/-- The values a call can carry. -/
inductive PyValue where
  | none
  | int (i : Int)
  | str (s : PyStr)
  | list (vs : List PyValue)
  | dict (ms : List (PyStr × PyValue))

mutual
/-- The JSON value a Python value stands for. -/
def PyValue.json : PyValue → Json
  | .none => .null
  | .int i => .int i
  | .str s => .str (utf8 s)
  | .list vs => .arr (jsonList vs)
  | .dict ms => .obj (jsonMembers ms)

def jsonList : List PyValue → List Json
  | [] => []
  | v :: vs => v.json :: jsonList vs

def jsonMembers : List (PyStr × PyValue) → List (Bytes × Json)
  | [] => []
  | (k, v) :: ms => (utf8 k, v.json) :: jsonMembers ms
end

/-- A string without the character NUL. -/
def NoNul (s : PyStr) : Prop := Char.ofNat 0 ∉ s

instance (s : PyStr) : Decidable (NoNul s) := inferInstanceAs (Decidable (¬ _))

mutual
/-- 64-bit integers, strings without NUL, and dicts, whose keys are distinct. -/
def PyValue.Proper : PyValue → Prop
  | .none => True
  | .int i => IntRange i
  | .str s => NoNul s
  | .list vs => ProperList vs
  | .dict ms => ProperMembers ms ∧ (ms.map Prod.fst).Nodup

def ProperList : List PyValue → Prop
  | [] => True
  | v :: vs => v.Proper ∧ ProperList vs

def ProperMembers : List (PyStr × PyValue) → Prop
  | [] => True
  | (k, v) :: ms => NoNul k ∧ v.Proper ∧ ProperMembers ms
end

theorem properList_iff (vs : List PyValue) : ProperList vs ↔ ∀ v ∈ vs, v.Proper := by
  induction vs with
  | nil => simp [ProperList]
  | cons v vs ih => simp [ProperList, ih]

theorem jsonList_eq (vs : List PyValue) : jsonList vs = vs.map PyValue.json := by
  induction vs with
  | nil => rfl
  | cons v vs ih => rw [jsonList, ih, List.map_cons]

theorem jsonMembers_eq (ms : List (PyStr × PyValue)) :
    jsonMembers ms = ms.map (fun m => (utf8 m.1, m.2.json)) := by
  induction ms with
  | nil => rfl
  | cons m ms ih =>
      obtain ⟨k, v⟩ := m
      rw [jsonMembers, ih, List.map_cons]

theorem text_utf8 {s : PyStr} (h : NoNul s) : Text (utf8 s) :=
  ⟨utf8Valid_utf8 s, zero_not_mem_utf8 h⟩

/-! ## The printer -/

/-- `'{0:04x}'.format(n)`. -/
def hex04 (n : Nat) : PyStr :=
  [Nat.digitChar (n / 4096 % 16), Nat.digitChar (n / 256 % 16), Nat.digitChar (n / 16 % 16),
    Nat.digitChar (n % 16)]

/-- One character of a string literal: `ensure_ascii` is on. -/
def escapeChar (c : Char) : PyStr :=
  if c = '"' then ['\\', '"']
  else if c = '\\' then ['\\', '\\']
  else if c = '\n' then ['\\', 'n']
  else if c = '\r' then ['\\', 'r']
  else if c = '\t' then ['\\', 't']
  else if c = '\x0c' then ['\\', 'f']
  else if c = '\x08' then ['\\', 'b']
  else if ' ' ≤ c ∧ c ≤ '~' then [c]
  else if c.toNat < 0x10000 then '\\' :: 'u' :: hex04 c.toNat
  else
    '\\' :: 'u' :: (hex04 (0xD800 + (c.toNat - 0x10000) / 1024)
      ++ '\\' :: 'u' :: hex04 (0xDC00 + (c.toNat - 0x10000) % 1024))

/-- The characters with an escape of two characters, and its second one. -/
def shortEscapes : List (Char × Char) :=
  [('"', '"'), ('\\', '\\'), ('\n', 'n'), ('\r', 'r'), ('\t', 't'), ('\x0c', 'f'), ('\x08', 'b')]

/-- The four forms of an escape. -/
theorem escapeChar_cases (c : Char) :
    (∃ d, (c, d) ∈ shortEscapes ∧ escapeChar c = ['\\', d])
    ∨ (escapeChar c = [c] ∧ c ≠ '"' ∧ c ≠ '\\' ∧ ' ' ≤ c ∧ c ≤ '~')
    ∨ (escapeChar c = '\\' :: 'u' :: hex04 c.toNat ∧ c.toNat < 0x10000)
    ∨ (escapeChar c = '\\' :: 'u' :: (hex04 (0xD800 + (c.toNat - 0x10000) / 1024)
          ++ '\\' :: 'u' :: hex04 (0xDC00 + (c.toNat - 0x10000) % 1024))
        ∧ 0x10000 ≤ c.toNat) := by
  by_cases h1 : c = '"'
  · subst h1; exact Or.inl ⟨'"', by decide, rfl⟩
  by_cases h2 : c = '\\'
  · subst h2; exact Or.inl ⟨'\\', by decide, rfl⟩
  by_cases h3 : c = '\n'
  · subst h3; exact Or.inl ⟨'n', by decide, rfl⟩
  by_cases h4 : c = '\r'
  · subst h4; exact Or.inl ⟨'r', by decide, rfl⟩
  by_cases h5 : c = '\t'
  · subst h5; exact Or.inl ⟨'t', by decide, rfl⟩
  by_cases h6 : c = '\x0c'
  · subst h6; exact Or.inl ⟨'f', by decide, rfl⟩
  by_cases h7 : c = '\x08'
  · subst h7; exact Or.inl ⟨'b', by decide, rfl⟩
  rw [escapeChar, if_neg h1, if_neg h2, if_neg h3, if_neg h4, if_neg h5, if_neg h6, if_neg h7]
  by_cases h8 : ' ' ≤ c ∧ c ≤ '~'
  · rw [if_pos h8]
    exact Or.inr (Or.inl ⟨rfl, h1, h2, h8⟩)
  · rw [if_neg h8]
    by_cases h9 : c.toNat < 0x10000
    · rw [if_pos h9]
      exact Or.inr (Or.inr (Or.inl ⟨rfl, h9⟩))
    · rw [if_neg h9]
      exact Or.inr (Or.inr (Or.inr ⟨rfl, Nat.not_lt.mp h9⟩))

/-- A string literal. -/
def dumpsStr (s : PyStr) : PyStr := '"' :: (s.flatMap escapeChar ++ ['"'])

/-- `int.__repr__`. -/
def dumpsInt (i : Int) : PyStr := (dumpInt i).map (fun b => Char.ofNat b.toNat)

mutual
/-- `json.dumps`. -/
def dumps : PyValue → PyStr
  | .none => ['n', 'u', 'l', 'l']
  | .int i => dumpsInt i
  | .str s => dumpsStr s
  | .list [] => ['[', ']']
  | .list (v :: vs) => '[' :: (dumps v ++ dumpsElems vs)
  | .dict [] => ['\x7b', '\x7d']
  | .dict ((k, v) :: ms) => '\x7b' :: (dumpsStr k ++ (':' :: ' ' :: (dumps v ++ dumpsMembers ms)))

/-- The text after the first element, closing bracket included. -/
def dumpsElems : List PyValue → PyStr
  | [] => [']']
  | v :: vs => ',' :: ' ' :: (dumps v ++ dumpsElems vs)

/-- The text after the first member, closing brace included. -/
def dumpsMembers : List (PyStr × PyValue) → PyStr
  | [] => ['\x7d']
  | (k, v) :: ms => ',' :: ' ' :: (dumpsStr k ++ (':' :: ' ' :: (dumps v ++ dumpsMembers ms)))
end

/-! ## Literals -/

/-- A printable character is one byte. -/
theorem utf8_ascii {c : Char} (h : c.toNat < 0x80) (s : PyStr) :
    utf8 (c :: s) = UInt8.ofNat c.toNat :: utf8 s := by
  rw [utf8_cons, utf8Encode, if_pos h]
  rfl

private theorem hexValue_digitChar {n : Nat} (h : n < 16) :
    hexValue (UInt8.ofNat (Nat.digitChar n).toNat) = some n ∧ (Nat.digitChar n).toNat < 0x80 := by
  interval_cases n <;> decide

/-- Four digits read back. -/
theorem hex4_hex04 {n : Nat} (h : n < 0x10000) (r : Bytes) :
    hex4 (utf8 (hex04 n) ++ r) = some (n, r) := by
  obtain ⟨h1, a1⟩ := hexValue_digitChar (show n / 4096 % 16 < 16 by omega)
  obtain ⟨h2, a2⟩ := hexValue_digitChar (show n / 256 % 16 < 16 by omega)
  obtain ⟨h3, a3⟩ := hexValue_digitChar (show n / 16 % 16 < 16 by omega)
  obtain ⟨h4, a4⟩ := hexValue_digitChar (show n % 16 < 16 by omega)
  rw [hex04, utf8_ascii a1, utf8_ascii a2, utf8_ascii a3, utf8_ascii a4]
  simp only [utf8_nil, List.cons_append, List.nil_append, hex4, h1, h2, h3, h4]
  show some (_, r) = some (n, r)
  congr 2
  omega

/-- A `\u` escape of a character below U+10000. -/
theorem lexUnicode_bmp {u : Nat} (hu : Scalar u) (hpos : u ≠ 0) (hlt : u < 0x10000) (r : Bytes) :
    lexUnicode (utf8 (hex04 u) ++ r) = some (utf8Encode u, r) := by
  rw [Scalar] at hu
  simp only [lexUnicode, hex4_hex04 hlt]
  rw [if_neg hpos, if_neg (by omega), if_neg (by omega)]

/-- A surrogate pair. -/
theorem lexUnicode_pair {hi lo : Nat} (hhi : 0xD800 ≤ hi ∧ hi < 0xDC00)
    (hlo : 0xDC00 ≤ lo ∧ lo < 0xE000) (r : Bytes) :
    lexUnicode (utf8 (hex04 hi) ++ 0x5C :: 0x75 :: (utf8 (hex04 lo) ++ r))
      = some (utf8Encode (0x10000 + (hi - 0xD800) * 1024 + (lo - 0xDC00)), r) := by
  simp only [lexUnicode, hex4_hex04 (show hi < 0x10000 by omega),
    hex4_hex04 (show lo < 0x10000 by omega)]
  rw [if_neg (by omega), if_pos hhi, if_pos hlo]

/-- A backslash and what `lexEscape` makes of the rest. -/
theorem lexString_escaped {n : Nat} {s cs r : Bytes} (h : lexEscape s = some (cs, r)) :
    lexString (n + 1) (0x5C :: s) = (lexString n r).map (fun q => (cs ++ q.1, q.2)) := by
  rw [lexString, if_neg (by decide), if_pos rfl, h]

/-- A printable character stands for itself. -/
theorem lexString_printable {c : Char} (hquote : c ≠ '"') (hback : c ≠ '\\')
    (h : ' ' ≤ c ∧ c ≤ '~') (n : Nat) (r : Bytes) :
    lexString (n + 1) (utf8 [c] ++ r)
      = (lexString n r).map (fun q => (utf8Encode c.toNat ++ q.1, q.2)) := by
  have hlo : 0x20 ≤ c.toNat := h.1
  have hhi : c.toNat ≤ 0x7E := h.2
  have henc : utf8Encode c.toNat = [UInt8.ofNat c.toNat] := by
    rw [utf8Encode, if_pos (by omega)]
  have hnat : (UInt8.ofNat c.toNat).toNat = c.toNat := by
    rw [UInt8.toNat_ofNat']
    omega
  have hne : ∀ d : Char, d.toNat < 256 → c ≠ d →
      UInt8.ofNat c.toNat ≠ UInt8.ofNat d.toNat := by
    intro d hd hcd heq
    have hnum := congrArg UInt8.toNat heq
    rw [hnat, UInt8.toNat_ofNat', Nat.mod_eq_of_lt hd] at hnum
    exact hcd (Char.toNat_inj.mp hnum)
  have h22 : UInt8.ofNat c.toNat ≠ 0x22 := hne '"' (by decide) hquote
  have h5c : UInt8.ofNat c.toNat ≠ 0x5C := hne '\\' (by decide) hback
  have hctl : ¬ UInt8.ofNat c.toNat < 0x20 := by
    rw [UInt8.lt_iff_toNat_lt, hnat]
    exact Nat.not_lt.mpr hlo
  rw [utf8_cons, henc]
  show lexString (n + 1) (UInt8.ofNat c.toNat :: r) = _
  rw [lexString, if_neg h22, if_neg h5c, if_neg hctl]
  rfl

/-- **ONE CHARACTER**: the lexer reads an escaped character as its UTF-8 form. -/
theorem lexString_escapeChar {c : Char} (hc : c ≠ Char.ofNat 0) (n : Nat) (r : Bytes) :
    lexString (n + 1) (utf8 (escapeChar c) ++ r)
      = (lexString n r).map (fun q => (utf8Encode c.toNat ++ q.1, q.2)) := by
  have hscalar := scalar_toNat c
  have hpos : c.toNat ≠ 0 := fun h => hc (by rw [← h, Char.ofNat_toNat])
  rcases escapeChar_cases c with ⟨d, hd, hesc⟩ | ⟨hesc, h1, h2, h8⟩ | ⟨hesc, hlt⟩ | ⟨hesc, hge⟩
  · rw [hesc]
    simp only [shortEscapes, List.mem_cons, Prod.mk.injEq, List.not_mem_nil, or_false] at hd
    rcases hd with ⟨rfl, rfl⟩ | ⟨rfl, rfl⟩ | ⟨rfl, rfl⟩ | ⟨rfl, rfl⟩ | ⟨rfl, rfl⟩ | ⟨rfl, rfl⟩
      | ⟨rfl, rfl⟩ <;> rfl
  · rw [hesc]
    exact lexString_printable h1 h2 h8 n r
  · rw [hesc]
    refine lexString_escaped ?_
    exact lexUnicode_bmp hscalar hpos hlt r
  · -- above U+FFFF: the pair stands for the code point it was made of
    obtain ⟨hi, hhi⟩ : ∃ hi, hi = 0xD800 + (c.toNat - 0x10000) / 1024 := ⟨_, rfl⟩
    obtain ⟨lo, hlo⟩ : ∃ lo, lo = 0xDC00 + (c.toNat - 0x10000) % 1024 := ⟨_, rfl⟩
    rw [Scalar] at hscalar
    have hpair := lexUnicode_pair (show 0xD800 ≤ hi ∧ hi < 0xDC00 by omega)
      (show 0xDC00 ≤ lo ∧ lo < 0xE000 by omega) r
    have hsum : 0x10000 + (hi - 0xD800) * 1024 + (lo - 0xDC00) = c.toNat := by omega
    rw [hsum] at hpair
    have htext : utf8 ('\\' :: 'u' :: (hex04 hi ++ '\\' :: 'u' :: hex04 lo)) ++ r
        = 0x5C :: 0x75 :: (utf8 (hex04 hi) ++ 0x5C :: 0x75 :: (utf8 (hex04 lo) ++ r)) := by
      rw [utf8_ascii (by decide), utf8_ascii (by decide), utf8_append, utf8_ascii (by decide),
        utf8_ascii (by decide)]
      simp only [List.cons_append, List.append_assoc]
      rfl
    rw [hesc, ← hhi, ← hlo, htext]
    exact lexString_escaped hpair

/-- Escaped text is printable ASCII. -/
theorem escapeChar_printable {c d : Char} (h : d ∈ escapeChar c) : ' ' ≤ d ∧ d ≤ '~' := by
  have hhex : ∀ n, d ∈ hex04 n → ' ' ≤ d ∧ d ≤ '~' := by
    intro n hd
    have hdigit : ∀ k, k < 16 → ' ' ≤ Nat.digitChar k ∧ Nat.digitChar k ≤ '~' := by decide
    simp only [hex04, List.mem_cons, List.not_mem_nil, or_false] at hd
    rcases hd with rfl | rfl | rfl | rfl
    · exact hdigit _ (Nat.mod_lt _ (by decide))
    · exact hdigit _ (Nat.mod_lt _ (by decide))
    · exact hdigit _ (Nat.mod_lt _ (by decide))
    · exact hdigit _ (Nat.mod_lt _ (by decide))
  rcases escapeChar_cases c with ⟨x, hx, hesc⟩ | ⟨hesc, -, -, h8⟩ | ⟨hesc, -⟩ | ⟨hesc, -⟩
  · rw [hesc, List.mem_cons, List.mem_singleton] at h
    rcases h with rfl | rfl
    · decide
    · have hall : ∀ p ∈ shortEscapes, ' ' ≤ p.2 ∧ p.2 ≤ '~' := by decide
      exact hall _ hx
  · rw [hesc, List.mem_singleton] at h
    rw [h]
    exact h8
  · rw [hesc, List.mem_cons, List.mem_cons] at h
    rcases h with rfl | rfl | h
    · decide
    · decide
    · exact hhex _ h
  · rw [hesc, List.mem_cons, List.mem_cons, List.mem_append, List.mem_cons, List.mem_cons] at h
    rcases h with rfl | rfl | h | rfl | rfl | h
    · decide
    · decide
    · exact hhex _ h
    · decide
    · decide
    · exact hhex _ h

theorem lexString_dumps (rest : Bytes) :
    ∀ (s : PyStr) (n : Nat), NoNul s → s.length < n →
      lexString n (utf8 (s.flatMap escapeChar) ++ 0x22 :: rest) = some (utf8 s, rest) := by
  intro s
  induction s with
  | nil =>
      intro n _ hn
      obtain ⟨m, rfl⟩ : ∃ m, n = m + 1 := ⟨n - 1, by omega⟩
      rfl
  | cons c s ih =>
      intro n h0 hn
      obtain ⟨m, rfl⟩ : ∃ m, n = m + 1 := ⟨n - 1, by omega⟩
      have hc : c ≠ Char.ofNat 0 := fun h => h0 (h ▸ List.mem_cons_self)
      have hs : NoNul s := fun h => h0 (List.mem_cons_of_mem c h)
      have hlen : s.length < m := by
        rw [List.length_cons] at hn
        omega
      rw [List.flatMap_cons, utf8_append, List.append_assoc, lexString_escapeChar hc,
        ih m hs hlen, utf8_cons]
      rfl

theorem utf8_length (s : PyStr) : s.length ≤ (utf8 s).length := by
  induction s with
  | nil => exact Nat.le_refl _
  | cons c s ih =>
      have hpos : 1 ≤ (utf8Encode c.toNat).length := by
        rw [utf8Encode]
        split_ifs <;> simp
      rw [utf8_cons, List.length_append, List.length_cons]
      omega

theorem escape_dumps_length (s : PyStr) : s.length ≤ (s.flatMap escapeChar).length := by
  induction s with
  | nil => exact Nat.le_refl _
  | cons c s ih =>
      have hpos : 1 ≤ (escapeChar c).length := by
        rcases escapeChar_cases c with ⟨d, -, hesc⟩ | ⟨hesc, -⟩ | ⟨hesc, -⟩ | ⟨hesc, -⟩
        · rw [hesc]
          exact Nat.le_add_left 1 _
        · rw [hesc]
          exact Nat.le_refl 1
        · rw [hesc]
          exact Nat.le_add_left 1 _
        · rw [hesc]
          exact Nat.le_add_left 1 _
      rw [List.flatMap_cons, List.length_append, List.length_cons]
      omega

/-- **LITERALS**: a string printed by Python is a literal for its UTF-8 form. -/
theorem literal_dumpsStr {s : PyStr} (h : NoNul s) : Literal (utf8 s) (utf8 (dumpsStr s)) := by
  refine ⟨utf8 (s.flatMap escapeChar), ?_, ?_, fun rest => ?_⟩
  · rw [dumpsStr, utf8_ascii (by decide), utf8_append]
    rfl
  · refine zero_not_mem_utf8 (fun hmem => ?_)
    obtain ⟨c, -, hc⟩ := List.mem_flatMap.mp hmem
    exact absurd (escapeChar_printable hc).1 (by decide)
  · have hlen : s.length < (utf8 (s.flatMap escapeChar) ++ 0x22 :: rest).length := by
      have h1 := escape_dumps_length s
      have h2 := utf8_length (s.flatMap escapeChar)
      rw [List.length_append, List.length_cons]
      omega
    simp only [parseStr, lexString_dumps rest s _ h hlen]
    rw [if_pos (utf8Valid_utf8 s)]

/-- ASCII bytes read as characters and written again. -/
theorem utf8_map_ofNat {bs : Bytes} (h : ∀ b ∈ bs, b.toNat < 0x80) :
    utf8 (bs.map (fun b => Char.ofNat b.toNat)) = bs := by
  induction bs with
  | nil => rfl
  | cons b bs ih =>
      have hb : b.toNat < 0x80 := h b List.mem_cons_self
      have hchar : (Char.ofNat b.toNat).toNat = b.toNat := by
        have hvalid : b.toNat.isValidChar := Or.inl (by omega)
        rw [Char.ofNat, dif_pos hvalid]
        rfl
      rw [List.map_cons, utf8_ascii (by rw [hchar]; exact hb), hchar, UInt8.ofNat_toNat,
        ih (fun c hc => h c (List.mem_cons_of_mem b hc))]

/-- Digits and the sign are their own bytes. -/
theorem utf8_dumpsInt (i : Int) : utf8 (dumpsInt i) = dumpInt i := by
  refine utf8_map_ofNat (fun b hb => ?_)
  exact UInt8.lt_iff_toNat_lt.mp (dumpInt_ascii i b hb)

mutual
/-- **PYTHON SPELLS ITS VALUES**. -/
theorem dumps_spells : ∀ v : PyValue, v.Proper → Spells v.json (utf8 (dumps v))
  | .none, _ => rfl
  | .int i, h => ⟨h, utf8_dumpsInt i⟩
  | .str _, h => literal_dumpsStr h
  | .list [], _ => rfl
  | .list (v :: vs), h => by
      refine ⟨utf8 (dumps v), utf8 (dumpsElems vs), ?_, dumps_spells v h.1,
        dumpsElems_spells vs h.2⟩
      rw [dumps, utf8_ascii (by decide), utf8_append]
      rfl
  | .dict [], _ => rfl
  | .dict ((k, v) :: ms), h => by
      refine ⟨?_, false, utf8 (dumpsStr k), utf8 (dumps v), utf8 (dumpsMembers ms), ?_,
        literal_dumpsStr h.1.1, dumps_spells v h.1.2.1, dumpsMembers_spells ms h.1.2.2⟩
      · -- distinct keys have distinct encodings
        have hkeys := List.Nodup.map utf8_injective h.2
        rw [List.map_map] at hkeys
        show (jsonMembers ((k, v) :: ms)).map Prod.fst |>.Nodup
        rw [jsonMembers_eq, List.map_map]
        exact hkeys
      · rw [dumps, utf8_ascii (by decide), utf8_append, utf8_ascii (by decide),
          utf8_ascii (by decide), utf8_append]
        rfl

theorem dumpsElems_spells :
    ∀ vs : List PyValue, ProperList vs → SpellsElems (jsonList vs) (utf8 (dumpsElems vs))
  | [], _ => rfl
  | v :: vs, h => by
      refine ⟨false, utf8 (dumps v), utf8 (dumpsElems vs), ?_, dumps_spells v h.1,
        dumpsElems_spells vs h.2⟩
      rw [dumpsElems, utf8_ascii (by decide), utf8_ascii (by decide), utf8_append]
      rfl

theorem dumpsMembers_spells :
    ∀ ms : List (PyStr × PyValue), ProperMembers ms →
      SpellsMembers (jsonMembers ms) (utf8 (dumpsMembers ms))
  | [], _ => rfl
  | (k, v) :: ms, h => by
      refine ⟨false, false, utf8 (dumpsStr k), utf8 (dumps v), utf8 (dumpsMembers ms), ?_,
        literal_dumpsStr h.1, dumps_spells v h.2.1, dumpsMembers_spells ms h.2.2⟩
      rw [dumpsMembers, utf8_ascii (by decide), utf8_ascii (by decide), utf8_append,
        utf8_ascii (by decide), utf8_ascii (by decide), utf8_append]
      rfl
end

/-! ## The C library on Python's text -/

/-- The C library reads Python's text of a list or a dict as that value, when
    it carries the elements. -/
structure ReadsPython (J : Jansson) (Good : Json → Prop) : Prop where
  list : ∀ vs, (PyValue.list vs).Proper → (∀ v ∈ vs, Good v.json) →
    J.loadb (utf8 (dumps (.list vs))) = .ok (PyValue.list vs).json
  dict : ∀ ms, (PyValue.dict ms).Proper → (∀ m ∈ ms, Good m.2.json) →
    J.loadb (utf8 (dumps (.dict ms))) = .ok (PyValue.dict ms).json

/-- **THE HYPOTHESIS IS MET** by JSON text. -/
theorem textCodec_readsPython : ReadsPython textCodec carried where
  list := by
    intro vs hproper hgood
    refine textCodec_loadb (load_spells (dumps_spells _ hproper) ?_ rfl)
    have hd : depthList (jsonList vs) ≤ maxDepth - 1 := by
      rw [jsonList_eq, depthList_le]
      intro v hv
      obtain ⟨u, hu, rfl⟩ := List.mem_map.mp hv
      exact Nat.le_sub_one_of_lt (hgood u hu).2
    simp only [PyValue.json, depth, maxDepth] at hd ⊢
    omega
  dict := by
    intro ms hproper hgood
    refine textCodec_loadb (load_spells (dumps_spells _ hproper) ?_ rfl)
    have hd : depthMembers (jsonMembers ms) ≤ maxDepth - 1 := by
      rw [jsonMembers_eq, depthMembers_le]
      intro m hm
      obtain ⟨u, hu, rfl⟩ := List.mem_map.mp hm
      exact Nat.le_sub_one_of_lt (hgood u hu).2
    simp only [PyValue.json, depth, maxDepth] at hd ⊢
    omega

/-- The C library prints arrays of values it carries as UTF-8. -/
def PrintsUtf8 (J : Jansson) (Good : Json → Prop) : Prop :=
  ∀ vs c, (∀ v ∈ vs, Good v) → utf8Valid (J.dumps (.arr vs) c) = true

theorem textCodec_printsUtf8 : PrintsUtf8 textCodec carried := by
  intro vs c hgood
  refine utf8Valid_dump c (.arr vs) ?_
  exact (encodableList_iff vs).mpr (fun v hv => (hgood v hv).1)

/-- Printed text has no NUL. -/
theorem noNul_dumps {v : PyValue} (h : v.Proper) : NoNul (dumps v) := by
  intro hmem
  refine spells_ne_zero _ _ (dumps_spells v h) (List.mem_flatMap.mpr ⟨_, hmem, ?_⟩)
  decide

end PyJson
