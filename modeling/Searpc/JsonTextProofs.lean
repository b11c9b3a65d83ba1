import Mathlib.Tactic.IntervalCases
import Searpc.JsonValueProofs

/-! # JSON text — a printer, a parser, and their round trip

    A byte-level JSON codec: the printer escapes what a string literal cannot
    hold and leaves other bytes raw, the parser is a recursive descent with a
    nesting limit.  A value has many texts; `Spells` is the relation between
    the two, with compact or spaced separators and any literal the lexer reads
    as the string, and the parser reads every spelling (`load_spells`).  The
    printer's own text is one of them, so `load_dump` is the round trip: every
    value built from null, booleans, 64-bit integers, UTF-8 text without NUL,
    and lists and objects of such values within the nesting limit is read back
    from its text.  Reals are outside this codec. -/

namespace JsonText

open ByteMemory JsonValue

/-! ## The printer -/

/-- A hexadecimal digit, upper case. -/
def hexDigit (n : Nat) : UInt8 := UInt8.ofNat (if n < 10 then 0x30 + n else 0x37 + n)

/-- One byte of a string literal. -/
def escapeByte (b : UInt8) : Bytes :=
  if b = 0x22 then [0x5C, 0x22]
  else if b = 0x5C then [0x5C, 0x5C]
  else if b = 0x08 then [0x5C, 0x62]
  else if b = 0x0C then [0x5C, 0x66]
  else if b = 0x0A then [0x5C, 0x6E]
  else if b = 0x0D then [0x5C, 0x72]
  else if b = 0x09 then [0x5C, 0x74]
  else if b < 0x20 then
    [0x5C, 0x75, 0x30, 0x30, hexDigit (b.toNat / 16), hexDigit (b.toNat % 16)]
  else [b]

/-- A string literal. -/
def dumpStr (s : Bytes) : Bytes := 0x22 :: (s.flatMap escapeByte ++ [0x22])

/-- Decimal digits of a number, most significant first, before `acc`. -/
def decimalAux : Nat → Nat → Bytes → Bytes
  | 0, n, acc => UInt8.ofNat (0x30 + n % 10) :: acc
  | f + 1, n, acc =>
      if n < 10 then UInt8.ofNat (0x30 + n) :: acc
      else decimalAux f (n / 10) (UInt8.ofNat (0x30 + n % 10) :: acc)

/-- The decimal form of a natural number. -/
def decimal (n : Nat) : Bytes := decimalAux n n []

/-- The decimal form of an integer. -/
def dumpInt (i : Int) : Bytes :=
  if i < 0 then 0x2D :: decimal i.natAbs else decimal i.natAbs

/-- The separator between elements, compact or spaced. -/
def comma (compact : Bool) : Bytes := if compact then [0x2C] else [0x2C, 0x20]

/-- The separator between a key and its value. -/
def colon (compact : Bool) : Bytes := if compact then [0x3A] else [0x3A, 0x20]

mutual
/-- The text of a value. -/
def dump (compact : Bool) : Json → Bytes
  | .null => [0x6E, 0x75, 0x6C, 0x6C]
  | .bool true => [0x74, 0x72, 0x75, 0x65]
  | .bool false => [0x66, 0x61, 0x6C, 0x73, 0x65]
  | .int i => dumpInt i
  | .real _ => [0x30, 0x2E, 0x30]
  | .str s => dumpStr s
  | .arr [] => [0x5B, 0x5D]
  | .arr (v :: vs) => 0x5B :: (dump compact v ++ dumpElems compact vs)
  | .obj [] => [0x7B, 0x7D]
  | .obj ((k, v) :: ms) =>
      0x7B :: (dumpStr k ++ colon compact ++ dump compact v ++ dumpMembers compact ms)

/-- The text after the first element, closing bracket included. -/
def dumpElems (compact : Bool) : List Json → Bytes
  | [] => [0x5D]
  | v :: vs => comma compact ++ dump compact v ++ dumpElems compact vs

/-- The text after the first member, closing brace included. -/
def dumpMembers (compact : Bool) : List (Bytes × Json) → Bytes
  | [] => [0x7D]
  | (k, v) :: ms =>
      comma compact ++ dumpStr k ++ colon compact ++ dump compact v ++ dumpMembers compact ms
end

/-! ## The parser -/

/-- JSON white space. -/
def isWs (b : UInt8) : Bool := b == 0x20 || b == 0x09 || b == 0x0A || b == 0x0D

/-- Drop leading white space. -/
def skipWs (s : Bytes) : Bytes := s.dropWhile isWs

/-- Value of a hexadecimal digit. -/
def hexValue (b : UInt8) : Option Nat :=
  if 0x30 ≤ b ∧ b ≤ 0x39 then some (b.toNat - 0x30)
  else if 0x41 ≤ b ∧ b ≤ 0x46 then some (b.toNat - 0x37)
  else if 0x61 ≤ b ∧ b ≤ 0x66 then some (b.toNat - 0x57)
  else none

/-- Four hexadecimal digits. -/
def hex4 : Bytes → Option (Nat × Bytes)
  | a :: b :: c :: d :: rest => do
      let a ← hexValue a
      let b ← hexValue b
      let c ← hexValue c
      let d ← hexValue d
      some (a * 4096 + b * 256 + c * 16 + d, rest)
  | _ => none

/-- UTF-8 of a code point. -/
def utf8Encode (u : Nat) : Bytes :=
  if u < 0x80 then [UInt8.ofNat u]
  else if u < 0x800 then [UInt8.ofNat (0xC0 + u / 64), UInt8.ofNat (0x80 + u % 64)]
  else if u < 0x10000 then
    [UInt8.ofNat (0xE0 + u / 4096), UInt8.ofNat (0x80 + u / 64 % 64),
      UInt8.ofNat (0x80 + u % 64)]
  else
    [UInt8.ofNat (0xF0 + u / 262144), UInt8.ofNat (0x80 + u / 4096 % 64),
      UInt8.ofNat (0x80 + u / 64 % 64), UInt8.ofNat (0x80 + u % 64)]

/-- A `\u` escape, the backslash and the `u` already taken.  Surrogates come
    in pairs and the NUL character is refused. -/
def lexUnicode (s : Bytes) : Option (Bytes × Bytes) :=
  match hex4 s with
  | none => none
  | some (u, rest) =>
      if u = 0 then none
      else if 0xD800 ≤ u ∧ u < 0xDC00 then
        match rest with
        | 0x5C :: 0x75 :: rest' =>
            match hex4 rest' with
            | none => none
            | some (l, rest'') =>
                if 0xDC00 ≤ l ∧ l < 0xE000 then
                  some (utf8Encode (0x10000 + (u - 0xD800) * 1024 + (l - 0xDC00)), rest'')
                else none
        | _ => none
      else if 0xDC00 ≤ u ∧ u < 0xE000 then none
      else some (utf8Encode u, rest)

/-- An escape, the backslash already taken. -/
def lexEscape : Bytes → Option (Bytes × Bytes)
  | [] => none
  | c :: rest =>
      if c = 0x22 then some ([0x22], rest)
      else if c = 0x5C then some ([0x5C], rest)
      else if c = 0x2F then some ([0x2F], rest)
      else if c = 0x62 then some ([0x08], rest)
      else if c = 0x66 then some ([0x0C], rest)
      else if c = 0x6E then some ([0x0A], rest)
      else if c = 0x72 then some ([0x0D], rest)
      else if c = 0x74 then some ([0x09], rest)
      else if c = 0x75 then lexUnicode rest
      else none

/-- The inside of a string literal, up to and including the closing quote. -/
def lexString : Nat → Bytes → Option (Bytes × Bytes)
  | 0, _ => none
  | _ + 1, [] => none
  | n + 1, b :: rest =>
      if b = 0x22 then some ([], rest)
      else if b = 0x5C then
        match lexEscape rest with
        | none => none
        | some (cs, rest') => (lexString n rest').map (fun r => (cs ++ r.1, r.2))
      else if b < 0x20 then none
      else (lexString n rest).map (fun r => (b :: r.1, r.2))

/-- A string token, the opening quote already taken. -/
def parseStr (s : Bytes) : Option (Bytes × Bytes) :=
  match lexString s.length s with
  | none => none
  | some (t, rest) => if utf8Valid t then some (t, rest) else none

/-- A decimal digit. -/
def isDigit (b : UInt8) : Bool := 0x30 ≤ b && b ≤ 0x39

/-- The number a digit string denotes, read after `v`. -/
def digitsValue (v : Nat) (ds : Bytes) : Nat :=
  ds.foldl (fun v d => v * 10 + (d.toNat - 0x30)) v

/-- An unsigned integer literal: no superfluous leading zero, and not the
    start of a real. -/
def parseNat (s : Bytes) : Option (Nat × Bytes) :=
  let ds := s.takeWhile isDigit
  let rest := s.dropWhile isDigit
  if ds = [] then none
  else if ds.head? = some 0x30 ∧ ds.length ≠ 1 then none
  else if rest.head? = some 0x2E ∨ rest.head? = some 0x65 ∨ rest.head? = some 0x45 then none
  else some (digitsValue 0 ds, rest)

/-- An integer literal in the 64-bit range. -/
def parseInt (s : Bytes) : Option (Json × Bytes) :=
  if s.head? = some 0x2D then
    match parseNat s.tail with
    | none => none
    | some (n, rest) => if IntRange (-(n : Int)) then some (.int (-(n : Int)), rest) else none
  else
    match parseNat s with
    | none => none
    | some (n, rest) => if IntRange (n : Int) then some (.int (n : Int), rest) else none

/-- A fixed word at the front of the text. -/
def parseWord (w : Bytes) (v : Json) (s : Bytes) : Option (Json × Bytes) :=
  if s.take w.length = w then some (v, s.drop w.length) else none

mutual
/-- A value, white space before it already dropped; `d` more levels of nesting
    are allowed. -/
def parseValue : Nat → Nat → Bytes → Option (Json × Bytes)
  | 0, _, _ => none
  | _ + 1, 0, _ => none
  | _ + 1, _ + 1, [] => none
  | n + 1, d + 1, b :: rest =>
      if b = 0x22 then (parseStr rest).map (fun r => (.str r.1, r.2))
      else if b = 0x5B then
        if (skipWs rest).head? = some 0x5D then some (.arr [], (skipWs rest).tail)
        else
          match parseValue n d (skipWs rest) with
          | none => none
          | some (v, r) => (parseElems n d r).map (fun r => (.arr (v :: r.1), r.2))
      else if b = 0x7B then
        if (skipWs rest).head? = some 0x7D then some (.obj [], (skipWs rest).tail)
        else
          match parseMember n d (skipWs rest) with
          | none => none
          | some (m, r) =>
              -- a repeated key overwrites, it is not refused
              (parseMembers n d r).map (fun r =>
                (.obj ((m :: r.1).foldl (fun ms m => memberSet ms m.1 m.2) []), r.2))
      else if b = 0x6E then parseWord [0x6E, 0x75, 0x6C, 0x6C] .null (b :: rest)
      else if b = 0x74 then parseWord [0x74, 0x72, 0x75, 0x65] (.bool true) (b :: rest)
      else if b = 0x66 then parseWord [0x66, 0x61, 0x6C, 0x73, 0x65] (.bool false) (b :: rest)
      else parseInt (b :: rest)
termination_by structural n => n

/-- What follows an element: more elements or the closing bracket. -/
def parseElems : Nat → Nat → Bytes → Option (List Json × Bytes)
  | 0, _, _ => none
  | n + 1, d, s =>
      match skipWs s with
      | [] => none
      | b :: rest =>
          if b = 0x5D then some ([], rest)
          else if b = 0x2C then
            match parseValue n d (skipWs rest) with
            | none => none
            | some (v, r) => (parseElems n d r).map (fun r => (v :: r.1, r.2))
          else none
termination_by structural n => n

/-- A key, a colon and a value. -/
def parseMember : Nat → Nat → Bytes → Option ((Bytes × Json) × Bytes)
  | 0, _, _ => none
  | _ + 1, _, [] => none
  | n + 1, d, b :: rest =>
      if b = 0x22 then
        match parseStr rest with
        | none => none
        | some (k, r) =>
            match skipWs r with
            | [] => none
            | c :: r' =>
                if c = 0x3A then (parseValue n d (skipWs r')).map (fun r => ((k, r.1), r.2))
                else none
      else none
termination_by structural n => n

/-- What follows a member: more members or the closing brace. -/
def parseMembers : Nat → Nat → Bytes → Option (List (Bytes × Json) × Bytes)
  | 0, _, _ => none
  | n + 1, d, s =>
      match skipWs s with
      | [] => none
      | b :: rest =>
          if b = 0x7D then some ([], rest)
          else if b = 0x2C then
            match parseMember n d (skipWs rest) with
            | none => none
            | some (m, r) => (parseMembers n d r).map (fun r => (m :: r.1, r.2))
          else none
termination_by structural n => n
end

/-- The deepest nesting the parser accepts. -/
def maxDepth : Nat := 2048

/-- A text holds one array or object and nothing else. -/
def isContainer : Json → Bool
  | .arr _ => true
  | .obj _ => true
  | _ => false

/-- Read a text.  A NUL byte can stand nowhere in it. -/
def load (s : Bytes) : Option Json :=
  if (0 : UInt8) ∈ s then none
  else
    match parseValue s.length maxDepth (skipWs s) with
    | none => none
    | some (v, rest) => if isContainer v ∧ skipWs rest = [] then some v else none

/-! ## What the codec carries -/

mutual
/-- Values the codec reads back, nesting apart. -/
def Encodable : Json → Prop
  | .null => True
  | .bool _ => True
  | .int i => IntRange i
  | .real _ => False
  | .str s => Text s
  | .arr vs => EncodableList vs
  | .obj ms => EncodableMembers ms ∧ (ms.map Prod.fst).Nodup

/-- All elements are encodable. -/
def EncodableList : List Json → Prop
  | [] => True
  | v :: vs => Encodable v ∧ EncodableList vs

/-- All keys and member values are encodable. -/
def EncodableMembers : List (Bytes × Json) → Prop
  | [] => True
  | (k, v) :: ms => Text k ∧ Encodable v ∧ EncodableMembers ms
end

mutual
/-- Nesting depth, a scalar counting as one level. -/
def depth : Json → Nat
  | .arr vs => 1 + depthList vs
  | .obj ms => 1 + depthMembers ms
  | _ => 1

/-- The deepest element. -/
def depthList : List Json → Nat
  | [] => 0
  | v :: vs => max (depth v) (depthList vs)

/-- The deepest member. -/
def depthMembers : List (Bytes × Json) → Nat
  | [] => 0
  | (_, v) :: ms => max (depth v) (depthMembers ms)
end

theorem encodableList_iff (vs : List Json) :
    EncodableList vs ↔ ∀ v ∈ vs, Encodable v := by
  induction vs with
  | nil => simp [EncodableList]
  | cons v vs ih => simp [EncodableList, ih]

theorem encodableMembers_iff (ms : List (Bytes × Json)) :
    EncodableMembers ms ↔ ∀ m ∈ ms, Text m.1 ∧ Encodable m.2 := by
  induction ms with
  | nil => simp [EncodableMembers]
  | cons m ms ih =>
      obtain ⟨k, v⟩ := m
      simp [EncodableMembers, ih, and_assoc]

theorem depthList_le {vs : List Json} {d : Nat} :
    depthList vs ≤ d ↔ ∀ v ∈ vs, depth v ≤ d := by
  induction vs with
  | nil => simp [depthList]
  | cons v vs ih => simp [depthList, ih]

theorem depthMembers_le {ms : List (Bytes × Json)} {d : Nat} :
    depthMembers ms ≤ d ↔ ∀ m ∈ ms, depth m.2 ≤ d := by
  induction ms with
  | nil => simp [depthMembers]
  | cons m ms ih =>
      obtain ⟨k, v⟩ := m
      simp [depthMembers, ih]

/-! ## Strings -/

/-- The value of an escaped control character. -/
private theorem hex4_control {n : Nat} (h : n < 32) (r : Bytes) :
    hex4 (0x30 :: 0x30 :: hexDigit (n / 16) :: hexDigit (n % 16) :: r) = some (n, r) := by
  interval_cases n <;> rfl

/-- **ONE CHARACTER**: the lexer undoes the escaping of any byte but NUL. -/
theorem lexString_escapeByte {b : UInt8} (hb : b ≠ 0) (n : Nat) (r : Bytes) :
    lexString (n + 1) (escapeByte b ++ r) = (lexString n r).map (fun q => (b :: q.1, q.2)) := by
  by_cases h22 : b = 0x22
  · subst h22; rfl
  by_cases h5c : b = 0x5C
  · subst h5c; rfl
  by_cases h08 : b = 0x08
  · subst h08; rfl
  by_cases h0c : b = 0x0C
  · subst h0c; rfl
  by_cases h0a : b = 0x0A
  · subst h0a; rfl
  by_cases h0d : b = 0x0D
  · subst h0d; rfl
  by_cases h09 : b = 0x09
  · subst h09; rfl
  by_cases hlt : b < 0x20
  · -- a control character without a short form goes through its code point
    have hn : b.toNat < 32 := by simpa using UInt8.lt_iff_toNat_lt.mp hlt
    have hpos : b.toNat ≠ 0 := fun h => hb (UInt8.toNat_inj.mp h)
    have hesc : escapeByte b
        = [0x5C, 0x75, 0x30, 0x30, hexDigit (b.toNat / 16), hexDigit (b.toNat % 16)] := by
      simp only [escapeByte, if_neg h22, if_neg h5c, if_neg h08, if_neg h0c, if_neg h0a,
        if_neg h0d, if_neg h09, if_pos hlt]
    have huni : lexUnicode (0x30 :: 0x30 :: hexDigit (b.toNat / 16)
        :: hexDigit (b.toNat % 16) :: r) = some ([b], r) := by
      simp only [lexUnicode, hex4_control hn]
      rw [if_neg hpos, if_neg (by omega), if_neg (by omega)]
      simp only [utf8Encode]
      rw [if_pos (by omega), UInt8.ofNat_toNat]
    rw [hesc]
    show (match lexUnicode (0x30 :: 0x30 :: hexDigit (b.toNat / 16)
        :: hexDigit (b.toNat % 16) :: r) with
      | none => none
      | some (cs, rest') =>
          (lexString n rest').map (fun q : Bytes × Bytes => (cs ++ q.1, q.2))) = _
    rw [huni]
    rfl
  · have hesc : escapeByte b = [b] := by
      simp only [escapeByte, if_neg h22, if_neg h5c, if_neg h08, if_neg h0c, if_neg h0a,
        if_neg h0d, if_neg h09, if_neg hlt]
    rw [hesc]
    show lexString (n + 1) (b :: r) = _
    simp only [lexString, if_neg h22, if_neg h5c, if_neg hlt]

theorem lexString_escape (rest : Bytes) :
    ∀ (s : Bytes) (n : Nat), (0 : UInt8) ∉ s → s.length < n →
      lexString n (s.flatMap escapeByte ++ 0x22 :: rest) = some (s, rest) := by
  intro s
  induction s with
  | nil =>
      intro n _ hn
      obtain ⟨m, rfl⟩ : ∃ m, n = m + 1 := ⟨n - 1, by omega⟩
      rfl
  | cons b s ih =>
      intro n h0 hn
      obtain ⟨m, rfl⟩ : ∃ m, n = m + 1 := ⟨n - 1, by omega⟩
      have hb : b ≠ 0 := fun h => h0 (h ▸ List.mem_cons_self)
      have hs : (0 : UInt8) ∉ s := fun h => h0 (List.mem_cons_of_mem b h)
      have hlen : s.length < m := by
        have : s.length + 1 < m + 1 := hn
        omega
      rw [List.flatMap_cons, List.append_assoc, lexString_escapeByte hb, ih m hs hlen]
      rfl

theorem escapeByte_length (b : UInt8) : 1 ≤ (escapeByte b).length := by
  simp only [escapeByte]
  split_ifs <;> simp

theorem escape_length (s : Bytes) : s.length ≤ (s.flatMap escapeByte).length := by
  induction s with
  | nil => exact Nat.le_refl _
  | cons b s ih =>
      have := escapeByte_length b
      rw [List.flatMap_cons, List.length_append, List.length_cons]
      omega

theorem escapeByte_ne_zero (b : UInt8) : (0 : UInt8) ∉ escapeByte b := by
  have hhex : ∀ n, n < 16 → (0 : UInt8) ≠ hexDigit n := by
    intro n hn
    interval_cases n <;> decide
  have hb := b.toNat_lt
  simp only [escapeByte]
  split_ifs with h1 h2 h3 h4 h5 h6 h7 h8
  · decide
  · decide
  · decide
  · decide
  · decide
  · decide
  · decide
  · have ha := hhex (b.toNat / 16) (by omega)
    have hc := hhex (b.toNat % 16) (by omega)
    simp [ha, hc]
  · rw [List.mem_singleton]
    rintro rfl
    exact h8 (by decide)

theorem escape_ne_zero (s : Bytes) : (0 : UInt8) ∉ s.flatMap escapeByte := by
  simp only [List.mem_flatMap, not_exists, not_and]
  exact fun b _ => escapeByte_ne_zero b

/-- The string token read back. -/
theorem parseStr_escape {s : Bytes} (h : Text s) (rest : Bytes) :
    parseStr (s.flatMap escapeByte ++ 0x22 :: rest) = some (s, rest) := by
  have hlen : s.length < (s.flatMap escapeByte ++ 0x22 :: rest).length := by
    have := escape_length s
    rw [List.length_append, List.length_cons]
    omega
  simp only [parseStr, lexString_escape rest s _ h.2 hlen]
  rw [if_pos h.1]

/-! ## Integers -/

private theorem digit_toNat {n : Nat} (h : n < 10) : (UInt8.ofNat (0x30 + n)).toNat = 0x30 + n := by
  rw [UInt8.toNat_ofNat']
  omega

private theorem isDigit_digit {n : Nat} (h : n < 10) : isDigit (UInt8.ofNat (0x30 + n)) = true := by
  interval_cases n <;> rfl

/-- Reading the printed digits goes on from the number they denote. -/
theorem digitsValue_decimalAux :
    ∀ (f n : Nat) (acc : Bytes), n ≤ f →
      digitsValue 0 (decimalAux f n acc) = digitsValue n acc := by
  intro f
  induction f with
  | zero =>
      intro n acc hn
      obtain rfl : n = 0 := by omega
      rfl
  | succ f ih =>
      intro n acc hn
      simp only [decimalAux]
      by_cases h : n < 10
      · rw [if_pos h]
        show digitsValue (0 * 10 + ((UInt8.ofNat (0x30 + n)).toNat - 0x30)) acc = digitsValue n acc
        rw [digit_toNat h]
        congr 1
        omega
      · rw [if_neg h, ih (n / 10) _ (by omega)]
        show digitsValue (n / 10 * 10 + ((UInt8.ofNat (0x30 + n % 10)).toNat - 0x30)) acc
          = digitsValue n acc
        rw [digit_toNat (by omega)]
        congr 1
        omega

theorem decimalAux_digits :
    ∀ (f n : Nat) (acc : Bytes), (∀ b ∈ acc, isDigit b = true) →
      ∀ b ∈ decimalAux f n acc, isDigit b = true := by
  intro f
  induction f with
  | zero =>
      intro n acc hacc b hb
      rcases List.mem_cons.mp hb with rfl | hm
      · exact isDigit_digit (by omega)
      · exact hacc b hm
  | succ f ih =>
      intro n acc hacc b hb
      simp only [decimalAux] at hb
      by_cases h : n < 10
      · rw [if_pos h] at hb
        rcases List.mem_cons.mp hb with rfl | hm
        · exact isDigit_digit h
        · exact hacc b hm
      · rw [if_neg h] at hb
        refine ih (n / 10) _ ?_ b hb
        intro c hc
        rcases List.mem_cons.mp hc with rfl | hm
        · exact isDigit_digit (by omega)
        · exact hacc c hm

/-- The first digit of a positive number is not zero. -/
theorem decimalAux_head :
    ∀ (f n : Nat) (acc : Bytes), n ≤ f → 0 < n →
      ∃ b t, decimalAux f n acc = b :: t ∧ b ≠ 0x30 := by
  intro f
  induction f with
  | zero => intro n acc hn hpos; omega
  | succ f ih =>
      intro n acc hn hpos
      simp only [decimalAux]
      by_cases h : n < 10
      · rw [if_pos h]
        refine ⟨_, _, rfl, ?_⟩
        interval_cases n <;> decide
      · rw [if_neg h]
        exact ih (n / 10) _ (by omega) (by omega)

/-- The decimal form has no superfluous leading zero. -/
theorem decimal_lead (n : Nat) :
    decimal n ≠ [] ∧ ¬ ((decimal n).head? = some 0x30 ∧ (decimal n).length ≠ 1) := by
  rcases Nat.eq_zero_or_pos n with rfl | hpos
  · decide
  · obtain ⟨b, t, heq, hb⟩ := decimalAux_head n n [] (Nat.le_refl n) hpos
    have hd : decimal n = b :: t := heq
    rw [hd]
    refine ⟨List.cons_ne_nil b t, ?_⟩
    rintro ⟨hh, -⟩
    exact hb (Option.some.inj hh)

/-- What may follow a value: nothing, a comma or a closing bracket. -/
def Stops (rest : Bytes) : Prop :=
  ∀ b, rest.head? = some b → b = 0x2C ∨ b = 0x5D ∨ b = 0x7D

/-- A digit run ends where the next byte is not a digit. -/
private theorem span_digits {ds rest : Bytes} (hds : ∀ b ∈ ds, isDigit b = true)
    (hrest : Stops rest) :
    (ds ++ rest).takeWhile isDigit = ds ∧ (ds ++ rest).dropWhile isDigit = rest := by
  induction ds with
  | nil =>
      cases rest with
      | nil => exact ⟨rfl, rfl⟩
      | cons b t =>
          have hb : isDigit b = false := by
            rcases hrest b rfl with rfl | rfl | rfl <;> rfl
          exact ⟨by simp [hb], by simp [hb]⟩
  | cons d ds ih =>
      have hd : isDigit d = true := hds d List.mem_cons_self
      obtain ⟨h1, h2⟩ := ih (fun b hb => hds b (List.mem_cons_of_mem d hb))
      exact ⟨by simp [hd, h1], by simp [hd, h2]⟩

theorem parseNat_decimal (n : Nat) {rest : Bytes} (hrest : Stops rest) :
    parseNat (decimal n ++ rest) = some (n, rest) := by
  have hds : ∀ b ∈ decimal n, isDigit b = true :=
    decimalAux_digits n n [] (fun b hb => nomatch hb)
  obtain ⟨h1, h2⟩ := span_digits hds hrest
  obtain ⟨hne, hlead⟩ := decimal_lead n
  have hend : ¬ (rest.head? = some 0x2E ∨ rest.head? = some 0x65 ∨ rest.head? = some 0x45) := by
    rintro (h | h | h) <;> rcases hrest _ h with h' | h' | h' <;> exact absurd h' (by decide)
  simp only [parseNat, h1, h2]
  rw [if_neg hne, if_neg hlead, if_neg hend]
  rw [show digitsValue 0 (decimal n) = n from digitsValue_decimalAux n n [] (Nat.le_refl n)]

/-- The first byte of a number is a digit, so it is no sign and no quote. -/
theorem decimal_cons (n : Nat) : ∃ b t, decimal n = b :: t ∧ isDigit b = true := by
  cases h : decimal n with
  | nil => exact absurd h (decimal_lead n).1
  | cons b t =>
      refine ⟨b, t, rfl, ?_⟩
      refine decimalAux_digits n n [] (fun b hb => nomatch hb) b ?_
      show b ∈ decimal n
      rw [h]
      exact List.mem_cons_self

/-- The integer token read back. -/
theorem parseInt_dumpInt {i : Int} (hi : IntRange i) {rest : Bytes} (hrest : Stops rest) :
    parseInt (dumpInt i ++ rest) = some (.int i, rest) := by
  by_cases hneg : i < 0
  · have habs : -((i.natAbs : Nat) : Int) = i := by omega
    simp only [dumpInt, if_pos hneg]
    simp only [parseInt, List.cons_append, List.head?_cons, List.tail_cons,
      parseNat_decimal i.natAbs hrest, habs, if_true, if_pos hi]
  · have habs : ((i.natAbs : Nat) : Int) = i := by omega
    obtain ⟨b, t, hd, hb⟩ := decimal_cons i.natAbs
    have hsign : b ≠ 0x2D := by
      rintro rfl
      exact nomatch hb
    have hp := parseNat_decimal i.natAbs hrest
    simp only [dumpInt, if_neg hneg]
    rw [hd] at hp ⊢
    simp only [List.cons_append] at hp ⊢
    have hhead : (b :: (t ++ rest)).head? ≠ some 0x2D := fun h => hsign (Option.some.inj h)
    simp only [parseInt, if_neg hhead, hp, habs, if_pos hi]

/-! ## White space and first bytes -/

theorem skipWs_cons {b : UInt8} (hb : isWs b = false) (s : Bytes) :
    skipWs (b :: s) = b :: s := by
  simp [skipWs, hb]

/-- The first byte of an integer is neither white space nor opens or closes
    anything else. -/
theorem dumpInt_cons (i : Int) :
    ∃ b t, dumpInt i = b :: t ∧ isWs b = false ∧ b ≠ 0x5D
      ∧ b ≠ 0x22 ∧ b ≠ 0x5B ∧ b ≠ 0x7B ∧ b ≠ 0x6E ∧ b ≠ 0x74 ∧ b ≠ 0x66 := by
  by_cases hneg : i < 0
  · refine ⟨0x2D, decimal i.natAbs, ?_, rfl, by decide⟩
    rw [dumpInt, if_pos hneg]
  · obtain ⟨b, t, hd, hb⟩ := decimal_cons i.natAbs
    refine ⟨b, t, ?_, ?_, ?_⟩
    · rw [dumpInt, if_neg hneg, hd]
    · cases hw : isWs b with
      | false => rfl
      | true =>
          exfalso
          simp only [isWs, Bool.or_eq_true, beq_iff_eq] at hw
          rcases hw with ((rfl | rfl) | rfl) | rfl <;> exact nomatch hb
    · refine ⟨?_, ?_, ?_, ?_, ?_, ?_, ?_⟩ <;> rintro rfl <;> exact nomatch hb

/-- A printed value starts with a byte that is neither white space nor a
    closing bracket. -/
theorem dump_cons (c : Bool) (v : Json) :
    ∃ b t, dump c v = b :: t ∧ isWs b = false ∧ b ≠ 0x5D := by
  cases v with
  | null => exact ⟨_, _, rfl, rfl, by decide⟩
  | bool x => cases x <;> exact ⟨_, _, rfl, rfl, by decide⟩
  | int i =>
      obtain ⟨b, t, hd, hws, hb, -⟩ := dumpInt_cons i
      exact ⟨b, t, hd, hws, hb⟩
  | real x => exact ⟨_, _, rfl, rfl, by decide⟩
  | str s => exact ⟨_, _, rfl, rfl, by decide⟩
  | arr vs => cases vs <;> exact ⟨0x5B, _, rfl, rfl, by decide⟩
  | obj ms =>
      cases ms with
      | nil => exact ⟨0x7B, _, rfl, rfl, by decide⟩
      | cons m ms =>
          obtain ⟨k, v⟩ := m
          exact ⟨0x7B, _, rfl, rfl, by decide⟩

/-- A comma, the optional space, and whatever does not start with white space. -/
theorem comma_append (c : Bool) (s : Bytes) :
    ∃ r, comma c ++ s = 0x2C :: r ∧ skipWs r = skipWs s := by
  cases c with
  | true => exact ⟨s, rfl, rfl⟩
  | false => exact ⟨0x20 :: s, rfl, rfl⟩

theorem colon_append (c : Bool) (s : Bytes) :
    ∃ r, colon c ++ s = 0x3A :: r ∧ skipWs r = skipWs s := by
  cases c with
  | true => exact ⟨s, rfl, rfl⟩
  | false => exact ⟨0x20 :: s, rfl, rfl⟩

theorem comma_length (c : Bool) : 1 ≤ (comma c).length := by
  cases c <;> decide

theorem stops_comma (c : Bool) (s : Bytes) : Stops (comma c ++ s) := by
  intro b hb
  obtain ⟨r, hr, -⟩ := comma_append c s
  rw [hr] at hb
  exact Or.inl (Option.some.inj hb).symm

theorem comma_ne_zero (c : Bool) : (0 : UInt8) ∉ comma c := by cases c <;> decide

theorem colon_ne_zero (c : Bool) : (0 : UInt8) ∉ colon c := by cases c <;> decide

/-! ## Spellings -/

/-- A string literal for `s`: quotes around a body that the lexer reads as
    `s`. -/
def Literal (s t : Bytes) : Prop :=
  ∃ body, t = 0x22 :: (body ++ [0x22]) ∧ (0 : UInt8) ∉ body
    ∧ ∀ rest, parseStr (body ++ 0x22 :: rest) = some (s, rest)

mutual
/-- A text of a value. -/
def Spells : Json → Bytes → Prop
  | .null, t => t = [0x6E, 0x75, 0x6C, 0x6C]
  | .bool true, t => t = [0x74, 0x72, 0x75, 0x65]
  | .bool false, t => t = [0x66, 0x61, 0x6C, 0x73, 0x65]
  | .int i, t => IntRange i ∧ t = dumpInt i
  | .real _, _ => False
  | .str s, t => Literal s t
  | .arr [], t => t = [0x5B, 0x5D]
  | .arr (v :: vs), t =>
      ∃ t₁ t₂, t = 0x5B :: (t₁ ++ t₂) ∧ Spells v t₁ ∧ SpellsElems vs t₂
  | .obj [], t => t = [0x7B, 0x7D]
  | .obj ((k, v) :: ms), t =>
      (((k, v) :: ms).map Prod.fst).Nodup
        ∧ ∃ c t₀ t₁ t₂, t = 0x7B :: (t₀ ++ (colon c ++ (t₁ ++ t₂)))
          ∧ Literal k t₀ ∧ Spells v t₁ ∧ SpellsMembers ms t₂

/-- A text of what follows the first element, closing bracket included. -/
def SpellsElems : List Json → Bytes → Prop
  | [], t => t = [0x5D]
  | v :: vs, t =>
      ∃ c t₁ t₂, t = comma c ++ (t₁ ++ t₂) ∧ Spells v t₁ ∧ SpellsElems vs t₂

/-- A text of what follows the first member, closing brace included. -/
def SpellsMembers : List (Bytes × Json) → Bytes → Prop
  | [], t => t = [0x7D]
  | (k, v) :: ms, t =>
      ∃ c c' t₀ t₁ t₂, t = comma c ++ (t₀ ++ (colon c' ++ (t₁ ++ t₂)))
        ∧ Literal k t₀ ∧ Spells v t₁ ∧ SpellsMembers ms t₂
end

theorem literal_dumpStr {s : Bytes} (h : Text s) : Literal s (dumpStr s) :=
  ⟨s.flatMap escapeByte, rfl, escape_ne_zero s, parseStr_escape h⟩

mutual
/-- The printer spells its values. -/
theorem dump_spells (c : Bool) : ∀ v : Json, Encodable v → Spells v (dump c v)
  | .null, _ => rfl
  | .bool true, _ => rfl
  | .bool false, _ => rfl
  | .int _, h => ⟨h, rfl⟩
  | .real _, h => False.elim h
  | .str _, h => literal_dumpStr h
  | .arr [], _ => rfl
  | .arr (v :: vs), h =>
      ⟨dump c v, dumpElems c vs, rfl, dump_spells c v h.1, dumpElems_spells c vs h.2⟩
  | .obj [], _ => rfl
  | .obj ((k, v) :: ms), h => by
      refine ⟨h.2, c, dumpStr k, dump c v, dumpMembers c ms, ?_, literal_dumpStr h.1.1,
        dump_spells c v h.1.2.1, dumpMembers_spells c ms h.1.2.2⟩
      simp [dump, List.append_assoc]

theorem dumpElems_spells (c : Bool) :
    ∀ vs : List Json, EncodableList vs → SpellsElems vs (dumpElems c vs)
  | [], _ => rfl
  | v :: vs, h => by
      refine ⟨c, dump c v, dumpElems c vs, ?_, dump_spells c v h.1, dumpElems_spells c vs h.2⟩
      simp [dumpElems, List.append_assoc]

theorem dumpMembers_spells (c : Bool) :
    ∀ ms : List (Bytes × Json), EncodableMembers ms → SpellsMembers ms (dumpMembers c ms)
  | [], _ => rfl
  | (k, v) :: ms, h => by
      refine ⟨c, c, dumpStr k, dump c v, dumpMembers c ms, ?_, literal_dumpStr h.1,
        dump_spells c v h.2.1, dumpMembers_spells c ms h.2.2⟩
      simp [dumpMembers, List.append_assoc]
end

/-- A spelling starts with a byte that is neither white space nor a closing
    bracket. -/
theorem spells_cons {v : Json} {t : Bytes} (h : Spells v t) :
    ∃ b r, t = b :: r ∧ isWs b = false ∧ b ≠ 0x5D := by
  cases v with
  | null => exact ⟨_, _, h, rfl, by decide⟩
  | bool x => cases x <;> exact ⟨_, _, h, rfl, by decide⟩
  | int i =>
      obtain ⟨b, r, hd, hws, hb, -⟩ := dumpInt_cons i
      exact ⟨b, r, h.2.trans hd, hws, hb⟩
  | real x => exact False.elim h
  | str s =>
      obtain ⟨body, ht, -⟩ := h
      exact ⟨_, _, ht, rfl, by decide⟩
  | arr vs =>
      cases vs with
      | nil => exact ⟨_, _, h, rfl, by decide⟩
      | cons v vs =>
          obtain ⟨t₁, t₂, ht, -⟩ := h
          exact ⟨_, _, ht, rfl, by decide⟩
  | obj ms =>
      cases ms with
      | nil => exact ⟨_, _, h, rfl, by decide⟩
      | cons m ms =>
          obtain ⟨-, c, t₀, t₁, t₂, ht, -⟩ := h
          exact ⟨_, _, ht, rfl, by decide⟩

theorem skipWs_spells {v : Json} {t : Bytes} (h : Spells v t) (rest : Bytes) :
    skipWs (t ++ rest) = t ++ rest := by
  obtain ⟨b, r, ht, hb, -⟩ := spells_cons h
  rw [ht]
  exact skipWs_cons hb (r ++ rest)

theorem stops_elems {vs : List Json} {t : Bytes} (h : SpellsElems vs t) (rest : Bytes) :
    Stops (t ++ rest) := by
  cases vs with
  | nil =>
      obtain rfl : t = [0x5D] := h
      intro b hb
      exact Or.inr (Or.inl (Option.some.inj hb).symm)
  | cons v vs =>
      obtain ⟨c, t₁, t₂, rfl, -⟩ := h
      rw [List.append_assoc]
      exact stops_comma c _

theorem stops_members {ms : List (Bytes × Json)} {t : Bytes} (h : SpellsMembers ms t)
    (rest : Bytes) : Stops (t ++ rest) := by
  cases ms with
  | nil =>
      obtain rfl : t = [0x7D] := h
      intro b hb
      exact Or.inr (Or.inr (Option.some.inj hb).symm)
  | cons m ms =>
      obtain ⟨k, v⟩ := m
      obtain ⟨c, c', t₀, t₁, t₂, rfl, -⟩ := h
      rw [List.append_assoc]
      exact stops_comma c _

/-! ## The round trip -/

/-- Rebuilding an object member by member keeps members with distinct keys. -/
theorem foldl_memberSet :
    ∀ (ms acc : List (Bytes × Json)), ((acc ++ ms).map Prod.fst).Nodup →
      ms.foldl (fun ms m => memberSet ms m.1 m.2) acc = acc ++ ms := by
  have hset : ∀ (acc : List (Bytes × Json)) (k : Bytes) (v : Json),
      k ∉ acc.map Prod.fst → memberSet acc k v = acc ++ [(k, v)] := by
    intro acc
    induction acc with
    | nil => intro k v _; rfl
    | cons m acc ih =>
        intro k v hk
        obtain ⟨j, w⟩ := m
        have hj : j ≠ k := fun h => hk (by simp [h])
        have hacc : k ∉ acc.map Prod.fst := fun h => hk (List.mem_cons_of_mem _ h)
        simp only [memberSet, if_neg hj, ih k v hacc]
        rfl
  intro ms
  induction ms with
  | nil => intro acc _; exact (List.append_nil acc).symm
  | cons m ms ih =>
      intro acc hnd
      obtain ⟨k, v⟩ := m
      have hk : k ∉ acc.map Prod.fst := by
        intro h
        rw [List.map_append, List.nodup_append] at hnd
        exact hnd.2.2 k h k List.mem_cons_self rfl
      rw [List.foldl_cons, hset acc k v hk, ih (acc ++ [(k, v)]) (by simpa using hnd)]
      simp

/-- A member is read once its value is. -/
theorem parseMember_spells {k : Bytes} {v : Json} {t₀ t₁ : Bytes} {n d : Nat} {rest : Bytes}
    (c : Bool) (hk : Literal k t₀) (ht : Spells v t₁)
    (hv : parseValue n d (t₁ ++ rest) = some (v, rest)) :
    parseMember (n + 1) d (t₀ ++ (colon c ++ (t₁ ++ rest))) = some ((k, v), rest) := by
  obtain ⟨r, hr, hskip⟩ := colon_append c (t₁ ++ rest)
  obtain ⟨body, rfl, -, hbody⟩ := hk
  have htext : 0x22 :: (body ++ [0x22]) ++ (colon c ++ (t₁ ++ rest))
      = 0x22 :: (body ++ 0x22 :: (0x3A :: r)) := by
    rw [hr]
    simp [List.append_assoc]
  rw [htext]
  simp only [parseMember, if_true, hbody, skipWs_cons (show isWs 0x3A = false from rfl), hskip,
    skipWs_spells ht, hv, Option.map_some]

/-- A literal is two bytes long at least, and its first is a quote. -/
theorem literal_cons {s t : Bytes} (h : Literal s t) : ∃ b r, t = 0x22 :: b :: r := by
  obtain ⟨body, rfl, -⟩ := h
  cases body with
  | nil => exact ⟨0x22, [], rfl⟩
  | cons b body => exact ⟨b, body ++ [0x22], rfl⟩

theorem depth_pos (v : Json) : 1 ≤ depth v := by
  cases v with
  | arr vs =>
      rw [depth]
      omega
  | obj ms =>
      rw [depth]
      omega
  | _ => exact Nat.le_refl 1

/-- No text is empty and no depth is zero, so the parser makes a first step. -/
theorem spells_fuel {v : Json} {t : Bytes} {n d : Nat} (h : Spells v t) (hn : t.length ≤ n)
    (hd : depth v ≤ d) : (∃ m, n = m + 1) ∧ ∃ e, d = e + 1 := by
  obtain ⟨b, r, rfl, -⟩ := spells_cons h
  have hpos := depth_pos v
  rw [List.length_cons] at hn
  exact ⟨⟨n - 1, by omega⟩, d - 1, by omega⟩

mutual
/-- **EVERY SPELLING IS READ**: the parser finds the value, and stops exactly
    behind its text. -/
theorem parseValue_spells :
    ∀ (v : Json) (t : Bytes) (n d : Nat) (rest : Bytes), Spells v t → t.length ≤ n →
      depth v ≤ d → Stops rest → parseValue n d (t ++ rest) = some (v, rest)
  | .null, t, n, d, rest, ht, hn, hd, _ => by
      obtain ⟨⟨m, rfl⟩, e, rfl⟩ := spells_fuel ht hn hd
      obtain rfl : t = _ := ht
      rfl
  | .bool true, t, n, d, rest, ht, hn, hd, _ => by
      obtain ⟨⟨m, rfl⟩, e, rfl⟩ := spells_fuel ht hn hd
      obtain rfl : t = _ := ht
      rfl
  | .bool false, t, n, d, rest, ht, hn, hd, _ => by
      obtain ⟨⟨m, rfl⟩, e, rfl⟩ := spells_fuel ht hn hd
      obtain rfl : t = _ := ht
      rfl
  | .int i, t, n, d, rest, ht, hn, hd, hrest => by
      obtain ⟨⟨m, rfl⟩, e, rfl⟩ := spells_fuel ht hn hd
      obtain ⟨hrange, rfl⟩ : IntRange i ∧ t = dumpInt i := ht
      have hi := parseInt_dumpInt hrange hrest
      -- a sign or a digit opens none of the other forms
      obtain ⟨b, r, hcons, -, -, h1, h2, h3, h4, h5, h6⟩ := dumpInt_cons i
      rw [hcons] at hi ⊢
      simp only [List.cons_append] at hi ⊢
      simp only [parseValue, if_neg h1, if_neg h2, if_neg h3, if_neg h4, if_neg h5, if_neg h6]
      exact hi
  | .real _, _, _, _, _, ht, _, _, _ => False.elim ht
  | .str s, t, n, d, rest, ht, hn, hd, _ => by
      obtain ⟨⟨m, rfl⟩, e, rfl⟩ := spells_fuel ht hn hd
      obtain ⟨body, rfl, -, hbody⟩ : Literal s t := ht
      simp only [List.cons_append, List.append_assoc, List.nil_append, parseValue, if_true, hbody,
        Option.map_some]
  | .arr [], t, n, d, rest, ht, hn, hd, _ => by
      obtain ⟨⟨m, rfl⟩, e, rfl⟩ := spells_fuel ht hn hd
      obtain rfl : t = _ := ht
      rfl
  | .arr (v :: vs), t, n, d, rest, ht, hn, hd, _ => by
      obtain ⟨⟨m, rfl⟩, e, rfl⟩ := spells_fuel ht hn hd
      obtain ⟨t₁, t₂, rfl, hv, hvs⟩ : ∃ t₁ t₂, t = 0x5B :: (t₁ ++ t₂) ∧ Spells v t₁
          ∧ SpellsElems vs t₂ := ht
      simp only [List.length_cons, List.length_append] at hn
      simp only [depth, depthList] at hd
      have h1 := parseValue_spells v t₁ m e (t₂ ++ rest) hv (by omega) (by omega)
        (stops_elems hvs rest)
      have h2 := parseElems_spells vs t₂ m e rest hvs (by omega) (by omega)
      have hskip := skipWs_spells hv (t₂ ++ rest)
      obtain ⟨b, r, hcons, -, hb⟩ := spells_cons hv
      have hhead : (t₁ ++ (t₂ ++ rest)).head? ≠ some 0x5D := by
        rw [hcons]
        exact fun h => hb (Option.some.inj h)
      rw [List.cons_append, List.append_assoc]
      simp only [parseValue, show ¬ ((0x5B : UInt8) = 0x22) by decide, if_false, if_true,
        hskip, if_neg hhead, h1, h2, Option.map_some]
  | .obj [], t, n, d, rest, ht, hn, hd, _ => by
      obtain ⟨⟨m, rfl⟩, e, rfl⟩ := spells_fuel ht hn hd
      obtain rfl : t = _ := ht
      rfl
  | .obj ((k, v) :: ms), t, n, d, rest, ht, hn, hd, _ => by
      obtain ⟨hnd, c, t₀, t₁, t₂, rfl, hk, hv, hms⟩ : (((k, v) :: ms).map Prod.fst).Nodup
          ∧ ∃ c t₀ t₁ t₂, t = 0x7B :: (t₀ ++ (colon c ++ (t₁ ++ t₂)))
            ∧ Literal k t₀ ∧ Spells v t₁ ∧ SpellsMembers ms t₂ := ht
      obtain ⟨b, r, hcons⟩ := literal_cons hk
      have hlen := congrArg List.length hcons
      simp only [List.length_cons, List.length_append] at hn hlen
      simp only [depth, depthMembers] at hd
      obtain ⟨m, rfl⟩ : ∃ m, n = m + 2 := ⟨n - 2, by omega⟩
      obtain ⟨e, rfl⟩ : ∃ e, d = e + 1 := ⟨d - 1, by omega⟩
      have h0 := parseValue_spells v t₁ m e (t₂ ++ rest) hv (by omega) (by omega)
        (stops_members hms rest)
      have h1 := parseMember_spells c hk hv h0
      have h2 := parseMembers_spells ms t₂ (m + 1) e rest hms (by omega) (by omega)
      -- the keys are distinct, so setting them one by one rebuilds the list
      have hfold := foldl_memberSet ((k, v) :: ms) [] (by simpa using hnd)
      have hskip : skipWs (t₀ ++ (colon c ++ (t₁ ++ (t₂ ++ rest))))
          = t₀ ++ (colon c ++ (t₁ ++ (t₂ ++ rest))) := by
        rw [hcons]
        exact skipWs_cons rfl _
      have hhead : (t₀ ++ (colon c ++ (t₁ ++ (t₂ ++ rest)))).head? ≠ some 0x7D := by
        rw [hcons]
        exact fun h => absurd (Option.some.inj h) (by decide)
      simp only [List.cons_append, List.append_assoc]
      simp only [parseValue, show ¬ ((0x7B : UInt8) = 0x22) by decide,
        show ¬ ((0x7B : UInt8) = 0x5B) by decide, if_false, if_true, hskip, if_neg hhead, h1, h2,
        Option.map_some, hfold, List.nil_append]

theorem parseElems_spells :
    ∀ (vs : List Json) (t : Bytes) (n d : Nat) (rest : Bytes), SpellsElems vs t →
      t.length ≤ n → depthList vs ≤ d → parseElems n d (t ++ rest) = some (vs, rest)
  | [], t, n, d, rest, ht, hn, _ => by
      obtain rfl : t = _ := ht
      obtain ⟨m, rfl⟩ : ∃ m, n = m + 1 := ⟨n - 1, by simp at hn; omega⟩
      rfl
  | v :: vs, t, n, d, rest, ht, hn, hd => by
      obtain ⟨c, t₁, t₂, rfl, hv, hvs⟩ : ∃ c t₁ t₂, t = comma c ++ (t₁ ++ t₂) ∧ Spells v t₁
          ∧ SpellsElems vs t₂ := ht
      have hlc := comma_length c
      simp only [List.length_append] at hn
      simp only [depthList] at hd
      obtain ⟨m, rfl⟩ : ∃ m, n = m + 1 := ⟨n - 1, by omega⟩
      have h1 := parseValue_spells v t₁ m d (t₂ ++ rest) hv (by omega) (by omega)
        (stops_elems hvs rest)
      have h2 := parseElems_spells vs t₂ m d rest hvs (by omega) (by omega)
      obtain ⟨r, hr, hskip⟩ := comma_append c (t₁ ++ (t₂ ++ rest))
      simp only [List.append_assoc, hr]
      simp only [parseElems, skipWs_cons (show isWs 0x2C = false from rfl),
        show ¬ ((0x2C : UInt8) = 0x5D) by decide, if_false, if_true, hskip, skipWs_spells hv, h1,
        h2, Option.map_some]

theorem parseMembers_spells :
    ∀ (ms : List (Bytes × Json)) (t : Bytes) (n d : Nat) (rest : Bytes), SpellsMembers ms t →
      t.length ≤ n → depthMembers ms ≤ d → parseMembers n d (t ++ rest) = some (ms, rest)
  | [], t, n, d, rest, ht, hn, _ => by
      obtain rfl : t = _ := ht
      obtain ⟨m, rfl⟩ : ∃ m, n = m + 1 := ⟨n - 1, by simp at hn; omega⟩
      rfl
  | (k, v) :: ms, t, n, d, rest, ht, hn, hd => by
      obtain ⟨c, c', t₀, t₁, t₂, rfl, hk, hv, hms⟩ :
          ∃ c c' t₀ t₁ t₂, t = comma c ++ (t₀ ++ (colon c' ++ (t₁ ++ t₂)))
            ∧ Literal k t₀ ∧ Spells v t₁ ∧ SpellsMembers ms t₂ := ht
      have hlc := comma_length c
      obtain ⟨b, q, hcons⟩ := literal_cons hk
      have hlen := congrArg List.length hcons
      simp only [List.length_append, List.length_cons] at hn hlen
      simp only [depthMembers] at hd
      obtain ⟨m, rfl⟩ : ∃ m, n = m + 1 := ⟨n - 1, by omega⟩
      have h1 : parseMember m d (t₀ ++ (colon c' ++ (t₁ ++ (t₂ ++ rest))))
          = some ((k, v), t₂ ++ rest) := by
        obtain ⟨q, rfl⟩ : ∃ q, m = q + 1 := ⟨m - 1, by omega⟩
        exact parseMember_spells c' hk hv (parseValue_spells v t₁ q d (t₂ ++ rest) hv
          (by omega) (by omega) (stops_members hms rest))
      have h2 := parseMembers_spells ms t₂ m d rest hms (by omega) (by omega)
      obtain ⟨r, hr, hskip⟩ := comma_append c (t₀ ++ (colon c' ++ (t₁ ++ (t₂ ++ rest))))
      have hskip' : skipWs (t₀ ++ (colon c' ++ (t₁ ++ (t₂ ++ rest))))
          = t₀ ++ (colon c' ++ (t₁ ++ (t₂ ++ rest))) := by
        rw [hcons]
        exact skipWs_cons rfl _
      simp only [List.append_assoc, hr]
      simp only [parseMembers, skipWs_cons (show isWs 0x2C = false from rfl),
        show ¬ ((0x2C : UInt8) = 0x7D) by decide, if_false, if_true, hskip, hskip', h1, h2,
        Option.map_some]
end

/-! ## Whole texts -/

theorem dumpStr_ne_zero (s : Bytes) : (0 : UInt8) ∉ dumpStr s := by
  simp only [dumpStr, List.mem_cons, List.mem_append, List.not_mem_nil, or_false, not_or]
  exact ⟨by decide, escape_ne_zero s, by decide⟩

theorem dumpInt_ne_zero (i : Int) : (0 : UInt8) ∉ dumpInt i := by
  have hdec : ∀ n, (0 : UInt8) ∉ decimal n := by
    intro n h
    have := decimalAux_digits n n [] (fun b hb => nomatch hb) 0 h
    exact nomatch this
  simp only [dumpInt]
  split_ifs
  · simp [hdec]
  · exact hdec _

mutual
/-- Printed text holds no NUL byte. -/
theorem dump_ne_zero (c : Bool) : ∀ v : Json, (0 : UInt8) ∉ dump c v
  | .null => by simp [dump]
  | .bool true => by simp [dump]
  | .bool false => by simp [dump]
  | .int i => dumpInt_ne_zero i
  | .real _ => by simp [dump]
  | .str s => dumpStr_ne_zero s
  | .arr [] => by simp [dump]
  | .arr (v :: vs) => by
      simp [dump, dump_ne_zero c v, dumpElems_ne_zero c vs]
  | .obj [] => by simp [dump]
  | .obj ((k, v) :: ms) => by
      simp [dump, dumpStr_ne_zero k, colon_ne_zero c, dump_ne_zero c v, dumpMembers_ne_zero c ms]

theorem dumpElems_ne_zero (c : Bool) : ∀ vs : List Json, (0 : UInt8) ∉ dumpElems c vs
  | [] => by simp [dumpElems]
  | v :: vs => by
      simp [dumpElems, comma_ne_zero c, dump_ne_zero c v, dumpElems_ne_zero c vs]

theorem dumpMembers_ne_zero (c : Bool) :
    ∀ ms : List (Bytes × Json), (0 : UInt8) ∉ dumpMembers c ms
  | [] => by simp [dumpMembers]
  | (k, v) :: ms => by
      simp [dumpMembers, comma_ne_zero c, dumpStr_ne_zero k, colon_ne_zero c, dump_ne_zero c v,
        dumpMembers_ne_zero c ms]
end

theorem literal_ne_zero {s t : Bytes} (h : Literal s t) : (0 : UInt8) ∉ t := by
  obtain ⟨body, rfl, hbody, -⟩ := h
  simp [hbody]

mutual
/-- A spelling holds no NUL byte. -/
theorem spells_ne_zero : ∀ (v : Json) (t : Bytes), Spells v t → (0 : UInt8) ∉ t
  | .null, t, ht => by
      obtain rfl : t = _ := ht
      decide
  | .bool true, t, ht => by
      obtain rfl : t = _ := ht
      decide
  | .bool false, t, ht => by
      obtain rfl : t = _ := ht
      decide
  | .int i, t, ht => by
      obtain ⟨-, rfl⟩ : IntRange i ∧ t = dumpInt i := ht
      exact dumpInt_ne_zero i
  | .real _, _, ht => False.elim ht
  | .str _, _, ht => literal_ne_zero ht
  | .arr [], t, ht => by
      obtain rfl : t = _ := ht
      decide
  | .arr (v :: vs), t, ht => by
      obtain ⟨t₁, t₂, rfl, hv, hvs⟩ : ∃ t₁ t₂, t = 0x5B :: (t₁ ++ t₂) ∧ Spells v t₁
          ∧ SpellsElems vs t₂ := ht
      simp [spells_ne_zero v t₁ hv, spellsElems_ne_zero vs t₂ hvs]
  | .obj [], t, ht => by
      obtain rfl : t = _ := ht
      decide
  | .obj ((k, v) :: ms), t, ht => by
      obtain ⟨-, c, t₀, t₁, t₂, rfl, hk, hv, hms⟩ : (((k, v) :: ms).map Prod.fst).Nodup
          ∧ ∃ c t₀ t₁ t₂, t = 0x7B :: (t₀ ++ (colon c ++ (t₁ ++ t₂)))
            ∧ Literal k t₀ ∧ Spells v t₁ ∧ SpellsMembers ms t₂ := ht
      simp [literal_ne_zero hk, colon_ne_zero c, spells_ne_zero v t₁ hv,
        spellsMembers_ne_zero ms t₂ hms]

theorem spellsElems_ne_zero :
    ∀ (vs : List Json) (t : Bytes), SpellsElems vs t → (0 : UInt8) ∉ t
  | [], t, ht => by
      obtain rfl : t = _ := ht
      decide
  | v :: vs, t, ht => by
      obtain ⟨c, t₁, t₂, rfl, hv, hvs⟩ : ∃ c t₁ t₂, t = comma c ++ (t₁ ++ t₂) ∧ Spells v t₁
          ∧ SpellsElems vs t₂ := ht
      simp [comma_ne_zero c, spells_ne_zero v t₁ hv, spellsElems_ne_zero vs t₂ hvs]

theorem spellsMembers_ne_zero :
    ∀ (ms : List (Bytes × Json)) (t : Bytes), SpellsMembers ms t → (0 : UInt8) ∉ t
  | [], t, ht => by
      obtain rfl : t = _ := ht
      decide
  | (k, v) :: ms, t, ht => by
      obtain ⟨c, c', t₀, t₁, t₂, rfl, hk, hv, hms⟩ :
          ∃ c c' t₀ t₁ t₂, t = comma c ++ (t₀ ++ (colon c' ++ (t₁ ++ t₂)))
            ∧ Literal k t₀ ∧ Spells v t₁ ∧ SpellsMembers ms t₂ := ht
      simp [comma_ne_zero c, literal_ne_zero hk, colon_ne_zero c', spells_ne_zero v t₁ hv,
        spellsMembers_ne_zero ms t₂ hms]
end

/-- **EVERY TEXT OF A VALUE**: an array or object within the nesting limit is
    read from any of its spellings. -/
theorem load_spells {v : Json} {t : Bytes} (ht : Spells v t) (hd : depth v ≤ maxDepth)
    (hc : isContainer v = true) : load t = some v := by
  have hp := parseValue_spells v t t.length maxDepth [] ht (Nat.le_refl _) hd
    (fun b hb => nomatch hb)
  have hskip := skipWs_spells ht []
  rw [List.append_nil] at hp hskip
  simp only [load, if_neg (spells_ne_zero v t ht), hskip, hp]
  exact if_pos ⟨hc, rfl⟩

/-- **TEXT ROUND TRIP**: an array or object the codec carries is read back from
    its own text, compact or spaced. -/
theorem load_dump (c : Bool) {v : Json} (hv : Encodable v) (hd : depth v ≤ maxDepth)
    (hc : isContainer v = true) : load (dump c v) = some v :=
  load_spells (dump_spells c v hv) hd hc

/-- A text with a NUL byte is refused. -/
theorem load_ne_zero {s : Bytes} {v : Json} (h : load s = some v) : (0 : UInt8) ∉ s := by
  intro h0
  simp only [load, if_pos h0] at h
  exact nomatch h

/-! ## Read from the left

    The parser sees a text from the left and stops behind the closing bracket,
    so a text that is accepted as it is means the same with more behind it, if
    it is then accepted at all.  And a text that starts with a punctuation mark
    that starts no value is refused, whatever follows. -/

/-- Each part of the parser that has found its end finds the same end when text
    follows. -/
theorem hex4_append {s rest : Bytes} {n : Nat} (h : hex4 s = some (n, rest)) (t : Bytes) :
    hex4 (s ++ t) = some (n, rest ++ t) := by
  rcases s with _ | ⟨a, _ | ⟨b, _ | ⟨c, _ | ⟨d, s⟩⟩⟩⟩
  · cases h
  · cases h
  · cases h
  · cases h
  · simp only [List.cons_append, hex4, Option.bind_eq_bind, Option.bind_eq_some_iff,
      Option.some.injEq, Prod.mk.injEq] at h ⊢
    obtain ⟨u, hu, v, hv, w, hw, x, hx, rfl, rfl⟩ := h
    exact ⟨u, hu, v, hv, w, hw, x, hx, rfl, rfl⟩

/-- The second half of a surrogate pair, after the first. -/
def lexLow (u : Nat) : Bytes → Option (Bytes × Bytes)
  | 0x5C :: 0x75 :: rest' =>
      match hex4 rest' with
      | none => none
      | some (l, rest'') =>
          if 0xDC00 ≤ l ∧ l < 0xE000 then
            some (utf8Encode (0x10000 + (u - 0xD800) * 1024 + (l - 0xDC00)), rest'')
          else none
  | _ => none

theorem lexLow_append {u : Nat} {s x rest : Bytes} (h : lexLow u s = some (x, rest)) (t : Bytes) :
    lexLow u (s ++ t) = some (x, rest ++ t) := by
  unfold lexLow at h
  split at h
  · rename_i r
    rw [List.cons_append, List.cons_append, lexLow]
    cases hl : hex4 r with
    | none =>
        rw [hl] at h
        cases h
    | some q =>
        rw [hl] at h
        rw [hex4_append hl t]
        obtain ⟨l, r'⟩ := q
        by_cases hlow : 0xDC00 ≤ l ∧ l < 0xE000
        · simp only [if_pos hlow, Option.some.injEq, Prod.mk.injEq] at h ⊢
          exact ⟨h.1, by rw [h.2]⟩
        · simp only [if_neg hlow] at h
          cases h
  · cases h

theorem lexUnicode_eq (s : Bytes) :
    lexUnicode s = (hex4 s).bind (fun p =>
      if p.1 = 0 then none
      else if 0xD800 ≤ p.1 ∧ p.1 < 0xDC00 then lexLow p.1 p.2
      else if 0xDC00 ≤ p.1 ∧ p.1 < 0xE000 then none
      else some (utf8Encode p.1, p.2)) := by
  rw [lexUnicode]
  cases hex4 s <;> rfl

theorem lexUnicode_append {s x rest : Bytes} (h : lexUnicode s = some (x, rest)) (t : Bytes) :
    lexUnicode (s ++ t) = some (x, rest ++ t) := by
  rw [lexUnicode_eq] at h ⊢
  obtain ⟨⟨u, r⟩, hu, h⟩ := Option.bind_eq_some_iff.mp h
  rw [hex4_append hu t, Option.bind_some]
  dsimp only at h ⊢
  split at h
  · cases h
  · rw [if_neg ‹_›]
    split at h
    · rw [if_pos ‹_›]
      exact lexLow_append h t
    · rw [if_neg ‹_›]
      split at h
      · cases h
      · rw [if_neg ‹_›]
        cases h
        rfl

theorem lexEscape_append {s x rest : Bytes} (h : lexEscape s = some (x, rest)) (t : Bytes) :
    lexEscape (s ++ t) = some (x, rest ++ t) := by
  cases s with
  | nil => cases h
  | cons c s =>
      simp only [List.cons_append, lexEscape] at h ⊢
      repeat' split at h
      all_goals simp_all
      exact lexUnicode_append h t

theorem lexString_append {n : Nat} {s x rest : Bytes} (h : lexString n s = some (x, rest))
    (t : Bytes) {m : Nat} (hm : n ≤ m) : lexString m (s ++ t) = some (x, rest ++ t) := by
  induction n generalizing s x m with
  | zero => cases h
  | succ n ih =>
      obtain ⟨m, rfl⟩ : ∃ k, m = k + 1 := ⟨m - 1, by omega⟩
      have hle : n ≤ m := Nat.le_of_succ_le_succ hm
      cases s with
      | nil => cases h
      | cons b s =>
          rw [List.cons_append]
          rw [lexString] at h ⊢
          split at h
          · cases h
            rw [if_pos ‹_›]
          · rw [if_neg ‹_›]
            split at h
            · rw [if_pos ‹_›]
              cases hesc : lexEscape s with
              | none =>
                  rw [hesc] at h
                  cases h
              | some p =>
                  rw [hesc] at h
                  rw [lexEscape_append hesc t]
                  obtain ⟨r, hr, hx⟩ := Option.map_eq_some_iff.mp h
                  dsimp only
                  cases hx
                  rw [ih hr hle]
                  rfl
            · rw [if_neg ‹_›]
              split at h
              · cases h
              · rw [if_neg ‹_›]
                obtain ⟨r, hr, hx⟩ := Option.map_eq_some_iff.mp h
                cases hx
                rw [ih hr hle]
                rfl

theorem parseStr_append {s x rest : Bytes} (h : parseStr s = some (x, rest)) (t : Bytes) :
    parseStr (s ++ t) = some (x, rest ++ t) := by
  rw [parseStr] at h ⊢
  cases hlex : lexString s.length s with
  | none =>
      rw [hlex] at h
      cases h
  | some p =>
      rw [hlex] at h
      rw [lexString_append hlex t (by rw [List.length_append]; exact Nat.le_add_right _ _)]
      dsimp only at h ⊢
      split at h
      · rw [if_pos ‹_›]
        cases h
        rfl
      · cases h

/-- A number wants to see a byte behind it. -/
theorem parseNat_append {s rest : Bytes} {n : Nat} (h : parseNat s = some (n, rest))
    (hrest : rest ≠ []) (t : Bytes) : parseNat (s ++ t) = some (n, rest ++ t) := by
  have hsplit : ∀ s : Bytes, s.dropWhile isDigit ≠ [] →
      (s ++ t).takeWhile isDigit = s.takeWhile isDigit
        ∧ (s ++ t).dropWhile isDigit = s.dropWhile isDigit ++ t := by
    intro s hs
    induction s with
    | nil => exact absurd rfl hs
    | cons b s ih =>
        cases hb : isDigit b with
        | true =>
            simp only [List.cons_append, List.takeWhile_cons, List.dropWhile_cons, hb,
              if_true] at hs ⊢
            obtain ⟨h1, h2⟩ := ih hs
            exact ⟨by rw [h1], h2⟩
        | false => simp [hb]
  simp only [parseNat] at h ⊢
  split at h
  · cases h
  · split at h
    · cases h
    · split at h
      · cases h
      · obtain ⟨rfl, rfl⟩ := Prod.mk.inj (Option.some.inj h)
        obtain ⟨htake, hdrop⟩ := hsplit s hrest
        obtain ⟨b, r, hbr⟩ := List.exists_cons_of_ne_nil hrest
        simp_all

/-- The sign, or none. -/
theorem parseInt_cons (b : UInt8) (s : Bytes) :
    parseInt (b :: s) = if b = 0x2D then
        (parseNat s).bind (fun p =>
          if IntRange (-(p.1 : Int)) then some (.int (-(p.1 : Int)), p.2) else none)
      else
        (parseNat (b :: s)).bind (fun p =>
          if IntRange (p.1 : Int) then some (.int (p.1 : Int), p.2) else none) := by
  have hbind : ∀ (o : Option (Nat × Bytes)) (f : Nat → Int),
      (match o with
        | none => none
        | some (n, rest) => if IntRange (f n) then some (Json.int (f n), rest) else none)
      = o.bind (fun p => if IntRange (f p.1) then some (Json.int (f p.1), p.2) else none) := by
    intro o f
    cases o <;> rfl
  by_cases hb : b = 0x2D
  · have hhead : (b :: s).head? = some 0x2D := congrArg some hb
    rw [if_pos hb]
    exact (if_pos hhead).trans (hbind (parseNat s) (fun n => -(n : Int)))
  · have hhead : (b :: s).head? ≠ some 0x2D := fun h => hb (Option.some.inj h)
    rw [if_neg hb]
    exact (if_neg hhead).trans (hbind (parseNat (b :: s)) (fun n => (n : Int)))

theorem parseInt_append {s rest : Bytes} {v : Json} (h : parseInt s = some (v, rest))
    (hrest : rest ≠ []) (t : Bytes) : parseInt (s ++ t) = some (v, rest ++ t) := by
  have hnumber : ∀ (s : Bytes) (f : Nat → Int),
      (parseNat s).bind (fun p => if IntRange (f p.1) then some (Json.int (f p.1), p.2) else none)
        = some (v, rest) →
      (parseNat (s ++ t)).bind (fun p =>
        if IntRange (f p.1) then some (Json.int (f p.1), p.2) else none) = some (v, rest ++ t) := by
    intro s f h
    obtain ⟨⟨n, r⟩, hn, hv⟩ := Option.bind_eq_some_iff.mp h
    by_cases hrange : IntRange (f n)
    · rw [if_pos hrange] at hv
      cases hv
      rw [parseNat_append hn hrest t]
      exact if_pos hrange
    · rw [if_neg hrange] at hv
      cases hv
  cases s with
  | nil => cases h
  | cons b s =>
      rw [parseInt_cons] at h
      rw [List.cons_append, parseInt_cons]
      by_cases hb : b = 0x2D
      · rw [if_pos hb] at h ⊢
        exact hnumber s (fun n => -(n : Int)) h
      · rw [if_neg hb] at h ⊢
        exact hnumber (b :: s) (fun n => (n : Int)) h

theorem parseWord_append {w s rest : Bytes} {v u : Json} (h : parseWord w v s = some (u, rest))
    (t : Bytes) : parseWord w v (s ++ t) = some (u, rest ++ t) := by
  rw [parseWord] at h ⊢
  split at h
  · rename_i hw
    have hlen : w.length ≤ s.length := by
      have := congrArg List.length hw
      rw [List.length_take] at this
      omega
    rw [List.take_append_of_le_length hlen, if_pos hw, List.drop_append_of_le_length hlen]
    cases h
    rfl
  · cases h

theorem skipWs_append {s : Bytes} (h : skipWs s ≠ []) (t : Bytes) :
    skipWs (s ++ t) = skipWs s ++ t := by
  induction s with
  | nil => exact absurd rfl h
  | cons b s ih =>
      cases hb : isWs b with
      | true =>
          simp only [skipWs, List.cons_append, List.dropWhile_cons, hb, if_true] at h ih ⊢
          exact ih h
      | false => simp [skipWs, hb]

theorem ne_nil_of_skipWs {s : Bytes} {b : UInt8} {r : Bytes} (h : skipWs s = b :: r) : s ≠ [] := by
  rintro rfl
  cases h

theorem skipWs_append_cons {s : Bytes} {b : UInt8} {r : Bytes} (h : skipWs s = b :: r) (t : Bytes) :
    skipWs (s ++ t) = b :: (r ++ t) := by
  rw [skipWs_append (by rw [h]; exact List.cons_ne_nil _ _), h, List.cons_append]

theorem parseValue_nil (n d : Nat) : parseValue n d [] = none := by
  cases n with
  | zero => rfl
  | succ n => cases d <;> rfl

theorem parseMember_nil (n d : Nat) : parseMember n d [] = none := by
  cases n <;> rfl

/-- A number is no container. -/
theorem parseInt_not_container {s rest : Bytes} {v : Json} (h : parseInt s = some (v, rest)) :
    isContainer v = false := by
  cases s with
  | nil => cases h
  | cons b s =>
      rw [parseInt_cons] at h
      split at h
      · obtain ⟨p, -, hv⟩ := Option.bind_eq_some_iff.mp h
        split at hv
        · cases hv
          rfl
        · cases hv
      · obtain ⟨p, -, hv⟩ := Option.bind_eq_some_iff.mp h
        split at hv
        · cases hv
          rfl
        · cases hv

/-- What the parser has read up to a closing bracket, it reads again when text
    follows; a number wants to see its end. -/
theorem parse_append (t : Bytes) (n : Nat) :
    (∀ d s v rest m, n ≤ m → (isContainer v = true ∨ rest ≠ []) →
        parseValue n d s = some (v, rest) → parseValue m d (s ++ t) = some (v, rest ++ t))
      ∧ (∀ d s vs rest m, n ≤ m → parseElems n d s = some (vs, rest) →
        s ≠ [] ∧ parseElems m d (s ++ t) = some (vs, rest ++ t))
      ∧ (∀ d s x rest m, n ≤ m → rest ≠ [] → parseMember n d s = some (x, rest) →
        parseMember m d (s ++ t) = some (x, rest ++ t))
      ∧ (∀ d s ms rest m, n ≤ m → parseMembers n d s = some (ms, rest) →
        s ≠ [] ∧ parseMembers m d (s ++ t) = some (ms, rest ++ t)) := by
  induction n with
  | zero =>
      refine ⟨?_, ?_, ?_, ?_⟩
      · intro d s v rest m _ _ h
        cases h
      · intro d s vs rest m _ h
        cases h
      · intro d s x rest m _ _ h
        cases h
      · intro d s ms rest m _ h
        cases h
  | succ n ih =>
      obtain ⟨ihv, ihes, ihm, ihms⟩ := ih
      refine ⟨?_, ?_, ?_, ?_⟩
      · intro d s v rest m hm hv h
        obtain ⟨m, rfl⟩ : ∃ k, m = k + 1 := ⟨m - 1, by omega⟩
        have hle : n ≤ m := Nat.le_of_succ_le_succ hm
        cases d with
        | zero => cases h
        | succ d =>
            cases s with
            | nil => cases h
            | cons b s =>
                rw [List.cons_append]
                rw [parseValue] at h ⊢
                by_cases hq : b = 0x22
                · rw [if_pos hq] at h ⊢
                  obtain ⟨r, hr, hx⟩ := Option.map_eq_some_iff.mp h
                  cases hx
                  rw [parseStr_append hr t]
                  rfl
                rw [if_neg hq] at h ⊢
                by_cases ha : b = 0x5B
                · rw [if_pos ha] at h ⊢
                  cases hs : skipWs s with
                  | nil =>
                      rw [hs, if_neg (by simp), parseValue_nil] at h
                      cases h
                  | cons c r =>
                      rw [hs] at h
                      rw [skipWs_append_cons hs]
                      by_cases hc : (c :: r).head? = some 0x5D
                      · rw [if_pos hc] at h
                        rw [if_pos (show (c :: (r ++ t)).head? = _ from hc)]
                        cases h
                        rfl
                      · rw [if_neg hc] at h
                        rw [if_neg (show ¬ (c :: (r ++ t)).head? = _ from hc)]
                        cases hval : parseValue n d (c :: r) with
                        | none =>
                            rw [hval] at h
                            cases h
                        | some p =>
                            rw [hval] at h
                            obtain ⟨q, hq', hx⟩ := Option.map_eq_some_iff.mp h
                            obtain ⟨hne, helems⟩ := ihes d p.2 q.1 q.2 m hle hq'
                            have hval' := ihv d _ _ _ m hle (Or.inr hne) hval
                            rw [List.cons_append] at hval'
                            cases hx
                            simp only [hval', helems]
                            rfl
                rw [if_neg ha] at h ⊢
                by_cases ho : b = 0x7B
                · rw [if_pos ho] at h ⊢
                  cases hs : skipWs s with
                  | nil =>
                      rw [hs, if_neg (by simp), parseMember_nil] at h
                      cases h
                  | cons c r =>
                      rw [hs] at h
                      rw [skipWs_append_cons hs]
                      by_cases hc : (c :: r).head? = some 0x7D
                      · rw [if_pos hc] at h
                        rw [if_pos (show (c :: (r ++ t)).head? = _ from hc)]
                        cases h
                        rfl
                      · rw [if_neg hc] at h
                        rw [if_neg (show ¬ (c :: (r ++ t)).head? = _ from hc)]
                        cases hval : parseMember n d (c :: r) with
                        | none =>
                            rw [hval] at h
                            cases h
                        | some p =>
                            rw [hval] at h
                            obtain ⟨q, hq', hx⟩ := Option.map_eq_some_iff.mp h
                            obtain ⟨hne, helems⟩ := ihms d p.2 q.1 q.2 m hle hq'
                            have hval' := ihm d _ _ _ m hle hne hval
                            rw [List.cons_append] at hval'
                            cases hx
                            simp only [hval', helems]
                            rfl
                rw [if_neg ho] at h ⊢
                by_cases hn : b = 0x6E
                · rw [if_pos hn] at h ⊢
                  exact parseWord_append h t
                rw [if_neg hn] at h ⊢
                by_cases htrue : b = 0x74
                · rw [if_pos htrue] at h ⊢
                  exact parseWord_append h t
                rw [if_neg htrue] at h ⊢
                by_cases hf : b = 0x66
                · rw [if_pos hf] at h ⊢
                  exact parseWord_append h t
                rw [if_neg hf] at h ⊢
                refine parseInt_append h (hv.resolve_left (fun hc => ?_)) t
                rw [parseInt_not_container h] at hc
                cases hc
      · intro d s vs rest m hm h
        obtain ⟨m, rfl⟩ : ∃ k, m = k + 1 := ⟨m - 1, by omega⟩
        have hle : n ≤ m := Nat.le_of_succ_le_succ hm
        rw [parseElems] at h ⊢
        cases hs : skipWs s with
        | nil =>
            rw [hs] at h
            cases h
        | cons b r =>
            refine ⟨ne_nil_of_skipWs hs, ?_⟩
            rw [hs] at h
            rw [skipWs_append_cons hs]
            dsimp only at h ⊢
            split at h
            · rw [if_pos ‹_›]
              cases h
              rfl
            · rw [if_neg ‹_›]
              split at h
              · rw [if_pos ‹_›]
                cases hr : skipWs r with
                | nil =>
                    rw [hr, parseValue_nil] at h
                    cases h
                | cons c r' =>
                    rw [hr] at h
                    rw [skipWs_append_cons hr]
                    cases hval : parseValue n d (c :: r') with
                    | none =>
                        rw [hval] at h
                        cases h
                    | some p =>
                        rw [hval] at h
                        obtain ⟨q, hq, hx⟩ := Option.map_eq_some_iff.mp h
                        obtain ⟨hne, helems⟩ := ihes d p.2 q.1 q.2 m hle hq
                        have hval' := ihv d _ _ _ m hle (Or.inr hne) hval
                        rw [List.cons_append] at hval'
                        cases hx
                        simp only [hval', helems]
                        rfl
              · cases h
      · intro d s x rest m hm hrest h
        obtain ⟨m, rfl⟩ : ∃ k, m = k + 1 := ⟨m - 1, by omega⟩
        have hle : n ≤ m := Nat.le_of_succ_le_succ hm
        cases s with
        | nil => cases h
        | cons b s =>
            rw [parseMember] at h
            rw [List.cons_append, parseMember]
            split at h
            · rw [if_pos ‹_›]
              cases hk : parseStr s with
              | none =>
                  rw [hk] at h
                  cases h
              | some p =>
                  rw [hk] at h
                  rw [parseStr_append hk t]
                  dsimp only at h ⊢
                  cases hs : skipWs p.2 with
                  | nil =>
                      rw [hs] at h
                      cases h
                  | cons c r =>
                      rw [hs] at h
                      rw [skipWs_append_cons hs]
                      dsimp only at h ⊢
                      split at h
                      · rw [if_pos ‹_›]
                        obtain ⟨q, hq, hx⟩ := Option.map_eq_some_iff.mp h
                        cases hr : skipWs r with
                        | nil =>
                            rw [hr, parseValue_nil] at hq
                            cases hq
                        | cons e r' =>
                            rw [hr] at hq
                            rw [skipWs_append_cons hr]
                            cases hx
                            have hval' := ihv d _ _ _ m hle (Or.inr hrest) hq
                            rw [List.cons_append] at hval'
                            rw [hval']
                            rfl
                      · cases h
            · cases h
      · intro d s ms rest m hm h
        obtain ⟨m, rfl⟩ : ∃ k, m = k + 1 := ⟨m - 1, by omega⟩
        have hle : n ≤ m := Nat.le_of_succ_le_succ hm
        rw [parseMembers] at h ⊢
        cases hs : skipWs s with
        | nil =>
            rw [hs] at h
            cases h
        | cons b r =>
            refine ⟨ne_nil_of_skipWs hs, ?_⟩
            rw [hs] at h
            rw [skipWs_append_cons hs]
            dsimp only at h ⊢
            split at h
            · rw [if_pos ‹_›]
              cases h
              rfl
            · rw [if_neg ‹_›]
              split at h
              · rw [if_pos ‹_›]
                cases hr : skipWs r with
                | nil =>
                    rw [hr, parseMember_nil] at h
                    cases h
                | cons c r' =>
                    rw [hr] at h
                    rw [skipWs_append_cons hr]
                    cases hval : parseMember n d (c :: r') with
                    | none =>
                        rw [hval] at h
                        cases h
                    | some p =>
                        rw [hval] at h
                        obtain ⟨q, hq, hx⟩ := Option.map_eq_some_iff.mp h
                        obtain ⟨hne, helems⟩ := ihms d p.2 q.1 q.2 m hle hq
                        have hval' := ihm d _ _ _ m hle hne hval
                        rw [List.cons_append] at hval'
                        cases hx
                        simp only [hval', helems]
                        rfl
              · cases h

/-- **A TEXT IS COMPLETE**: what is still accepted with more behind it means
    the same. -/
theorem load_append {s t : Bytes} {v v' : Json} (h : load s = some v)
    (h' : load (s ++ t) = some v') : v' = v := by
  rw [load] at h h'
  split at h
  · cases h
  · split at h'
    · cases h'
    · cases hp : parseValue s.length maxDepth (skipWs s) with
      | none =>
          rw [hp] at h
          cases h
      | some p =>
          rw [hp] at h
          obtain ⟨v₀, rest⟩ := p
          dsimp only at h
          split at h
          · rename_i hdone
            cases h
            have hne : skipWs s ≠ [] := by
              intro hnil
              rw [hnil, parseValue_nil] at hp
              cases hp
            have hp' := (parse_append t s.length).1 maxDepth (skipWs s) v rest (s ++ t).length
              (by rw [List.length_append]; exact Nat.le_add_right _ _) (Or.inl hdone.1) hp
            rw [skipWs_append hne, hp'] at h'
            dsimp only at h'
            split at h'
            · exact (Option.some.inj h').symm
            · cases h'
          · cases h

/-- The text starts with a punctuation mark that starts no value. -/
def badStart : Bytes → Bool
  | b :: _ => [0x2C, 0x3A, 0x3C, 0x3E, 0x5D, 0x7D].contains b
  | [] => false

/-- Such a text is refused, whatever follows. -/
theorem load_badStart {s : Bytes} (h : badStart s = true) (t : Bytes) : load (s ++ t) = none := by
  cases s with
  | nil => cases h
  | cons b s =>
      have hno : isWs b = false ∧ isDigit b = false ∧ b ≠ 0x22 ∧ b ≠ 0x5B ∧ b ≠ 0x7B ∧ b ≠ 0x6E
          ∧ b ≠ 0x74 ∧ b ≠ 0x66 ∧ b ≠ 0x2D := by
        have hmem : b ∈ ([0x2C, 0x3A, 0x3C, 0x3E, 0x5D, 0x7D] : Bytes) := by
          simpa [badStart] using h
        revert hmem
        simp only [List.mem_cons, List.not_mem_nil, or_false]
        rintro (rfl | rfl | rfl | rfl | rfl | rfl) <;> decide
      obtain ⟨hws, hdigit, hq, ha, ho, hn, ht, hf, hminus⟩ := hno
      have hnat : parseNat (b :: (s ++ t)) = none := by
        simp [parseNat, hdigit]
      rw [List.cons_append, load]
      split
      · rfl
      · rw [List.length_cons, skipWs_cons hws, show maxDepth = 2047 + 1 from rfl, parseValue,
          if_neg hq, if_neg ha, if_neg ho, if_neg hn, if_neg ht, if_neg hf, parseInt_cons,
          if_neg hminus, hnat]
        rfl

example : load (dump false (.obj [([0x61], .arr [.int (-12), .str [0xC3, 0xA9, 0x0A], .null])]))
    = some (.obj [([0x61], .arr [.int (-12), .str [0xC3, 0xA9, 0x0A], .null])]) := by decide

end JsonText
