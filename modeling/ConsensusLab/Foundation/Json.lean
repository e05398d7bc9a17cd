import ConsensusLab.Foundation.Utf8

/-!
# JSON texts

The texts that `encoding/json` reads, and those that it writes for objects of strings. The
reader takes the whole grammar, with white space, every escape, numbers and nested values;
strings stand for the characters that they spell, where half a surrogate pair is the
replacement character. The writer escapes what would be awkward inside HTML as well. What
it writes is read as the members it was given.
-/

namespace ConsensusLab.Foundation

/-- A JSON value. -/
inductive Json
  | null
  | bool (value : Bool)
  | number (text : List Char)
  | string (text : List Char)
  | array (items : List Json)
  | object (members : List (List Char × Json))

namespace Json

section Reader

variable {A : Type}

/-- White space. -/
def isSpace (c : Char) : Bool := c == ' ' || c == '\t' || c == '\r' || c == '\n'

/-- The text behind white space. -/
def skipSpace (cs : List Char) : List Char := cs.dropWhile isSpace

/-- A hexadecimal digit. -/
def hexValue (c : Char) : Option ℕ :=
  if 0x30 ≤ c.toNat ∧ c.toNat ≤ 0x39 then some (c.toNat - 0x30)
  else if 0x61 ≤ c.toNat ∧ c.toNat ≤ 0x66 then some (c.toNat - 0x61 + 10)
  else if 0x41 ≤ c.toNat ∧ c.toNat ≤ 0x46 then some (c.toNat - 0x41 + 10)
  else none

/-- Four hexadecimal digits. -/
def hex4 : List Char → Option ℕ
  | a :: b :: c :: d :: _ => do
    let a ← hexValue a
    let b ← hexValue b
    let c ← hexValue c
    let d ← hexValue d
    some (((a * 16 + b) * 16 + c) * 16 + d)
  | _ => none

/-- The second half of a surrogate pair. -/
def lowSurrogate : List Char → Option ℕ
  | '\\' :: 'u' :: rest => (hex4 rest).filter fun m => 0xDC00 ≤ m ∧ m < 0xE000
  | _ => none

/-- The character of an escape, and how long the escape is behind the backslash. -/
def escape : List Char → Option (Char × ℕ)
  | 'u' :: rest => (hex4 rest).map fun n =>
    if 0xD800 ≤ n ∧ n < 0xDC00 then
      match lowSurrogate (rest.drop 4) with
      | some m => (Char.ofNat (0x10000 + (n - 0xD800) * 0x400 + (m - 0xDC00)), 11)
      | none => (Utf8.replacement, 5)
    else if 0xDC00 ≤ n ∧ n < 0xE000 then (Utf8.replacement, 5)
    else (Char.ofNat n, 5)
  | 'b' :: _ => some ('\x08', 1)
  | 'f' :: _ => some ('\x0c', 1)
  | 'n' :: _ => some ('\n', 1)
  | 'r' :: _ => some ('\r', 1)
  | 't' :: _ => some ('\t', 1)
  | c :: _ => if c = '"' ∨ c = '\\' ∨ c = '/' then some (c, 1) else none
  | [] => none

/-- The characters of a string up to its closing quote, behind so many characters of the last escape. -/
def unquote : ℕ → List Char → Option (List Char × List Char)
  | _, [] => none
  | skip + 1, _ :: rest => unquote skip rest
  | 0, c :: rest =>
    if c = '"' then some ([], rest)
    else if c = '\\' then do
      let (d, size) ← escape rest
      let (text, rest) ← unquote size rest
      some (d :: text, rest)
    else if c.toNat < 0x20 then none
    else do
      let (text, rest) ← unquote 0 rest
      some (c :: text, rest)

/-- One digit or more. -/
def digits (cs : List Char) : Option (List Char × List Char) :=
  match cs.span Char.isDigit with
  | ([], _) => none
  | (found, rest) => some (found, rest)

/-- The whole part of a number, without leading zeros. -/
def wholePart : List Char → Option (List Char × List Char)
  | '0' :: rest => some (['0'], rest)
  | cs => digits cs

/-- The part behind the decimal point, if there is one. -/
def fraction : List Char → Option (List Char × List Char)
  | '.' :: rest => (digits rest).map fun (found, rest) => ('.' :: found, rest)
  | cs => some ([], cs)

/-- The exponent, if there is one. -/
def exponent : List Char → Option (List Char × List Char)
  | e :: rest =>
    if e = 'e' ∨ e = 'E' then
      match rest with
      | sign :: more =>
        if sign = '+' ∨ sign = '-' then (digits more).map fun (found, rest) => (e :: sign :: found, rest)
        else (digits rest).map fun (found, rest) => (e :: found, rest)
      | [] => none
    else some ([], e :: rest)
  | [] => some ([], [])

/-- A number without its sign. -/
def unsigned (cs : List Char) : Option (List Char × List Char) := do
  let (whole, rest) ← wholePart cs
  let (part, rest) ← fraction rest
  let (scale, rest) ← exponent rest
  some (whole ++ part ++ scale, rest)

/-- A number. -/
def number? : List Char → Option (List Char × List Char)
  | '-' :: rest => (unsigned rest).map fun (found, rest) => ('-' :: found, rest)
  | cs => unsigned cs

/-- A value that holds no others. -/
def scalar : List Char → Option (Json × List Char)
  | '"' :: rest => (unquote 0 rest).map fun (text, rest) => (.string text, rest)
  | 't' :: 'r' :: 'u' :: 'e' :: rest => some (.bool true, rest)
  | 'f' :: 'a' :: 'l' :: 's' :: 'e' :: rest => some (.bool false, rest)
  | 'n' :: 'u' :: 'l' :: 'l' :: rest => some (.null, rest)
  | cs => (number? cs).map fun (text, rest) => (.number text, rest)

/-- Items with commas between them up to a closing mark, at most so many. -/
def separated (item : List Char → Option (A × List Char)) (close : Char) : ℕ → List Char → Option (List A × List Char)
  | 0, _ => none
  | fuel + 1, cs => do
    let (a, rest) ← item cs
    match skipSpace rest with
    | [] => none
    | c :: rest =>
      if c = close then some ([a], rest)
      else if c = ',' then do
        let (as, rest) ← separated item close fuel (skipSpace rest)
        some (a :: as, rest)
      else none

/-- All items up to a closing mark. Each of them takes at least one character. -/
def listed (item : List Char → Option (A × List Char)) (close : Char) (cs : List Char) : Option (List A × List Char) :=
  match skipSpace cs with
  | [] => none
  | c :: rest => if c = close then some ([], rest) else separated item close (rest.length + 1) (c :: rest)

/-- A member of an object. -/
def member (item : List Char → Option (Json × List Char)) : List Char → Option ((List Char × Json) × List Char)
  | '"' :: rest => do
    let (key, rest) ← unquote 0 rest
    match skipSpace rest with
    | ':' :: rest => do
      let (j, rest) ← item (skipSpace rest)
      some ((key, j), rest)
    | _ => none
  | _ => none

/-- A value with others nested in it to some depth. -/
def value : ℕ → List Char → Option (Json × List Char)
  | depth + 1, '{' :: rest => (listed (member (value depth)) '}' rest).map fun (members, rest) => (.object members, rest)
  | depth + 1, '[' :: rest => (listed (value depth) ']' rest).map fun (items, rest) => (.array items, rest)
  | _, cs => scalar cs

/-- `maxNestingDepth`. -/
def maxNestingDepth : ℕ := 10000

/-- The value of a text. -/
def parse (bytes : List UInt8) : Option Json :=
  match value maxNestingDepth (skipSpace (Utf8.runes 0 bytes)) with
  | some (j, rest) => if (skipSpace rest).isEmpty then some j else none
  | none => none

end Reader

section Writer

/-- A hexadecimal digit. -/
def hexDigit (n : ℕ) : Char := Char.ofNat (if n < 10 then 0x30 + n else 0x61 + (n - 10))

/-- What stands for a character inside a string. -/
def quoteChar (c : Char) : List Char :=
  if c = '"' ∨ c = '\\' then ['\\', c]
  else if c = '\x08' then ['\\', 'b']
  else if c = '\x0c' then ['\\', 'f']
  else if c = '\n' then ['\\', 'n']
  else if c = '\r' then ['\\', 'r']
  else if c = '\t' then ['\\', 't']
  else if c.toNat < 0x20 ∨ c = '<' ∨ c = '>' ∨ c = '&' ∨ c.toNat = 0x2028 ∨ c.toNat = 0x2029 then
    ['\\', 'u', hexDigit (c.toNat / 4096), hexDigit (c.toNat / 256 % 16), hexDigit (c.toNat / 16 % 16),
      hexDigit (c.toNat % 16)]
  else [c]

/-- A string. -/
def quote (text : List Char) : List Char := '"' :: (text.flatMap quoteChar ++ ['"'])

/-- A member whose value is a string. -/
def writeMember (m : List Char × List Char) : List Char := quote m.1 ++ ':' :: quote m.2

/-- The members behind the first. -/
def writeMembers (ms : List (List Char × List Char)) : List Char := ms.flatMap fun m => ',' :: writeMember m

/-- An object of strings. -/
def writeObject : List (List Char × List Char) → List Char
  | [] => ['{', '}']
  | m :: ms => '{' :: (writeMember m ++ (writeMembers ms ++ ['}']))

/-- The text of an object of strings. -/
def write (ms : List (List Char × List Char)) : List UInt8 := (writeObject ms).flatMap Utf8.encodeRune

end Writer

section RoundTrip

/-- Hexadecimal digits are read as they are written. -/
theorem hexValue_hexDigit {n : ℕ} (h : n < 16) : hexValue (hexDigit n) = some n := by
  have hall : ∀ n < 16, hexValue (hexDigit n) = some n := by decide
  exact hall n h

/-- So are four of them. -/
theorem hex4_hexDigits {n : ℕ} (h : n < 65536) (rest : List Char) :
    hex4 (hexDigit (n / 4096) :: hexDigit (n / 256 % 16) :: hexDigit (n / 16 % 16) :: hexDigit (n % 16) :: rest) =
      some n := by
  simp only [hex4, hexValue_hexDigit (show n / 4096 < 16 by omega), hexValue_hexDigit (show n / 256 % 16 < 16 by omega),
    hexValue_hexDigit (show n / 16 % 16 < 16 by omega), hexValue_hexDigit (show n % 16 < 16 by omega),
    Option.bind_eq_bind, Option.bind_some]
  congr 1
  omega

/-- Characters of an escape are passed over. -/
theorem unquote_skip (skipped rest : List Char) : unquote skipped.length (skipped ++ rest) = unquote 0 rest := by
  induction skipped with
  | nil => rfl
  | cons c skipped ih => exact ih

/-- An escape is read as the character it stands for. -/
theorem unquote_escape {c : Char} (text : List Char) {rest : List Char}
    (h : escape (text ++ rest) = some (c, text.length)) :
    unquote 0 ('\\' :: (text ++ rest)) = (unquote 0 rest).map fun (text, rest) => (c :: text, rest) := by
  rw [unquote, if_neg (by decide), if_pos rfl, h]
  simp only [Option.bind_eq_bind, Option.bind_some, unquote_skip]
  cases unquote 0 rest <;> rfl

/-- An escape by code point is read as the character. -/
theorem escape_hexDigits {c : Char} (h : c.toNat < 0xD800) (rest : List Char) :
    escape ('u' :: hexDigit (c.toNat / 4096) :: hexDigit (c.toNat / 256 % 16) :: hexDigit (c.toNat / 16 % 16) ::
      hexDigit (c.toNat % 16) :: rest) = some (c, 5) := by
  rw [escape, hex4_hexDigits (by omega), Option.map_some, if_neg (by omega), if_neg (by omega), Char.ofNat_toNat]

/-- A quoted character is read as it is. -/
theorem unquote_quoteChar (c : Char) (rest : List Char) :
    unquote 0 (quoteChar c ++ rest) = (unquote 0 rest).map fun (text, rest) => (c :: text, rest) := by
  unfold quoteChar
  split
  · rename_i hspecial
    rcases hspecial with rfl | rfl
    · exact unquote_escape ['"'] rfl
    · exact unquote_escape ['\\'] rfl
  rename_i hspecial
  split
  · subst c
    exact unquote_escape ['b'] rfl
  split
  · subst c
    exact unquote_escape ['f'] rfl
  split
  · subst c
    exact unquote_escape ['n'] rfl
  split
  · subst c
    exact unquote_escape ['r'] rfl
  split
  · subst c
    exact unquote_escape ['t'] rfl
  split
  · rename_i hcode
    have hlow : c.toNat < 0xD800 := by
      rcases hcode with h | rfl | rfl | rfl | h | h
      all_goals first | omega | decide
    exact unquote_escape ['u', _, _, _, _] (escape_hexDigits hlow rest)
  · rename_i hplain
    rw [List.singleton_append, unquote, if_neg fun h => hspecial (Or.inl h), if_neg fun h => hspecial (Or.inr h),
      if_neg fun h => hplain (Or.inl h)]
    simp only [Option.bind_eq_bind]
    cases unquote 0 rest <;> rfl

/-- A quoted string is read as it is. -/
theorem unquote_quote (text rest : List Char) :
    unquote 0 (text.flatMap quoteChar ++ '"' :: rest) = some (text, rest) := by
  induction text with
  | nil => rfl
  | cons c text ih => rw [List.flatMap_cons, List.append_assoc, unquote_quoteChar, ih, Option.map_some]

/-- A mark that is no white space is not skipped. -/
theorem skipSpace_cons {c : Char} (h : isSpace c = false) (rest : List Char) : skipSpace (c :: rest) = c :: rest := by
  rw [skipSpace, List.dropWhile_cons, h]
  rfl

/-- A string and what stands behind it. -/
theorem quote_append (text rest : List Char) : quote text ++ rest = '"' :: (text.flatMap quoteChar ++ '"' :: rest) := by
  rw [quote, List.cons_append, List.append_assoc, List.singleton_append]

/-- A string is a value at every depth. -/
theorem value_quote (depth : ℕ) (text rest : List Char) : value depth (quote text ++ rest) = some (.string text, rest) := by
  have hscalar : scalar (quote text ++ rest) = some (.string text, rest) := by
    rw [quote_append, scalar, unquote_quote, Option.map_some]
  rw [← hscalar, quote_append]
  cases depth <;> rfl

/-- A written member is read as it is. -/
theorem member_writeMember (depth : ℕ) (m : List Char × List Char) (rest : List Char) :
    member (value depth) (writeMember m ++ rest) = some ((m.1, .string m.2), rest) := by
  have hspace : skipSpace (quote m.2 ++ rest) = quote m.2 ++ rest := by
    rw [quote_append, skipSpace_cons rfl]
  rw [writeMember, List.append_assoc, quote_append, List.cons_append, member, unquote_quote]
  simp only [Option.bind_eq_bind, Option.bind_some, skipSpace_cons (show isSpace ':' = false from rfl), hspace, value_quote]

/-- A member starts with a quote, so there is no white space before it. -/
theorem skipSpace_writeMember (m : List Char × List Char) (rest : List Char) :
    skipSpace (writeMember m ++ rest) = writeMember m ++ rest := by
  rw [writeMember, List.append_assoc, quote_append, skipSpace_cons rfl]

/-- Written members are read as they are. -/
theorem separated_writeMembers (depth : ℕ) (m : List Char × List Char) (ms : List (List Char × List Char))
    (rest : List Char) {fuel : ℕ} (h : ms.length < fuel) :
    separated (member (value depth)) '}' fuel (writeMember m ++ (writeMembers ms ++ '}' :: rest)) =
      some ((m :: ms).map fun m => (m.1, .string m.2), rest) := by
  induction ms generalizing m fuel with
  | nil =>
    obtain ⟨fuel, rfl⟩ := Nat.exists_eq_add_of_lt h
    rw [separated, member_writeMember]
    rfl
  | cons next ms ih =>
    obtain ⟨fuel, rfl⟩ : ∃ n, fuel = n + 1 := ⟨fuel - 1, by omega⟩
    have hmore : writeMembers (next :: ms) ++ '}' :: rest = ',' :: (writeMember next ++ (writeMembers ms ++ '}' :: rest)) := by
      rw [writeMembers, List.flatMap_cons, List.cons_append, List.cons_append, List.append_assoc]
      rfl
    rw [separated, member_writeMember]
    simp only [Option.bind_eq_bind, Option.bind_some, hmore, skipSpace_cons (show isSpace ',' = false from rfl),
      skipSpace_writeMember, ih next (Nat.lt_of_succ_lt_succ h)]
    rfl

/-- Each member takes at least one character. -/
theorem length_le_writeMembers (ms : List (List Char × List Char)) : ms.length ≤ (writeMembers ms).length := by
  induction ms with
  | nil => exact Nat.le_refl _
  | cons m ms ih =>
    rw [writeMembers, List.flatMap_cons, List.length_append, List.length_cons, List.length_cons]
    change _ ≤ _ + (writeMembers ms).length
    omega

/-- A written object is read as it is. -/
theorem value_writeObject (depth : ℕ) (ms : List (List Char × List Char)) :
    value (depth + 1) (writeObject ms) = some (.object (ms.map fun m => (m.1, .string m.2)), []) := by
  cases ms with
  | nil => rfl
  | cons m ms =>
    obtain ⟨tail, htail⟩ : ∃ tail, writeMember m ++ (writeMembers ms ++ ['}']) = '"' :: tail :=
      ⟨_, by rw [writeMember, List.append_assoc, quote_append]⟩
    have hfuel : ms.length < tail.length + 1 := by
      have hlength := congrArg List.length htail
      have hle := length_le_writeMembers ms
      rw [List.length_append, List.length_append, List.length_singleton, List.length_cons] at hlength
      omega
    have hlisted : listed (member (value depth)) '}' (writeMember m ++ (writeMembers ms ++ ['}'])) =
        some ((m :: ms).map fun m => (m.1, .string m.2), []) := by
      rw [← separated_writeMembers depth m ms [] hfuel, listed, skipSpace_writeMember, htail]
      rfl
    rw [writeObject, value, hlisted, Option.map_some]

/-- **What is written is read back.** -/
theorem parse_write (ms : List (List Char × List Char)) :
    parse (write ms) = some (.object (ms.map fun m => (m.1, .string m.2))) := by
  have hspace : skipSpace (writeObject ms) = writeObject ms := by
    cases ms <;> exact skipSpace_cons rfl _
  rw [parse, write, Utf8.runes_flatMap_encodeRune, hspace, maxNestingDepth, value_writeObject]
  rfl

end RoundTrip

end Json

end ConsensusLab.Foundation
