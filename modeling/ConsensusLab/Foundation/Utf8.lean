import Mathlib.Data.UInt

/-!
# UTF-8

The bytes of a text, and the text that a reader finds in bytes. The reader fails nowhere:
a byte that starts no character stands for the replacement character.
-/

namespace ConsensusLab.Foundation.Utf8

/-- U+FFFD. -/
def replacement : Char := Char.ofNat 0xFFFD

/-- The bytes of a character. -/
def encodeRune (c : Char) : List UInt8 :=
  if c.toNat < 0x80 then [.ofNat c.toNat]
  else if c.toNat < 0x800 then [.ofNat (0xC0 + c.toNat / 64), .ofNat (0x80 + c.toNat % 64)]
  else if c.toNat < 0x10000 then
    [.ofNat (0xE0 + c.toNat / 4096), .ofNat (0x80 + c.toNat / 64 % 64), .ofNat (0x80 + c.toNat % 64)]
  else [.ofNat (0xF0 + c.toNat / 262144), .ofNat (0x80 + c.toNat / 4096 % 64), .ofNat (0x80 + c.toNat / 64 % 64),
    .ofNat (0x80 + c.toNat % 64)]

/-- What the first byte of a character says: how many more there are, its bits, and the least code point that needs
so many bytes. -/
def leading (b : UInt8) : Option (ℕ × ℕ × ℕ) :=
  if b.toNat < 0x80 then some (0, b.toNat, 0)
  else if b.toNat / 32 = 6 then some (1, b.toNat % 32, 0x80)
  else if b.toNat / 16 = 14 then some (2, b.toNat % 16, 0x800)
  else if b.toNat / 8 = 30 then some (3, b.toNat % 8, 0x10000)
  else none

/-- Append the bits of so many continuation bytes. -/
def follow : ℕ → ℕ → List UInt8 → Option ℕ
  | 0, bits, _ => some bits
  | more + 1, bits, b :: rest => if b.toNat / 64 = 2 then follow more (bits * 64 + b.toNat % 64) rest else none
  | _ + 1, _, [] => none

/-- The character with a code point that is not below the least one. -/
def runeAt (least n : ℕ) : Option Char :=
  if least ≤ n ∧ (n < 0xD800 ∨ 0xDFFF < n ∧ n < 0x110000) then some (Char.ofNat n) else none

/-- The character that starts with a byte, and how many more bytes it has. -/
def decodeRune (b : UInt8) (rest : List UInt8) : Char × ℕ :=
  match leading b with
  | none => (replacement, 0)
  | some (more, bits, least) =>
    match (follow more bits rest).bind (runeAt least) with
    | none => (replacement, 0)
    | some c => (c, more)

/-- The characters of a byte sequence behind so many bytes of the last one. -/
def runes : ℕ → List UInt8 → List Char
  | _, [] => []
  | skip + 1, _ :: rest => runes skip rest
  | 0, b :: rest =>
    match decodeRune b rest with
    | (c, more) => c :: runes more rest

/-- Code points leave out the surrogates. -/
theorem toNat_cases (c : Char) : c.toNat < 0xD800 ∨ 0xDFFF < c.toNat ∧ c.toNat < 0x110000 := c.valid

/-- Small numbers are bytes. -/
theorem toNat_byte {n : ℕ} (h : n < 256) : (UInt8.ofNat n).toNat = n := by
  rw [UInt8.toNat_ofNat']
  omega

/-- A continuation byte. -/
theorem follow_cons {more bits n : ℕ} (hn : n < 64) (rest : List UInt8) :
    follow (more + 1) bits (.ofNat (0x80 + n) :: rest) = follow more (bits * 64 + n) rest := by
  rw [follow, toNat_byte (by omega), if_pos (by omega), show (0x80 + n) % 64 = n by omega]

/-- A character is decoded from its bits. -/
theorem decodeRune_of_follow {c : Char} {b : UInt8} {rest : List UInt8} {more : ℕ} (bits least : ℕ)
    (hleading : leading b = some (more, bits, least)) (hfollow : follow more bits rest = some c.toNat)
    (hleast : least ≤ c.toNat) : decodeRune b rest = (c, more) := by
  have hrune : runeAt least c.toNat = some c := by
    rw [runeAt, if_pos ⟨hleast, toNat_cases c⟩, Char.ofNat_toNat]
  simp only [decodeRune, hleading, hfollow, Option.bind_some, hrune]

/-- What is decoded from the bytes of a character. -/
theorem decodeRune_encodeRune (c : Char) (rest : List UInt8) :
    ∃ b more, encodeRune c = b :: more ∧ decodeRune b (more ++ rest) = (c, more.length) := by
  have hcases := toNat_cases c
  unfold encodeRune
  split
  · refine ⟨_, [], rfl, decodeRune_of_follow c.toNat 0 ?_ rfl (Nat.zero_le _)⟩
    rw [leading, toNat_byte (by omega), if_pos ‹_›]
    rfl
  split
  · refine ⟨_, [_], rfl, decodeRune_of_follow (c.toNat / 64) 0x80 ?_ ?_ (by omega)⟩
    · rw [leading, toNat_byte (by omega), if_neg (by omega), if_pos (by omega),
        show (0xC0 + c.toNat / 64) % 32 = c.toNat / 64 by omega]
      rfl
    · rw [List.singleton_append, List.length_singleton, follow_cons (by omega), follow]
      congr 1
      omega
  split
  · refine ⟨_, [_, _], rfl, decodeRune_of_follow (c.toNat / 4096) 0x800 ?_ ?_ (by omega)⟩
    · rw [leading, toNat_byte (by omega), if_neg (by omega), if_neg (by omega), if_pos (by omega),
        show (0xE0 + c.toNat / 4096) % 16 = c.toNat / 4096 by omega]
      rfl
    · change follow 2 _ (_ :: _ :: rest) = _
      rw [follow_cons (by omega), follow_cons (by omega), follow]
      congr 1
      omega
  · refine ⟨_, [_, _, _], rfl, decodeRune_of_follow (c.toNat / 262144) 0x10000 ?_ ?_ (by omega)⟩
    · rw [leading, toNat_byte (by omega), if_neg (by omega), if_neg (by omega), if_neg (by omega), if_pos (by omega),
        show (0xF0 + c.toNat / 262144) % 8 = c.toNat / 262144 by omega]
      rfl
    · change follow 3 _ (_ :: _ :: _ :: rest) = _
      rw [follow_cons (by omega), follow_cons (by omega), follow_cons (by omega), follow]
      congr 1
      omega

/-- So many bytes are passed over. -/
theorem runes_skip (skipped rest : List UInt8) : runes skipped.length (skipped ++ rest) = runes 0 rest := by
  induction skipped with
  | nil => rfl
  | cons b skipped ih => exact ih

/-- Reading the bytes of a character. -/
theorem runes_encodeRune (c : Char) (rest : List UInt8) : runes 0 (encodeRune c ++ rest) = c :: runes 0 rest := by
  obtain ⟨b, more, hencode, hdecode⟩ := decodeRune_encodeRune c rest
  rw [hencode, List.cons_append, runes, hdecode]
  exact congrArg (c :: ·) (runes_skip more rest)

/-- Reading the bytes of a text gives the text back. -/
theorem runes_flatMap_encodeRune (text : List Char) : runes 0 (text.flatMap encodeRune) = text := by
  induction text with
  | nil => rfl
  | cons c text ih => rw [List.flatMap_cons, runes_encodeRune, ih]

end ConsensusLab.Foundation.Utf8
