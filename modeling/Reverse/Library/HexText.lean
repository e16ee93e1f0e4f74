import Mathlib

/-!
# Hexadecimal fields in a byte stream

Numbers are printed as `%08x` does and read as `scanf` does.  A newline in a
format reads any amount of white space, so that a field followed by raw bytes
is only read back when they do not start with white space.
-/

namespace Reverse.HexText

open List

def ascii (text : String) : List (BitVec 8) :=
  text.toList.map fun char => BitVec.ofNat 8 char.toNat

/-- A character of a printed number. -/
def digit (value : Nat) : BitVec 8 :=
  if value < 10 then BitVec.ofNat 8 (48 + value)
  else BitVec.ofNat 8 (87 + value)

def digitValue? (byte : BitVec 8) : Option Nat :=
  if 48 ≤ byte.toNat ∧ byte.toNat ≤ 57 then some (byte.toNat - 48)
  else if 97 ≤ byte.toNat ∧ byte.toNat ≤ 102 then some (byte.toNat - 87)
  else if 65 ≤ byte.toNat ∧ byte.toNat ≤ 70 then some (byte.toNat - 55)
  else none

/-- The lowest `width` digits of a number. -/
def hexText : Nat → Nat → List (BitVec 8)
  | 0, _ => []
  | width + 1, value => hexText width (value / 16) ++ [digit (value % 16)]

/-- At most `width` digits. -/
def takeHex : Nat → Nat → List (BitVec 8) → Nat × List (BitVec 8)
  | 0, value, text => (value, text)
  | _ + 1, value, [] => (value, [])
  | width + 1, value, byte :: text =>
    match digitValue? byte with
    | some next => takeHex width (16 * value + next) text
    | none => (value, byte :: text)

def isSpace (byte : BitVec 8) : Bool :=
  byte = 32 ∨ 9 ≤ byte.toNat ∧ byte.toNat ≤ 13

/-- `%08x`, without the sign and the `0x` that `%08x` does not print. -/
def scanHex (text : List (BitVec 8)) : Option (Nat × List (BitVec 8)) :=
  match text.dropWhile isSpace with
  | [] => none
  | byte :: text =>
    (digitValue? byte).bind fun _ => some (takeHex 8 0 (byte :: text))

/-- A name, a number and a newline. -/
def field (name : List (BitVec 8)) (value : Nat) : List (BitVec 8) :=
  name ++ hexText 8 value ++ [10]

def scanField (name text : List (BitVec 8)) : Option (Nat × List (BitVec 8)) :=
  if name.isPrefixOf text then
    (scanHex (text.drop name.length)).map fun (value, rest) =>
      (value, rest.dropWhile isSpace)
  else none

theorem digitValue?_digit (small : value < 16) : digitValue? (digit value) = some value := by
  have all : ∀ value : Fin 16, digitValue? (digit value) = some value.val := by
    decide
  exact all ⟨value, small⟩

theorem isSpace_digit (small : value < 16) : isSpace (digit value) = false := by
  have all : ∀ value : Fin 16, isSpace (digit value) = false := by decide
  exact all ⟨value, small⟩

theorem hexText_length (width value : Nat) : (hexText width value).length = width := by
  induction width generalizing value with
  | zero => rfl
  | succ width ih => rw [hexText, length_append, ih, length_singleton]

theorem mem_hexText (member : byte ∈ hexText width value) : ∃ small < 16, byte = digit small := by
  induction width generalizing value with
  | zero => cases member
  | succ width ih =>
    rcases mem_append.mp member with earlier | last
    · exact ih earlier
    · exact ⟨value % 16, Nat.mod_lt _ (by decide), mem_singleton.mp last⟩

theorem takeHex_append (width : Nat) (areDigits : ∀ byte ∈ digits, ∃ small < 16, byte = digit small)
    (value : Nat) (rest : List (BitVec 8)) :
    takeHex (digits.length + width) value (digits ++ rest) =
      takeHex width (takeHex digits.length value digits).1 rest := by
  induction digits generalizing value with
  | nil => rw [length_nil, Nat.zero_add]; rfl
  | cons byte digits ih =>
    obtain ⟨small, bound, isDigit⟩ := areDigits byte mem_cons_self
    have digitValue := digitValue?_digit bound
    rw [← isDigit] at digitValue
    rw [length_cons, Nat.add_right_comm, cons_append, takeHex, takeHex, digitValue]
    exact ih (fun other member =>
      areDigits other (mem_cons_of_mem _ member)) _

theorem takeHex_hexText (width value start : Nat) (rest : List (BitVec 8)) :
    takeHex width start (hexText width value ++ rest) =
      (16 ^ width * start + value % 16 ^ width, rest) := by
  induction width generalizing value rest with
  | zero => rw [Nat.pow_zero, Nat.mod_one, Nat.one_mul]; rfl
  | succ width ih =>
    have digits : ∀ byte ∈ hexText width (value / 16),
        ∃ small < 16, byte = digit small := fun _ => mem_hexText
    have read := takeHex_append 1 digits start (digit (value % 16) :: rest)
    have earlier := ih (value / 16) []
    rw [append_nil] at earlier
    rw [hexText_length, earlier] at read
    have number : 16 * (16 ^ width * start + value / 16 % 16 ^ width) +
        value % 16 = 16 ^ (width + 1) * start + value % 16 ^ (width + 1) := by
      rw [Nat.pow_succ', Nat.mod_mul, Nat.mul_add, Nat.mul_assoc]
      omega
    rw [hexText, append_assoc, singleton_append, read, takeHex,
      digitValue?_digit (Nat.mod_lt _ (by decide))]
    exact congrArg (·, rest) number

/-- A printed number is read back and ends where it was printed. -/
theorem scanHex_hexText (value : Nat) (rest : List (BitVec 8)) :
    scanHex (hexText 8 value ++ rest) = some (value % 16 ^ 8, rest) := by
  have read := takeHex_hexText 8 value 0 rest
  have digits : ∀ byte ∈ hexText 8 value, ∃ small < 16, byte = digit small := fun _ => mem_hexText
  cases text : hexText 8 value with
  | nil =>
    have length := hexText_length 8 value
    rw [text] at length
    cases length
  | cons byte others =>
    rw [text] at digits read
    obtain ⟨small, bound, isDigit⟩ := digits byte mem_cons_self
    have notSpace := isSpace_digit bound
    have isValue := digitValue?_digit bound
    rw [← isDigit] at notSpace isValue
    unfold scanHex
    rw [cons_append, dropWhile_cons_of_neg (ne_true_of_eq_false notSpace)]
    dsimp only
    rw [isValue]
    refine congrArg some (read.trans ?_)
    rw [Nat.mul_zero, Nat.zero_add]

/-- The text does not start with white space. -/
def Solid (text : List (BitVec 8)) : Prop :=
  ∀ byte ∈ text.head?, isSpace byte = false

theorem Solid.append (solid : Solid text) (some : text ≠ []) : Solid (text ++ rest) := by
  cases text with
  | nil => exact absurd rfl some
  | cons byte text => exact solid

theorem Solid.dropWhile (solid : Solid text) : text.dropWhile isSpace = text := by
  cases text with
  | nil => rfl
  | cons byte text =>
    exact dropWhile_cons_of_neg (ne_true_of_eq_false (solid byte rfl))

theorem scanField_field (name : List (BitVec 8)) (value : Nat) (solid : Solid rest) :
    scanField name (field name value ++ rest) = some (value % 16 ^ 8, rest) := by
  unfold scanField field
  rw [append_assoc, append_assoc, if_pos
    ( isPrefixOf_iff_prefix.mpr (prefix_append ..)), drop_left,
    scanHex_hexText]
  refine congrArg (fun text => some (value % 16 ^ 8, text)) ?_
  exact (dropWhile_cons_of_pos rfl).trans solid.dropWhile

end Reverse.HexText
