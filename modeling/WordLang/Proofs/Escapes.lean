import WordLang.Asm.Quoted

/-!
# Reading quoted strings

How an assembler reads the operand of a `.string` directive: a backslash starts an escape, and an
octal escape takes as many digits as follow, three at most. Reading what `Quoted.encode` writes
gives the bytes of the string back.
-/
namespace WordLang

theorem utf8_eq_flatMap (text : String) :
    utf8 text = text.toList.flatMap String.utf8EncodeChar := by
  rw [utf8, String.toUTF8, ← String.utf8Encode_toList, List.utf8Encode]
  simp

namespace Asm.Quoted

/-- What has been read of an escape. -/
inductive Escape where
  | none
  | backslash
  | octal (digits value : Nat)
  deriving DecidableEq, Repr

def octalValue? (c : Char) : Option Nat :=
  if '0' ≤ c ∧ c ≤ '7' then some (c.toNat - '0'.toNat) else none

/-- A character outside an escape. A quote would end the operand, and a newline the line. -/
def readPlain (c : Char) : Option (List UInt8 × Escape) :=
  if c = '"' ∨ c = '\n' then none
  else if c = '\\' then some ([], .backslash)
  else some (String.utf8EncodeChar c, .none)

/-- A character after a backslash; other escapes than these are refused. -/
def readEscaped (c : Char) : Option (List UInt8 × Escape) :=
  match c with
  | '\\' => some ([0x5c], .none)
  | '"' => some ([0x22], .none)
  | 'n' => some ([0x0a], .none)
  | 't' => some ([0x09], .none)
  | 'r' => some ([0x0d], .none)
  | c => (octalValue? c).map fun digit => ([], .octal 1 digit)

/-- A character after digits of an octal escape, which it continues if it can. -/
def readOctal (digits value : Nat) (c : Char) : Option (List UInt8 × Escape) :=
  match if digits < 3 then octalValue? c else none with
  | some digit => some ([], .octal (digits + 1) (8 * value + digit))
  | none => (readPlain c).map fun (bytes, next) => (UInt8.ofNat value :: bytes, next)

/-- The bytes that one more character completes, and what it leaves open. -/
def Escape.read : Escape → Char → Option (List UInt8 × Escape)
  | .none => readPlain
  | .backslash => readEscaped
  | .octal digits value => readOctal digits value

/-- The bytes that the end of the operand completes. -/
def Escape.close : Escape → Option (List UInt8)
  | .none => some []
  | .backslash => Option.none
  | .octal _ value => some [UInt8.ofNat value]

/-- The bytes of an operand of which the beginning has been read. -/
def decodeFrom : Escape → List Char → Option (List UInt8)
  | state, [] => state.close
  | state, c :: cs => do
    let (bytes, next) ← state.read c
    let rest ← decodeFrom next cs
    return bytes ++ rest

/-- The bytes that an operand stands for, if it is well formed. -/
def decode (operand : String) : Option (List UInt8) := decodeFrom .none operand.toList

/-- Digits that follow a complete octal escape are characters of their own. -/
theorem decodeFrom_octal_three (value : Nat) (cs : List Char) :
    decodeFrom (.octal 3 value) cs = (decodeFrom .none cs).map (UInt8.ofNat value :: ·) := by
  cases cs with
  | nil => rfl
  | cons c cs =>
    simp only [decodeFrom, Escape.read, readOctal, Nat.lt_irrefl, if_false]
    cases readPlain c with
    | none => rfl
    | some step =>
      obtain ⟨bytes, next⟩ := step
      cases h : decodeFrom next cs <;> simp [h]

theorem octalValue?_octalDigit (n : Nat) : octalValue? (octalDigit n) = some (n % 8) := by
  have hsmall : ∀ d < 8, octalValue? (Nat.digitChar d) = some d := by decide
  exact hsmall (n % 8) (Nat.mod_lt n (by decide))

theorem readEscaped_octalDigit (n : Nat) :
    readEscaped (octalDigit n) = some ([], .octal 1 (n % 8)) := by
  have hsmall : ∀ d < 8, readEscaped (Nat.digitChar d) = some ([], .octal 1 d) := by decide
  exact hsmall (n % 8) (Nat.mod_lt n (by decide))

/-- Three octal digits stand for the byte that they are the digits of. -/
theorem decodeFrom_octal (b : UInt8) (cs : List Char) :
    decodeFrom .none ('\\' :: octalDigit (b.toNat / 64) :: octalDigit (b.toNat / 8) ::
      octalDigit b.toNat :: cs) = (decodeFrom .none cs).map (b :: ·) := by
  have hb := b.toNat_lt
  have hvalue : 8 * (8 * (b.toNat / 64 % 8) + b.toNat / 8 % 8) + b.toNat % 8 = b.toNat := by omega
  have hplain : readPlain '\\' = some ([], .backslash) := rfl
  simp only [decodeFrom, Escape.read, hplain, readEscaped_octalDigit, readOctal,
    octalValue?_octalDigit, Nat.reduceLT, if_true, Nat.reduceAdd, Option.pure_def,
    Option.bind_eq_bind, Option.bind_some, List.nil_append, Option.bind_fun_some, hvalue,
    decodeFrom_octal_three, UInt8.ofNat_toNat]

/-- A printable byte that needs no escape stands for itself. -/
theorem decodeFrom_printable {b : UInt8} (cs : List Char) (hs : b ≠ 0x5c) (hq : b ≠ 0x22)
    (hp : 0x20 ≤ b ∧ b ≤ 0x7e) :
    decodeFrom .none (Char.ofNat b.toNat :: cs) = (decodeFrom .none cs).map (b :: ·) := by
  have hsmall : ∀ n < 127, 32 ≤ n ∧ n ≠ 92 ∧ n ≠ 34 →
      readPlain (Char.ofNat n) = some ([UInt8.ofNat n], .none) := by
    decide +kernel
  have hread : readPlain (Char.ofNat b.toNat) = some ([b], .none) := by
    rw [hsmall b.toNat (Nat.lt_succ_of_le (UInt8.le_iff_toNat_le.1 hp.2))
      ⟨UInt8.le_iff_toNat_le.1 hp.1, fun h => hs (UInt8.toNat_inj.1 h),
        fun h => hq (UInt8.toNat_inj.1 h)⟩, UInt8.ofNat_toNat]
  cases h : decodeFrom .none cs <;> simp [decodeFrom, Escape.read, hread, h]

theorem decodeFrom_escape (b : UInt8) (cs : List Char) :
    decodeFrom .none (escape b ++ cs) = (decodeFrom .none cs).map (b :: ·) := by
  fun_cases escape b with
  | case6 hs hq _ _ _ hp => exact decodeFrom_printable cs hs hq hp
  | case7 => exact decodeFrom_octal b cs
  | _ =>
    subst b
    cases h : decodeFrom .none cs <;>
      simp [decodeFrom, Escape.read, readPlain, readEscaped, h]

/-- Reading an encoded string gives its bytes. -/
theorem decode_encode (value : String) : decode (encode value) = some (utf8 value) := by
  have hbytes (bytes : List UInt8) : decodeFrom .none (bytes.flatMap escape) = some bytes := by
    induction bytes with
    | nil => rfl
    | cons b bytes ih => rw [List.flatMap_cons, decodeFrom_escape, ih, Option.map_some]
  rw [decode, encode, String.toList_ofList, hbytes]

end Asm.Quoted

end WordLang
