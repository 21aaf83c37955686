import Mathlib.Data.List.GetD
import Mathlib.Data.List.Nodup
import Npnpm.Library.Text

/-!
# Texts of bytes

Bytes are written with two hexadecimal digits each, or with four digits of base64 for
three bytes. Both alphabets have each digit once, so a text tells its bytes.
-/

namespace Npnpm.ByteTexts

section Alphabet

variable {α : Type} {l : List α} {d : α} {m n : Nat}

theorem getD_inj (hl : l.Nodup) (hm : m < l.length) (hn : n < l.length)
    (h : l.getD m d = l.getD n d) : m = n := by
  rw [List.getD_eq_getElem l d hm, List.getD_eq_getElem l d hn] at h
  exact (hl.getElem_inj_iff).mp h

theorem idxOf_getD [DecidableEq α] (hl : l.Nodup) (hn : n < l.length) :
    l.idxOf (l.getD n d) = n := by
  rw [List.getD_eq_getElem l d hn]
  exact hl.idxOf_getElem n hn

theorem getD_mem (hn : n < l.length) : l.getD n d ∈ l := by
  rw [List.getD_eq_getElem l d hn]
  exact List.getElem_mem hn

end Alphabet

section Hex

def hexDigits : Text := "0123456789abcdef".toList

def hexDigit (n : Nat) : Char := hexDigits.getD n '0'

/-- The hexadecimal form of bytes, in lowercase. -/
def hex (bytes : List UInt8) : Text :=
  bytes.flatMap fun b => [hexDigit (b.toNat / 16), hexDigit (b.toNat % 16)]

theorem hexDigit_inj {m n : Nat} (hm : m < 16) (hn : n < 16) (h : hexDigit m = hexDigit n) :
    m = n := by
  have hdistinct : hexDigits.Nodup := by decide
  exact getD_inj hdistinct hm hn h

theorem hex_cons (b : UInt8) (bytes : List UInt8) :
    hex (b :: bytes) = hexDigit (b.toNat / 16) :: hexDigit (b.toNat % 16) :: hex bytes := rfl

theorem length_hex (bytes : List UInt8) : (hex bytes).length = 2 * bytes.length := by
  induction bytes with
  | nil => rfl
  | cons b bytes ih =>
      rw [hex_cons, List.length_cons, List.length_cons, ih, List.length_cons]
      omega

theorem mem_hexDigits_of_mem_hex {bytes : List UInt8} {c : Char} (h : c ∈ hex bytes) :
    c ∈ hexDigits := by
  obtain ⟨b, -, hc⟩ := List.mem_flatMap.mp h
  have hbyte := b.toNat_lt
  obtain rfl | rfl := List.mem_pair.mp hc
  · exact getD_mem (by rw [show hexDigits.length = 16 from rfl]; omega)
  · exact getD_mem (by rw [show hexDigits.length = 16 from rfl]; omega)

/-- The digits tell the bytes. -/
theorem hex_injective : Function.Injective hex := by
  intro bytes
  induction bytes with
  | nil =>
      intro bytes' h
      cases bytes' with
      | nil => rfl
      | cons b' bytes' => cases h
  | cons b bytes ih =>
      intro bytes' h
      cases bytes' with
      | nil => cases h
      | cons b' bytes' =>
          rw [hex_cons, hex_cons, List.cons.injEq, List.cons.injEq] at h
          obtain ⟨hhigh, hlow, hrest⟩ := h
          have hb := b.toNat_lt
          have hb' := b'.toNat_lt
          have hdiv := hexDigit_inj (by omega) (by omega) hhigh
          have hmod := hexDigit_inj (by omega) (by omega) hlow
          have hbyte : b = b' := by
            apply UInt8.toNat_inj.mp
            omega
          rw [hbyte, ih hrest]

end Hex

section Base64

def base64Digits : Text :=
  "ABCDEFGHIJKLMNOPQRSTUVWXYZabcdefghijklmnopqrstuvwxyz0123456789+/".toList

def base64Digit (n : Nat) : Char := base64Digits.getD n 'A'

/-- Groups of three bytes, the last one filled up with `=`. -/
def base64 : List UInt8 → Text
  | [] => []
  | [a] => [base64Digit (a.toNat / 4), base64Digit (a.toNat % 4 * 16), '=', '=']
  | [a, b] =>
      [base64Digit (a.toNat / 4), base64Digit (a.toNat % 4 * 16 + b.toNat / 16),
        base64Digit (b.toNat % 16 * 4), '=']
  | a :: b :: c :: rest =>
      base64Digit (a.toNat / 4) :: base64Digit (a.toNat % 4 * 16 + b.toNat / 16) ::
        base64Digit (b.toNat % 16 * 4 + c.toNat / 64) :: base64Digit (c.toNat % 64) ::
          base64 rest

def base64Value (c : Char) : Nat := base64Digits.idxOf c

/-- The bytes of groups of four digits. -/
def unbase64 : Text → Option (List UInt8)
  | [] => some []
  | a :: b :: c :: d :: rest =>
      let first := UInt8.ofNat (base64Value a * 4 + base64Value b / 16)
      let second := UInt8.ofNat (base64Value b % 16 * 16 + base64Value c / 4)
      if c = '=' then some [first]
      else if d = '=' then some [first, second]
      else (unbase64 rest).map fun bytes =>
        first :: second :: UInt8.ofNat (base64Value c % 4 * 64 + base64Value d) :: bytes
  | _ => none

theorem base64Value_digit {n : Nat} (hn : n < 64) : base64Value (base64Digit n) = n := by
  have hdistinct : base64Digits.Nodup := by decide
  exact idxOf_getD hdistinct hn

theorem base64Digit_ne {n : Nat} (hn : n < 64) : base64Digit n ≠ '=' := by
  intro h
  have hmem : base64Digit n ∈ base64Digits := getD_mem hn
  rw [h] at hmem
  exact absurd hmem (by decide)

theorem ofNat_toNat {b : UInt8} {n : Nat} (h : n = b.toNat) : UInt8.ofNat n = b := by
  rw [h, UInt8.ofNat_toNat]

/-- What is written in base64 is read back. -/
theorem unbase64_base64 (bytes : List UInt8) : unbase64 (base64 bytes) = some bytes := by
  induction bytes using base64.induct with
  | case1 => rfl
  | case2 a =>
      have ha := a.toNat_lt
      simp only [base64, unbase64, if_true, Option.some.injEq, List.cons.injEq, and_true]
      apply ofNat_toNat
      rw [base64Value_digit (by omega), base64Value_digit (by omega)]
      omega
  | case3 a b =>
      have ha := a.toNat_lt
      have hb := b.toNat_lt
      have hthird : base64Digit (b.toNat % 16 * 4) ≠ '=' := base64Digit_ne (by omega)
      simp only [base64, unbase64, if_neg hthird, if_true, Option.some.injEq, List.cons.injEq,
        and_true]
      rw [base64Value_digit (by omega), base64Value_digit (by omega),
        base64Value_digit (by omega)]
      constructor
      · apply ofNat_toNat
        omega
      · apply ofNat_toNat
        omega
  | case4 a b c rest ih =>
      have ha := a.toNat_lt
      have hb := b.toNat_lt
      have hc := c.toNat_lt
      have hthird : base64Digit (b.toNat % 16 * 4 + c.toNat / 64) ≠ '=' :=
        base64Digit_ne (by omega)
      have hfourth : base64Digit (c.toNat % 64) ≠ '=' := base64Digit_ne (by omega)
      simp only [base64, unbase64, if_neg hthird, if_neg hfourth, ih, Option.map_some,
        Option.some.injEq, List.cons.injEq, and_true]
      rw [base64Value_digit (by omega), base64Value_digit (by omega),
        base64Value_digit (by omega), base64Value_digit (by omega)]
      refine ⟨?_, ?_, ?_⟩
      · apply ofNat_toNat
        omega
      · apply ofNat_toNat
        omega
      · apply ofNat_toNat
        omega

example : base64 [0x66, 0x6f, 0x6f, 0x62] = "Zm9vYg==".toList := by decide

end Base64

end Npnpm.ByteTexts
