/-!
# Base64

Encoding bytes in the alphabet `A-Z a-z 0-9 + /`, four digits for three bytes and padded to whole
groups, without line breaks; and decoding, which accepts exactly the padded and canonical texts.

## Key results

- `decode_encode`: decoding gives back every list of bytes
-/

namespace Base64

/-- The digit of a number below 64. -/
def digit (n : Nat) : UInt8 :=
  if n < 26 then .ofNat (n + 65)
  else if n < 52 then .ofNat (n + 71)
  else if n < 62 then .ofNat (n - 4)
  else if n = 62 then 43
  else 47

/-- The number of a digit. -/
def value (c : UInt8) : Option Nat :=
  let n := c.toNat
  if 65 ≤ n ∧ n ≤ 90 then some (n - 65)
  else if 97 ≤ n ∧ n ≤ 122 then some (n - 71)
  else if 48 ≤ n ∧ n ≤ 57 then some (n + 4)
  else if n = 43 then some 62
  else if n = 47 then some 63
  else none

/-- The character `=` -/
def pad : UInt8 := 61

/-- The digits of the bytes, group after group. -/
def encode : List UInt8 → List UInt8
  | [] => []
  | [a] => [digit (a.toNat / 4), digit (a.toNat % 4 * 16), pad, pad]
  | [a, b] =>
    [digit (a.toNat / 4), digit (a.toNat % 4 * 16 + b.toNat / 16), digit (b.toNat % 16 * 4), pad]
  | a :: b :: c :: rest =>
    digit (a.toNat / 4) :: digit (a.toNat % 4 * 16 + b.toNat / 16) ::
      digit (b.toNat % 16 * 4 + c.toNat / 64) :: digit (c.toNat % 64) :: encode rest

/-- The bytes of a text. The bits that the padding stands for have to be zero. -/
def decode : List UInt8 → Option (List UInt8)
  | [] => some []
  | w :: x :: y :: z :: rest => do
    let w ← value w
    let x ← value x
    if y = pad ∧ z = pad ∧ rest = [] then
      if x % 16 = 0 then some [.ofNat (w * 4 + x / 16)] else none
    else
      let y ← value y
      if z = pad ∧ rest = [] then
        if y % 4 = 0 then some [.ofNat (w * 4 + x / 16), .ofNat (x % 16 * 16 + y / 4)] else none
      else
        let z ← value z
        let bytes ← decode rest
        some (.ofNat (w * 4 + x / 16) :: .ofNat (x % 16 * 16 + y / 4) ::
          .ofNat (y % 4 * 64 + z) :: bytes)
  | _ => none

/-! ## Digits -/

theorem value_digit : ∀ {n : Nat}, n < 64 → value (digit n) = some n := by
  decide

theorem digit_ne_pad : ∀ {n : Nat}, n < 64 → digit n ≠ pad := by
  decide

theorem ofNat_toNat_of_eq {a : UInt8} {n : Nat} (h : n = a.toNat) : UInt8.ofNat n = a := by
  rw [h, UInt8.ofNat_toNat]

/-! ## Round trip -/

/-- Decoding gives back what has been encoded. -/
theorem decode_encode (bytes : List UInt8) : decode (encode bytes) = some bytes := by
  induction bytes using encode.induct with
  | case1 => rfl
  | case2 a =>
    have ha := a.toNat_lt
    rw [encode, decode, value_digit (by omega), value_digit (by omega)]
    have hfirst : UInt8.ofNat (a.toNat / 4 * 4 + a.toNat % 4 * 16 / 16) = a :=
      ofNat_toNat_of_eq (by omega)
    simp only [Option.bind_eq_bind, Option.bind_some, and_self, ↓reduceIte, hfirst,
      Nat.mul_mod_left]
  | case3 a b =>
    have ha := a.toNat_lt
    have hb := b.toNat_lt
    rw [encode, decode, value_digit (by omega), value_digit (by omega), value_digit (by omega)]
    have hfirst : UInt8.ofNat (a.toNat / 4 * 4 + (a.toNat % 4 * 16 + b.toNat / 16) / 16) = a :=
      ofNat_toNat_of_eq (by omega)
    have hsecond : UInt8.ofNat ((a.toNat % 4 * 16 + b.toNat / 16) % 16 * 16 +
        b.toNat % 16 * 4 / 4) = b := ofNat_toNat_of_eq (by omega)
    have hdigit := digit_ne_pad (n := b.toNat % 16 * 4) (by omega)
    simp only [Option.bind_eq_bind, Option.bind_some, hdigit, false_and, and_self, ↓reduceIte,
      hfirst, hsecond, Nat.mul_mod_left]
  | case4 a b c rest ih =>
    have ha := a.toNat_lt
    have hb := b.toNat_lt
    have hc := c.toNat_lt
    rw [encode, decode, value_digit (by omega), value_digit (by omega), value_digit (by omega),
      value_digit (by omega), ih]
    have hfirst : UInt8.ofNat (a.toNat / 4 * 4 + (a.toNat % 4 * 16 + b.toNat / 16) / 16) = a :=
      ofNat_toNat_of_eq (by omega)
    have hsecond : UInt8.ofNat ((a.toNat % 4 * 16 + b.toNat / 16) % 16 * 16 +
        (b.toNat % 16 * 4 + c.toNat / 64) / 4) = b := ofNat_toNat_of_eq (by omega)
    have hthird : UInt8.ofNat ((b.toNat % 16 * 4 + c.toNat / 64) % 4 * 64 + c.toNat % 64) = c :=
      ofNat_toNat_of_eq (by omega)
    have hdigit := digit_ne_pad (n := c.toNat % 64) (by omega)
    simp only [Option.bind_eq_bind, Option.bind_some, hdigit, false_and, and_false, ↓reduceIte,
      hfirst, hsecond, hthird]

end Base64
