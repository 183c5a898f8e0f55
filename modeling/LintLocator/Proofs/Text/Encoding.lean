import LintLocator.Text.Utf8

/-!
# Reading back what was encoded

A text in UTF-8 takes one to four bytes for each character.  Cut into pieces, they are that
character again, whatever bytes come behind it: its first byte says how many there are, and each of
the others lies where the ones before it allow.  So the pieces of an encoded text are its
characters, and none of them is ill-formed.
-/

namespace LintLocator
namespace Utf8

/-- The bytes of a text. -/
def encode (text : List Char) : List UInt8 := text.flatMap String.utf8EncodeChar

theorem encode_cons (c : Char) (text : List Char) :
    encode (c :: text) = String.utf8EncodeChar c ++ encode text := List.flatMap_cons

/-- The bytes are those of the string that the characters make. -/
theorem toByteArray_encode (text : List Char) :
    (encode text).toByteArray = (String.ofList text).toUTF8 := by
  rw [String.toUTF8, String.toByteArray_ofList, List.utf8Encode, encode]

/-! ## The bytes of a character -/

variable {b : UInt8} {p : Pending}

/-- A byte that a character of several bytes starts with. -/
theorem piecesFrom_start (h : start? b.toNat = some (.inr p)) (bs : List UInt8) :
    piecesFrom none (b :: bs) = piecesFrom (some p) bs := by
  rw [piecesFrom_none_cons, h]

/-- A byte in the midst of a character. -/
theorem piecesFrom_continue {n : Nat} (hlater : p.later = n + 1)
    (h : p.low ≤ b.toNat ∧ b.toNat ≤ p.high) (bs : List UInt8) :
    piecesFrom (some p) (b :: bs) =
      piecesFrom (some ⟨n, 0x80, 0xBF, p.value * 64 + (b.toNat - 0x80)⟩) bs := by
  have hstep : p.continue? b.toNat =
      some (.inr ⟨n, 0x80, 0xBF, p.value * 64 + (b.toNat - 0x80)⟩) := by
    simp only [Pending.continue?, h.1, h.2, hlater, decide_true, Bool.and_true, if_true]
  rw [piecesFrom_some_cons, hstep]

/-- The last byte of a character. -/
theorem piecesFrom_finish (hlater : p.later = 0) (h : p.low ≤ b.toNat ∧ b.toNat ≤ p.high)
    (bs : List UInt8) :
    piecesFrom (some p) (b :: bs) =
      some (Char.ofNat (p.value * 64 + (b.toNat - 0x80))) :: piecesFrom none bs := by
  have hstep : p.continue? b.toNat =
      some (.inl (Char.ofNat (p.value * 64 + (b.toNat - 0x80)))) := by
    simp only [Pending.continue?, h.1, h.2, hlater, decide_true, Bool.and_true, if_true]
  rw [piecesFrom_some_cons, hstep]

theorem start?_of_one {n : Nat} (h : n < 0x80) : start? n = some (.inl (Char.ofNat n)) := if_pos h

theorem start?_of_two {n : Nat} (hlow : 0xC2 ≤ n) (hhigh : n < 0xE0) :
    start? n = some (.inr ⟨0, 0x80, 0xBF, n - 0xC0⟩) := by
  rw [start?, if_neg (by omega), if_neg (by omega), if_pos hhigh]

/-- A character of three bytes.  The bounds keep out what fits into two bytes and the halves of
surrogate pairs. -/
theorem start?_of_three {n : Nat} (hlow : 0xE0 ≤ n) (hhigh : n < 0xF0) :
    start? n = some (.inr ⟨1, if n = 0xE0 then 0xA0 else 0x80, if n = 0xED then 0x9F else 0xBF,
      n - 0xE0⟩) := by
  rw [start?, if_neg (by omega), if_neg (by omega), if_neg (by omega)]
  by_cases hfirst : n = 0xE0
  · subst hfirst
    rfl
  · by_cases hsurrogate : n = 0xED
    · subst hsurrogate
      rfl
    · rw [if_neg hfirst, if_neg hsurrogate, if_pos hhigh, if_neg hfirst, if_neg hsurrogate]

/-- A character of four bytes.  The bounds keep out what fits into three bytes and what lies beyond
the last character. -/
theorem start?_of_four {n : Nat} (hlow : 0xF0 ≤ n) (hhigh : n ≤ 0xF4) :
    start? n = some (.inr ⟨2, if n = 0xF0 then 0x90 else 0x80, if n = 0xF4 then 0x8F else 0xBF,
      n - 0xF0⟩) := by
  rw [start?, if_neg (by omega), if_neg (by omega), if_neg (by omega), if_neg (by omega),
    if_neg (by omega), if_neg (by omega)]
  by_cases hfirst : n = 0xF0
  · subst hfirst
    rfl
  · by_cases hlast : n = 0xF4
    · subst hlast
      rfl
    · rw [if_neg hfirst, if_pos (by omega), if_neg hfirst, if_neg hlast]

/-- Two bytes and the character of number `v` whose bits they share. -/
theorem piecesFrom_two {a z : UInt8} {v : Nat} (hv : 0x80 ≤ v ∧ v < 0x800)
    (ha : a.toNat = v / 64 + 0xC0) (hz : z.toNat = v % 64 + 0x80) (bs : List UInt8) :
    piecesFrom none (a :: z :: bs) = some (Char.ofNat v) :: piecesFrom none bs := by
  have hstart : 0xC2 ≤ a.toNat ∧ a.toNat < 0xE0 := by omega
  have hlast : 0x80 ≤ z.toNat ∧ z.toNat ≤ 0xBF := by omega
  have hvalue : (a.toNat - 0xC0) * 64 + (z.toNat - 0x80) = v := by omega
  rw [piecesFrom_start (start?_of_two hstart.1 hstart.2), piecesFrom_finish rfl hlast, hvalue]

/-- Three bytes and the character of number `v`, which is no half of a surrogate pair. -/
theorem piecesFrom_three {a m z : UInt8} {v : Nat} (hv : 0x800 ≤ v ∧ v < 0x10000)
    (hvalid : v < 0xD800 ∨ 0xDFFF < v) (ha : a.toNat = v / 4096 + 0xE0)
    (hm : m.toNat = v / 64 % 64 + 0x80) (hz : z.toNat = v % 64 + 0x80) (bs : List UInt8) :
    piecesFrom none (a :: m :: z :: bs) = some (Char.ofNat v) :: piecesFrom none bs := by
  have hstart : 0xE0 ≤ a.toNat ∧ a.toNat < 0xF0 := by omega
  have hlow : (if a.toNat = 0xE0 then 0xA0 else 0x80) ≤ m.toNat := by split <;> omega
  have hhigh : m.toNat ≤ if a.toNat = 0xED then 0x9F else 0xBF := by split <;> omega
  have hlast : 0x80 ≤ z.toNat ∧ z.toNat ≤ 0xBF := by omega
  have hvalue : ((a.toNat - 0xE0) * 64 + (m.toNat - 0x80)) * 64 + (z.toNat - 0x80) = v := by omega
  rw [piecesFrom_start (start?_of_three hstart.1 hstart.2), piecesFrom_continue rfl ⟨hlow, hhigh⟩,
    piecesFrom_finish rfl hlast, hvalue]

/-- Four bytes and the character of number `v`. -/
theorem piecesFrom_four {a m n z : UInt8} {v : Nat} (hv : 0x10000 ≤ v ∧ v < 0x110000)
    (ha : a.toNat = v / 262144 + 0xF0) (hm : m.toNat = v / 4096 % 64 + 0x80)
    (hn : n.toNat = v / 64 % 64 + 0x80) (hz : z.toNat = v % 64 + 0x80) (bs : List UInt8) :
    piecesFrom none (a :: m :: n :: z :: bs) = some (Char.ofNat v) :: piecesFrom none bs := by
  have hstart : 0xF0 ≤ a.toNat ∧ a.toNat ≤ 0xF4 := by omega
  have hlow : (if a.toNat = 0xF0 then 0x90 else 0x80) ≤ m.toNat := by split <;> omega
  have hhigh : m.toNat ≤ if a.toNat = 0xF4 then 0x8F else 0xBF := by split <;> omega
  have hmiddle : 0x80 ≤ n.toNat ∧ n.toNat ≤ 0xBF := by omega
  have hlast : 0x80 ≤ z.toNat ∧ z.toNat ≤ 0xBF := by omega
  have hvalue : (((a.toNat - 0xF0) * 64 + (m.toNat - 0x80)) * 64 + (n.toNat - 0x80)) * 64 +
      (z.toNat - 0x80) = v := by omega
  rw [piecesFrom_start (start?_of_four hstart.1 hstart.2), piecesFrom_continue rfl ⟨hlow, hhigh⟩,
    piecesFrom_continue rfl hmiddle, piecesFrom_finish rfl hlast, hvalue]

/-! ## Characters and texts -/

theorem utf8EncodeChar_eq (c : Char) :
    String.utf8EncodeChar c =
      if c.toNat ≤ 127 then [.ofNat c.toNat]
      else if c.toNat ≤ 2047 then
        [.ofNat (c.toNat / 64 % 32 + 192), .ofNat (c.toNat % 64 + 128)]
      else if c.toNat ≤ 65535 then
        [.ofNat (c.toNat / 4096 % 16 + 224), .ofNat (c.toNat / 64 % 64 + 128),
          .ofNat (c.toNat % 64 + 128)]
      else
        [.ofNat (c.toNat / 262144 % 8 + 240), .ofNat (c.toNat / 4096 % 64 + 128),
          .ofNat (c.toNat / 64 % 64 + 128), .ofNat (c.toNat % 64 + 128)] := rfl

/-- **The bytes of a character are read as that character**, whatever comes behind them. -/
theorem piecesFrom_utf8EncodeChar (c : Char) (bs : List UInt8) :
    piecesFrom none (String.utf8EncodeChar c ++ bs) = some c :: piecesFrom none bs := by
  have hvalid : c.toNat < 0xD800 ∨ 0xDFFF < c.toNat ∧ c.toNat < 0x110000 := c.valid
  have hbyte {n : Nat} (h : n < 256) : (UInt8.ofNat n).toNat = n := UInt8.toNat_ofNat_of_lt' h
  have hlast : (UInt8.ofNat (c.toNat % 64 + 128)).toNat = c.toNat % 64 + 128 := hbyte (by omega)
  have hmiddle : (UInt8.ofNat (c.toNat / 64 % 64 + 128)).toNat = c.toNat / 64 % 64 + 128 :=
    hbyte (by omega)
  conv => rhs; rw [← Char.ofNat_toNat c]
  rw [utf8EncodeChar_eq]
  by_cases hone : c.toNat ≤ 127
  · have hfirst : (UInt8.ofNat c.toNat).toNat = c.toNat := hbyte (by omega)
    rw [if_pos hone, List.singleton_append]
    rw [piecesFrom_none_cons, hfirst, start?_of_one (Nat.lt_succ_of_le hone)]
  rw [if_neg hone]
  by_cases htwo : c.toNat ≤ 2047
  · have hfirst : (UInt8.ofNat (c.toNat / 64 % 32 + 192)).toNat = c.toNat / 64 % 32 + 192 :=
      hbyte (by omega)
    rw [if_pos htwo]
    exact piecesFrom_two (by omega) (by omega) hlast bs
  rw [if_neg htwo]
  by_cases hthree : c.toNat ≤ 65535
  · have hfirst : (UInt8.ofNat (c.toNat / 4096 % 16 + 224)).toNat = c.toNat / 4096 % 16 + 224 :=
      hbyte (by omega)
    rw [if_pos hthree]
    exact piecesFrom_three (by omega) (by omega) (by omega) hmiddle hlast bs
  · have hfirst : (UInt8.ofNat (c.toNat / 262144 % 8 + 240)).toNat = c.toNat / 262144 % 8 + 240 :=
      hbyte (by omega)
    have hsecond : (UInt8.ofNat (c.toNat / 4096 % 64 + 128)).toNat = c.toNat / 4096 % 64 + 128 :=
      hbyte (by omega)
    rw [if_neg hthree]
    exact piecesFrom_four (by omega) (by omega) hsecond hmiddle hlast bs

/-- **The pieces of an encoded text are its characters.** -/
theorem pieces_encode (text : List Char) : pieces (encode text) = text.map some := by
  induction text with
  | nil => rfl
  | cons c text ih =>
    rw [encode_cons, pieces, piecesFrom_utf8EncodeChar, List.map_cons, ← ih]
    rfl

end Utf8
end LintLocator
