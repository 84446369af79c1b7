/-!
# Little-endian numbers

A number is stored in `w` bytes, least significant first. `toBytes` writes it and `ofBytes`
reads it back:

* writing and reading keeps the low `8 * w` bits (`ofBytes_toBytes`);
* reading and writing at the same width gives the same bytes (`toBytes_ofBytes`).
-/

namespace PageStore.LittleEndian

/-- The `w` bytes of `n`, least significant first; higher bits are dropped. -/
def toBytes : Nat → Nat → List UInt8
  | 0, _ => []
  | w + 1, n => UInt8.ofNat n :: toBytes w (n / 256)

/-- The number whose bytes, least significant first, are given. -/
def ofBytes : List UInt8 → Nat
  | [] => 0
  | b :: bs => b.toNat + 256 * ofBytes bs

@[simp] theorem length_toBytes (w n : Nat) : (toBytes w n).length = w := by
  induction w generalizing n with
  | zero => rfl
  | succ w ih => simp [toBytes, ih]

/-- Reading what was written keeps the low `8 * w` bits. -/
theorem ofBytes_toBytes (w n : Nat) : ofBytes (toBytes w n) = n % Nat.pow 256 w := by
  induction w generalizing n with
  | zero => simp [toBytes, ofBytes, Nat.mod_one]
  | succ w ih =>
    rw [toBytes, ofBytes, ih, Nat.pow_eq, Nat.pow_eq, Nat.pow_succ', Nat.mod_mul]
    simp

/-- The number read is below the bound that its width sets. -/
theorem ofBytes_lt (l : List UInt8) : ofBytes l < Nat.pow 256 l.length := by
  induction l with
  | nil => simp [ofBytes]
  | cons b bs ih =>
    have hb : b.toNat < 256 := b.toNat_lt
    rw [Nat.pow_eq] at ih
    rw [ofBytes, List.length_cons, Nat.pow_eq, Nat.pow_succ']
    omega

/-- Writing what was read, at the width it was read from, gives the same bytes. -/
theorem toBytes_ofBytes (l : List UInt8) : toBytes l.length (ofBytes l) = l := by
  induction l with
  | nil => rfl
  | cons b bs ih =>
    have hb : b.toNat < 256 := b.toNat_lt
    have hq : (b.toNat + 256 * ofBytes bs) / 256 = ofBytes bs := by omega
    have hr : UInt8.ofNat (b.toNat + 256 * ofBytes bs) = b := by
      apply UInt8.toNat_inj.1
      simp only [UInt8.toNat_ofNat']
      omega
    rw [ofBytes, List.length_cons, toBytes, hq, hr, ih]

/-- Bytes of one width are determined by the number they stand for. -/
theorem ofBytes_inj {l m : List UInt8} (hlen : l.length = m.length) (h : ofBytes l = ofBytes m) :
    l = m := by
  rw [← toBytes_ofBytes l, ← toBytes_ofBytes m, h, hlen]

end PageStore.LittleEndian
