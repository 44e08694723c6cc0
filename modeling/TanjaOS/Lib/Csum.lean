import TanjaOS.Lib.Checked

/-!
Big endian words and the checksum of the internet protocols: whoever receives bytes that are
protected by one adds up their 16 bit words, and the sum has to be a multiple of 65535.
-/

namespace Lib

def be16 (v : UInt16) : Bytes :=
  [(v >>> 8).toUInt8, v.toUInt8]

def be32 (v : UInt32) : Bytes :=
  [(v >>> 24).toUInt8, (v >>> 16).toUInt8, (v >>> 8).toUInt8, v.toUInt8]

/--
The sum of the words, an odd byte at the end is the high half of one.
-/
def wordSum : Bytes → Nat
  | [] => 0
  | [x] => 256 * x.toNat
  | x :: y :: bs => 256 * x.toNat + y.toNat + wordSum bs

/--
Bytes with another word at offset `i`.
-/
def put16 (bs : Bytes) (i : Nat) (v : UInt16) : Bytes :=
  bs.take i ++ be16 v ++ bs.drop (i + 2)

/--
The checksum within the bytes is right.
-/
structure CsumOk (bs : Bytes) : Prop where
  pos : 0 < wordSum bs
  dvd : 65535 ∣ wordSum bs

@[simp]
theorem length_be16 (v : UInt16) : (be16 v).length = 2 := rfl

@[simp]
theorem length_be32 (v : UInt32) : (be32 v).length = 4 := rfl

theorem length_put16 {bs : Bytes} {i : Nat} (v : UInt16) (h : i + 2 ≤ bs.length)
    : (put16 bs i v).length = bs.length := by
  unfold put16
  rw [List.length_append, List.length_append, length_be16, List.length_take, List.length_drop]
  omega

theorem put16_put16 {bs : Bytes} {i : Nat} (v w : UInt16) (h : i + 2 ≤ bs.length)
    : put16 (put16 bs i v) i w = put16 bs i w := by
  have hlen : (bs.take i).length = i := by simp; omega
  unfold put16
  rw [List.append_assoc (bs.take i) (be16 v), List.take_left' hlen, ← List.append_assoc (bs.take i),
    List.drop_left' (by simp [hlen])]

theorem wordSum_be16 (v : UInt16) : wordSum (be16 v) = v.toNat := by
  have := v.toNat_lt
  simp [be16, wordSum, Nat.shiftRight_eq_div_pow]
  omega

theorem wordSum_append {bs cs : Bytes} (h : bs.length % 2 = 0)
    : wordSum (bs ++ cs) = wordSum bs + wordSum cs := by
  induction bs using wordSum.induct with
  | case1 => simp [wordSum]
  | case2 x => simp at h
  | case3 x y bs ih =>
    have := ih (by simp at h; omega)
    simp [wordSum, this]
    omega

theorem wordSum_put16 {bs : Bytes} {i : Nat} (v : UInt16) (heven : i % 2 = 0)
    (h : i + 2 ≤ bs.length)
    : wordSum (put16 bs i v) = wordSum (put16 bs i 0) + v.toNat := by
  have hlen : (bs.take i).length = i := by simp; omega
  have key : ∀ v, wordSum (put16 bs i v)
      = wordSum (bs.take i) + v.toNat + wordSum (bs.drop (i + 2)) := by
    intro v
    unfold put16
    rw [wordSum_append, wordSum_append, wordSum_be16]
    . omega
    . simp [hlen]
      omega
  rw [key, key 0]
  have : (0 : UInt16).toNat = 0 := rfl
  omega

theorem csumOk_put16 {pre bs : Bytes} {i : Nat} {v : UInt16} (hpre : pre.length % 2 = 0)
    (heven : i % 2 = 0) (h : i + 2 ≤ bs.length)
    (hpos : 0 < wordSum (pre ++ put16 bs i 0) + v.toNat)
    (hdvd : 65535 ∣ wordSum (pre ++ put16 bs i 0) + v.toNat)
    : CsumOk (pre ++ put16 bs i v) := by
  have hsum : wordSum (pre ++ put16 bs i v) = wordSum (pre ++ put16 bs i 0) + v.toNat := by
    rw [wordSum_append hpre, wordSum_append hpre, wordSum_put16 v heven h]
    omega
  constructor
  . rw [hsum]
    exact hpos
  . rw [hsum]
    exact hdvd

end Lib
