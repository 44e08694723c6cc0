import Mathlib

/-!
Byte addressed memory and little endian words. Both RAM and a disk are a `Mem` here, the only
operations are reading and writing runs of bytes, all others are derived from these two.
-/

namespace Lib

abbrev Byte := UInt8

abbrev Bytes := List Byte

/--
The four bytes of a 32 bit word, least significant byte first.
-/
def le32 (v : Nat) : Bytes :=
  [UInt8.ofNat v, UInt8.ofNat (v / 256), UInt8.ofNat (v / 65536), UInt8.ofNat (v / 16777216)]

/--
The word whose little endian bytes a list starts with, missing bytes read as zero.
-/
def ofLe32 (bs : Bytes) : Nat :=
  (bs.getD 0 0).toNat + 256 * (bs.getD 1 0).toNat + 65536 * (bs.getD 2 0).toNat
    + 16777216 * (bs.getD 3 0).toNat

@[simp]
theorem length_le32 (v : Nat) : (le32 v).length = 4 := rfl

theorem ofLe32_le32 (v : Nat) (rest : Bytes) (hv : v < 2 ^ 32)
    : ofLe32 (le32 v ++ rest) = v := by
  simp only [ofLe32, le32, List.cons_append, List.nil_append, List.getD_cons_zero,
    List.getD_cons_succ, UInt8.toNat_ofNat']
  omega

theorem ofLe32_lt (bs : Bytes) : ofLe32 bs < 2 ^ 32 := by
  have h0 := (bs.getD 0 0).toNat_lt
  have h1 := (bs.getD 1 0).toNat_lt
  have h2 := (bs.getD 2 0).toNat_lt
  have h3 := (bs.getD 3 0).toNat_lt
  unfold ofLe32
  omega

abbrev Mem := Nat → Byte

namespace Mem

def readBytes (m : Mem) (addr n : Nat) : Bytes :=
  (List.range n).map (fun i => m (addr + i))

def writeBytes (m : Mem) (addr : Nat) (bs : Bytes) : Mem :=
  fun i => if addr ≤ i then (bs[i - addr]?).getD (m i) else m i

def read32 (m : Mem) (addr : Nat) : Nat :=
  ofLe32 (m.readBytes addr 4)

def write32 (m : Mem) (addr : Nat) (v : Nat) : Mem :=
  m.writeBytes addr (le32 v)

variable {m m' : Mem}

@[simp]
theorem length_readBytes (addr n : Nat) : (m.readBytes addr n).length = n := by
  simp [readBytes]

@[simp]
theorem readBytes_zero (addr : Nat) : m.readBytes addr 0 = [] := rfl

theorem getElem?_readBytes (addr n i : Nat)
    : (m.readBytes addr n)[i]? = if i < n then some (m (addr + i)) else none := by
  unfold readBytes
  rw [List.getElem?_map]
  split
  . next h => simp [h]
  . next h => simp [h]

theorem readBytes_add (addr n k : Nat)
    : m.readBytes addr (n + k) = m.readBytes addr n ++ m.readBytes (addr + n) k := by
  simp [readBytes, List.range_add, Nat.add_assoc]

theorem readBytes_congr {addr n : Nat} (h : ∀ i, addr ≤ i → i < addr + n → m i = m' i)
    : m.readBytes addr n = m'.readBytes addr n := by
  unfold readBytes
  apply List.map_congr_left
  intro i hi
  rw [List.mem_range] at hi
  apply h <;> omega

theorem take_readBytes {addr n k : Nat} (h : k ≤ n)
    : (m.readBytes addr n).take k = m.readBytes addr k := by
  obtain ⟨d, rfl⟩ := Nat.exists_eq_add_of_le h
  rw [readBytes_add]
  simp

theorem drop_readBytes {addr n k : Nat} (h : k ≤ n)
    : (m.readBytes addr n).drop k = m.readBytes (addr + k) (n - k) := by
  obtain ⟨d, rfl⟩ := Nat.exists_eq_add_of_le h
  rw [readBytes_add]
  simp

theorem writeBytes_of_lt {addr i : Nat} (bs : Bytes) (h : i < addr)
    : m.writeBytes addr bs i = m i := by
  unfold writeBytes
  rw [if_neg (by omega)]

theorem writeBytes_of_ge {addr i : Nat} (bs : Bytes) (h : addr + bs.length ≤ i)
    : m.writeBytes addr bs i = m i := by
  unfold writeBytes
  split
  . rw [List.getElem?_eq_none (by omega)]
    simp
  . rfl

theorem writeBytes_of_mem {addr i : Nat} (bs : Bytes) (h : i < bs.length)
    : m.writeBytes addr bs (addr + i) = bs[i] := by
  simp [writeBytes, h]

@[simp]
theorem writeBytes_nil (addr : Nat) : m.writeBytes addr [] = m := by
  funext i
  simp [writeBytes]

theorem writeBytes_append (addr : Nat) (bs cs : Bytes)
    : m.writeBytes addr (bs ++ cs) = (m.writeBytes addr bs).writeBytes (addr + bs.length) cs := by
  funext i
  simp only [writeBytes]
  by_cases h1 : addr ≤ i
  . by_cases h2 : addr + bs.length ≤ i
    . rw [if_pos h1, if_pos h2, List.getElem?_append_right (by omega), Nat.sub_sub]
      rw [if_pos h1, List.getElem?_eq_none (l := bs) (by omega)]
      simp
    . rw [if_pos h1, if_neg h2, List.getElem?_append_left (by omega)]
      rw [if_pos h1]
  . rw [if_neg h1, if_neg (by omega), if_neg h1]

theorem readBytes_writeBytes_same (addr : Nat) (bs : Bytes)
    : (m.writeBytes addr bs).readBytes addr bs.length = bs := by
  apply List.ext_getElem?
  intro i
  rw [getElem?_readBytes]
  split
  . next h => rw [writeBytes_of_mem bs h, List.getElem?_eq_getElem h]
  . next h => rw [List.getElem?_eq_none (by omega)]

theorem readBytes_writeBytes_disjoint {addr addr' n : Nat} (bs : Bytes)
    (h : addr' + n ≤ addr ∨ addr + bs.length ≤ addr')
    : (m.writeBytes addr bs).readBytes addr' n = m.readBytes addr' n := by
  apply readBytes_congr
  intro i hle hlt
  cases h with
  | inl h => apply writeBytes_of_lt; omega
  | inr h => apply writeBytes_of_ge; omega

theorem readBytes_writeBytes_sub {addr off n : Nat} (bs : Bytes) (h : off + n ≤ bs.length)
    : (m.writeBytes addr bs).readBytes (addr + off) n = (bs.drop off).take n := by
  have hall := readBytes_writeBytes_same (m := m) addr bs
  conv => rhs; rw [← hall]
  rw [drop_readBytes (by omega), take_readBytes (by omega)]

theorem read32_lt (addr : Nat) : m.read32 addr < 2 ^ 32 := by
  apply ofLe32_lt

theorem read32_write32_same (addr : Nat) {v : Nat} (hv : v < 2 ^ 32)
    : (m.write32 addr v).read32 addr = v := by
  unfold read32 write32
  have := readBytes_writeBytes_same (m := m) addr (le32 v)
  rw [length_le32] at this
  rw [this]
  simpa using ofLe32_le32 v [] hv

theorem read32_congr {addr : Nat} (h : ∀ i, addr ≤ i → i < addr + 4 → m i = m' i)
    : m.read32 addr = m'.read32 addr := by
  unfold read32
  rw [readBytes_congr h]

theorem write32_of_lt {addr v i : Nat} (h : i < addr) : m.write32 addr v i = m i := by
  apply writeBytes_of_lt
  assumption

theorem write32_of_ge {addr v i : Nat} (h : addr + 4 ≤ i) : m.write32 addr v i = m i := by
  apply writeBytes_of_ge
  simpa using h

theorem read32_write32_disjoint {addr addr' v : Nat} (h : addr' + 4 ≤ addr ∨ addr + 4 ≤ addr')
    : (m.write32 addr v).read32 addr' = m.read32 addr' := by
  apply read32_congr
  intro i hle hlt
  cases h with
  | inl h => apply write32_of_lt; omega
  | inr h => apply write32_of_ge; omega

end Mem
end Lib
