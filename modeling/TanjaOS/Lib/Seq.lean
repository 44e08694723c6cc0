import TanjaOS.Lib.Mem

/-!
32 bit sequence numbers. The numbers of a stream wrap around, the positions in it do not: a number
is a start plus the position modulo 2^32, and signed differences compare two numbers correctly as
long as their positions are less than 2^31 apart.
-/

namespace Lib

/--
A `uint32_t` that is cast to `int32_t`.
-/
def signed (x : UInt32) : Int :=
  if x.toNat < 2 ^ 31 then x.toNat else (x.toNat : Int) - 2 ^ 32

/--
The number of the position `p` in a stream whose numbers start at `start`.
-/
def seqAt (start : UInt32) (p : Nat) : UInt32 :=
  start + .ofNat p

variable {start x : UInt32} {p q : Nat}

@[simp]
theorem seqAt_zero : seqAt start 0 = start := by
  simp [seqAt]

theorem seqAt_add (k : Nat) : seqAt start (p + k) = seqAt start p + .ofNat k := by
  unfold seqAt
  rw [UInt32.ofNat_add, UInt32.add_assoc]

theorem seqAt_succ : seqAt start (p + 1) = seqAt start p + 1 := by
  apply seqAt_add

theorem eq_seqAt_add (start x : UInt32) (p : Nat)
    : x = seqAt start (p + (x - seqAt start p).toNat) := by
  rw [seqAt_add, UInt32.ofNat_toNat]
  simp

theorem seqAt_sub_toNat (start : UInt32) {p q : Nat} (h : q ≤ p) (hlt : p - q < 2 ^ 32)
    : (seqAt start p - seqAt start q).toNat = p - q := by
  obtain ⟨k, rfl⟩ := Nat.exists_eq_add_of_le h
  rw [seqAt_add]
  have : seqAt start q + UInt32.ofNat k - seqAt start q = UInt32.ofNat k := by
    rw [UInt32.add_comm, UInt32.add_sub_cancel]
  rw [this, UInt32.toNat_ofNat']
  omega

theorem signed_seqAt_sub (start : UInt32) {p q : Nat} (hle : (q : Int) - p ≤ 2 ^ 31)
    (hlt : (p : Int) - q < 2 ^ 31)
    : signed (seqAt start p - seqAt start q) = (p : Int) - q := by
  by_cases h : q ≤ p
  . have := seqAt_sub_toNat start h (by omega)
    unfold signed
    rw [this, if_pos (by omega)]
    omega
  . have hback := seqAt_sub_toNat start (p := q) (q := p) (by omega) (by omega)
    have hneg : (seqAt start p - seqAt start q).toNat = 2 ^ 32 - (q - p) := by
      rw [UInt32.toNat_sub] at hback ⊢
      have := (seqAt start p).toNat_lt
      have := (seqAt start q).toNat_lt
      omega
    unfold signed
    rw [hneg, if_neg (by omega)]
    omega

theorem seqAt_inj {p q : Nat} (hp : p < q + 2 ^ 32) (hq : q < p + 2 ^ 32)
    : seqAt start p = seqAt start q ↔ p = q := by
  constructor
  . intro h
    cases Nat.le_total p q with
    | inl hle =>
      have := seqAt_sub_toNat start hle (by omega)
      rw [h] at this
      simp at this
      omega
    | inr hle =>
      have := seqAt_sub_toNat start hle (by omega)
      rw [h] at this
      simp at this
      omega
  . intro h
    rw [h]

theorem signed_pos_iff : 0 < signed x ↔ 0 < x.toNat ∧ x.toNat < 2 ^ 31 := by
  unfold signed
  have := x.toNat_lt
  split <;> omega

end Lib
