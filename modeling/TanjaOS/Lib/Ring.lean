import TanjaOS.Lib.Mem

/-!
A ring buffer of `cap` bytes as the queue of the bytes between its two ends.
-/

namespace Lib

/--
The `n` bytes that are queued from `tail` on.
-/
def ringBytes (cap : Nat) (m : Mem) (tail n : Nat) : Bytes :=
  (List.range n).map (fun i => m ((tail + i) % cap))

/--
The memory after one byte is stored.
-/
def Mem.set (m : Mem) (addr : Nat) (x : Byte) : Mem :=
  fun i => if i = addr then x else m i

variable {cap : Nat} {m : Mem} {tail n : Nat}

@[simp]
theorem length_ringBytes : (ringBytes cap m tail n).length = n := by
  simp [ringBytes]

@[simp]
theorem ringBytes_zero : ringBytes cap m tail 0 = [] := rfl

theorem ringBytes_congr {m' : Mem} (h : ∀ i, i < n → m ((tail + i) % cap) = m' ((tail + i) % cap))
    : ringBytes cap m tail n = ringBytes cap m' tail n := by
  unfold ringBytes
  apply List.map_congr_left
  intro i hi
  apply h
  simpa using hi

theorem ring_place_inj {i j : Nat} (hi : i < cap) (hj : j < cap)
    (h : (tail + i) % cap = (tail + j) % cap)
    : i = j := by
  have := Nat.ModEq.add_left_cancel' tail h
  unfold Nat.ModEq at this
  rwa [Nat.mod_eq_of_lt hi, Nat.mod_eq_of_lt hj] at this

theorem ringBytes_put (m : Mem) (tail : Nat) (x : Byte) (h : n < cap)
    : ringBytes cap (m.set ((tail + n) % cap) x) tail (n + 1) = ringBytes cap m tail n ++ [x] := by
  have hold : ringBytes cap (m.set ((tail + n) % cap) x) tail n = ringBytes cap m tail n := by
    apply ringBytes_congr
    intro i hi
    unfold Mem.set
    rw [if_neg]
    intro heq
    have := ring_place_inj (by omega) h heq
    omega
  rw [← hold]
  simp [ringBytes, List.range_succ, Mem.set]

theorem ringBytes_take (h : tail < cap)
    : ringBytes cap m tail (n + 1) = m tail :: ringBytes cap m ((tail + 1) % cap) n := by
  unfold ringBytes
  rw [List.range_succ_eq_map, List.map_cons, List.map_map]
  congr 1
  . simp [Nat.mod_eq_of_lt h]
  . apply List.map_congr_left
    intro i _
    simp only [Function.comp_apply, Nat.mod_add_mod]
    congr 2
    omega

end Lib
