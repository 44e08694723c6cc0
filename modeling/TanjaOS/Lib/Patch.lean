import TanjaOS.Lib.Mem

/-!
Words of a memory that are changed one after the other, each from what it was.
-/

namespace Lib

structure Patch where
  addr : Nat
  value : Nat → Nat

namespace Patch

def Apart (p q : Patch) : Prop :=
  p.addr + 4 ≤ q.addr ∨ q.addr + 4 ≤ p.addr

instance (p q : Patch) : Decidable (p.Apart q) :=
  inferInstanceAs (Decidable (_ ∨ _))

/--
Byte `i` is none of the four.
-/
def Misses (p : Patch) (i : Nat) : Prop :=
  i < p.addr ∨ p.addr + 4 ≤ i

end Patch

namespace Mem

def patch : Mem → List Patch → Mem
  | m, [] => m
  | m, p :: ps => (m.write32 p.addr (p.value (m.read32 p.addr))).patch ps

variable {m : Mem}

theorem patch_append (ps qs : List Patch) : m.patch (ps ++ qs) = (m.patch ps).patch qs := by
  induction ps generalizing m with
  | nil => rfl
  | cons p ps ih => exact ih

theorem patch_other {ps : List Patch} {i : Nat} (h : ∀ p ∈ ps, p.Misses i) : m.patch ps i = m i := by
  induction ps generalizing m with
  | nil => rfl
  | cons p ps ih =>
    unfold patch
    rw [ih (fun q hq => h q (List.mem_cons_of_mem _ hq))]
    cases h p List.mem_cons_self with
    | inl hlt => exact write32_of_lt hlt
    | inr hge => exact write32_of_ge hge

theorem read32_patch_apart {p : Patch} {ps : List Patch} (h : ∀ q ∈ ps, p.Apart q)
    : (m.patch ps).read32 p.addr = m.read32 p.addr := by
  apply read32_congr
  intro i hle hlt
  apply patch_other
  intro q hq
  have hpq := h q hq
  unfold Patch.Apart at hpq
  unfold Patch.Misses
  omega

theorem read32_patch {p : Patch} {ps : List Patch} (h : ps.Pairwise Patch.Apart) (hp : p ∈ ps)
    (hlt : p.value (m.read32 p.addr) < 2 ^ 32)
    : (m.patch ps).read32 p.addr = p.value (m.read32 p.addr) := by
  induction ps generalizing m with
  | nil => contradiction
  | cons q qs ih =>
    obtain ⟨hq, hqs⟩ := List.pairwise_cons.mp h
    unfold patch
    cases hp with
    | head =>
      rw [read32_patch_apart hq]
      exact read32_write32_same _ hlt
    | tail _ hmem =>
      have hsame : (m.write32 q.addr (q.value (m.read32 q.addr))).read32 p.addr = m.read32 p.addr := by
        apply read32_write32_disjoint
        have hpq := hq p hmem
        unfold Patch.Apart at hpq
        omega
      rw [ih hqs hmem (by rw [hsame]; exact hlt), hsame]

theorem writeBytes_range (f : Nat → Byte) (n addr i : Nat)
    : m.writeBytes addr ((List.range n).map f) i = if addr ≤ i ∧ i < addr + n then f (i - addr) else m i := by
  by_cases hlt : i < addr
  . rw [writeBytes_of_lt _ hlt, if_neg (by omega)]
  . by_cases hge : addr + n ≤ i
    . rw [writeBytes_of_ge _ (by simpa using hge), if_neg (by omega)]
    . have hmem := @writeBytes_of_mem m addr (i - addr) ((List.range n).map f) (by simp; omega)
      rw [show addr + (i - addr) = i by omega] at hmem
      rw [hmem, if_pos (by omega)]
      simp

end Mem
end Lib
