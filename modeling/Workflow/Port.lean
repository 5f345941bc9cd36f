/-!
# Ports

The inputs and the outputs of a node are numbered from one. Counts of ports are words of sixteen
bits, and a count that does not fit is taken as the greatest word.
-/

namespace Workflow

/-- The number of an input or an output of a node; the first one is 1. -/
abbrev Port := UInt16

/-- A number of ports. -/
abbrev PortCount := UInt16

namespace PortCount

/-- The greatest number of ports. -/
def greatest : Nat := 65535

/-- The count nearest to a number. -/
def saturate (n : Nat) : PortCount := UInt16.ofNat (min n greatest)

theorem toNat_saturate (n : Nat) : (saturate n).toNat = min n greatest := by
  rw [saturate, UInt16.toNat_ofNat']
  exact Nat.mod_eq_of_lt (by simp only [greatest]; omega)

end PortCount

namespace Port

/-- Whether a node with `count` ports has the port. -/
def isWithin (p : Port) (count : PortCount) : Bool := 1 ≤ p && p ≤ count

/-- The ports of a node with `count` ports, in order. -/
def all (count : PortCount) : List Port :=
  (List.range count.toNat).map fun i => UInt16.ofNat (i + 1)

theorem isWithin_iff (p : Port) (count : PortCount) :
    p.isWithin count = true ↔ 1 ≤ p.toNat ∧ p.toNat ≤ count.toNat := by
  simp [isWithin, UInt16.le_iff_toNat_le]

theorem mem_all_iff (p : Port) (count : PortCount) :
    p ∈ all count ↔ p.isWithin count = true := by
  have hc := count.toNat_lt
  rw [isWithin_iff, all, List.mem_map]
  constructor
  · rintro ⟨i, hi, rfl⟩
    rw [List.mem_range] at hi
    rw [UInt16.toNat_ofNat', Nat.mod_eq_of_lt (by omega)]
    omega
  · rintro ⟨h1, h2⟩
    refine ⟨p.toNat - 1, List.mem_range.2 (by omega), ?_⟩
    rw [Nat.sub_add_cancel h1, UInt16.ofNat_toNat]

end Port

end Workflow
