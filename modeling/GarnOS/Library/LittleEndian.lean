import Mathlib.Tactic

/-! Little-endian numbers in a row of bytes. -/
namespace LittleEndian

def number (b : ℕ → UInt8) (off : ℕ) : ℕ → ℕ
  | 0 => 0
  | n + 1 => (b off).toNat + 256 * number b (off + 1) n

theorem number_lt (b : ℕ → UInt8) (off n : ℕ) : number b off n < 256 ^ n := by
  induction n generalizing off with
  | zero => exact Nat.one_pos
  | succ n ih =>
    have hbyte := (b off).toNat_lt
    have hrest := ih (off + 1)
    rw [number, pow_succ]
    omega

theorem number_congr {b b' : ℕ → UInt8} {off off' n : ℕ}
    (h : ∀ i < n, b (off + i) = b' (off' + i)) : number b off n = number b' off' n := by
  induction n generalizing off off' with
  | zero => rfl
  | succ n ih =>
    have hfirst : b off = b' off' := h 0 (Nat.succ_pos n)
    have hrest : number b (off + 1) n = number b' (off' + 1) n := by
      apply ih
      intro i hi
      have hbyte := h (i + 1) (Nat.succ_lt_succ hi)
      rwa [Nat.add_comm i 1, ← Nat.add_assoc, ← Nat.add_assoc] at hbyte
    rw [number, number, hfirst, hrest]

end LittleEndian
