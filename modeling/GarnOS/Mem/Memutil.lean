import GarnOS.Library.Outcome
import GarnOS.Library.ByteMemory

/-! The kernel's byte loops, its C integer conversions, and the ways a kernel call can fail. -/
namespace GarnOS
open ByteMemory Function

/-- `panic` never returns. An access outside the object it is meant for is undefined in C;
the model stops there instead of inventing a result. A kernel access to an address that is
not mapped for it ends in the exception handler, which panics. A loop that the model gives up
on is reported as `diverges`. -/
inductive Fault where
  | panic (format origin : String) (args : List ℕ)
  | overrun (index : ℕ)
  | pageFault (virtAddr : ℕ)
  | diverges
  deriving DecidableEq, Repr

/-- Division of unsigned values; by zero it ends in `panic_exception`. -/
def divide (a b : ℕ) : Except Fault ℕ :=
  if b = 0 then .error (.panic "Divide Error" "" []) else .ok (a / b)

def PAGE_SIZE : ℕ := 4096

def ENOENT : ℤ := 2
def EBADF : ℤ := 9
def ENOMEM : ℤ := 12
def EFAULT : ℤ := 14
def ENOTDIR : ℤ := 20
def EISDIR : ℤ := 21
def EINVAL : ℤ := 22
def EMFILE : ℤ := 24

def u64 (z : ℤ) : ℕ := (z % 2 ^ 64).toNat

def int32 (z : ℤ) : ℤ := z.bmod (2 ^ 32)

theorem u64_natCast (n : ℕ) : u64 n = n % 2 ^ 64 := by
  unfold u64
  omega

theorem int32_of_range {z : ℤ} (h1 : -2 ^ 31 ≤ z) (h2 : z < 2 ^ 31) : int32 z = z := by
  unfold int32
  rw [Int.bmod_def]
  split <;> omega

variable {k dest src n : ℕ}

theorem int32_lt (h : 2 ^ 31 ≤ k) : int32 k < k := by
  unfold int32
  rw [Int.bmod_def]
  split <;> omega

theorem int32_eq_iff : int32 k = k ↔ k < 2 ^ 31 := by
  refine ⟨fun heq => ?_, fun h => int32_of_range (by omega) (by omega)⟩
  by_contra hge
  exact (int32_lt (Nat.le_of_not_lt hge)).ne heq

def ALIGN_UP (x alignment : ℕ) : ℕ :=
  if x % alignment = 0 then x else (x + (alignment - x % alignment)) % 2 ^ 64

def memset (m : Mem) (s : ℕ) (c : BitVec 8) : ℕ → Mem
  | 0 => m
  | n + 1 => Function.update (memset m s c n) (s + n) c

theorem memset_eq_fill (m : Mem) (s : ℕ) (c : BitVec 8) (n : ℕ) :
    memset m s c n = fill m s n c := by
  induction n with
  | zero =>
    funext x
    simp [memset, fill]
  | succ n ih =>
    funext x
    by_cases hx : x = s + n
    · subst hx
      simp [memset, fill]
    · have hiff : (s ≤ x ∧ x < s + (n + 1)) ↔ (s ≤ x ∧ x < s + n) := by omega
      simp [memset, update_of_ne hx, ih, fill, hiff]

def memcpy (m : Mem) (dest src : ℕ) : ℕ → Mem
  | 0 => m
  | n + 1 =>
    let m' := memcpy m dest src n
    Function.update m' (dest + n) (m' (src + n))

theorem memcpy_forward (m : Mem) (h : dest ≤ src ∨ src + n ≤ dest) :
    memcpy m dest src n = copy m dest src n := by
  suffices hk : ∀ k ≤ n, memcpy m dest src k = copy m dest src k from hk n le_rfl
  intro k
  induction k with
  | zero =>
    intro _
    funext x
    simp [memcpy, copy]
  | succ k ih =>
    intro hk
    funext x
    simp only [memcpy, ih (by omega)]
    by_cases hx : x = dest + k
    · subst hx
      have hsrc : copy m dest src k (src + k) = m (src + k) := if_neg (by omega)
      rw [update_self, hsrc, copy_in m (by omega) (by omega), Nat.add_sub_cancel_left]
    · have hiff : (dest ≤ x ∧ x < dest + (k + 1)) ↔ (dest ≤ x ∧ x < dest + k) := by omega
      simp [update_of_ne hx, copy, hiff]

theorem memcpy_eq_copy (m : Mem) (h : dest + n ≤ src ∨ src + n ≤ dest) :
    memcpy m dest src n = copy m dest src n :=
  memcpy_forward m (h.imp_left fun hle => by omega)

/-- The second loop of `memmove`, from the last byte down. -/
def memmoveBack (m : Mem) (dest src : ℕ) : ℕ → Mem
  | 0 => m
  | n + 1 => memmoveBack (Function.update m (dest + n) (m (src + n))) dest src n

def memmove (m : Mem) (dest src n : ℕ) : Mem :=
  if src > dest then memcpy m dest src n
  else if src < dest then memmoveBack m dest src n
  else m

theorem memmoveBack_eq_copy (m : Mem) (h : src ≤ dest) (n : ℕ) :
    memmoveBack m dest src n = copy m dest src n := by
  induction n generalizing m with
  | zero =>
    funext x
    simp [memmoveBack, copy]
  | succ n ih =>
    funext x
    rw [memmoveBack, ih]
    by_cases hx : x = dest + n
    · subst hx
      rw [copy, if_neg (by omega), update_self, copy_in m (by omega) (by omega),
        Nat.add_sub_cancel_left]
    · have hiff : (dest ≤ x ∧ x < dest + (n + 1)) ↔ (dest ≤ x ∧ x < dest + n) := by omega
      simp only [copy, hiff, update_of_ne hx]
      split
      · -- The bytes still to be read lie below the byte just written.
        exact update_of_ne (by omega) _ _
      · rfl

theorem memmove_eq_copy (m : Mem) (dest src n : ℕ) :
    memmove m dest src n = copy m dest src n := by
  unfold memmove
  split
  · exact memcpy_forward m (.inl (by omega))
  · split
    · exact memmoveBack_eq_copy m (by omega) n
    · obtain rfl : src = dest := by omega
      funext x
      rw [copy]
      split
      · congr 1
        omega
      · rfl

end GarnOS
