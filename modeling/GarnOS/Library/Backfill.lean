import Mathlib.Tactic

/-! A buffer of 256 places that is filled from its end, with an index that wraps around. What is read
is the part behind the index. -/
namespace Backfill
open List
variable {α : Type*}

structure Buffer (α : Type*) where
  index : UInt8
  data : UInt8 → α

def Buffer.push (s : Buffer α) (a : α) : Buffer α :=
  ⟨s.index - 1, Function.update s.data s.index a⟩

def Buffer.fill (s : Buffer α) (l : List α) : Buffer α := l.foldl Buffer.push s

/-- What stands behind the index; all of the buffer if the index is its last place. -/
def Buffer.read (s : Buffer α) : List α :=
  (List.range (256 - (s.index + 1).toNat)).map fun j => s.data (s.index + 1 + UInt8.ofNat j)

/-- What stands behind the index, in the order in which it is filled in. -/
def Buffer.above (s : Buffer α) : List α :=
  (List.range (255 - s.index.toNat)).map fun j => s.data (255 - UInt8.ofNat j)

section Fill
variable {s : Buffer α} {l : List α}

theorem push_data (s : Buffer α) (a : α) : (s.push a).data = Function.update s.data s.index a := rfl

theorem fill_append (s : Buffer α) (l l' : List α) : s.fill (l ++ l') = (s.fill l).fill l' :=
  foldl_append

theorem fill_concat (s : Buffer α) (l : List α) (a : α) : s.fill (l ++ [a]) = (s.fill l).push a :=
  fill_append s l [a]

theorem fill_index (s : Buffer α) (l : List α) :
    (s.fill l).index = s.index - UInt8.ofNat l.length := by
  induction l using reverseRecOn with
  | nil => exact (UInt8.sub_zero _).symm
  | append_singleton l a ih =>
    rw [fill_concat, Buffer.push, ih, length_append, length_singleton, UInt8.ofNat_add]
    grind

theorem place_ne {i j : ℕ} (hij : i < j) (hj : j < 256) :
    (255 : UInt8) - UInt8.ofNat i ≠ 255 - UInt8.ofNat j := by
  intro heq
  have hnat := congrArg UInt8.toNat heq
  simp only [UInt8.toNat_sub, UInt8.toNat_ofNat', UInt8.toNat_ofNat] at hnat
  omega

/-- An element stands at its distance from the end until the index has wrapped around. -/
theorem fill_data (hs : s.index = 255) (hl : l.length ≤ 256) {i : ℕ} (hi : i < l.length) :
    (s.fill l).data (255 - UInt8.ofNat i) = l[i] := by
  induction l using reverseRecOn with
  | nil => cases hi
  | append_singleton l a ih =>
    rw [length_append, length_singleton] at hl hi
    have hindex : (s.fill l).index = 255 - UInt8.ofNat l.length := by rw [fill_index, hs]
    rw [fill_concat, push_data, hindex]
    rcases Nat.lt_or_ge i l.length with hlt | hge
    · rw [Function.update_of_ne (place_ne hlt (by omega)), ih (by omega) hlt,
        getElem_append_left hlt]
    · obtain rfl : i = l.length := by omega
      rw [Function.update_self, getElem_concat_length rfl]

section
variable (hs : s.index = 255) (hpos : l ≠ []) (hl : l.length ≤ 256)
include hs hpos hl

theorem fill_read : (s.fill l).read = l.reverse := by
  have hlength : 0 < l.length := length_pos_of_ne_nil hpos
  have hindex : (s.fill l).index + 1 = UInt8.ofNat (256 - l.length) := by
    rw [fill_index, hs]
    apply UInt8.toNat_inj.mp
    simp only [UInt8.toNat_add, UInt8.toNat_sub, UInt8.toNat_ofNat', UInt8.toNat_ofNat]
    omega
  have hnat : (UInt8.ofNat (256 - l.length)).toNat = 256 - l.length := by
    rw [UInt8.toNat_ofNat']
    omega
  rw [Buffer.read, hindex, hnat]
  apply ext_getElem
  · rw [length_map, length_range, length_reverse]
    omega
  · intro j hj _
    rw [length_map, length_range] at hj
    have hplace : UInt8.ofNat (256 - l.length) + UInt8.ofNat j =
        255 - UInt8.ofNat (l.length - 1 - j) := by
      apply UInt8.toNat_inj.mp
      simp only [UInt8.toNat_add, UInt8.toNat_sub, UInt8.toNat_ofNat', UInt8.toNat_ofNat]
      omega
    rw [getElem_map, getElem_range, hplace, fill_data hs hl (by omega),
      getElem_reverse]

theorem fill_last : (s.fill l).data 255 = l.head hpos := by
  rw [head_eq_getElem]
  exact fill_data hs hl (length_pos_of_ne_nil hpos)

end

/-- The elements since the index was last at the end. -/
def recent (l : List α) : List α := l.drop (256 * ((l.length - 1) / 256))

theorem recent_eq_self (hl : l.length ≤ 256) : recent l = l := by
  have hzero : (l.length - 1) / 256 = 0 := by omega
  rw [recent, hzero, Nat.mul_zero, drop_zero]

theorem recent_ne_nil (hpos : l ≠ []) : recent l ≠ [] := by
  have hlength : 0 < l.length := length_pos_of_ne_nil hpos
  rw [recent, Ne, drop_eq_nil_iff]
  omega

theorem recent_length_le (l : List α) : (recent l).length ≤ 256 := by
  rw [recent, length_drop]
  omega

theorem fill_recent (hs : s.index = 255) (l : List α) :
    ∃ t : Buffer α, t.index = 255 ∧ s.fill l = t.fill (recent l) := by
  refine ⟨s.fill (l.take (256 * ((l.length - 1) / 256))), ?_, ?_⟩
  · rw [fill_index, hs, length_take, Nat.min_eq_left (by omega)]
    apply UInt8.toNat_inj.mp
    simp only [UInt8.toNat_sub, UInt8.toNat_ofNat', UInt8.toNat_ofNat]
    omega
  · rw [← fill_append, recent, take_append_drop]

end Fill

section Above
variable {s : Buffer α}

theorem above_length (s : Buffer α) : s.above.length = 255 - s.index.toNat := by
  rw [Buffer.above, length_map, length_range]

theorem fill_range (data : UInt8 → α) (n : ℕ) :
    (⟨255, data⟩ : Buffer α).fill ((List.range n).map fun j => data (255 - UInt8.ofNat j)) =
      ⟨255 - UInt8.ofNat n, data⟩ := by
  induction n with
  | zero => rfl
  | succ n ih =>
    rw [range_succ, map_append, map_singleton, fill_concat, ih, Buffer.push,
      Function.update_eq_self, UInt8.ofNat_add]
    congr 1
    grind

theorem fill_above (s : Buffer α) : (⟨255, s.data⟩ : Buffer α).fill s.above = s := by
  have hindex : (255 : UInt8) - UInt8.ofNat (255 - s.index.toNat) = s.index := by
    have hlt := s.index.toNat_lt
    apply UInt8.toNat_inj.mp
    simp only [UInt8.toNat_sub, UInt8.toNat_ofNat', UInt8.toNat_ofNat]
    omega
  rw [Buffer.above, fill_range, hindex]

end Above

end Backfill
