import GarnOS.Display.Framebuffer
import GarnOS.Fal.PathBuffer

/-! Copies inside one object, and the two callers that pass overlapping ranges to `memcpy`. -/
namespace GarnOS
open Outcome

/-- `b'` is `b` with a part of it moved towards the front, each character as it was before. -/
def MovedDown (b b' : PathBuf) : Prop :=
  ∃ dest src count, dest < src ∧ src + count ≤ PATH_MAX + 1 ∧
    ∀ x, b'.data x = if dest ≤ x ∧ x < dest + count then b.data (x - dest + src) else b.data x

section Path
variable {b b' : PathBuf} {i j : ℕ}

theorem CharBuf.memcpy_fits {n count : ℕ} {b b' : CharBuf n} (h : b.memcpy i j count = .ok b') :
    count = 0 ∨ j + count ≤ n := by
  rw [← Nat.zero_add count]
  apply forRange_ok (fun k _ => k = 0 ∨ j + k ≤ n) h (Or.inl rfl)
  intro k u u' _ _ _ hbody
  obtain ⟨c, hread, -⟩ := bind_eq_ok.mp hbody
  unfold CharBuf.read at hread
  split at hread
  · exact Or.inr (by omega)
  · cases hread

theorem cutBuf_moves (hij : i < j) (h : cutBuf b i j = .ok b') : b' = b ∨ MovedDown b b' := by
  obtain ⟨l, -, hcopy⟩ := bind_eq_ok.mp h
  obtain hzero | hfit := CharBuf.memcpy_fits hcopy
  · rw [hzero] at hcopy
    exact Or.inl (Except.ok.inj hcopy).symm
  · exact Or.inr ⟨i, j, _, hij, hfit, (CharBuf.memcpy_post hij.le hfit).of_ok hcopy⟩

theorem findSlash_le {k : ℕ} (h : findSlash b k = .ok (some j)) : j ≤ k := by
  induction k with
  | zero => cases h
  | succ k ih =>
    obtain ⟨c, -, h⟩ := bind_eq_ok.mp h
    split at h
    · cases h
      exact le_rfl
    · exact (ih h).trans k.le_succ

theorem cutParent_moves {dirindex keep : ℕ} (hkeep : keep ≤ 1)
    (h : cutParent b i dirindex keep = .ok b') : b' = b ∨ MovedDown b b' := by
  unfold cutParent at h
  split at h
  · exact cutBuf_moves (by omega) h
  · obtain ⟨slash, hfind, h⟩ := bind_eq_ok.mp h
    cases slash with
    | none => exact Or.inl (Except.ok.inj h).symm
    | some j =>
      have hj := findSlash_le hfind
      exact cutBuf_moves (by omega) h

theorem checkChar_moves {dirindex : ℕ} (h : checkChar b i dirindex = .ok b') :
    b' = b ∨ MovedDown b b' := by
  obtain ⟨parent, -, h⟩ := bind_eq_ok.mp h
  split at h
  · exact cutParent_moves (Nat.zero_le 1) h
  · obtain ⟨last, -, h⟩ := bind_eq_ok.mp h
    split at h
    · exact cutParent_moves le_rfl h
    · obtain ⟨dot, -, h⟩ := bind_eq_ok.mp h
      split at h
      · exact cutBuf_moves (by omega) h
      · obtain ⟨slash, -, h⟩ := bind_eq_ok.mp h
        split at h
        · exact cutBuf_moves (by omega) h
        · exact Or.inl (Except.ok.inj h).symm

end Path

/-- `term_scroll` with its first copy made by `memmove`. -/
def termScrollMoved (f : FramebufferInfo) (tc : TermContext) (m : ByteMemory.Mem)
    (pix : BitVec 16) : ByteMemory.Mem :=
  let lost := f.pitch * pix.setWidth 32
  let kept := (f.size - lost.setWidth 64).toNat
  let m := memmove m f.readAddress (lost.toNat + f.readAddress) kept
  let m := memset m (kept + f.readAddress) 0xff lost.toNat
  let m := Nat.fold (f.width * pix.setWidth 32).toNat
    (fun i _ m => setPixel m (kept + f.readAddress) i tc.backgroundColour) m
  memcpy m f.address f.readAddress f.size.toNat

theorem memcpy_eq_memmove (m : ByteMemory.Mem) {dest src n : ℕ}
    (h : dest ≤ src ∨ dest + n ≤ src ∨ src + n ≤ dest) :
    memcpy m dest src n = memmove m dest src n := by
  rw [memmove_eq_copy]
  exact memcpy_forward m (by omega)

/-- `memmove` copies faithfully whatever the overlap, and so does `memcpy` towards lower addresses
or between disjoint ranges. Each edit of a path and the scroll of the screen are such copies. -/
theorem overlapping_copies :
    (∀ (m : ByteMemory.Mem) (dest src n x : ℕ), memmove m dest src n x =
      if dest ≤ x ∧ x < dest + n then m (src + (x - dest)) else m x) ∧
    (∀ (m : ByteMemory.Mem) (dest src n : ℕ),
      (dest ≤ src ∨ dest + n ≤ src ∨ src + n ≤ dest) →
        memcpy m dest src n = memmove m dest src n) ∧
    (∀ f tc m pix, termScroll f tc m pix = termScrollMoved f tc m pix) ∧
    ∀ (b b' : PathBuf) (i dirindex : ℕ), checkChar b i dirindex = .ok b' →
      b' = b ∨ MovedDown b b' := by
  refine ⟨?_, fun m dest src n h => memcpy_eq_memmove m h, ?_, fun b b' i d => checkChar_moves⟩
  · intro m dest src n x
    rw [memmove_eq_copy]
    rfl
  · intro f tc m pix
    simp only [termScroll, termScrollMoved]
    rw [memcpy_eq_memmove m (.inl (Nat.le_add_left _ _))]

end GarnOS
