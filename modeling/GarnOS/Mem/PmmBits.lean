import GarnOS.Mem.Pmm

/-! The bitmap as a set of pages: what setting and clearing bits does to it and to the counters. -/
namespace GarnOS
open Outcome Finset BitVec
namespace Pmm
variable {p : Pmm} {page q : ℕ} {j : ℕ}

theorem mask_eq (hj : j < 8) : 0b10000000#8 >>> j = twoPow 8 (7 - j) := by
  interval_cases j <;> rfl

theorem mask_getLsbD (hj : j < 8) (i : ℕ) :
    (0b10000000#8 >>> j).getLsbD i = decide (i = 7 - j) := by
  rw [mask_eq hj, getLsbD_twoPow, decide_eq_true (by omega), Bool.true_and]
  simp only [eq_comm]

theorem and_mask_ne_zero (b : BitVec 8) (hj : j < 8) :
    (b &&& (0b10000000#8 >>> j) != 0) = b.getLsbD (7 - j) := by
  rw [mask_eq hj, and_twoPow]
  cases b.getLsbD (7 - j) with
  | true => interval_cases j <;> rfl
  | false => rfl

theorem test_eq_getLsbD (p : Pmm) (page : ℕ) :
    p.test page = (p.byte (page / 8)).getLsbD (7 - page % 8) :=
  and_mask_ne_zero _ (Nat.mod_lt _ (by decide))

theorem test_of_full (h : p.byte (q / 8) = 0xff) : p.test q = true := by
  have hall : ∀ i < 8, (0xff : BitVec 8).getLsbD i = true := by decide
  rw [test_eq_getLsbD, h, hall _ (by omega)]

theorem test_of_ge (h : p.pages ≤ q) : p.test q = false := by
  have hlen : p.bitmap.length ≤ q / 8 := by
    unfold pages at h
    omega
  simp [test_eq_getLsbD, byte, List.getD_eq_getElem?_getD, List.getElem?_eq_none hlen]

theorem lt_pages_of_test (h : p.test q = true) : q < p.pages := by
  by_contra hge
  rw [test_of_ge (by omega)] at h
  exact Bool.noConfusion h

@[simp] theorem pages_clear : (p.clear page).pages = p.pages := by simp [pages, clear]

theorem pages_lt (p : Pmm) : p.pages < 2 ^ 52 := by
  have := p.size_lt
  unfold pages
  omega

theorem byte_set (i : ℕ) : (p.set page).byte i =
    if i = page / 8 ∧ i < p.bitmap.length then
      p.byte i ||| (0b10000000#8 >>> (page % 8)) else p.byte i := by
  by_cases hi : i = page / 8
  · subst hi
    by_cases hl : page / 8 < p.bitmap.length <;> simp [set, byte, List.getD_eq_getElem?_getD, hl]
  · simp [set, byte, List.getD_eq_getElem?_getD, hi, List.getElem?_set_ne (Ne.symm hi)]

theorem byte_clear (i : ℕ) : (p.clear page).byte i =
    if i = page / 8 ∧ i < p.bitmap.length then
      p.byte i &&& ~~~(0b10000000#8 >>> (page % 8)) else p.byte i := by
  by_cases hi : i = page / 8
  · subst hi
    by_cases hl : page / 8 < p.bitmap.length <;> simp [clear, byte, List.getD_eq_getElem?_getD, hl]
  · simp [clear, byte, List.getD_eq_getElem?_getD, hi, List.getElem?_set_ne (Ne.symm hi)]

private theorem bit_index_eq (hdiv : q / 8 = page / 8) :
    7 - q % 8 = 7 - page % 8 ↔ q = page := by
  have := Nat.mod_lt q (show 0 < 8 by decide)
  have := Nat.mod_lt page (show 0 < 8 by decide)
  omega

theorem test_set (h : page < p.pages) : (p.set page).test q = (decide (q = page) || p.test q) := by
  rw [test_eq_getLsbD, test_eq_getLsbD, byte_set]
  by_cases hdiv : q / 8 = page / 8
  · have hl : q / 8 < p.bitmap.length := by
      unfold pages at h
      omega
    rw [if_pos ⟨hdiv, hl⟩, getLsbD_or, mask_getLsbD (Nat.mod_lt _ (by decide)),
      Bool.or_comm]
    simp [bit_index_eq hdiv]
  · have hne : q ≠ page := fun he => hdiv (by rw [he])
    simp [hdiv, hne]

theorem test_clear : (p.clear page).test q = (!decide (q = page) && p.test q) := by
  rw [test_eq_getLsbD, test_eq_getLsbD, byte_clear]
  by_cases hdiv : q / 8 = page / 8
  · by_cases hl : q / 8 < p.bitmap.length
    · rw [if_pos ⟨hdiv, hl⟩, getLsbD_and, getLsbD_not,
        mask_getLsbD (Nat.mod_lt _ (by decide)), Bool.and_comm]
      have hlt : 7 - q % 8 < 8 := by omega
      simp [hlt, decide_true, Bool.true_and, bit_index_eq hdiv]
    · rw [if_neg (by tauto)]
      simp [byte, List.getD_eq_getElem?_getD, List.getElem?_eq_none (not_lt.mp hl)]
  · have hne : q ≠ page := fun he => hdiv (by rw [he])
    simp [hdiv, hne]

theorem bitmap_ext {p q : Pmm} (hl : p.bitmap.length = q.bitmap.length)
    (h : ∀ i, p.test i = q.test i) : p.bitmap = q.bitmap := by
  apply List.ext_getElem hl
  intro i h1 h2
  apply eq_of_getLsbD_eq
  intro k hk
  have hi := h (8 * i + (7 - k))
  rw [test_eq_getLsbD, test_eq_getLsbD, show (8 * i + (7 - k)) / 8 = i by omega,
    show 7 - (8 * i + (7 - k)) % 8 = k by omega] at hi
  simpa [byte, List.getD_eq_getElem?_getD, List.getElem?_eq_getElem h1,
    List.getElem?_eq_getElem h2] using hi

def setBits (p : Pmm) : Finset ℕ := (range p.pages).filter fun q => p.test q = true

def clearBits (p : Pmm) : Finset ℕ := (range p.pages).filter fun q => p.test q = false

@[simp] theorem mem_setBits : q ∈ p.setBits ↔ p.test q = true := by
  simp only [setBits, mem_filter, mem_range, and_iff_right_iff_imp]
  exact lt_pages_of_test

theorem bitmap_ext_setBits {p q : Pmm} (hl : p.bitmap.length = q.bitmap.length)
    (h : p.setBits = q.setBits) : p.bitmap = q.bitmap := by
  apply bitmap_ext hl
  intro i
  rw [Bool.eq_iff_iff, ← mem_setBits, ← mem_setBits, h]

theorem setBits_congr {p q : Pmm} (h : p.bitmap = q.bitmap) : p.setBits = q.setBits := by
  unfold setBits pages test byte
  rw [h]

@[simp] theorem mem_clearBits : q ∈ p.clearBits ↔ q < p.pages ∧ p.test q = false := by
  simp [clearBits]

theorem setBits_set (h : page < p.pages) : (p.set page).setBits = insert page p.setBits := by
  ext q
  simp [test_set h]

theorem setBits_clear : (p.clear page).setBits = p.setBits.erase page := by
  ext q
  simp [test_clear]

theorem card_setBits_add_card_clearBits (p : Pmm) :
    p.setBits.card + p.clearBits.card = p.pages := by
  have h := Finset.card_filter_add_card_filter_not (s := range p.pages) fun q => p.test q = true
  simpa [setBits, clearBits] using h

structure CountsMatch (p : Pmm) : Prop where
  used : p.usedPages.toNat = p.setBits.card
  free : p.freePages.toNat = p.clearBits.card

end Pmm

variable {p : Pmm} {page : ℕ}

theorem pmmBitmapSet_of_lt (h : page < p.pages) : pmmBitmapSet p page = .ok (p.set page) := by
  unfold Pmm.pages at h
  exact if_neg (by omega)

theorem pmmBitmapClear_of_lt (h : page < p.pages) : pmmBitmapClear p page = .ok (p.clear page) := by
  unfold Pmm.pages at h
  exact if_neg (by omega)

end GarnOS
