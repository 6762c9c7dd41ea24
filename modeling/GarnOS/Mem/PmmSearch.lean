import GarnOS.Library.FirstFit
import GarnOS.Mem.PmmBits

/-! The two search routines are exact first-fit searches. -/
namespace GarnOS
open Outcome FirstFit Nat

def Pmm.Free (p : Pmm) (page : ℕ) : Prop := p.test page = false

/-- The locals of the scan at cell `k` agree with what first fit knows there. -/
structure ScanInv (p : Pmm) (lo n k : ℕ) (st : Scan) : Prop where
  tracks : ∃ c, Tracks p.Free lo n k c ∧ st.foundPages = (k : ℤ) - c ∧
    (st.inChunk = true → st.base = c) ∧ (st.inChunk = false → c = k)

variable {p : Pmm} {lo hi n : ℕ}

theorem scanBit_post {k : ℕ} {st : Scan} (hk : k < hi) (hhi : hi ≤ p.pages)
    (h : ScanInv p lo n k st) : Post (scanBit p n (k / 8) (k % 8) st) (ScanInv p lo n (k + 1))
      (fun r => ∃ b, r = b * 4096 ∧ First p.Free lo hi n b) := by
  obtain ⟨c, ht, hfound, hin, hout⟩ := h.tracks
  have hshort := ht.short
  have hbase : (if st.inChunk = true then st.base else k / 8 * 8 + k % 8) = c := by
    cases hc : st.inChunk with
    | true => simpa using hin hc
    | false => simp [hout hc, div_add_mod']
  unfold scanBit
  by_cases htest : p.test k = true
  · have hne : ¬ p.byte (k / 8) &&& (0b10000000#8 >>> (k % 8)) = 0 := by
      simpa [Pmm.test] using htest
    have hstep := ht.taken (by simp [Pmm.Free, htest])
    rw [if_neg hne]
    cases hc : st.inChunk with
    | true => exact post_ok.mpr ⟨k + 1, hstep, by simp, by simp, by simp⟩
    | false =>
      have hck := hout hc
      exact post_ok.mpr ⟨k + 1, hstep, by omega, by simp [hc], by simp⟩
  · have hz : p.byte (k / 8) &&& (0b10000000#8 >>> (k % 8)) = 0 := by
      simpa [Pmm.test] using htest
    have hfree : p.Free k := by simpa [Pmm.Free] using htest
    simp only [hz, ↓reduceIte, hbase]
    split_ifs with hn
    · have hfirst := ht.found hfree (by omega) hk
      have hlt := p.pages_lt
      refine post_error.mpr ⟨c, mod_eq_of_lt ?_, hfirst⟩
      omega
    · exact post_ok.mpr ⟨c, ht.extend hfree (by omega), by push_cast; omega, by simp, by simp⟩

theorem scanBytes_post (hn : 0 < n) (hlo : lo ≤ hi) (hhi : hi ≤ p.bitmap.length) (b0 : ℕ) :
    Post (scanBytes p n lo hi ⟨0, b0, false⟩)
      (fun _ => NoRun p.Free (8 * lo) (8 * hi) n)
      (fun r => ∃ b, r = b * 4096 ∧ First p.Free (8 * lo) (8 * hi) n b) := by
  unfold scanBytes
  rw [forRange_rows (scanBit p n) (by decide)]
  have hpages : 8 * hi ≤ p.pages := by
    unfold Pmm.pages
    omega
  have h0 : ScanInv p (8 * lo) n (lo * 8) ⟨0, b0, false⟩ :=
    ⟨8 * lo, by rw [mul_comm lo]; exact Tracks.start hn, by push_cast; omega, by simp,
      by simp [mul_comm]⟩
  apply (forRange_post (ScanInv p (8 * lo) n) h0 fun k st _ hk hinv => scanBit_post (by omega) hpages hinv).mono_ok
  rintro st ⟨c, ht, -⟩
  have hend : lo * 8 + (hi - lo) * 8 = 8 * hi := by omega
  exact hend ▸ ht.passed

/-- Which page `pmm_find_free` settles on: the lowest run above 4 GiB if there is one,
the lowest run of the bitmap otherwise. -/
def HighFirst (p : Pmm) (n b : ℕ) : Prop :=
  (131072 < p.bitmap.length ∧ First p.Free 1048576 p.pages n b) ∨
    ((p.bitmap.length ≤ 131072 ∨ NoRun p.Free 1048576 p.pages n) ∧ First p.Free 0 p.pages n b)

theorem HighFirst.fits {b : ℕ} (h : HighFirst p n b) : b + n ≤ p.pages ∧ Run p.Free b n := by
  rcases h with ⟨-, h⟩ | ⟨-, h⟩
  all_goals exact ⟨h.le, h.run⟩

theorem HighFirst.eq_of_first {b c : ℕ} (h : HighFirst p n b) (hlen : 131072 < p.bitmap.length)
    (hc : First p.Free 1048576 p.pages n c) : b = c := by
  rcases h with ⟨-, hb⟩ | ⟨hno, -⟩
  · exact hb.unique hc
  · rcases hno with hle | hno
    · omega
    · exact absurd hc.run (hno c hc.ge hc.le)

theorem pmmFindFree_post (p : Pmm) (hn : 0 < n) :
    Post (pmmFindFree p n) (fun base => ∃ b, base = b * 4096 ∧ HighFirst p n b)
      (fun e => e = outOfMemory ∧ NoRun p.Free 0 p.pages n) := by
  have hall := fun b0 => scanBytes_post (p := p) hn (zero_le p.bitmap.length) le_rfl b0
  unfold pmmFindFree
  by_cases hsize : p.bitmap.length > 131072
  · rw [if_pos hsize]
    have hhigh : Post (scanBytes p n 131072 p.bitmap.length ⟨0, 0, false⟩) _ _ :=
      scanBytes_post hn (by omega) le_rfl 0
    rw [show 8 * 131072 = 1048576 by norm_num] at hhigh
    cases hscan : scanBytes p n 131072 p.bitmap.length ⟨0, 0, false⟩ with
    | error r =>
      obtain ⟨b, hb, hfirst⟩ := hhigh.of_error hscan
      exact post_ok.mpr ⟨b, hb, Or.inl ⟨hsize, hfirst⟩⟩
    | ok st =>
      have hno := hhigh.of_ok hscan
      dsimp only
      cases hretry : scanBytes p n 0 p.bitmap.length ⟨0, st.base, false⟩ with
      | error r =>
        obtain ⟨b, hb, hfirst⟩ := (hall _).of_error hretry
        exact post_ok.mpr ⟨b, hb, Or.inr ⟨Or.inr hno, hfirst⟩⟩
      | ok st' => exact post_error.mpr ⟨rfl, (hall _).of_ok hretry⟩
  · rw [if_neg hsize]
    cases hscan : scanBytes p n 0 p.bitmap.length ⟨0, 0, false⟩ with
    | error r =>
      obtain ⟨b, hb, hfirst⟩ := (hall _).of_error hscan
      exact post_ok.mpr ⟨b, hb, Or.inr ⟨Or.inl (not_lt.mp hsize), hfirst⟩⟩
    | ok st => exact post_error.mpr ⟨rfl, (hall _).of_ok hscan⟩

/-- End of the part of the bitmap the 32-bit search looks at, in pages. -/
def limit32 (p : Pmm) : ℕ := min p.pages 1048576

theorem pmmFindFree32_post (p : Pmm) (hn : 0 < n) : Post (pmmFindFree32 p n)
      (fun base => ∃ b, base = b * 4096 ∧ First p.Free 0 (limit32 p) n b)
      (fun e => e = outOfMemory32 ∧ NoRun p.Free 0 (limit32 p) n) := by
  have hlim : 8 * (if p.bitmap.length > 131072 then 131072 else p.bitmap.length) = limit32 p := by
    unfold limit32 Pmm.pages
    split_ifs <;> omega
  have hle : (if p.bitmap.length > 131072 then 131072 else p.bitmap.length) ≤ p.bitmap.length := by
    split_ifs <;> omega
  have hscan := scanBytes_post (p := p) hn (zero_le _) hle 0
  rw [hlim] at hscan
  unfold pmmFindFree32
  dsimp only
  cases hs : scanBytes p n 0 _ ⟨0, 0, false⟩ with
  | error r => exact post_ok.mpr (hscan.of_error hs)
  | ok st => exact post_error.mpr ⟨rfl, hscan.of_ok hs⟩

/-- `pmm_find_free` is an exact first fit: it takes the lowest run from 4 GiB on if the bitmap goes
that far and there is one, the lowest run of the bitmap otherwise, and it panics only without a
run. -/
theorem pmm_find_free_exact (p : Pmm) {n : ℕ} (hn : 1 ≤ n) :
    ((131072 < p.bitmap.length ∧ ∃ b, 1048576 ≤ b ∧ b + n ≤ p.pages ∧ Run p.Free b n) →
      ∃ b, pmmFindFree p n = .ok (b * 4096) ∧ First p.Free 1048576 p.pages n b) ∧
    (¬(131072 < p.bitmap.length ∧ ∃ b, 1048576 ≤ b ∧ b + n ≤ p.pages ∧ Run p.Free b n) →
      (∃ b, b + n ≤ p.pages ∧ Run p.Free b n) →
      ∃ b, pmmFindFree p n = .ok (b * 4096) ∧ First p.Free 0 p.pages n b) ∧
    ∀ e, pmmFindFree p n = .error e →
      e = outOfMemory ∧ ∀ b, b + n ≤ p.pages → ¬ Run p.Free b n := by
  have hpost := pmmFindFree_post p hn
  have hserved := fun b hle hrun => hpost.returns_of_not fun _ he => he.2 b (zero_le b) hle hrun
  refine ⟨fun hhigh => ?_, fun hlow hrun => ?_, fun e he => ?_⟩
  · obtain ⟨hsize, b, hge, hle, hrun⟩ := hhigh
    obtain ⟨_, hcall, c, rfl, ⟨-, hfirst⟩ | ⟨hsmall | hno, -⟩⟩ := hserved b hle hrun
    · exact ⟨c, hcall, hfirst⟩
    · omega
    · exact absurd hrun (hno b hge hle)
  · obtain ⟨b, hle, hrun⟩ := hrun
    obtain ⟨_, hcall, c, rfl, ⟨hsize, hfirst⟩ | ⟨-, hfirst⟩⟩ := hserved b hle hrun
    · exact absurd ⟨hsize, c, hfirst.ge, hfirst.le, hfirst.run⟩ hlow
    · exact ⟨c, hcall, hfirst⟩
  · obtain ⟨rfl, hno⟩ := hpost.of_error he
    exact ⟨rfl, fun b hle => hno b (zero_le b) hle⟩

/-- Eight pages, of which the pages 5 and 6 are free. -/
def twoFree : Pmm := ⟨[0xF9], 6, 2, by decide⟩

theorem twoFree_run : Run twoFree.Free 5 2 := by
  intro q h1 h2
  obtain rfl | rfl : q = 5 ∨ q = 6 := by omega
  all_goals rfl

theorem pmm_find_free_exact_twoFree :
    ∃ b, pmmFindFree twoFree 2 = .ok (b * 4096) ∧ First twoFree.Free 0 twoFree.pages 2 b :=
  (@pmm_find_free_exact twoFree 2 (by decide)).2.1 (fun hhigh => absurd hhigh.1 (by decide))
    ⟨5, by decide, twoFree_run⟩

/-- `pmm_find_free32` takes the lowest run below 4 GiB and panics only without one; on a bitmap that
ends there it agrees with `pmm_find_free`. -/
theorem pmm_find_free32_exact (p : Pmm) {n : ℕ} (hn : 1 ≤ n) :
    ((∃ b, b + n ≤ p.pages ∧ b + n ≤ 1048576 ∧ Run p.Free b n) →
      ∃ b, pmmFindFree32 p n = .ok (b * 4096) ∧ First p.Free 0 (min p.pages 1048576) n b ∧
        (b + n) * 4096 ≤ 2 ^ 32) ∧
    (∀ e, pmmFindFree32 p n = .error e →
      e = outOfMemory32 ∧ ∀ b, b + n ≤ p.pages → b + n ≤ 1048576 → ¬ Run p.Free b n) ∧
    (p.bitmap.length ≤ 131072 →
      (∀ base, pmmFindFree32 p n = .ok base ↔ pmmFindFree p n = .ok base) ∧
        (pmmFindFree32 p n = .error outOfMemory32 ↔ pmmFindFree p n = .error outOfMemory)) := by
  have hpost := pmmFindFree32_post p hn
  refine ⟨fun hrun => ?_, fun e he => ?_, fun hsize => ?_⟩
  · obtain ⟨b, hle, hlow, hrun⟩ := hrun
    obtain ⟨_, hcall, c, rfl, hfirst⟩ :=
      hpost.returns_of_not fun _ he => he.2 b (zero_le b) (le_min hle hlow) hrun
    have hend : c + n ≤ 1048576 := hfirst.le.trans (min_le_right _ _)
    exact ⟨c, hcall, hfirst, by omega⟩
  · obtain ⟨rfl, hno⟩ := hpost.of_error he
    exact ⟨rfl, fun b hle hlow => hno b (zero_le b) (le_min hle hlow)⟩
  · -- both searches are the one scan of the whole bitmap
    have hnot : ¬ p.bitmap.length > 131072 := not_lt.mpr hsize
    simp only [pmmFindFree32, pmmFindFree, if_neg hnot]
    cases scanBytes p n 0 p.bitmap.length ⟨0, 0, false⟩ with
    | error base | ok st => simp

theorem pmm_find_free32_exact_twoFree :
    ∃ b, pmmFindFree32 twoFree 2 = .ok (b * 4096) ∧
      First twoFree.Free 0 (min twoFree.pages 1048576) 2 b ∧ (b + 2) * 4096 ≤ 2 ^ 32 :=
  (@pmm_find_free32_exact twoFree 2 (by decide)).1 ⟨5, by decide, by decide, twoFree_run⟩

end GarnOS
