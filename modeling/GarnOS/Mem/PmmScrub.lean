import GarnOS.Mem.PmmMemory

/-! What `pmm_free` erases. The offset of its `memset` does not depend on the pass of the loop, so
all passes overwrite the same 4096 bytes. -/
namespace GarnOS
open ByteMemory Outcome Function PmmBoot

/-- The bytes of the block that `pmm_free(base, npages)` gives back. -/
def InBlock (base : ℕ) (npages : ℤ) (x : ℕ) : Prop :=
  base ≤ x ∧ (x : ℤ) < base + npages * PAGE_SIZE

/-- Whatever the previous owner stored in the block, the memory after `pmm_free` is the same, and
outside the block and the bitmap it is the memory from before. -/
def Scrubs (hhdm : ℕ) (s : PmmBoot) (base : ℕ) (npages : ℤ) : Prop :=
  ∀ m m' : Mem, (∀ x, ¬InBlock base npages x → m x = m' x) →
    ∀ t t', free hhdm { s with mem := m } base npages = .ok t →
      free hhdm { s with mem := m' } base npages = .ok t' →
      t.mem = t'.mem ∧ ∀ x, ¬InBlock base npages x → ¬s.InBitmap x → t.mem x = m x

/-- The direct map holds the page that `pmm_free` fills, and its bits pass the bounds check. -/
structure FreeReturns (hhdm : ℕ) (s : PmmBoot) (base : ℕ) (npages : ℤ) : Prop where
  mapped : 0x1000 ≤ lastPage base npages ∧ hhdm + lastPage base npages + PAGE_SIZE ≤ 2 ^ 64
  checked : (base / 4096 + npages - 1) / 8 ≤ s.bitmapSize

section Scrub
variable {hhdm base : ℕ} {npages : ℤ} {s : PmmBoot}

theorem pageCount_of_int (hbase : base < 2 ^ 64) (h1 : 1 ≤ npages) (h31 : npages < 2 ^ 31) :
    (pageCount base npages : ℤ) = npages := by
  unfold pageCount u64
  omega

theorem memsetDirect_ok {m m' : Mem} {a n : ℕ} {c : BitVec 8} :
    memsetDirect hhdm m a c n = .ok m' ↔
      (0x1000 ≤ a ∧ hhdm + a + n ≤ 2 ^ 64) ∧ m' = fill m a n c := by
  unfold memsetDirect
  rw [memset_eq_fill]
  split
  next h => exact ⟨fun h' => (nomatch h'), fun h' => by omega⟩
  next h => exact ⟨fun h' => ⟨by omega, (Except.ok.inj h').symm⟩, fun h' => by rw [h'.2]⟩

theorem bitmapClear_ok {t : PmmBoot} {page : ℕ} (h : s.bitmapClear page = .ok t) :
    page / 8 ≤ s.bitmapSize ∧ Keeps s t ∧ t.mem = update s.mem (s.bitmap + page / 8)
      (s.mem (s.bitmap + page / 8) &&& ~~~(0b10000000#8 >>> (page % 8))) := by
  unfold bitmapClear at h
  split at h
  · cases h
  next hle =>
    obtain rfl := Except.ok.inj h
    exact ⟨by omega, ⟨rfl, rfl⟩, rfl⟩

theorem free_returns_iff (hbase : base < 2 ^ 64) (h1 : 1 ≤ npages) (h31 : npages < 2 ^ 31) :
    (∃ t, s.free hhdm base npages = .ok t) ↔ FreeReturns hhdm s base npages := by
  have hcount := pageCount_of_int hbase h1 h31
  constructor
  · rintro ⟨t, ht⟩
    have hend := forRange_ok (fun i u => u.bitmapSize = s.bitmapSize ∧ (i = base / 4096 ∨
      (0x1000 ≤ lastPage base npages ∧ hhdm + lastPage base npages + PAGE_SIZE ≤ 2 ^ 64) ∧
        (i - 1) / 8 ≤ s.bitmapSize)) ht ⟨rfl, .inl rfl⟩ ?_
    · obtain ⟨-, hzero | ⟨hmapped, hchecked⟩⟩ := hend
      · omega
      · exact ⟨hmapped, by omega⟩
    · rintro i u w - - ⟨hsize, -⟩ hbody
      obtain ⟨m, hm, hw⟩ := bind_eq_ok.mp hbody
      obtain ⟨hle, hkeeps, -⟩ := bitmapClear_ok hw
      exact ⟨hkeeps.bitmapSize.trans hsize, .inr ⟨(memsetDirect_ok.mp hm).1, hsize ▸ hle⟩⟩
  · rintro ⟨hmapped, hchecked⟩
    have hpost : Post (s.free hhdm base npages) (fun _ => True) fun _ => False := by
      refine (forRange_post (fun _ u => u.bitmapSize = s.bitmapSize) rfl ?_).mono_ok
        fun _ _ => trivial
      intro i u _ hi hu
      rw [memsetDirect_ok.mpr ⟨hmapped, rfl⟩, ok_bind]
      obtain ⟨w, hw, hkeeps, -⟩ := @bitmapClear_eq { u with mem := _ } i (by dsimp only; omega)
      rw [hw]
      exact post_ok.mpr (hkeeps.bitmapSize.trans hu)
    obtain ⟨t, ht, -⟩ := hpost.returns
    exact ⟨t, ht⟩

theorem free_mem {x : ℕ} (hfill : ¬(lastPage base npages ≤ x ∧ x < lastPage base npages + PAGE_SIZE))
    (hbits : ∀ i, base / 4096 ≤ i → i < base / 4096 + pageCount base npages → x ≠ s.bitmap + i / 8) :
    Post (s.free hhdm base npages) (fun t => t.mem x = s.mem x) (fun _ => True) := by
  refine (forRange_post (fun _ u => u.bitmap = s.bitmap ∧ u.mem x = s.mem x) ⟨rfl, rfl⟩ ?_).mono_ok
    fun _ h => h.2
  rintro i u hlo hi ⟨hbitmap, hx⟩
  refine ⟨fun {w} hbody => ?_, fun _ => trivial⟩
  obtain ⟨m, hm, hw⟩ := bind_eq_ok.mp hbody
  obtain ⟨-, rfl⟩ := memsetDirect_ok.mp hm
  obtain ⟨-, hkeeps, hmem⟩ := bitmapClear_ok hw
  refine ⟨hkeeps.bitmap.trans hbitmap, ?_⟩
  rw [hmem, update_of_ne (by dsimp only; rw [hbitmap]; exact hbits i hlo hi), ← hx]
  exact if_neg hfill

theorem free_one (hbase : base < 2 ^ 64) {t : PmmBoot} (h : s.free hhdm base 1 = .ok t) :
    t.mem = update (fill s.mem base PAGE_SIZE 0xff) (s.bitmap + base / 4096 / 8)
      (fill s.mem base PAGE_SIZE 0xff (s.bitmap + base / 4096 / 8) &&&
        ~~~(0b10000000#8 >>> (base / 4096 % 8))) := by
  have hlast : lastPage base 1 = base := by
    have hzero : int32 ((1 - 1) * (PAGE_SIZE : ℕ)) = 0 := by decide
    unfold lastPage
    rw [hzero]
    change (base + 0) % 2 ^ 64 = base
    omega
  have hcount : pageCount base 1 = 1 := by
    have := pageCount_of_int hbase (le_refl 1) (by decide)
    omega
  unfold PmmBoot.free at h
  rw [hlast, hcount, forRange_succ] at h
  obtain ⟨u, hbody, hu⟩ := bind_eq_ok.mp h
  obtain ⟨m, hm, hw⟩ := bind_eq_ok.mp hbody
  obtain ⟨-, rfl⟩ := memsetDirect_ok.mp hm
  obtain rfl : u = t := Except.ok.inj hu
  exact (bitmapClear_ok hw).2.2

/-- A block of two or more pages has a byte outside one page and outside its bits in the bitmap. -/
theorem exists_unscrubbed (base a b : ℕ) {n k : ℕ} (h2 : 2 ≤ n) (hk : k ≤ n / 8 + 2) :
    ∃ x, (base ≤ x ∧ x < base + n * 4096) ∧ ¬(a ≤ x ∧ x < a + 4096) ∧ ¬(b ≤ x ∧ x < b + k) := by
  by_contra hnone
  have hcover : ∀ y < n * 4096, (a ≤ base + y ∧ base + y < a + 4096) ∨
      (b ≤ base + y ∧ base + y < b + k) := by
    intro y hy
    by_contra hy'
    rw [not_or] at hy'
    exact hnone ⟨base + y, ⟨by omega, by omega⟩, hy'⟩
  by_cases hn : n = 2
  · subst hn
    have h0 := hcover 0 (by decide)
    have h2 := hcover 2 (by decide)
    have h4096 := hcover 4096 (by decide)
    have h4098 := hcover 4098 (by decide)
    omega
  · have h0 := hcover 0 (by omega)
    have hmid := hcover (max 4096 (n / 8 + 2)) (by omega)
    have hlast := hcover (2 * max 4096 (n / 8 + 2)) (by omega)
    omega

section
variable (hbase : base < 2 ^ 64)
include hbase

theorem Scrubs.behind (h : Scrubs hhdm s base 1) (hret : FreeReturns hhdm s base 1)
    (hbyte : base / 4096 / 8 = s.bitmapSize) : InBlock base 1 (s.bitmap + s.bitmapSize) := by
  by_contra hout
  obtain ⟨t, ht⟩ := (@free_returns_iff hhdm base 1 { s with mem := fun _ => 0xff } hbase le_rfl
    (by decide)).mpr ⟨hret.mapped, hret.checked⟩
  have hkept := (h _ _ (fun _ _ => rfl) t t ht ht).2 _ hout fun hin => by
    have := hin.2
    omega
  have hff : fill (fun _ => 0xff) base PAGE_SIZE (0xff : BitVec 8) = fun _ => 0xff := by
    funext x
    unfold fill
    split <;> rfl
  rw [free_one hbase ht] at hkept
  dsimp only at hkept
  rw [← hbyte, update_self, hff] at hkept
  have hcleared : ∀ i < 8, (0xff &&& ~~~(0b10000000#8 >>> i) : BitVec 8) ≠ 0xff := by decide
  exact hcleared _ (Nat.mod_lt _ (by decide)) hkept

theorem scrubs_one
    (hbehind : base / 4096 / 8 = s.bitmapSize → InBlock base 1 (s.bitmap + s.bitmapSize)) :
    Scrubs hhdm s base 1 := by
  intro m m' hsame t t' ht ht'
  have hblock : ∀ x, InBlock base 1 x ↔ base ≤ x ∧ x < base + PAGE_SIZE := by
    intro x
    unfold InBlock
    omega
  have hfill : fill m base PAGE_SIZE 0xff = fill m' base PAGE_SIZE 0xff := by
    funext x
    unfold fill
    split
    · rfl
    · next hout => exact hsame x (by rwa [hblock])
  have hmem := free_one hbase ht
  have hmem' := free_one hbase ht'
  dsimp only at hmem hmem'
  refine ⟨by rw [hmem, hmem', hfill], fun x hx hbitmap => ?_⟩
  obtain ⟨-, hchecked⟩ := (free_returns_iff hbase le_rfl (by decide)).mp ⟨t, ht⟩
  dsimp only at hchecked
  rw [hmem, update_of_ne]
  · exact if_neg (by rwa [← hblock])
  · rintro rfl
    have hbyte : base / 4096 / 8 = s.bitmapSize := by
      by_contra hne
      exact hbitmap ⟨by omega, by omega⟩
    exact hx (hbyte ▸ hbehind hbyte)

theorem not_scrubs_of_two {n : ℕ} (h2 : 2 ≤ n) (h31 : n < 2 ^ 31)
    (hret : FreeReturns hhdm s base n) : ¬Scrubs hhdm s base n := by
  intro hscrubs
  have hcount := @pageCount_of_int base n hbase (by omega) (by omega)
  obtain ⟨x, hin, hfill, hbits⟩ := exists_unscrubbed base (lastPage base n)
    (s.bitmap + base / 4096 / 8) h2
    (show (base / 4096 + n - 1) / 8 - base / 4096 / 8 + 1 ≤ n / 8 + 2 by omega)
  have hreturns : ∀ m : Mem, ∃ t, free hhdm { s with mem := m } base n = .ok t ∧ t.mem x = m x := by
    intro m
    obtain ⟨t, ht⟩ := (@free_returns_iff hhdm base n { s with mem := m } hbase (by omega)
      (by omega)).mpr ⟨hret.mapped, hret.checked⟩
    refine ⟨t, ht, (free_mem hfill fun i hlo hi => ?_).of_ok ht⟩
    dsimp only
    omega
  obtain ⟨t, ht, hx⟩ := hreturns fun _ => 0
  obtain ⟨t', ht', hx'⟩ := hreturns (update (fun _ => 0) x 1)
  have hsame := (hscrubs _ _ (fun y hy => ?_) t t' ht ht').1
  · rw [hsame, hx', update_self] at hx
    exact absurd hx (by decide)
  · rw [update_of_ne]
    rintro rfl
    refine hy ⟨hin.1, ?_⟩
    unfold PAGE_SIZE
    push_cast
    omega

end

/-- `pmm_free` leaves no trace of the freed block exactly if that is a single page whose bit is not
in the byte behind the bitmap, unless this byte is in the page itself. A call that does not return
does not count. -/
theorem pmm_free_scrubs_iff (hhdm : ℕ) (s : PmmBoot) (hbase : base < 2 ^ 64) (h1 : 1 ≤ npages)
    (h31 : npages < 2 ^ 31) : Scrubs hhdm s base npages ↔ ¬FreeReturns hhdm s base npages ∨
      npages = 1 ∧ (base / 4096 / 8 = s.bitmapSize → InBlock base 1 (s.bitmap + s.bitmapSize)) := by
  by_cases hret : FreeReturns hhdm s base npages
  · rw [or_iff_right (not_not.mpr hret)]
    by_cases hone : npages = 1
    · subst hone
      rw [and_iff_right rfl]
      exact ⟨fun h => h.behind hbase hret, scrubs_one hbase⟩
    · obtain ⟨n, rfl⟩ := Int.eq_ofNat_of_zero_le (show 0 ≤ npages by omega)
      exact iff_of_false (not_scrubs_of_two hbase (by omega) (by omega) hret) fun h => hone h.1
  · refine iff_of_true (fun m m' _ t t' ht => ?_) (.inl hret)
    obtain ⟨hmapped, hchecked⟩ := (free_returns_iff hbase h1 h31).mp ⟨t, ht⟩
    exact absurd ⟨hmapped, hchecked⟩ hret

end Scrub

theorem eightTaken_size : 1 < 2 ^ 49 := by decide

/-- Eight pages, all of them taken, with the bitmap in page 1. -/
def eightTaken : PmmBoot := ⟨fun _ => 0xff, 4096, 1, 8, 0, 8, eightTaken_size⟩

theorem pmm_free_scrubs_iff_page : (0x2000 < 2 ^ 64 ∧ (1 : ℤ) ≤ 1 ∧ (1 : ℤ) < 2 ^ 31) ∧
    Scrubs 0xffff800000000000 eightTaken 0x2000 1 :=
  ⟨by decide, (pmm_free_scrubs_iff _ eightTaken (by decide) (by decide) (by decide)).mpr
    (.inr ⟨rfl, fun h => absurd h (by decide)⟩)⟩

/-- Freeing two pages keeps what the owner stored in the first one. -/
theorem pmm_free_two_pages_unscrubbed : ¬Scrubs 0xffff800000000000 eightTaken 0x2000 (2 : ℕ) :=
  not_scrubs_of_two (by decide) le_rfl (by decide) ⟨by decide, by decide⟩

end GarnOS
