import GarnOS.Paging.Tables

/-! The lower half of an address space as the tree of the frames it holds. Changes to the entries
of its tables show in the walks of that tree. -/
namespace GarnOS
open ByteMemory Outcome Finset RadixTree PageTableEntry Walks List Nat

/-- The links through present table entries and through leaf entries that are not vacant.
A leaf mapped without `VMM_PRESENT` still holds its frame: `sys_munmap` frees it. -/
abbrev heldLinks (m : Mem) : Links ℕ := links (fun e => !e.vacant) m

/-- Absent entries of PML4, PDP and PD tables hold no address; present ones allow writes. -/
def Clean (m : Mem) : ℕ → ℕ → Prop
  | 0, _ | 1, _ => True
  | n + 2, t => ∀ i < slots (n + 2),
    ((readEntry m t i).present = false → (readEntry m t i).addr = 0) ∧
    ((readEntry m t i).present = true →
      (readEntry m t i).readWrite = true ∧ Clean m (n + 1) (readEntry m t i).frame)

/-- A page-table tree the kernel can walk: no frame occurs twice, no absent entry of a table
leads anywhere, and only leaf entries restrict writing. -/
structure SoundTree (m : Mem) (n t : ℕ) : Prop where
  distinct : Distinct slots (heldLinks m) n t
  clean : Clean m n t

section Links
variable {m m' : Mem} {n t i : ℕ}

theorem heldLinks_of_present (n : ℕ) (h : (readEntry m t i).present = true) :
    heldLinks m n t i = some (readEntry m t i).frame := by
  cases n with
  | zero => simp [links, holds, vacant, h]
  | succ n => simp [links, holds, h]

theorem heldLinks_of_absent (n : ℕ) (h : (readEntry m t i).present = false) :
    heldLinks m (n + 1) t i = none := by
  simp [links, holds, h]

theorem heldLinks_of_vacant (n : ℕ) (h : (readEntry m t i).vacant = true) :
    heldLinks m n t i = none := by
  cases n with
  | zero => simp [links, holds, h]
  | succ n =>
    rw [vacant, Bool.and_eq_true, Bool.not_eq_true'] at h
    exact heldLinks_of_absent n h.1

theorem present_prunes_held (m : Mem) : Prunes (presentLinks m) (heldLinks m) := by
  intro n t i f h
  cases hp : (readEntry m t i).present with
  | false =>
    rw [presentLinks_of_absent n hp] at h
    cases h
  | true =>
    rw [presentLinks_of_present n hp] at h
    rw [heldLinks_of_present n hp, h]

theorem Clean.congr (h : Clean m n t)
    (hf : ∀ u ∈ tables slots (heldLinks m) n t, FrameEq m m' u) : Clean m' n t := by
  induction n generalizing t with
  | zero => trivial
  | succ n ih =>
    cases n with
    | zero => trivial
    | succ n =>
      intro i hi
      have hself := hf t (self_mem_tables _ _ t)
      rw [← readEntry_congr hself (hi.trans_le (slots_le _))]
      refine ⟨(h i hi).1, fun hp => ⟨((h i hi).2 hp).1, ih ((h i hi).2 hp).2 fun u hu => hf u ?_⟩⟩
      exact mem_tables_of_child hi (heldLinks_of_present _ hp) hu

theorem SoundTree.congr (h : SoundTree m n t)
    (hf : ∀ u ∈ tables slots (heldLinks m) n t, FrameEq m m' u) : SoundTree m' n t :=
  ⟨h.distinct.congr (agree_of_frameEq hf), h.clean.congr hf⟩

theorem soundTree_of_vacant (n : ℕ) (h : ∀ i < slots (n + 1), (readEntry m t i).vacant = true) :
    SoundTree m (n + 1) t ∧ footprint slots (heldLinks m) (n + 1) t = {t} := by
  have hbelow : below slots (heldLinks m) (n + 1) t = ∅ := by
    rw [eq_empty_iff_forall_notMem]
    intro x hx
    obtain ⟨i, hi, hx⟩ := mem_below_succ.mp hx
    rw [branch_of_none (heldLinks_of_vacant n (h i hi))] at hx
    exact absurd hx (notMem_empty x)
  refine ⟨⟨distinct_of_below_empty hbelow, ?_⟩, ?_⟩
  · cases n with
    | zero => trivial
    | succ n =>
      intro i hi
      have hv := h i hi
      rw [vacant, Bool.and_eq_true, Bool.not_eq_true', beq_iff_eq] at hv
      exact ⟨fun _ => hv.2, fun hp => absurd hp (by rw [hv.1]; decide)⟩
  · rw [footprint_eq, hbelow, insert_empty]

end Links

/-- The root, the lower-half tables and the frames that leaf entries hold. -/
abbrev heldFrames (m : Mem) (pt : ℕ) : Finset ℕ := footprint slots (heldLinks m) 4 pt

structure SpaceReady (s : Machine) (pt : ℕ) : Prop where
  addressable : s.pmm.Addressable
  sound : SoundTree s.mem 4 pt
  used : heldFrames s.mem pt ⊆ s.pmm.setBits

/-- The paths through the lower half of an address space. -/
def lowPaths : IndexPaths where
  Has := Fits slots 4
  init := Fits.init
  bound := by
    intro p
    generalize 4 = n
    intro h
    induction p generalizing n with
    | nil => simp
    | cons i p ih =>
      cases n with
      | zero => exact h.elim
      | succ n => exact forall_mem_cons.mpr ⟨h.1.trans_le (slots_le _), ih n h.2⟩

/-- What a page entry holds. -/
def heldFrame (e : PageTableEntry) : Option ℕ := if e.vacant then none else some e.frame

section Walk
variable {m : Mem} {n t i f v x : ℕ} {p : List ℕ}

theorem lowPaths_pagePath (hv : v < VMM_USER_END) : lowPaths.Has (pagePath v) := by
  obtain ⟨h1, h2, h3, h4, -⟩ := validPath_pagePath hv
  exact ⟨h1, h2, h3, h4, trivial⟩

theorem walk_eq_follow (hp : Fits slots n p) (hlen : p.length < n) :
    walk slots (heldLinks m) n t p = follow (child m) t p := by
  induction n generalizing t p with
  | zero => exact absurd hlen (not_lt_zero _)
  | succ n ih =>
    cases p with
    | nil => rfl
    | cons i p =>
      have hlen' : p.length < n := lt_of_succ_lt_succ hlen
      have hlink : heldLinks m n t i = child m t i := by
        obtain ⟨n, rfl⟩ := exists_eq_succ_of_ne_zero (ne_zero_of_lt hlen')
        rfl
      rw [walk, if_pos hp.1, hlink, follow]
      exact Option.bind_congr fun u _ => ih hp.2 hlen'

theorem walk_eq_heldFrame (hp : Fits slots (n + 1) (p ++ [i])) (hlen : p.length = n) :
    walk slots (heldLinks m) (n + 1) t (p ++ [i]) = heldFrame (entryAt m t p i) := by
  induction n generalizing t p with
  | zero =>
    obtain rfl := length_eq_zero_iff.mp hlen
    have hlink : heldLinks m 0 t i = heldFrame (readEntry m t i) := by
      cases hv : (readEntry m t i).vacant <;> simp [links, holds, heldFrame, hv]
    rw [nil_append, walk, if_pos hp.1, hlink, entryAt_nil]
    cases heldFrame (readEntry m t i) <;> rfl
  | succ n ih =>
    cases p with
    | nil => cases hlen
    | cons j p =>
      have hlink : heldLinks m (n + 1) t j = child m t j := rfl
      rw [cons_append, walk, if_pos hp.1, entryAt_cons, hlink, child]
      split
      · exact ih hp.2 (succ.inj hlen)
      · rw [Option.bind_none, heldFrame, empty_vacant, if_pos rfl]

theorem walk_pagePath (hv : v < VMM_USER_END) : walk slots (heldLinks m) 4 t (pagePath v) =
    heldFrame (entryAt m t (tablePath v) (v / 4096 % 512)) := by
  have hfits : Fits slots 4 (tablePath v ++ [v / 4096 % 512]) := lowPaths_pagePath hv
  rw [pagePath_eq, walk_eq_heldFrame hfits rfl]

/-- A walk ends at a table or at a page. -/
theorem heldWalk_cases (h : walk slots (heldLinks m) 4 t p = some x) : lowPaths.Has p ∧
    (p.length ≤ 3 ∧ follow (child m) t p = some x ∨
      ∃ q j, p = q ++ [j] ∧ q.length = 3 ∧ heldFrame (entryAt m t q j) = some x) := by
  have hp := fits_of_walk h
  refine ⟨hp, ?_⟩
  by_cases hlen : p.length ≤ 3
  · exact .inl ⟨hlen, (walk_eq_follow hp (by omega)).symm.trans h⟩
  · have hle := hp.length_le
    obtain ⟨q, j, rfl, hq⟩ := exists_concat_of_length (show p.length = 3 + 1 by omega)
    exact .inr ⟨q, j, rfl, hq, (walk_eq_heldFrame hp hq).symm.trans h⟩

theorem table_mem_heldFrames (hp : lowPaths.Has p) (hlen : p.length ≤ 3)
    (h : follow (child m) t p = some x) : x ∈ heldFrames m t :=
  walk_mem_footprint ((walk_eq_follow hp (by omega)).trans h)

theorem clean_iff : Clean m n t ↔ ∀ p i, Fits slots n (p ++ [i]) → p.length + 2 ≤ n →
    ((entryAt m t p i).present = false → (entryAt m t p i).addr = 0) ∧
    ((entryAt m t p i).present = true → (entryAt m t p i).readWrite = true) := by
  induction n generalizing t with
  | zero => exact ⟨fun _ p i _ hlen => by omega, fun _ => trivial⟩
  | succ n ih =>
    cases n with
    | zero => exact ⟨fun _ p i _ hlen => by omega, fun _ => trivial⟩
    | succ n =>
      constructor
      · intro h p i hp hlen
        cases p with
        | nil => exact ⟨(h i hp.1).1, fun hpresent => ((h i hp.1).2 hpresent).1⟩
        | cons j p =>
          rw [entryAt_cons]
          split
          · rename_i hpresent
            exact ih.mp ((h j hp.1).2 hpresent).2 p i hp.2 (le_of_succ_le_succ hlen)
          · exact ⟨fun _ => empty_addr, fun hpresent => nomatch hpresent⟩
      · intro h i hi
        obtain ⟨habsent, hwritable⟩ := h [] i ⟨hi, by rw [Fits]; trivial⟩ (by simp)
        refine ⟨habsent, fun hpresent => ⟨hwritable hpresent, ih.mpr fun p j hp hlen => ?_⟩⟩
        have hrest := h (i :: p) j ⟨hi, hp⟩ (succ_le_succ hlen)
        rwa [entryAt_cons, if_pos hpresent] at hrest

end Walk

section Change
variable {s s' : Machine} {pt : ℕ} {A : Finset ℕ} {R : Prop}

theorem SpaceReady.tree (h : SpaceReady s pt) : TableTree lowPaths s pt where
  addressable := h.addressable
  used _ _ hp hlen ht := h.used (table_mem_heldFrames hp hlen ht)
  unique _ _ _ hp hq ht ht' := h.sound.distinct.walk_injective
    ((walk_eq_follow hp.1 (lt_succ_of_le hp.2)).trans ht)
    ((walk_eq_follow hq.1 (lt_succ_of_le hq.2)).trans ht')

/-- A change of tables and page entries leaves a sound tree if new tables and pages are new frames.
Its walks are old ones, lead to a new table or to a new page. -/
theorem SoundTree.relinked {m m' : Mem} {N : List ℕ → ℕ → Prop} (h : SoundTree m 4 pt)
    (hA : Disjoint (heldFrames m pt) A)
    (hunique : Unique (child m') pt fun p => lowPaths.Has p ∧ p.length ≤ 3)
    (htables : ∀ p, lowPaths.Has p → p.length ≤ 3 → follow (child m') pt p = follow (child m) pt p ∨
      ∃ t ∈ A, follow (child m') pt p = some t)
    (hleaf : ∀ q j x, lowPaths.Has (q ++ [j]) → q.length = 3 →
      heldFrame (entryAt m' pt q j) = some x →
        heldFrame (entryAt m pt q j) = some x ∨ N (q ++ [j]) x)
    (hnew : ∀ p x, N p x → x ∉ heldFrames m pt ∧ x ∉ A)
    (hinj : ∀ p q x, N p x → N q x → p = q)
    (hlinks : ∀ q j, lowPaths.Has (q ++ [j]) → q.length ≤ 2 →
      entryAt m' pt q j = entryAt m pt q j ∨ (entryAt m' pt q j).present = true ∧
        (entryAt m' pt q j).readWrite = true) :
    SoundTree m' 4 pt ∧ ∀ p x, walk slots (heldLinks m') 4 pt p = some x →
      walk slots (heldLinks m) 4 pt p = some x ∨ x ∈ A ∨ N p x := by
  have hcases : ∀ p x, walk slots (heldLinks m') 4 pt p = some x →
      walk slots (heldLinks m) 4 pt p = some x ∨
        (x ∈ A ∧ (lowPaths.Has p ∧ p.length ≤ 3) ∧ follow (child m') pt p = some x) ∨ N p x := by
    intro p x hw
    obtain ⟨hp, ⟨hlen, hfollow⟩ | ⟨q, j, rfl, hq, hheld⟩⟩ := heldWalk_cases hw
    · obtain heq | ⟨t, ht, heq⟩ := htables p hp hlen
      · exact .inl ((walk_eq_follow hp (lt_succ_of_le hlen)).trans (heq ▸ hfollow))
      · cases hfollow.symm.trans heq
        exact .inr (.inl ⟨ht, ⟨hp, hlen⟩, hfollow⟩)
    · obtain hold | hN := hleaf q j x hp hq hheld
      · exact .inl ((walk_eq_heldFrame hp hq).trans hold)
      · exact .inr (.inr hN)
  refine ⟨⟨h.distinct.extend hcases ?_ ?_, clean_iff.mpr fun p i hp hlen => ?_⟩, fun p x hw => ?_⟩
  · rintro p x (⟨hx, -⟩ | hN)
    · exact disjoint_right.mp hA hx
    · exact (hnew p x hN).1
  · rintro p q x (⟨hx, hp, hfollow⟩ | hN) (⟨hx', hq, hfollow'⟩ | hN')
    · exact hunique p q x hp hq hfollow hfollow'
    · exact absurd hx (hnew q x hN').2
    · exact absurd hx' (hnew p x hN).2
    · exact hinj p q x hN hN'
  · obtain heq | ⟨hpresent, hwritable⟩ := hlinks p i hp (le_of_add_le_add_right hlen)
    · rw [heq]
      exact clean_iff.mp h.clean p i hp hlen
    · exact ⟨fun habsent => absurd hpresent (by rw [habsent]; decide), fun _ => hwritable⟩
  · exact (hcases p x hw).imp_right (Or.imp_left And.left)

theorem TreeGrown.outside (hg : TreeGrown lowPaths pt s A R s') {x : ℕ}
    (hx : x ∉ heldFrames s.mem pt ∪ A) : FrameEq s.mem s'.mem x := by
  rw [mem_union, not_or] at hx
  refine hg.frameEq hx.2 ?_
  rintro ⟨p, hp, hlen, -, hfollow⟩
  exact hx.1 (table_mem_heldFrames hp hlen hfollow)

end Change

/-- The walk of the processor along `p` ends at a page and allows writes there. -/
def Writable (m : Mem) (t : ℕ) (p : List ℕ) : Prop :=
  ∃ r, translate m t p = some r ∧ r.1.all (·.readWrite) = true

section Writes
variable {m : Mem} {t : ℕ} {p : List ℕ}

theorem translate_writable {r : List PageTableEntry × ℕ} (h : translate m t p = some r)
    (hrw : ∀ q j q', p = q ++ j :: q' → (entryAt m t q j).present = true →
      (entryAt m t q j).readWrite = true) : r.1.all (·.readWrite) = true := by
  induction p generalizing t r with
  | nil =>
    obtain rfl := Option.some.inj h
    rfl
  | cons i p ih =>
    simp only [translate] at h
    split at h
    · rename_i hpresent
      obtain ⟨r', hr', rfl⟩ := Option.map_eq_some_iff.mp h
      rw [all_cons, Bool.and_eq_true]
      refine ⟨hrw [] i p rfl hpresent, ih hr' fun q j q' hq => ?_⟩
      have hrest := hrw (i :: q) j q' (by rw [hq, cons_append])
      rwa [entryAt_cons, if_pos hpresent] at hrest
    · cases h

theorem writable_of_entry {v : ℕ} (hclean : Clean m 4 t) (hv : v < VMM_USER_END)
    (hpresent : (entryAt m t (tablePath v) (v / 4096 % 512)).present = true)
    (hrw : (entryAt m t (tablePath v) (v / 4096 % 512)).readWrite = true) :
    Writable m t (pagePath v) := by
  have hfollow := translate_eq_follow m t (pagePath v)
  rw [pagePath_eq, follow_eq_entryAt, if_pos hpresent] at hfollow
  obtain ⟨r, htr, -⟩ := Option.map_eq_some_iff.mp hfollow
  refine ⟨r, htr, translate_writable htr fun q j r hpath hp => ?_⟩
  have hlength : 4 = q.length + (r.length + 1) := by
    simpa [pagePath] using congrArg length ((pagePath_eq v).trans hpath)
  by_cases hq : q.length ≤ 2
  · have hfits := lowPaths_pagePath hv
    rw [pagePath_eq, hpath, ← singleton_append, ← append_assoc] at hfits
    exact (clean_iff.mp hclean q j (lowPaths.init hfits) (by omega)).2 hp
  · obtain rfl := length_eq_zero_iff.mp (show r.length = 0 by omega)
    obtain ⟨rfl, hj⟩ := append_inj' hpath rfl
    rwa [← (cons.inj hj).1]

end Writes

end GarnOS
