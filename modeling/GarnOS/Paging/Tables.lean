import GarnOS.Library.Walks
import GarnOS.Paging.AddressSpace

/-! The tables of a page-table tree as walks from its root see them. Pages may be any frames, the
tables themselves among them, so only the tables have to form a tree. -/
namespace GarnOS
open ByteMemory Outcome Finset PageTableEntry Walks List Option

def child (m : Mem) (t i : ℕ) : Option ℕ :=
  if (readEntry m t i).present then some (readEntry m t i).frame else none

/-- The entry `i` of the table at the end of a path. A table that is missing counts as empty. -/
def entryAt (m : Mem) (k : ℕ) (p : List ℕ) (i : ℕ) : PageTableEntry :=
  (follow (child m) k p).elim PageTableEntry.empty fun t => readEntry m t i

/-- A part of a tree: with a path it has the tables on the way there. -/
structure IndexPaths where
  Has : List ℕ → Prop
  init : ∀ {p q}, Has (p ++ q) → Has p
  bound : ∀ {p}, Has p → ∀ j ∈ p, j < 512

open IndexPaths

/-- The tables of this part of the tree are allocated frames, and no two paths share one. -/
structure TableTree (P : IndexPaths) (s : Machine) (k : ℕ) : Prop where
  addressable : s.pmm.Addressable
  used : ∀ p t, P.Has p → p.length ≤ 3 → follow (child s.mem) k p = some t → t ∈ s.pmm.setBits
  unique : Unique (child s.mem) k fun p => P.Has p ∧ p.length ≤ 3

/-- A table that a change to this part of the tree may write; the root only under `R`. -/
def Written (P : IndexPaths) (R : Prop) (m : Mem) (k x : ℕ) : Prop :=
  ∃ p, P.Has p ∧ p.length ≤ 3 ∧ (p = [] → R) ∧ follow (child m) k p = some x

/-- The tree after the frames `A` were taken from the allocator. Tables stay where they are, and a
new one is a frame of `A`. -/
structure TreeGrown (P : IndexPaths) (k : ℕ) (s : Machine) (A : Finset ℕ) (R : Prop) (s' : Machine) :
    Prop where
  tree : TableTree P s' k
  acq : Acquired s A s'.pmm.setBits s'
  tables : ∀ p, P.Has p → p.length ≤ 3 → follow (child s'.mem) k p = follow (child s.mem) k p ∨
    follow (child s.mem) k p = none ∧ ∃ t ∈ A, follow (child s'.mem) k p = some t
  kept : ∀ x ∈ s.pmm.setBits, ¬Written P R s.mem k x → FrameEq s.mem s'.mem x

section Entries
variable {m m' : Mem} {k t i : ℕ} {p q : List ℕ}

theorem child_congr (h : readEntry m' t i = readEntry m t i) : child m' t i = child m t i := by
  unfold child
  rw [h]

theorem child_eq_some {f : ℕ} (h : child m t i = some f) : (readEntry m t i).frame = f := by
  unfold child at h
  split at h
  · exact some.inj h
  · cases h

theorem present_of_child {f : ℕ} (h : child m t i = some f) : (readEntry m t i).present = true := by
  unfold child at h
  split at h
  · assumption
  · cases h

theorem entryAt_of_follow (h : follow (child m) k p = some t) (i : ℕ) :
    entryAt m k p i = readEntry m t i := by
  rw [entryAt, h, elim_some]

theorem entryAt_of_none (h : follow (child m) k p = none) (i : ℕ) : entryAt m k p i = empty := by
  rw [entryAt, h, elim_none]

theorem entryAt_congr (hfollow : follow (child m') k p = follow (child m) k p)
    (hentry : ∀ t, follow (child m) k p = some t → readEntry m' t i = readEntry m t i) :
    entryAt m' k p i = entryAt m k p i := by
  cases ht : follow (child m) k p with
  | none => rw [entryAt_of_none ht, entryAt_of_none (hfollow.trans ht)]
  | some t => rw [entryAt_of_follow ht, entryAt_of_follow (hfollow.trans ht), hentry t ht]

theorem follow_eq_entryAt (m : Mem) (k : ℕ) (p : List ℕ) (i : ℕ) :
    follow (child m) k (p ++ [i]) =
      if (entryAt m k p i).present then some (entryAt m k p i).frame else none := by
  rw [follow_concat]
  cases h : follow (child m) k p with
  | none => rw [entryAt_of_none h, bind_none, empty_present, if_neg Bool.false_ne_true]
  | some t => rw [entryAt_of_follow h, bind_some, child]

theorem IndexPaths.last {P : IndexPaths} (h : P.Has (p ++ [i])) : i < 512 := P.bound h i (by simp)

theorem exists_concat_of_length {n : ℕ} (h : p.length = n + 1) :
    ∃ q i, p = q ++ [i] ∧ q.length = n := by
  obtain rfl | ⟨q, i, rfl⟩ := p.eq_nil_or_concat'
  · cases h
  · refine ⟨q, i, rfl, ?_⟩
    rw [length_append, length_singleton] at h
    omega

theorem length_concat_le {n : ℕ} (h : (p ++ [i]).length ≤ n + 1) : p.length ≤ n := by
  rw [length_append, length_singleton] at h
  omega

end Entries

section Tree
variable {P : IndexPaths} {s s' u : Machine} {k t f i : ℕ} {p q : List ℕ} {m' : Mem} {R R' : Prop}
  {A B : Finset ℕ} {e : PageTableEntry}

theorem TreeGrown.refl (h : TableTree P s k) (R : Prop) : TreeGrown P k s ∅ R s :=
  ⟨h, Acquired.refl s _, fun _ _ _ => .inl rfl, fun x _ _ => FrameEq.refl _ x⟩

theorem TreeGrown.trans (h : TreeGrown P k s A R u) (h' : TreeGrown P k u B R' s') (hR : R' → R) :
    TreeGrown P k s (A ∪ B) R s' where
  tree := h'.tree
  acq := (h.acq.trans h'.acq).mono (union_subset h'.acq.keeps Subset.rfl)
  tables p hp hlen := by
    obtain heq' | ⟨hnone', t, ht, heq'⟩ := h'.tables p hp hlen
    · rw [heq']
      rcases h.tables p hp hlen with heq | ⟨hnone, t, ht, heq⟩
      · exact .inl heq
      · exact .inr ⟨hnone, t, mem_union_left _ ht, heq⟩
    · obtain heq | ⟨-, v, -, heq⟩ := h.tables p hp hlen
      · exact .inr ⟨heq ▸ hnone', t, mem_union_right _ ht, heq'⟩
      · rw [hnone'] at heq
        cases heq
  kept x hx hout := by
    refine (h.kept x hx hout).trans (h'.kept x (h.acq.keeps hx) ?_)
    rintro ⟨p, hp, hlen, hroot, hfollow⟩
    obtain heq | ⟨-, t, ht, heq⟩ := h.tables p hp hlen
    · exact hout ⟨p, hp, hlen, fun hnil => hR (hroot hnil), heq ▸ hfollow⟩
    · cases hfollow.symm.trans heq
      exact disjoint_left.mp h.acq.fresh hx ht

theorem TreeGrown.follow_eq (h : TreeGrown P k s A R s') (hp : P.Has p) (hlen : p.length ≤ 3)
    (ht : follow (child s.mem) k p = some t) : follow (child s'.mem) k p = some t := by
  obtain heq | ⟨hnone, -⟩ := h.tables p hp hlen
  · rw [heq, ht]
  · rw [hnone] at ht
    cases ht

theorem TreeGrown.frameEq (h : TreeGrown P k s A R s') {x : ℕ} (hA : x ∉ A)
    (hout : ¬Written P R s.mem k x) : FrameEq s.mem s'.mem x := by
  by_cases hx : x ∈ s.pmm.setBits
  · exact h.kept x hx hout
  · refine h.acq.mem x fun hx' => ?_
    rw [h.acq.setBits, mem_union] at hx'
    exact hx'.elim hx hA

theorem TreeGrown.root_kept (h : TreeGrown P k s A R s') (hs : TableTree P s k) (hnil : P.Has [])
    (hR : ¬R) : FrameEq s.mem s'.mem k := by
  refine h.kept k (hs.used [] k hnil (Nat.zero_le 3) rfl) ?_
  rintro ⟨p, hp, hlen, hroot, hfollow⟩
  exact hR (hroot (hs.unique p [] k ⟨hp, hlen⟩ ⟨hnil, Nat.zero_le 3⟩ hfollow rfl))

section
variable (h : TableTree P s k) (hp : P.Has (p ++ [i])) (hlen : p.length ≤ 3)
  (ht : follow (child s.mem) k p = some t)
include h hp hlen ht

theorem TableTree.entry_ne {v j : ℕ} (hq : P.Has (q ++ [j])) (hqlen : q.length ≤ 3)
    (hv : follow (child s.mem) k q = some v) (hne : q ++ [j] ≠ p ++ [i]) : v ≠ t ∨ j ≠ i := by
  by_contra hsame
  obtain ⟨hvt, hji⟩ := not_or.mp hsame
  obtain rfl := not_not.mp hvt
  have hqp := h.unique q p v ⟨P.init hq, hqlen⟩ ⟨P.init hp, hlen⟩ hv ht
  rw [hqp, not_not.mp hji] at hne
  exact hne rfl

variable
  (hm : ∀ u ∈ s.pmm.setBits, ∀ j < 512, u ≠ t ∨ j ≠ i → readEntry m' u j = readEntry s.mem u j)
include hm

theorem TableTree.relinked :
    Relinked (child s.mem) (child m') k (fun q => P.Has q ∧ q.length ≤ 4) (p ++ [i]) where
  closed q j hq := ⟨P.init hq.1, (length_concat_le hq.2).trans (by decide)⟩
  others q v j hq hv hne := by
    have hqlen : q.length ≤ 3 := length_concat_le hq.2
    exact child_congr (hm v (h.used q v (P.init hq.1) hqlen hv) j (last hq.1)
      (h.entry_ne hp hlen ht hq.1 hqlen hv hne))

theorem TableTree.entryAt_eq (he : readEntry m' t i = e) {j : ℕ} (hq : P.Has (q ++ [j]))
    (hqlen : q.length ≤ 3) (hfollow : follow (child m') k q = follow (child s.mem) k q) :
    entryAt m' k q j = if q ++ [j] = p ++ [i] then e else entryAt s.mem k q j := by
  by_cases hsame : q ++ [j] = p ++ [i]
  · obtain ⟨rfl, rfl⟩ : q = p ∧ j = i := by simpa using hsame
    rw [if_pos rfl, entryAt_of_follow (hfollow.trans ht), he]
  · rw [if_neg hsame]
    refine entryAt_congr hfollow fun v hv => ?_
    exact hm v (h.used q v (P.init hq) hqlen hv) j (last hq)
      (h.entry_ne hp hlen ht hq hqlen hv hsame)

end

theorem TableTree.of_follow (h : TableTree P s k) (haddr : s'.pmm.Addressable)
    (hused : ∀ q t, P.Has q → q.length ≤ 3 → follow (child s.mem) k q = some t → t ∈ s'.pmm.setBits)
    (heq : ∀ q, P.Has q → q.length ≤ 3 → follow (child s'.mem) k q = follow (child s.mem) k q) :
    TableTree P s' k where
  addressable := haddr
  used q v hq hlen hv := hused q v hq hlen (heq q hq hlen ▸ hv)
  unique q r v hq hr hv hv' :=
    h.unique q r v hq hr (heq q hq.1 hq.2 ▸ hv) (heq r hr.1 hr.2 ▸ hv')

theorem TableTree.setLeaf (h : TableTree P s k) (hp : P.Has (p ++ [i])) (hlen : p.length = 3)
    (ht : follow (child s.mem) k p = some t) (g : PageTableEntry → PageTableEntry) :
    TreeGrown P k s ∅ False { s with mem := writeEntry s.mem t i (g (readEntry s.mem t i)) } ∧
    ∀ q j, P.Has (q ++ [j]) → q.length ≤ 3 →
      entryAt (writeEntry s.mem t i (g (readEntry s.mem t i))) k q j =
        if q ++ [j] = p ++ [i] then g (entryAt s.mem k q j) else entryAt s.mem k q j := by
  have hi := last hp
  set e := g (readEntry s.mem t i) with he
  have hused := h.used p t (P.init hp) hlen.le ht
  have hm : ∀ u ∈ s.pmm.setBits, ∀ j < 512, u ≠ t ∨ j ≠ i →
      readEntry (writeEntry s.mem t i e) u j = readEntry s.mem u j :=
    fun u _ j hj hne => readEntry_writeEntry_ne hi hj hne
  have htables : ∀ q, P.Has q → q.length ≤ 3 →
      follow (child (writeEntry s.mem t i e)) k q = follow (child s.mem) k q := by
    intro q hq hqlen
    refine (h.relinked hp hlen.le ht hm).follow_eq ⟨hq, by omega⟩ fun hle => ?_
    have := hle.length_le
    rw [length_append, length_singleton] at this
    omega
  refine ⟨⟨h.of_follow h.addressable h.used htables, ?_,
    fun q hq hqlen => .inl (htables q hq hqlen), ?_⟩, ?_⟩
  · refine (Acquired.refl s _).write fun x hx => (writeEntry_frameEq hi ?_).symm
    rintro rfl
    exact hx hused
  · intro x _ hout
    refine (writeEntry_frameEq hi ?_).symm
    rintro rfl
    exact hout ⟨p, P.init hp, hlen.le, fun hnil => by simp [hnil] at hlen, ht⟩
  · intro q j hq hqlen
    rw [h.entryAt_eq hp hlen.le ht hm (readEntry_writeEntry _ _ _ _) hq hqlen
      (htables q (P.init hq) hqlen)]
    by_cases hsame : q ++ [j] = p ++ [i]
    · obtain ⟨rfl, rfl⟩ : q = p ∧ j = i := by simpa using hsame
      rw [if_pos rfl, if_pos rfl, entryAt_of_follow ht]
    · rw [if_neg hsame, if_neg hsame]

/-- The memory after the zeroed frame `f` was hung into the entry `i` of the table `t`. -/
def graftMem (m : Mem) (f t i : ℕ) (e : PageTableEntry) : Mem :=
  writeEntry (fill m (f * 4096) 4096 0) t i e

theorem readEntry_graftMem_ne (hfresh : f ∉ s.pmm.setBits) (hi : i < 512) (e : PageTableEntry) :
    ∀ v ∈ s.pmm.setBits, ∀ j < 512, v ≠ t ∨ j ≠ i →
      readEntry (graftMem s.mem f t i e) v j = readEntry s.mem v j := by
  intro v hv j hj hne
  rw [graftMem, readEntry_writeEntry_ne hi hj hne]
  exact readEntry_congr (fill_frameEq 0 fun he => hfresh (he ▸ hv)) hj

theorem readEntry_graftMem_zero {j : ℕ} (hi : i < 512) (hj : j < 512) (hne : f ≠ t) (m : Mem)
    (e : PageTableEntry) : readEntry (graftMem m f t i e) f j = PageTableEntry.empty := by
  rw [graftMem, readEntry_writeEntry_ne hi hj (.inl hne), readEntry_fill_zero _ hj]

theorem graftMem_frameEq {x : ℕ} (hi : i < 512) (hf : x ≠ f) (ht : x ≠ t) (m : Mem)
    (e : PageTableEntry) : FrameEq m (graftMem m f t i e) x :=
  ((writeEntry_frameEq hi ht).trans (fill_frameEq 0 hf)).symm

theorem TableTree.graft_follow (h : TableTree P s k) (hp : P.Has (p ++ [i])) (hlen : p.length ≤ 2)
    (ht : follow (child s.mem) k p = some t) (habsent : (readEntry s.mem t i).present = false)
    (hfresh : f ∉ s.pmm.setBits) (hpresent : e.present = true) (hframe : e.frame = f) (q : List ℕ)
    (hq : P.Has q) (hqlen : q.length ≤ 4) :
    (follow (child (graftMem s.mem f t i e)) k q = follow (child s.mem) k q ∧ q ≠ p ++ [i]) ∨
      (q = p ++ [i] ∧ follow (child (graftMem s.mem f t i e)) k q = some f) := by
  have hi := last hp
  have hused := h.used p t (P.init hp) (by omega) ht
  have hft : f ≠ t := fun he => hfresh (he ▸ hused)
  have hlink := h.relinked hp (by omega) ht (readEntry_graftMem_ne hfresh hi e)
  have hold : child s.mem t i = none := by
    rw [child, habsent]
    rfl
  have hnew : child (graftMem s.mem f t i e) t i = some f := by
    rw [child, graftMem, readEntry_writeEntry, hpresent, if_pos rfl, hframe]
  refine hlink.graft_cases ⟨P.init hp, by omega⟩ ht hold hnew ?_ ⟨hq, hqlen⟩
  intro j q' hq'
  rw [child, readEntry_graftMem_zero hi (P.bound hq'.1 j (by simp)) hft]
  rfl

theorem TableTree.of_graft (h : TableTree P s k) {r : List ℕ} (haddr : s'.pmm.Addressable)
    (hset : s'.pmm.setBits = s.pmm.setBits ∪ {f}) (hfresh : f ∉ s.pmm.setBits)
    (hcases : ∀ q, P.Has q → q.length ≤ 3 →
      (follow (child s'.mem) k q = follow (child s.mem) k q ∧ q ≠ r) ∨
        (q = r ∧ follow (child s'.mem) k q = some f)) : TableTree P s' k := by
  have hnotable : ∀ q, P.Has q → q.length ≤ 3 → follow (child s.mem) k q ≠ some f :=
    fun q hq hqlen hv => hfresh (h.used q f hq hqlen hv)
  refine ⟨haddr, ?_, ?_⟩
  · intro q v hq hqlen hv
    rw [hset]
    rcases hcases q hq hqlen with ⟨heq, -⟩ | ⟨-, heq⟩
    · exact mem_union_left _ (h.used q v hq hqlen (heq ▸ hv))
    · cases hv.symm.trans heq
      exact Finset.mem_union_right _ (Finset.mem_singleton_self f)
  · rintro q q' v ⟨hq, hqlen⟩ ⟨hq', hqlen'⟩ hv hv'
    rcases hcases q hq hqlen with ⟨heq, -⟩ | ⟨rfl, heq⟩
    · rcases hcases q' hq' hqlen' with ⟨heq', -⟩ | ⟨rfl, heq'⟩
      · exact h.unique q q' v ⟨hq, hqlen⟩ ⟨hq', hqlen'⟩ (heq ▸ hv) (heq' ▸ hv')
      · cases hv'.symm.trans heq'
        exact absurd (heq ▸ hv) (hnotable q hq hqlen)
    · cases hv.symm.trans heq
      rcases hcases q' hq' hqlen' with ⟨heq', -⟩ | ⟨rfl, -⟩
      · exact absurd (heq' ▸ hv') (hnotable q' hq' hqlen')
      · rfl

section
variable (h : TableTree P s k) (hp : P.Has (p ++ [i])) (hlen : p.length ≤ 2)
  (ht : follow (child s.mem) k p = some t)
include h hp hlen ht

theorem TableTree.graft (habsent : (readEntry s.mem t i).present = false)
    (hfresh : f ∉ s.pmm.setBits) (hacq : Acquired s {f} ∅ u) (hpresent : e.present = true)
    (hframe : e.frame = f) : TreeGrown P k s {f} (p = []) { u with mem := graftMem s.mem f t i e } ∧
    (∀ q j, P.Has (q ++ [j]) → q.length ≤ 3 → entryAt (graftMem s.mem f t i e) k q j =
      if q ++ [j] = p ++ [i] then e else entryAt s.mem k q j) ∧
    follow (child (graftMem s.mem f t i e)) k (p ++ [i]) = some f := by
  have hi := last hp
  have hused := h.used p t (P.init hp) (by omega) ht
  have hft : f ≠ t := fun he => hfresh (he ▸ hused)
  have hlength : (p ++ [i]).length ≤ 3 := by
    rw [length_append, length_singleton]
    omega
  have hcases := h.graft_follow hp hlen ht habsent hfresh hpresent hframe
  have hself : follow (child (graftMem s.mem f t i e)) k (p ++ [i]) = some f := by
    rcases hcases _ hp (by omega) with ⟨-, hne⟩ | ⟨-, hself⟩
    · exact absurd rfl hne
    · exact hself
  have hnone : follow (child s.mem) k (p ++ [i]) = none := by
    rw [follow_eq_entryAt, entryAt_of_follow ht, habsent]
    rfl
  refine ⟨⟨h.of_graft (hacq.addressable h.addressable) hacq.setBits hfresh
    fun q hq hqlen => hcases q hq (by omega), ?_, ?_, ?_⟩, ?_, hself⟩
  · refine (hacq.mono (empty_subset _)).write fun x hx => ?_
    have hxf : x ≠ f := by
      rintro rfl
      exact hx (hacq.taken (Finset.mem_singleton_self x))
    have hxt : x ≠ t := by
      rintro rfl
      exact hx (hacq.keeps hused)
    exact (hacq.mem x (notMem_empty x)).symm.trans (graftMem_frameEq hi hxf hxt s.mem e)
  · intro q hq hqlen
    rcases hcases q hq (by omega) with ⟨heq, -⟩ | ⟨rfl, heq⟩
    · exact .inl heq
    · exact .inr ⟨hnone, f, Finset.mem_singleton_self f, heq⟩
  · intro x hx hout
    have hxf : x ≠ f := fun he => hfresh (he ▸ hx)
    have hxt : x ≠ t := by
      rintro rfl
      exact hout ⟨p, P.init hp, by omega, id, ht⟩
    exact graftMem_frameEq hi hxf hxt s.mem e
  · intro q j hq hqlen
    rcases hcases q (P.init hq) (by omega) with ⟨heq, -⟩ | ⟨rfl, heq⟩
    · exact h.entryAt_eq hp (by omega) ht (readEntry_graftMem_ne hfresh hi e)
        (readEntry_writeEntry _ _ _ _) hq hqlen heq
    · rw [entryAt_of_follow heq, entryAt_of_none hnone,
        readEntry_graftMem_zero hi (last hq) hft, if_neg (by simp)]

theorem TableTree.nextTable_post (flags : BitVec 32) : Post (nextTable s t i flags)
      (fun r => ∃ A : Finset ℕ, A.card ≤ 1 ∧
        TreeGrown P k s A (p = [] ∧ (readEntry s.mem t i).present = false) r.2 ∧
        (∀ q j, P.Has (q ++ [j]) → q.length ≤ 3 → entryAt r.2.mem k q j = entryAt s.mem k q j ∨
          q ++ [j] = p ++ [i] ∧ (entryAt r.2.mem k q j).present = true ∧
            (entryAt r.2.mem k q j).readWrite = true) ∧
        (∀ j < 512, j ≠ i → readEntry r.2.mem t j = readEntry s.mem t j) ∧
        follow (child r.2.mem) k (p ++ [i]) = some r.1 ∧ ∀ f ∈ A, f = r.1)
      (fun e => e = outOfMemory ∧ s.pmm.clearBits.card = 0) := by
  unfold nextTable
  dsimp only
  cases hpresent : (readEntry s.mem t i).present with
  | true =>
    refine post_ok.mpr ⟨∅, Nat.zero_le 1, TreeGrown.refl h _, fun _ _ _ _ => .inl rfl,
      fun _ _ _ => rfl, ?_, by simp⟩
    rw [follow_concat, ht, bind_some, child, hpresent, if_pos rfl]
  | false =>
    apply (pmmAllocate_one_post s).bind
    rintro ⟨base, u⟩ ⟨g, rfl, hbound, hfree, hacq, hmem⟩
    rw [hmem, Nat.mul_div_cancel g (by decide), PAGE_SIZE, memset_eq_fill]
    obtain ⟨hgrown, hentries, hself⟩ := h.graft hp hlen ht hpresent hfree hacq
      (e := { readEntry s.mem t i with
        addr := BitVec.ofNat 51 g, present := true, readWrite := true,
        userSupervisor := flags &&& VMM_USER != 0 }) rfl (h.addressable.toNat_ofNat hbound)
    unfold graftMem at hgrown hentries hself
    refine post_ok.mpr ⟨{g}, (card_singleton g).le, ?_, fun q j hq hqlen => ?_, fun j hj hji => ?_,
      hself, fun f hf => Finset.mem_singleton.mp hf⟩
    · refine ⟨hgrown.tree, hgrown.acq, hgrown.tables, fun x hx hout => hgrown.kept x hx ?_⟩
      rintro ⟨q, hq, hqlen, hroot, hfollow⟩
      exact hout ⟨q, hq, hqlen, fun hnil => ⟨hroot hnil, rfl⟩, hfollow⟩
    · rw [hentries q j hq hqlen]
      by_cases hsame : q ++ [j] = p ++ [i]
      · exact .inr ⟨hsame, by rw [if_pos hsame], by rw [if_pos hsame]⟩
      · exact .inl (if_neg hsame)
    · exact readEntry_graftMem_ne hfree (last hp) _ t
        (h.used p t (P.init hp) (by omega) ht) j hj (.inr hji)

end

/-- `arch_mm_map` as a recursion over the indices of the address. -/
def mapAlong (physAddr : ℕ) (flags : BitVec 32) : List ℕ → ℕ → Machine → Except Fault Machine
  | [], _, s => .ok s
  | [i], t, s =>
    let currentEntry := { readEntry s.mem t i with addr := BitVec.ofNat 51 (physAddr / 4096) }
    .ok { s with mem := writeEntry s.mem t i (withFlags currentEntry flags) }
  | i :: j :: p, t, s => do
    let (t, s) ← nextTable s t i flags
    mapAlong physAddr flags (j :: p) t s

/-- The entry that `arch_mm_map` makes of the one it finds. -/
def mappedEntry (physAddr : ℕ) (flags : BitVec 32) (e : PageTableEntry) : PageTableEntry :=
  withFlags { e with addr := BitVec.ofNat 51 (physAddr / 4096) } flags

/-- The entry that `arch_mm_unmap` makes of the one it finds. -/
def unmappedEntry (e : PageTableEntry) : PageTableEntry := { e with present := false, addr := 0 }

/-- What mapping a page does to the entries: one page entry changes, and entries for tables change
only from absent to present. The new tables hang on the way to the page. -/
theorem TableTree.mapAlong_post (h : TableTree P s k) {r : List ℕ} (hr : P.Has (p ++ i :: r))
    (hlen : (p ++ i :: r).length = 4) (ht : follow (child s.mem) k p = some t) (physAddr : ℕ)
    (flags : BitVec 32) :
    Post (mapAlong physAddr flags (i :: r) t s)
      (fun s' => ∃ A : Finset ℕ, A.card ≤ r.length ∧
        TreeGrown P k s A (p = [] ∧ (readEntry s.mem t i).present = false) s' ∧
        (∀ f ∈ A, ∃ q, q <+: p ++ i :: r ∧ q.length ≤ 3 ∧ follow (child s'.mem) k q = some f) ∧
        (∀ q j, P.Has (q ++ [j]) → q.length = 3 → entryAt s'.mem k q j =
          if q ++ [j] = p ++ i :: r then mappedEntry physAddr flags (entryAt s.mem k q j)
          else entryAt s.mem k q j) ∧
        (∀ q j, P.Has (q ++ [j]) → q.length ≤ 2 → entryAt s'.mem k q j = entryAt s.mem k q j ∨
          (entryAt s'.mem k q j).present = true ∧ (entryAt s'.mem k q j).readWrite = true) ∧
        (p = [] → ∀ j < 512, j ≠ i → readEntry s'.mem k j = readEntry s.mem k j))
      (fun e => e = outOfMemory ∧ s.pmm.clearBits.card < r.length) := by
  induction r generalizing s p t i with
  | nil =>
    have hthree : p.length = 3 := by
      rw [length_append, length_singleton] at hlen
      omega
    obtain ⟨hgrown, hentries⟩ := h.setLeaf hr hthree ht (mappedEntry physAddr flags)
    refine post_ok.mpr ⟨∅, le_rfl, ?_, by simp, fun q j hq hqlen => hentries q j hq hqlen.le,
      fun q j hq hqlen => .inl ?_, fun hnil => by simp [hnil] at hthree⟩
    · exact (TreeGrown.refl h _).trans hgrown False.elim
    · refine (hentries q j hq (by omega)).trans (if_neg fun hsame => ?_)
      have := congrArg length hsame
      simp only [length_append, length_singleton] at this
      omega
  | cons j r ih =>
    have hassoc : p ++ i :: j :: r = (p ++ [i]) ++ j :: r := by simp
    rw [hassoc] at hr hlen ⊢
    have htwo : p.length ≤ 2 := by
      simp only [length_append, length_cons, length_nil] at hlen
      omega
    apply ((h.nextTable_post (P.init hr) htwo ht flags).mono (fun _ he => he) ?_).bind
    · rintro ⟨v, u⟩ ⟨A, hA, hgrown, hentries, hothers, hv, hnew⟩
      have hcard := hgrown.acq.card_clearBits
      refine (ih hgrown.tree hr hlen hv).mono ?_ fun _ he => ⟨he.1, ?_⟩
      · rintro s' ⟨B, hB, hgrown', hhung, hleaves, hlinks, -⟩
        refine ⟨A ∪ B, ?_, hgrown.trans hgrown' fun hnil => absurd hnil.1 (by simp), ?_, ?_, ?_, ?_⟩
        · have := card_union_le A B
          rw [length_cons]
          omega
        · intro f hf
          obtain hf | hf := mem_union.mp hf
          · have hthree : (p ++ [i]).length ≤ 3 := by
              rw [length_append, length_singleton]
              omega
            refine ⟨p ++ [i], prefix_append _ _, hthree, ?_⟩
            rw [hgrown'.follow_eq (P.init hr) hthree hv, hnew f hf]
          · exact hhung f hf
        · intro q j' hq hqlen
          obtain heq | ⟨hsame, -⟩ := hentries q j' hq hqlen.le
          · rw [hleaves q j' hq hqlen, heq]
          · have := congrArg length hsame
            simp only [length_append, length_singleton] at this
            omega
        · intro q j' hq hqlen
          obtain heq' | hpresent := hlinks q j' hq hqlen
          · rw [heq']
            exact (hentries q j' hq (by omega)).imp_right And.right
          · exact .inr hpresent
        · rintro rfl j' hj' hne
          obtain rfl : k = t := some.inj ht
          have hroot := hgrown'.root_kept hgrown.tree (P.init hr) (by simp)
          rw [← readEntry_congr hroot hj', hothers j' hj' hne]
      · rw [length_cons]
        omega
    · rintro e ⟨rfl, hnone⟩
      exact ⟨rfl, by rw [hnone, length_cons]; omega⟩

theorem TableTree.congr (h : TableTree P s k) (haddr : s'.pmm.Addressable)
    (hkept : ∀ p t, P.Has p → p.length ≤ 3 → follow (child s.mem) k p = some t →
      FrameEq s.mem s'.mem t ∧ t ∈ s'.pmm.setBits) :
    TableTree P s' k ∧
    (∀ q, P.Has q → q.length ≤ 3 → follow (child s'.mem) k q = follow (child s.mem) k q) ∧
    ∀ q j, P.Has (q ++ [j]) → q.length ≤ 3 → entryAt s'.mem k q j = entryAt s.mem k q j := by
  have hfollow : ∀ q, P.Has q → q.length ≤ 3 →
      follow (child s'.mem) k q = follow (child s.mem) k q := by
    intro q hq hqlen
    induction q using reverseRecOn with
    | nil => rw [follow, follow]
    | append_singleton q j ih =>
      have hlen : q.length ≤ 3 := (length_concat_le hqlen).trans (by decide)
      rw [follow_concat, follow_concat, ih (P.init hq) hlen]
      cases hv : follow (child s.mem) k q with
      | none => rw [bind_none, bind_none]
      | some v =>
        have hentry := readEntry_congr (hkept q v (P.init hq) hlen hv).1 (last hq)
        exact child_congr hentry.symm
  refine ⟨h.of_follow haddr (fun q v hq hqlen hv => (hkept q v hq hqlen hv).2) hfollow, hfollow, ?_⟩
  refine fun q j hq hqlen => entryAt_congr (hfollow q (P.init hq) hqlen) fun v hv => ?_
  exact (readEntry_congr (hkept q v (P.init hq) hqlen hv).1 (last hq)).symm

theorem TableTree.elsewhere (h : TableTree P s k) (hacq : Acquired s A A s') :
    TreeGrown P k s A False s' ∧
    (∀ q, P.Has q → q.length ≤ 3 → follow (child s'.mem) k q = follow (child s.mem) k q) ∧
    ∀ q j, P.Has (q ++ [j]) → q.length ≤ 3 → entryAt s'.mem k q j = entryAt s.mem k q j := by
  have hframe : ∀ x ∈ s.pmm.setBits, FrameEq s.mem s'.mem x := fun x hx =>
    hacq.mem x (disjoint_left.mp hacq.fresh hx)
  obtain ⟨htree, hfollow, hentries⟩ := h.congr (hacq.addressable h.addressable)
    fun p t hp hlen ht => ⟨hframe t (h.used p t hp hlen ht), hacq.keeps (h.used p t hp hlen ht)⟩
  exact ⟨⟨htree, hacq.mono hacq.taken, fun q hq hqlen => .inl (hfollow q hq hqlen),
    fun x hx _ => hframe x hx⟩, hfollow, hentries⟩

end Tree

/-- `arch_mm_unmap` as a recursion over the indices of the address. -/
def unmapAlong (m : Mem) : List ℕ → ℕ → Except Fault Mem
  | [], _ => .ok m
  | [i], t => .ok (writeEntry m t i { readEntry m t i with present := false, addr := 0 })
  | i :: j :: p, t => uncheckedTable m t i >>= unmapAlong m (j :: p)

theorem archMmUnmap_of_unmapAlong {s : Machine} {pt virtAddr : ℕ} {m : Mem}
    (h : unmapAlong s.mem (pagePath virtAddr) pt = .ok m) :
    archMmUnmap s pt virtAddr = .ok { s with mem := m } := by
  obtain ⟨PDP, hPDP, h⟩ := bind_eq_ok.mp h
  obtain ⟨PD, hPD, h⟩ := bind_eq_ok.mp h
  obtain ⟨PT, hPT, h⟩ := bind_eq_ok.mp h
  obtain rfl := Except.ok.inj h
  unfold archMmUnmap
  dsimp only [mmIndexer] at hPDP hPD hPT ⊢
  rw [hPDP, ok_bind, hPD, ok_bind, hPT]
  rfl

theorem uncheckedTable_of_present {m : Mem} {t i : ℕ} (h : (readEntry m t i).present = true) :
    uncheckedTable m t i = .ok (readEntry m t i).frame := by
  simp [uncheckedTable, vacant, h]

theorem unmapAlong_of_follow {m : Mem} {k t i : ℕ} {p : List ℕ}
    (h : follow (child m) k p = some t) :
    unmapAlong m (p ++ [i]) k = .ok (writeEntry m t i (unmappedEntry (readEntry m t i))) := by
  induction p generalizing k with
  | nil =>
    obtain rfl : k = t := some.inj h
    rw [nil_append, unmapAlong, unmappedEntry]
  | cons j p ih =>
    obtain ⟨v, hv, hrest⟩ := bind_eq_some_iff.mp h
    have hstep : uncheckedTable m k j = .ok v := by
      rw [uncheckedTable_of_present (present_of_child hv), child_eq_some hv]
    rw [← ih hrest]
    cases p with
    | nil => simp only [nil_append, cons_append, unmapAlong, hstep, ok_bind]
    | cons a p => simp only [cons_append, unmapAlong, hstep, ok_bind]

/-- The indices of the three tables on the way to the page of `v`. -/
def tablePath (v : ℕ) : List ℕ := (pagePath v).take 3

theorem pagePath_eq (v : ℕ) : pagePath v = tablePath v ++ [v / 4096 % 512] := rfl

section Page
variable {P : IndexPaths} {s : Machine} {k t v : ℕ}

theorem TableTree.vmmMap_post (h : TableTree P s k) (hv : P.Has (pagePath v)) (physAddr : ℕ)
    (flags : BitVec 32) :
    Post (vmmMap s k physAddr v flags)
      (fun s' => ∃ A : Finset ℕ, A.card ≤ 3 ∧
        TreeGrown P k s A
          ((readEntry s.mem k (v / 4096 / 512 / 512 / 512 % 512)).present = false) s' ∧
        (∀ f ∈ A, ∃ q, q <+: tablePath v ∧ follow (child s'.mem) k q = some f) ∧
        (∀ q j, P.Has (q ++ [j]) → q.length = 3 → entryAt s'.mem k q j =
          if q ++ [j] = pagePath v then mappedEntry physAddr flags (entryAt s.mem k q j)
          else entryAt s.mem k q j) ∧
        (∀ q j, P.Has (q ++ [j]) → q.length ≤ 2 → entryAt s'.mem k q j = entryAt s.mem k q j ∨
          (entryAt s'.mem k q j).present = true ∧ (entryAt s'.mem k q j).readWrite = true) ∧
        ∀ j < 512, j ≠ v / 4096 / 512 / 512 / 512 % 512 →
          readEntry s'.mem k j = readEntry s.mem k j)
      (fun e => e = outOfMemory ∧ s.pmm.clearBits.card < 3) := by
  refine (h.mapAlong_post (p := []) hv rfl rfl physAddr flags).mono_ok ?_
  rintro s' ⟨A, hA, hgrown, hhung, hleaves, hlinks, hothers⟩
  have hroot := (TreeGrown.refl h _).trans hgrown And.right
  rw [empty_union] at hroot
  refine ⟨A, hA, hroot, fun f hf => ?_, hleaves, hlinks, hothers rfl⟩
  obtain ⟨q, hq, hlen, hfollow⟩ := hhung f hf
  exact ⟨q, prefix_take_iff.mpr ⟨hq, hlen⟩, hfollow⟩

theorem TableTree.vmmUnmap_entries (h : TableTree P s k) (hv : P.Has (pagePath v))
    (ht : follow (child s.mem) k (tablePath v) = some t) :
    ∃ m, vmmUnmap s k v = .ok { s with mem := m } ∧ TreeGrown P k s ∅ False { s with mem := m } ∧
      ∀ q j, P.Has (q ++ [j]) → q.length ≤ 3 → entryAt m k q j =
        if q ++ [j] = pagePath v then unmappedEntry (entryAt s.mem k q j)
        else entryAt s.mem k q j :=
  ⟨_, archMmUnmap_of_unmapAlong (unmapAlong_of_follow ht), h.setLeaf hv rfl ht unmappedEntry⟩

/-- `sys_munmap` gives a frame back before it erases the entry of the page. -/
theorem TableTree.freeUnmap {f : ℕ} (h : TableTree P s k) (hv : P.Has (pagePath v))
    (hf : f ∈ s.pmm.setBits)
    (hapart : ∀ p, P.Has p → p.length ≤ 3 → follow (child s.mem) k p ≠ some f)
    (ht : follow (child s.mem) k (tablePath v) = some t) :
    Post (do let s ← pmmFree s (f * 4096) 1
             vmmUnmap s k v)
      (fun s' => TableTree P s' k ∧ Released s {f} {f, t} s' ∧
        (∀ q, P.Has q → q.length ≤ 3 → follow (child s'.mem) k q = follow (child s.mem) k q) ∧
        ∀ q j, P.Has (q ++ [j]) → q.length ≤ 3 → entryAt s'.mem k q j =
          if q ++ [j] = pagePath v then unmappedEntry (entryAt s.mem k q j)
          else entryAt s.mem k q j)
      (fun _ => False) := by
  apply (pmmFree_one_post (Pmm.lt_pages_of_test (Pmm.mem_setBits.mp hf))).bind
  intro u hu
  -- the fill of the freed frame does not reach the tables
  have hkept : ∀ p x, P.Has p → p.length ≤ 3 → follow (child s.mem) k p = some x →
      FrameEq s.mem u.mem x ∧ x ∈ u.pmm.setBits := by
    intro p x hp hlen hx
    have hne : x ∉ ({f} : Finset ℕ) := by
      rw [Finset.mem_singleton]
      rintro rfl
      exact hapart p hp hlen hx
    rw [hu.setBits]
    exact ⟨hu.mem x hne, mem_sdiff.mpr ⟨h.used p x hp hlen hx, hne⟩⟩
  obtain ⟨htree, hfollow, hentries⟩ := h.congr (hu.addressable h.addressable) hkept
  have htu := (hfollow (tablePath v) (P.init hv) (Nat.le_refl 3)).trans ht
  obtain ⟨hgrown, hentries'⟩ := htree.setLeaf hv rfl htu unmappedEntry
  rw [vmmUnmap, archMmUnmap_of_unmapAlong (unmapAlong_of_follow htu)]
  refine post_ok.mpr ⟨hgrown.tree, (hu.mono (by simp)).write fun x hx => ?_, fun q hq hlen => ?_,
    fun q j hq hlen => ?_⟩
  · rw [mem_insert, Finset.mem_singleton, not_or] at hx
    exact (writeEntry_frameEq (Nat.mod_lt _ (by decide)) hx.2).symm
  · obtain heq | ⟨-, x, hx, -⟩ := hgrown.tables q hq hlen
    · exact heq.trans (hfollow q hq hlen)
    · exact absurd hx (notMem_empty x)
  · rw [hentries' q j hq hlen, hentries q j hq hlen, pagePath_eq]

end Page

/-- The address that `arch_mm_virt_to_phys` reads off an entry. -/
def PageTableEntry.phys (e : PageTableEntry) : ℕ := if e.vacant then 0 else e.frame * 4096 % 2 ^ 51

theorem PageTableEntry.empty_phys : PageTableEntry.empty.phys = 0 := if_pos empty_vacant

section Lookup
variable {m : Mem} {t : ℕ} {p : List ℕ}

theorem entryAt_cons (m : Mem) (t i : ℕ) (p : List ℕ) (j : ℕ) :
    entryAt m t (i :: p) j = if (readEntry m t i).present then
      entryAt m (readEntry m t i).frame p j else PageTableEntry.empty := by
  unfold entryAt
  rw [follow, child]
  split
  · rw [bind_some]
  · rw [bind_none, elim_none]

theorem entryAt_nil (m : Mem) (t j : ℕ) : entryAt m t [] j = readEntry m t j := rfl

theorem vacant_eq_not_present {e : PageTableEntry} (h : e.present = false → e.addr = 0) :
    e.vacant = !e.present := by
  cases hp : e.present with
  | false => simp [vacant, hp, h hp]
  | true => simp [vacant, hp]

/-- Where the lookups of `arch_mm_is_page_free` and `arch_mm_virt_to_phys` stop. -/
def foundEntry (m : Mem) : List ℕ → ℕ → PageTableEntry
  | [], _ => PageTableEntry.empty
  | [i], t => readEntry m t i
  | i :: j :: p, t =>
    if (readEntry m t i).vacant then PageTableEntry.empty
    else foundEntry m (j :: p) (readEntry m t i).frame

theorem archMmIsPageFree_eq_found (m : Mem) (pt v : ℕ) :
    archMmIsPageFree m pt v = (foundEntry m (pagePath v) pt).vacant := by
  simp only [archMmIsPageFree, mmIndexer, pagePath, foundEntry, apply_ite vacant, empty_vacant]
  rfl

theorem archMmVirtToPhys_eq_found (m : Mem) (pt v : ℕ) :
    archMmVirtToPhys m pt v = (foundEntry m (pagePath v) pt).phys := by
  simp only [archMmVirtToPhys, mmIndexer, pagePath, foundEntry, apply_ite PageTableEntry.phys,
    PageTableEntry.empty_phys]
  rfl

/-- Where absent entries hold no address, the lookups stop where the processor's walk does. -/
theorem foundEntry_eq_entryAt (i : ℕ) (hclean : ∀ q j r, p = q ++ j :: r →
      (entryAt m t q j).present = false → (entryAt m t q j).addr = 0) :
    foundEntry m (p ++ [i]) t = entryAt m t p i := by
  induction p generalizing t with
  | nil => rfl
  | cons j p ih =>
    have hhead := vacant_eq_not_present (hclean [] j p rfl)
    rw [entryAt_nil] at hhead
    have hfound : foundEntry m (j :: p ++ [i]) t = if (readEntry m t j).vacant then
        PageTableEntry.empty else foundEntry m (p ++ [i]) (readEntry m t j).frame := by
      cases p <;> rfl
    rw [hfound, entryAt_cons, hhead]
    cases hpresent : (readEntry m t j).present with
    | false => rfl
    | true =>
      refine ih fun q a r hq => ?_
      have hrest := hclean (j :: q) a r (by rw [hq, cons_append])
      rwa [entryAt_cons, if_pos hpresent] at hrest

theorem foundEntry_pagePath {P : IndexPaths} {pt v : ℕ} (hv : P.Has (pagePath v))
    (hclean : ∀ q j, P.Has (q ++ [j]) → q.length ≤ 2 →
      (entryAt m pt q j).present = false → (entryAt m pt q j).addr = 0) :
    foundEntry m (pagePath v) pt = entryAt m pt (tablePath v) (v / 4096 % 512) := by
  rw [pagePath_eq]
  refine foundEntry_eq_entryAt _ fun q j r hq => hclean q j ?_ ?_
  · rw [pagePath_eq, hq, append_assoc, ← singleton_append, append_assoc,
      ← append_assoc] at hv
    exact P.init hv
  · have hlength : 3 = q.length + (r.length + 1) := by
      simpa [tablePath, pagePath] using congrArg length hq
    omega

end Lookup

theorem translate_eq_follow (m : Mem) (t : ℕ) (p : List ℕ) :
    (translate m t p).map Prod.snd = follow (child m) t p := by
  induction p generalizing t with
  | nil => rfl
  | cons i p ih =>
    simp only [translate, follow]
    by_cases hpresent : (readEntry m t i).present = true
    · have hchild : child m t i = some (readEntry m t i).frame := if_pos hpresent
      rw [if_pos hpresent, hchild, bind_some, ← ih, Option.map_map]
      rfl
    · have hchild : child m t i = none := if_neg hpresent
      rw [if_neg hpresent, hchild]
      rfl

end GarnOS
