import GarnOS.Paging.Syscalls

/-! Kernel reads and writes through virtual addresses, with a given table in CR3. -/
namespace GarnOS
open ByteMemory Outcome Finset RadixTree PageTableEntry Walks

/-- The processor refuses addresses whose bits 47 to 63 differ. -/
def canonical (v : ℕ) : Bool := v < 2 ^ 47 || 2 ^ 64 - 2 ^ 47 ≤ v

def loadByte (s : Machine) (pt v : ℕ) : Except Fault (BitVec 8) :=
  match translate s.mem pt (pagePath v) with
  | some (_, f) => if canonical v then .ok (s.mem (f * 4096 + v % 4096)) else .error (.pageFault v)
  | none => .error (.pageFault v)

/-- Writes of the kernel respect the read-only bits of all four levels (CR0.WP is set). -/
def storeByte (s : Machine) (pt v : ℕ) (b : BitVec 8) : Except Fault Machine :=
  match translate s.mem pt (pagePath v) with
  | some (flags, f) =>
    if canonical v && flags.all (·.readWrite) then
      .ok { s with mem := Function.update s.mem (f * 4096 + v % 4096) b }
    else .error (.pageFault v)
  | none => .error (.pageFault v)

def loadWord (s : Machine) (pt v : ℕ) : Except Fault (BitVec 64) :=
  forRange (fun k w => do
    let b ← loadByte s pt ((v + k) % 2 ^ 64)
    return w ||| b.setWidth 64 <<< (8 * k)) 0 8 0

/-- A loop of byte stores; the value stored may be read from memory on the way. -/
def storeBytes (pt v n : ℕ) (bytes : Mem → ℕ → BitVec 8) (s : Machine) : Except Fault Machine :=
  forRange (fun k s => storeByte s pt ((v + k) % 2 ^ 64) (bytes s.mem k)) 0 n s

def storeWord (s : Machine) (pt v : ℕ) (w : BitVec 64) : Except Fault Machine :=
  storeBytes pt v 8 (fun _ k => w.extractLsb' (8 * k) 8) s

section Walk
variable {m m' : Mem} {n t v f : ℕ} {p : List ℕ} {fl : List PageTableEntry}

theorem walk_of_translate (hv : v < VMM_USER_END)
    (h : translate m t (pagePath v) = some (fl, f)) :
    walk slots (heldLinks m) 4 t (pagePath v) = some f := by
  have hfollow := translate_eq_follow m t (pagePath v)
  rw [h, Option.map_some, pagePath_eq, follow_eq_entryAt] at hfollow
  rw [walk_pagePath hv, heldFrame]
  split at hfollow
  · rename_i hpresent
    rw [hfollow, vacant, hpresent]
    rfl
  · cases hfollow

theorem translate_congr (hp : ValidPath n p)
    (h : ∀ u ∈ tables slots (heldLinks m) n t, FrameEq m m' u) :
    translate m' t p = translate m t p := by
  induction n generalizing t p with
  | zero =>
    obtain rfl : p = [] := hp
    rfl
  | succ n ih =>
    cases p with
    | nil => exact hp.elim
    | cons i p =>
      obtain ⟨hi, hp⟩ := hp
      have hentry := readEntry_congr (h t (self_mem_tables _ n t)) (hi.trans_le (slots_le _))
      simp only [translate, ← hentry]
      cases hpres : (readEntry m t i).present with
      | false => simp only [Bool.false_eq_true, ↓reduceIte]
      | true =>
        rw [ih hp fun u hu => h u (mem_tables_of_child hi (heldLinks_of_present n hpres) hu)]

end Walk

section Store
variable {s : Machine} {pt v f : ℕ} {b : BitVec 8}

theorem update_frameEq (m : Mem) {x k : ℕ} (b : BitVec 8) (hk : k < 4096) (h : x ≠ f) :
    FrameEq m (Function.update m (f * 4096 + k) b) x := by
  intro y h1 h2
  have hne : y ≠ f * 4096 + k := by omega
  exact (Function.update_of_ne hne _ _).symm

/-- Only pages of the space were written, none of its tables. -/
structure PagesWritten (s : Machine) (pt : ℕ) (s' : Machine) : Prop where
  confined : Confined s pt ∅ s'
  tables : ∀ u ∈ tables slots (heldLinks s.mem) 4 pt, FrameEq s.mem s'.mem u
  pmm : s'.pmm = s.pmm

theorem PagesWritten.refl (h : SpaceReady s pt) : PagesWritten s pt s :=
  ⟨Confined.refl h, fun u _ => FrameEq.refl _ u, rfl⟩

variable {s' : Machine} {n : ℕ}

theorem PagesWritten.trans {u : Machine} (h : PagesWritten s pt u) (h' : PagesWritten u pt s') :
    PagesWritten s pt s' := by
  have htables := tables_congr (agree_of_frameEq h.tables)
  constructor
  · have hconfined := h.confined.trans h'.confined
    rwa [union_empty] at hconfined
  · intro x hx
    exact (h.tables x hx).trans (h'.tables x (htables ▸ hx))
  · exact h'.pmm.trans h.pmm

theorem PagesWritten.root (h : PagesWritten s pt s') {j : ℕ} (hj : j < 512) :
    readEntry s'.mem pt j = readEntry s.mem pt j :=
  (readEntry_congr (h.tables pt (self_mem_tables _ 3 pt)) hj).symm

theorem SpaceReady.write_page (h : SpaceReady s pt) {m : Mem} (hf : f ∈ heldFrames s.mem pt)
    (hleaf : f ∉ tables slots (heldLinks s.mem) 4 pt) (hm : ∀ x, x ≠ f → FrameEq s.mem m x) :
    PagesWritten s pt { s with mem := m } := by
  have htables : ∀ u ∈ tables slots (heldLinks s.mem) 4 pt, FrameEq s.mem m u := by
    intro u hu
    apply hm
    rintro rfl
    exact hleaf hu
  have hfoot : heldFrames m pt = heldFrames s.mem pt := footprint_congr (agree_of_frameEq htables)
  refine ⟨⟨⟨rfl, disjoint_empty_right _, sdiff_subset, fun x hx => ?_⟩, ?_, ?_, ?_⟩, htables, rfl⟩
  · apply hm
    rintro rfl
    exact hx (mem_union_left _ hf)
  · intro j _ hj
    exact (readEntry_congr (htables pt (self_mem_tables _ 3 pt)) hj).symm
  · exact ⟨h.addressable, h.sound.congr htables, hfoot.subset.trans h.used⟩
  · exact hfoot.subset.trans subset_union_left

theorem canonical_of_user (hv : v < VMM_USER_END) : canonical v = true := by
  unfold VMM_USER_END at hv
  simp only [canonical, Bool.or_eq_true, decide_eq_true_eq]
  omega

theorem storeByte_post (h : SpaceReady s pt) (hv : v < VMM_USER_END) (b : BitVec 8) :
    Post (storeByte s pt v b)
      (fun s' => PagesWritten s pt s' ∧ ∃ r, translate s.mem pt (pagePath v) = some r)
      (fun e => e = .pageFault v ∧ ¬Writable s.mem pt (pagePath v)) := by
  unfold storeByte
  cases htr : translate s.mem pt (pagePath v) with
  | none =>
    refine post_error.mpr ⟨rfl, ?_⟩
    rintro ⟨r, hr, -⟩
    cases htr.symm.trans hr
  | some r =>
    obtain ⟨flags, f⟩ := r
    dsimp only
    split
    · have hw := walk_of_translate hv htr
      have hleaf := h.sound.distinct.walk_not_mem_tables hw (length_pagePath v)
      refine post_ok.mpr ⟨h.write_page (walk_mem_footprint hw) hleaf fun x hx => ?_, _, rfl⟩
      exact update_frameEq s.mem b (Nat.mod_lt _ (by decide)) hx
    · rename_i hdenied
      refine post_error.mpr ⟨rfl, ?_⟩
      rintro ⟨r, hr, hall⟩
      cases hr.symm.trans htr
      rw [canonical_of_user hv, hall] at hdenied
      exact hdenied rfl

theorem PagesWritten.translate_eq {u : Machine} (hu : PagesWritten s pt u) (hv : v < VMM_USER_END) :
    translate u.mem pt (pagePath v) = translate s.mem pt (pagePath v) :=
  translate_congr (validPath_pagePath hv) hu.tables

/-- A loop of stores below `VMM_USER_END`. If it stores anything, the first page was mapped; it stops
only where the page could not be written. -/
theorem storeBytes_post (h : SpaceReady s pt) (hv : v + n ≤ VMM_USER_END)
    (bytes : Mem → ℕ → BitVec 8) : Post (storeBytes pt v n bytes s)
      (fun s' => PagesWritten s pt s' ∧ (0 < n → ∃ r, translate s.mem pt (pagePath v) = some r))
      (fun e => ∃ k < n, e = .pageFault (v + k) ∧ ¬Writable s.mem pt (pagePath (v + k))) := by
  have hmapped : ∀ k u, k < n → PagesWritten s pt u → Post
      (storeByte u pt ((v + k) % 2 ^ 64) (bytes u.mem k))
      (fun s' => PagesWritten s pt s' ∧ ∃ r, translate s.mem pt (pagePath (v + k)) = some r)
      (fun e => ∃ k < n, e = .pageFault (v + k) ∧ ¬Writable s.mem pt (pagePath (v + k))) := by
    intro k u hk hu
    have hlt : v + k < VMM_USER_END := by omega
    have hmod : (v + k) % 2 ^ 64 = v + k := Nat.mod_eq_of_lt (hlt.trans (by decide))
    rw [hmod, ← hu.translate_eq hlt]
    apply (storeByte_post hu.confined.ready hlt _).mono
    · exact fun s' hs' => ⟨hu.trans hs'.1, hs'.2⟩
    · rintro e ⟨he, hdenied⟩
      unfold Writable at hdenied
      rw [hu.translate_eq hlt] at hdenied
      exact ⟨k, hk, he, hdenied⟩
  cases n with
  | zero => exact post_ok.mpr ⟨PagesWritten.refl h, fun h0 => absurd h0 (lt_irrefl 0)⟩
  | succ n =>
    unfold storeBytes
    rw [forRange_succ]
    apply (hmapped 0 s (Nat.succ_pos n) (PagesWritten.refl h)).bind
    intro w ⟨hw, hfirst⟩
    apply (forRange_post (fun _ u => PagesWritten s pt u) hw ?_).mono_ok
    · exact fun s' hs' => ⟨hs', fun _ => hfirst⟩
    · intro k u _ hk hu
      exact (hmapped k u (by omega) hu).mono_ok fun _ hs' => hs'.1

end Store

end GarnOS
