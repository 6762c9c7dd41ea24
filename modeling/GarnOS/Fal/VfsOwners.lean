import GarnOS.Fal.Vfs

/-! Which file system a vnode comes from, and whether the search by fid can confuse two of them. -/
namespace GarnOS
open Function Outcome Relation List Objects

/-- `kmalloc` never puts a `vfs_t` where there was one. -/
def VfsAlloc.Fresh (m : VfsAlloc) : Prop := ∀ l : Objects VfsLinks, l.get (m.alloc l) = none

/-- The vnode is the root of the file system, or the driver of that has found its file. -/
def Vfs.Owns (x : Vfs) (a : ℕ) (v : Vnode) : Prop :=
  x.rootVnode = a ∨ ∃ dir name, x.find dir name = .found v.entry

def Fal.Owned (s : Fal) (a : ℕ) (v : Vnode) : Prop := ∃ x, s.vfss v.vfs = some x ∧ x.Owns a v

/-- Every vnode is one of the file system it names, and an id from the counter is given to one file
system only, mounted or not. -/
structure Mounts.Unmixed (s : Mounts) : Prop where
  owned : ∀ a v, s.fal.mem.get a = some v → s.fal.Owned a v
  known : ∀ f x, s.fal.vfss f = some x → s.links.get f ≠ none
  ids : ∀ f n, s.fid f = some n → n ≠ 0 → n < s.nextFid ∧ ∀ g, s.fid g = some n → g = f

section Unmixed
variable {k : Kmalloc} {m : VfsAlloc} {s t : Mounts} {f : ℕ} {l : List ℕ}
  {find : List Char → List Char → Found} {root : Entry} {system : Bool} {mnt : List Char} {r : ℤ}

theorem Mounts.Unmixed.relink (h : s.Unmixed) (hvfss : t.fal.vfss = s.fal.vfss)
    (hvnodes : ∀ a v, t.fal.mem.get a = some v →
      (∃ w, s.fal.mem.get a = some w ∧ w.vfs = v.vfs ∧ w.entry = v.entry) ∨
        s.fal.Holds v.vfs v.entry)
    (hlinks : ∀ g, s.links.get g ≠ none → t.links.get g ≠ none) (hnext : t.nextFid = s.nextFid) :
    t.Unmixed := by
  have hfid : t.fid = s.fid := by
    funext g
    rw [Mounts.fid, hvfss, Mounts.fid]
  refine ⟨fun a v hv => ?_, fun f x hx => hlinks f (h.known f x (hvfss ▸ hx)), ?_⟩
  · unfold Fal.Owned
    rw [hvfss]
    obtain ⟨w, hw, hvfs, hentry⟩ | ⟨x, dir, name, hx, hfind⟩ := hvnodes a v hv
    · obtain ⟨x, hx, howns⟩ := h.owned a w hw
      unfold Vfs.Owns at howns
      rw [hentry] at howns
      exact ⟨x, hvfs ▸ hx, howns⟩
    · exact ⟨x, hx, .inr ⟨dir, name, hfind⟩⟩
  · rw [hfid, hnext]
    exact h.ids

theorem Mounts.Unmixed.setFid {n q : ℕ} (h : s.Unmixed) (hq : s.nextFid ≤ q)
    (hn : n ≠ 0 → s.nextFid ≤ n ∧ n < q) : ({ s.setFid f n with nextFid := q } : Mounts).Unmixed := by
  refine ⟨fun a v hv => ?_, fun g x hx => ?_, fun g i hi hzero => ?_⟩
  · obtain ⟨x, hx, howns⟩ := h.owned a v hv
    refine ⟨_, setFid_vfss.trans (congrArg (Option.map _) hx), ?_⟩
    split <;> exact howns
  · obtain ⟨y, hy, -⟩ := Option.map_eq_some_iff.mp (setFid_vfss.symm.trans hx)
    exact h.known g y hy
  · have hfid : ∀ {g i}, (s.setFid f n).fid g = some i →
        g = f ∧ i = n ∨ g ≠ f ∧ s.fid g = some i := by
      intro g i hi
      obtain ⟨j, hj, hif⟩ := Option.map_eq_some_iff.mp (setFid_fid.symm.trans hi)
      split at hif
      next hg => exact .inl ⟨hg, hif.symm⟩
      next hg => exact .inr ⟨hg, hif ▸ hj⟩
    obtain ⟨rfl, rfl⟩ | ⟨hg, hi⟩ := hfid hi
    · refine ⟨(hn hzero).2, fun g' hi' => ?_⟩
      obtain ⟨rfl, -⟩ | ⟨-, hi'⟩ := hfid hi'
      · rfl
      · exact absurd (h.ids g' i hi' hzero).1 (hn hzero).1.not_gt
    · obtain ⟨hlt, huniq⟩ := h.ids g i hi hzero
      refine ⟨hlt.trans_le hq, fun g' hi' => ?_⟩
      obtain ⟨-, rfl⟩ | ⟨-, hi'⟩ := hfid hi'
      · exact absurd hlt (hn hzero).1.not_gt
      · exact huniq g' hi'

end Unmixed

section Search
variable {k : Kmalloc} {m : VfsAlloc} {s₀ s : Mounts}

end Search

end GarnOS
