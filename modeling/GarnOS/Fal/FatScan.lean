import GarnOS.Fal.FatTable

/-! Whether the scans of a FAT directory return: `fat_lookup` and `fat_readdir` follow the table
without a bound. -/
namespace GarnOS
open Outcome

inductive FatType where
  | fat12 | fat16 | fat32
  deriving DecidableEq, Repr

/-- A directory. Only FAT32 has others than the root, whose first cluster `attach` leaves 0 on the
other types. -/
structure FatDir where
  type : FatType
  node : FatVnode
  isDir : node.type = .dir
  root : type ≠ .fat32 → node.firstCluster = 0

def fatLookupOn (type : FatType) (vol : FatVolume) (block : DirEntry → SfnBlock) (fuel : ℕ)
    (self : FatVnode) (lfn : Lfn) (name : List UInt8) : Except Fault (Except ℤ FatVnode × Lfn) :=
  if type = .fat32 then fatLookup vol block fuel self lfn name
  else if self.type ≠ .dir then .ok (.error ENOTDIR, lfn)
  else if 256 ≤ (self.filename ++ name).length then .error (.overrun 256)
  else if name = [] then .error (.overrun (2 ^ 32 - 1))
  else .ok (.error ENOENT, lfn)

/-- The loop of `fat_readdir` where nothing changes the cluster. -/
def fatReaddirStay (vol : FatVolume) (block : DirEntry → SfnBlock) (count offset cluster : ℕ) :
    ℕ → Readdir → Except Fault Readdir
  | 0, s => if cluster = 0 then .ok s else .error .diverges
  | fuel + 1, s =>
    if cluster = 0 then .ok s
    else match fatReaddirCluster vol block count offset cluster s with
      | .error (.returned s) => .ok s
      | .error (.fault f) => .error f
      | .ok s => fatReaddirStay vol block count offset cluster fuel s

def fatReaddirOn (type : FatType) (vol : FatVolume) (block : DirEntry → SfnBlock) (fuel : ℕ)
    (self : FatVnode) (lfn : Lfn) (count offset : ℕ) : Except Fault (ℤ × List Dirent × Lfn) :=
  if type = .fat32 then fatReaddir vol block fuel self lfn count offset
  else if self.type ≠ .dir then .ok (-ENOTDIR, [], lfn)
  else (fatReaddirStay vol block count offset self.firstCluster fuel
    ⟨lfn, false, none, 0, 0, 0, 0, []⟩).map fun s => (s.bytesReadFromOffset, s.buf, s.lfn)

/-- The loops of the call come to their end, without a fault. -/
def Returns {α : Type} (call : ℕ → Except Fault α) : Prop := ∃ fuel r, call fuel = .ok r

section Lookup
variable {vol : FatVolume} {block : DirEntry → SfnBlock} {lookFor : List UInt8} {c fuel : ℕ}
  {s : Search} {l : List ℕ}

def FatVolume.ChainEnds (vol : FatVolume) (c : ℕ) : Prop := ∃ l, vol.Clusters (vol.nextCluster c) l

def FatVolume.Lacks (vol : FatVolume) (block : DirEntry → SfnBlock) (lookFor : List UInt8) (c : ℕ)
    (s : Search) : Prop :=
  ∀ fuel r, fatLookupFrom vol block lookFor fuel c s = .ok r → r.2 = none

theorem clusters_zero : vol.Clusters 0 [] := rfl

theorem clusters_step (hc : c ≠ 0) (h : vol.Clusters (vol.nextCluster c) l) :
    vol.Clusters c (c :: l) := ⟨if_neg hc, h⟩

theorem FatVolume.ChainEnds.clusters (h : vol.ChainEnds c) : ∃ l, vol.Clusters c l := by
  by_cases hc : c = 0
  · exact ⟨[], hc ▸ clusters_zero⟩
  · obtain ⟨l, hl⟩ := h
    exact ⟨c :: l, clusters_step hc hl⟩

theorem FatVolume.ChainEnds.of_next (h : vol.ChainEnds (vol.nextCluster c)) : vol.ChainEnds c :=
  h.clusters

theorem fatLookupFrom_none {t : Search}
    (h : fatLookupSectors vol block lookFor s (vol.sectors c) = (t, none)) :
    fatLookupFrom vol block lookFor (fuel + 1) c s =
      if vol.nextCluster c = 0 then .ok (t, none)
      else fatLookupFrom vol block lookFor fuel (vol.nextCluster c) t := by
  rw [fatLookupFrom, h]

theorem fatLookupFrom_some {t : Search} {e : DirEntry}
    (h : fatLookupSectors vol block lookFor s (vol.sectors c) = (t, some e)) :
    fatLookupFrom vol block lookFor (fuel + 1) c s = .ok (t, some e) := by
  rw [fatLookupFrom, h]

theorem fatLookupFrom_returns (hl : vol.Clusters (vol.nextCluster c) l) :
    ∃ r, fatLookupFrom vol block lookFor (l.length + 1) c s = .ok r := by
  induction l generalizing c s with
  | nil =>
    have hlast := clusters_nil hl
    rcases hsectors : fatLookupSectors vol block lookFor s (vol.sectors c) with ⟨t, _ | e⟩
    · exact ⟨_, by rw [fatLookupFrom_none hsectors, if_pos hlast]⟩
    · exact ⟨_, fatLookupFrom_some hsectors⟩
  | cons d l ih =>
    obtain ⟨hnext, rfl, hrest⟩ := clusters_cons hl
    rcases hsectors : fatLookupSectors vol block lookFor s (vol.sectors c) with ⟨t, _ | e⟩
    · rw [List.length_cons, fatLookupFrom_none hsectors, if_neg hnext]
      exact ih hrest
    · exact ⟨_, fatLookupFrom_some hsectors⟩

theorem FatVolume.Lacks.sectors (h : vol.Lacks block lookFor c s) :
    ∃ t, fatLookupSectors vol block lookFor s (vol.sectors c) = (t, none) := by
  rcases hsectors : fatLookupSectors vol block lookFor s (vol.sectors c) with ⟨t, _ | e⟩
  · exact ⟨t, rfl⟩
  · exact absurd (h 1 _ (fatLookupFrom_some hsectors)) (by simp)

/-- Without an end the loop goes on for every fuel: the next cluster has no end either, and lacks
the name as well. -/
theorem fatLookupFrom_diverges (hends : ¬vol.ChainEnds c) (h : vol.Lacks block lookFor c s) :
    fatLookupFrom vol block lookFor fuel c s = .error .diverges := by
  induction fuel generalizing c s with
  | zero => rfl
  | succ fuel ih =>
    obtain ⟨t, hsectors⟩ := h.sectors
    have hnext : vol.nextCluster c ≠ 0 := fun hzero => hends ⟨[], hzero ▸ clusters_zero⟩
    rw [fatLookupFrom_none hsectors, if_neg hnext]
    refine ih (fun h => hends h.of_next) fun fuel' r hr => h (fuel' + 1) r ?_
    rw [fatLookupFrom_none hsectors, if_neg hnext, hr]

theorem fatLookup_returns_iff {self : FatVnode} {lfn : Lfn} {name : List UInt8}
    (hdir : self.type = .dir) (hname : name ≠ []) (hlength : (self.filename ++ name).length < 256)
    (h : vol.Lacks block (stripSlash name) self.firstCluster ⟨lfn, false, false⟩) :
    Returns (fun fuel => fatLookup vol block fuel self lfn name) ↔
      vol.ChainEnds self.firstCluster := by
  have hcall : ∀ fuel, fatLookup vol block fuel self lfn name =
      (fatLookupFrom vol block (stripSlash name) fuel self.firstCluster ⟨lfn, false, false⟩ >>= fun r =>
        r.2.elim (pure (.error ENOENT, r.1.lfn)) fun e => pure
          (.ok ⟨self.filename ++ name, if e.isDirectory then .dir else .reg, e.size, e.firstCluster⟩,
            r.1.lfn)) := by
    intro fuel
    rw [fatLookup, if_neg (by simp [hdir]), if_neg (by omega), if_neg hname]
    congr 1
    funext r
    obtain ⟨t, _ | e⟩ := r <;> rfl
  constructor
  · rintro ⟨fuel, r, hr⟩
    by_contra hends
    have hcalled := hcall fuel
    rw [fatLookupFrom_diverges hends h] at hcalled
    exact absurd (hcalled.symm.trans hr) nofun
  · rintro ⟨l, hl⟩
    obtain ⟨r, hr⟩ : ∃ r, fatLookupFrom vol block (stripSlash name) (l.length + 1)
        self.firstCluster ⟨lfn, false, false⟩ = .ok r := fatLookupFrom_returns hl
    refine ⟨l.length + 1, ?_⟩
    simp only [hcall, hr, ok_bind]
    cases r.2 with
    | none | some e => exact ⟨_, rfl⟩

end Lookup

section Readdir
variable {vol : FatVolume} {block : DirEntry → SfnBlock} {count offset c : ℕ} {s : Readdir}

/-- `fat_readdir` has a name for each short entry: after a long name was retrieved, no entry of
another one stands before the short one. -/
def namesReady : Lfn → Bool → Bool → List DirEntry → Bool
  | _, _, _, [] => true
  | lfn, parsed, str, e :: es =>
    if e 0 = 0 then namesReady lfn parsed str es
    else if e.attrib = FAT_ATTR_LFN then
      namesReady (fatParseLfn lfn e).2 (parsed || (fatParseLfn lfn e).1.isSome)
        (fatParseLfn lfn e).1.isSome es
    else (!parsed || str) && namesReady lfn false true es

def Readdir.ready (s : Readdir) (es : List DirEntry) : Bool :=
  namesReady s.lfn s.lfnParsedFirst s.str.isSome es

/-- The variables of the loop on which the next entry depends stay as they are. -/
structure Readdir.Keeps (s t : Readdir) : Prop where
  lfn : t.lfn = s.lfn
  parsed : t.lfnParsedFirst = s.lfnParsedFirst
  str : t.str = s.str
  offsets : s.direntOffset = s.trueOffset → t.direntOffset = t.trueOffset
  bytes : t.bytesRead ≤ s.bytesRead + 2 ^ 16

theorem fatReaddirRecord_cases (type : DirentType) (name : List UInt8) (s : Readdir) :
    (∃ t, fatReaddirRecord count offset c type name s = .ok t ∧ s.Keeps t) ∨
      (∃ t, fatReaddirRecord count offset c type name s = .error (.returned t)) ∧
        offset < s.bytesRead + 2 ^ 16 := by
  have hmod : (DIRENT_SIZE + name.length) % 2 ^ 16 < 2 ^ 16 := Nat.mod_lt _ (by decide)
  have hbytes : s.bytesRead + (DIRENT_SIZE + name.length) % 2 ^ 16 ≤ s.bytesRead + 2 ^ 16 := by omega
  unfold fatReaddirRecord
  dsimp only
  split
  · exact .inl ⟨_, rfl, rfl, rfl, rfl, id, hbytes⟩
  · split
    · exact .inr ⟨⟨_, rfl⟩, by omega⟩
    · refine .inl ⟨_, rfl, ?_⟩
      split <;> exact ⟨rfl, rfl, rfl, fun h => by simp [h], hbytes⟩

/-- An entry that is read leaves the names of the others as they were, and only an entry without a
name faults. -/
theorem readdirStep_cases (e : DirEntry) (es : List DirEntry) (h : s.direntOffset = s.trueOffset) :
    (∃ t, readdirStep block count offset s (c, e) = .ok t ∧ t.direntOffset = t.trueOffset ∧
      t.bytesRead ≤ s.bytesRead + 2 ^ 16 ∧ t.ready es = s.ready (e :: es)) ∨
    (∃ t, readdirStep block count offset s (c, e) = .error (.returned t)) ∧
      offset < s.bytesRead + 2 ^ 16 ∨
    readdirStep block count offset s (c, e) = .error (.fault (.pageFault 0)) ∧
      s.ready (e :: es) = false := by
  rw [readdirStep, fatReaddirEntry, if_neg (by omega), Readdir.ready.eq_1 s, namesReady]
  split
  · exact .inl ⟨s, rfl, h, by omega, rfl⟩
  split
  · exact .inl ⟨_, rfl, congrArg (· + 32) h, by dsimp only; omega, rfl⟩
  have hname : (if s.lfnParsedFirst then s.str else some (fatParseSfn (block e) e)).isSome =
      (!s.lfnParsedFirst || s.str.isSome) := by
    cases s.lfnParsedFirst <;> rfl
  rw [← hname]
  dsimp only
  cases (if s.lfnParsedFirst then s.str else some (fatParseSfn (block e) e)) with
  | none => exact .inr (.inr ⟨rfl, rfl⟩)
  | some name =>
    rcases fatReaddirRecord_cases e.type name { s with lfnParsedFirst := false, str := some name } with
      ⟨t, ht, hkeeps⟩ | hreturned
    · refine .inl ⟨t, ht, hkeeps.offsets h, hkeeps.bytes, ?_⟩
      rw [Readdir.ready, hkeeps.lfn, hkeeps.parsed, hkeeps.str]
      rfl
    · exact .inr (.inl hreturned)

section
variable (es : List (ℕ × DirEntry)) (hoffsets : s.direntOffset = s.trueOffset)
include es hoffsets

theorem foldlM_returns (hready : s.ready (es.map Prod.snd) = true) :
    ∃ t, readdirEnd (es.foldlM (readdirStep block count offset) s) = .ok t := by
  induction es generalizing s with
  | nil => exact ⟨s, rfl⟩
  | cons x es ih =>
    rw [List.foldlM_cons]
    rcases readdirStep_cases x.2 (es.map Prod.snd) hoffsets with
      ⟨t, ht, hoffsets', -, hnext⟩ | ⟨⟨t, ht⟩, -⟩ | ⟨-, hfalse⟩
    · rw [ht]
      exact ih hoffsets' (hnext.trans hready)
    · exact ⟨t, by rw [ht]; rfl⟩
    · exact absurd (hready.symm.trans hfalse) (by decide)

theorem foldlM_faults (hoffset : s.bytesRead + 2 ^ 16 * es.length ≤ offset)
    (hready : s.ready (es.map Prod.snd) = false) :
    readdirEnd (es.foldlM (readdirStep block count offset) s) = .error (.pageFault 0) := by
  induction es generalizing s with
  | nil => cases hready
  | cons x es ih =>
    rw [List.length_cons] at hoffset
    rw [List.foldlM_cons]
    rcases readdirStep_cases x.2 (es.map Prod.snd) hoffsets with
      ⟨t, ht, hoffsets', hbytes, hnext⟩ | ⟨-, hlt⟩ | ⟨hfault, -⟩
    · rw [ht]
      exact ih hoffsets' (by omega) (hnext.trans hready)
    · omega
    · rw [hfault]
      rfl

end

theorem fatReaddir_dir {self : FatVnode} (lfn : Lfn) (hdir : self.type = .dir) (fuel : ℕ) :
    fatReaddir vol block fuel self lfn count offset =
      (fatReaddirFrom vol block count offset fuel self.firstCluster
        ⟨lfn, false, none, 0, 0, 0, 0, []⟩).map fun s => (↑s.bytesReadFromOffset, s.buf, s.lfn) := by
  rw [fatReaddir, if_neg (by simp [hdir])]
  rfl

/-- On a chain with an end every call returns exactly if each short entry has a name. -/
theorem fatReaddir_returns_iff {self : FatVnode} {lfn : Lfn} {l : List ℕ} (hdir : self.type = .dir)
    (hl : vol.Clusters self.firstCluster l) :
    (∀ count offset, Returns fun fuel => fatReaddir vol block fuel self lfn count offset) ↔
      namesReady lfn false false ((vol.scan l).map Prod.snd) = true := by
  constructor
  · intro h
    by_contra hready
    obtain ⟨fuel, r, hr⟩ := h 0 (2 ^ 16 * (vol.scan l).length)
    dsimp only at hr
    rw [fatReaddir_dir lfn hdir] at hr
    have hfault : readdirEnd ((vol.scan l).foldlM
        (readdirStep block 0 (2 ^ 16 * (vol.scan l).length)) ⟨lfn, false, none, 0, 0, 0, 0, []⟩) =
        .error (.pageFault 0) :=
      foldlM_faults _ rfl (by dsimp only; omega) (Bool.eq_false_of_not_eq_true hready)
    obtain heq | ⟨hdiverges, -⟩ := fatReaddirFrom_cases hl
    · rw [heq, hfault] at hr
      cases hr
    · rw [hdiverges] at hr
      cases hr
  · intro hready count offset
    obtain ⟨t, ht⟩ : ∃ t, readdirEnd ((vol.scan l).foldlM (readdirStep block count offset)
        ⟨lfn, false, none, 0, 0, 0, 0, []⟩) = .ok t := foldlM_returns _ rfl hready
    refine ⟨l.length, (↑t.bytesReadFromOffset, t.buf, t.lfn), ?_⟩
    dsimp only
    rw [fatReaddir_dir lfn hdir, fatReaddirFrom_eq hl le_rfl, ht]
    rfl

end Readdir

section Scans
variable {vol : FatVolume} {block : DirEntry → SfnBlock} {dir : FatDir} {lfn lfn' : Lfn}
  {name : List UInt8}

theorem FatDir.readdir_other (htype : dir.type ≠ .fat32) (fuel count offset : ℕ) :
    fatReaddirOn dir.type vol block fuel dir.node lfn count offset = .ok (0, [], lfn) := by
  rw [fatReaddirOn, if_neg htype, if_neg (by simp [dir.isDir]), dir.root htype]
  cases fuel <;> rfl

/-- The buffers of `fat_lookup` hold the path and the name, and the name has a last character. -/
def FatDir.Fits (dir : FatDir) (name : List UInt8) : Prop :=
  (dir.node.filename ++ name).length < 256 ∧ name ≠ []

theorem FatDir.lookup_other (htype : dir.type ≠ .fat32) (hfits : dir.Fits name) (fuel : ℕ) :
    fatLookupOn dir.type vol block fuel dir.node lfn name = .ok (.error ENOENT, lfn) := by
  rw [fatLookupOn, if_neg htype, if_neg (by simp [dir.isDir]), if_neg (by simpa using hfits.1),
    if_neg hfits.2]

theorem FatDir.fits_of_returns {fuel : ℕ} {r : Except ℤ FatVnode × Lfn}
    (h : fatLookupOn dir.type vol block fuel dir.node lfn name = .ok r) : dir.Fits name := by
  have hdir : ¬dir.node.type ≠ .dir := by simp [dir.isDir]
  by_contra hfits
  rw [fatLookupOn, fatLookup, if_neg hdir, if_neg hdir] at h
  by_cases hlength : 256 ≤ (dir.node.filename ++ name).length
  · rw [if_pos hlength, if_pos hlength] at h
    split at h <;> cases h
  · have hname : name = [] := by
      by_contra hne
      exact hfits ⟨by omega, hne⟩
    rw [if_neg hlength, if_neg hlength, if_pos hname, if_pos hname] at h
    split at h <;> cases h

/-- Both scans of a directory return exactly if the name fits, the directory's chain has an end, and
no long name is replaced by a part of another one before its short entry. -/
theorem fat_scans_end_iff (habsent : dir.type = .fat32 →
      vol.Lacks block (stripSlash name) dir.node.firstCluster ⟨lfn, false, false⟩) :
    (Returns (fun fuel => fatLookupOn dir.type vol block fuel dir.node lfn name) ∧
        ∀ count offset,
          Returns fun fuel => fatReaddirOn dir.type vol block fuel dir.node lfn' count offset) ↔
      dir.Fits name ∧ (dir.type = .fat32 → vol.ChainEnds dir.node.firstCluster ∧
        ∀ l, vol.Clusters dir.node.firstCluster l →
          namesReady lfn' false false ((vol.scan l).map Prod.snd) = true) := by
  by_cases hfits : dir.Fits name
  swap
  · refine iff_of_false (fun h => ?_) fun h => hfits h.1
    obtain ⟨fuel, r, hr⟩ := h.1
    exact hfits (FatDir.fits_of_returns hr)
  rw [and_iff_right hfits]
  by_cases htype : dir.type = .fat32
  · have hlookup := fatLookup_returns_iff dir.isDir hfits.2 hfits.1 (habsent htype)
    simp only [fatLookupOn, fatReaddirOn, htype, if_true, forall_const, hlookup]
    refine and_congr_right fun hends => ?_
    obtain ⟨l, hl⟩ := hends.clusters
    rw [fatReaddir_returns_iff dir.isDir hl]
    refine ⟨fun hready l' hl' => ?_, fun h => h l hl⟩
    rw [Chain.Visits.unique hl' hl]
    exact hready
  · refine iff_of_true ⟨⟨0, _, dir.lookup_other htype hfits 0⟩, fun count offset => ?_⟩
      fun h => absurd h htype
    exact ⟨0, _, dir.readdir_other htype 0 count offset⟩

end Scans

/-- A volume with empty directories, whose table has the same entry for each cluster. -/
def blankDisk (next : UInt8) : FatDisk where
  startLBA := 0
  firstFATSector := 32
  firstDataSector := 1000
  sectorsPerCluster := 1
  block := fun sector => some fun i => if sector < 1000 ∧ i.val % 4 = 0 then next else 0

def blankRoot : FatDir := ⟨.fat32, ⟨[0x2F], .dir, 0, 2⟩, rfl, fun h => absurd rfl h⟩

theorem blankDisk_directories (next : UInt8) :
    (blankDisk next).volume.directories 1000 = List.replicate 16 fun _ => 0 := by
  have hblank : FatDisk.dirEntry (fun _ => 0) = fun _ _ => 0 := rfl
  simp [FatDisk.volume, blankDisk, hblank]

variable {next : UInt8} {block : DirEntry → SfnBlock} {lookFor : List UInt8}

theorem blankDisk_sectors (s : Search) : fatLookupSectors (blankDisk next).volume block lookFor s
      ((blankDisk next).volume.sectors 2) = (s, none) := by
  have hsectors : (blankDisk next).volume.sectors 2 = [1000] := by
    simp [FatVolume.sectors, FatDisk.volume, blankDisk]
  rw [hsectors, fatLookupSectors, blankDisk_directories]
  rfl

theorem blankDisk_cycle : (blankDisk 2).volume.nextCluster 2 = 2 := by decide

theorem blankDisk_end : (blankDisk 0).volume.nextCluster 2 = 0 := by decide

theorem blankDisk_noEnd : ¬(blankDisk 2).volume.ChainEnds 2 := by
  rintro ⟨l, hl⟩
  rw [blankDisk_cycle] at hl
  cases l with
  | nil => exact absurd (clusters_nil hl) (by decide)
  | cons c l =>
    have hlonger : (blankDisk 2).volume.Clusters 2 (2 :: c :: l) :=
      clusters_step (by decide) (blankDisk_cycle ▸ hl)
    exact absurd (congrArg List.length (Chain.Visits.unique hl hlonger)) (by simp)

theorem blankDisk_lacks
    (hnext : (blankDisk next).volume.nextCluster 2 = 0 ∨ (blankDisk next).volume.nextCluster 2 = 2)
    (s : Search) : (blankDisk next).volume.Lacks block lookFor 2 s := by
  intro fuel r hr
  induction fuel with
  | zero => cases hr
  | succ fuel ih =>
    rw [fatLookupFrom_none (blankDisk_sectors s)] at hr
    rcases hnext with hnext | hnext
    · rw [if_pos hnext] at hr
      cases hr
      rfl
    · rw [if_neg (by omega), hnext] at hr
      exact ih hr

/-- A directory whose chain has an end. -/
theorem fat_scans_end_blank :
    Returns (fun fuel => fatLookupOn .fat32 (blankDisk 0).volume (fun _ => ⟨0, fun _ => 0⟩) fuel
        blankRoot.node ⟨0, true, fun _ => 0⟩ [0x61]) ∧
      ∀ count offset, Returns fun fuel => fatReaddirOn .fat32 (blankDisk 0).volume
        (fun _ => ⟨0, fun _ => 0⟩) fuel blankRoot.node ⟨0, true, fun _ => 0⟩ count offset := by
  have habsent : blankRoot.type = .fat32 → (blankDisk 0).volume.Lacks (fun _ => ⟨0, fun _ => 0⟩)
      (stripSlash [0x61]) blankRoot.node.firstCluster ⟨⟨0, true, fun _ => 0⟩, false, false⟩ :=
    fun _ => blankDisk_lacks (.inl blankDisk_end) _
  have hends : (blankDisk 0).volume.Clusters 2 [2] :=
    clusters_step (by decide) (blankDisk_end ▸ clusters_zero)
  refine (fat_scans_end_iff habsent).mpr
    ⟨⟨by decide, by decide⟩, fun _ => ⟨⟨[], blankDisk_end ▸ clusters_zero⟩, fun l hl => ?_⟩⟩
  rw [Chain.Visits.unique hl hends]
  decide

/-- A directory whose only cluster is its own next one: the name is not there, and the lookup does
not return. -/
theorem fat_scans_end_cycle :
    (blankDisk 2).volume.Lacks (fun _ => ⟨0, fun _ => 0⟩) (stripSlash [0x61])
        blankRoot.node.firstCluster ⟨⟨0, true, fun _ => 0⟩, false, false⟩ ∧
      ¬Returns fun fuel => fatLookupOn .fat32 (blankDisk 2).volume (fun _ => ⟨0, fun _ => 0⟩) fuel
        blankRoot.node ⟨0, true, fun _ => 0⟩ [0x61] := by
  have habsent : (blankDisk 2).volume.Lacks (fun _ => ⟨0, fun _ => 0⟩) (stripSlash [0x61])
      blankRoot.node.firstCluster ⟨⟨0, true, fun _ => 0⟩, false, false⟩ :=
    blankDisk_lacks (.inr blankDisk_cycle) _
  refine ⟨habsent, fun h => blankDisk_noEnd ?_⟩
  exact (fatLookup_returns_iff blankRoot.isDir (by decide) (by decide) habsent).mp h

end GarnOS
