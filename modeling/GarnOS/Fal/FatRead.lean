import GarnOS.Fal.FatReaddir

/-! `fat_read` on a FAT32 volume with sectors of 512 bytes: what it returns, and what it writes to
the buffer. Only the loop over the bytes of a sector ends early. -/
namespace GarnOS
open Outcome List Nat

abbrev Sectors := ℕ → Fin 512 → UInt8

/-- The variables of `fat_read`, and the bytes that it has written to `buf`. -/
structure FatRead where
  currentPosition : ℕ
  offset : ℕ
  bytesRead : ℕ
  buf : ℕ → Option UInt8

def FatRead.skip (s : FatRead) : FatRead := { s with currentPosition := s.currentPosition + 1 }

def FatRead.store (s : FatRead) (c : UInt8) : FatRead where
  currentPosition := s.currentPosition + 1
  offset := s.offset + 1
  bytesRead := s.bytesRead + 1
  buf := Function.update s.buf s.bytesRead (some c)

def fatReadSector (fileSize size : ℕ) : List UInt8 → FatRead → FatRead
  | [], s => s
  | c :: cs, s =>
    if s.currentPosition < s.offset then fatReadSector fileSize size cs s.skip
    else
      let s := s.store c
      if fileSize ≤ s.bytesRead ∨ size < s.bytesRead then s else fatReadSector fileSize size cs s

/-- The loop over sectors, which goes on when the one over their bytes has ended early. -/
def fatReadSectors (drive : Sectors) (fileSize size : ℕ) (sectors : List ℕ) (s : FatRead) :
    FatRead :=
  sectors.foldl (fun s sector => fatReadSector fileSize size (List.ofFn (drive sector)) s) s

def fatReadFrom (vol : FatVolume) (drive : Sectors) (fileSize size : ℕ) :
    ℕ → ℕ → FatRead → Except Fault FatRead
  | 0, _, _ => .error .diverges
  | fuel + 1, cluster, s =>
    if s.bytesRead < size ∧ cluster ≠ 0 ∧ s.bytesRead ≠ fileSize then
      fatReadFrom vol drive fileSize size fuel (vol.nextCluster cluster)
        (fatReadSectors drive fileSize size (vol.sectors cluster) s)
    else .ok s

/-- `fat_read`: the value returned, and the bytes written to `buf`. -/
def fatRead (vol : FatVolume) (drive : Sectors) (fuel : ℕ) (self : FatVnode) (size offset : ℕ) :
    Except Fault (ℕ × (ℕ → Option UInt8)) :=
  if self.size ≤ offset then .ok (0, fun _ => none)
  else do
    let s ← fatReadFrom vol drive self.size size fuel self.firstCluster ⟨0, offset, 0, fun _ => none⟩
    return (s.bytesRead, s.buf)

/-- The data of sectors, and of the clusters of a chain. -/
def sectorBytes (drive : Sectors) (sectors : List ℕ) : List UInt8 :=
  sectors.flatMap fun sector => List.ofFn (drive sector)

def FatVolume.bytes (vol : FatVolume) (drive : Sectors) (l : List ℕ) : List UInt8 :=
  l.flatMap fun c => sectorBytes drive (vol.sectors c)

/-- The first `n` bytes of the buffer have been written, with the data from `offset` on. -/
def window (D : List UInt8) (offset n : ℕ) : ℕ → Option UInt8 :=
  fun x => if x < n then D[offset + x]? else none

/-- The bytes of the file from `offset` on, as many as there are and as `size` allows. -/
def ReadsExactly (call : Except Fault (ℕ × (ℕ → Option UInt8))) (D : List UInt8)
    (fileSize size offset : ℕ) : Prop :=
  call = .ok (min size (fileSize - offset), window D offset (min size (fileSize - offset)))

/-- When the exits of the loops are met in time: the read ends inside the file and with a cluster;
or it takes the whole file, which ends in the last sector of a cluster; or it goes up to the end of
a file that fills its clusters. -/
def ReadEnds (sectorsPerCluster clusters fileSize size offset : ℕ) : Prop :=
  (offset + size ≤ fileSize ∧ 512 * sectorsPerCluster ∣ offset + size) ∨
    (offset = 0 ∧ fileSize ≤ size ∧
      (fileSize - 1) / 512 % sectorsPerCluster = sectorsPerCluster - 1) ∨
    (512 * sectorsPerCluster * clusters = fileSize ∧ fileSize ≤ offset + size)

/-- The loops when they have gone over the first `p` bytes of the data, and not ended early. -/
def readAt (D : List UInt8) (offset p : ℕ) : FatRead :=
  ⟨p, max offset p, p - offset, window D offset (p - offset)⟩

section
variable (s : FatRead) (c : UInt8)
include s c

@[simp] theorem FatRead.store_currentPosition :
    (s.store c).currentPosition = s.currentPosition + 1 := rfl

@[simp] theorem FatRead.store_offset : (s.store c).offset = s.offset + 1 := rfl

@[simp] theorem FatRead.store_bytesRead : (s.store c).bytesRead = s.bytesRead + 1 := rfl

end

section
variable (D : List UInt8) (offset p : ℕ)
include D offset p

@[simp] theorem readAt_currentPosition : (readAt D offset p).currentPosition = p := rfl

@[simp] theorem readAt_offset : (readAt D offset p).offset = max offset p := rfl

@[simp] theorem readAt_bytesRead : (readAt D offset p).bytesRead = p - offset := rfl

end

section Sector
variable {D l rest : List UInt8} {len size offset p : ℕ} {c : UInt8} {s : FatRead}

theorem readAt_skip (h : p < offset) : (readAt D offset p).skip = readAt D offset (p + 1) := by
  unfold readAt FatRead.skip
  have hmax : max offset p = max offset (p + 1) := by omega
  have hsub : p - offset = p + 1 - offset := by omega
  rw [hmax, hsub]

theorem readAt_store (h : offset ≤ p) (hc : D[p]? = some c) :
    (readAt D offset p).store c = readAt D offset (p + 1) := by
  unfold readAt FatRead.store
  have hmax : max offset p + 1 = max offset (p + 1) := by omega
  have hsub : p - offset + 1 = p + 1 - offset := by omega
  rw [hmax, hsub]
  congr 1
  funext x
  unfold window
  dsimp only
  by_cases hx : x = p - offset
  · rw [hx, Function.update_self, if_pos (by omega), Nat.add_sub_cancel' h, hc]
  · rw [Function.update_of_ne hx]
    by_cases hlt : x < p - offset
    · rw [if_pos hlt, if_pos (by omega)]
    · rw [if_neg hlt, if_neg (by omega)]

theorem fatReadSector_at (hdata : D.drop p = l ++ rest) (hp : p - offset < min len (size + 1)) :
    fatReadSector len size l (readAt D offset p) =
      readAt D offset (min (p + l.length) (offset + min len (size + 1))) := by
  induction l generalizing p with
  | nil =>
    rw [length_nil, fatReadSector]
    congr 1
    omega
  | cons c l ih =>
    have hc : D[p]? = some c := by
      rw [← add_zero p, ← getElem?_drop, hdata]
      rfl
    have hdrop : D.drop (p + 1) = l ++ rest := by
      rw [← drop_drop, hdata]
      rfl
    have hlen : p + (c :: l).length = p + 1 + l.length := by
      rw [length_cons]
      omega
    rw [fatReadSector, hlen, readAt_currentPosition, readAt_offset]
    by_cases hskip : p < offset
    · rw [if_pos (lt_max_of_lt_left hskip), readAt_skip hskip]
      exact ih hdrop (by omega)
    · rw [if_neg (by omega), readAt_store (not_lt.mp hskip) hc]
      dsimp only
      rw [readAt_bytesRead]
      by_cases hend : len ≤ p + 1 - offset ∨ size < p + 1 - offset
      · rw [if_pos hend]
        congr 1
        omega
      · rw [if_neg hend]
        exact ih hdrop (by omega)

theorem fatReadSector_late (hpos : ¬s.currentPosition < s.offset)
    (hlate : min len (size + 1) ≤ s.bytesRead) :
    fatReadSector len size (c :: l) s = s.store c := by
  rw [fatReadSector, if_neg hpos]
  dsimp only
  rw [FatRead.store_bytesRead]
  exact if_pos (by omega)

theorem le_fatReadSector (l : List UInt8) (s : FatRead) :
    s.bytesRead ≤ (fatReadSector len size l s).bytesRead := by
  induction l generalizing s with
  | nil => exact le_rfl
  | cons c l ih =>
    rw [fatReadSector]
    split
    · exact ih s.skip
    · dsimp only
      split
      · exact le_succ _
      · exact (le_succ _).trans (ih (s.store c))

end Sector

section Cluster
variable {drive : Sectors} {D rest : List UInt8} {len size offset p : ℕ} {sectors : List ℕ}
  {s : FatRead}

theorem sectorBytes_length (drive : Sectors) (sectors : List ℕ) :
    (sectorBytes drive sectors).length = 512 * sectors.length := by
  induction sectors with
  | nil => rfl
  | cons n sectors ih =>
    rw [sectorBytes, flatMap_cons, length_append, length_ofFn, ← sectorBytes, ih,
      length_cons]
    omega

theorem fatReadSectors_cons (n : ℕ) (sectors : List ℕ) (s : FatRead) :
    fatReadSectors drive len size (n :: sectors) s =
      fatReadSectors drive len size sectors
        (fatReadSector len size (List.ofFn (drive n)) s) := List.foldl_cons ..

theorem fatReadSectors_late (hpos : ¬s.currentPosition < s.offset)
    (hlate : min len (size + 1) ≤ s.bytesRead) :
    (fatReadSectors drive len size sectors s).bytesRead = s.bytesRead + sectors.length := by
  induction sectors generalizing s with
  | nil => rfl
  | cons n sectors ih =>
    have hsector : fatReadSector len size (ofFn (drive n)) s = s.store (drive n 0) := by
      rw [ofFn_succ]
      exact fatReadSector_late hpos hlate
    have hpos' : ¬(s.store (drive n 0)).currentPosition < (s.store (drive n 0)).offset := by
      rw [FatRead.store_currentPosition, FatRead.store_offset]
      omega
    have hlate' : min len (size + 1) ≤ (s.store (drive n 0)).bytesRead :=
      hlate.trans (le_succ _)
    rw [fatReadSectors_cons, hsector, ih hpos' hlate', FatRead.store_bytesRead, length_cons]
    omega

theorem le_fatReadSectors (sectors : List ℕ) (s : FatRead) :
    s.bytesRead ≤ (fatReadSectors drive len size sectors s).bytesRead := by
  induction sectors generalizing s with
  | nil => exact le_rfl
  | cons n sectors ih =>
    rw [fatReadSectors_cons]
    exact (le_fatReadSector (ofFn (drive n)) s).trans (ih _)

theorem fatReadSectors_first {n : ℕ} (hdata : D.drop p = sectorBytes drive (n :: sectors) ++ rest)
    (hp : p - offset < min len (size + 1)) :
    D.drop (p + 512) = sectorBytes drive sectors ++ rest ∧
      fatReadSectors drive len size (n :: sectors) (readAt D offset p) =
        fatReadSectors drive len size sectors
          (readAt D offset (min (p + 512) (offset + min len (size + 1)))) := by
  have hlen : (ofFn (drive n)).length = 512 := length_ofFn
  have hsplit : D.drop p = ofFn (drive n) ++ (sectorBytes drive sectors ++ rest) := by
    rw [hdata, sectorBytes, flatMap_cons, append_assoc, ← sectorBytes]
  constructor
  · rw [← drop_drop, hsplit]
    exact drop_left' hlen
  · rw [fatReadSectors_cons, fatReadSector_at hsplit hp, hlen]

variable (hdata : D.drop p = sectorBytes drive sectors ++ rest)
include hdata

theorem fatReadSectors_at (hp : p + 512 * sectors.length - offset < min len (size + 1)) :
    fatReadSectors drive len size sectors (readAt D offset p) =
      readAt D offset (p + 512 * sectors.length) := by
  induction sectors generalizing p with
  | nil => rfl
  | cons n sectors ih =>
    rw [length_cons] at hp ⊢
    obtain ⟨hrest, hfirst⟩ := fatReadSectors_first hdata
      (show p - offset < min len (size + 1) by omega)
    have hmin : min (p + 512) (offset + min len (size + 1)) = p + 512 := by omega
    rw [hfirst, hmin, ih hrest (by omega)]
    congr 1
    omega

/-- Where the loop ends early, the sectors of the cluster that are left give a byte each. -/
theorem fatReadSectors_early (hp : p - offset < min len (size + 1))
    (hend : min len (size + 1) ≤ p + 512 * sectors.length - offset) :
    (fatReadSectors drive len size sectors (readAt D offset p)).bytesRead =
        min len (size + 1) +
          (sectors.length - 1 - (offset + min len (size + 1) - 1 - p) / 512) ∧
      ((offset + min len (size + 1) - 1 - p) / 512 = sectors.length - 1 →
        fatReadSectors drive len size sectors (readAt D offset p) =
          readAt D offset (offset + min len (size + 1))) := by
  induction sectors generalizing p with
  | nil =>
    rw [length_nil] at hend
    omega
  | cons n sectors ih =>
    rw [length_cons] at hend ⊢
    obtain ⟨hrest, hfirst⟩ := fatReadSectors_first hdata hp
    rw [hfirst]
    by_cases hhere : p + 512 - offset < min len (size + 1)
    · have hmin : min (p + 512) (offset + min len (size + 1)) = p + 512 := by omega
      obtain ⟨hcount, hlast⟩ := ih hrest hhere (by omega)
      have hdiv : (offset + min len (size + 1) - 1 - p) / 512 =
          (offset + min len (size + 1) - 1 - (p + 512)) / 512 + 1 := by omega
      rw [hmin, hdiv, hcount]
      constructor
      · omega
      · intro heq
        apply hlast
        omega
    · have hmin : min (p + 512) (offset + min len (size + 1)) =
          offset + min len (size + 1) := by omega
      have hdiv : (offset + min len (size + 1) - 1 - p) / 512 = 0 := by omega
      rw [hmin, hdiv]
      constructor
      · rw [fatReadSectors_late, readAt_bytesRead]
        · omega
        · rw [readAt_currentPosition, readAt_offset]
          omega
        · rw [readAt_bytesRead]
          omega
      · intro heq
        obtain rfl := length_eq_zero_iff.mp (by omega : sectors.length = 0)
        rfl

end Cluster

section Chain
variable {vol : FatVolume} {drive : Sectors} {D : List UInt8} {l : List ℕ}
  {len size offset p fuel cluster clusters : ℕ} {s : FatRead}

theorem FatVolume.sectors_length (vol : FatVolume) (cluster : ℕ) :
    (vol.sectors cluster).length = vol.sectorsPerCluster := by
  rw [FatVolume.sectors, length_map, length_range]

theorem FatVolume.bytes_length (vol : FatVolume) (drive : Sectors) (l : List ℕ) :
    (vol.bytes drive l).length = 512 * vol.sectorsPerCluster * l.length := by
  induction l with
  | nil => rfl
  | cons c l ih =>
    rw [FatVolume.bytes, flatMap_cons, length_append, sectorBytes_length,
      vol.sectors_length, ← FatVolume.bytes, ih, length_cons]
    ring

theorem fatReadFrom_total (hl : vol.Clusters cluster l) (hfuel : l.length < fuel) (s : FatRead) :
    ∃ s', fatReadFrom vol drive len size fuel cluster s = .ok s' ∧
      s.bytesRead ≤ s'.bytesRead := by
  induction l generalizing cluster fuel s with
  | nil =>
    obtain ⟨fuel, rfl⟩ := exists_eq_succ_of_ne_zero (by omega : fuel ≠ 0)
    have hzero := clusters_nil hl
    exact ⟨s, if_neg fun h => h.2.1 hzero, le_rfl⟩
  | cons c l ih =>
    rw [length_cons] at hfuel
    obtain ⟨fuel, rfl⟩ := exists_eq_succ_of_ne_zero (by omega : fuel ≠ 0)
    obtain ⟨-, rfl, hrest⟩ := clusters_cons hl
    rw [fatReadFrom]
    split
    · obtain ⟨s', hrun, hle⟩ := ih hrest (show l.length < fuel by omega)
        (fatReadSectors drive len size (vol.sectors c) s)
      exact ⟨s', hrun, (le_fatReadSectors _ _).trans hle⟩
    · exact ⟨s, rfl, le_rfl⟩

/-- The state in which the bytes of the file have been read. -/
def FatRead.Exact (s : FatRead) (D : List UInt8) (fileSize size offset : ℕ) : Prop :=
  s.bytesRead = min size (fileSize - offset) ∧
    s.buf = window D offset (min size (fileSize - offset))

theorem exact_readAt :
    (readAt D offset p).Exact D len size offset ↔
      p - offset = min size (len - offset) := by
  constructor
  · intro h
    exact h.1
  · intro h
    refine ⟨h, ?_⟩
    rw [← h]
    rfl

variable {m : ℕ}

theorem readEnds_of_size (hdvd : 512 * m ∣ p) (hsize : p - offset = size) (hpos : 0 < size)
    (hlt : size < len) (hle : p ≤ 512 * m * clusters) :
    size = min size (len - offset) ↔ ReadEnds m clusters len size offset := by
  have hp : offset + size = p := by omega
  constructor
  · intro h
    exact .inl ⟨by omega, hp ▸ hdvd⟩
  · rintro (h | h | h)
    all_goals omega

theorem readEnds_of_chain (hend : p = 512 * m * clusters) (hfile : len ≤ p)
    (hoffset : offset < len) (hlt : p - offset < min len (size + 1)) :
    p - offset = min size (len - offset) ↔ ReadEnds m clusters len size offset := by
  constructor
  · intro h
    exact .inr (.inr ⟨by omega, by omega⟩)
  · rintro (h | h | h)
    all_goals omega

/-- The loop over a sector has ended early, behind `size` bytes: it has written one too many. -/
theorem not_readEnds_of_early (hdvd : 512 * m ∣ p) (hp : p - offset < size + 1)
    (hstop : p - offset ≠ size) (hend : size + 1 ≤ p + 512 * m - offset) (hpos : 0 < size)
    (hlt : size < len) (hle : p + 512 * m ≤ 512 * m * clusters) :
    ¬ReadEnds m clusters len size offset := by
  rintro (⟨-, hmul⟩ | ⟨-, hwhole, -⟩ | ⟨hfills, hall⟩)
  · -- a multiple of the cluster size inside the cluster is its start
    have hzero : offset + size - p = 0 :=
      eq_zero_of_dvd_of_lt (dvd_sub hmul hdvd) (by omega)
    omega
  · omega
  · omega

theorem sector_in_cluster (hdvd : 512 * m ∣ p) (hp : p < len) (hend : len ≤ p + 512 * m) :
    (len - 1) / 512 % m = (len - 1 - p) / 512 := by
  obtain ⟨j, rfl⟩ := hdvd
  have hsplit : len - 1 = 512 * (m * j) + (len - 1 - 512 * m * j) := by
    rw [← mul_assoc]
    omega
  have hlt : (len - 1 - 512 * m * j) / 512 < m := Nat.div_lt_of_lt_mul (by omega)
  conv_lhs => rw [hsplit]
  rw [mul_add_div (by decide), mul_add_mod, mod_eq_of_lt hlt]

theorem readEnds_of_early (hdvd : 512 * m ∣ p) (hp : p - offset < len)
    (hend : len ≤ p + 512 * m - offset) (hwhole : len ≤ size)
    (hle : p + 512 * m ≤ 512 * m * clusters) : ReadEnds m clusters len size offset ↔
      offset = 0 ∧ (len - 1 - p) / 512 = m - 1 := by
  constructor
  · rintro (⟨hin, hmul⟩ | ⟨rfl, -, hlast⟩ | ⟨hfills, hall⟩)
    · obtain rfl : offset = 0 := by omega
      obtain rfl : size = len := by omega
      rw [zero_add] at hmul
      have hcluster := le_of_dvd (by omega) (dvd_sub hmul hdvd)
      omega
    · rw [sector_in_cluster hdvd (by omega) (by omega)] at hlast
      exact ⟨rfl, hlast⟩
    · omega
  · rintro ⟨rfl, hlast⟩
    refine .inr (.inl ⟨rfl, hwhole, ?_⟩)
    rw [sector_in_cluster hdvd (by omega) (by omega), hlast]

/-- Behind the bytes of the file nothing is exact, unless it is all of it and no sector is left. -/
theorem last_sector_of_le (hpos : 0 < len) (hp : p - offset < len)
    (hend : len ≤ p + 512 * m - offset)
    (hle : len + (m - 1 - (offset + len - 1 - p) / 512) ≤ len - offset) :
    offset = 0 ∧ (len - 1 - p) / 512 = m - 1 := by
  obtain rfl : offset = 0 := by
    omega
  rw [zero_add] at hle
  refine ⟨rfl, ?_⟩
  omega

theorem fatReadFrom_early (hl : vol.Clusters cluster l) (hfuel : l.length < fuel)
    (hbytes : s.bytesRead = min len (size + 1) + (vol.sectorsPerCluster - 1 -
      (offset + min len (size + 1) - 1 - p) / 512))
    (hlast : (offset + min len (size + 1) - 1 - p) / 512 = vol.sectorsPerCluster - 1 →
      s = readAt D offset (offset + min len (size + 1)))
    (hdvd : 512 * vol.sectorsPerCluster ∣ p) (hp : p - offset < min len (size + 1))
    (hstop : p - offset ≠ size)
    (hend : min len (size + 1) ≤ p + 512 * vol.sectorsPerCluster - offset) (hpos : 0 < size)
    (hle : p + 512 * vol.sectorsPerCluster ≤ 512 * vol.sectorsPerCluster * clusters) :
    ∃ s', fatReadFrom vol drive len size fuel cluster s = .ok s' ∧
      (s'.Exact D len size offset ↔
        ReadEnds vol.sectorsPerCluster clusters len size offset) := by
  have htotal : ∃ s', fatReadFrom vol drive len size fuel cluster s = .ok s' ∧ _ :=
    fatReadFrom_total hl hfuel s
  obtain ⟨s', hrun, hmore⟩ := htotal
  by_cases hwhole : len ≤ size
  · have hmin : min len (size + 1) = len := by omega
    rw [hmin] at hbytes hlast hp hend
    have hends : ReadEnds vol.sectorsPerCluster clusters len size offset ↔ _ :=
      readEnds_of_early hdvd hp hend hwhole hle
    rw [hends]
    by_cases hexact : offset = 0 ∧ (len - 1 - p) / 512 = vol.sectorsPerCluster - 1
    · -- the whole file has been read, so that the loop stops here
      obtain ⟨rfl, hsector⟩ := hexact
      rw [zero_add] at hlast
      obtain ⟨fuel, rfl⟩ := exists_eq_succ_of_ne_zero (by omega : fuel ≠ 0)
      rw [hlast hsector]
      refine ⟨_, if_neg fun h => h.2.2 (Nat.sub_zero _), ?_⟩
      rw [exact_readAt]
      exact iff_of_true (by omega) ⟨rfl, hsector⟩
    · refine ⟨s', hrun, iff_of_false ?_ hexact⟩
      intro h
      apply hexact
      apply last_sector_of_le (by omega) hp hend
      rw [← hbytes]
      exact hmore.trans (h.1.trans_le (min_le_right _ _))
  · have hmin : min len (size + 1) = size + 1 := by omega
    rw [hmin] at hbytes hp hend
    refine ⟨s', hrun, iff_of_false ?_ ?_⟩
    · intro h
      have hread := h.1
      omega
    · exact not_readEnds_of_early hdvd hp hstop hend hpos (by omega) hle

/-- The loop over the clusters from the start of one of them on, by induction on those that are
left. -/
theorem fatReadFrom_exact (hl : vol.Clusters cluster l) (hfuel : l.length < fuel)
    (hdata : D.drop p = vol.bytes drive l) (hple : p ≤ D.length)
    (hlen : D.length = 512 * vol.sectorsPerCluster * clusters)
    (hdvd : 512 * vol.sectorsPerCluster ∣ p) (hp : p - offset < min len (size + 1))
    (hoffset : offset < len) (hfile : len ≤ D.length) (hpos : 0 < size) :
    ∃ s, fatReadFrom vol drive len size fuel cluster (readAt D offset p) = .ok s ∧
      (s.Exact D len size offset ↔
        ReadEnds vol.sectorsPerCluster clusters len size offset) := by
  induction l generalizing p cluster fuel with
  | nil =>
    obtain ⟨fuel, rfl⟩ := exists_eq_succ_of_ne_zero (by omega : fuel ≠ 0)
    have hzero := clusters_nil hl
    have hend : p = D.length := le_antisymm hple (drop_eq_nil_iff.mp hdata)
    refine ⟨_, if_neg fun h => h.2.1 hzero, ?_⟩
    rw [exact_readAt]
    exact readEnds_of_chain (hend.trans hlen) (by omega) hoffset hp
  | cons c l ih =>
    rw [length_cons] at hfuel
    obtain ⟨fuel, rfl⟩ := exists_eq_succ_of_ne_zero (by omega : fuel ≠ 0)
    by_cases hstop : p - offset = size
    · refine ⟨_, if_neg fun h => absurd h.1 (by rw [readAt_bytesRead]; omega), ?_⟩
      rw [exact_readAt, hstop]
      exact readEnds_of_size hdvd hstop hpos (by omega) (hlen ▸ hple)
    obtain ⟨hne, rfl, hrest⟩ := clusters_cons hl
    have hsplit : D.drop p = sectorBytes drive (vol.sectors c) ++ vol.bytes drive l := hdata
    have hcluster : p + 512 * vol.sectorsPerCluster ≤ D.length := by
      have hlength := congrArg length hsplit
      rw [length_drop, length_append, sectorBytes_length, vol.sectors_length] at hlength
      omega
    have hcount := vol.sectors_length c
    rw [fatReadFrom, if_pos (by rw [readAt_bytesRead]; exact ⟨by omega, hne, by omega⟩)]
    by_cases hgo : p + 512 * vol.sectorsPerCluster - offset < min len (size + 1)
    · rw [fatReadSectors_at hsplit (by rwa [hcount]), hcount]
      have hdrop : D.drop (p + 512 * vol.sectorsPerCluster) = vol.bytes drive l := by
        rw [← drop_drop, hsplit]
        exact drop_left' (by rw [sectorBytes_length, hcount])
      exact ih hrest (by omega) hdrop hcluster (hdvd.add (dvd_refl _)) hgo
    obtain ⟨hbytes, hlast⟩ := fatReadSectors_early hsplit hp (by rw [hcount]; omega)
    rw [hcount] at hbytes hlast
    exact fatReadFrom_early hrest (by omega) hbytes hlast hdvd hp hstop (by omega) hpos (by omega)

end Chain

theorem window_zero (D : List UInt8) (offset : ℕ) : window D offset 0 = fun _ => none := rfl

theorem readAt_zero (D : List UInt8) (offset : ℕ) :
    readAt D offset 0 = ⟨0, offset, 0, fun _ => none⟩ := by
  rw [readAt, Nat.max_zero, Nat.zero_sub, window_zero]

/-- A read is exact if nothing is to be read, or the loops end where it does. -/
theorem fat_read_exact_iff (vol : FatVolume) (drive : Sectors) (self : FatVnode) (l : List ℕ)
    (hl : vol.Clusters self.firstCluster l) (hlong : self.size ≤ (vol.bytes drive l).length)
    (fuel : ℕ) (hfuel : l.length < fuel) (size offset : ℕ) :
    ReadsExactly (fatRead vol drive fuel self size offset) (vol.bytes drive l) self.size size
        offset ↔
      self.size ≤ offset ∨ size = 0 ∨
        ReadEnds vol.sectorsPerCluster l.length self.size size offset := by
  unfold ReadsExactly fatRead
  by_cases hoffset : self.size ≤ offset
  · have hnone : min size (self.size - offset) = 0 := by omega
    rw [if_pos hoffset, hnone, window_zero]
    exact iff_of_true rfl (.inl hoffset)
  rw [if_neg hoffset, ← readAt_zero (vol.bytes drive l)]
  rcases Nat.eq_zero_or_pos size with rfl | hpos
  · obtain ⟨fuel, rfl⟩ := exists_eq_succ_of_ne_zero (by omega : fuel ≠ 0)
    have hstop : fatReadFrom vol drive self.size 0 (fuel + 1) self.firstCluster
        (readAt (vol.bytes drive l) offset 0) = .ok (readAt (vol.bytes drive l) offset 0) :=
      if_neg fun h => not_lt_zero _ h.1
    rw [hstop, ok_bind, zero_min, readAt_zero, window_zero]
    exact iff_of_true rfl (.inr (.inl rfl))
  obtain ⟨s, hrun, hexact⟩ := fatReadFrom_exact hl hfuel drop_zero (zero_le _)
    (vol.bytes_length drive l) (dvd_zero _) (by omega) (not_le.mp hoffset) hlong hpos
  rw [hrun, ok_bind]
  have hcall : (pure (s.bytesRead, s.buf) : Except Fault (ℕ × (ℕ → Option UInt8))) =
      .ok (min size (self.size - offset),
        window (vol.bytes drive l) offset (min size (self.size - offset))) ↔
      s.Exact (vol.bytes drive l) self.size size offset := by
    constructor
    · intro h
      exact Prod.mk.inj (Except.ok.inj h)
    · intro h
      exact congrArg Except.ok (Prod.ext h.1 h.2)
  rw [hcall, hexact]
  constructor
  · intro h
    exact .inr (.inr h)
  · rintro (h | h | h)
    · exact absurd h hoffset
    · omega
    · exact h

/-- A volume with one sector in each cluster, where every chain has one cluster. -/
def smallVolume : FatVolume where
  sectorsPerCluster := 1
  firstDataSector := 0
  directories _ := []
  fat _ := 0x0FFFFFFF

def smallDrive : Sectors := fun _ k => UInt8.ofNat k

def smallFile : FatVnode := ⟨[], .reg, 100, 2⟩

theorem smallFile_clusters : smallVolume.Clusters smallFile.firstCluster [2] := ⟨rfl, rfl⟩

theorem fat_read_exact_whole :
    ReadsExactly (fatRead smallVolume smallDrive 2 smallFile 100 0)
      (smallVolume.bytes smallDrive [2]) 100 100 0 := by
  have hlong : smallFile.size ≤ (smallVolume.bytes smallDrive [2]).length := by
    rw [FatVolume.bytes_length]
    decide
  apply (fat_read_exact_iff smallVolume smallDrive smallFile [2] smallFile_clusters hlong 2
    (by decide) 100 0).mpr
  exact .inr (.inr (.inr (.inl ⟨rfl, le_rfl, rfl⟩)))

/-- A read of 10 bytes that ends inside a cluster writes and returns 11. -/
theorem fat_read_exact_inside :
    (fatRead smallVolume smallDrive 2 smallFile 10 0).map Prod.fst = .ok 11 ∧
      ¬ReadsExactly (fatRead smallVolume smallDrive 2 smallFile 10 0)
        (smallVolume.bytes smallDrive [2]) 100 10 0 := by
  have hread : (fatRead smallVolume smallDrive 2 smallFile 10 0).map Prod.fst = .ok 11 := by
    decide +kernel
  refine ⟨hread, ?_⟩
  intro h
  rw [h] at hread
  exact absurd (Except.ok.inj hread) (by decide)

end GarnOS
