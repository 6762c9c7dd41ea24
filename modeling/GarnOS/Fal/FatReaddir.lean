import GarnOS.Fal.Fat
import GarnOS.Library.Backfill
import GarnOS.Library.Pages

/-! Paging through a FAT32 directory: the calls of `getdents` give the records of one unlimited
call, in order and each once. -/
namespace GarnOS
open Outcome Pages List Nat Dirent

def clusterAt (c : ℕ) : Option ℕ := if c = 0 then none else some c

/-- The clusters from one on, up to the end of the chain. -/
def FatVolume.Clusters (vol : FatVolume) (first : ℕ) (l : List ℕ) : Prop :=
  Chain.Visits (fun c => clusterAt (vol.nextCluster c)) (clusterAt first) l

def FatVolume.entries (vol : FatVolume) (c : ℕ) : List (ℕ × DirEntry) :=
  (vol.sectors c).flatMap fun sector => (vol.directories sector).map (c, ·)

/-- The entries of the clusters in the order in which they are read. -/
def FatVolume.scan (vol : FatVolume) (l : List ℕ) : List (ℕ × DirEntry) := l.flatMap vol.entries

/-- Where in a long name the scan is: not in one, before its last entry, or right behind that. -/
inductive LfnPhase where
  | between | inside | behind
  deriving DecidableEq, Repr

/-- Each long name goes up to its last entry, which is followed by the short entry. -/
def lfnComplete : LfnPhase → List DirEntry → Bool
  | p, [] => p = .between
  | p, e :: es =>
    if e 0 = 0 then lfnComplete p es
    else if e.attrib = FAT_ATTR_LFN then
      p ≠ .behind && lfnComplete (if e.endsLfn then .behind else .inside) es
    else p ≠ .inside && lfnComplete .between es

structure DirRecord where
  inode : ℕ
  type : DirentType
  reclen : ℕ
  name : List UInt8
  deriving DecidableEq, Repr

def Dirent.record (d : Dirent) : DirRecord := ⟨d.inode, d.type, d.reclen, d.name⟩

/-- The records of the entries; `pending` is the long name that the next short entry has. -/
def listing (block : DirEntry → SfnBlock) :
    Lfn → Option (List UInt8) → List (ℕ × DirEntry) → List DirRecord
  | _, _, [] => []
  | lfn, pending, (cluster, e) :: es =>
    if e 0 = 0 then listing block lfn pending es
    else if e.attrib = FAT_ATTR_LFN then
      listing block (fatParseLfn lfn e).2 (fatParseLfn lfn e).1 es
    else
      let name := pending.getD (fatParseSfn (block e) e)
      ⟨cluster, e.type, DIRENT_SIZE + name.length, name⟩ :: listing block lfn none es

/-- What a call reads from the records that are left: those up to `offset` are passed over, and the
first that does not fit ends it. -/
def readPage (count offset : ℕ) : ℕ → ℕ → List DirRecord → List DirRecord → ℕ × List DirRecord
  | _, fromOffset, out, [] => (fromOffset, out)
  | read, fromOffset, out, r :: rs =>
    if read + r.reclen ≤ offset then readPage count offset (read + r.reclen) 0 [] rs
    else if count < fromOffset + r.reclen then (fromOffset, out)
    else readPage count offset (read + r.reclen) (fromOffset + r.reclen) (out ++ [r]) rs

section Names
variable {block : DirEntry → SfnBlock} {lfn : Lfn} {e : DirEntry} {name : List UInt8}

theorem cString_length_le (l : List UInt8) : (cString l).length ≤ l.length :=
  ( takeWhile_prefix _).length_le

theorem Lfn.retrieve_length_le (h : lfn.retrieve = some name) : name.length ≤ 256 := by
  unfold Lfn.retrieve at h
  split at h
  · cases h
  · cases h
    refine (cString_length_le _).trans ?_
    simp [Lfn.drop]

theorem Lfn.put_newEntry (lfn : Lfn) (c : UInt8 × UInt8) : (lfn.put c).newEntry = lfn.newEntry := by
  unfold Lfn.put
  split <;> rfl

theorem Lfn.start_newEntry (lfn : Lfn) : lfn.start.newEntry = false := by
  unfold Lfn.start
  split
  next => rfl
  next h => simpa using h

theorem foldl_put_newEntry (cs : List (UInt8 × UInt8)) (lfn : Lfn) :
    (cs.foldl Lfn.put lfn).newEntry = lfn.newEntry := by
  induction cs generalizing lfn with
  | nil => rfl
  | cons c cs ih => rw [foldl_cons, ih, Lfn.put_newEntry]

/-- An entry of a long name retrieves nothing unless it is the last, which ends the name. -/
theorem fatParseLfn_cases (lfn : Lfn) (e : DirEntry) :
    (fatParseLfn lfn e).2.newEntry = e.endsLfn ∧
      (e.endsLfn = false → (fatParseLfn lfn e).1 = none) ∧
      ∀ name, (fatParseLfn lfn e).1 = some name → name.length ≤ 256 := by
  unfold fatParseLfn
  cases hends : e.endsLfn with
  | false => simp [foldl_put_newEntry, Lfn.start_newEntry]
  | true => exact ⟨rfl, nofun, fun name => Lfn.retrieve_length_le⟩

theorem fatParseSfn_length_le (b : SfnBlock) : (fatParseSfn b e).length ≤ 256 := by
  refine (cString_length_le _).trans ?_
  have hbase : (e.base.takeWhile (· ≠ 0x20)).length ≤ 8 := ( takeWhile_prefix _).length_le
  have hext : (e.ext.takeWhile (· ≠ 0x20)).length ≤ 3 := ( takeWhile_prefix _).length_le
  rw [length_append]
  split
  · omega
  · rw [length_cons]
    omega

end Names

section Reading
variable {block : DirEntry → SfnBlock} {count offset : ℕ} {s : Readdir} {p : LfnPhase}

structure Readdir.Ok (p : LfnPhase) (s : Readdir) : Prop where
  offsets : s.direntOffset = s.trueOffset
  newEntry : s.lfn.newEntry = decide (p ≠ .inside)
  parsed : s.lfnParsedFirst = (decide (p = .behind) && s.str.isSome)
  length : ∀ name, s.str = some name → name.length ≤ 256

def Readdir.pending (s : Readdir) : Option (List UInt8) := if s.lfnParsedFirst then s.str else none

def readdirStep (block : DirEntry → SfnBlock) (count offset : ℕ) (s : Readdir) (x : ℕ × DirEntry) :
    Except ReaddirExit Readdir :=
  fatReaddirEntry block count offset x.1 s x.2

def readdirEnd : Except ReaddirExit Readdir → Except Fault Readdir
  | .ok s | .error (.returned s) => .ok s
  | .error (.fault f) => .error f

def Readdir.page (s : Readdir) : ℕ × List DirRecord :=
  (s.bytesReadFromOffset, s.buf.map record)

theorem fatReaddirRecord_eq {cluster : ℕ} {type : DirentType} {name : List UInt8}
    (hlen : name.length ≤ 256) :
    fatReaddirRecord count offset cluster type name s =
      if s.bytesRead + (DIRENT_SIZE + name.length) ≤ offset then
        .ok { s with
          bytesRead := s.bytesRead + (DIRENT_SIZE + name.length), bytesReadFromOffset := 0, buf := [] }
      else if count < s.bytesReadFromOffset + (DIRENT_SIZE + name.length) then
        .error (.returned { s with bytesRead := s.bytesRead + (DIRENT_SIZE + name.length) })
      else
        .ok { s with
          bytesRead := s.bytesRead + (DIRENT_SIZE + name.length)
          bytesReadFromOffset := s.bytesReadFromOffset + (DIRENT_SIZE + name.length)
          buf := s.buf ++ [⟨cluster, s.direntOffset, DIRENT_SIZE + name.length, type, name⟩]
          direntOffset := s.direntOffset + 32
          trueOffset := s.trueOffset + 32 } := by
  have hmod : (DIRENT_SIZE + name.length) % 2 ^ 16 = DIRENT_SIZE + name.length :=
    mod_eq_of_lt (by simp only [DIRENT_SIZE]; omega)
  simp only [fatReaddirRecord, hmod]
  split
  next => rfl
  next hpast =>
    have hnot : ¬s.bytesRead + (DIRENT_SIZE + name.length) < offset := by omega
    split
    next hfull => rw [if_pos hfull.1, Nat.add_sub_cancel]
    next hfits =>
      have hfits' : ¬count < s.bytesReadFromOffset + (DIRENT_SIZE + name.length) :=
        fun h => hfits ⟨h, hnot⟩
      rw [if_neg hfits', if_neg hfits']

theorem Readdir.Ok.parse {e : DirEntry} {n m : ℕ} (hok : s.Ok p) (hp : p ≠ .behind)
    (hoffset : n = m) :
    let t : Readdir := { s with
      lfn := (fatParseLfn s.lfn e).2
      str := (fatParseLfn s.lfn e).1
      lfnParsedFirst := s.lfnParsedFirst || (fatParseLfn s.lfn e).1.isSome
      direntOffset := n
      trueOffset := m }
    t.Ok (if e.endsLfn then .behind else .inside) ∧ t.pending = (fatParseLfn s.lfn e).1 := by
  obtain ⟨hnew, hnone, hlen⟩ := fatParseLfn_cases s.lfn e
  have hparsed : s.lfnParsedFirst = false := by simp [hok.parsed, hp]
  refine ⟨⟨hoffset, ?_, ?_, hlen⟩, ?_⟩
  · rw [hnew]
    cases e.endsLfn <;> rfl
  · cases hends : e.endsLfn with
    | false => simp [hparsed, hnone hends]
    | true => simp [hparsed]
  · rw [Readdir.pending, hparsed, Bool.false_or]
    cases (fatParseLfn s.lfn e).1 <;> rfl

theorem fatReaddirEntry_short {cluster : ℕ} {e : DirEntry} (hok : s.Ok p) (hempty : ¬e 0 = 0)
    (hlfn : ¬e.attrib = FAT_ATTR_LFN) :
    fatReaddirEntry block count offset cluster s e =
      fatReaddirRecord count offset cluster e.type (s.pending.getD (fatParseSfn (block e) e))
        { s with
          lfnParsedFirst := false
          str := some (s.pending.getD (fatParseSfn (block e) e)) } ∧
    (s.pending.getD (fatParseSfn (block e) e)).length ≤ 256 := by
  rw [fatReaddirEntry, if_neg (by simp [hok.offsets]), if_neg hempty, if_neg hlfn]
  cases hparsed : s.lfnParsedFirst with
  | false =>
    have hpending : s.pending = none := by simp [Readdir.pending, hparsed]
    rw [hpending]
    exact ⟨rfl, fatParseSfn_length_le _⟩
  | true =>
    obtain ⟨name, hname⟩ : ∃ name, s.str = some name := by
      have hsome := hok.parsed
      rw [hparsed, eq_comm, Bool.and_eq_true] at hsome
      exact Option.isSome_iff_exists.mp hsome.2
    have hpending : s.pending = some name := by simp [Readdir.pending, hparsed, hname]
    rw [hpending]
    refine ⟨?_, hok.length name hname⟩
    simp [hname]

theorem foldlM_page (es : List (ℕ × DirEntry)) (hok : s.Ok p)
    (hcomplete : lfnComplete p (es.map Prod.snd) = true) :
    ∃ t, readdirEnd (es.foldlM (readdirStep block count offset) s) = .ok t ∧
      t.lfn.newEntry = true ∧
      t.page = readPage count offset s.bytesRead s.bytesReadFromOffset (s.buf.map record)
        (listing block s.lfn s.pending es) := by
  induction es generalizing s p with
  | nil =>
    obtain rfl : p = .between := by simpa [lfnComplete] using hcomplete
    exact ⟨s, rfl, by simp [hok.newEntry], rfl⟩
  | cons x es ih =>
    obtain ⟨cluster, e⟩ := x
    rw [map_cons, lfnComplete] at hcomplete
    rw [foldlM_cons, readdirStep, listing]
    split at hcomplete
    next hempty =>
      rw [if_pos hempty, fatReaddirEntry, if_neg (by simp [hok.offsets]), if_pos hempty]
      exact ih hok hcomplete
    next hempty =>
      rw [if_neg hempty]
      split at hcomplete
      next hlfn =>
        rw [if_pos hlfn, fatReaddirEntry, if_neg (by simp [hok.offsets]), if_neg hempty,
          if_pos hlfn]
        simp only [Bool.and_eq_true, decide_eq_true_eq] at hcomplete
        obtain ⟨hok', hpending⟩ := hok.parse (e := e) hcomplete.1
          (congrArg (· + 32) hok.offsets)
        have hrest := ih hok' hcomplete.2
        rw [hpending] at hrest
        exact hrest
      next hlfn =>
        simp only [Bool.and_eq_true, decide_eq_true_eq] at hcomplete
        obtain ⟨hentry, hlen⟩ :=
          @fatReaddirEntry_short block count offset s p cluster e hok hempty hlfn
        rw [if_neg hlfn, hentry, fatReaddirRecord_eq hlen]
        set name := s.pending.getD (fatParseSfn (block e) e)
        have hnew : s.lfn.newEntry = true := by simp [hok.newEntry, hcomplete.1]
        have hname : ∀ n, some name = some n → n.length ≤ 256 := by
          rintro n ⟨⟩
          exact hlen
        rw [readPage]
        split
        next hpast => exact ih (p := .between) ⟨hok.offsets, hnew, rfl, hname⟩ hcomplete.2
        next hpast =>
          split
          next hfull => exact ⟨_, rfl, hnew, rfl⟩
          next hfits =>
            have hrest := ih (p := .between) (s := { s with
              lfnParsedFirst := false
              str := some name
              bytesRead := s.bytesRead + (DIRENT_SIZE + name.length)
              bytesReadFromOffset := s.bytesReadFromOffset + (DIRENT_SIZE + name.length)
              buf := s.buf ++ [⟨cluster, s.direntOffset, DIRENT_SIZE + name.length, e.type, name⟩]
              direntOffset := s.direntOffset + 32
              trueOffset := s.trueOffset + 32 })
              ⟨congrArg (· + 32) hok.offsets, hnew, rfl, hname⟩ hcomplete.2
            rw [map_append] at hrest
            exact hrest

theorem readPage_skip {read : ℕ} {before rest : List DirRecord}
    (h : read + weight DirRecord.reclen before = offset) :
    readPage count offset read 0 [] (before ++ rest) = readPage count offset offset 0 [] rest := by
  induction before generalizing read with
  | nil =>
    obtain rfl : read = offset := h
    rfl
  | cons r before ih =>
    rw [weight_cons] at h
    rw [cons_append, readPage, if_pos (by omega)]
    exact ih (by omega)

theorem readPage_take {read fromOffset : ℕ} {out rest : List DirRecord} (hread : offset ≤ read)
    (hpos : ∀ r ∈ rest, 0 < r.reclen) (hfrom : fromOffset ≤ count) :
    readPage count offset read fromOffset out rest =
      (fromOffset + weight DirRecord.reclen (takeFit DirRecord.reclen (count - fromOffset) rest),
        out ++ takeFit DirRecord.reclen (count - fromOffset) rest) := by
  induction rest generalizing read fromOffset out with
  | nil => simp [readPage, takeFit]
  | cons r rest ih =>
    have hr := hpos r mem_cons_self
    rw [readPage, if_neg (by omega)]
    by_cases hfull : count < fromOffset + r.reclen
    · rw [if_pos hfull, takeFit, if_neg (by omega)]
      simp
    · rw [if_neg hfull, takeFit_cons (by omega),
        ih (by omega) (fun r' hr' => hpos r' (mem_cons_of_mem _ hr')) (by omega)]
      simp [sub_add_eq, add_assoc]

theorem listing_pos {lfn : Lfn} {pending : Option (List UInt8)} {es : List (ℕ × DirEntry)} :
    ∀ r ∈ listing block lfn pending es, 0 < r.reclen := by
  induction es generalizing lfn pending with
  | nil => nofun
  | cons x es ih =>
    obtain ⟨cluster, e⟩ := x
    intro r hr
    rw [listing] at hr
    split at hr
    · exact ih r hr
    split at hr
    · exact ih r hr
    obtain rfl | hr := mem_cons.mp hr
    · simp only [DIRENT_SIZE]
      omega
    · exact ih r hr

end Reading

section Decoding
open Backfill Lfn DirEntry
variable {block : DirEntry → SfnBlock} {s s' : Lfn} {e : DirEntry} {l : List UInt8} {n : ℕ}

def DirEntry.stored (e : DirEntry) : List UInt8 :=
  (e.chars.filter (· ≠ (0xFF, 0xFF))).map Prod.fst

def Lfn.buffer (s : Lfn) : Buffer UInt8 := ⟨s.charIndex, s.workBuffer⟩

def bufferName (b : Buffer UInt8) : Option (List UInt8) :=
  if b.data 255 ≠ 0 then none else some (cString b.read)

/-- The name from the bytes that were put in since the index was at the end. -/
def storedName (l : List UInt8) : Option (List UInt8) :=
  if l.headD 0 ≠ 0 then none else some (cString l.reverse)

theorem foldl_put_buffer (cs : List (UInt8 × UInt8)) (s : Lfn) :
    (cs.foldl put s).buffer =
      s.buffer.fill ((cs.filter (· ≠ (0xFF, 0xFF))).map Prod.fst) := by
  induction cs generalizing s with
  | nil => rfl
  | cons c cs ih =>
    rw [foldl_cons, ih]
    by_cases hc : c = (0xFF, 0xFF)
    · rw [filter_cons_of_neg (by simp [hc]), put, if_pos hc]
    · rw [filter_cons_of_pos (by simp [hc]), put, if_neg hc]
      rfl

theorem start_buffer_index (h : s.newEntry = true) : s.start.buffer.index = 255 := by
  rw [buffer, start, if_pos h]

theorem fatParseLfn_inside (h : e.endsLfn = false) :
    (fatParseLfn s e).1 = none ∧
      (fatParseLfn s e).2.start.buffer = s.start.buffer.fill e.stored := by
  have hnew : (e.chars.foldl put s.start).newEntry = false := by
    rw [foldl_put_newEntry, start_newEntry]
  rw [fatParseLfn, h]
  refine ⟨rfl, ?_⟩
  show (e.chars.foldl put s.start).start.buffer = _
  rw [start, if_neg (by simp [hnew]), foldl_put_buffer]
  rfl

theorem fatParseLfn_last (h : e.endsLfn = true) :
    (fatParseLfn s e).1 = bufferName (s.start.buffer.fill e.stored) := by
  rw [stored, ← foldl_put_buffer, fatParseLfn, h]
  rfl

theorem bufferName_fill {b : Buffer UInt8} (hb : b.index = 255) (hl : l ≠ []) :
    bufferName (b.fill l) = storedName (recent l) := by
  obtain ⟨t, ht, hfill⟩ := fill_recent hb l
  have hrecent := recent_ne_nil hl
  have hlength := recent_length_le l
  rw [hfill, bufferName, fill_last ht hrecent hlength, fill_read ht hrecent hlength, storedName,
    headD_eq_head?_getD, head?_eq_some_head hrecent, Option.getD_some]

/-- The next name goes on behind `l`, which was put in since the index was at the end. -/
def Lfn.Filled (s : Lfn) (l : List UInt8) : Prop :=
  ∃ b : Buffer UInt8, b.index = 255 ∧ s.start.buffer = b.fill l

theorem Lfn.filled_nil (h : s.newEntry = true) : s.Filled [] :=
  ⟨s.start.buffer, start_buffer_index h, rfl⟩

theorem Lfn.filled_behind (s : Lfn) (hends : e.endsLfn = true) : (fatParseLfn s e).2.Filled [] :=
  filled_nil ((fatParseLfn_cases s e).1.trans hends)

theorem Lfn.Filled.inside (h : s.Filled l) (hends : e.endsLfn = false) :
    (fatParseLfn s e).2.Filled (l ++ e.stored) := by
  obtain ⟨b, hb, hbuffer⟩ := h
  refine ⟨b, hb, ?_⟩
  rw [(fatParseLfn_inside hends).2, hbuffer, fill_append]

theorem Lfn.Filled.last (h : s.Filled l) (hends : e.endsLfn = true) (hne : l ++ e.stored ≠ []) :
    (fatParseLfn s e).1 = storedName (recent (l ++ e.stored)) := by
  obtain ⟨b, hb, hbuffer⟩ := h
  rw [fatParseLfn_last hends, hbuffer, ← fill_append, bufferName_fill hb hne]

/-- The characters of an entry that are not filling. -/
def DirEntry.charCount (e : DirEntry) : ℕ := e.chars.countP (· ≠ (0xFF, 0xFF))

theorem length_append_stored (l : List UInt8) (e : DirEntry) :
    (l ++ e.stored).length = l.length + e.charCount := by
  rw [length_append, stored, length_map, charCount, countP_eq_length_filter]

def lfnWritten : ℕ → List DirEntry → Bool
  | _, [] => true
  | n, e :: es =>
    if e 0 = 0 then lfnWritten n es
    else if e.attrib = FAT_ATTR_LFN then
      if e.endsLfn then 0 < n + e.charCount && lfnWritten 0 es else lfnWritten (n + e.charCount) es
    else lfnWritten 0 es

theorem listing_congr {pending : Option (List UInt8)} (es : List (ℕ × DirEntry)) (h : s.Filled l)
    (h' : s'.Filled l) (hn : n ≤ l.length) (hwritten : lfnWritten n (es.map Prod.snd) = true) :
    listing block s pending es = listing block s' pending es := by
  induction es generalizing s s' n l pending with
  | nil => rfl
  | cons x es ih =>
    obtain ⟨cluster, e⟩ := x
    rw [map_cons, lfnWritten] at hwritten
    dsimp only at hwritten
    rw [listing, listing]
    by_cases hempty : e 0 = 0
    · rw [if_pos hempty] at hwritten
      rw [if_pos hempty, if_pos hempty]
      exact ih h h' hn hwritten
    rw [if_neg hempty] at hwritten
    rw [if_neg hempty, if_neg hempty]
    by_cases hlfn : e.attrib = FAT_ATTR_LFN
    · rw [if_pos hlfn] at hwritten
      rw [if_pos hlfn, if_pos hlfn]
      have hlen := length_append_stored l e
      cases hends : e.endsLfn with
      | false =>
        rw [hends, if_neg Bool.false_ne_true] at hwritten
        rw [(fatParseLfn_inside hends).1, (fatParseLfn_inside hends).1]
        exact ih (h.inside hends) (h'.inside hends) (by omega) hwritten
      | true =>
        rw [hends, if_pos rfl, Bool.and_eq_true, decide_eq_true_eq] at hwritten
        have hne : l ++ e.stored ≠ [] := by
          rw [← length_pos_iff_ne_nil]
          omega
        rw [h.last hends hne, h'.last hends hne]
        exact ih (s.filled_behind hends) (s'.filled_behind hends) (zero_le _) hwritten.2
    · rw [if_neg hlfn] at hwritten
      rw [if_neg hlfn, if_neg hlfn, ih h h' (zero_le _) hwritten]

/-- The names of the entries do not depend on what was read before. -/
def FixedNames (block : DirEntry → SfnBlock) (es : List (ℕ × DirEntry)) : Prop :=
  ∀ lfn lfn' : Lfn, lfn.newEntry = true → lfn'.newEntry = true →
    listing block lfn none es = listing block lfn' none es

theorem fixedNames_of_written {es : List (ℕ × DirEntry)}
    (hwritten : lfnWritten 0 (es.map Prod.snd) = true) : FixedNames block es :=
  fun _ _ hnew hnew' => listing_congr es (filled_nil hnew) (filled_nil hnew') le_rfl hwritten

end Decoding

section Volumes
variable {vol : FatVolume} {block : DirEntry → SfnBlock} {count offset fuel : ℕ} {l : List ℕ}
  {first : ℕ} {s : Readdir} {self : FatVnode} {lfn : Lfn} {before rest : List DirRecord}

theorem clusters_nil (h : vol.Clusters first []) : first = 0 := by
  have hnone := Chain.visits_nil.mp h
  unfold clusterAt at hnone
  split at hnone
  · assumption
  · cases hnone

theorem clusters_cons {c : ℕ} (h : vol.Clusters first (c :: l)) :
    first ≠ 0 ∧ c = first ∧ vol.Clusters (vol.nextCluster first) l := by
  obtain ⟨hsome, hrest⟩ := Chain.visits_cons.mp h
  unfold clusterAt at hsome
  split at hsome
  · cases hsome
  · cases hsome
    exact ⟨by assumption, rfl, hrest⟩

theorem fatReaddirCluster_eq {cluster : ℕ} : fatReaddirCluster vol block count offset cluster s =
      (vol.entries cluster).foldlM (readdirStep block count offset) s := by
  rw [fatReaddirCluster, FatVolume.entries]
  generalize vol.sectors cluster = sectors
  induction sectors generalizing s with
  | nil => rfl
  | cons sector sectors ih =>
    rw [List.foldlM_cons, List.flatMap_cons, List.foldlM_append, List.foldlM_map]
    congr 1
    funext s
    exact ih

theorem fatReaddirFrom_cases (hl : vol.Clusters first l) :
    fatReaddirFrom vol block count offset fuel first s =
        readdirEnd ((vol.scan l).foldlM (readdirStep block count offset) s) ∨
      fatReaddirFrom vol block count offset fuel first s = .error .diverges ∧ fuel < l.length := by
  induction l generalizing first fuel s with
  | nil =>
    obtain rfl := clusters_nil hl
    cases fuel <;> exact .inl rfl
  | cons c l ih =>
    obtain ⟨hfirst, rfl, hrest⟩ := clusters_cons hl
    obtain ⟨n, rfl⟩ := exists_eq_succ_of_ne_zero hfirst
    cases fuel with
    | zero => exact .inr ⟨rfl, zero_lt_succ _⟩
    | succ fuel =>
      rw [fatReaddirFrom, fatReaddirCluster_eq, FatVolume.scan, flatMap_cons, foldlM_append]
      cases (vol.entries (n + 1)).foldlM (readdirStep block count offset) s with
      | error exit => cases exit <;> exact .inl rfl
      | ok t => exact (ih hrest).imp_right (And.imp_right succ_lt_succ)

theorem fatReaddirFrom_eq (hl : vol.Clusters first l) (hfuel : l.length ≤ fuel) :
    fatReaddirFrom vol block count offset fuel first s =
      readdirEnd ((vol.scan l).foldlM (readdirStep block count offset) s) :=
  (fatReaddirFrom_cases hl).resolve_right fun h => not_lt.mpr hfuel h.2

section
variable (hdir : self.type = .dir) (hl : vol.Clusters self.firstCluster l) (hfuel : l.length ≤ fuel)
  (hcomplete : lfnComplete .between ((vol.scan l).map Prod.snd) = true)
include hdir hl hfuel hcomplete

theorem fatReaddir_page (count : ℕ) (hnew : lfn.newEntry = true)
    (hsplit : listing block lfn none (vol.scan l) = before ++ rest)
    (hoffset : offset = weight DirRecord.reclen before) : ∃ buf lfn', lfn'.newEntry = true ∧
      buf.map record = takeFit DirRecord.reclen count rest ∧
      fatReaddir vol block fuel self lfn count offset =
        .ok (weight DirRecord.reclen (takeFit DirRecord.reclen count rest), buf, lfn') := by
  have hok : (⟨lfn, false, none, 0, 0, 0, 0, []⟩ : Readdir).Ok .between :=
    ⟨rfl, hnew, rfl, nofun⟩
  obtain ⟨t, ht, htnew, hpage⟩ := @foldlM_page block count offset _ _ (vol.scan l) hok hcomplete
  have hlisting : listing block lfn (Readdir.pending ⟨lfn, false, none, 0, 0, 0, 0, []⟩) (vol.scan l) =
      before ++ rest := hsplit
  have hpos : ∀ r ∈ rest, 0 < r.reclen := fun r hr =>
    listing_pos r (hsplit ▸ mem_append_right _ hr)
  dsimp only at hpage
  rw [hlisting, map_nil, readPage_skip (by omega), readPage_take le_rfl hpos (zero_le _),
    Nat.zero_add, nil_append, Nat.sub_zero] at hpage
  obtain ⟨hbytes, hbuf⟩ := Prod.mk.inj hpage
  refine ⟨t.buf, t.lfn, htnew, hbuf, ?_⟩
  rw [fatReaddir, if_neg (by simp [hdir]), fatReaddirFrom_eq hl hfuel, ht, ← hbytes]
  rfl

theorem getdentsAll_pages {calls : ℕ} {records : List DirRecord}
    (hrecords : ∀ lfn : Lfn, lfn.newEntry = true → listing block lfn none (vol.scan l) = records)
    (hcount : ∀ r ∈ records, r.reclen ≤ count) (hnew : lfn.newEntry = true)
    (hsplit : records = before ++ rest) (hcalls : rest.length < calls) :
    ∃ pages, getdentsAll vol block fuel self count calls lfn (weight DirRecord.reclen before) =
        .ok pages ∧
      (∀ p ∈ pages, weight DirRecord.reclen (p.map record) ≤ count) ∧
      pages.flatten.map record = rest := by
  induction calls generalizing lfn before rest with
  | zero => omega
  | succ calls ih =>
    obtain ⟨buf, lfn', hnew', hbuf, hcall⟩ := fatReaddir_page hdir hl hfuel hcomplete count hnew
      ((hrecords lfn hnew).trans hsplit) rfl
    rw [getdentsAll, hcall, ok_bind]
    have hrest : ∀ r ∈ rest, r ∈ records := fun r hr => hsplit ▸ mem_append_right _ hr
    by_cases hempty : rest = []
    · subst hempty
      exact ⟨[], rfl, nofun, rfl⟩
    · set page := takeFit DirRecord.reclen count rest
      have hpage : page ++ dropFit DirRecord.reclen count rest = rest := takeFit_append_dropFit
      have hne : page ≠ [] := takeFit_ne_nil hempty fun r hr => hcount r (hrest r hr)
      have hpos : 0 < weight DirRecord.reclen page := by
        refine weight_pos hne fun r hr => ?_
        have hmem : r ∈ rest := hpage ▸ mem_append_left _ hr
        exact listing_pos r ((hrecords lfn hnew).symm ▸ hrest r hmem)
      have hsplit' : records = (before ++ page) ++ dropFit DirRecord.reclen count rest := by
        rw [append_assoc, hpage, hsplit]
      have hshort : (dropFit DirRecord.reclen count rest).length < calls := by
        have hlen := congrArg length hpage
        have hpos := length_pos_iff.mpr hne
        rw [length_append] at hlen
        omega
      obtain ⟨pages, hpages, hfit, hflat⟩ := ih hnew' hsplit' hshort
      have hoffset : weight DirRecord.reclen before +
          ((weight DirRecord.reclen page : ℕ) : ℤ).toNat = weight DirRecord.reclen (before ++ page) := by
        rw [weight_append, Int.toNat_natCast]
      refine ⟨buf :: pages, ?_, ?_, ?_⟩
      · dsimp only
        rw [if_neg (by omega), hoffset, hpages]
        rfl
      · intro p hp
        obtain rfl | hp := mem_cons.mp hp
        · rw [hbuf]
          exact weight_takeFit_le
        · exact hfit p hp
      · rw [flatten_cons, map_append, hbuf, hflat, hpage]

/-- The calls of `getdents` on a directory, from offset 0 on, end, each fills the buffer up to
`count` at most, and together they give the records of the directory, as one call with a buffer large
enough does. -/
theorem getdents_lossless (hfixed : FixedNames block (vol.scan l)) (hnew : lfn.newEntry = true)
    (hcount : ∀ r ∈ listing block lfn none (vol.scan l), r.reclen ≤ count) :
    ∀ calls > (listing block lfn none (vol.scan l)).length,
      ∃ pages, getdentsAll vol block fuel self count calls lfn 0 = .ok pages ∧
        (∀ p ∈ pages, weight reclen p ≤ count) ∧
        pages.flatten.map record = listing block lfn none (vol.scan l) ∧
        ∀ n ≥ weight DirRecord.reclen (listing block lfn none (vol.scan l)),
          ∃ ret buf lfn', fatReaddir vol block fuel self lfn n 0 = .ok (ret, buf, lfn') ∧
            pages.flatten.map record = buf.map record := by
  intro calls hcalls
  obtain ⟨pages, hpages, hfit, hflat⟩ := getdentsAll_pages hdir hl hfuel hcomplete
    (fun lfn' hnew' => hfixed lfn' lfn hnew' hnew) hcount hnew (nil_append _).symm hcalls
  refine ⟨pages, hpages, fun p hp => ?_, hflat, fun n hn => ?_⟩
  · have hp' := hfit p hp
    rwa [weight, map_map] at hp'
  · obtain ⟨buf, lfn', -, hbuf, hcall⟩ := fatReaddir_page hdir hl hfuel hcomplete n hnew
      (nil_append _).symm rfl
    rw [takeFit_eq_self hn] at hbuf
    exact ⟨_, buf, lfn', hcall, hflat.trans hbuf.symm⟩

end

/-- A file with a long name, and one with a short name. -/
def sampleSector : List DirEntry :=
  [fun i => [0x41, 0x61, 0, 0x2E, 0, 0x74, 0, 0, 0, 0xFF, 0xFF, 0x0F, 0, 0, 0xFF, 0xFF, 0xFF, 0xFF,
      0xFF, 0xFF, 0xFF, 0xFF, 0xFF, 0xFF, 0xFF, 0xFF, 0, 0, 0xFF, 0xFF, 0xFF, 0xFF].getD i.val 0,
    fun i => [0x41, 0x7E, 0x31, 0x20, 0x20, 0x20, 0x20, 0x20, 0x54, 0x20, 0x20, 0].getD i.val 0,
    fun i => [0x42, 0x20, 0x20, 0x20, 0x20, 0x20, 0x20, 0x20, 0x43, 0x20, 0x20, 0x20].getD i.val 0,
    fun _ => 0]

def sampleVolume : FatVolume where
  sectorsPerCluster := 1
  firstDataSector := 0
  directories := fun sector => if sector = 0 then sampleSector else []
  fat := fun _ => 0x0FFFFFF8

theorem listing_sample :
    listing (fun _ => ⟨0, fun _ => 0⟩) ⟨0, true, fun _ => 0⟩ none (sampleVolume.scan [2]) =
      [⟨2, .reg, 23, [0x61, 0x2E, 0x74]⟩, ⟨2, .reg, 23, [0x42, 0x2E, 0x43]⟩] := by decide

/-- Two calls with room for one record each. -/
theorem getdents_lossless_two : ∃ pages,
    getdentsAll sampleVolume (fun _ => ⟨0, fun _ => 0⟩) 1 ⟨[], .dir, 0, 2⟩ 23 3
      ⟨0, true, fun _ => 0⟩ 0 = .ok pages ∧ (∀ p ∈ pages, weight reclen p ≤ 23) ∧
    ∃ ret buf lfn', fatReaddir sampleVolume (fun _ => ⟨0, fun _ => 0⟩) 1 ⟨[], .dir, 0, 2⟩
        ⟨0, true, fun _ => 0⟩ 46 0 = .ok (ret, buf, lfn') ∧
      pages.flatten.map record = buf.map record := by
  obtain ⟨pages, hpages, hfit, -, hsame⟩ :=
    @getdents_lossless sampleVolume (fun _ => ⟨0, fun _ => 0⟩) 23
    1 [2] ⟨[], .dir, 0, 2⟩ ⟨0, true, fun _ => 0⟩ rfl ⟨rfl, rfl⟩ le_rfl (by decide)
    (fixedNames_of_written (by decide)) rfl (by rw [listing_sample]; decide) 3
    (by rw [listing_sample]; decide)
  exact ⟨pages, hpages, hfit, hsame 46 (by rw [listing_sample]; decide)⟩

end Volumes

end GarnOS
