import GarnOS.Fal.Vnode
import GarnOS.Library.Chain

/-! Directories of a FAT32 volume: the names of their entries, `fat_readdir` and `fat_lookup`. Reads
of the drive succeed, and a sector is a whole number of entries. -/
namespace GarnOS
open Outcome

/-- The 32 bytes that are a `fat_directory_t` or a `fat_lfn_t`. -/
abbrev DirEntry := Fin 32 → UInt8

/-- For the literals that index an entry. -/
instance neZero_dirEntry : NeZero 32 := ⟨by decide⟩

def FAT_ATTR_DIRECTORY : UInt8 := 0x10
def FAT_ATTR_LFN : UInt8 := 0x0F

namespace DirEntry

def attrib (e : DirEntry) : UInt8 := e 11

def ord (e : DirEntry) : UInt8 := e 0

def isDirectory (e : DirEntry) : Bool := e.attrib &&& FAT_ATTR_DIRECTORY ≠ 0

def base (e : DirEntry) : List UInt8 := [e 0, e 1, e 2, e 3, e 4, e 5, e 6, e 7]

def ext (e : DirEntry) : List UInt8 := [e 8, e 9, e 10]

/-- The characters of a long name in the order in which they are read: `name3`, `name2` and `name1`,
each from its end. -/
def chars (e : DirEntry) : List (UInt8 × UInt8) :=
  [(e 30, e 31), (e 28, e 29), (e 24, e 25), (e 22, e 23), (e 20, e 21), (e 18, e 19), (e 16, e 17),
    (e 14, e 15), (e 9, e 10), (e 7, e 8), (e 5, e 6), (e 3, e 4), (e 1, e 2)]

/-- The last entry of a long name, right before the short one. -/
def endsLfn (e : DirEntry) : Bool := e.ord = 0x1 ∨ e.ord = 0x41

end DirEntry

def cString (l : List UInt8) : List UInt8 := l.takeWhile (· ≠ 0)

/-- What `kmalloc` left in a new block, and the byte before it. -/
structure SfnBlock where
  before : UInt8
  fresh : ℕ → UInt8

/-- The byte of a file's name behind the base: it is set to a dot only before an extension. -/
def sfnDot (b : SfnBlock) (e : DirEntry) (base : List UInt8) : UInt8 :=
  if base.getLast?.getD b.before ≠ 0x2E ∧ e 8 ≠ 0x20 then 0x2E else b.fresh base.length

/-- `fat_parse_sfn`. The extension of a directory is written over the dot. -/
def fatParseSfn (b : SfnBlock) (e : DirEntry) : List UInt8 :=
  let base := e.base.takeWhile (· ≠ 0x20)
  let ext := e.ext.takeWhile (· ≠ 0x20)
  cString (base ++ (if e.isDirectory then ext else sfnDot b e base :: ext))

structure Lfn where
  charIndex : UInt8
  newEntry : Bool
  workBuffer : UInt8 → UInt8

namespace Lfn

def put (s : Lfn) (c : UInt8 × UInt8) : Lfn :=
  if c = (0xFF, 0xFF) then s
  else { s with
    workBuffer := Function.update s.workBuffer s.charIndex c.1
    charIndex := s.charIndex - 1 }

/-- The first entry of a name starts at the end of the buffer. -/
def start (s : Lfn) : Lfn :=
  if s.newEntry then { s with newEntry := false, charIndex := 255 } else s

def drop (s : Lfn) (i : UInt8) : List UInt8 :=
  (List.range (256 - i.toNat)).map fun j => s.workBuffer (i + UInt8.ofNat j)

/-- The name in the buffer; NULL if its last byte is not a NUL. -/
def retrieve (s : Lfn) : Option (List UInt8) :=
  if s.workBuffer 255 ≠ 0 then none else some (cString (s.drop s.charIndex))

end Lfn

/-- `fat_parse_lfn`: a name is retrieved with the last of its entries. -/
def fatParseLfn (s : Lfn) (e : DirEntry) : Option (List UInt8) × Lfn :=
  let s := e.chars.foldl Lfn.put s.start
  if e.endsLfn then
    let s := { s with charIndex := s.charIndex + 1, newEntry := true }
    (s.retrieve, s)
  else (none, s)

/-- What the functions use of a mounted FAT32 volume: the geometry, the entries of each sector and
the file allocation table. -/
structure FatVolume where
  sectorsPerCluster : ℕ
  firstDataSector : ℕ
  directories : ℕ → List DirEntry
  fat : ℕ → ℕ

namespace FatVolume

/-- The sectors of a cluster; the first is found with wrapping arithmetic. -/
def sectors (vol : FatVolume) (cluster : ℕ) : List ℕ :=
  let first := (vol.firstDataSector +
    vol.sectorsPerCluster * ((cluster + 2 ^ 64 - 2) % 2 ^ 64)) % 2 ^ 64
  (List.range vol.sectorsPerCluster).map (first + ·)

def nextCluster (vol : FatVolume) (cluster : ℕ) : ℕ :=
  if 0x0FFFFF6 ≤ vol.fat cluster then 0 else vol.fat cluster

end FatVolume

structure FatVnode where
  filename : List UInt8
  type : VnodeType
  size : ℕ
  firstCluster : ℕ
  deriving DecidableEq, Repr

inductive DirentType where
  | dir | reg
  deriving DecidableEq, Repr

structure Dirent where
  inode : ℕ
  offset : ℕ
  reclen : ℕ
  type : DirentType
  name : List UInt8
  deriving DecidableEq, Repr

def DIRENT_SIZE : ℕ := 20

def DirEntry.type (e : DirEntry) : DirentType := if e.isDirectory then .dir else .reg

/-- The variables of `fat_readdir`, and the records in `buf` up to `bufind`. -/
structure Readdir where
  lfn : Lfn
  lfnParsedFirst : Bool
  str : Option (List UInt8)
  direntOffset : ℕ
  trueOffset : ℕ
  bytesRead : ℕ
  bytesReadFromOffset : ℕ
  buf : List Dirent

/-- How the loops are left: by `return`, or by an access through NULL. -/
inductive ReaddirExit where
  | returned (s : Readdir)
  | fault (f : Fault)

def fatReaddirRecord (count offset cluster : ℕ) (type : DirentType) (str : List UInt8)
    (s : Readdir) : Except ReaddirExit Readdir :=
  let reclen := (DIRENT_SIZE + str.length) % 2 ^ 16
  let s := { s with bytesRead := s.bytesRead + reclen }
  if s.bytesRead ≤ offset then .ok { s with bytesReadFromOffset := 0, buf := [] }
  else
    let s := { s with bytesReadFromOffset := s.bytesReadFromOffset + (DIRENT_SIZE + str.length) }
    if count < s.bytesReadFromOffset ∧ ¬s.bytesRead < offset then
      .error (.returned { s with
        bytesReadFromOffset := s.bytesReadFromOffset - (DIRENT_SIZE + str.length) })
    else
      let s := if count < s.bytesReadFromOffset then { s with bytesReadFromOffset := reclen, buf := [] }
        else s
      .ok { s with
        buf := s.buf ++ [⟨cluster, s.direntOffset, reclen, type, str⟩]
        direntOffset := s.direntOffset + 32
        trueOffset := s.trueOffset + 32 }

def fatReaddirEntry (block : DirEntry → SfnBlock) (count offset cluster : ℕ) (s : Readdir)
    (e : DirEntry) : Except ReaddirExit Readdir :=
  if s.direntOffset < s.trueOffset then .ok { s with direntOffset := s.direntOffset + 32 }
  else if e 0 = 0 then .ok s
  else if e.attrib = FAT_ATTR_LFN then
    let (str, lfn) := fatParseLfn s.lfn e
    .ok { s with
      lfn := lfn
      str := str
      lfnParsedFirst := s.lfnParsedFirst || str.isSome
      trueOffset := s.trueOffset + 32
      direntOffset := s.direntOffset + 32 }
  else
    let str := if s.lfnParsedFirst then s.str else some (fatParseSfn (block e) e)
    match str with
    | none => .error (.fault (.pageFault 0))
    | some name =>
      fatReaddirRecord count offset cluster e.type name { s with lfnParsedFirst := false, str := str }

def fatReaddirCluster (vol : FatVolume) (block : DirEntry → SfnBlock) (count offset cluster : ℕ)
    (s : Readdir) : Except ReaddirExit Readdir :=
  (vol.sectors cluster).foldlM
    (fun s sector => (vol.directories sector).foldlM (fatReaddirEntry block count offset cluster) s) s

/-- The loop over the clusters. More than `fuel` of them are only met in a chain with a cycle, if
`fuel` is as large as the volume. -/
def fatReaddirFrom (vol : FatVolume) (block : DirEntry → SfnBlock) (count offset : ℕ) :
    ℕ → ℕ → Readdir → Except Fault Readdir
  | _, 0, s => .ok s
  | 0, _ + 1, _ => .error .diverges
  | fuel + 1, cluster + 1, s =>
    match fatReaddirCluster vol block count offset (cluster + 1) s with
    | .error (.returned s) => .ok s
    | .error (.fault f) => .error f
    | .ok s => fatReaddirFrom vol block count offset fuel (vol.nextCluster (cluster + 1)) s

/-- `fat_readdir`: the value returned, what is in the buffer, and the globals. -/
def fatReaddir (vol : FatVolume) (block : DirEntry → SfnBlock) (fuel : ℕ) (self : FatVnode)
    (lfn : Lfn)
    (count offset : ℕ) : Except Fault (ℤ × List Dirent × Lfn) := do
  if self.type ≠ .dir then return (-ENOTDIR, [], lfn)
  else
    let s ← fatReaddirFrom vol block count offset fuel self.firstCluster
      ⟨lfn, false, none, 0, 0, 0, 0, []⟩
    return (s.bytesReadFromOffset, s.buf, s.lfn)

/-- The calls of `sys_getdents` until one returns 0 or an error: the contents of the buffer after
each. The offset of the descriptor advances by what is returned. -/
def getdentsAll (vol : FatVolume) (block : DirEntry → SfnBlock) (fuel : ℕ) (self : FatVnode)
    (count : ℕ) : ℕ → Lfn → ℕ → Except Fault (List (List Dirent))
  | 0, _, _ => .error .diverges
  | calls + 1, lfn, offset => do
    let (n, buf, lfn) ← fatReaddir vol block fuel self lfn count offset
    if n ≤ 0 then return []
    else return buf :: (← getdentsAll vol block fuel self count calls lfn (offset + n.toNat))

/-- The variables of `fat_lookup` that live from entry to entry. -/
structure Search where
  lfn : Lfn
  isLFN : Bool
  foundByLFN : Bool

/-- How the body of the innermost loop ends: with the next entry, by leaving the loop over the
sector, or at `fat32_found`. -/
inductive SearchStep where
  | next (s : Search)
  | leave
  | found (s : Search)

def fatLookupEntry (block : DirEntry → SfnBlock) (lookFor : List UInt8) (s : Search)
    (e : DirEntry) :
    SearchStep :=
  if e 0 = 0xE5 then .next s
  else if e 0 = 0 then .leave
  else if e.attrib &&& FAT_ATTR_LFN ≠ 0 then
    let (retrievedName, lfn) := fatParseLfn s.lfn e
    .next ⟨lfn, true, s.foundByLFN || retrievedName = some lookFor⟩
  else if s.isLFN && !s.foundByLFN then .next { s with isLFN := false }
  else if s.foundByLFN then .found { s with isLFN := false, foundByLFN := false }
  else if fatParseSfn (block e) e = lookFor then .found s
  else .next s

/-- The innermost loop of `fat_lookup`, with the entry it finds. -/
def fatLookupSector (block : DirEntry → SfnBlock) (lookFor : List UInt8) :
    Search → List DirEntry → Search × Option DirEntry
  | s, [] => (s, none)
  | s, e :: es =>
    match fatLookupEntry block lookFor s e with
    | .next s => fatLookupSector block lookFor s es
    | .leave => (s, none)
    | .found s => (s, some e)

def fatLookupSectors (vol : FatVolume) (block : DirEntry → SfnBlock) (lookFor : List UInt8) :
    Search → List ℕ → Search × Option DirEntry
  | s, [] => (s, none)
  | s, sector :: rest =>
    match fatLookupSector block lookFor s (vol.directories sector) with
    | (s, some e) => (s, some e)
    | (s, none) => fatLookupSectors vol block lookFor s rest

def fatLookupFrom (vol : FatVolume) (block : DirEntry → SfnBlock) (lookFor : List UInt8) :
    ℕ → ℕ → Search → Except Fault (Search × Option DirEntry)
  | 0, _, _ => .error .diverges
  | fuel + 1, cluster, s =>
    match fatLookupSectors vol block lookFor s (vol.sectors cluster) with
    | (s, some e) => .ok (s, some e)
    | (s, none) =>
      if vol.nextCluster cluster = 0 then .ok (s, none)
      else fatLookupFrom vol block lookFor fuel (vol.nextCluster cluster) s

/-- The name without the slash that ends a component. -/
def stripSlash (name : List UInt8) : List UInt8 :=
  if name.getLast? = some 0x2F then name.dropLast else name

def DirEntry.firstCluster (e : DirEntry) : ℕ :=
  (e 26).toNat + 256 * (e 27).toNat + 65536 * ((e 20).toNat + 256 * (e 21).toNat)

def DirEntry.size (e : DirEntry) : ℕ :=
  (e 28).toNat + 256 * ((e 29).toNat + 256 * ((e 30).toNat + 256 * (e 31).toNat))

/-- `fat_lookup` when no open vnode has the name: the vnode, or the error. The index of the last byte
of an empty name is `strlen(lookFor)-1` in 32 bits. -/
def fatLookup (vol : FatVolume) (block : DirEntry → SfnBlock) (fuel : ℕ) (self : FatVnode)
    (lfn : Lfn)
    (name : List UInt8) : Except Fault (Except ℤ FatVnode × Lfn) := do
  if self.type ≠ .dir then return (.error ENOTDIR, lfn)
  else if 256 ≤ (self.filename ++ name).length then .error (.overrun 256)
  else if name = [] then .error (.overrun (2 ^ 32 - 1))
  else
    match ← fatLookupFrom vol block (stripSlash name) fuel self.firstCluster ⟨lfn, false, false⟩ with
    | (s, some e) =>
      let type := if e.isDirectory then VnodeType.dir else .reg
      return (.ok ⟨self.filename ++ name, type, e.size, e.firstCluster⟩, s.lfn)
    | (s, none) => return (.error ENOENT, s.lfn)

end GarnOS
