import GarnOS.Mem.Memutil
import GarnOS.Library.Objects

/-! Vnodes: the list of open ones, path lookup, `vnode_open` and `vnode_close`. The spinlocks, the
log messages, the access times and the drivers' private data are left out. -/
namespace GarnOS
open Outcome

def O_DIRECTORY : BitVec 32 := 1 <<< 16

inductive VnodeType where
  | non | reg | dir | blk | chr | lnk | sock | bad
  deriving DecidableEq, Repr

/-- Whether the `vn_lookup` and `vn_inactive` of a vnode's operations are set. -/
structure VnodeOps where
  lookup : Bool
  inactive : Bool
  deriving DecidableEq, Repr

/-- `vnode_t`. A name is the list of its characters, without the terminating NUL. -/
structure Vnode where
  filename : List Char
  mode : BitVec 32
  flags : BitVec 32
  type : VnodeType
  size : ℕ
  refCount : ℤ
  vfsMountedHere : Option ℕ
  vfs : ℕ
  ops : VnodeOps
  next : Option ℕ
  prev : Option ℕ
  deriving DecidableEq, Repr

/-- What a driver puts into the vnode of a file it has found. -/
structure Entry where
  filename : List Char
  type : VnodeType
  size : ℕ
  ops : VnodeOps
  deriving DecidableEq, Repr

/-- The answer of a driver; a missing file may set `kerrno`. -/
inductive Found where
  | found (entry : Entry)
  | missing (kerrno : Option ℤ)
  deriving DecidableEq, Repr

/-- `vfs_t`. The search of the driver is a function of the directory's filename and the name: the
archive of the initrd, the directory clusters of a FAT volume, the fixed entries of devfs. -/
structure Vfs where
  fid : ℕ
  rootVnode : ℕ
  find : List Char → List Char → Found

abbrev VnodeMem := Objects Vnode

abbrev Kmalloc := Objects.Allocator Vnode

/-- A vnode when it is freed, with the file systems that are mounted then. -/
structure FreedVnode where
  addr : ℕ
  vnode : Vnode
  vfss : ℕ → Option Vfs

/-- The vnodes with the globals of the file layer. `frees` records what was freed; nothing reads
it. -/
structure Fal where
  mem : VnodeMem
  vnodeListHead : Option ℕ
  vnodeListTail : Option ℕ
  vfss : ℕ → Option Vfs
  rootVFS : ℕ
  kerrno : ℤ
  frees : List FreedVnode

namespace Fal

/-- Reading a vnode; one that was freed is no longer an object. -/
def vnode (s : Fal) (a : ℕ) : Except Fault Vnode :=
  match s.mem.get a with
  | some v => .ok v
  | none => .error (.overrun a)

def vfs (s : Fal) (f : ℕ) : Except Fault Vfs :=
  match s.vfss f with
  | some x => .ok x
  | none => .error (.overrun f)

def setVnode (s : Fal) (a : ℕ) (v : Vnode) : Fal := { s with mem := s.mem.set a v }

/-- The vnode `v` at the address `a` goes back to the heap. -/
def dropVnode (s : Fal) (a : ℕ) (v : Vnode) : Fal :=
  { s with mem := s.mem.free a, frees := ⟨a, v, s.vfss⟩ :: s.frees }

def next (s : Fal) (a : ℕ) : Option ℕ := (s.mem.get a).bind Vnode.next

def prev (s : Fal) (a : ℕ) : Option ℕ := (s.mem.get a).bind Vnode.prev

end Fal

def vnodeListAdd (s : Fal) (a : ℕ) : Except Fault Fal := do
  match s.vnodeListHead with
  | none =>
    let v ← s.vnode a
    return { s.setVnode a { v with next := none, prev := none } with
      vnodeListHead := some a, vnodeListTail := some a }
  | some _ =>
    match s.vnodeListTail with
    | none => .error (.pageFault 0)
    | some t =>
      let last ← s.vnode t
      let s := s.setVnode t { last with next := some a }
      let v ← s.vnode a
      return { s.setVnode a { v with prev := some t, next := none } with vnodeListTail := some a }

def vnodeStorePrev (s : Fal) (n p : Option ℕ) : Except Fault Fal :=
  match n with
  | none => .ok s
  | some n => do
    let v ← s.vnode n
    return s.setVnode n { v with prev := p }

def vnodeStoreNext (s : Fal) (p n : Option ℕ) : Except Fault Fal :=
  match p with
  | none => .ok s
  | some p => do
    let v ← s.vnode p
    return s.setVnode p { v with next := n }

/-- The stores of `vnode_list_remove` to the neighbours, each through the vnode's links as they are
then. -/
def vnodeUnlink (s : Fal) (a : ℕ) : Except Fault Fal := do
  let v ← s.vnode a
  let s ← vnodeStorePrev s v.next v.prev
  let v ← s.vnode a
  vnodeStoreNext s v.prev v.next

def vnodeListRemove (s : Fal) (a : ℕ) : Except Fault Fal := do
  let v ← s.vnode a
  let tail := if s.vnodeListTail = some a then v.prev else s.vnodeListTail
  let head := if s.vnodeListHead = some a then v.next else s.vnodeListHead
  vnodeUnlink { s with vnodeListTail := tail, vnodeListHead := head } a

/-- The loop of `vnode_list_search_by_filename` from `i` on. More than `fuel` vnodes are only met on
a list with a cycle. -/
def vnodeListSearchFrom (s : Fal) (vfs : ℕ) (filename : List Char) :
    ℕ → Option ℕ → Except Fault (Option ℕ)
  | _, none => .ok none
  | 0, some _ => .error .diverges
  | fuel + 1, some i => do
    let v ← s.vnode i
    let own ← s.vfs v.vfs
    let given ← s.vfs vfs
    if own.fid = given.fid ∧ v.filename = filename then return some i
    else vnodeListSearchFrom s vfs filename fuel v.next

def vnodeListSearchByFilename (s : Fal) (vfs : ℕ) (filename : List Char) :
    Except Fault (Option ℕ) :=
  vnodeListSearchFrom s vfs filename s.mem.bound s.vnodeListHead

/-- `vnode_new`, with the fields that the driver then sets. -/
def vnodeNew (k : Kmalloc) (s : Fal) (vfs : ℕ) (e : Entry) : ℕ × Fal :=
  let a := k.alloc s.mem
  (a, s.setVnode a
    { filename := e.filename, mode := 0, flags := 0, type := e.type, size := e.size, refCount := 0
      vfsMountedHere := none, vfs := vfs, ops := e.ops, next := none, prev := none })

/-- What the drivers' `vn_inactive` and `kmfree` do. -/
def vnodeFree (s : Fal) (a : ℕ) : Except Fault Fal := do
  let v ← s.vnode a
  return s.dropVnode a v

/-- The `vn_lookup` of the drivers: the open vnodes first, then the driver's own search. The full
name goes into a buffer of 256 bytes. -/
def fsLookup (k : Kmalloc) (s : Fal) (self : ℕ) (name : List Char) :
    Except Fault (Option ℕ × Fal) := do
  let dir ← s.vnode self
  if dir.type ≠ .dir then return (none, { s with kerrno := ENOTDIR })
  let fullname := dir.filename ++ name
  if 256 ≤ fullname.length then .error (.overrun 256)
  else
    match ← vnodeListSearchByFilename s dir.vfs fullname with
    | some a => return (some a, s)
    | none =>
      let fs ← s.vfs dir.vfs
      match fs.find dir.filename name with
      | .missing none => return (none, s)
      | .missing (some e) => return (none, { s with kerrno := e })
      | .found e =>
        let (a, s) := vnodeNew k s dir.vfs e
        return (some a, s)

/-- The next component of a path, with the slash that ends it, and the rest. -/
def nextName : List Char → List Char × List Char
  | [] => ([], [])
  | c :: cs => if c = '/' then (['/'], cs) else ((c :: (nextName cs).1), (nextName cs).2)

/-- Where the loop of `vnode_lookup` is: the file system, the vnode reached and the path left. -/
structure Cursor where
  vfs : ℕ
  vnode : ℕ
  rest : List Char

/-- The vnode that was searched is recycled unless it is the root of its file system. -/
def lookupRecycle (s : Fal) (c : Cursor) (ops : VnodeOps) : Except Fault Fal := do
  let vfs ← s.vfs c.vfs
  if c.vnode ≠ vfs.rootVnode ∧ ops.inactive then vnodeFree s c.vnode else return s

/-- Go on at the vnode found, or at the root of what is mounted there. -/
def lookupEnter (s : Fal) (c : Cursor) (a : ℕ) : Except Fault Cursor := do
  let v ← s.vnode a
  match v.vfsMountedHere with
  | none => return ⟨c.vfs, a, (nextName c.rest).2⟩
  | some f =>
    let mounted ← s.vfs f
    return ⟨f, mounted.rootVnode, (nextName c.rest).2⟩

/-- One round of the loop. The component goes into a buffer of 256 bytes. -/
def lookupStep (k : Kmalloc) (s : Fal) (c : Cursor) : Except Fault (Option Cursor × Fal) := do
  let dirname := (nextName c.rest).1
  if 256 ≤ dirname.length then .error (.overrun 256)
  else
    let dir ← s.vnode c.vnode
    if dir.ops.lookup = false then return (none, { s with kerrno := EINVAL })
    else
      let (r, s) ← fsLookup k s c.vnode dirname
      let s ← lookupRecycle s c dir.ops
      match r with
      | none => return (none, s)
      | some a =>
        let c ← lookupEnter s c a
        return (some c, s)

/-- The loop of `vnode_lookup`; each round takes a character at least. -/
def vnodeLookupFrom (k : Kmalloc) : ℕ → Fal → Cursor → Except Fault (Option ℕ × Fal)
  | 0, s, c => if c.rest = [] then .ok (some c.vnode, s) else .error .diverges
  | fuel + 1, s, c =>
    if c.rest = [] then .ok (some c.vnode, s)
    else do
      match ← lookupStep k s c with
      | (none, s) => return (none, s)
      | (some c', s) => vnodeLookupFrom k fuel s c'

def vnodeLookup (k : Kmalloc) (s : Fal) (path : List Char) : Except Fault (Option ℕ × Fal) := do
  let s := { s with kerrno := 0 }
  match path with
  | '/' :: rest =>
    let root ← s.vfs s.rootVFS
    vnodeLookupFrom k rest.length s ⟨s.rootVFS, root.rootVnode, rest⟩
  | _ => return (none, { s with kerrno := EINVAL })

def vnodeOpenAt (s : Fal) (a : ℕ) (path : List Char) (flags mode : BitVec 32) :
    Except Fault (Option ℕ × Fal) := do
  let v ← s.vnode a
  if flags &&& O_DIRECTORY ≠ 0 ∧ v.type ≠ .dir then return (none, { s with kerrno := ENOTDIR })
  else if flags &&& O_DIRECTORY = 0 ∧ v.type = .dir then return (none, { s with kerrno := EISDIR })
  else
    let s := s.setVnode a { v with refCount := v.refCount + 1 }
    match ← vnodeListSearchByFilename s v.vfs path with
    | some _ => return (some a, s)
    | none =>
      let s ← vnodeListAdd s a
      let v ← s.vnode a
      return (some a, s.setVnode a { v with flags := flags, mode := mode })

def vnodeOpen (k : Kmalloc) (s : Fal) (path : List Char) (flags mode : BitVec 32) :
    Except Fault (Option ℕ × Fal) := do
  match ← vnodeLookup k s path with
  | (none, s) => return (none, s)
  | (some a, s) => vnodeOpenAt s a path flags mode

def vnodeClose (s : Fal) (a : ℕ) : Except Fault Fal := do
  let v ← s.vnode a
  let s := { s.setVnode a { v with refCount := v.refCount - 1 } with kerrno := 0 }
  if v.refCount - 1 = 0 then
    let s ← vnodeListRemove s a
    vnodeFree s a
  else return s

/-- What `initrd_lookup` reads of a member of the archive. -/
structure TarMember where
  filename : List Char
  type : VnodeType
  size : ℕ
  deriving DecidableEq, Repr

def initrdVnodeOps : VnodeOps := ⟨true, true⟩

/-- The loop of `initrd_lookup` over the archive: the first member with the full name. -/
def initrdFind (members : List TarMember) (dir name : List Char) : Found :=
  match members.find? fun m => m.filename = dir ++ name with
  | some m => .found ⟨dir ++ name, m.type, m.size, initrdVnodeOps⟩
  | none => .missing (some ENOENT)

/-- After `initrd_init`: the archive is mounted as root and no file is open. -/
def initrdInit (members : List TarMember) : Fal where
  mem := Objects.empty.set 0
    { filename := [], mode := 0, flags := 0, type := .dir, size := 0, refCount := 0
      vfsMountedHere := none, vfs := 0, ops := initrdVnodeOps, next := none, prev := none }
  vnodeListHead := none
  vnodeListTail := none
  vfss := fun f => if f = 0 then some ⟨0, 0, initrdFind members⟩ else none
  rootVFS := 0
  kerrno := 0
  frees := []

end GarnOS
