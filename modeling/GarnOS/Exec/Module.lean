import GarnOS.Exec.Elf
import GarnOS.Fal.Initrd

/-! The loader of kernel modules and drivers. Memory is addressed by 64-bit pointers; of the heap
the model keeps which blocks are live. Locks, log messages and the call of the module's `init` are
left out. -/
namespace GarnOS.ModuleLoader
open ByteMemory Outcome

def ET_REL : ℕ := 1
def SHT_SYMTAB : ℕ := 2
def SHT_RELA : ℕ := 4
def SHT_NOBITS : ℕ := 8
def SHF_ALLOC : ℕ := 2
def SHN_UNDEF : ℕ := 0
def SHN_LORESERVE : ℕ := 0xff00
def R_X86_64_64 : ℕ := 1
def R_X86_64_PC32 : ℕ := 2
def R_X86_64_32 : ℕ := 10

def sizeofEhdr : ℕ := 64
def sizeofSym : ℕ := 24
def sizeofRela : ℕ := 24
def sizeofModule : ℕ := 24
def sizeofModListEntry : ℕ := 24
def sizeofListNode : ℕ := 16
def sizeofDeviceDriver : ℕ := 32

def field (m : Mem) (a n : ℕ) : ℕ := leField (byteAt m) a n

def storeField (m : Mem) (a : ℕ) : ℕ → ℕ → Mem
  | 0, _ => m
  | n + 1, v => storeField (Function.update m (a % 2 ^ 64) (BitVec.ofNat 8 v)) (a + 1) n (v / 256)

def storeBytes (m : Mem) (a : ℕ) : List (BitVec 8) → Mem
  | [] => m
  | b :: bs => storeBytes (Function.update m (a % 2 ^ 64) b) (a + 1) bs

/-- The loop of `strlen`; without a NUL in memory it does not end. -/
def strlenFrom (m : Mem) : ℕ → ℕ → Except Fault ℕ
  | 0, _ => .error .diverges
  | fuel + 1, a => if byteAt m a = 0 then .ok 0 else do return (← strlenFrom m fuel (a + 1)) + 1

def strlen (m : Mem) (a : ℕ) : Except Fault ℕ := do return (← strlenFrom m (2 ^ 64) a) % 2 ^ 32

/-- Whether `strcmp` of two strings in memory is zero. -/
def strcmpZero (m : Mem) : ℕ → ℕ → ℕ → Except Fault Bool
  | 0, _, _ => .error .diverges
  | fuel + 1, a, b =>
    if byteAt m a ≠ 0 ∧ byteAt m b ≠ 0 ∧ byteAt m a = byteAt m b then
      strcmpZero m fuel (a + 1) (b + 1)
    else .ok (byteAt m a == byteAt m b)

/-- Where `kmalloc` puts a block of a given size: at an address that is not in use, or it panics. -/
structure ByteAllocator where
  alloc : Objects ℕ → ℕ → Option ℕ
  fresh : ∀ m n a, alloc m n = some a → m.get a = none
  ne_zero : ∀ m n a, alloc m n = some a → a ≠ 0

/-- What the loader finds around it: the two uses of `kmalloc`, the kernel's symbols, and what a
read of `size` bytes from a vnode puts into the buffer. `leaves` are the sizes of the blocks that
the drivers do not free when a path is looked up; `fat_lookup` leaves every name it has parsed and
that does not match, `initrd_lookup` and `devfs_lookup` leave nothing but the vnode. -/
structure Env where
  bytes : ByteAllocator
  vnodes : Kmalloc
  leaves : Fal → List Char → List ℕ
  ksymList : List (List (BitVec 8) × ℕ)
  read : Fal → ℕ → ℕ → List (BitVec 8)

structure LoadedMod where
  size : ℕ
  address : ℕ
  metadata : ℕ
  deriving DecidableEq, Repr

/-- The part of `driver_node_t` that the loader uses; `driver` is a pointer. -/
structure Node where
  driver : ℕ
  loaded : Bool
  path : List Char
  deriving DecidableEq, Repr

/-- `blocks` are the live blocks other than vnodes, with their sizes. `made` and `frees` record the
pointers that `kmalloc` returned and `kmfree` got; nothing reads them. -/
structure Loader where
  mem : Mem
  blocks : Objects ℕ
  made : List ℕ
  frees : List ℕ
  fal : Fal
  moduleList : List LoadedMod

def kmalloc (env : Env) (s : Loader) (size : ℕ) : Except Fault (ℕ × Loader) :=
  match env.bytes.alloc s.blocks size with
  | none => .error outOfMemory
  | some a => .ok (a, { s with blocks := s.blocks.set a size, made := a :: s.made })

def leaveBlocks (env : Env) : List ℕ → Loader → Except Fault Loader
  | [], s => .ok s
  | size :: sizes, s => do
    let (_, s) ← kmalloc env s size
    leaveBlocks env sizes s

def kmfree (s : Loader) (ptr : ℕ) : Loader :=
  if ptr = 0 then s else { s with blocks := s.blocks.free ptr, frees := ptr :: s.frees }

def vnodeRead (env : Env) (s : Loader) (file size buf : ℕ) : Loader :=
  { s with mem := storeBytes s.mem buf (env.read s.fal file size) }

def e_shoff (m : Mem) (h : ℕ) : ℕ := field m (h + 40) 8
def e_shentsize (m : Mem) (h : ℕ) : ℕ := field m (h + 58) 2
def e_shnum (m : Mem) (h : ℕ) : ℕ := field m (h + 60) 2

/-- The section header `off` bytes behind the first one. -/
def shdrAt (m : Mem) (h elf off : ℕ) : ℕ := (elf + e_shoff m h + off) % 2 ^ 64

/-- The headers by a loop counter, by a 32-bit and by a 16-bit field: the product with `e_shentsize`
is computed in `size_t`, in `unsigned` and in `int`. -/
def shdr (m : Mem) (h elf i : ℕ) : ℕ := shdrAt m h elf (e_shentsize m h * i)
def shdrWord (m : Mem) (h elf i : ℕ) : ℕ := shdrAt m h elf (e_shentsize m h * i % 2 ^ 32)
def shdrHalf (m : Mem) (h elf i : ℕ) : ℕ := shdrAt m h elf (u64 (int32 (e_shentsize m h * i)))

def sh_type (m : Mem) (sh : ℕ) : ℕ := field m (sh + 4) 4
def sh_flags (m : Mem) (sh : ℕ) : ℕ := field m (sh + 8) 8
def sh_addr (m : Mem) (sh : ℕ) : ℕ := field m (sh + 16) 8
def sh_offset (m : Mem) (sh : ℕ) : ℕ := field m (sh + 24) 8
def sh_size (m : Mem) (sh : ℕ) : ℕ := field m (sh + 32) 8
def sh_link (m : Mem) (sh : ℕ) : ℕ := field m (sh + 40) 4
def sh_info (m : Mem) (sh : ℕ) : ℕ := field m (sh + 44) 4

/-- `for(i = 0; i < bound; i++)` with a bound that is read again each time; the body may return from
the function, which the flag `false` stands for. No such loop makes more than `2 ^ 64` rounds. -/
def loopFrom {σ : Type} (bound : σ → ℕ) (body : ℕ → σ → Except Fault (Bool × σ)) :
    ℕ → ℕ → σ → Except Fault (Bool × σ)
  | 0, _, _ => .error .diverges
  | fuel + 1, i, s =>
    if i < bound s then do
      let (go, s) ← body i s
      if go then loopFrom bound body fuel (i + 1) s else return (false, s)
    else .ok (true, s)

def loop {σ : Type} (bound : σ → ℕ) (body : ℕ → σ → Except Fault (Bool × σ)) (s : σ) :
    Except Fault (Bool × σ) :=
  loopFrom bound body (2 ^ 64 + 1) 0 s

/-- A round of the first loop of `elf_module_load_common`. -/
def placeSection (env : Env) (h elf i : ℕ) (s : Loader) : Except Fault (Bool × Loader) :=
  let sh := shdr s.mem h elf i
  if sh_type s.mem sh = SHT_NOBITS then
    if sh_size s.mem sh = 0 ∨ sh_flags s.mem sh &&& SHF_ALLOC = 0 then .ok (true, s)
    else do
      let (a, s) ← kmalloc env s (sh_size s.mem sh)
      let m := storeField s.mem (sh + 16) 8 a
      return (true, { s with mem := memset m (sh_addr m sh) 0 (sh_size m sh) })
  else .ok (true, { s with mem := storeField s.mem (sh + 16) 8 (elf + sh_offset s.mem sh) })

def ksymFind (env : Env) (m : Mem) (name : ℕ) : ℕ :=
  match env.ksymList.find? fun ksym => strcmpAt m ksym.1 name = 0 with
  | some ksym => ksym.2
  | none => 0

/-- The memory while symbols are loaded, with the two pointers that are looked for. -/
structure Symbols where
  mem : Mem
  modData : ℕ
  driverData : ℕ

def metadataName : List (BitVec 8) := [0x6d, 0x65, 0x74, 0x61, 0x64, 0x61, 0x74, 0x61]
def driverMetadataName : List (BitVec 8) :=
  [0x64, 0x72, 0x69, 0x76, 0x65, 0x72, 0x5f] ++ metadataName

def st_name (m : Mem) (sym : ℕ) : ℕ := field m sym 4
def st_shndx (m : Mem) (sym : ℕ) : ℕ := field m (sym + 6) 2
def st_value (m : Mem) (sym : ℕ) : ℕ := field m (sym + 8) 8

/-- A round of the loop over the symbols of a table; `driver` tells whether `driverData` is
given. -/
def loadSymbol (env : Env) (driver : Bool) (h elf symNames symTable sym : ℕ) (t : Symbols) :
    Except Fault (Bool × Symbols) :=
  let a := symTable + sizeofSym * sym
  let shndx := st_shndx t.mem a
  let m :=
    if shndx ≠ SHN_UNDEF ∧ shndx < SHN_LORESERVE then
      storeField t.mem (a + 8) 8 (st_value t.mem a + sh_addr t.mem (shdrHalf t.mem h elf shndx))
    else if shndx = SHN_UNDEF then
      storeField t.mem (a + 8) 8 (ksymFind env t.mem (symNames + st_name t.mem a))
    else t.mem
  if shndx = SHN_UNDEF ∧ st_value m a = 2 ^ 64 - 1 then .ok (false, { t with mem := m })
  else if st_name m a ≠ 0 ∧ strcmpAt m metadataName (symNames + st_name m a) = 0 then
    .ok (true, { t with mem := m, modData := st_value m a })
  else if st_name m a ≠ 0 ∧ strcmpAt m driverMetadataName (symNames + st_name m a) = 0 then
    .ok (true, { t with mem := m, driverData := if driver then st_value m a else t.driverData })
  else .ok (true, { t with mem := m })

/-- A round of the second loop of `elf_module_load_common`. -/
def loadSymbolTable (env : Env) (driver : Bool) (h elf i : ℕ) (t : Symbols) :
    Except Fault (Bool × Symbols) :=
  let sh := shdr t.mem h elf i
  if sh_type t.mem sh ≠ SHT_SYMTAB then .ok (true, t)
  else
    let symNames := sh_addr t.mem (shdrWord t.mem h elf (sh_link t.mem sh))
    let symTable := sh_addr t.mem sh
    loop (fun t => sh_size t.mem sh / sizeofSym) (loadSymbol env driver h elf symNames symTable) t

/-- A round of the inner loop of `elf_calculate_relocations`. -/
def relocate (table target symbolTable rela : ℕ) (m : Mem) : Except Fault (Bool × Mem) :=
  let a := table + sizeofRela * rela
  let info := field m (a + 8) 8
  let P := field m a 8 + sh_addr m target
  let S := st_value m (symbolTable + sizeofSym * (info >>> 32))
  let A := field m (a + 16) 8
  let type := info &&& 0xffffffff
  if type = R_X86_64_64 then .ok (true, storeField m P 8 (S + A))
  else if type = R_X86_64_32 then .ok (true, storeField m P 4 (S + A))
  else if type = R_X86_64_PC32 then .ok (true, storeField m P 4 (u64 (S + A - P)))
  else .ok (false, m)

def relocateSection (h elf i : ℕ) (m : Mem) : Except Fault (Bool × Mem) :=
  let sh := shdr m h elf i
  if sh_type m sh ≠ SHT_RELA then .ok (true, m)
  else
    let target := shdrWord m h elf (sh_info m sh)
    let symbolTable := sh_addr m (shdrWord m h elf (sh_link m sh))
    loop (fun m => sh_size m sh / sizeofRela) (relocate (sh_addr m sh) target symbolTable) m

def elfCalculateRelocations (m : Mem) (h elf : ℕ) : Except Fault (Bool × Mem) :=
  loop (fun m => e_shnum m h) (relocateSection h elf) m

/-- The two pointers, or nothing for the result -1. -/
def elfModuleLoadCommon (env : Env) (driver : Bool) (s : Loader) (h elf : ℕ) :
    Except Fault (Option (ℕ × ℕ) × Loader) := do
  let (_, s) ← loop (fun s => e_shnum s.mem h) (placeSection env h elf) s
  let (go, t) ← loop (fun t => e_shnum t.mem h) (loadSymbolTable env driver h elf) ⟨s.mem, 0, 0⟩
  let s := { s with mem := t.mem }
  if go = false ∨ t.modData = 0 ∨ (driver ∧ t.driverData = 0) then return (none, s)
  else
    let (go, m) ← elfCalculateRelocations s.mem h elf
    let s := { s with mem := m }
    if go then return (some (t.modData, t.driverData), s) else return (none, s)

def unload (s : Loader) (file elf : ℕ) : Except Fault Loader := do
  let s := kmfree s elf
  let fal ← vnodeClose s.fal file
  return { s with fal := fal }

/-- What the first half of both functions leaves for the second. -/
structure Prepared where
  h : ℕ
  file : ℕ
  elfModule : ℕ
  modData : ℕ
  driverData : ℕ

def headerBytes (m : Mem) (h : ℕ) : ElfFile := ⟨fun i => byteAt m (h + i), fun _ _ => 0⟩

/-- The first half of `elf_load_module` and `elf_load_driver`; nothing for the result -1. -/
def prepare (env : Env) (driver : Bool) (path : List Char) (s : Loader) :
    Except Fault (Option Prepared × Loader) := do
  let (h, s) ← kmalloc env s sizeofEhdr
  let (file, fal) ← vnodeOpen env.vnodes s.fal path 0 0
  let s ← leaveBlocks env (env.leaves s.fal path) { s with fal := fal }
  match file with
  | none => return (none, kmfree s h)
  | some file =>
    let s := vnodeRead env s file sizeofEhdr h
    -- the file stays open here
    if elfValidate (headerBytes s.mem h) ET_REL = false then return (none, kmfree s h)
    else
      let v ← s.fal.vnode file
      let (elf, s) ← kmalloc env s v.size
      let s := vnodeRead env s file v.size elf
      let (r, s) ← elfModuleLoadCommon env driver s h elf
      match r with
      | none =>
        let s ← unload s file elf
        return (none, s)
      | some (modData, driverData) => return (some ⟨h, file, elf, modData, driverData⟩, s)

/-- The copy of the metadata. The first `memcpy` overwrites the pointer to the new name. -/
def storeMetadata (env : Env) (s : Loader) (modData : ℕ) : Except Fault (ℕ × Loader) := do
  let (store, s) ← kmalloc env s sizeofModule
  let len ← strlen s.mem (field s.mem modData 8)
  let (name, s) ← kmalloc env s ((len + 1) % 2 ^ 32)
  let m := storeField s.mem store 8 name
  let m := memcpy m store modData sizeofModule
  let len ← strlen m (field m modData 8)
  let m := memcpy m (field m store 8) (field m modData 8) ((len + 1) % 2 ^ 32)
  return (store, { s with mem := m })

def moduleListSearch (m : Mem) (name : ℕ) : List LoadedMod → Except Fault Bool
  | [] => .ok false
  | entry :: entries => do
    if ← strcmpZero m (2 ^ 64) (field m entry.metadata 8) name then return true
    else moduleListSearch m name entries

/-- The entry and the list node are blocks of their own. -/
def moduleListAdd (env : Env) (s : Loader) (entry : LoadedMod) : Except Fault Loader := do
  let (_, s) ← kmalloc env s sizeofModListEntry
  let (_, s) ← kmalloc env s sizeofListNode
  return { s with moduleList := s.moduleList ++ [entry] }

/-- The loop over the sections of a module that is loaded already. -/
def freeSections (s : Loader) (h elf : ℕ) : Loader :=
  Nat.fold (e_shnum s.mem h) (fun i _ s =>
    let sh := shdr s.mem h elf i
    if sh_type s.mem sh = SHT_NOBITS then kmfree s (sh_addr s.mem sh) else s) s

def dropDuplicate (s : Loader) (p : Prepared) : Except Fault Loader :=
  unload (freeSections s p.h p.elfModule) p.file p.elfModule

def elfLoadModule (env : Env) (path : List Char) (s : Loader) : Except Fault (ℤ × Loader) := do
  let (prepared, s) ← prepare env false path s
  match prepared with
  | none => return (-1, s)
  | some p =>
    let (_, s) ← storeMetadata env s p.modData
    let v ← s.fal.vnode p.file
    let found ← moduleListSearch s.mem (field s.mem p.modData 8) s.moduleList
    if found then
      let s ← dropDuplicate s p
      return (-1, s)
    else
      let s ← moduleListAdd env s ⟨v.size, p.elfModule, p.modData⟩
      let fal ← vnodeClose s.fal p.file
      return (0, { s with fal := fal })

def elfLoadDriver (env : Env) (node : Node) (s : Loader) : Except Fault (ℤ × Node × Loader) := do
  let (prepared, s) ← prepare env true node.path s
  match prepared with
  | none => return (-1, node, s)
  | some p =>
    let (store, s) ← storeMetadata env s p.modData
    let v ← s.fal.vnode p.file
    let found ← moduleListSearch s.mem (field s.mem store 8) s.moduleList
    if found then
      let s ← dropDuplicate s p
      return (-1, node, s)
    else
      -- `driverData` is not NULL here, `elf_module_load_common` has checked it
      let s ← moduleListAdd env s ⟨v.size, p.elfModule, store⟩
      let (driver, s) ← kmalloc env s sizeofDeviceDriver
      let s := { s with mem := memcpy s.mem driver p.driverData sizeofDeviceDriver }
      let fal ← vnodeClose s.fal p.file
      return (0, { node with driver := driver, loaded := true }, { s with fal := fal })

end GarnOS.ModuleLoader
