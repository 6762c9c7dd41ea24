import GarnOS.Paging.Access

/-! The ELF executable loader. Files are arbitrary bytes; the loader checks the magic number,
the class, the type and the machine, and nothing else. -/
namespace GarnOS
open ByteMemory Outcome Finset RadixTree

/-- The little-endian number in the `n` bytes from `off` on. -/
def leField (b : ℕ → BitVec 8) (off : ℕ) : ℕ → ℕ
  | 0 => 0
  | n + 1 => (b off).toNat + 256 * leField b (off + 1) n

/-- The two buffers `elf_exec_load` fills from the file: `header` is `h`, and `image m k` the
byte at `elfExec + k` when the memory is `m`. Inside the buffer that is the file's byte;
the offsets in the headers may also lead outside, to whatever lies there. -/
structure ElfFile where
  header : ℕ → BitVec 8
  image : Mem → ℕ → BitVec 8

namespace ElfFile

def e_type (f : ElfFile) : ℕ := leField f.header 16 2
def e_machine (f : ElfFile) : ℕ := leField f.header 18 2
def e_entry (f : ElfFile) : ℕ := leField f.header 24 8
def e_phoff (f : ElfFile) : ℕ := leField f.header 32 8
def e_phentsize (f : ElfFile) : ℕ := leField f.header 54 2
def e_phnum (f : ElfFile) : ℕ := leField f.header 56 2

end ElfFile

structure Elf64Phdr where
  p_type : ℕ
  p_offset : ℕ
  p_vaddr : ℕ
  p_filesz : ℕ
  p_memsz : ℕ
  deriving DecidableEq, Repr

def ET_EXEC : ℕ := 2
def ELFCLASS64 : BitVec 8 := 2
def EM_X86_64 : ℕ := 62
def PT_LOAD : ℕ := 1

/-- The product `h->e_phentsize * i` is computed in `int`. -/
def ElfFile.phdr (f : ElfFile) (m : Mem) (i : ℕ) : Elf64Phdr :=
  let off := u64 (f.e_phoff + int32 (f.e_phentsize * i))
  { p_type := leField (f.image m) off 4
    p_offset := leField (f.image m) (off + 8) 8
    p_vaddr := leField (f.image m) (off + 16) 8
    p_filesz := leField (f.image m) (off + 32) 8
    p_memsz := leField (f.image m) (off + 40) 8 }

def elfValidate (f : ElfFile) (etype : ℕ) : Bool :=
  f.header 0 == 0x7f && f.header 1 == 0x45 && f.header 2 == 0x4c && f.header 3 == 0x46 &&
    f.header 4 == ELFCLASS64 && f.e_type == etype && f.e_machine == EM_X86_64

/-- The part of a process that `sys_execve` and the loader read and write. -/
structure Process where
  name : List (BitVec 8)
  status : ℕ
  pt : ℕ
  rip : ℕ
  rsp : ℕ

def loadSegment (pt : ℕ) (f : ElfFile) (i : ℕ) (s : Machine) : Except Fault Machine := do
  let phdr := f.phdr s.mem i
  if phdr.p_type = PT_LOAD then
    let s ← vaspaceCreateArea s pt phdr.p_vaddr phdr.p_memsz (VMM_PRESENT ||| VMM_USER ||| VMM_RW)
    let s ← storeBytes pt phdr.p_vaddr phdr.p_filesz (fun m k => f.image m (phdr.p_offset + k)) s
    storeBytes pt (phdr.p_vaddr + phdr.p_filesz) (phdr.p_memsz - phdr.p_filesz) (fun _ _ => 0) s
  else return s

/-- `file` is what the second `vnode_open` of the path gives. -/
def elfExecLoad (s : Machine) (process : Process) (file : Option ElfFile) :
    Except Fault (ℤ × Process × Machine) :=
  match file with
  | none => .ok (-1, process, s)
  | some f =>
    if elfValidate f ET_EXEC then do
      let s ← forRange (loadSegment process.pt f) 0 f.e_phnum s
      return (0, { process with rip := f.e_entry }, s)
    else .ok (-1, process, s)

/-- Every segment the loader can meet ends below `VMM_USER_END`. -/
def ElfFile.Below (f : ElfFile) : Prop := ∀ m, ∀ i < f.e_phnum, (f.phdr m i).p_type = PT_LOAD →
  (f.phdr m i).p_vaddr + (f.phdr m i).p_memsz ≤ VMM_USER_END ∧
    (f.phdr m i).p_vaddr + (f.phdr m i).p_filesz ≤ VMM_USER_END

/-- How a call on the current space can stop the kernel. -/
def Stops (e : Fault) : Prop := e = outOfMemory ∨ ∃ v, e = .pageFault v

section Load
variable {s : Machine} {pt : ℕ} {f : ElfFile}

theorem loadSegment_post (h : SpaceReady s pt) {i : ℕ}
    (hb : (f.phdr s.mem i).p_type = PT_LOAD →
      (f.phdr s.mem i).p_vaddr + (f.phdr s.mem i).p_memsz ≤ VMM_USER_END ∧
        (f.phdr s.mem i).p_vaddr + (f.phdr s.mem i).p_filesz ≤ VMM_USER_END) :
    Post (loadSegment pt f i s) (fun s' => ∃ A, Confined s pt A s') Stops := by
  unfold loadSegment
  dsimp only
  split
  · rename_i hload
    obtain ⟨hmemsz, hfilesz⟩ := hb hload
    apply ((vaspaceCreateArea_post h hmemsz _).mono_error fun _ he => Or.inl he).bind
    intro u ⟨A, hA⟩
    have hu := hA.confined h
    apply ((storeBytes_post hu.ready hfilesz _).mono (fun _ hw => hw.1.confined)
      fun _ ⟨_, _, he, _⟩ => Or.inr ⟨_, he⟩).bind
    intro w hw
    have hzero : (f.phdr s.mem i).p_vaddr + (f.phdr s.mem i).p_filesz +
        ((f.phdr s.mem i).p_memsz - (f.phdr s.mem i).p_filesz) ≤ VMM_USER_END := by omega
    apply (storeBytes_post hw.ready hzero _).mono
    · intro s' ⟨hs', _⟩
      exact ⟨_, (hu.trans hw).trans hs'.confined⟩
    · exact fun _ ⟨_, _, he, _⟩ => Or.inr ⟨_, he⟩
  · exact post_ok.mpr ⟨∅, Confined.refl h⟩

theorem elfExecLoad_post {process : Process} {file : Option ElfFile} (h : SpaceReady s process.pt)
    (hb : ∀ f, file = some f → f.Below) :
    Post (elfExecLoad s process file)
      (fun r => r.2.1.pt = process.pt ∧ ∃ A, Confined s process.pt A r.2.2) Stops := by
  unfold elfExecLoad
  split
  · exact post_ok.mpr ⟨rfl, ∅, Confined.refl h⟩
  · rename_i f
    split
    · have hloop : Post (forRange (loadSegment process.pt f) 0 f.e_phnum s)
          (fun u => ∃ A, Confined s process.pt A u) Stops := by
        apply forRange_post (fun _ u => ∃ A, Confined s process.pt A u) ⟨∅, Confined.refl h⟩
        intro i u _ hi ⟨A, hA⟩
        apply (loadSegment_post hA.ready (hb f rfl u.mem i (by omega))).mono_ok
        intro s' ⟨B, hB⟩
        exact ⟨_, hA.trans hB⟩
      apply hloop.bind
      intro u hu
      exact post_ok.mpr ⟨rfl, hu⟩
    · exact post_ok.mpr ⟨rfl, ∅, Confined.refl h⟩

end Load

end GarnOS
