import GarnOS.Fal.FdTables

/-! `sys_read`, `sys_write` and `sys_getdents`: which descriptors they accept, and how they move the
offset of a descriptor. -/
namespace GarnOS
namespace Descriptor
open Outcome

def EACCES : ℤ := 13

abbrev SSize := BitVec 64

def errnoResult (e : ℤ) : SSize := BitVec.ofInt 64 (-e)

/-- An operation of a file system on a size, a buffer and an offset. It may change the file layer. -/
abbrev VnIo := Fal → ℕ → ℕ → ℕ → SSize × Fal

/-- The operations in the `vnodeops` of each vnode, and what the memory of a freed vnode holds. -/
structure FileOps where
  stale : ℕ → Vnode
  vnRead : ℕ → Option VnIo
  vnWrite : ℕ → Option VnIo
  vnReaddir : ℕ → Option VnIo

/-- The vnode that a pointer leads to, freed or not. -/
def FileOps.vnode (ops : FileOps) (s : Fal) (a : ℕ) : Vnode := (s.mem.get a).getD (ops.stale a)

def vnodeRead (ops : FileOps) (s : Fal) (vnode size buf offset : ℕ) : SSize × Fal :=
  let s := { s with kerrno := 0 }
  match ops.vnRead vnode with
  | none => (errnoResult EINVAL, { s with kerrno := EINVAL })
  | some vnRead =>
    if (ops.vnode s vnode).type = .dir then (errnoResult EINVAL, { s with kerrno := EINVAL })
    else vnRead s size buf offset

/-- What `vnode_write` and `vnode_readdir` share: the type comes before the operation. -/
def vnodeCall (refused : Prop) [Decidable refused] (op : Option VnIo) (s : Fal)
    (size buf offset : ℕ) : SSize × Fal :=
  let s := { s with kerrno := 0 }
  if refused then (errnoResult EINVAL, { s with kerrno := EINVAL })
  else
    match op with
    | none => (errnoResult EINVAL, { s with kerrno := EINVAL })
    | some call => call s size buf offset

def vnodeWrite (ops : FileOps) (s : Fal) (vnode size buf offset : ℕ) : SSize × Fal :=
  vnodeCall ((ops.vnode s vnode).type = .dir) (ops.vnWrite vnode) s size buf offset

def vnodeReaddir (ops : FileOps) (s : Fal) (vnode count buf offset : ℕ) : SSize × Fal :=
  vnodeCall ((ops.vnode s vnode).type ≠ .dir) (ops.vnReaddir vnode) s count buf offset

/-- `fdTable[i].offset += res`, where the result is converted to `size_t`. -/
def advance (s : Files) (t i : ℕ) (res : SSize) : Except Fault Files :=
  s.storeFd t i fun fd => { fd with offset := (fd.offset + res.toNat) % 2 ^ 64 }

/-- What `sys_read` and `sys_write` share: the modes that are refused, and the operation. As a
`size_t` the result is positive unless it is zero. -/
def sysTransfer (refused : BitVec 32 → Prop) [DecidablePred refused]
    (vnodeOp : Fal → ℕ → ℕ → ℕ → ℕ → SSize × Fal) (s : Files) (cur : ℕ) (fd : ℤ) (buf count : ℕ) :
    Except Fault (SSize × Files) := do
  let p ← s.proc cur
  if p.fdMax < u64 fd then return (errnoResult EBADF, s)
  else
    let slot ← s.fd p.fdTable (u64 fd)
    match slot.file with
    | none => return (errnoResult EBADF, s)
    | some file =>
      if refused slot.flags then return (errnoResult EACCES, s)
      else
        let (res, fal) := vnodeOp s.fal file count buf slot.offset
        let s := { s with fal := fal }
        if 0 < res.toNat then return (res, ← advance s p.fdTable (u64 fd) res) else return (res, s)

abbrev ReadRefused (flags : BitVec 32) : Prop := flags &&& O_WRONLY ≠ 0 ∧ flags &&& O_RDWR = 0

abbrev WriteRefused (flags : BitVec 32) : Prop := flags &&& O_WRONLY = 0 ∧ flags &&& O_RDWR = 0

def sysRead (ops : FileOps) : Files → ℕ → ℤ → ℕ → ℕ → Except Fault (SSize × Files) :=
  sysTransfer ReadRefused (vnodeRead ops)

def sysWrite (ops : FileOps) : Files → ℕ → ℤ → ℕ → ℕ → Except Fault (SSize × Files) :=
  sysTransfer WriteRefused (vnodeWrite ops)

/-- The descriptor is not compared with `fdMax`, and the offset moves by any result. -/
def sysGetdents (ops : FileOps) (s : Files) (cur : ℕ) (fd : ℤ) (dirp count : ℕ) :
    Except Fault (SSize × Files) := do
  if dirp = 0 then return (errnoResult EFAULT, s)
  else
    let p ← s.proc cur
    let slot ← s.fd p.fdTable (u64 fd)
    match slot.file with
    | none => return (errnoResult EBADF, s)
    | some file =>
      if (ops.vnode s.fal file).flags &&& O_DIRECTORY = 0 then return (errnoResult ENOTDIR, s)
      else
        let (bytesRead, fal) := vnodeReaddir ops s.fal file count dirp slot.offset
        return (bytesRead, ← advance { s with fal := fal } p.fdTable (u64 fd) bytesRead)

/-- The descriptor is a slot of the table of the running process; its offset is a `size_t`. -/
structure HasSlot (s : Files) (cur : ℕ) (fd : ℤ) (p : ProcFds) (slot : Fd) : Prop where
  proc : s.proc cur = .ok p
  read : s.fd p.fdTable (u64 fd) = .ok slot
  offset : slot.offset < 2 ^ 64

/-- From `before` to `after` an offset has moved by what a call has returned: not at all for an
error. -/
def MovedBy (before after : ℕ) (ret : SSize) : Prop :=
  if ret.toInt < 0 then after = before else (after : ℤ) = before + ret.toInt

/-- The call returns, and has moved the offset of the slot by its result. -/
def MovesExactly (call : Except Fault (SSize × Files)) (t i : ℕ) (slot : Fd) : Prop :=
  ∃ ret s' slot', call = .ok (ret, s') ∧ s'.fd t i = .ok slot' ∧ MovedBy slot.offset slot'.offset ret

/-- No error, and an offset that does not wrap around. -/
def Delivers (ret : SSize) (offset : ℕ) : Prop := 0 ≤ ret.toInt ∧ offset + ret.toNat < 2 ^ 64

/-- The file system has the operation, which delivers. -/
def OpDelivers (op : Option VnIo) (s : Fal) (count buf offset : ℕ) : Prop :=
  ∃ f, op = some f ∧ Delivers (f { s with kerrno := 0 } count buf offset).1 offset

section Offsets
variable {s : Files} {cur t i offset : ℕ} {fd : ℤ} {p : ProcFds} {slot : Fd} {ret : SSize}

theorem movedBy_iff (ho : offset < 2 ^ 64) :
    MovedBy offset ((offset + ret.toNat) % 2 ^ 64) ret ↔ Delivers ret offset := by
  have hint := BitVec.toInt_eq_toNat_cond ret
  unfold MovedBy Delivers
  split at hint
  · rw [if_neg (by omega)]
    omega
  · rw [if_pos (by omega)]
    omega

theorem movedBy_of_neg (h : ret.toInt < 0) : MovedBy offset offset ret := by
  unfold MovedBy
  rw [if_pos h]

theorem errnoResult_neg {e : ℤ} (h : 0 < e ∧ e < 2 ^ 63) : (errnoResult e).toInt < 0 := by
  unfold errnoResult
  rw [BitVec.toInt_ofInt, Int.bmod_def]
  split <;> omega

theorem advance_eq (fal : Fal) (h : s.fd t i = .ok slot) (res : SSize) :
    ∃ s', advance { s with fal := fal } t i res = .ok s' ∧
      s'.fd t i = .ok { slot with offset := (slot.offset + res.toNat) % 2 ^ 64 } := by
  obtain ⟨tab, htab, hslot⟩ := Files.fd_eq_ok.mp h
  have hi : i < tab.length := (List.getElem?_eq_some_iff.mp hslot).1
  refine ⟨_, Files.storeFd_eq_ok.mpr ⟨tab, slot, htab, hslot, rfl⟩, ?_⟩
  rw [Files.fd_eq_ok]
  refine ⟨_, Function.update_self .., ?_⟩
  rw [List.getElem?_set_self hi]

variable (h : HasSlot s cur fd p slot)
include h

theorem movesExactly_refused {e : ℤ} (he : 0 < e ∧ e < 2 ^ 63) :
    MovesExactly (.ok (errnoResult e, s)) p.fdTable (u64 fd) slot :=
  ⟨_, _, slot, rfl, h.read, movedBy_of_neg (errnoResult_neg he)⟩

theorem movesExactly_advance (fal : Fal) (res : SSize) :
    MovesExactly (do return (res, ← advance { s with fal := fal } p.fdTable (u64 fd) res))
      p.fdTable (u64 fd) slot ↔ Delivers res slot.offset := by
  obtain ⟨s', hcall, hread⟩ := advance_eq fal h.read res
  rw [hcall, ok_bind, ← movedBy_iff h.offset]
  constructor
  · rintro ⟨ret, s'', slot', hret, hread', hmoved⟩
    cases hret
    cases hread.symm.trans hread'
    exact hmoved
  · intro hmoved
    exact ⟨_, _, _, rfl, hread, hmoved⟩

theorem sysTransfer_moves {refused : BitVec 32 → Prop} [DecidablePred refused]
    {vnodeOp : Fal → ℕ → ℕ → ℕ → ℕ → SSize × Fal} {buf count : ℕ} :
    MovesExactly (sysTransfer refused vnodeOp s cur fd buf count) p.fdTable (u64 fd) slot ↔
      (u64 fd ≤ p.fdMax → ∀ file, slot.file = some file → ¬refused slot.flags →
        Delivers (vnodeOp s.fal file count buf slot.offset).1 slot.offset) := by
  unfold sysTransfer
  rw [h.proc, ok_bind]
  by_cases hmax : p.fdMax < u64 fd
  · rw [if_pos hmax]
    exact iff_of_true (movesExactly_refused h (by decide)) fun hle => by omega
  rw [if_neg hmax, h.read, ok_bind]
  cases hfile : slot.file with
  | none => exact iff_of_true (movesExactly_refused h (by decide)) nofun
  | some file =>
    dsimp only
    by_cases hrefused : refused slot.flags
    · rw [if_pos hrefused]
      exact iff_of_true (movesExactly_refused h (by decide))
        fun _ _ _ hnot => absurd hrefused hnot
    simp only [not_lt.mp hmax, Option.some.injEq, forall_eq', hrefused, not_false_eq_true,
      forall_const]
    obtain ⟨res, fal⟩ := vnodeOp s.fal file count buf slot.offset
    dsimp only
    by_cases hpos : 0 < res.toNat
    · rw [if_pos hpos]
      exact movesExactly_advance h fal res
    · rw [if_neg hpos]
      have hzero : res.toInt = 0 := by
        rw [BitVec.toInt_eq_toNat_cond]
        split <;> omega
      have hoffset := h.offset
      apply iff_of_true
      · refine ⟨_, _, slot, rfl, h.read, ?_⟩
        unfold MovedBy
        rw [hzero, if_neg (by omega), Int.add_zero]
      · unfold Delivers
        omega

theorem sysGetdents_moves {ops : FileOps} {dirp count : ℕ} :
    MovesExactly (sysGetdents ops s cur fd dirp count) p.fdTable (u64 fd) slot ↔
      (dirp ≠ 0 → ∀ file, slot.file = some file →
        (ops.vnode s.fal file).flags &&& O_DIRECTORY ≠ 0 →
        Delivers (vnodeReaddir ops s.fal file count dirp slot.offset).1 slot.offset) := by
  unfold sysGetdents
  by_cases hdirp : dirp = 0
  · rw [if_pos hdirp]
    exact iff_of_true (movesExactly_refused h (by decide)) fun hne => absurd hdirp hne
  rw [if_neg hdirp, h.proc, ok_bind, h.read, ok_bind]
  cases hfile : slot.file with
  | none => exact iff_of_true (movesExactly_refused h (by decide)) nofun
  | some file =>
    dsimp only
    by_cases hflag : (ops.vnode s.fal file).flags &&& O_DIRECTORY = 0
    · rw [if_pos hflag]
      refine iff_of_true (movesExactly_refused h (by decide)) ?_
      rintro - _ ⟨⟩ hdir
      exact absurd hflag hdir
    simp only [ne_eq, hdirp, Option.some.injEq, forall_eq', hflag, not_false_eq_true, forall_const]
    exact movesExactly_advance h _ _

end Offsets

section Operations
variable {ops : FileOps} {s : Fal} {op : Option VnIo} {file count buf offset : ℕ}

theorem vnodeRead_eq : vnodeRead ops s file count buf offset =
    vnodeCall ((ops.vnode s file).type = .dir) (ops.vnRead file) s count buf offset := by
  unfold vnodeRead vnodeCall
  cases ops.vnRead file with
  | none => exact (ite_self _).symm
  | some f => rfl

theorem vnodeCall_delivers {refused : Prop} [Decidable refused] :
    Delivers (vnodeCall refused op s count buf offset).1 offset ↔
      ¬refused ∧ OpDelivers op s count buf offset := by
  have hfail : ¬Delivers (errnoResult EINVAL) offset := fun h =>
    absurd h.1 (not_le.mpr (errnoResult_neg (by decide)))
  unfold vnodeCall OpDelivers
  by_cases hrefused : refused
  · rw [if_pos hrefused]
    exact iff_of_false hfail fun h => h.1 hrefused
  rw [if_neg hrefused]
  cases op with
  | none => exact iff_of_false hfail nofun
  | some f => simp [hrefused]

end Operations

/-- The offset moves by what was transferred unless the call gets to the file and the vnode layer or
the file system reports an error, or the offset wraps around. -/
theorem descriptor_offsets_iff (ops : FileOps) (s : Files) (cur : ℕ) (fd : BitVec 32)
    (buf count : ℕ) (p : ProcFds) (slot : Fd) (h : HasSlot s cur fd.toInt p slot) :
    (MovesExactly (sysRead ops s cur fd.toInt buf count) p.fdTable (u64 fd.toInt) slot ↔
      (u64 fd.toInt ≤ p.fdMax → ∀ file, slot.file = some file → ¬ReadRefused slot.flags →
        (ops.vnode s.fal file).type ≠ .dir ∧
          OpDelivers (ops.vnRead file) s.fal count buf slot.offset)) ∧
    (MovesExactly (sysWrite ops s cur fd.toInt buf count) p.fdTable (u64 fd.toInt) slot ↔
      (u64 fd.toInt ≤ p.fdMax → ∀ file, slot.file = some file → ¬WriteRefused slot.flags →
        (ops.vnode s.fal file).type ≠ .dir ∧
          OpDelivers (ops.vnWrite file) s.fal count buf slot.offset)) ∧
    (MovesExactly (sysGetdents ops s cur fd.toInt buf count) p.fdTable (u64 fd.toInt) slot ↔
      (buf ≠ 0 → ∀ file, slot.file = some file →
        (ops.vnode s.fal file).flags &&& O_DIRECTORY ≠ 0 →
        (ops.vnode s.fal file).type = .dir ∧
          OpDelivers (ops.vnReaddir file) s.fal count buf slot.offset)) := by
  refine ⟨?_, ?_, ?_⟩
  · rw [sysRead, sysTransfer_moves h]
    simp [vnodeRead_eq, vnodeCall_delivers]
  · rw [sysWrite, sysTransfer_moves h]
    simp [vnodeWrite, vnodeCall_delivers]
  · rw [sysGetdents_moves h]
    simp [vnodeReaddir, vnodeCall_delivers]

def sampleVnode (type : VnodeType) (flags : BitVec 32) : Vnode where
  filename := []
  mode := 0
  flags := flags
  type := type
  size := 0
  refCount := 1
  vfsMountedHere := none
  vfs := 0
  ops := initrdVnodeOps
  next := none
  prev := none

/-- A process with a file and a directory, both open and read up to offset 100. -/
def sampleFiles : Files where
  fal := ((initrdInit []).setVnode 1 (sampleVnode .reg 0)).setVnode 2 (sampleVnode .dir O_DIRECTORY)
  procs := ⟨fun _ => none, none, none, none, 1⟩
  fds := Objects.empty.set 0 ⟨0, 1⟩
  tables := Objects.empty.set 0 [⟨some 1, 100, O_RDWR⟩, ⟨some 2, 100, O_RDONLY⟩]

def constOps (res : SSize) : FileOps where
  stale _ := sampleVnode .reg 0
  vnRead _ := some fun s _ _ _ => (res, s)
  vnWrite _ := some fun s _ _ _ => (res, s)
  vnReaddir _ := some fun s _ _ _ => (res, s)

theorem sampleFiles_file :
    HasSlot sampleFiles 0 (0 : BitVec 32).toInt ⟨0, 1⟩ ⟨some 1, 100, O_RDWR⟩ :=
  ⟨by rfl, by rfl, by decide⟩

theorem sampleFiles_dir :
    HasSlot sampleFiles 0 (1 : BitVec 32).toInt ⟨0, 1⟩ ⟨some 2, 100, O_RDONLY⟩ :=
  ⟨by rfl, by rfl, by decide⟩

theorem descriptor_offsets_transfer :
    MovesExactly (sysRead (constOps 3) sampleFiles 0 (0 : BitVec 32).toInt 4096 10) 0
      (u64 (0 : BitVec 32).toInt) ⟨some 1, 100, O_RDWR⟩ := by
  apply (descriptor_offsets_iff (constOps 3) sampleFiles 0 0 4096 10 ⟨0, 1⟩ _
    sampleFiles_file).1.mpr
  intro _ file hfile _
  cases hfile
  exact ⟨by decide, _, rfl, by decide, by decide⟩

theorem not_opDelivers_const {op : Option VnIo} {s : Fal} {count buf offset : ℕ}
    (hop : op = some fun s _ _ _ => (errnoResult 5, s)) : ¬OpDelivers op s count buf offset := by
  rintro ⟨f, hf, hdelivers⟩
  cases hop.symm.trans hf
  exact (by decide : ¬0 ≤ (errnoResult 5).toInt) hdelivers.1

/-- After an I/O error (`EIO`, 5) the offset is not what it was. -/
theorem descriptor_offsets_error :
    ¬MovesExactly (sysRead (constOps (errnoResult 5)) sampleFiles 0 (0 : BitVec 32).toInt 4096 10) 0
      (u64 (0 : BitVec 32).toInt) ⟨some 1, 100, O_RDWR⟩ ∧
    ¬MovesExactly (sysWrite (constOps (errnoResult 5)) sampleFiles 0 (0 : BitVec 32).toInt 4096 10) 0
      (u64 (0 : BitVec 32).toInt) ⟨some 1, 100, O_RDWR⟩ ∧
    ¬MovesExactly (sysGetdents (constOps (errnoResult 5)) sampleFiles 0 (1 : BitVec 32).toInt 4096
      10) 0 (u64 (1 : BitVec 32).toInt) ⟨some 2, 100, O_RDONLY⟩ := by
  refine ⟨?_, ?_, ?_⟩
  · intro h
    have hmoves := (sysTransfer_moves sampleFiles_file).mp h (by decide) 1 rfl (by decide)
    rw [vnodeRead_eq, vnodeCall_delivers] at hmoves
    exact not_opDelivers_const rfl hmoves.2
  · intro h
    have hmoves := (sysTransfer_moves sampleFiles_file).mp h (by decide) 1 rfl (by decide)
    rw [vnodeWrite, vnodeCall_delivers] at hmoves
    exact not_opDelivers_const rfl hmoves.2
  · intro h
    have hmoves := (sysGetdents_moves sampleFiles_dir).mp h (by decide) 2 rfl (by decide)
    rw [vnodeReaddir, vnodeCall_delivers] at hmoves
    exact not_opDelivers_const rfl hmoves.2

/-- The table of the running process has `fdMax + 1` slots. As an array of `fd_t`, of 24 bytes each,
it lies in the address space. -/
structure HasTable (s : Files) (cur : ℕ) (p : ProcFds) (l : List Fd) : Prop where
  proc : s.proc cur = .ok p
  table : s.tables.get p.fdTable = some l
  length : l.length = p.fdMax + 1
  fits : 24 * l.length ≤ 2 ^ 64

def OpenSlot (l : List Fd) (fd : ℤ) : Prop :=
  0 ≤ fd ∧ ∃ slot, l[fd.toNat]? = some slot ∧ slot.file ≠ none

/-- The call touches no slot outside the table, and reports a descriptor that is not open. -/
def Validates {α : Type} (call : Except Fault (α × Files)) (ebadf : α) (l : List Fd) (fd : ℤ) :
    Prop :=
  ∃ ret s', call = .ok (ret, s') ∧ (¬OpenSlot l fd → ret = ebadf)

section Arguments
variable {s : Files} {cur : ℕ} {p : ProcFds} {l : List Fd} {fd : BitVec 32}

theorem HasTable.u64_le_iff (h : HasTable s cur p l) :
    u64 fd.toInt ≤ p.fdMax ↔ 0 ≤ fd.toInt ∧ fd.toInt.toNat < l.length := by
  have hlength := h.length
  have hfits := h.fits
  have hint := BitVec.toInt_eq_toNat_cond fd
  unfold u64
  split at hint <;> omega

theorem HasTable.slot (h : HasTable s cur p l) (hle : u64 fd.toInt ≤ p.fdMax) :
    ∃ slot, s.fd p.fdTable (u64 fd.toInt) = .ok slot ∧
      (slot.file ≠ none ↔ OpenSlot l fd.toInt) := by
  obtain ⟨hnonneg, hlt⟩ := h.u64_le_iff.mp hle
  have hfits := h.fits
  have hu : u64 fd.toInt = fd.toInt.toNat := by
    unfold u64
    omega
  have hslot : l[fd.toInt.toNat]? = some l[fd.toInt.toNat] := List.getElem?_eq_getElem hlt
  refine ⟨l[fd.toInt.toNat], ?_, ?_⟩
  · rw [hu, Files.fd_eq_ok]
    exact ⟨l, h.table, hslot⟩
  · constructor
    · intro hfile
      exact ⟨hnonneg, _, hslot, hfile⟩
    · rintro ⟨-, slot, hslot', hfile⟩
      cases hslot.symm.trans hslot'
      exact hfile

theorem validates_of_open {α : Type} {call : Except Fault (α × Files)} {ebadf : α}
    (hopen : OpenSlot l fd.toInt) (hcall : ∃ r, call = .ok r) : Validates call ebadf l fd.toInt := by
  obtain ⟨⟨ret, s'⟩, hcall⟩ := hcall
  exact ⟨ret, s', hcall, fun hnot => absurd hopen hnot⟩

variable (h : HasTable s cur p l)
include h

theorem sysTransfer_validates {refused : BitVec 32 → Prop} [DecidablePred refused]
    {vnodeOp : Fal → ℕ → ℕ → ℕ → ℕ → SSize × Fal} {buf count : ℕ} :
    Validates (sysTransfer refused vnodeOp s cur fd.toInt buf count) (errnoResult EBADF) l
      fd.toInt := by
  unfold sysTransfer
  rw [h.proc, ok_bind]
  by_cases hmax : p.fdMax < u64 fd.toInt
  · rw [if_pos hmax]
    exact ⟨_, _, rfl, fun _ => rfl⟩
  obtain ⟨slot, hread, hopen⟩ := h.slot (not_lt.mp hmax)
  rw [if_neg hmax, hread, ok_bind]
  cases hfile : slot.file with
  | none => exact ⟨_, _, rfl, fun _ => rfl⟩
  | some file =>
    apply validates_of_open (hopen.mp (by simp [hfile]))
    dsimp only
    obtain ⟨res, fal⟩ := vnodeOp s.fal file count buf slot.offset
    obtain ⟨s', hcall, -⟩ := advance_eq fal hread res
    split
    · exact ⟨_, rfl⟩
    · split
      · rw [hcall, ok_bind]
        exact ⟨_, rfl⟩
      · exact ⟨_, rfl⟩

theorem sysClose_validates : Validates (sysClose s cur fd.toInt) (-EBADF) l fd.toInt := by
  unfold sysClose
  rw [h.proc, ok_bind]
  by_cases hmax : p.fdMax < u64 fd.toInt
  · rw [if_pos hmax]
    exact ⟨_, _, rfl, fun _ => rfl⟩
  obtain ⟨slot, hread, hopen⟩ := h.slot (not_lt.mp hmax)
  rw [if_neg hmax, hread, ok_bind]
  by_cases hfile : slot.file = none
  · rw [if_pos hfile]
    exact ⟨_, _, rfl, fun _ => rfl⟩
  · apply validates_of_open (hopen.mp hfile)
    rw [if_neg hfile, Files.storeFd, hread, ok_bind]
    exact ⟨_, rfl⟩

theorem sysGetdents_validates_iff {ops : FileOps} {dirp count : ℕ} :
    Validates (sysGetdents ops s cur fd.toInt dirp count) (errnoResult EBADF) l fd.toInt ↔
      if dirp = 0 then OpenSlot l fd.toInt else 0 ≤ fd.toInt ∧ fd.toInt ≤ p.fdMax := by
  unfold sysGetdents
  by_cases hdirp : dirp = 0
  · rw [if_pos hdirp, if_pos hdirp]
    constructor
    · rintro ⟨ret, s', hcall, hbad⟩
      by_contra hnot
      cases hcall
      exact absurd (hbad hnot) (by decide)
    · intro hopen
      exact validates_of_open hopen ⟨_, rfl⟩
  rw [if_neg hdirp, if_neg hdirp, h.proc, ok_bind]
  have hrange : u64 fd.toInt ≤ p.fdMax ↔ 0 ≤ fd.toInt ∧ fd.toInt ≤ p.fdMax := by
    have hlength := h.length
    rw [h.u64_le_iff]
    omega
  rw [← hrange]
  constructor
  · rintro ⟨ret, s', hcall, -⟩
    obtain ⟨slot, hread, -⟩ := bind_eq_ok.mp hcall
    obtain ⟨tab, htab, hslot⟩ := Files.fd_eq_ok.mp hread
    cases h.table.symm.trans htab
    have hlt := (List.getElem?_eq_some_iff.mp hslot).1
    have hlength := h.length
    omega
  · intro hle
    obtain ⟨slot, hread, hopen⟩ := h.slot hle
    rw [hread, ok_bind]
    cases hfile : slot.file with
    | none => exact ⟨_, _, rfl, fun _ => rfl⟩
    | some file =>
      apply validates_of_open (hopen.mp (by simp [hfile]))
      dsimp only
      split
      · exact ⟨_, rfl⟩
      · obtain ⟨s', hcall, -⟩ := advance_eq
          (vnodeReaddir ops s.fal file count dirp slot.offset).2 hread
          (vnodeReaddir ops s.fal file count dirp slot.offset).1
        rw [hcall, ok_bind]
        exact ⟨_, rfl⟩

end Arguments

/-- `sys_read`, `sys_write` and `sys_close` validate every descriptor, `sys_getdents` those in the
range of the table; without a buffer it does not look at the descriptor. -/
theorem descriptors_validated_iff (ops : FileOps) (s : Files) (cur : ℕ) (p : ProcFds) (l : List Fd)
    (h : HasTable s cur p l) (fd : BitVec 32) (buf count : ℕ) :
    Validates (sysRead ops s cur fd.toInt buf count) (errnoResult EBADF) l fd.toInt ∧
    Validates (sysWrite ops s cur fd.toInt buf count) (errnoResult EBADF) l fd.toInt ∧
    Validates (sysClose s cur fd.toInt) (-EBADF) l fd.toInt ∧
    (Validates (sysGetdents ops s cur fd.toInt buf count) (errnoResult EBADF) l fd.toInt ↔
      if buf = 0 then OpenSlot l fd.toInt else 0 ≤ fd.toInt ∧ fd.toInt ≤ p.fdMax) :=
  ⟨sysTransfer_validates h, sysTransfer_validates h, sysClose_validates h,
    sysGetdents_validates_iff h⟩

theorem sampleFiles_table :
    HasTable sampleFiles 0 ⟨0, 1⟩ [⟨some 1, 100, O_RDWR⟩, ⟨some 2, 100, O_RDONLY⟩] :=
  ⟨by rfl, by rfl, by rfl, by decide⟩

theorem descriptors_validated_dir :
    Validates (sysGetdents (constOps 3) sampleFiles 0 (1 : BitVec 32).toInt 4096 10)
      (errnoResult EBADF) [⟨some 1, 100, O_RDWR⟩, ⟨some 2, 100, O_RDONLY⟩] (1 : BitVec 32).toInt :=
  (descriptors_validated_iff (constOps 3) sampleFiles 0 ⟨0, 1⟩ _ sampleFiles_table 1 4096
    10).2.2.2.mpr (by rw [if_neg (by decide)]; decide)

/-- The descriptor -1 leads `sys_getdents` out of the table. -/
theorem descriptors_validated_negative :
    ¬Validates (sysGetdents (constOps 3) sampleFiles 0 (-1 : BitVec 32).toInt 4096 10)
      (errnoResult EBADF) [⟨some 1, 100, O_RDWR⟩, ⟨some 2, 100, O_RDONLY⟩]
      (-1 : BitVec 32).toInt := by
  rw [sysGetdents_validates_iff sampleFiles_table, if_neg (by decide)]
  decide

end Descriptor
end GarnOS
