import GarnOS.Library.Locks
import GarnOS.Dal.Bcache
import GarnOS.Fal.Vnode

/-! The functions of the kernel that leave a locked section early, with their spinlocks. What they
compute is that of the models without locks; the functions of the drivers come back with the locks
as they found them. -/
namespace GarnOS
open Locks Outcome Transparent Guarded

inductive Spinlock where
  | moduleListLock
  | ksymLock
  | gptLock
  | bcacheLock
  | kheapLock
  | list (l : ℕ)
  | drive (d : ℕ)
  | vnode (v : ℕ)
  | buf (i : BufId)
  deriving DecidableEq

abbrev Locking := LockM Spinlock Fault

def kmfreeLocked : Locking Unit :=
  lockBlock .kheapLock (return .inl ()) fun _ => return ()

/-- `loaded_mod_list_entry_t`, with the name in its metadata. -/
structure ModuleEntry where
  address : BitVec 64
  name : String
  deriving DecidableEq, Repr

/-- A pass of the loop of `module_list_search` and `module_list_get`; neither releases the lock
before its `return`. -/
def moduleStep {α : Type} (found : ModuleEntry → α) (name : String) (_ : Unit)
    (entry : ModuleEntry) : Locking (Unit ⊕ α) :=
  if entry.name = name then return .inr (found entry) else return .inl ()

def moduleScan {α : Type} (found : ModuleEntry → α) (missing : α) (modules : List ModuleEntry)
    (name : String) : Locking α :=
  lockBlock .moduleListLock (foreach (moduleStep found name) modules ()) fun _ => return missing

def moduleListSearch (modules : List ModuleEntry) (name : String) : Locking Bool :=
  moduleScan (fun _ => true) false modules name

def moduleListGet (modules : List ModuleEntry) (name : String) : Locking (Option ModuleEntry) :=
  moduleScan some none modules name

def ksymFind (ksyms : List (String × BitVec 64)) (name : String) : Locking (BitVec 64) :=
  lockBlock .ksymLock
    (foreach (fun _ ksym =>
      if ksym.1 = name then do
        releaseLock .ksymLock
        return .inr ksym.2
      else return .inl ()) ksyms ())
    fun _ => return 0

def driveUnlink : Option ℕ → Locking Unit
  | some prev => lockBlock (.drive prev) (return .inl ()) fun _ => return ()
  | none => return ()

/-- A pass of the loop of `drive_remove`. The `return` for the found drive is inside the section of
its lock, which is freed with it. -/
def driveStep (drive : ℕ) (prev : Option ℕ) (i : ℕ) : Locking (Option ℕ ⊕ Unit) :=
  if i = drive then do
    driveUnlink prev
    kmfreeLocked
    return .inr ()
  else return .inl (some i)

def driveRemove (drives : List ℕ) (drive : ℕ) : Locking Unit :=
  lockBlock (.drive drive) (foreach (driveStep drive) drives none) fun _ => return ()

section Lists
variable (l : ℕ) (values : List ℕ)

def listIndexOf (value : ℕ) : Locking ℤ :=
  lockBlock (.list l)
    (foreach (fun i v =>
      if v = value then do
        releaseLock (.list l)
        return .inr i
      else return .inl (i + 1)) values 0)
    fun _ => return -1

def listGet (index : ℕ) : Locking (Option ℕ) :=
  lockBlock (.list l)
    (foreach (fun i v =>
      if i = index then do
        releaseLock (.list l)
        return .inr (some v)
      else return .inl (i + 1)) values 0)
    fun _ => return none

/-- The status of `list_remove`; the node is taken out as `listUnlink` says. -/
def listRemoveLocked (value : ℕ) : Locking ℤ :=
  lockBlock (.list l)
    (foreach (fun _ v =>
      if v = value then do
        kmfreeLocked
        releaseLock (.list l)
        return .inr 0
      else return .inl ()) values ())
    fun _ => return -1

def listRemoveIndex (index : ℕ) : Locking ℤ :=
  lockBlock (.list l)
    (foreach (fun i _ =>
      if i = index then do
        kmfreeLocked
        releaseLock (.list l)
        return .inr 0
      else return .inl (i + 1)) values 0)
    fun _ => return -1

end Lists

section Vnodes
variable (k : Kmalloc)

def lookupStepLocked (s : Fal) (c : Cursor) : Locking (Option Cursor × Fal) := do
  let dirname := (nextName c.rest).1
  if 256 ≤ dirname.length then lift (.error (.overrun 256))
  else
    let dir ← lift (s.vnode c.vnode)
    lockBlock (.vnode c.vnode)
      (if dir.ops.lookup = false then do
        releaseLock (.vnode c.vnode)
        return .inr (none, { s with kerrno := EINVAL })
      else do
        let found ← lift (fsLookup k s c.vnode dirname)
        return .inl found)
      fun found => do
        let s ← lift (lookupRecycle found.2 c dir.ops)
        match found.1 with
        | none => return (none, s)
        | some a =>
          let c ← lift (lookupEnter s c a)
          return (some c, s)

def vnodeLookupFromLocked : ℕ → Fal → Cursor → Locking (Option ℕ × Fal)
  | 0, s, c => if c.rest = [] then return (some c.vnode, s) else lift (.error .diverges)
  | fuel + 1, s, c =>
    if c.rest = [] then return (some c.vnode, s)
    else do
      match ← lookupStepLocked k s c with
      | (none, s) => return (none, s)
      | (some c', s) => vnodeLookupFromLocked fuel s c'

def vnodeLookupLocked (s : Fal) (path : List Char) : Locking (Option ℕ × Fal) := do
  let s := { s with kerrno := 0 }
  match path with
  | '/' :: rest =>
    let root ← lift (s.vfs s.rootVFS)
    vnodeLookupFromLocked k rest.length s ⟨s.rootVFS, root.rootVnode, rest⟩
  | _ => return (none, { s with kerrno := EINVAL })

/-- The reference that `vnode_open` counts, and the list it puts the vnode on. -/
def vnodeOpenCount (s : Fal) (a : ℕ) (v : Vnode) (path : List Char) (flags mode : BitVec 32) :
    Except Fault Fal := do
  let s := s.setVnode a { v with refCount := v.refCount + 1 }
  match ← vnodeListSearchByFilename s v.vfs path with
  | some _ => return s
  | none =>
    let s ← vnodeListAdd s a
    let v ← s.vnode a
    return s.setVnode a { v with flags := flags, mode := mode }

def vnodeOpenAtLocked (s : Fal) (a : ℕ) (path : List Char) (flags mode : BitVec 32) :
    Locking (Option ℕ × Fal) := do
  let v ← lift (s.vnode a)
  lockBlock (.vnode a)
    (if flags &&& O_DIRECTORY ≠ 0 ∧ v.type ≠ .dir then do
      releaseLock (.vnode a)
      return .inr (none, { s with kerrno := ENOTDIR })
    else if flags &&& O_DIRECTORY = 0 ∧ v.type = .dir then do
      releaseLock (.vnode a)
      return .inr (none, { s with kerrno := EISDIR })
    else do
      let s ← lift (vnodeOpenCount s a v path flags mode)
      return .inl s)
    fun s => return (some a, s)

def vnodeOpenLocked (s : Fal) (path : List Char) (flags mode : BitVec 32) :
    Locking (Option ℕ × Fal) := do
  match ← vnodeLookupLocked k s path with
  | (none, s) => return (none, s)
  | (some a, s) => vnodeOpenAtLocked s a path flags mode

end Vnodes

/-- What reading and writing look at in a vnode: its type and the driver's functions of a size and
an offset, `none` for a `NULL` pointer. -/
structure VnodeIo where
  type : VnodeType
  vnRead : Option (ℕ → ℕ → Except Fault ℤ)
  vnWrite : Option (ℕ → ℕ → Except Fault ℤ)
  vnReaddir : Option (ℕ → ℕ → Except Fault ℤ)

/-- A section with two checks before the call of the driver. -/
def vnodeSection (v : ℕ) (refuse refuse' : Bool) (op : Option (ℕ → ℕ → Except Fault ℤ))
    (size offset : ℕ) : Locking ℤ :=
  lockBlock (.vnode v)
    (if refuse then do
      releaseLock (.vnode v)
      return .inr (-EINVAL)
    else if refuse' then do
      releaseLock (.vnode v)
      return .inr (-EINVAL)
    else do
      let bytes ← lift (match op with
        | some call => call size offset
        | none => .error (.pageFault 0))
      return .inl bytes)
    fun bytes => return bytes

def vnodeRead (v : ℕ) (io : VnodeIo) (size offset : ℕ) : Locking ℤ :=
  vnodeSection v io.vnRead.isNone (io.type == .dir) io.vnRead size offset

def vnodeWrite (v : ℕ) (io : VnodeIo) (size offset : ℕ) : Locking ℤ :=
  vnodeSection v (io.type == .dir) io.vnWrite.isNone io.vnWrite size offset

def vnodeReaddir (v : ℕ) (io : VnodeIo) (count offset : ℕ) : Locking ℤ :=
  vnodeSection v (io.type != .dir) io.vnReaddir.isNone io.vnReaddir count offset

section Buffers
variable {δ : Type} (c : BCache δ)

def bcacheReadLocked (i : BufId) : Locking (ℤ × BCache δ) :=
  lockBlock (.buf i)
    (match (c.buf i).drive with
    | none => lift (.error (.pageFault 40))
    | some d =>
      match (c.drives d).read with
      | none => do
        releaseLock (.buf i)
        return .inr (-1, c)
      | some read =>
        let data := (read (c.drives d).content (c.buf i).block (c.buf i).data).2
        return .inl (c.setBuf i { c.buf i with data := data }))
    fun c => return (0, c)

def bcacheGetLocked (drive block : ℕ) : Locking (Option BufId × BCache δ) :=
  lockBlock .bcacheLock (do
      match ← lift (bcacheSearch c (isBlock drive block) BCACHE_BUF_COUNT c.head) with
      | some i => do
        releaseLock .bcacheLock
        return .inr (some i, c.setBuf i { c.buf i with refCount := (c.buf i).refCount + 1 })
      | none => do
        match ← lift (bcacheSearch c isFreeBuf BCACHE_BUF_COUNT c.head) with
        | some i => do
          let read ← bcacheReadLocked (c.setBuf i (claimBuf drive block (c.buf i))) i
          if read.1 ≠ 0 then do
            releaseLock .bcacheLock
            return .inr (none, read.2.setBuf i { read.2.buf i with refCount := 0, valid := false })
          else do
            releaseLock .bcacheLock
            return .inr (some i, read.2)
        | none => return .inl ())
    fun _ => lift (.error (.panic "No available bcache buffers!" "bcache" []))

def bcacheReleaseLocked (i : BufId) : Locking (BCache δ) :=
  lockBlock .bcacheLock
    (if (c.buf i).refCount = 0 then do
      releaseLock .bcacheLock
      return .inr c
    else
      let c := c.setBuf i { c.buf i with refCount := (c.buf i).refCount - 1 }
      return .inl (if (c.buf i).refCount = 0 then bcacheRelink c i else c))
    fun c => return c

/-- `optical` is the test of the drive's type, `header` the test of the block that was read. Every
way through the section returns. -/
def gptValidateDrive (optical : Bool) (header : δ → Bool) (drive : ℕ) : Locking (Bool × BCache δ) :=
  if optical then return (false, c)
  else
    lockBlock .gptLock (do
        match ← bcacheGetLocked c drive 1 with
        | (none, c) => do
          releaseLock .gptLock
          return .inr (false, c)
        | (some i, c) => do
          let valid := header (c.buf i).data
          let c ← bcacheReleaseLocked c i
          if valid then do
            releaseLock .gptLock
            return .inr (true, c)
          else do
            releaseLock .gptLock
            return .inr (false, c))
      Empty.elim

end Buffers

section Transparency
variable {S T : Set Spinlock}

theorem kmfreeLocked_transparent (h : .kheapLock ∈ T) : Transparent T kmfreeLocked (.ok ()) :=
  (guarded_fall (S := ∅) ()).lockBlock h (Set.empty_subset T) fun _ => transparent_pure ()

variable {σ α : Type}

theorem guarded_unlink (l : ℕ) : ∃ w, Guarded (σ := σ) (.list l) {.kheapLock} (do
      kmfreeLocked
      releaseLock (.list l)
      return .inr (0 : ℤ)) w :=
  ⟨_, bind (kmfreeLocked_transparent (Set.mem_singleton _)) (Set.Subset.refl _) (by simp) fun _ =>
    guarded_return 0⟩

theorem ksymFind_clean (ksyms : List (String × BitVec 64)) (name : String) :
    Locks.Clean {.ksymLock} (ksymFind ksyms name) := clean_scan ksyms ()

section
variable (l : ℕ) (values : List ℕ)
include l values

theorem listIndexOf_clean (value : ℕ) : Locks.Clean {.list l} (listIndexOf l values value) :=
  clean_scan values 0

theorem listGet_clean (index : ℕ) : Locks.Clean {.list l} (listGet l values index) :=
  clean_scan values 0

theorem listRemoveLocked_clean (value : ℕ) :
    Locks.Clean {.list l, .kheapLock} (listRemoveLocked l values value) := by
  refine clean_lockBlock (guarded_foreach (fun i v _ => ?_) ())
  split
  · exact guarded_unlink l
  · exact ⟨_, guarded_fall ()⟩

theorem listRemoveIndex_clean (index : ℕ) :
    Locks.Clean {.list l, .kheapLock} (listRemoveIndex l values index) := by
  refine clean_lockBlock (guarded_foreach (fun i v _ => ?_) 0)
  split
  · exact guarded_unlink l
  · exact ⟨_, guarded_fall (i + 1)⟩

end

theorem vnodeSection_clean (v : ℕ) (refuse refuse' : Bool)
    (op : Option (ℕ → ℕ → Except Fault ℤ)) (size offset : ℕ) :
    Locks.Clean {.vnode v} (vnodeSection v refuse refuse' op size offset) := by
  rw [← LawfulSingleton.insert_empty_eq]
  refine clean_lockBlock ?_
  split
  · exact ⟨_, guarded_return (-EINVAL)⟩
  · split
    · exact ⟨_, guarded_return (-EINVAL)⟩
    · exact ⟨_, bind (transparent_lift _) (Set.Subset.refl ∅) (Set.notMem_empty _) fun bytes =>
        guarded_fall bytes⟩

def vnodeLocks : Set Spinlock := Set.range .vnode

theorem mem_vnodeLocks (v : ℕ) : .vnode v ∈ vnodeLocks := ⟨v, rfl⟩

theorem lockBlock_lift {β : Type} {l : Spinlock} (hl : l ∈ T) (x : Except Fault β)
    {rest : β → Locking α} {f : β → Except Fault α} (hrest : ∀ b, Transparent T (rest b) (f b)) :
    Transparent T (lockBlock l (do let b ← lift x; return .inl b) rest) (x >>= f) := by
  have hcmds : Guarded (σ := β) (α := α) l ∅ (do let b ← lift x; return .inl b)
      (x >>= fun b => .ok (.inl b)) :=
    bind (transparent_lift x) (Set.Subset.refl ∅) (Set.notMem_empty l) fun b => guarded_fall b
  have hblock := hcmds.lockBlock hl (Set.empty_subset T) hrest
  cases x with
  | ok b | error e => exact hblock

theorem lockBlock_return {l : Spinlock} (hl : l ∈ T) (r : α) (rest : σ → Locking α) :
    Transparent T (lockBlock l (do releaseLock l; return .inr r) rest) (.ok r) := by
  intro held hT
  have hcmds := guarded_return (σ := σ) (ε := Fault) (S := ∅) r held (hT l hl) (by simp)
  exact lockBlock_leak rest (hT l hl) hcmds

theorem lookupStepLocked_transparent (k : Kmalloc) (s : Fal) (c : Cursor) :
    Transparent vnodeLocks (lookupStepLocked k s c) (lookupStep k s c) := by
  refine ite (transparent_lift _) (bind (transparent_lift _) fun dir => ?_)
  split
  next hno =>
    exact lockBlock_return (mem_vnodeLocks c.vnode) _ _
  next hyes =>
    refine lockBlock_lift (mem_vnodeLocks c.vnode) _ fun found => ?_
    refine bind (transparent_lift _) fun s => ?_
    obtain ⟨r, s₁⟩ := found
    cases r with
    | none => exact transparent_pure _
    | some a => exact bind (transparent_lift _) fun c => transparent_pure _

theorem vnodeLookupFromLocked_transparent (k : Kmalloc) (fuel : ℕ) (s : Fal) (c : Cursor) :
    Transparent vnodeLocks (vnodeLookupFromLocked k fuel s c) (vnodeLookupFrom k fuel s c) := by
  induction fuel generalizing s c with
  | zero => exact ite (transparent_pure _) (transparent_lift _)
  | succ fuel ih =>
    refine ite (transparent_pure _)
      (bind (lookupStepLocked_transparent k s c) fun r => ?_)
    obtain ⟨c', s'⟩ := r
    cases c' with
    | none => exact transparent_pure _
    | some c' => exact ih s' c'

theorem vnodeLookupLocked_transparent (k : Kmalloc) (s : Fal) (path : List Char) :
    Transparent vnodeLocks (vnodeLookupLocked k s path) (vnodeLookup k s path) := by
  fun_cases vnodeLookupLocked
  next =>
    exact bind (transparent_lift _) fun root =>
      vnodeLookupFromLocked_transparent k _ _ _
  next hpath =>
    rw [vnodeLookup.eq_2 k s path hpath]
    exact transparent_pure _

theorem vnodeOpenAtLocked_transparent (s : Fal) (a : ℕ) (path : List Char)
    (flags mode : BitVec 32) :
    Transparent vnodeLocks (vnodeOpenAtLocked s a path flags mode)
      (vnodeOpenAt s a path flags mode) := by
  refine bind (transparent_lift _) fun v => ?_
  split
  next => exact lockBlock_return (mem_vnodeLocks a) _ _
  next =>
    split
    next => exact lockBlock_return (mem_vnodeLocks a) _ _
    next =>
      refine congr (lockBlock_lift (mem_vnodeLocks a) _ fun s =>
        transparent_pure (some a, s)) ?_
      unfold vnodeOpenCount
      dsimp only
      cases vnodeListSearchByFilename (s.setVnode a { v with refCount := v.refCount + 1 })
          v.vfs path with
      | error e => rfl
      | ok found =>
        cases found with
        | some b => rfl
        | none =>
          simp only [ok_bind, bind_assoc]
          rfl

theorem vnodeOpenLocked_transparent (k : Kmalloc) (s : Fal) (path : List Char)
    (flags mode : BitVec 32) :
    Transparent vnodeLocks (vnodeOpenLocked k s path flags mode)
      (vnodeOpen k s path flags mode) := by
  refine bind (vnodeLookupLocked_transparent k s path) fun r => ?_
  obtain ⟨a, s'⟩ := r
  cases a with
  | none => exact transparent_pure _
  | some a => exact vnodeOpenAtLocked_transparent s' a path flags mode

def bufferLocks : Set Spinlock := insert .bcacheLock (Set.range .buf)

variable {δ : Type} (c : BCache δ)

theorem bcacheReadLocked_transparent (i : BufId) :
    Transparent (Set.range .buf) (bcacheReadLocked c i) (bcacheRead c i) := by
  have hi : Spinlock.buf i ∈ Set.range Spinlock.buf := ⟨i, rfl⟩
  unfold bcacheReadLocked bcacheRead
  cases (c.buf i).drive with
  | none =>
    exact (guarded_fault (S := ∅) _).lockBlock hi (Set.empty_subset _) fun c =>
      transparent_pure (0, c)
  | some d =>
    dsimp only
    cases (c.drives d).read with
    | none => exact lockBlock_return hi _ _
    | some read =>
      exact (guarded_fall (S := ∅) _).lockBlock hi (Set.empty_subset _) fun c =>
        transparent_pure (0, c)

theorem bcacheReleaseLocked_transparent (i : BufId) :
    Transparent bufferLocks (bcacheReleaseLocked c i) (.ok (bcacheRelease c i)) := by
  have hl : Spinlock.bcacheLock ∈ bufferLocks := Set.mem_insert _ _
  unfold bcacheReleaseLocked bcacheRelease
  split
  next => exact lockBlock_return hl _ _
  next =>
    exact (guarded_fall (S := ∅) _).lockBlock hl (Set.empty_subset _) fun c => transparent_pure c

theorem bcacheGetLocked_transparent (drive block : ℕ) :
    Transparent bufferLocks (bcacheGetLocked c drive block) (bcacheGet c drive block) := by
  have hl : Spinlock.bcacheLock ∈ bufferLocks := Set.mem_insert _ _
  have hbuf : Set.range Spinlock.buf ⊆ bufferLocks := Set.subset_insert _ _
  have hne : Spinlock.bcacheLock ∉ Set.range Spinlock.buf := by
    rintro ⟨i, hi⟩
    cases hi
  unfold bcacheGetLocked bcacheGet
  cases bcacheSearch c (isBlock drive block) BCACHE_BUF_COUNT c.head with
  | error e =>
    exact (guarded_fault (S := ∅) e).lockBlock hl (Set.empty_subset _) fun _ => transparent_lift _
  | ok found =>
    cases found with
    | some i => exact lockBlock_return hl _ _
    | none =>
      cases bcacheSearch c isFreeBuf BCACHE_BUF_COUNT c.head with
      | error e =>
        exact (guarded_fault (S := ∅) e).lockBlock hl (Set.empty_subset _) fun _ =>
          transparent_lift _
      | ok free =>
        cases free with
        | none =>
          exact (guarded_fall (S := ∅) ()).lockBlock hl (Set.empty_subset _) fun _ =>
            transparent_lift _
        | some i =>
          simp only [lift_ok, pure_bind, ok_bind]
          have hread := bcacheReadLocked_transparent (c.setBuf i (claimBuf drive block (c.buf i))) i
          have hcmds := bind (σ := Unit) hread (Set.Subset.refl _) hne fun read =>
            ite (c := read.1 ≠ 0) (guarded_return (none, read.2.setBuf i
              { read.2.buf i with refCount := 0, valid := false }))
              (guarded_return (some i, read.2))
          refine (hcmds.lockBlock hl hbuf fun _ => transparent_lift _).congr ?_
          cases bcacheRead (c.setBuf i (claimBuf drive block (c.buf i))) i with
          | error e => rfl
          | ok read =>
            simp only [ok_bind]
            split
            all_goals rfl

theorem gptValidateDrive_clean (optical : Bool) (header : δ → Bool) (drive : ℕ) :
    Locks.Clean (insert .gptLock bufferLocks) (gptValidateDrive c optical header drive) := by
  have hne : Spinlock.gptLock ∉ bufferLocks := by
    rintro (h | ⟨i, hi⟩)
    · cases h
    · cases hi
  unfold gptValidateDrive
  split
  · exact (transparent_pure (S := insert .gptLock bufferLocks) (false, c)).clean
  · have hrest : ∀ s : Empty, Transparent (insert .gptLock bufferLocks)
        (Empty.elim s : Locking (Bool × BCache δ)) (Empty.elim s) := fun s => s.elim
    refine clean_lockBlock_of ?_ hrest
    refine exists_bind (bcacheGetLocked_transparent c drive 1) (Set.Subset.refl _) hne ?_
    rintro ⟨i, c⟩
    cases i with
    | none => exact ⟨_, guarded_return (false, c)⟩
    | some i =>
      refine exists_bind (bcacheReleaseLocked_transparent c i) (Set.Subset.refl _) hne ?_
      intro c'
      split
      · exact ⟨_, guarded_return (true, c')⟩
      · exact ⟨_, guarded_return (false, c')⟩

/-- A call of the file layer or of the buffer cache. -/
inductive FsCall where
  | openVnode (path : List Char) (flags mode : BitVec 32)
  | get (drive block : ℕ)
  | release (i : BufId)

/-- The calls of a program, with locks or without. -/
def FsCall.run {m : Type → Type} [Monad m]
    (opens : Fal → List Char → BitVec 32 → BitVec 32 → m (Option ℕ × Fal))
    (get : BCache δ → ℕ → ℕ → m (Option BufId × BCache δ))
    (release : BCache δ → BufId → m (BCache δ)) (x : Fal × BCache δ) :
    FsCall → m (Fal × BCache δ)
  | .openVnode path flags mode => do return ((← opens x.1 path flags mode).2, x.2)
  | .get drive block => do return (x.1, (← get x.2 drive block).2)
  | .release i => do return (x.1, ← release x.2 i)

/-- With their locks, calls one after the other do what they do without, and the same locks are held
after them. -/
theorem locked_run_transparent (k : Kmalloc) (calls : List FsCall) (x : Fal × BCache δ) :
    Transparent (vnodeLocks ∪ bufferLocks)
      (calls.foldlM (FsCall.run (vnodeOpenLocked k) bcacheGetLocked bcacheReleaseLocked) x)
      (calls.foldlM (FsCall.run (vnodeOpen k) bcacheGet fun c i => .ok (bcacheRelease c i)) x) := by
  induction calls generalizing x with
  | nil => exact transparent_pure x
  | cons call calls ih =>
    rw [List.foldlM_cons, List.foldlM_cons]
    refine bind (fun held hfree => ?_) ih
    have hbuf : ∀ l ∈ bufferLocks, l ∉ held := fun l hl => hfree l (.inr hl)
    cases call with
    | openVnode path flags mode =>
      exact (vnodeOpenLocked_transparent k x.1 path flags mode).bind (fun r => transparent_pure _)
        held fun l hl => hfree l (.inl hl)
    | get drive block =>
      exact (bcacheGetLocked_transparent x.2 drive block).bind (fun r => transparent_pure _) held hbuf
    | release i =>
      exact (bcacheReleaseLocked_transparent x.2 i).bind (fun r => transparent_pure _) held hbuf

end Transparency

section Leaks

/-- The scan of the modules ends at the first one with the name, with the lock still held. -/
theorem moduleScan_found {α : Type} (found : ModuleEntry → α) {modules : List ModuleEntry}
    {name : String} (h : ∃ m ∈ modules, m.name = name) (held : Finset Spinlock) :
    ∃ r, foreach (moduleStep found name) modules () held = .ok (.inr r, held) := by
  induction modules with
  | nil => simp at h
  | cons m modules ih =>
    by_cases hm : m.name = name
    · refine ⟨found m, ?_⟩
      simp only [foreach, moduleStep, if_pos hm, pure_bind]
      rfl
    · obtain ⟨r, hr⟩ := ih (by simpa [hm] using h)
      refine ⟨r, ?_⟩
      simp only [foreach, moduleStep, if_neg hm, pure_bind]
      exact hr

theorem moduleScan_clean_iff {α : Type} (found : ModuleEntry → α) (missing : α)
    (modules : List ModuleEntry) (name : String) :
    Locks.Clean {.moduleListLock} (moduleScan found missing modules name) ↔
      ∀ m ∈ modules, m.name ≠ name := by
  constructor
  · intro hclean m hm heq
    obtain ⟨r, hr⟩ := moduleScan_found found ⟨m, hm, heq⟩ (insert .moduleListLock ∅)
    have hleft := hclean ∅ (by simp)
    rw [moduleScan, lockBlock_leak _ (by simp) hr] at hleft
    exact Finset.insert_ne_empty _ _ hleft
  · intro hnone
    rw [← LawfulSingleton.insert_empty_eq]
    refine clean_lockBlock (guarded_foreach (fun s m hm => ?_) ())
    rw [moduleStep, if_neg (hnone m hm)]
    exact ⟨_, guarded_fall ()⟩

def driveLocks : Set Spinlock := insert .kheapLock (Set.range .drive)

theorem driveUnlink_transparent (prev : Option ℕ) {T : Set Spinlock}
    (h : ∀ p ∈ prev, .drive p ∈ T) : Transparent T (driveUnlink prev) (.ok ()) := by
  cases prev with
  | none => exact transparent_pure ()
  | some p =>
    exact (guarded_fall (S := ∅) ()).lockBlock (h p rfl) (Set.empty_subset T) fun _ =>
      transparent_pure ()

/-- On a list that holds the drive, the drive before it is another one, and the `return` leaves the
section with the drive's lock. -/
theorem driveRemove_found {drives : List ℕ} {drive : ℕ} (hmem : drive ∈ drives)
    {held : Finset Spinlock} (hfree : ∀ l ∈ driveLocks, l ∉ held) (prev : Option ℕ)
    (hprev : prev ≠ some drive) :
    foreach (driveStep drive) drives prev (insert (.drive drive) held) =
      .ok (.inr (), insert (.drive drive) held) := by
  induction drives generalizing prev with
  | nil => simp at hmem
  | cons i drives ih =>
    by_cases hi : i = drive
    · have hothers : ∀ l ∈ driveLocks \ {.drive drive}, l ∉ insert (.drive drive) held := by
        intro l hl hin
        rcases Finset.mem_insert.mp hin with rfl | hin
        · exact hl.2 rfl
        · exact hfree l hl.1 hin
      have hunlink : Transparent (driveLocks \ {.drive drive}) (driveUnlink prev) (.ok ()) := by
        refine driveUnlink_transparent prev fun p hp => ⟨Set.mem_insert_of_mem _ ⟨p, rfl⟩, ?_⟩
        intro heq
        exact hprev (by rw [hp, Spinlock.drive.inj heq])
      have hkmfree : Transparent (driveLocks \ {.drive drive}) kmfreeLocked (.ok ()) :=
        kmfreeLocked_transparent ⟨Set.mem_insert _ _, nofun⟩
      have hrun := (hunlink.bind fun _ => hkmfree.bind fun _ =>
        transparent_pure (Sum.inr () : Option ℕ ⊕ Unit)) _ hothers
      simp only [foreach, driveStep, if_pos hi, bind_apply] at hrun ⊢
      rw [hrun]
      rfl
    · simp only [foreach, driveStep, if_neg hi, pure_bind]
      exact ih (by simpa [Ne.symm hi] using hmem) (some i) (by simpa using hi)

theorem driveRemove_clean_iff (drives : List ℕ) (drive : ℕ) :
    Locks.Clean driveLocks (driveRemove drives drive) ↔ drive ∉ drives := by
  constructor
  · intro hclean hmem
    have hrun := driveRemove_found hmem (by simp : ∀ l ∈ driveLocks, l ∉ ∅) none nofun
    have hleft := hclean ∅ (by simp)
    rw [driveRemove, lockBlock_leak _ (by simp) hrun] at hleft
    exact Finset.insert_ne_empty _ _ hleft
  · intro hnot
    have hstep : ∀ prev, ∀ i ∈ drives, ∃ w,
        Guarded (.drive drive) ∅ (driveStep drive prev i) w := by
      intro prev i hi
      rw [driveStep, if_neg fun heq : i = drive => hnot (heq ▸ hi)]
      exact ⟨_, guarded_fall (some i)⟩
    obtain ⟨w, hw⟩ := guarded_foreach hstep none
    have hdrive : Spinlock.drive drive ∈ driveLocks := Set.mem_insert_of_mem _ ⟨drive, rfl⟩
    exact (hw.lockBlock hdrive (Set.empty_subset _) fun _ => transparent_pure ()).clean

end Leaks

section Calls
variable (δ : Type)

/-- A call of one of the functions, with everything it reads. -/
inductive LockCall where
  | moduleListSearch (modules : List ModuleEntry) (name : String)
  | moduleListGet (modules : List ModuleEntry) (name : String)
  | driveRemove (drives : List ℕ) (drive : ℕ)
  | ksymFind (ksyms : List (String × BitVec 64)) (name : String)
  | listIndexOf (l : ℕ) (values : List ℕ) (value : ℕ)
  | listGet (l : ℕ) (values : List ℕ) (index : ℕ)
  | listRemove (l : ℕ) (values : List ℕ) (value : ℕ)
  | listRemoveIndex (l : ℕ) (values : List ℕ) (index : ℕ)
  | vnodeLookup (k : Kmalloc) (s : Fal) (path : List Char)
  | vnodeOpen (k : Kmalloc) (s : Fal) (path : List Char) (flags mode : BitVec 32)
  | vnodeRead (v : ℕ) (io : VnodeIo) (size offset : ℕ)
  | vnodeWrite (v : ℕ) (io : VnodeIo) (size offset : ℕ)
  | vnodeReaddir (v : ℕ) (io : VnodeIo) (count offset : ℕ)
  | bcacheGet (c : BCache δ) (drive block : ℕ)
  | bcacheRelease (c : BCache δ) (i : BufId)
  | gptValidateDrive (c : BCache δ) (optical : Bool) (header : δ → Bool) (drive : ℕ)

end Calls

namespace LockCall
variable {δ : Type}

def uses : LockCall δ → Set Spinlock
  | moduleListSearch _ _ | moduleListGet _ _ => {.moduleListLock}
  | driveRemove _ _ => driveLocks
  | ksymFind _ _ => {.ksymLock}
  | listIndexOf l _ _ | listGet l _ _ => {.list l}
  | listRemove l _ _ | listRemoveIndex l _ _ => {.list l, .kheapLock}
  | vnodeLookup _ _ _ | vnodeOpen _ _ _ _ _ => vnodeLocks
  | vnodeRead v _ _ _ | vnodeWrite v _ _ _ | vnodeReaddir v _ _ _ => {.vnode v}
  | bcacheGet _ _ _ | bcacheRelease _ _ => bufferLocks
  | gptValidateDrive _ _ _ _ => insert .gptLock bufferLocks

def run : LockCall δ → Locking Unit
  | moduleListSearch modules name => (fun _ => ()) <$> GarnOS.moduleListSearch modules name
  | moduleListGet modules name => (fun _ => ()) <$> GarnOS.moduleListGet modules name
  | driveRemove drives drive => GarnOS.driveRemove drives drive
  | ksymFind ksyms name => (fun _ => ()) <$> GarnOS.ksymFind ksyms name
  | listIndexOf l values value => (fun _ => ()) <$> GarnOS.listIndexOf l values value
  | listGet l values index => (fun _ => ()) <$> GarnOS.listGet l values index
  | listRemove l values value => (fun _ => ()) <$> listRemoveLocked l values value
  | listRemoveIndex l values index => (fun _ => ()) <$> GarnOS.listRemoveIndex l values index
  | vnodeLookup k s path => (fun _ => ()) <$> vnodeLookupLocked k s path
  | vnodeOpen k s path flags mode => (fun _ => ()) <$> vnodeOpenLocked k s path flags mode
  | vnodeRead v io size offset => (fun _ => ()) <$> GarnOS.vnodeRead v io size offset
  | vnodeWrite v io size offset => (fun _ => ()) <$> GarnOS.vnodeWrite v io size offset
  | vnodeReaddir v io count offset => (fun _ => ()) <$> GarnOS.vnodeReaddir v io count offset
  | bcacheGet c drive block => (fun _ => ()) <$> bcacheGetLocked c drive block
  | bcacheRelease c i => (fun _ => ()) <$> bcacheReleaseLocked c i
  | gptValidateDrive c optical header drive =>
    (fun _ => ()) <$> GarnOS.gptValidateDrive c optical header drive

/-- The calls that reach no `return` past a release: the module searched for is not loaded, the
drive to remove is not listed. -/
def Avoids : LockCall δ → Prop
  | moduleListSearch modules name | moduleListGet modules name => ∀ m ∈ modules, m.name ≠ name
  | driveRemove drives drive => drive ∉ drives
  | _ => True

end LockCall

/-- For every call, with every input and list contents. -/
theorem locks_released_iff {δ : Type} (call : LockCall δ) :
    Locks.Clean call.uses call.run ↔ call.Avoids := by
  cases call with
  | moduleListSearch modules name | moduleListGet modules name =>
    exact (clean_map_iff _).trans (moduleScan_clean_iff _ _ modules name)
  | driveRemove drives drive => exact driveRemove_clean_iff drives drive
  | ksymFind ksyms name => exact (ksymFind_clean ksyms name).discard
  | listIndexOf l values value => exact (listIndexOf_clean l values value).discard
  | listGet l values index => exact (listGet_clean l values index).discard
  | listRemove l values value => exact (listRemoveLocked_clean l values value).discard
  | listRemoveIndex l values index => exact (listRemoveIndex_clean l values index).discard
  | vnodeLookup k s path => exact (vnodeLookupLocked_transparent k s path).clean.discard
  | vnodeOpen k s path flags mode =>
    exact (vnodeOpenLocked_transparent k s path flags mode).clean.discard
  | vnodeRead v io size offset | vnodeWrite v io size offset | vnodeReaddir v io size offset =>
    exact (vnodeSection_clean v _ _ _ size offset).discard
  | bcacheGet c drive block => exact (bcacheGetLocked_transparent c drive block).clean.discard
  | bcacheRelease c i => exact (bcacheReleaseLocked_transparent c i).clean.discard
  | gptValidateDrive c optical header drive =>
    exact (gptValidateDrive_clean c optical header drive).discard

/-- A search that finds its module returns with the lock, and the next search never ends. The same
happens to the lock of a drive that is removed. -/
theorem locks_kept :
    moduleListSearch [⟨0, "pit"⟩] "pit" ∅ = .ok (true, {.moduleListLock}) ∧
    moduleListSearch [⟨0, "pit"⟩] "rtc" {.moduleListLock} = .error (.deadlock .moduleListLock) ∧
    driveRemove [1, 2] 2 ∅ = .ok ((), {.drive 2}) := by
  exact ⟨rfl, rfl, rfl⟩

end GarnOS
