import GarnOS.Exec.Elf

/-! `sys_execve`: the argument strings are copied out, the lower half is emptied and gets a
stack with the strings and the pointer vectors, and the image is loaded. -/
namespace GarnOS
open ByteMemory Outcome Finset RadixTree

def PROCESS_STATUS_RUNNING : ℕ := 0
def VMM_INIT_USER_STACK_SIZE : ℕ := 0x1000000

/-- The characters `strdup` copies. A string without end runs into an unmapped address, at the
latest in the gap between the two halves, so the fuel `2 ^ 64` is never used up. -/
def readString (s : Machine) (pt : ℕ) : ℕ → ℕ → Except Fault (List (BitVec 8))
  | 0, v => .error (.pageFault v)
  | fuel + 1, v => do
    let c ← loadByte s pt v
    if c = 0 then return []
    let rest ← readString s pt fuel ((v + 1) % 2 ^ 64)
    return c :: rest

/-- The loop that replaces each string of a `NULL`-terminated array by its copy, from slot `i`
on; `copies` are the addresses `strdup` returns. -/
def dupStrings (pt : ℕ) (copies : ℕ → BitVec 64) (argv : ℕ) :
    ℕ → ℕ → Machine → Except Fault (List (List (BitVec 8)) × Machine)
  | 0, i, _ => .error (.pageFault (argv + 8 * i))
  | fuel + 1, i, s => do
    let str ← loadWord s pt (argv + 8 * i)
    if str = 0 then return ([], s)
    let text ← readString s pt (2 ^ 64) str.toNat
    let s ← storeWord s pt (argv + 8 * i) (copies i)
    let (texts, s) ← dupStrings pt copies argv fuel (i + 1) s
    return (text :: texts, s)

/-- All strings of the array at `argv`, of which at most `2 ^ 61` fit. -/
def dupAll (s : Machine) (pt : ℕ) (copies : ℕ → BitVec 64) (argv : ℕ) :
    Except Fault (List (List (BitVec 8)) × Machine) := dupStrings pt copies argv (2 ^ 61) 0 s

/-- The flag `VMM_EXEC_DISABLE` is lost in the 32-bit parameter of `vaspace_create_area`. -/
def vaspaceCreateThreadUserStack (s : Machine) (pt : ℕ) : Except Fault (ℕ × Machine) := do
  let base := VMM_USER_END - VMM_INIT_USER_STACK_SIZE
  let s ← vaspaceCreateArea s pt base VMM_INIT_USER_STACK_SIZE (VMM_PRESENT ||| VMM_RW ||| VMM_USER)
  return (base + (VMM_INIT_USER_STACK_SIZE - 1 - 15), s)

/-- The macro `X86_64_PUSH` for a type of `size` bytes, on the stack pointer and the machine. -/
def X86_64_PUSH (pt size : ℕ) (st : ℕ × Machine) (val : BitVec 64) :
    Except Fault (ℕ × Machine) := do
  let stack := u64 ((st.1 : ℤ) - size)
  let stack := stack - stack % size
  let s ← storeBytes pt stack size (fun _ k => val.extractLsb' (8 * k) 8) st.2
  return (stack, s)

/-- The macro `X86_64_PUSHSTR`: the terminating zero first, then the characters backwards. -/
def X86_64_PUSHSTR (pt : ℕ) (st : ℕ × Machine) (text : List (BitVec 8)) :
    Except Fault (ℕ × Machine) :=
  ((0 :: text.reverse).map (BitVec.setWidth 64)).foldlM (X86_64_PUSH pt 1) st

/-- Push the strings and collect where each one starts. -/
def pushStrings (pt : ℕ) : List (List (BitVec 8)) → ℕ × Machine →
    Except Fault (List (BitVec 64) × ℕ × Machine)
  | [], st => .ok ([], st)
  | text :: texts, st => do
    let st ← X86_64_PUSHSTR pt st text
    let (pointers, st') ← pushStrings pt texts st
    return (BitVec.ofNat 64 st.1 :: pointers, st')

def buildStack (pt : ℕ) (args envs : List (List (BitVec 8))) (st : ℕ × Machine) :
    Except Fault (ℕ × Machine) := do
  let (newArgv, st) ← pushStrings pt args st
  let (newEnvp, st) ← pushStrings pt envs st
  let rsp := st.1 - st.1 % 16
  let stackAlign := 8 + 8 + envs.length * 8 + 8 + args.length * 8 + 8
  let rsp := u64 ((rsp : ℤ) - (stackAlign % 16 : ℕ))
  let argc := BitVec.ofNat 64 args.length
  (0 :: 0 :: newEnvp.reverse ++ 0 :: newArgv.reverse ++ [argc]).foldlM (X86_64_PUSH pt 8)
    (rsp, st.2)

/-- What the file system says about the path: its absolute form, whether it opens for
reading, and the file when the loader opens it again. Errors carry `kerrno`. -/
structure ExecPath where
  absolute : Except ℤ (List (BitVec 8))
  readable : Except ℤ Unit
  file : Option ElfFile

/-- `sys_execve` either returns to its caller or enters the new program. -/
inductive ExecResult where
  | returned (value : ℤ)
  | entered (rip rsp : ℕ)
  deriving DecidableEq, Repr

def sysExecve (s : Machine) (currentProcess : Process) (path : ExecPath) (argv envp : ℕ)
    (argvCopies envpCopies : ℕ → BitVec 64) : Except Fault (ExecResult × Process × Machine) :=
  if argv = 0 ∨ envp = 0 then .ok (.returned (-EFAULT), currentProcess, s)
  else match path.absolute with
  | .error kerrno => .ok (.returned (-kerrno), currentProcess, s)
  | .ok name =>
    let currentProcess := { currentProcess with name, status := PROCESS_STATUS_RUNNING }
    let pt := currentProcess.pt
    match path.readable with
    | .error kerrno => .ok (.returned (-kerrno), currentProcess, s)
    | .ok () => do
      let (args, s) ← dupAll s pt argvCopies argv
      let (envs, s) ← dupAll s pt envpCopies envp
      let s ← vaspaceClear s pt
      let (rsp, s) ← vaspaceCreateThreadUserStack s pt
      let (rsp, s) ← buildStack pt args envs (rsp, s)
      let (status, currentProcess, s) ← elfExecLoad s { currentProcess with rsp } path.file
      if status ≠ 0 then return (.returned (-ENOENT), currentProcess, s)
      return (.entered currentProcess.rip currentProcess.rsp, currentProcess, s)

/-- `sys_execve` from the copies of the arguments to the initial stack. -/
def execPrepare (s : Machine) (pt argv envp : ℕ) (argvCopies envpCopies : ℕ → BitVec 64) :
    Except Fault (ℕ × Machine) := do
  let (args, s) ← dupAll s pt argvCopies argv
  let (envs, s) ← dupAll s pt envpCopies envp
  let s ← vaspaceClear s pt
  let (rsp, s) ← vaspaceCreateThreadUserStack s pt
  buildStack pt args envs (rsp, s)

section Phases
variable {s s' : Machine} {p p' : Process} {path : ExecPath} {argv envp : ℕ}
  {argvCopies envpCopies : ℕ → BitVec 64} {name : List (BitVec 8)} {res : ExecResult}

theorem sysExecve_load (hargs : ¬(argv = 0 ∨ envp = 0)) (habsolute : path.absolute = .ok name)
    (hreadable : path.readable = .ok ()) :
    sysExecve s p path argv envp argvCopies envpCopies = (do
      let (rsp, s) ← execPrepare s p.pt argv envp argvCopies envpCopies
      let (status, q, s) ←
        elfExecLoad s { p with name, status := PROCESS_STATUS_RUNNING, rsp } path.file
      if status ≠ 0 then return (.returned (-ENOENT), q, s)
      return (.entered q.rip q.rsp, q, s)) := by
  rw [sysExecve, if_neg hargs, habsolute, hreadable]
  simp [execPrepare]

/-- A call fails before anything is changed, fails with the new name, or loads the image. -/
theorem sysExecve_cases
    (hrun : sysExecve s p path argv envp argvCopies envpCopies = .ok (res, p', s')) :
    ((argv = 0 ∨ envp = 0 ∨ ∃ kerrno, path.absolute = .error kerrno) ∧ p' = p ∧ s' = s) ∨
    ¬(argv = 0 ∨ envp = 0) ∧ ∃ name, path.absolute = .ok name ∧
      (((∃ kerrno, path.readable = .error kerrno) ∧
          p' = { p with name, status := PROCESS_STATUS_RUNNING } ∧ s' = s) ∨
        path.readable = .ok () ∧
        ∃ rsp u status, execPrepare s p.pt argv envp argvCopies envpCopies = .ok (rsp, u) ∧
          elfExecLoad u { p with name, status := PROCESS_STATUS_RUNNING, rsp } path.file =
            .ok (status, p', s') ∧
          res = if status ≠ 0 then .returned (-ENOENT) else .entered p'.rip p'.rsp) := by
  by_cases hargs : argv = 0 ∨ envp = 0
  · rw [sysExecve, if_pos hargs] at hrun
    cases hrun
    exact .inl ⟨hargs.imp_right .inl, rfl, rfl⟩
  cases habsolute : path.absolute with
  | error kerrno =>
    rw [sysExecve, if_neg hargs, habsolute] at hrun
    cases hrun
    exact .inl ⟨.inr (.inr ⟨kerrno, rfl⟩), rfl, rfl⟩
  | ok name =>
    refine .inr ⟨hargs, name, rfl, ?_⟩
    cases hreadable : path.readable with
    | error kerrno =>
      rw [sysExecve, if_neg hargs, habsolute] at hrun
      rw [hreadable] at hrun
      cases hrun
      exact .inl ⟨⟨kerrno, rfl⟩, rfl, rfl⟩
    | ok =>
      rw [sysExecve_load hargs habsolute hreadable] at hrun
      obtain ⟨⟨rsp, u⟩, hprepare, hrun⟩ := bind_eq_ok.mp hrun
      obtain ⟨⟨status, q, w⟩, hload, hrun⟩ := bind_eq_ok.mp hrun
      refine .inr ⟨rfl, rsp, u, status, hprepare, ?_⟩
      dsimp only at hrun
      split at hrun
      next hstatus =>
        cases hrun
        exact ⟨hload, (if_pos hstatus).symm⟩
      next hstatus =>
        cases hrun
        exact ⟨hload, (if_neg hstatus).symm⟩

end Phases

section Arguments
variable {pt argv : ℕ} {copies : ℕ → BitVec 64}

theorem dupStrings_written (fuel : ℕ) {i : ℕ} {s s' : Machine} {texts : List (List (BitVec 8))}
    (h : SpaceReady s pt) (hrun : dupStrings pt copies argv fuel i s = .ok (texts, s'))
    (hend : argv + 8 * (i + texts.length) ≤ VMM_USER_END) : PagesWritten s pt s' := by
  induction fuel generalizing i s texts with
  | zero => cases hrun
  | succ fuel ih =>
    obtain ⟨str, -, hrun⟩ := bind_eq_ok.mp hrun
    split at hrun
    · cases hrun
      exact PagesWritten.refl h
    · obtain ⟨text, -, hrun⟩ := bind_eq_ok.mp hrun
      obtain ⟨u, hstore, hrun⟩ := bind_eq_ok.mp hrun
      obtain ⟨⟨rest, w⟩, hrest, hrun⟩ := bind_eq_ok.mp hrun
      cases hrun
      rw [List.length_cons] at hend
      have hu := ((storeBytes_post h (by omega) _).of_ok hstore).1
      exact hu.trans (ih hu.confined.ready hrest (by omega))

end Arguments

/-- Of the lower half only the last 512 GiB, where the stack lies, may be mapped. -/
def TopOnly (m : Mem) (pt : ℕ) : Prop := ∀ j < 255, (readEntry m pt j).present = false

/-- While the stack of a new program is built: pages were written since `s`, and the stack
pointer is at or above `k` times 512 GiB. -/
structure Pushing (s : Machine) (pt k : ℕ) (st : ℕ × Machine) : Prop where
  written : PagesWritten s pt st.2
  low : k * 2 ^ 39 ≤ st.1
  high : st.1 < VMM_USER_END

section Stack
variable {s : Machine} {pt : ℕ} {st : ℕ × Machine}

theorem TopOnly.high {m : Mem} {v : ℕ} {r : List PageTableEntry × ℕ} (h : TopOnly m pt)
    (hv : v < VMM_USER_END) (hr : translate m pt (pagePath v) = some r) : 255 * 2 ^ 39 ≤ v := by
  by_contra hlow
  unfold VMM_USER_END at hv
  have hindex : v / 4096 / 512 / 512 / 512 % 512 < 255 := by omega
  have habsent := h _ hindex
  have hnone : translate m pt (pagePath v) = none := by
    change translate m pt (v / 4096 / 512 / 512 / 512 % 512 :: _) = none
    simp [translate, habsent]
  rw [hnone] at hr
  cases hr

theorem Pushing.relax (h : Pushing s pt 255 st) : Pushing s pt 254 st :=
  ⟨h.written, le_trans (by decide) h.low, h.high⟩

section
variable (htop : TopOnly s.mem pt)
include htop

theorem push_post (h : Pushing s pt 254 st) {size : ℕ} (hsize : 0 < size ∧ size ≤ 8)
    (val : BitVec 64) : Post (X86_64_PUSH pt size st val) (Pushing s pt 255) Stops := by
  have hlow := h.low
  have hhigh := h.high
  have htop' : TopOnly st.2.mem pt := fun j hj => by
    rw [h.written.root (by omega)]
    exact htop j hj
  have hsub : u64 ((st.1 : ℤ) - size) = st.1 - size := by
    unfold u64
    unfold VMM_USER_END at hhigh
    omega
  unfold X86_64_PUSH
  rw [hsub]
  have hrange : st.1 - size - (st.1 - size) % size + size ≤ VMM_USER_END := by omega
  apply ((storeBytes_post h.written.confined.ready hrange _).mono (fun _ hw => hw)
    fun _ ⟨_, _, he, _⟩ => Or.inr ⟨_, he⟩).bind
  intro u ⟨hu, hfirst⟩
  obtain ⟨r, hr⟩ := hfirst hsize.1
  exact post_ok.mpr ⟨h.written.trans hu, htop'.high (by omega) hr, by dsimp only; omega⟩

theorem pushStr_post (h : Pushing s pt 255 st) (text : List (BitVec 8)) :
    Post (X86_64_PUSHSTR pt st text) (Pushing s pt 255) Stops := by
  apply foldlM_post (Pushing s pt 255) h
  exact fun t c ht => push_post htop ht.relax (by decide) c

theorem pushStrings_post (texts : List (List (BitVec 8))) (h : Pushing s pt 255 st) :
    Post (pushStrings pt texts st) (fun r => Pushing s pt 255 r.2) Stops := by
  induction texts generalizing st with
  | nil => exact post_ok.mpr h
  | cons text texts ih =>
    apply (pushStr_post htop h text).bind
    intro st' h'
    apply (ih h').bind
    exact fun r hr => post_ok.mpr hr

theorem buildStack_post (args envs : List (List (BitVec 8))) (h : Pushing s pt 255 st) :
    Post (buildStack pt args envs st) (fun r => PagesWritten s pt r.2) Stops := by
  apply (pushStrings_post htop args h).bind
  intro r hr
  apply (pushStrings_post htop envs hr).bind
  intro r' hr'
  have hlow := hr'.low
  have hhigh := hr'.high
  have haligned : Pushing s pt 254 (u64 ((r'.2.1 - r'.2.1 % 16 : ℕ) -
      ((8 + 8 + envs.length * 8 + 8 + args.length * 8 + 8) % 16 : ℕ)), r'.2.2) := by
    unfold VMM_USER_END at hhigh
    refine ⟨hr'.written, ?_, ?_⟩
    · simp only [u64]
      omega
    · simp only [u64, VMM_USER_END]
      omega
  apply (foldlM_post (Pushing s pt 254) haligned ?_).mono_ok fun _ hw => hw.written
  intro t w ht
  exact (push_post htop ht (by decide) w).mono_ok fun _ hp => hp.relax

end

theorem userStack_rsp : VMM_USER_END - VMM_INIT_USER_STACK_SIZE +
    (VMM_INIT_USER_STACK_SIZE - 1 - 15) = VMM_USER_END - 16 := by decide

/-- The stack of a new program: its last page can be written, and nothing else of the lower half is
mapped if that was empty. -/
theorem createThreadUserStack_post (h : SpaceReady s pt) :
    Post (vaspaceCreateThreadUserStack s pt)
      (fun r => r.1 = VMM_USER_END - 16 ∧ (∃ A, Grown s pt A r.2) ∧
        Writable r.2.mem pt (pagePath (VMM_USER_END - 4096)) ∧
        ((∀ i < 256, (readEntry s.mem pt i).vacant = true) → TopOnly r.2.mem pt))
      (fun e => e = outOfMemory ∧ s.pmm.clearBits.card < 16384) := by
  have hrange : VMM_USER_END - VMM_INIT_USER_STACK_SIZE + VMM_INIT_USER_STACK_SIZE ≤
      VMM_USER_END := by decide
  have hpages := mapFreshPages_post (n := 4096) h (area_lt_userEnd hrange)
    (VMM_PRESENT ||| VMM_RW ||| VMM_USER)
  have harea : vaspaceCreateArea s pt (VMM_USER_END - VMM_INIT_USER_STACK_SIZE)
      VMM_INIT_USER_STACK_SIZE (VMM_PRESENT ||| VMM_RW ||| VMM_USER) =
      mapFreshPages pt (VMM_USER_END - VMM_INIT_USER_STACK_SIZE) 4096
        (VMM_PRESENT ||| VMM_RW ||| VMM_USER) s := rfl
  unfold vaspaceCreateThreadUserStack
  dsimp only
  rw [harea]
  apply hpages.bind
  rintro u ⟨⟨A, hg, -⟩, hlast, hkept⟩
  refine post_ok.mpr ⟨userStack_rsp, ⟨A, hg⟩, hlast (by decide) (by decide) 4095 rfl,
    fun hempty j hj => ?_⟩
  have hvacant := hempty j (by omega)
  rw [hkept j (by omega) fun i hi => ?_]
  · rw [PageTableEntry.vacant, Bool.and_eq_true, Bool.not_eq_true'] at hvacant
    exact hvacant.1
  · simp only [VMM_USER_END, VMM_INIT_USER_STACK_SIZE, PAGE_SIZE]
    omega

section
variable (hw : Writable s.mem pt (pagePath (VMM_USER_END - 4096)))
include hw

theorem pushes_page {rsp : ℕ} {u : Machine} (vals : List (BitVec 64)) (hu : PagesWritten s pt u)
    (hlow : VMM_USER_END - 4096 + 8 * vals.length ≤ rsp) (hhigh : rsp ≤ VMM_USER_END)
    (halign : rsp % 8 = 0) :
    Post (vals.foldlM (X86_64_PUSH pt 8) (rsp, u)) (fun _ => True) (fun _ => False) := by
  induction vals generalizing rsp u with
  | nil => exact post_ok.mpr trivial
  | cons val vals ih =>
    rw [List.length_cons] at hlow
    have hend : VMM_USER_END = 0x800000000000 := rfl
    have hstack : u64 ((rsp : ℤ) - (8 : ℕ)) - u64 ((rsp : ℤ) - (8 : ℕ)) % 8 = rsp - 8 := by
      unfold u64
      omega
    rw [List.foldlM_cons, X86_64_PUSH]
    dsimp only
    rw [hstack, bind_assoc]
    have hstore := storeBytes_post hu.confined.ready (v := rsp - 8) (n := 8) (by omega)
      fun _ k => val.extractLsb' (8 * k) 8
    apply (hstore.mono_error fun e ⟨k, hk, _, hdenied⟩ => hdenied (by
      unfold Writable
      rw [hu.translate_eq (by omega),
        pagePath_congr (show (rsp - 8 + k) / 4096 = (VMM_USER_END - 4096) / 4096 by omega)]
      exact hw)).bind
    exact fun w hs => ih (hu.trans hs.1) (by omega) (by omega) (by omega)

theorem buildStack_nil (h : SpaceReady s pt) :
    Post (buildStack pt [] [] (VMM_USER_END - 16, s)) (fun _ => True) (fun _ => False) := by
  have hrsp : u64 ((VMM_USER_END - 16 - (VMM_USER_END - 16) % 16 : ℕ) -
      ((8 + 8 + 0 * 8 + 8 + 0 * 8 + 8) % 16 : ℕ)) = VMM_USER_END - 16 := by decide
  simp only [buildStack, pushStrings, ok_bind, List.length_nil, hrsp]
  exact pushes_page hw _ (PagesWritten.refl h) (by decide) (by decide) (by decide)

end

end Stack

/-- Everything `sys_execve` writes through addresses it was given lies below `VMM_USER_END`:
the visited slots of both arrays and every segment. -/
structure ExecBelow (s : Machine) (pt : ℕ) (path : ExecPath) (argv envp : ℕ)
    (argvCopies envpCopies : ℕ → BitVec 64) : Prop where
  argv : ∀ args u, dupAll s pt argvCopies argv = .ok (args, u) →
    argv + 8 * args.length ≤ VMM_USER_END ∧ ∀ envs w, dupAll u pt envpCopies envp = .ok (envs, w) →
      envp + 8 * envs.length ≤ VMM_USER_END
  file : ∀ f, path.file = some f → f.Below

section Calls
variable {s s' : Machine} {pt argv envp : ℕ} {argvCopies envpCopies : ℕ → BitVec 64}
  {path : ExecPath}

theorem execPrepare_post {rsp : ℕ} {u : Machine} (h : SpaceReady s pt)
    (hb : ExecBelow s pt path argv envp argvCopies envpCopies)
    (hrun : execPrepare s pt argv envp argvCopies envpCopies = .ok (rsp, u)) :
    (∃ A, Confined s pt A u) ∧ TopOnly u.mem pt := by
  obtain ⟨⟨args, a⟩, hargs, hrun⟩ := bind_eq_ok.mp hrun
  obtain ⟨⟨envs, b⟩, henvs, hrun⟩ := bind_eq_ok.mp hrun
  obtain ⟨hargv, henvp⟩ := hb.argv args a hargs
  have ha := dupStrings_written _ h hargs (by rwa [Nat.zero_add])
  have hb := dupStrings_written _ ha.confined.ready henvs (by
    rw [Nat.zero_add]
    exact henvp envs b henvs)
  obtain ⟨c, hclear, hrun⟩ := bind_eq_ok.mp hrun
  obtain ⟨⟨R, hR⟩, hvacant⟩ := (vaspaceClear_post hb.confined.ready).of_ok hclear
  have hc := hR.confined hb.confined.ready
  obtain ⟨⟨rsp', d⟩, hstack, hrun⟩ := bind_eq_ok.mp hrun
  obtain ⟨hrsp, ⟨A, hA⟩, -, htop⟩ := (createThreadUserStack_post hc.ready).of_ok hstack
  have hd := hA.confined hc.ready
  have hpush : Pushing d pt 255 (rsp', d) := by
    obtain rfl : rsp' = VMM_USER_END - 16 := hrsp
    exact ⟨PagesWritten.refl hd.ready, (by decide : 255 * 2 ^ 39 ≤ VMM_USER_END - 16),
      (by decide : VMM_USER_END - 16 < VMM_USER_END)⟩
  have hu := (buildStack_post (htop hvacant) args envs hpush).of_ok hrun
  refine ⟨⟨_, ha.confined.trans (hb.confined.trans (hc.trans (hd.trans hu.confined)))⟩,
    fun j hj => ?_⟩
  rw [hu.root (by omega)]
  exact htop hvacant j hj

theorem execPrepare_nil (h : SpaceReady s pt) (hclear : 16384 ≤ s.pmm.clearBits.card)
    (hargv : dupAll s pt argvCopies argv = .ok ([], s))
    (henvp : dupAll s pt envpCopies envp = .ok ([], s)) :
    Post (execPrepare s pt argv envp argvCopies envpCopies) (fun _ => True) (fun _ => False) := by
  unfold execPrepare
  rw [hargv, ok_bind]
  dsimp only
  rw [henvp, ok_bind]
  apply ((vaspaceClear_post h).mono_ok fun _ hc => hc.1).bind
  intro c ⟨R, hR⟩
  have hc := hR.confined h
  have hleft := hclear.trans hR.rel.card_clearBits_le
  apply ((createThreadUserStack_post hc.ready).mono_error fun _ he => absurd he.2 hleft.not_gt).bind
  rintro ⟨rsp, d⟩ ⟨rfl, ⟨A, hA⟩, hw, -⟩
  exact buildStack_nil hw (hA.confined hc.ready).ready

theorem sysExecve_confined {p p' : Process} {res : ExecResult} (h : SpaceReady s p.pt)
    (hb : ExecBelow s p.pt path argv envp argvCopies envpCopies)
    (hrun : sysExecve s p path argv envp argvCopies envpCopies = .ok (res, p', s')) :
    ∃ A, Confined s p.pt A s' := by
  obtain ⟨-, -, rfl⟩ | ⟨-, name, -, ⟨-, -, rfl⟩ | ⟨-, rsp, u, status, hprepare, hload, -⟩⟩ :=
    sysExecve_cases hrun
  · exact ⟨∅, Confined.refl h⟩
  · exact ⟨∅, Confined.refl h⟩
  · obtain ⟨⟨A, hA⟩, -⟩ := execPrepare_post h hb hprepare
    obtain ⟨-, B, hB⟩ := (elfExecLoad_post (by exact hA.ready) hb.file).of_ok hload
    exact ⟨_, hA.trans hB⟩

end Calls

end GarnOS
