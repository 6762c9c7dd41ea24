import GarnOS.Exec.KernelHalf
import GarnOS.Fal.Descriptors

/-! What a failed `sys_execve` leaves of its caller: the arguments are checked before anything is
changed, but a path that does not open has already become the name of the process, and an image
that does not load finds the old one gone. -/
namespace GarnOS
open ByteMemory Outcome Finset RadixTree PageTableEntry

/-- The calling process with what `sys_execve` has no business with: its descriptors and the saved
registers other than `rip` and `rsp`. -/
structure Caller extends Process where
  regs : List (BitVec 64)
  fdTable : List Fd

def Caller.execve (c : Caller) (s : Machine) (path : ExecPath) (argv envp : ℕ)
    (argvCopies envpCopies : ℕ → BitVec 64) : Except Fault (ExecResult × Caller × Machine) := do
  let (res, process, s) ← sysExecve s c.toProcess path argv envp argvCopies envpCopies
  return (res, { c with toProcess := process }, s)

/-- The caller finds everything as it was before the call. -/
structure Caller.Unchanged (s : Machine) (c : Caller) (s' : Machine) (c' : Caller) : Prop where
  mappings : ∀ v < VMM_USER_END,
    translate s'.mem c'.pt (pagePath v) = translate s.mem c.pt (pagePath v)
  contents : ∀ v < VMM_USER_END, loadByte s' c'.pt v = loadByte s c.pt v
  name : c'.name = c.name
  registers : c'.rip = c.rip ∧ c'.rsp = c.rsp ∧ c'.regs = c.regs
  descriptors : c'.fdTable = c.fdTable

/-- The call ends before it changes anything: an array is missing, the path has no absolute form,
or it does not open and is the name of the process already. -/
def Caller.FailsEarly (c : Caller) (path : ExecPath) (argv envp : ℕ) : Prop :=
  argv = 0 ∨ envp = 0 ∨ (∃ kerrno, path.absolute = .error kerrno) ∨
    path.absolute = .ok c.name ∧ ∃ kerrno, path.readable = .error kerrno

/-- A caller with a page below the 512 GiB of the stack, and with its arguments in user memory. No
segment is loaded by a call that fails, so the file does not matter. -/
structure Caller.Settled (s : Machine) (c : Caller) (path : ExecPath) (argv envp : ℕ)
    (argvCopies envpCopies : ℕ → BitVec 64) : Prop where
  ready : SpaceReady s c.pt
  below : ExecBelow s c.pt { path with file := none } argv envp argvCopies envpCopies
  mapped : ∃ v < 255 * 2 ^ 39, (translate s.mem c.pt (pagePath v)).isSome

section Failure
variable {s s' : Machine} {c c' : Caller} {path : ExecPath} {argv envp : ℕ}
  {argvCopies envpCopies : ℕ → BitVec 64}

theorem elfExecLoad_failed {p p' : Process} {file : Option ElfFile} {status : ℤ}
    (hstatus : status ≠ 0)
    (hload : elfExecLoad s p file = .ok (status, p', s')) : p' = p ∧ s' = s := by
  unfold elfExecLoad at hload
  split at hload
  · cases hload
    exact ⟨rfl, rfl⟩
  split at hload
  · obtain ⟨u, -, hret⟩ := bind_eq_ok.mp hload
    cases hret
    exact absurd rfl hstatus
  · cases hload
    exact ⟨rfl, rfl⟩

theorem elfExecLoad_invalid {p : Process} {f : ElfFile} (h : elfValidate f ET_EXEC = false) :
    elfExecLoad s p (some f) = .ok (-1, p, s) :=
  if_neg (by rw [h]; decide)

/-- A failed call changed nothing, or only the name, or went on to the load. -/
theorem Caller.execve_cases {v : ℤ}
    (hrun : c.execve s path argv envp argvCopies envpCopies = .ok (.returned v, c', s')) :
    ((argv = 0 ∨ envp = 0 ∨ ∃ kerrno, path.absolute = .error kerrno) ∧ c' = c ∧ s' = s) ∨
    ¬(argv = 0 ∨ envp = 0) ∧ ∃ name, path.absolute = .ok name ∧
      (((∃ kerrno, path.readable = .error kerrno) ∧
          c' = { c with name, status := PROCESS_STATUS_RUNNING } ∧ s' = s) ∨
        path.readable = .ok () ∧
        ∃ rsp, execPrepare s c.pt argv envp argvCopies envpCopies = .ok (rsp, s') ∧
          c' = { c with name, status := PROCESS_STATUS_RUNNING, rsp }) := by
  obtain ⟨⟨res, p, u⟩, hcall, hret⟩ := bind_eq_ok.mp hrun
  cases hret
  obtain ⟨hearly, rfl, rfl⟩ |
      ⟨hargs, name, hname, ⟨hopen, rfl, rfl⟩ | ⟨hopen, rsp, u, status, hprepare, hload, hres⟩⟩ :=
    sysExecve_cases hcall
  · exact .inl ⟨hearly, rfl, rfl⟩
  · exact .inr ⟨hargs, name, hname, .inl ⟨hopen, rfl, rfl⟩⟩
  · have hstatus : status ≠ 0 := by
      intro hzero
      rw [if_neg (not_not.mpr hzero)] at hres
      cases hres
    obtain ⟨rfl, rfl⟩ := elfExecLoad_failed hstatus hload
    exact .inr ⟨hargs, name, hname, .inr ⟨hopen, rsp, hprepare, rfl⟩⟩

theorem Caller.Settled.unmapped {rsp : ℕ} (h : c.Settled s path argv envp argvCopies envpCopies)
    (hprepare : execPrepare s c.pt argv envp argvCopies envpCopies = .ok (rsp, s')) :
    ∃ v < VMM_USER_END, translate s'.mem c.pt (pagePath v) ≠ translate s.mem c.pt (pagePath v) := by
  obtain ⟨v, hv, hmapped⟩ := h.mapped
  have huser : v < VMM_USER_END := hv.trans (by decide)
  refine ⟨v, huser, fun heq => ?_⟩
  rw [← heq] at hmapped
  obtain ⟨r, hr⟩ := Option.isSome_iff_exists.mp hmapped
  have hhigh := (execPrepare_post h.ready h.below hprepare).2.high huser hr
  omega

theorem Caller.failsEarly_iff {name : List (BitVec 8)} (hargs : ¬(argv = 0 ∨ envp = 0))
    (hname : path.absolute = .ok name) :
    c.FailsEarly path argv envp ↔ c.name = name ∧ ∃ kerrno, path.readable = .error kerrno := by
  constructor
  · rintro (hargv | henvp | ⟨kerrno, habs⟩ | ⟨habs, hread⟩)
    · exact absurd (.inl hargv) hargs
    · exact absurd (.inr henvp) hargs
    · cases hname.symm.trans habs
    · exact ⟨Except.ok.inj (habs.symm.trans hname), hread⟩
  · rintro ⟨rfl, hread⟩
    exact .inr (.inr (.inr ⟨hname, hread⟩))

/-- A call that returns leaves its caller unchanged if it fails early. It does so only then, unless
the process has the path for its name and no page below the stack. -/
theorem failed_execve_unchanged {v : ℤ}
    (hrun : c.execve s path argv envp argvCopies envpCopies = .ok (.returned v, c', s')) :
    (c.FailsEarly path argv envp → c.Unchanged s s' c') ∧
      (path.absolute ≠ .ok c.name ∨ c.Settled s path argv envp argvCopies envpCopies →
        c.Unchanged s s' c' → c.FailsEarly path argv envp) := by
  obtain ⟨hearly, rfl, rfl⟩ |
      ⟨hargs, name, hname, ⟨hopen, rfl, rfl⟩ | ⟨hopen, rsp, hprepare, rfl⟩⟩ :=
    Caller.execve_cases hrun
  · refine ⟨fun _ => ⟨fun _ _ => rfl, fun _ _ => rfl, rfl, ⟨rfl, rfl, rfl⟩, rfl⟩, fun _ _ => ?_⟩
    exact hearly.imp_right (Or.imp_right .inl)
  · rw [Caller.failsEarly_iff hargs hname]
    constructor
    · intro hfails
      exact ⟨fun _ _ => rfl, fun _ _ => rfl, hfails.1.symm, ⟨rfl, rfl, rfl⟩, rfl⟩
    · exact fun _ hkept => ⟨hkept.name.symm, hopen⟩
  · rw [Caller.failsEarly_iff hargs hname]
    constructor
    · rintro ⟨-, kerrno, hread⟩
      cases hopen.symm.trans hread
    · rintro (hdiffer | hsettled) hkept
      · exact absurd (hname.trans (congrArg _ hkept.name)) hdiffer
      · obtain ⟨v, hv, hne⟩ := hsettled.unmapped hprepare
        exact absurd (hkept.mappings v hv) hne

end Failure

section Samples

/-- The page of `onePage` at address 0 and its root in frame 1, with 128 MiB of memory. -/
def lowPage : Machine where
  mem := onePage.mem
  pmm := kernelPage.pmm

def lowCaller (name : List (BitVec 8)) : Caller where
  name := name
  status := PROCESS_STATUS_RUNNING
  pt := 1
  rip := 0
  rsp := 4096
  regs := []
  fdTable := []

def missingFile : ExecPath := ⟨.ok [0x2f, 0x61], .error ENOENT, none⟩

/-- Nothing changes for the process of that name, another is renamed. -/
theorem failed_execve_unchanged_open :
    (∃ c, (lowCaller [0x2f, 0x61]).execve lowPage missingFile 8 8 (fun _ => 0) (fun _ => 0) =
        .ok (.returned (-ENOENT), c, lowPage) ∧
      (lowCaller [0x2f, 0x61]).Unchanged lowPage lowPage c) ∧
    ∃ c, (lowCaller [0x2f, 0x62]).execve lowPage missingFile 8 8 (fun _ => 0) (fun _ => 0) =
        .ok (.returned (-ENOENT), c, lowPage) ∧
      ¬(lowCaller [0x2f, 0x62]).Unchanged lowPage lowPage c := by
  constructor
  · obtain ⟨c, hrun⟩ : ∃ c, (lowCaller [0x2f, 0x61]).execve lowPage missingFile 8 8 (fun _ => 0)
        (fun _ => 0) = .ok (.returned (-ENOENT), c, lowPage) := ⟨_, rfl⟩
    exact ⟨c, hrun, (failed_execve_unchanged hrun).1 (.inr (.inr (.inr ⟨rfl, ENOENT, rfl⟩)))⟩
  · obtain ⟨c, hrun⟩ : ∃ c, (lowCaller [0x2f, 0x62]).execve lowPage missingFile 8 8 (fun _ => 0)
        (fun _ => 0) = .ok (.returned (-ENOENT), c, lowPage) := ⟨_, rfl⟩
    refine ⟨c, hrun, fun hkept => ?_⟩
    have hearly := (failed_execve_unchanged hrun).2 (.inl (by decide)) hkept
    rw [Caller.failsEarly_iff (by decide) rfl] at hearly
    exact absurd hearly.1 (by decide)

theorem lowPage_ready : SpaceReady lowPage 1 := by
  have hheld : heldFrames lowPage.mem 1 = {1, 2, 3, 4, 5} := onePage_held.2
  refine ⟨kernelPage_ready.vm.addressable, onePage_ready.sound, ?_⟩
  rw [hheld]
  decide +kernel

theorem lowPage_dupAll : dupAll lowPage 1 (fun _ => 0) 8 = .ok ([], lowPage) := by
  have hfirst : Post (loadWord lowPage 1 (8 + 8 * 0)) (fun w => w = 0) fun _ => False := by
    decide +kernel
  obtain ⟨w, hword, rfl⟩ := hfirst.returns
  change dupStrings 1 (fun _ => 0) 8 (2 ^ 61 - 1 + 1) 0 lowPage = _
  rw [dupStrings, hword]
  rfl

def textFile : ElfFile := ⟨fun _ => 0x61, fun _ _ => 0x61⟩

/-- `execve` of a text file returns an error to a caller whose pages are gone. -/
theorem failed_execve_unmaps : SpaceReady lowPage 1 ∧
    ∃ c s', (lowCaller [0x2f, 0x61]).execve lowPage ⟨.ok [0x2f, 0x61], .ok (), some textFile⟩ 8 8
        (fun _ => 0) (fun _ => 0) = .ok (.returned (-ENOENT), c, s') ∧
      ¬(lowCaller [0x2f, 0x61]).Unchanged lowPage s' c := by
  have hclear : 16384 ≤ lowPage.pmm.clearBits.card := le_trans (by decide) kernelPage_clear
  obtain ⟨⟨rsp, u⟩, hprepare, -⟩ := (execPrepare_nil lowPage_ready hclear lowPage_dupAll
    lowPage_dupAll).returns
  have hrun : (lowCaller [0x2f, 0x61]).execve lowPage ⟨.ok [0x2f, 0x61], .ok (), some textFile⟩ 8 8
      (fun _ => 0) (fun _ => 0) =
        .ok (.returned (-ENOENT), { lowCaller [0x2f, 0x61] with rsp := rsp }, u) := by
    have hvalid : elfValidate textFile ET_EXEC = false := by decide
    rw [Caller.execve, sysExecve_load (by decide) rfl rfl, lowCaller, hprepare, ok_bind]
    dsimp only
    rw [elfExecLoad_invalid hvalid]
    rfl
  have hsettled : (lowCaller [0x2f, 0x61]).Settled lowPage ⟨.ok [0x2f, 0x61], .ok (), some textFile⟩
      8 8 (fun _ => 0) (fun _ => 0) := by
    refine ⟨lowPage_ready, ⟨fun args w hargs => ?_, nofun⟩, 0, by decide, by decide⟩
    cases lowPage_dupAll.symm.trans hargs
    refine ⟨by decide, fun envs w henvs => ?_⟩
    cases lowPage_dupAll.symm.trans henvs
    decide
  refine ⟨lowPage_ready, _, u, hrun, fun hkept => ?_⟩
  obtain ⟨v, hv, hne⟩ := hsettled.unmapped hprepare
  exact hne (hkept.mappings v hv)

end Samples

end GarnOS
