import GarnOS.Mem.Memutil

/-! The event hooks of uACPI. An event is a `spinlock_t` on the heap that the hooks count in, under
the lock `eventLock`. -/
namespace GarnOS.Uacpi
open ByteMemory Outcome List

/-- `lock bts qword [l], 0`, again until the bit was clear. -/
def acquireLock (m : Mem) (l : ℕ) : Except Fault Mem :=
  if (word m l).getLsbD 0 then .error .diverges else .ok (setWord m l (word m l ||| 1))

def releaseLock (m : Mem) (l : ℕ) : Mem := setWord m l (word m l &&& ~~~1)

/-- The value of `*(spinlock_t*)p++`, and `p` after it: the operator applies to the `void*`. -/
def derefPostInc (m : Mem) (p : ℕ) : BitVec 64 × ℕ := (word m p, u64 (p + 1))

/-- The value of `*(spinlock_t*)p--`, and `p` after it. -/
def derefPostDec (m : Mem) (p : ℕ) : BitVec 64 × ℕ := (word m p, u64 (p - 1))

/-- `uacpi_kernel_create_event`, for the block that `kmalloc` has returned. -/
def uacpiKernelCreateEvent (m : Mem) (event : ℕ) : Mem := memset m event 0 8

section Hooks
variable (eventLock : ℕ)

def uacpiKernelSignalEvent (m : Mem) (event : ℕ) : Except Fault Mem := do
  let m ← acquireLock m eventLock
  let _event := (derefPostInc m event).2
  return releaseLock m eventLock

def uacpiKernelResetEvent (m : Mem) (event : ℕ) : Except Fault Mem := do
  let m ← acquireLock m eventLock
  return releaseLock (setWord m event 0) eventLock

/-- The loop `while(timeout)`; `ksleep(1)` changes no memory of the hooks. -/
def waitLoop (m : Mem) (counter : ℕ) : ℕ → Bool × Mem
  | 0 => (false, releaseLock m eventLock)
  | timeout + 1 =>
    if 0 < word m counter then
      let _counter := (derefPostDec m counter).2
      (true, releaseLock m eventLock)
    else waitLoop m counter timeout

/-- The wait without a timeout holds the lock that a signal would need. -/
def uacpiKernelWaitForEvent (m : Mem) (counter : ℕ) (timeout : BitVec 16) :
    Except Fault (Bool × Mem) := do
  let m ← acquireLock m eventLock
  if timeout = 0xFFFF then
    if word m counter = 0 then .error .diverges
    else
      let _counter := (derefPostDec m counter).2
      return (true, releaseLock m eventLock)
  else return waitLoop eventLock m counter timeout.toNat

end Hooks

inductive EventCall where
  | signal
  | reset
  | wait (timeout : BitVec 16)
  deriving DecidableEq, Repr

/-- A call with what it returns; only a wait returns something. -/
abbrev EventResult := EventCall × Option Bool

section Runs
variable (eventLock event : ℕ)

def eventCall (m : Mem) : EventCall → Except Fault (Option Bool × Mem)
  | .signal => do return (none, ← uacpiKernelSignalEvent eventLock m event)
  | .reset => do return (none, ← uacpiKernelResetEvent eventLock m event)
  | .wait timeout => do
    let r ← uacpiKernelWaitForEvent eventLock m event timeout
    return (some r.1, r.2)

def eventRun : List EventCall → Mem → Except Fault (List EventResult × Mem)
  | [], m => .ok ([], m)
  | c :: cs, m => do
    let r ← eventCall eventLock event m c
    let rs ← eventRun cs r.2
    return ((c, r.1) :: rs.1, rs.2)

end Runs

def signals (cs : List EventCall) : ℕ := (cs.reverse.takeWhile (· ≠ .reset)).count .signal

def successes (rs : List EventResult) : ℕ :=
  (rs.reverse.takeWhile fun r => r.1 ≠ .reset).countP fun r => r.2 = some true

/-- A wait succeeds iff there were more signals than successful waits since the last reset. -/
def CountsSignals (rs : List EventResult) : Prop :=
  ∀ before timeout success after, rs = before ++ (.wait timeout, some success) :: after →
    (success = true ↔ successes before < signals (before.map Prod.fst))

/-- The lock is free and the counter has the value of a new event. -/
structure EventReady (eventLock event : ℕ) (m : Mem) : Prop where
  free : (word m eventLock).getLsbD 0 = false
  zero : word m event = 0
  apart : event + 8 ≤ eventLock ∨ eventLock + 8 ≤ event

section Facts
variable {eventLock event : ℕ} {m : Mem}

theorem release_acquired (h : (word m l).getLsbD 0 = false) :
    releaseLock (setWord m l (word m l ||| 1)) l = m := by
  have hbits : (word m l ||| 1) &&& ~~~1 = word m l := by
    apply BitVec.eq_of_getLsbD_eq
    intro i hi
    rw [BitVec.getLsbD_and, BitVec.getLsbD_or, BitVec.getLsbD_not]
    obtain rfl | hpos := Nat.eq_zero_or_pos i
    · rw [h]
      decide
    · have hone : (1 : BitVec 64).getLsbD i = false := by
        rw [show (1 : BitVec 64) = 1#64 from rfl, BitVec.getLsbD_one]
        simp only [Nat.ofNat_pos, decide_true, Bool.true_and, decide_eq_false_iff_not]
        omega
      rw [hone, Bool.or_false, Bool.not_false, decide_eq_true hi, Bool.and_self, Bool.and_true]
  rw [releaseLock, word_setWord, hbits, setWord_setWord, setWord_word]

theorem acquireLock_free (h : (word m l).getLsbD 0 = false) :
    acquireLock m l = .ok (setWord m l (word m l ||| 1)) :=
  if_neg (by rw [h]; decide)

theorem waitLoop_zero (hzero : word m event = 0) (timeout : ℕ) :
    waitLoop eventLock m event timeout = (false, releaseLock m eventLock) := by
  induction timeout with
  | zero => rfl
  | succ timeout ih => rw [waitLoop, if_neg (by simp [hzero]), ih]

def outcome : EventCall → EventResult
  | .wait timeout => (.wait timeout, some false)
  | c => (c, none)

theorem outcome_fst (c : EventCall) : (outcome c).1 = c := by cases c <;> rfl

theorem EventReady.call (h : EventReady eventLock event m) (c : EventCall)
    (hfinite : c ≠ .wait 0xFFFF) : eventCall eventLock event m c = .ok ((outcome c).2, m) := by
  have hzero : word (setWord m eventLock (word m eventLock ||| 1)) event = 0 := by
    rw [word_setWord_of_disjoint _ _ (h.apart.symm), h.zero]
  cases c with
  | signal =>
    simp only [eventCall, uacpiKernelSignalEvent, acquireLock_free h.free, pure, Except.pure, bind,
      Except.bind, release_acquired h.free, outcome]
  | reset =>
    have hstore := setWord_word (setWord m eventLock (word m eventLock ||| 1)) event
    rw [hzero] at hstore
    simp only [eventCall, uacpiKernelResetEvent, acquireLock_free h.free, pure, Except.pure, bind,
      Except.bind, hstore, release_acquired h.free, outcome]
  | wait timeout =>
    have htimeout : timeout ≠ 0xFFFF := fun heq => hfinite (heq ▸ rfl)
    simp only [eventCall, uacpiKernelWaitForEvent, acquireLock_free h.free, if_neg htimeout,
      waitLoop_zero hzero, release_acquired h.free, pure, Except.pure, bind, Except.bind, outcome]

theorem EventReady.run (h : EventReady eventLock event m) {cs : List EventCall}
    (hfinite : .wait 0xFFFF ∉ cs) : eventRun eventLock event cs m = .ok (cs.map outcome, m) := by
  induction cs with
  | nil => rfl
  | cons c cs ih =>
    obtain ⟨hhead, htail⟩ := not_or.mp (fun h => hfinite (mem_cons.mpr h))
    simp only [eventRun, h.call c (Ne.symm hhead), ih htail, pure, Except.pure, bind, Except.bind,
      map_cons]
    cases c <;> rfl

@[simp] theorem successes_outcome (cs : List EventCall) : successes (cs.map outcome) = 0 := by
  rw [successes, countP_eq_zero]
  intro r hr
  have hmem := takeWhile_sublist _ |>.subset hr
  rw [mem_reverse, mem_map] at hmem
  obtain ⟨c, -, rfl⟩ := hmem
  cases c <;> simp [outcome]

theorem map_fst_outcome (cs : List EventCall) : (cs.map outcome).map Prod.fst = cs := by
  rw [map_map]
  exact map_id'' outcome_fst cs

theorem countsSignals_outcome (cs : List EventCall) : CountsSignals (cs.map outcome) ↔
    ∀ before timeout after, cs = before ++ .wait timeout :: after → signals before = 0 := by
  constructor
  · rintro h before timeout after rfl
    have hcount := h (before.map outcome) timeout false (after.map outcome) (by simp [outcome])
    rw [successes_outcome, map_fst_outcome] at hcount
    simpa using hcount
  · intro h before timeout success after hsplit
    obtain ⟨cs₁, rest, rfl, rfl, hrest⟩ := map_eq_append_iff.mp hsplit
    obtain ⟨c, cs₂, rfl, hc, rfl⟩ := map_eq_cons_iff.mp hrest
    obtain rfl : c = .wait timeout := (outcome_fst c).symm.trans (congrArg Prod.fst hc)
    obtain rfl : success = false := by simpa [outcome] using hc.symm
    rw [successes_outcome, map_fst_outcome, h cs₁ timeout cs₂ rfl]
    simp

theorem createEvent_ready (hfree : (word m eventLock).getLsbD 0 = false)
    (hapart : event + 8 ≤ eventLock ∨ eventLock + 8 ≤ event) :
    EventReady eventLock event (uacpiKernelCreateEvent m event) := by
  unfold uacpiKernelCreateEvent
  rw [memset_eq_fill]
  refine ⟨?_, word_fill_zero m le_rfl le_rfl, hapart⟩
  rw [word_congr (fill_eqOn m 0 hapart), hfree]

end Facts

/-- The counter never leaves zero, so that a run counts its signals iff no wait comes while one is
pending. -/
theorem event_counts_iff {eventLock event : ℕ} {m : Mem}
    (hfree : (word m eventLock).getLsbD 0 = false)
    (hapart : event + 8 ≤ eventLock ∨ eventLock + 8 ≤ event) {cs : List EventCall}
    (hfinite : .wait 0xFFFF ∉ cs) :
    ∃ rs t, eventRun eventLock event cs (uacpiKernelCreateEvent m event) = .ok (rs, t) ∧
      ((CountsSignals rs ∧ ∀ x, ¬(event ≤ x ∧ x < event + 8) → t x = m x) ↔
        ∀ before timeout after, cs = before ++ .wait timeout :: after → signals before = 0) := by
  refine ⟨_, _, (createEvent_ready hfree hapart).run hfinite, ?_⟩
  rw [countsSignals_outcome]
  refine and_iff_left fun x hx => ?_
  unfold uacpiKernelCreateEvent
  rw [memset_eq_fill]
  exact if_neg hx

/-- A wait, a signal and a reset, and a wait after them. -/
theorem event_counts_iff_reset :
    ∃ rs t, eventRun 0 16 [.wait 5, .signal, .reset, .wait 5]
        (uacpiKernelCreateEvent (fun _ => 0) 16) = .ok (rs, t) ∧
      ((CountsSignals rs ∧ ∀ x, ¬(16 ≤ x ∧ x < 16 + 8) → t x = 0) ↔
        ∀ before timeout after, [.wait 5, .signal, .reset, .wait 5] =
          before ++ EventCall.wait timeout :: after → signals before = 0) :=
  event_counts_iff (by decide) (by decide) (by decide)

/-- A wait after a signal fails. -/
theorem signalled_wait_fails :
    ∃ rs t, eventRun 0 16 [.signal, .wait 5]
      (uacpiKernelCreateEvent (fun _ => 0) 16) = .ok (rs, t) ∧
      ¬CountsSignals rs := by
  refine ⟨_, _, (createEvent_ready (by decide) (by decide)).run (by decide), fun h => ?_⟩
  have hcount := h [(.signal, none)] 5 false [] rfl
  revert hcount
  decide

end GarnOS.Uacpi
