import GarnOS.Mem.Memutil
import GarnOS.Library.Chain

/-! The buffer cache: thirty block buffers on one list, free ones reused from the front. The
spinlocks and the log messages are left out; calls follow one another. -/
namespace GarnOS
open Outcome Chain

abbrev BCACHE_BUF_COUNT : ℕ := 30

abbrev BufId := Fin BCACHE_BUF_COUNT

structure Buf (δ : Type) where
  valid : Bool
  dirty : Bool
  refCount : BitVec 32
  data : δ
  block : ℕ
  drive : Option ℕ
  next : Option BufId
  prev : Option BufId

/-- What the cache uses of `drive_t`. The functions get the contents of the drive; `read` gets the
block and the old contents of the buffer and returns its status and what is in the buffer then. -/
structure Drive (δ : Type) where
  content : ℕ → δ
  read : Option ((ℕ → δ) → ℕ → δ → ℤ × δ)
  write : Option ((ℕ → δ) → ℕ → δ → ℤ × (ℕ → δ))

structure BCache (δ : Type) where
  head : Option BufId
  tail : BufId
  buf : BufId → Buf δ
  drives : ℕ → Drive δ

section Model
variable {δ : Type}

def BCache.next (c : BCache δ) (i : BufId) : Option BufId := (c.buf i).next

def BCache.prev (c : BCache δ) (i : BufId) : Option BufId := (c.buf i).prev

def BCache.setBuf (c : BCache δ) (i : BufId) (b : Buf δ) : BCache δ :=
  { c with buf := Function.update c.buf i b }

def BCache.setNext (c : BCache δ) (i : BufId) (v : Option BufId) : BCache δ :=
  c.setBuf i { c.buf i with next := v }

def BCache.setPrev (c : BCache δ) (i : BufId) (v : Option BufId) : BCache δ :=
  c.setBuf i { c.buf i with prev := v }

/-- The first loop of `bcache_init`, and the `NULL` behind the last buffer. -/
def initNext (i : BufId) : Option BufId :=
  if h : i.val + 1 < BCACHE_BUF_COUNT then some ⟨i.val + 1, h⟩ else none

/-- The second loop of `bcache_init`, and the `NULL` before the first buffer. -/
def initPrev (i : BufId) : Option BufId := if i.val = 0 then none else some ⟨i.val - 1, by omega⟩

def bcacheInit (zero : δ) (drives : ℕ → Drive δ) : BCache δ where
  head := some 0
  tail := 29
  buf := fun i =>
    { valid := false, dirty := false, refCount := 0, data := zero, block := 0, drive := none
      next := initNext i, prev := initPrev i }
  drives := drives

/-- The two loops of `bcache_get`: the first buffer from `i` on that satisfies the condition. More
than `fuel` buffers are only met on a list with a cycle. -/
def bcacheSearch (c : BCache δ) (p : Buf δ → Bool) : ℕ → Option BufId → Except Fault (Option BufId)
  | _, none => .ok none
  | 0, some _ => .error .diverges
  | fuel + 1, some i =>
    if p (c.buf i) then .ok (some i) else bcacheSearch c p fuel (c.buf i).next

/-- The status that the drive returns is not looked at. A missing drive faults at the address of
its field `read`. -/
def bcacheRead (c : BCache δ) (i : BufId) : Except Fault (ℤ × BCache δ) :=
  match (c.buf i).drive with
  | none => .error (.pageFault 40)
  | some d =>
    match (c.drives d).read with
    | none => .ok (-1, c)
    | some read =>
      let (_, data) := read (c.drives d).content (c.buf i).block (c.buf i).data
      .ok (0, c.setBuf i { c.buf i with data := data })

def isBlock (drive block : ℕ) (b : Buf δ) : Bool :=
  b.drive == some drive && b.block == block && b.valid

def isFreeBuf (b : Buf δ) : Bool := b.refCount == 0

/-- The buffer that a miss takes, before the block is read. -/
def claimBuf (drive block : ℕ) (b : Buf δ) : Buf δ :=
  { b with refCount := b.refCount + 1, block := block, drive := some drive, valid := true,
           dirty := false }

def bcacheGet (c : BCache δ) (drive block : ℕ) : Except Fault (Option BufId × BCache δ) := do
  match ← bcacheSearch c (isBlock drive block) BCACHE_BUF_COUNT c.head with
  | some i => return (some i, c.setBuf i { c.buf i with refCount := (c.buf i).refCount + 1 })
  | none =>
    match ← bcacheSearch c isFreeBuf BCACHE_BUF_COUNT c.head with
    | some i =>
      let (status, c) ← bcacheRead (c.setBuf i (claimBuf drive block (c.buf i))) i
      if status ≠ 0 then
        return (none, c.setBuf i { c.buf i with refCount := 0, valid := false })
      else return (some i, c)
    | none => .error (.panic "No available bcache buffers!" "bcache" [])

/-- One call of the drive's `write` function, which is a jump to address 0 if there is none. -/
def driveWrite (c : BCache δ) (d block : ℕ) (data : δ) : Except Fault (BCache δ) :=
  match (c.drives d).write with
  | none => .error (.pageFault 0)
  | some write =>
    let content := (write (c.drives d).content block data).2
    .ok { c with drives := Function.update c.drives d { c.drives d with content := content } }

/-- The block is written twice, the first time before `write` is checked. -/
def bcacheWrite (c : BCache δ) (i : BufId) : Except Fault (ℤ × BCache δ) :=
  if (c.buf i).dirty then
    match (c.buf i).drive with
    | none => .error (.pageFault 48)
    | some d => do
      let c ← driveWrite c d (c.buf i).block (c.buf i).data
      if (c.drives d).write.isSome then
        let c ← driveWrite c d (c.buf i).block (c.buf i).data
        return (0, c.setBuf i { c.buf i with dirty := false })
      else return (-1, c)
  else .ok (0, c)

/-- `if(buf == bcache.head) bcache.head = buf->next`. -/
def bcacheLeaveHead (c : BCache δ) (i : BufId) : BCache δ :=
  if c.head = some i then { c with head := c.next i } else c

def bcacheSkipBack (c : BCache δ) (i : BufId) : BCache δ :=
  match c.next i with
  | some n => c.setPrev n (c.prev i)
  | none => c

def bcacheSkip (c : BCache δ) (i : BufId) : BCache δ :=
  match c.prev i with
  | some p => c.setNext p (c.next i)
  | none => c

/-- The stores of `bcache_release` to the list, in their order: the buffer is linked behind the
last one before it is taken out. -/
def bcacheRelink (c : BCache δ) (i : BufId) : BCache δ :=
  let c := c.setNext c.tail (some i)
  let c := bcacheLeaveHead c i
  let c := bcacheSkipBack c i
  let c := bcacheSkip c i
  let c := c.setPrev i (some c.tail)
  let c := c.setNext i none
  let c := c.setBuf i { c.buf i with valid := false }
  { c with tail := i }

def bcacheRelease (c : BCache δ) (i : BufId) : BCache δ :=
  if (c.buf i).refCount = 0 then c
  else
    let c := c.setBuf i { c.buf i with refCount := (c.buf i).refCount - 1 }
    if (c.buf i).refCount = 0 then bcacheRelink c i else c

def sysSyncFrom : ℕ → Option BufId → BCache δ → Except Fault (BCache δ)
  | _, none, c => .ok c
  | 0, some _, _ => .error .diverges
  | fuel + 1, some i, c => do
    let c ← if (c.buf i).dirty then Prod.snd <$> bcacheWrite c i else .ok c
    sysSyncFrom fuel (c.buf i).next c

def sysSync (c : BCache δ) : Except Fault (BCache δ) := sysSyncFrom BCACHE_BUF_COUNT c.head c

end Model

section Lemmas
variable {δ : Type} {c c' : BCache δ} {i j : BufId} {b : Buf δ} {l : List BufId}

@[simp] theorem setBuf_self : (c.setBuf i b).buf i = b := Function.update_self ..

@[simp] theorem setBuf_of_ne (h : j ≠ i) : (c.setBuf i b).buf j = c.buf j :=
  Function.update_of_ne h ..

@[simp] theorem setBuf_head : (c.setBuf i b).head = c.head := rfl

@[simp] theorem setBuf_tail : (c.setBuf i b).tail = c.tail := rfl

@[simp] theorem setBuf_drives : (c.setBuf i b).drives = c.drives := rfl

@[simp] theorem setBuf_setBuf {b' : Buf δ} : (c.setBuf i b).setBuf i b' = c.setBuf i b' := by
  simp [BCache.setBuf]

theorem setBuf_next (h : b.next = (c.buf i).next) : (c.setBuf i b).next = c.next := by
  funext j
  by_cases hj : j = i
  · simp [BCache.next, hj, h]
  · simp [BCache.next, hj]

theorem setBuf_prev (h : b.prev = (c.buf i).prev) : (c.setBuf i b).prev = c.prev := by
  funext j
  by_cases hj : j = i
  · simp [BCache.prev, hj, h]
  · simp [BCache.prev, hj]

theorem bcacheSearch_eq (p : Buf δ → Bool) {fuel : ℕ} {start : Option BufId}
    (hv : Visits c.next start l) (hlen : l.length ≤ fuel) :
    bcacheSearch c p fuel start = .ok (l.find? fun i => p (c.buf i)) := by
  induction l generalizing fuel start with
  | nil =>
    obtain rfl := visits_nil.mp hv
    cases fuel <;> rfl
  | cons i l ih =>
    obtain ⟨rfl, hrest⟩ := hv
    obtain ⟨fuel, rfl⟩ : ∃ k, fuel = k + 1 := ⟨fuel - 1, by simp at hlen; omega⟩
    rw [bcacheSearch, List.find?_cons]
    cases hp : p (c.buf i) with
    | true => rfl
    | false => exact ih hrest (by simpa using hlen)

/-- What a `bcache_get` that returns does, on a cache whose list is `l`: it finds the block, or it
takes the first free buffer for it and loads it, or the drive has no read function. -/
inductive Got (l : List BufId) (c : BCache δ) (drive block : ℕ) : Option BufId → BCache δ → Prop
  | hit (i : BufId) (hfind : l.find? (fun j => isBlock drive block (c.buf j)) = some i) :
      Got l c drive block (some i)
        (c.setBuf i { c.buf i with refCount := (c.buf i).refCount + 1 })
  | loaded (i : BufId) (read : (ℕ → δ) → ℕ → δ → ℤ × δ)
      (hmiss : ∀ j ∈ l, ¬isBlock drive block (c.buf j))
      (hfree : l.find? (fun j => isFreeBuf (c.buf j)) = some i)
      (hread : (c.drives drive).read = some read) :
      Got l c drive block (some i) (c.setBuf i { claimBuf drive block (c.buf i) with
        data := (read (c.drives drive).content block (c.buf i).data).2 })
  | failed (i : BufId) (hmiss : ∀ j ∈ l, ¬isBlock drive block (c.buf j))
      (hfree : l.find? (fun j => isFreeBuf (c.buf j)) = some i)
      (hread : (c.drives drive).read = none) :
      Got l c drive block none (c.setBuf i
        { claimBuf drive block (c.buf i) with refCount := 0, valid := false })

theorem bcacheRead_claim (drive block : ℕ) :
    bcacheRead (c.setBuf i (claimBuf drive block (c.buf i))) i =
      match (c.drives drive).read with
      | none => .ok (-1, c.setBuf i (claimBuf drive block (c.buf i)))
      | some read => .ok (0, c.setBuf i { claimBuf drive block (c.buf i) with
          data := (read (c.drives drive).content block (c.buf i).data).2 }) := by
  cases hread : (c.drives drive).read with
  | none | some read => simp [bcacheRead, claimBuf, hread]

/-- A `bcache_get` returns, unless the block is not cached and no buffer is free. -/
theorem bcacheGet_eq (drive block : ℕ) (hv : Visits c.next c.head l)
    (hlen : l.length ≤ BCACHE_BUF_COUNT) :
    (∃ r c', bcacheGet c drive block = .ok (r, c') ∧ Got l c drive block r c') ∨
      bcacheGet c drive block = .error (.panic "No available bcache buffers!" "bcache" []) ∧
        ∀ j ∈ l, (c.buf j).refCount ≠ 0 := by
  unfold bcacheGet
  rw [bcacheSearch_eq _ hv hlen, bcacheSearch_eq _ hv hlen]
  cases hfind : l.find? (fun j => isBlock drive block (c.buf j)) with
  | some i => exact .inl ⟨_, _, rfl, .hit i hfind⟩
  | none =>
    have hmiss : ∀ j ∈ l, ¬isBlock drive block (c.buf j) := by simpa using hfind
    cases hfree : l.find? (fun j => isFreeBuf (c.buf j)) with
    | none =>
      refine .inr ⟨rfl, ?_⟩
      simpa [isFreeBuf] using hfree
    | some i =>
      left
      simp only [ok_bind, bcacheRead_claim]
      cases hread : (c.drives drive).read with
      | none =>
        refine ⟨_, _, rfl, ?_⟩
        simpa using Got.failed i hmiss hfree hread
      | some read => exact ⟨_, _, rfl, .loaded i read hmiss hfree hread⟩

theorem bcacheGet_ok {drive block : ℕ} {r : Option BufId} (hv : Visits c.next c.head l)
    (hlen : l.length ≤ BCACHE_BUF_COUNT) (hget : bcacheGet c drive block = .ok (r, c')) :
    Got l c drive block r c' := by
  obtain ⟨r', d, hok, hgot⟩ | ⟨herr, -⟩ := bcacheGet_eq drive block hv hlen
  · rw [hget] at hok
    cases hok
    exact hgot
  · rw [hget] at herr
    cases herr

end Lemmas

end GarnOS
