import GarnOS.Dal.Bcache
import GarnOS.Library.Runs

/-! The list of the buffer cache: which releases keep it, and which one breaks it. -/
namespace GarnOS
open Outcome Chain Relation List

section Stores
variable {δ : Type} {c : BCache δ} {i x : BufId} {v : Option BufId}

theorem setNext_buf : (c.setNext i v).buf x =
    { c.buf x with next := if x = i then v else c.next x } := by
  by_cases hx : x = i
  · simp [BCache.setNext, hx]
  · simp [BCache.setNext, BCache.next, hx]

theorem setPrev_buf : (c.setPrev i v).buf x =
    { c.buf x with prev := if x = i then v else c.prev x } := by
  by_cases hx : x = i
  · simp [BCache.setPrev, hx]
  · simp [BCache.setPrev, BCache.prev, hx]

@[simp] theorem leaveHead_buf : (bcacheLeaveHead c i).buf = c.buf := by
  unfold bcacheLeaveHead
  split <;> rfl

theorem skipBack_buf : (bcacheSkipBack c i).buf x =
    { c.buf x with prev := if c.next i = some x then c.prev i else c.prev x } := by
  unfold bcacheSkipBack
  cases c.next i with
  | none => rfl
  | some n => simp [setPrev_buf, eq_comm]

theorem skip_buf : (bcacheSkip c i).buf x =
    { c.buf x with next := if c.prev i = some x then c.next i else c.next x } := by
  unfold bcacheSkip
  cases c.prev i with
  | none => rfl
  | some p => simp [setNext_buf, eq_comm]

@[simp] theorem setNext_fixed : (c.setNext i v).head = c.head ∧ (c.setNext i v).tail = c.tail ∧
    (c.setNext i v).drives = c.drives := ⟨rfl, rfl, rfl⟩

@[simp] theorem setPrev_fixed : (c.setPrev i v).head = c.head ∧ (c.setPrev i v).tail = c.tail ∧
    (c.setPrev i v).drives = c.drives := ⟨rfl, rfl, rfl⟩

@[simp] theorem leaveHead_fixed :
    (bcacheLeaveHead c i).head = (if c.head = some i then c.next i else c.head) ∧
      (bcacheLeaveHead c i).tail = c.tail ∧ (bcacheLeaveHead c i).drives = c.drives := by
  unfold bcacheLeaveHead
  split <;> exact ⟨rfl, rfl, rfl⟩

@[simp] theorem skipBack_fixed : (bcacheSkipBack c i).head = c.head ∧
    (bcacheSkipBack c i).tail = c.tail ∧ (bcacheSkipBack c i).drives = c.drives := by
  unfold bcacheSkipBack
  split <;> exact ⟨rfl, rfl, rfl⟩

@[simp] theorem skip_fixed : (bcacheSkip c i).head = c.head ∧ (bcacheSkip c i).tail = c.tail ∧
    (bcacheSkip c i).drives = c.drives := by
  unfold bcacheSkip
  split <;> exact ⟨rfl, rfl, rfl⟩

end Stores

section Relink
variable {δ : Type} {c : BCache δ} {i x : BufId} {p q : List BufId}

@[simp] theorem relink_tail : (bcacheRelink c i).tail = i := rfl

theorem relink_prev_self : (bcacheRelink c i).prev i = some c.tail := by
  simp [bcacheRelink, BCache.prev, BCache.setNext, BCache.setPrev]

/-- The stores of `bcache_release` on a list where the buffer is not last and not linked to
itself. -/
theorem relink_buf (htail : i ≠ c.tail) (hnext : c.next i ≠ some i) (hprev : c.prev i ≠ some i)
    (x : BufId) : (bcacheRelink c i).buf x =
      { c.buf x with
        next := if x = i then none else if c.prev i = some x then c.next i
          else if x = c.tail then some i else c.next x
        prev := if x = i then some c.tail else if c.next i = some x then c.prev i else c.prev x
        valid := if x = i then false else (c.buf x).valid } := by
  by_cases hx : x = i
  · subst hx
    simp [bcacheRelink, setNext_buf, setPrev_buf, skip_buf, skipBack_buf]
  · simp only [BCache.next, BCache.prev] at hnext hprev ⊢
    simp [bcacheRelink, setNext_buf, setPrev_buf, skip_buf, skipBack_buf, BCache.next, BCache.prev,
      hx, htail, hnext, hprev]
    constructor <;> congr

theorem relink_head (htail : i ≠ c.tail) :
    (bcacheRelink c i).head = if c.head = some i then c.next i else c.head := by
  simp [bcacheRelink, BCache.next, setNext_buf, htail]

@[simp] theorem relink_drives : (bcacheRelink c i).drives = c.drives := by simp [bcacheRelink]

theorem relink_linked (hl : Linked c.next c.prev c.head (some c.tail) (p ++ i :: q))
    (htail : i ≠ c.tail) :
    Linked (bcacheRelink c i).next (bcacheRelink c i).prev (bcacheRelink c i).head (some i)
      (p ++ q ++ [i]) := by
  have hq : q ≠ [] := by
    rintro rfl
    have hlast := hl.tail_eq
    rw [getLast?_concat] at hlast
    exact htail (Option.some.inj hlast).symm
  have hni := hl.next_ne_self
  have hpi := hl.prev_ne_self
  rw [relink_head htail]
  apply hl.move_last hq
  · intro x
    simp [BCache.next, relink_buf htail hni hpi, Option.some.injEq, eq_comm]
  · intro x
    simp [BCache.prev, relink_buf htail hni hpi]

end Relink

section Release
variable {δ : Type} {c : BCache δ} {i : BufId}

theorem release_free (h : (c.buf i).refCount = 0) : bcacheRelease c i = c := if_pos h

theorem release_last (h : (c.buf i).refCount = 1) :
    bcacheRelease c i = bcacheRelink (c.setBuf i { c.buf i with refCount := 0 }) i := by
  simp [bcacheRelease, h]

theorem release_held (h0 : (c.buf i).refCount ≠ 0) (h1 : (c.buf i).refCount ≠ 1) :
    bcacheRelease c i = c.setBuf i { c.buf i with refCount := (c.buf i).refCount - 1 } := by
  have hsub : (c.buf i).refCount - 1 ≠ 0 := by bv_omega
  unfold bcacheRelease
  rw [if_neg h0]
  dsimp only
  rw [setBuf_self, if_neg hsub]

end Release

section Order
variable {δ : Type} {zero : δ} {drives : ℕ → Drive δ} {c c' : BCache δ} {i : BufId}
    {drive block : ℕ}
  {r : Option BufId} {l : List BufId}

/-- The list from `head` via `next` visits each buffer exactly once and ends at `tail`, and `prev`
is the inverse of `next`. -/
def BCache.InOrder (c : BCache δ) : Prop :=
  ∃ l, Visits c.next c.head l ∧ (∀ i, l.count i = 1) ∧ l.getLast? = some c.tail ∧
    ∀ i j, c.next i = some j ↔ c.prev j = some i

structure BCache.Listed (c : BCache δ) (l : List BufId) : Prop where
  linked : Linked c.next c.prev c.head (some c.tail) l
  all : ∀ i, i ∈ l

theorem BCache.Listed.inOrder (h : c.Listed l) : c.InOrder :=
  ⟨l, h.linked.forward, fun i => count_eq_one_of_mem h.linked.nodup (h.all i),
    h.linked.tail_eq.symm, fun i j => h.linked.inverse (h.all i) (h.all j)⟩

theorem BCache.Listed.length_le (h : c.Listed l) : l.length ≤ BCACHE_BUF_COUNT := by
  simpa using h.linked.nodup.length_le_card

theorem init_listed (zero : δ) (drives : ℕ → Drive δ) :
    (bcacheInit zero drives).Listed (List.finRange BCACHE_BUF_COUNT) := by
  have hforward : Visits initNext (some 0) (finRange BCACHE_BUF_COUNT) := by decide
  have hback : Visits initPrev (some 29) (finRange BCACHE_BUF_COUNT).reverse := by decide
  exact ⟨⟨hforward, hback⟩, mem_finRange⟩

section
variable (h : c.Listed l)
include h

theorem BCache.Listed.setBuf {b : Buf δ} (hnext : b.next = (c.buf i).next)
    (hprev : b.prev = (c.buf i).prev) : (c.setBuf i b).Listed l := by
  refine ⟨?_, h.all⟩
  rw [setBuf_next hnext, setBuf_prev hprev]
  exact h.linked

theorem BCache.Listed.get (hget : bcacheGet c drive block = .ok (r, c')) : c'.Listed l := by
  cases bcacheGet_ok h.linked.forward h.length_le hget with
  | hit i | loaded i | failed i => exact h.setBuf rfl rfl

theorem BCache.Listed.release (hsafe : i = c.tail → (c.buf i).refCount ≠ 1) :
    ∃ l', (bcacheRelease c i).Listed l' := by
  by_cases h0 : (c.buf i).refCount = 0
  · rw [release_free h0]
    exact ⟨l, h⟩
  by_cases h1 : (c.buf i).refCount = 1
  · have htail : i ≠ c.tail := fun heq => hsafe heq h1
    obtain ⟨p, q, rfl⟩ := append_of_mem (h.all i)
    have h' : (c.setBuf i { c.buf i with refCount := 0 }).Listed (p ++ i :: q) := h.setBuf rfl rfl
    rw [release_last h1]
    refine ⟨p ++ q ++ [i], relink_linked h'.linked htail, fun j => ?_⟩
    have hj := h.all j
    simp only [mem_append, mem_cons, not_mem_nil, or_false] at hj ⊢
    tauto
  · rw [release_held h0 h1]
    exact ⟨l, h.setBuf rfl rfl⟩

theorem BCache.Listed.release_buf (hheld : (c.buf i).refCount ≠ 0)
    (hsafe : i = c.tail → (c.buf i).refCount ≠ 1) (x : BufId) :
    ∃ next prev, (bcacheRelease c i).buf x =
      { c.buf x with
        refCount := if x = i then (c.buf i).refCount - 1 else (c.buf x).refCount
        valid := if x = i ∧ (c.buf i).refCount = 1 then false else (c.buf x).valid
        next := next, prev := prev } := by
  by_cases h1 : (c.buf i).refCount = 1
  · have htail : i ≠ c.tail := fun heq => hsafe heq h1
    obtain ⟨p, q, rfl⟩ := append_of_mem (h.all i)
    have h' : (c.setBuf i { c.buf i with refCount := 0 }).Listed (p ++ i :: q) := h.setBuf rfl rfl
    have hbuf := relink_buf (c := c.setBuf i { c.buf i with refCount := 0 }) htail
      h'.linked.next_ne_self h'.linked.prev_ne_self x
    refine ⟨((bcacheRelease c i).buf x).next, ((bcacheRelease c i).buf x).prev, ?_⟩
    rw [release_last h1, hbuf]
    by_cases hx : x = i
    · subst hx
      simp only [setBuf_self, h1, and_self, if_true]
      rfl
    · simp only [setBuf_of_ne hx, hx, if_false, false_and]
  · rw [release_held hheld h1]
    refine ⟨(c.buf x).next, (c.buf x).prev, ?_⟩
    by_cases hx : x = i
    · subst hx
      simp only [setBuf_self, h1, and_false, if_true, if_false]
    · simp [hx]

end

theorem release_drives : (bcacheRelease c i).drives = c.drives := by
  unfold bcacheRelease
  split
  · rfl
  · dsimp only
    split
    · rw [relink_drives, setBuf_drives]
    · rfl

theorem release_tail (h1 : (c.buf c.tail).refCount = 1) : ¬(bcacheRelease c c.tail).InOrder := by
  rintro ⟨l, hvisits, -, hlast, hinverse⟩
  rw [release_last h1] at *
  have hself := (hinverse c.tail c.tail).mpr relink_prev_self
  obtain ⟨p, rfl⟩ := getLast?_eq_some_iff.mp hlast
  have hend := hvisits.next_eq
  rw [relink_tail, hself] at hend
  cases hend

inductive BcacheStep : BCache δ → BCache δ → Prop
  | get {c c' : BCache δ} {r : Option BufId} (drive block : ℕ)
      (hget : bcacheGet c drive block = .ok (r, c')) : BcacheStep c c'
  | release {c : BCache δ} (i : BufId) : BcacheStep c (bcacheRelease c i)

/-- No step gives up the last reference to the last buffer on the list. -/
inductive TailKeptStep : BCache δ → BCache δ → Prop
  | get {c c' : BCache δ} {r : Option BufId} (drive block : ℕ)
      (hget : bcacheGet c drive block = .ok (r, c')) : TailKeptStep c c'
  | release {c : BCache δ} (i : BufId) (hsafe : i = c.tail → (c.buf i).refCount ≠ 1) :
      TailKeptStep c (bcacheRelease c i)

theorem TailKeptStep.listed (hstep : TailKeptStep c c') (h : ∃ l, c.Listed l) :
    ∃ l, c'.Listed l := by
  obtain ⟨l, h⟩ := h
  cases hstep with
  | get drive block hget => exact ⟨l, h.get hget⟩
  | release i hsafe => exact h.release hsafe

/-- The list stays in order in every run in which the last reference to a buffer is not given up
while the buffer is last on the list, and such a release breaks it at once. -/
theorem bcache_list_in_order (hrun : ReflTransGen TailKeptStep (bcacheInit zero drives) c) :
    c.InOrder ∧ ∀ i, (bcacheRelease c i).InOrder ↔ ¬(i = c.tail ∧ (c.buf i).refCount = 1) := by
  obtain ⟨l, h⟩ : ∃ l, c.Listed l :=
    @Runs.invariant _ _ (fun c => ∃ l, BCache.Listed c l) _ _ (fun _ _ h hstep => hstep.listed h)
      ⟨_, init_listed zero drives⟩ hrun
  refine ⟨h.inOrder, fun i => ⟨?_, fun hsafe => ?_⟩⟩
  · rintro horder ⟨rfl, h1⟩
    exact release_tail h1 horder
  · obtain ⟨l', h'⟩ := h.release fun heq h1 => hsafe ⟨heq, h1⟩
    exact h'.inOrder

def ramDrive (content : ℕ → δ) : Drive δ where
  content := content
  read := some fun content block _ => (0, content block)
  write := some fun content block data => (0, Function.update content block data)

theorem bcache_list_in_order_get_release :
    ∃ c c' : BCache ℕ, bcacheGet (bcacheInit 0 fun _ => ramDrive id) 0 5 = .ok (some 0, c) ∧
      c' = bcacheRelease c 0 ∧ c'.tail = 0 ∧ c'.InOrder := by
  have hget : bcacheGet (bcacheInit 0 fun _ => ramDrive id) 0 5 = .ok (some 0, _) := rfl
  have hrun := (ReflTransGen.single (TailKeptStep.get 0 5 hget)).tail (.release 0 nofun)
  exact ⟨_, _, hget, rfl, rfl, (bcache_list_in_order hrun).1⟩

def getBlocks : List ℕ → BCache δ → Except Fault (BCache δ)
  | [], c => .ok c
  | block :: blocks, c => do
    let (_, c) ← bcacheGet c 0 block
    getBlocks blocks c

theorem getBlocks_reaches (blocks : List ℕ) (h : getBlocks blocks c = .ok c') :
    ReflTransGen BcacheStep c c' := by
  induction blocks generalizing c with
  | nil =>
    cases h
    exact .refl
  | cons block blocks ih =>
    obtain ⟨⟨r, d⟩, hget, hrest⟩ := bind_eq_ok.mp h
    exact .head (.get 0 block hget) (ih hrest)

/-- With all buffers held, the release of the last one breaks the list. -/
theorem bcache_list_broken : ∃ c : BCache ℕ,
    ReflTransGen BcacheStep (bcacheInit 0 fun _ => ramDrive id) c ∧ (∀ i, (c.buf i).refCount ≠ 0) ∧
      BcacheStep c (bcacheRelease c c.tail) ∧ ¬(bcacheRelease c c.tail).InOrder := by
  have hfill : Post (getBlocks (range BCACHE_BUF_COUNT) (bcacheInit 0 fun _ => ramDrive id))
      (fun c => ∀ i, (c.buf i).refCount = 1) fun _ => False := by
    decide +kernel
  obtain ⟨c, hrun, hone⟩ := hfill.returns
  have hheld : ∀ i, (c.buf i).refCount ≠ 0 := fun i => by simp [hone]
  exact ⟨c, getBlocks_reaches _ hrun, hheld, .release _, release_tail (hone _)⟩

end Order

end GarnOS
