import Mathlib.Data.Finset.Basic

/-! Programs that take and give back spinlocks: how a program can get stuck on them, sections with
early exits, and the rules that show a program to leave the locks as it found them. -/
namespace Locks
variable {L ε : Type} {α β σ τ : Type}

/-- How a program ends without a result: it waits for a lock that it holds itself, it gives back a
lock that it does not hold, or it fails for a reason of its own. -/
inductive Stop (L ε : Type) where
  | deadlock (l : L)
  | unheld (l : L)
  | fault (e : ε)
  deriving DecidableEq, Repr

abbrev LockM (L ε : Type) := StateT (Finset L) (Except (Stop L ε))

def lift (x : Except ε α) : LockM L ε α := fun held =>
  match x with
  | .ok a => .ok (a, held)
  | .error e => .error (.fault e)

@[simp] theorem lift_ok (a : α) : (lift (.ok a) : LockM L ε α) = pure a := rfl

/-- The program returns with the same locks held, or fails for a reason of its own. -/
def Clean (S : Set L) (m : LockM L ε α) : Prop :=
  ∀ held : Finset L, (∀ l ∈ S, l ∉ held) →
    match m held with
    | .ok (_, held') => held' = held
    | .error (.fault _) => True
    | .error _ => False

/-- When the locks of `S` are free, the program does what `u` does and leaves them alone. -/
def Transparent (S : Set L) (m : LockM L ε α) (u : Except ε α) : Prop :=
  ∀ held : Finset L, (∀ l ∈ S, l ∉ held) → m held = (lift u : LockM L ε α) held

section Rules
variable {S T : Set L} {m : LockM L ε α} {u : Except ε α}

theorem bind_apply (k : α → LockM L ε β) (held : Finset L) :
    (m >>= k) held = (m held >>= fun r => k r.1 r.2) := rfl

theorem clean_map_iff (f : α → β) : Clean S (f <$> m) ↔ Clean S m := by
  have hmap : ∀ held, (f <$> m) held = (m held >>= fun r => .ok (f r.1, r.2)) := fun _ => rfl
  refine forall₂_congr fun held _ => ?_
  rw [hmap]
  cases m held with
  | ok r => exact Iff.rfl
  | error e => cases e <;> exact Iff.rfl

theorem Clean.discard (h : Clean S m) : Clean S ((fun _ => ()) <$> m) ↔ True :=
  iff_of_true ((clean_map_iff _).mpr h) trivial

theorem Transparent.clean (h : Transparent S m u) : Clean S m := by
  intro held hS
  rw [h held hS]
  cases u with
  | ok a => exact rfl
  | error e => trivial

variable {u' : Except ε α}

theorem Transparent.congr (h : Transparent S m u) (hu : u = u') : Transparent S m u' := hu ▸ h

theorem transparent_lift (u : Except ε α) : Transparent S (lift u) u := fun _ _ => rfl

theorem transparent_pure (a : α) : Transparent S (pure a : LockM L ε α) (.ok a) := fun _ _ => rfl

theorem Transparent.bind {k : α → LockM L ε β} {f : α → Except ε β} (h : Transparent S m u)
    (hk : ∀ a, Transparent S (k a) (f a)) : Transparent S (m >>= k) (u >>= f) := by
  intro held hS
  rw [bind_apply, h held hS]
  cases u with
  | ok a => exact hk a held hS
  | error e => rfl

theorem Transparent.ite {c : Prop} [Decidable c] {m' : LockM L ε α} (h : Transparent S m u)
    (h' : Transparent S m' u') : Transparent S (if c then m else m') (if c then u else u') := by
  split
  · exact h
  · exact h'

end Rules

variable [DecidableEq L]

def acquireLock (l : L) : LockM L ε Unit := fun held =>
  if l ∈ held then .error (.deadlock l) else .ok ((), insert l held)

def releaseLock (l : L) : LockM L ε Unit := fun held =>
  if l ∈ held then .ok ((), held.erase l) else .error (.unheld l)

/-- A section: the lock is taken before `cmds` and given back after it. Commands that end in
`.inr` have left the section with a `return`, past the release. -/
def lockBlock (l : L) (cmds : LockM L ε (σ ⊕ α)) (rest : σ → LockM L ε α) : LockM L ε α := do
  acquireLock l
  match ← cmds with
  | .inl s =>
    releaseLock l
    rest s
  | .inr r => return r

def foreach (step : σ → α → LockM L ε (σ ⊕ β)) : List α → σ → LockM L ε (σ ⊕ β)
  | [], s => return .inl s
  | a :: as, s => do
    match ← step s a with
    | .inl s => foreach step as s
    | .inr r => return .inr r

/-- The commands of a section of `l`: they fall through with the lock held, or return without it. -/
def Guarded (l : L) (S : Set L) (cmds : LockM L ε (σ ⊕ α)) (u : Except ε (σ ⊕ α)) : Prop :=
  ∀ held : Finset L, l ∉ held → (∀ k ∈ S, k ∉ held) → cmds (insert l held) =
    match u with
    | .ok (.inl s) => .ok (.inl s, insert l held)
    | .ok (.inr r) => .ok (.inr r, held)
    | .error e => .error (.fault e)

section Sections
variable {S T : Set L} {l : L} {cmds cmds' : LockM L ε (σ ⊕ α)} {v v' : Except ε (σ ⊕ α)}

theorem guarded_fall (s : σ) : Guarded l S (pure (.inl s) : LockM L ε (σ ⊕ α)) (.ok (.inl s)) :=
  fun _ _ _ => rfl

theorem guarded_fault (e : ε) :
    Guarded l S (lift (.error e) : LockM L ε (σ ⊕ α)) (.error e) := fun _ _ _ => rfl

theorem guarded_return (r : α) :
    Guarded l S (do releaseLock l; return .inr r : LockM L ε (σ ⊕ α)) (.ok (.inr r)) := by
  intro held hl _
  rw [bind_apply]
  simp only [releaseLock, Finset.mem_insert_self, if_true, Finset.erase_insert hl]
  rfl

variable {k : β → LockM L ε (σ ⊕ α)} {p : LockM L ε β} {w : Except ε β} {rest : σ → LockM L ε α}
  {f : σ → Except ε α}

section
variable (h : Transparent T p w) (hTS : T ⊆ S) (hl : l ∉ T)
include h hTS hl

theorem Guarded.bind {f : β → Except ε (σ ⊕ α)} (hk : ∀ b, Guarded l S (k b) (f b)) :
    Guarded l S (p >>= k) (w >>= f) := by
  intro held hheld hS
  have hfree : ∀ k ∈ T, k ∉ insert l held := by
    intro k hkT hmem
    rcases Finset.mem_insert.mp hmem with rfl | hin
    · exact hl hkT
    · exact hS k (hTS hkT) hin
  rw [bind_apply, h _ hfree]
  cases w with
  | ok b => exact hk b held hheld hS
  | error e => rfl

theorem Guarded.exists_bind (hk : ∀ b, ∃ f, Guarded l S (k b) f) :
    ∃ f, Guarded l S (p >>= k) f := by
  choose f hf using hk
  exact ⟨_, Guarded.bind h hTS hl hf⟩

end

theorem Guarded.ite {c : Prop} [Decidable c] (h : Guarded l S cmds v)
    (h' : Guarded l S cmds' v') : Guarded l S (if c then cmds else cmds')
    (if c then v else v') := by
  split
  · exact h
  · exact h'

theorem guarded_foreach {step : σ → β → LockM L ε (σ ⊕ α)} {as : List β}
    (hstep : ∀ s, ∀ b ∈ as, ∃ w, Guarded l S (step s b) w) (s : σ) :
    ∃ w, Guarded l S (foreach step as s) w := by
  induction as generalizing s with
  | nil => exact ⟨_, guarded_fall s⟩
  | cons b as ih =>
    have ih := ih fun s b hb => hstep s b (List.mem_cons_of_mem _ hb)
    obtain ⟨w, hw⟩ := hstep s b List.mem_cons_self
    cases w with
    | error e =>
      refine ⟨.error e, fun held hl hS => ?_⟩
      simp only [foreach, bind_apply, hw held hl hS]
      rfl
    | ok r =>
      cases r with
      | inl s' =>
        obtain ⟨w', hw'⟩ := ih s'
        refine ⟨w', fun held hl hS => ?_⟩
        simp only [foreach, bind_apply, hw held hl hS]
        exact hw' held hl hS
      | inr r =>
        refine ⟨.ok (.inr r), fun held hl hS => ?_⟩
        simp only [foreach, bind_apply, hw held hl hS]
        rfl

theorem Guarded.lockBlock (h : Guarded l S cmds v) (hl : l ∈ T) (hST : S ⊆ T)
    (hrest : ∀ s, Transparent T (rest s) (f s)) :
    Transparent T (lockBlock l cmds rest) (v >>= fun r => r.elim f .ok) := by
  intro held hT
  have hnot := hT l hl
  have hcmds := h held hnot fun k hk => hT k (hST hk)
  simp only [Locks.lockBlock, bind_apply, acquireLock, if_neg hnot]
  show (cmds (insert l held) >>= _) = _
  rw [hcmds]
  cases v with
  | error e => rfl
  | ok r =>
    cases r with
    | inr r => rfl
    | inl s =>
      have hrel : (releaseLock l : LockM L ε Unit) (insert l held) = .ok ((), held) := by
        simp only [releaseLock, Finset.mem_insert_self, if_true, Finset.erase_insert hnot]
      show ((releaseLock l : LockM L ε Unit) (insert l held) >>= fun r => rest s r.2) = _
      rw [hrel]
      exact hrest s held hT

theorem clean_lockBlock_of (h : ∃ w, Guarded l S cmds w)
    (hrest : ∀ s, Transparent (insert l S) (rest s) (f s)) :
    Clean (insert l S) (lockBlock l cmds rest) := by
  obtain ⟨w, hw⟩ := h
  exact (hw.lockBlock (Set.mem_insert l S) (Set.subset_insert l S) hrest).clean

theorem clean_lockBlock {g : σ → α} (h : ∃ w, Guarded l S cmds w) :
    Clean (insert l S) (lockBlock l cmds fun s => pure (g s)) :=
  clean_lockBlock_of h fun s => transparent_pure (g s)

/-- A loop that gives the lock back where it returns. -/
theorem clean_scan {c : σ → β → Prop} [∀ s b, Decidable (c s b)] {r : σ → β → α}
    {next : σ → β → σ} {g : σ → α} (as : List β) (s : σ) :
    Clean (ε := ε) {l} (lockBlock l (foreach (fun s b =>
      if c s b then do releaseLock l; return .inr (r s b) else return .inl (next s b)) as s)
      fun s => pure (g s)) := by
  rw [← LawfulSingleton.insert_empty_eq]
  refine clean_lockBlock (guarded_foreach (fun s b _ => ?_) s)
  split
  · exact ⟨_, guarded_return (r s b)⟩
  · exact ⟨_, guarded_fall (next s b)⟩

theorem lockBlock_leak {held held' : Finset L} {r : α} (rest : σ → LockM L ε α) (hl : l ∉ held)
    (h : cmds (insert l held) = .ok (.inr r, held')) :
    (lockBlock l cmds rest) held = .ok (r, held') := by
  simp only [Locks.lockBlock, bind_apply, acquireLock, if_neg hl]
  show (cmds (insert l held) >>= _) = _
  rw [h]
  rfl

end Sections

end Locks
