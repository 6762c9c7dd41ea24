import Mathlib.Tactic

/-! Postconditions of fallible computations, and counted loops whose body may stop early. -/
namespace Outcome
open List Nat
universe u v
variable {ε : Type v} {α β σ : Type u}

/-- `Post x ok err` bounds both ways a computation can end: a returned value
satisfies `ok`, an early exit satisfies `err`. -/
structure Post (x : Except ε α) (ok : α → Prop) (err : ε → Prop) : Prop where
  of_ok : ∀ {a}, x = .ok a → ok a
  of_error : ∀ {e}, x = .error e → err e

variable {x : Except ε α} {ok ok' : α → Prop} {err err' : ε → Prop}

@[simp] theorem post_ok {a : α} : Post (.ok a) ok err ↔ ok a := by
  constructor
  · intro h
    exact h.of_ok rfl
  · intro h
    exact ⟨fun he => Except.ok.inj he ▸ h, fun he => nomatch he⟩

@[simp] theorem post_pure {a : α} : Post (pure a) ok err ↔ ok a := post_ok

@[simp] theorem post_error {e : ε} : Post (.error e) ok err ↔ err e := by
  constructor
  · intro h
    exact h.of_error rfl
  · intro h
    exact ⟨fun he => (nomatch he), fun he => Except.error.inj he ▸ h⟩

instance Post.decidable [DecidablePred ok] [DecidablePred err] : Decidable (Post x ok err) :=
  match x with
  | .ok _ => decidable_of_iff _ post_ok.symm
  | .error _ => decidable_of_iff _ post_error.symm

@[simp] theorem ok_bind (a : α) (f : α → Except ε β) : ((.ok a : Except ε α) >>= f) = f a := rfl

@[simp] theorem error_bind (e : ε) (f : α → Except ε β) :
    ((.error e : Except ε α) >>= f) = .error e := rfl

theorem Post.mono (h : Post x ok err) (hok : ∀ a, ok a → ok' a) (herr : ∀ e, err e → err' e) :
    Post x ok' err' :=
  ⟨fun hx => hok _ (h.of_ok hx), fun hx => herr _ (h.of_error hx)⟩

theorem Post.mono_error (h : Post x ok err) (herr : ∀ e, err e → err' e) : Post x ok err' :=
  h.mono (fun _ ha => ha) herr

theorem Post.mono_ok (h : Post x ok err) (hok : ∀ a, ok a → ok' a) : Post x ok' err :=
  h.mono hok fun _ he => he

theorem Post.and (h : Post x ok err) (h' : Post x ok' err') :
    Post x (fun a => ok a ∧ ok' a) (fun e => err e ∧ err' e) :=
  ⟨fun hx => ⟨h.of_ok hx, h'.of_ok hx⟩, fun hx => ⟨h.of_error hx, h'.of_error hx⟩⟩

/-- Sequencing: the first postcondition is the precondition of the continuation. -/
theorem Post.bind {f : α → Except ε β} {mid : α → Prop} {ok : β → Prop} (h : Post x mid err)
    (hf : ∀ a, mid a → Post (f a) ok err) : Post (x >>= f) ok err := by
  cases x with
  | ok a => exact hf a (post_ok.mp h)
  | error e => exact post_error.mpr (post_error.mp h)

theorem Post.returns (h : Post x ok fun _ => False) : ∃ a, x = .ok a ∧ ok a := by
  cases x with
  | ok a => exact ⟨a, rfl, post_ok.mp h⟩
  | error e => exact (post_error.mp h).elim

theorem Post.fails (h : Post x (fun _ => False) err) : ∃ e, x = .error e ∧ err e := by
  cases x with
  | ok a => exact (post_ok.mp h).elim
  | error e => exact ⟨e, rfl, post_error.mp h⟩

theorem Post.returns_of_not (h : Post x ok err) (herr : ∀ e, ¬err e) : ∃ a, x = .ok a ∧ ok a :=
  (h.mono_error herr).returns

theorem bind_eq_ok {f : α → Except ε β} {b : β} :
    (x >>= f) = .ok b ↔ ∃ a, x = .ok a ∧ f a = .ok b := by
  cases x with
  | ok a | error e => simp

/-- Run `body lo`, `body (lo + 1)`, …, `body (lo + n - 1)` in order on a state. -/
def forRange (body : ℕ → σ → Except ε σ) : ℕ → ℕ → σ → Except ε σ
  | _, 0, s => .ok s
  | lo, n + 1, s => body lo s >>= forRange body (lo + 1) n

section
variable (body : ℕ → σ → Except ε σ) (lo n : ℕ) (s : σ)

@[simp] theorem forRange_zero :
    forRange body lo 0 s = .ok s := rfl

theorem forRange_succ :
    forRange body lo (n + 1) s = body lo s >>= forRange body (lo + 1) n := rfl

end

variable {body : ℕ → σ → Except ε σ} {lo n : ℕ} {s : σ}

/-- The loop rule: an invariant indexed by the next iteration, and a condition
that every early exit establishes. -/
theorem forRange_post (inv : ℕ → σ → Prop) (h0 : inv lo s)
    (hstep : ∀ i t, lo ≤ i → i < lo + n → inv i t → Post (body i t) (inv (i + 1)) err) :
    Post (forRange body lo n s) (inv (lo + n)) err := by
  induction n generalizing lo s with
  | zero => exact post_ok.mpr h0
  | succ n ih =>
    rw [forRange_succ]
    apply (hstep lo s le_rfl (by omega) h0).bind
    intro t ht
    have hrest := ih ht fun i u hlo hi hu => hstep i u (by omega) (by omega) hu
    simpa only [add_assoc, add_comm 1 n] using hrest

theorem forRange_ok {t : σ} (inv : ℕ → σ → Prop)
    (h : forRange body lo n s = .ok t) (h0 : inv lo s)
    (hstep : ∀ i u u', lo ≤ i → i < lo + n → inv i u → body i u = .ok u' → inv (i + 1) u') :
    inv (lo + n) t := by
  have hpost : Post (forRange body lo n s) (inv (lo + n)) fun _ => True :=
    forRange_post inv h0 fun i u hlo hi hu => ⟨hstep i u _ hlo hi hu, fun _ => trivial⟩
  exact hpost.of_ok h

theorem foldlM_post {f : σ → α → Except ε σ} (inv : σ → Prop) {l : List α} (h0 : inv s)
    (hstep : ∀ t a, inv t → Post (f t a) inv err) : Post (l.foldlM f s) inv err := by
  induction l generalizing s with
  | nil => exact post_ok.mpr h0
  | cons a l ih =>
    rw [foldlM_cons]
    exact (hstep s a h0).bind fun t ht => ih ht

theorem fold_invariant {f : ℕ → σ → σ} (inv : ℕ → σ → Prop) (h0 : inv 0 s)
    (hstep : ∀ i t, i < n → inv i t → inv (i + 1) (f i t)) :
    inv n (Nat.fold n (fun i _ => f i) s) := by
  induction n with
  | zero => exact h0
  | succ n ih =>
    rw [fold_succ]
    exact hstep n _ (lt_succ_self n) (ih fun i t hi => hstep i t (by omega))

theorem forRange_map {τ : Type u} {f : τ → σ} {body' : ℕ → τ → Except ε τ}
    (h : ∀ i t, (body' i t).map f = body i (f t)) (lo n : ℕ) (t : τ) :
    (forRange body' lo n t).map f = forRange body lo n (f t) := by
  induction n generalizing lo t with
  | zero => rfl
  | succ n ih =>
    rw [forRange_succ, forRange_succ, ← h]
    cases body' lo t with
    | error e => rfl
    | ok u => exact ih (lo + 1) u

theorem foldlM_map {τ : Type u} {f : τ → σ} {g : σ → α → Except ε σ} {g' : τ → α → Except ε τ}
    (h : ∀ t a, (g' t a).map f = g (f t) a) (l : List α) (t : τ) :
    (l.foldlM g' t).map f = l.foldlM g (f t) := by
  induction l generalizing t with
  | nil => rfl
  | cons a l ih =>
    rw [foldlM_cons, foldlM_cons, ← h]
    cases g' t a with
    | error e => rfl
    | ok u => exact ih u

theorem forRange_eq_foldlM {f : σ → α → Except ε σ} {g : ℕ → List α}
    (h : ∀ i s, body i s = (g i).foldlM f s) (lo n : ℕ) (s : σ) :
    forRange body lo n s = ((List.range' lo n).flatMap g).foldlM f s := by
  induction n generalizing lo s with
  | zero => rfl
  | succ n ih =>
    rw [forRange_succ, range'_succ, flatMap_cons, foldlM_append, h]
    exact congrArg _ (funext (ih (lo + 1)))

theorem foldlM_flatMap {f : σ → β → Except ε σ} {g : α → List β} {step : σ → α → Except ε σ}
    {l : List α} (h : ∀ a ∈ l, ∀ s, step s a = (g a).foldlM f s) (s : σ) :
    l.foldlM step s = (l.flatMap g).foldlM f s := by
  induction l generalizing s with
  | nil => rfl
  | cons a l ih =>
    rw [foldlM_cons, flatMap_cons, foldlM_append, h a mem_cons_self]
    exact congrArg _ (funext (ih fun b hb => h b (mem_cons_of_mem a hb)))

theorem forRange_add (body : ℕ → σ → Except ε σ) (lo m n : ℕ) (s : σ) :
    forRange body lo (m + n) s = forRange body lo m s >>= forRange body (lo + m) n := by
  induction m generalizing lo s with
  | zero => simp
  | succ m ih =>
    rw [show m + 1 + n = m + n + 1 by omega, forRange_succ, forRange_succ]
    cases hb : body lo s with
    | error e => rfl
    | ok t =>
      simp only [ok_bind]
      rw [ih, show lo + 1 + m = lo + (m + 1) by omega]

/-- A loop over rows of `w` columns is one loop over the cells in row order. -/
theorem forRange_rows (body : ℕ → ℕ → σ → Except ε σ) {w : ℕ} (hw : 0 < w) (lo n : ℕ) (s : σ) :
    forRange (fun i => forRange (body i) 0 w) lo n s =
      forRange (fun c => body (c / w) (c % w)) (lo * w) (n * w) s := by
  induction n generalizing lo s with
  | zero => simp
  | succ n ih =>
    rw [forRange_succ, show (n + 1) * w = w + n * w by ring, forRange_add]
    have hrow : ∀ k j t, j + k ≤ w → forRange (body lo) j k t =
        forRange (fun c => body (c / w) (c % w)) (lo * w + j) k t := by
      intro k
      induction k with
      | zero => simp
      | succ k ihk =>
        intro j t hj
        have hd : (lo * w + j) / w = lo := by
          rw [mul_comm, mul_add_div hw, div_eq_of_lt (by omega), add_zero]
        have hm : (lo * w + j) % w = j := by
          rw [mul_comm, mul_add_mod, mod_eq_of_lt (by omega)]
        rw [forRange_succ, forRange_succ, hd, hm]
        cases body lo j t with
        | error e => rfl
        | ok u => exact ihk (j + 1) u (by omega)
    rw [hrow w 0 s (by omega), add_zero]
    cases forRange (fun c => body (c / w) (c % w)) (lo * w) w s with
    | error e => rfl
    | ok t =>
      simp only [ok_bind]
      rw [ih, show lo * w + w = (lo + 1) * w by ring]

end Outcome
