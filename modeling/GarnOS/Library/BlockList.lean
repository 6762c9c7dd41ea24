import Mathlib.Tactic

/-! Lists of memory blocks, each a header of `hd` bytes followed by its payload: splitting a
free block and joining two neighbours, and what both keep. -/
namespace BlockList
open List

structure Block where
  addr : ℕ
  size : ℕ
  free : Bool
  deriving DecidableEq, Repr

def Block.stop (hd : ℕ) (b : Block) : ℕ := b.addr + hd + b.size

def Apart (hd : ℕ) (b c : Block) : Prop := b.stop hd ≤ c.addr ∨ c.stop hd ≤ b.addr

def Separate (hd : ℕ) (bs : List Block) : Prop := bs.Pairwise (Apart hd)

def total (hd : ℕ) (bs : List Block) : ℕ := (bs.map fun b => b.size + hd).sum

def Settled (hd : ℕ) (b c : Block) : Prop := ¬(b.free = true ∧ c.free = true ∧ b.stop hd = c.addr)

def Coalesced (hd : ℕ) (bs : List Block) : Prop := bs.IsChain (Settled hd)

def used (bs : List Block) : List Block := bs.filter fun b => !b.free

def Fits (n : ℕ) (b : Block) : Prop := b.free = true ∧ n ≤ b.size

/-- Take `n` bytes of a block; what is left must hold more than a header to become a block. -/
def carve (hd n : ℕ) (b : Block) : List Block :=
  if b.size ≤ n + hd then [{ b with free := false }]
  else [⟨b.addr, n, false⟩, ⟨b.addr + hd + n, b.size - (n + hd), true⟩]

def granted (hd n : ℕ) (b : Block) : Block :=
  if b.size ≤ n + hd then { b with free := false } else ⟨b.addr, n, false⟩

def remainder (hd n : ℕ) (b : Block) : List Block :=
  if b.size ≤ n + hd then [] else [⟨b.addr + hd + n, b.size - (n + hd), true⟩]

/-- The block that covers `a` and the block `b` behind it. -/
def join (hd : ℕ) (a b : Block) : Block := { a with size := a.size + b.size + hd }

/-- Join a block with the first of `post` if that one is free and adjacent. -/
inductive JoinNext (hd : ℕ) (b : Block) : List Block → Block → List Block → Prop
  | join {c : Block} {post : List Block} (hfree : c.free = true) (hadj : b.stop hd = c.addr) :
      JoinNext hd b (c :: post) (join hd b c) post
  | keep {post : List Block} (h : ∀ c ∈ post.head?, Settled hd b c) : JoinNext hd b post b post

/-- Join a block with the last of `pre` if that one is free and adjacent. -/
inductive JoinPrev (hd : ℕ) (b : Block) : List Block → List Block → Block → Prop
  | join {a : Block} {pre : List Block} (hfree : a.free = true) (hadj : a.stop hd = b.addr) :
      JoinPrev hd b (pre ++ [a]) pre (join hd a b)
  | keep {pre : List Block} (h : ∀ a ∈ pre.getLast?, Settled hd a b) : JoinPrev hd b pre pre b

section Apart
variable {hd n : ℕ} {a b c : Block} {pre post : List Block}

theorem Apart.symm (h : Apart hd b c) : Apart hd c b := Or.symm h

theorem Apart.ne (hpos : 0 < hd) (h : Apart hd b c) : b.addr ≠ c.addr := by
  unfold Apart Block.stop at h
  omega

theorem Apart.headers (h : Apart hd b c) : b.addr + hd ≤ c.addr ∨ c.addr + hd ≤ b.addr := by
  unfold Apart Block.stop at h
  omega

theorem Separate.middle (h : Separate hd (pre ++ b :: post)) :
    (∀ c ∈ pre, Apart hd b c) ∧ ∀ c ∈ post, Apart hd b c := by
  rw [Separate, pairwise_append, pairwise_cons] at h
  exact ⟨fun c hc => (h.2.2 c hc b (by simp)).symm, fun c hc => h.2.1.1 c hc⟩

instance (hd : ℕ) : Std.Symm (Apart hd) := ⟨fun _ _ h => h.symm⟩

theorem Separate.of_mem {bs : List Block} (h : Separate hd bs) (hb : b ∈ bs) (hc : c ∈ bs)
    (hne : b ≠ c) : Apart hd b c :=
  List.Pairwise.forall h hb hc hne

/-- Replace a run of blocks by blocks that keep away from everything the old ones kept away
from. -/
theorem Separate.replace (bs cs : List Block) (h : Separate hd (pre ++ (bs ++ post)))
    (hcs : Separate hd cs)
    (hnew : ∀ x, (∀ b ∈ bs, Apart hd b x) → ∀ c ∈ cs, Apart hd c x) :
    Separate hd (pre ++ (cs ++ post)) := by
  simp only [Separate, pairwise_append, mem_append] at h hcs ⊢
  obtain ⟨hpre, ⟨-, hpost, hbspost⟩, hprerest⟩ := h
  refine ⟨hpre, ⟨hcs, hpost, fun c hc x hx => ?_⟩, fun x hx c hc => ?_⟩
  · exact hnew x (fun b hb => hbspost b hb x hx) c hc
  · rcases hc with hc | hc
    · exact (hnew x (fun b hb => (hprerest x hx b (Or.inl hb)).symm) c hc).symm
    · exact hprerest x hx c (Or.inr hc)

theorem Separate.within (cs : List Block) (h : Separate hd (pre ++ b :: post))
    (hcs : Separate hd cs) (hin : ∀ c ∈ cs, b.addr ≤ c.addr ∧ c.stop hd ≤ b.stop hd) :
    Separate hd (pre ++ (cs ++ post)) := by
  apply Separate.replace [b] cs h hcs
  intro x hx c hc
  have hc := hin c hc
  have hb := hx b (mem_singleton_self b)
  unfold Apart at hb ⊢
  omega

theorem mem_carve (hc : c ∈ carve hd n b) :
    b.addr ≤ c.addr ∧ c.stop hd ≤ b.stop hd := by
  unfold carve at hc
  unfold Block.stop
  split at hc
  · simp only [mem_singleton] at hc
    subst hc
    exact ⟨le_rfl, le_rfl⟩
  · simp only [mem_cons, not_mem_nil, or_false] at hc
    rcases hc with rfl | rfl
    · exact ⟨le_rfl, by dsimp only; omega⟩
    · exact ⟨by dsimp only; omega, by dsimp only; omega⟩

@[simp] theorem join_free : (join hd a b).free = a.free := rfl

theorem join_stop (hadj : a.stop hd = b.addr) : (join hd a b).stop hd = b.stop hd := by
  unfold join Block.stop at *
  dsimp only
  omega

theorem Separate.join (hpos : 0 < hd) (h : Separate hd (pre ++ a :: b :: post))
    (hadj : a.stop hd = b.addr) : Separate hd (pre ++ join hd a b :: post) := by
  apply Separate.replace [a, b] [BlockList.join hd a b] h (pairwise_singleton _ _)
  intro x hx c hc
  rw [mem_singleton.mp hc]
  have ha := hx a (by simp)
  have hb := hx b (by simp)
  have hstop := join_stop hadj
  have hself : (BlockList.join hd a b).addr = a.addr := rfl
  unfold Apart at ha hb ⊢
  unfold Block.stop at *
  omega

end Apart

section Total
variable {hd n : ℕ} {a b : Block} {pre post : List Block}

@[simp] theorem total_nil : total hd [] = 0 := rfl

@[simp] theorem total_cons : total hd (b :: post) = b.size + hd + total hd post := by
  simp [total]

@[simp] theorem total_append : total hd (pre ++ post) = total hd pre + total hd post := by
  simp [total]

theorem total_carve : total hd (carve hd n b) = b.size + hd := by
  unfold carve
  split
  · simp
  · simp
    omega

theorem total_join : total hd (pre ++ join hd a b :: post) = total hd (pre ++ a :: b :: post) := by
  simp [join]
  omega

theorem length_mul_le_total (hd : ℕ) (bs : List Block) : bs.length * hd ≤ total hd bs := by
  induction bs with
  | nil => simp
  | cons b bs ih =>
    rw [length_cons, Nat.add_mul, total_cons]
    omega

end Total

section Used
variable {hd n : ℕ} {b c : Block} {pre post bs : List Block}

@[simp] theorem used_nil : used [] = [] := rfl

@[simp] theorem used_cons_free (h : b.free = true) : used (b :: post) = used post := by
  simp [used, h]

@[simp] theorem used_cons_used (h : b.free = false) : used (b :: post) = b :: used post := by
  simp [used, h]

@[simp] theorem used_append : used (pre ++ post) = used pre ++ used post := by
  simp [used]

@[simp] theorem mem_used : b ∈ used bs ↔ b ∈ bs ∧ b.free = false := by
  simp [used]

theorem used_carve : used (carve hd n b) = [granted hd n b] := by
  unfold carve granted
  split
  · simp
  · simp

@[simp] theorem granted_addr : (granted hd n b).addr = b.addr := by
  unfold granted
  split <;> rfl

theorem le_granted_size (h : n ≤ b.size) : n ≤ (granted hd n b).size := by
  unfold granted
  split
  · exact h
  · exact le_rfl

theorem carve_eq_granted_cons (hd n : ℕ) (b : Block) :
    carve hd n b = granted hd n b :: remainder hd n b := by
  unfold granted carve remainder
  split <;> rfl

theorem granted_mem_carve (hd n : ℕ) (b : Block) : granted hd n b ∈ carve hd n b := by
  rw [carve_eq_granted_cons]
  exact mem_cons_self

end Used

section Coalesced
variable {hd n : ℕ} {a b c : Block} {pre post : List Block}

theorem coalesced_cons_cons :
    Coalesced hd (b :: c :: post) ↔ Settled hd b c ∧ Coalesced hd (c :: post) :=
  isChain_cons_cons

theorem coalesced_append_cons :
    Coalesced hd (pre ++ b :: post) ↔ Coalesced hd (pre ++ [b]) ∧ Coalesced hd (b :: post) :=
  isChain_split

theorem Coalesced.congr_head (h : Coalesced hd (b :: post))
    (hc : c.free = true → b.free = true ∧ b.stop hd = c.stop hd) : Coalesced hd (c :: post) := by
  cases post with
  | nil => exact isChain_singleton c
  | cons d post =>
    obtain ⟨hset, hrest⟩ := coalesced_cons_cons.mp h
    refine coalesced_cons_cons.mpr ⟨fun ⟨hf, hd', hadj⟩ => ?_, hrest⟩
    obtain ⟨hbf, hstop⟩ := hc hf
    exact hset ⟨hbf, hd', hstop.trans hadj⟩

theorem Coalesced.congr_last (h : Coalesced hd (pre ++ [b]))
    (hc : c.free = true → b.free = true ∧ b.addr = c.addr) : Coalesced hd (pre ++ [c]) := by
  rw [Coalesced, isChain_append] at h ⊢
  refine ⟨h.1, isChain_singleton c, fun x hx y hy => ?_⟩
  rw [head?_cons, Option.mem_some_iff] at hy
  subst hy
  rintro ⟨hxf, hcf, hadj⟩
  obtain ⟨hbf, haddr⟩ := hc hcf
  exact h.2.2 x hx b (by simp) ⟨hxf, hbf, hadj.trans haddr.symm⟩

theorem Coalesced.carve (n : ℕ) (h : Coalesced hd (pre ++ b :: post)) (hb : b.free = true) :
    Coalesced hd (pre ++ (carve hd n b ++ post)) := by
  obtain ⟨hpre, hpost⟩ := coalesced_append_cons.mp h
  unfold BlockList.carve
  split
  · apply coalesced_append_cons.mpr
    exact ⟨hpre.congr_last (fun hf => nomatch hf), hpost.congr_head (fun hf => nomatch hf)⟩
  · apply coalesced_append_cons.mpr
    refine ⟨hpre.congr_last (fun hf => nomatch hf), coalesced_cons_cons.mpr ⟨?_, ?_⟩⟩
    · exact fun hs => nomatch hs.1
    · apply hpost.congr_head
      intro _
      refine ⟨hb, ?_⟩
      unfold Block.stop
      dsimp only
      omega

theorem Coalesced.append_carve (n : ℕ) (b : Block) (h : Coalesced hd pre) :
    Coalesced hd (pre ++ BlockList.carve hd n b) := by
  have hfirst : ∀ c : Block, c.free = false → Coalesced hd (pre ++ [c]) := by
    intro c hc
    rw [Coalesced, isChain_append]
    refine ⟨h, isChain_singleton c, fun x _ y hy => ?_⟩
    rw [head?_cons, Option.mem_some_iff] at hy
    subst hy
    intro hs
    rw [hc] at hs
    cases hs.2.1
  unfold BlockList.carve
  split
  · exact hfirst _ rfl
  · apply coalesced_append_cons.mpr
    refine ⟨hfirst _ rfl, coalesced_cons_cons.mpr ⟨?_, isChain_singleton _⟩⟩
    exact fun hs => nomatch hs.1

end Coalesced

section Joins
variable {hd : ℕ} {b b' : Block} {pre pre' post post' : List Block}

theorem JoinNext.coalesced (h : JoinNext hd b post b' post') (hpost : Coalesced hd post) :
    Coalesced hd (b' :: post') := by
  cases h with
  | join hfree hadj => exact hpost.congr_head fun _ => ⟨hfree, (join_stop hadj).symm⟩
  | keep hset => exact isChain_cons.mpr ⟨hset, hpost⟩

theorem JoinPrev.coalesced (h : JoinPrev hd b pre pre' b') (hpre : Coalesced hd pre)
    (hpost : Coalesced hd (b :: post)) (hb : b.free = true) :
    Coalesced hd (pre' ++ b' :: post) := by
  cases h with
  | join hfree hadj =>
    apply coalesced_append_cons.mpr
    constructor
    · exact hpre.congr_last fun hf => ⟨hf, rfl⟩
    · exact hpost.congr_head fun _ => ⟨hb, (join_stop hadj).symm⟩
  | keep hset =>
    refine isChain_append.mpr ⟨hpre, hpost, fun a ha c hc => ?_⟩
    rw [head?_cons, Option.mem_some_iff] at hc
    exact hc ▸ hset a ha

theorem JoinNext.total (h : JoinNext hd b post b' post') :
    total hd (b' :: post') = total hd (b :: post) := by
  cases h with
  | join =>
    simp [BlockList.join]
    omega
  | keep => rfl

theorem JoinPrev.total (h : JoinPrev hd b pre pre' b') :
    total hd (pre' ++ b' :: post) = total hd (pre ++ b :: post) := by
  cases h with
  | join => rw [total_join, append_assoc, singleton_append]
  | keep => rfl

theorem JoinNext.used (h : JoinNext hd b post b' post') (hb : b.free = true) :
    used (b' :: post') = used post ∧ b'.free = true := by
  cases h with
  | join hfree => simp [hb, hfree]
  | keep => simp [hb]

theorem JoinPrev.used (h : JoinPrev hd b pre pre' b') (hb : b.free = true) :
    used (pre' ++ b' :: post) = used pre ++ used post := by
  cases h with
  | join hfree => simp [hfree]
  | keep => simp [hb]

theorem JoinNext.subset (h : JoinNext hd b post b' post') : post' ⊆ post := by
  cases h with
  | join => exact subset_cons_self _ _
  | keep => exact List.Subset.refl _

variable {P : Block → Prop}

theorem JoinNext.forall (h : JoinNext hd b post b' post')
    (hjoin : ∀ a c, a.stop hd = c.addr → P a → P c → P (BlockList.join hd a c))
    (hP : ∀ c ∈ b :: post, P c) : ∀ c ∈ b' :: post', P c := by
  cases h with
  | join hfree hadj =>
    simp only [forall_mem_cons] at hP ⊢
    exact ⟨hjoin _ _ hadj hP.1 hP.2.1, hP.2.2⟩
  | keep => exact hP

theorem JoinPrev.forall (h : JoinPrev hd b pre pre' b')
    (hjoin : ∀ a c, a.stop hd = c.addr → P a → P c → P (BlockList.join hd a c))
    (hP : ∀ c ∈ pre ++ b :: post, P c) : ∀ c ∈ pre' ++ b' :: post, P c := by
  cases h with
  | join hfree hadj =>
    simp only [forall_mem_append, forall_mem_cons] at hP ⊢
    exact ⟨hP.1.1, hjoin _ _ hadj hP.1.2.1 hP.2.1, hP.2.2⟩
  | keep => exact hP

/-- Giving back what was taken of a free block joins it with the rest of the block, and with nothing
else if the block was settled. -/
theorem JoinNext.of_granted {n : ℕ} {a : Block}
    (h : JoinNext hd { granted hd n b with free := true } (remainder hd n b ++ post) a post')
    (hb : b.free = true) (hset : ∀ c ∈ post.head?, Settled hd b c) : a = b ∧ post' = post := by
  have hself : ({ b with free := true } : Block) = b := by rw [← hb]
  unfold granted remainder at h
  split at h
  next =>
    rw [hself, nil_append] at h
    cases h with
    | join hfree hadj => exact absurd ⟨hb, hfree, hadj⟩ (hset _ rfl)
    | keep => exact ⟨rfl, rfl⟩
  next hsize =>
    rw [singleton_append] at h
    cases h with
    | join hfree hadj =>
      refine ⟨?_, rfl⟩
      rw [← hself, BlockList.join]
      congr 1
      dsimp only
      omega
    | keep hrest => exact absurd ⟨rfl, rfl, rfl⟩ (hrest _ rfl)

theorem JoinPrev.of_settled (h : JoinPrev hd b pre pre' b') (hb : b.free = true)
    (hset : ∀ a ∈ pre.getLast?, Settled hd a b) : pre' = pre ∧ b' = b := by
  cases h with
  | join hfree hadj => exact absurd ⟨hfree, hb, hadj⟩ (hset _ getLast?_concat)
  | keep => exact ⟨rfl, rfl⟩

end Joins

end BlockList
