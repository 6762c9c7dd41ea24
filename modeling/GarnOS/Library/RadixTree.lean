import Mathlib.Tactic

/-! Fixed-depth radix trees stored in a graph: the nodes reachable below a node of a given
level, when they are pairwise distinct, and how this depends on the stored links. -/
namespace RadixTree
open Finset

/-- `c n t i` is the child, of level `n`, that node `t` of level `n + 1` has in slot `i`. -/
abbrev Links (F : Type*) := ℕ → F → ℕ → Option F

variable {F : Type*} [DecidableEq F] (width : ℕ → ℕ)

def footprint (c : Links F) : ℕ → F → Finset F
  | 0, t => {t}
  | n + 1, t => insert t ((range (width (n + 1))).biUnion fun i => (c n t i).elim ∅ (footprint c n))

def branch (c : Links F) (n : ℕ) (t : F) (i : ℕ) : Finset F :=
    (c n t i).elim ∅ (footprint width c n)

def below (c : Links F) : ℕ → F → Finset F
  | 0, _ => ∅
  | n + 1, t => (range (width (n + 1))).biUnion (branch width c n t)

/-- The inner nodes of the tree at `t`: those whose links are read. -/
def tables (c : Links F) : ℕ → F → Finset F
  | 0, _ => ∅
  | n + 1, t => insert t ((range (width (n + 1))).biUnion fun i => (c n t i).elim ∅ (tables c n))

def Distinct (c : Links F) : ℕ → F → Prop
  | 0, _ => True
  | n + 1, t =>
    (∀ i < width (n + 1), t ∉ branch width c n t i) ∧
    (∀ i < width (n + 1), ∀ f, c n t i = some f → Distinct c n f) ∧
    ∀ i < width (n + 1), ∀ j < width (n + 1), i ≠ j →
      Disjoint (branch width c n t i) (branch width c n t j)

def walk (c : Links F) : ℕ → F → List ℕ → Option F
  | _, t, [] => some t
  | 0, _, _ :: _ => none
  | n + 1, t, i :: p => if i < width (n + 1) then (c n t i).bind (walk c n · p) else none

/-- Number of links in the tree at `t`, counted along every path. -/
def linkCount (c : Links F) : ℕ → F → ℕ
  | 0, _ => 0
  | n + 1, t => ∑ i ∈ range (width (n + 1)), (c n t i).elim 0 fun f => linkCount c n f + 1

variable {width} {c c' : Links F} {n i : ℕ} {t f : F}

theorem footprint_eq (c : Links F) (n : ℕ) (t : F) :
    footprint width c n t = insert t (below width c n t) := by
  cases n with
  | zero | succ n => rfl

theorem self_mem_footprint (c : Links F) (n : ℕ) (t : F) : t ∈ footprint width c n t := by
  rw [footprint_eq]
  exact mem_insert_self _ _

theorem branch_of_some (h : c n t i = some f) : branch width c n t i = footprint width c n f := by
  simp [branch, h]

theorem branch_of_none (h : c n t i = none) : branch width c n t i = ∅ := by simp [branch, h]

variable {x : F} {S : Finset ℕ} {p : List ℕ}

theorem mem_below_succ :
    x ∈ below width c (n + 1) t ↔ ∃ i < width (n + 1), x ∈ branch width c n t i := by
  simp [below]

theorem branch_subset_below (hi : i < width (n + 1)) :
    branch width c n t i ⊆ below width c (n + 1) t :=
  fun _ hx => mem_below_succ.mpr ⟨i, hi, hx⟩

theorem branch_subset_footprint (hi : i < width (n + 1)) :
    branch width c n t i ⊆ footprint width c (n + 1) t :=
  (branch_subset_below hi).trans (subset_insert _ _)

theorem mem_tables_of_child (hi : i < width (n + 1)) (h : c n t i = some f)
    (hx : x ∈ tables width c n f) : x ∈ tables width c (n + 1) t := by
  simp only [tables, mem_insert, mem_biUnion, mem_range]
  exact Or.inr ⟨i, hi, by simpa [h] using hx⟩

theorem self_mem_tables (c : Links F) (n : ℕ) (t : F) : t ∈ tables width c (n + 1) t := by
  simp [tables]

/-- The nodes reached through the slots `S` of `t`. -/
def branches (width : ℕ → ℕ) (c : Links F) (n : ℕ) (t : F) (S : Finset ℕ) : Finset F :=
  S.biUnion (branch width c n t)

theorem branches_insert :
    branches width c n t (insert i S) = branch width c n t i ∪ branches width c n t S :=
  biUnion_insert

theorem branches_range_succ : branches width c n t (range (i + 1)) =
    branches width c n t (range i) ∪ branch width c n t i := by
  rw [range_add_one, branches_insert, union_comm]

theorem branches_range :
    branches width c n t (range (width (n + 1))) = below width c (n + 1) t := rfl

/-- No node occurs twice among `t` and the trees in its slots `S`. -/
structure DistinctOn (width : ℕ → ℕ) (c : Links F) (n : ℕ) (t : F) (S : Finset ℕ) : Prop where
  self : ∀ i ∈ S, t ∉ branch width c n t i
  child : ∀ i ∈ S, ∀ f, c n t i = some f → Distinct width c n f
  apart : ∀ i ∈ S, ∀ j ∈ S, i ≠ j → Disjoint (branch width c n t i) (branch width c n t j)

theorem distinct_succ_iff :
    Distinct width c (n + 1) t ↔ DistinctOn width c n t (range (width (n + 1))) := by
  constructor
  all_goals
    rintro ⟨hself, hchild, hapart⟩
    exact ⟨by simpa using hself, by simpa using hchild, by simpa using hapart⟩

theorem DistinctOn.not_mem_branches (h : DistinctOn width c n t S) :
    t ∉ branches width c n t S := by
  rw [branches, mem_biUnion]
  rintro ⟨j, hj, hm⟩
  exact h.self j hj hm

theorem DistinctOn.mono {S' : Finset ℕ} (h : DistinctOn width c n t S) (hS : S' ⊆ S) :
    DistinctOn width c n t S' where
  self i hi := h.self i (hS hi)
  child i hi := h.child i (hS hi)
  apart i hi j hj := h.apart i (hS hi) j (hS hj)

theorem DistinctOn.disjoint_branches (h : DistinctOn width c n t (insert i S)) (hi : i ∉ S) :
    Disjoint (branches width c n t S) (branch width c n t i) := by
  rw [branches, disjoint_biUnion_left]
  intro j hj
  exact h.apart j (mem_insert_of_mem hj) i (mem_insert_self i S) fun hji => hi (hji ▸ hj)

theorem DistinctOn.insert (h : DistinctOn width c n t S) (hself : t ∉ branch width c n t i)
    (hchild : ∀ f, c n t i = some f → Distinct width c n f)
    (hapart : Disjoint (branches width c n t S) (branch width c n t i)) :
    DistinctOn width c n t (insert i S) := by
  rw [branches, disjoint_biUnion_left] at hapart
  refine ⟨?_, ?_, ?_⟩
  · intro j hj
    rcases mem_insert.mp hj with rfl | hj
    · exact hself
    · exact h.self j hj
  · intro j hj
    rcases mem_insert.mp hj with rfl | hj
    · exact hchild
    · exact h.child j hj
  · intro j hj k hk hjk
    rcases mem_insert.mp hj with rfl | hjS
    · rcases mem_insert.mp hk with rfl | hkS
      · exact absurd rfl hjk
      · exact (hapart k hkS).symm
    · rcases mem_insert.mp hk with rfl | hkS
      · exact hapart j hjS
      · exact h.apart j hjS k hkS hjk

section
variable (hd : Distinct width c (n + 1) t)
include hd

theorem Distinct.not_mem_branch (hi : i < width (n + 1)) : t ∉ branch width c n t i := hd.1 i hi

theorem Distinct.child (hi : i < width (n + 1)) (h : c n t i = some f) :
    Distinct width c n f := hd.2.1 i hi f h

theorem Distinct.upTo (hi : i ≤ width (n + 1)) : DistinctOn width c n t (range i) :=
  (distinct_succ_iff.mp hd).mono (range_subset_range.mpr hi)

theorem Distinct.disjoint_range (hi : i < width (n + 1)) :
    Disjoint (branches width c n t (range i)) (branch width c n t i) := by
  have hon := hd.upTo (show i + 1 ≤ width (n + 1) from hi)
  rw [range_add_one] at hon
  exact hon.disjoint_branches notMem_range_self

end

/-- The links of every inner node of the tree at `t` are the same in `c` and `c'`. -/
def Agree (width : ℕ → ℕ) (c c' : Links F) : ℕ → F → Prop
  | 0, _ => True
  | n + 1, t => ∀ i < width (n + 1),
    c' n t i = c n t i ∧ ∀ f, c n t i = some f → Agree width c c' n f

omit [DecidableEq F] in
theorem agree_zero (c c' : Links F) (t : F) : Agree width c c' 0 t := trivial

omit [DecidableEq F] in
theorem Agree.child (h : Agree width c c' (n + 1) t) (hi : i < width (n + 1))
    (hf : c n t i = some f) : Agree width c c' n f := (h i hi).2 f hf

omit [DecidableEq F] in
theorem Agree.link (h : Agree width c c' (n + 1) t) (hi : i < width (n + 1)) :
    c' n t i = c n t i := (h i hi).1

omit [DecidableEq F] in
theorem walk_cons (h : walk width c (n + 1) t (i :: p) = some f) :
    i < width (n + 1) ∧ ∃ u, c n t i = some u ∧ walk width c n u p = some f := by
  simp only [walk] at h
  split_ifs at h with hi
  exact ⟨hi, Option.bind_eq_some_iff.mp h⟩

omit [DecidableEq F] in
theorem walk_step (hi : i < width (n + 1)) (h : c n t i = some f) (p : List ℕ) :
    walk width c (n + 1) t (i :: p) = walk width c n f p := by
  rw [walk, if_pos hi, h, Option.bind_some]

theorem walk_mem_footprint (h : walk width c n t p = some f) : f ∈ footprint width c n t := by
  induction n generalizing t p with
  | zero =>
    cases p with
    | nil =>
      cases h
      exact self_mem_footprint c 0 _
    | cons i p => simp [walk] at h
  | succ n ih =>
    cases p with
    | nil =>
      cases h
      exact self_mem_footprint c _ _
    | cons i p =>
      obtain ⟨hi, u, hu, hw⟩ := walk_cons h
      apply branch_subset_footprint hi
      rw [branch_of_some hu]
      exact ih hw

theorem mem_footprint_iff : x ∈ footprint width c n t ↔ ∃ p, walk width c n t p = some x := by
  refine ⟨fun hx => ?_, fun ⟨p, hp⟩ => walk_mem_footprint hp⟩
  induction n generalizing t with
  | zero =>
    rw [footprint, mem_singleton] at hx
    exact ⟨[], by rw [walk, hx]⟩
  | succ n ih =>
    rw [footprint_eq, mem_insert, mem_below_succ] at hx
    obtain rfl | ⟨i, hi, hx⟩ := hx
    · exact ⟨[], by rw [walk]⟩
    · cases hc : c n t i with
      | none =>
        rw [branch_of_none hc] at hx
        exact absurd hx (notMem_empty x)
      | some u =>
        rw [branch_of_some hc] at hx
        obtain ⟨p, hp⟩ := ih hx
        exact ⟨i :: p, (walk_step hi hc p).trans hp⟩

theorem mem_branch_iff (hi : i < width (n + 1)) :
    x ∈ branch width c n t i ↔ ∃ p, walk width c (n + 1) t (i :: p) = some x := by
  simp only [walk, if_pos hi]
  cases hc : c n t i with
  | none => simp [branch_of_none hc]
  | some u =>
    rw [branch_of_some hc]
    exact mem_footprint_iff

theorem mem_tables_iff :
    x ∈ tables width c n t ↔ ∃ p, p.length < n ∧ walk width c n t p = some x := by
  induction n generalizing t with
  | zero => simp [tables]
  | succ n ih =>
    simp only [tables, mem_insert, mem_biUnion, mem_range]
    constructor
    · rintro (rfl | ⟨i, hi, hx⟩)
      · exact ⟨[], Nat.succ_pos n, by rw [walk]⟩
      · cases hc : c n t i with
        | none => simp [hc] at hx
        | some u =>
          rw [hc] at hx
          obtain ⟨p, hlen, hp⟩ := ih.mp hx
          exact ⟨i :: p, Nat.succ_lt_succ hlen, (walk_step hi hc p).trans hp⟩
    · rintro ⟨p, hlen, hp⟩
      cases p with
      | nil => exact .inl (Option.some.inj hp).symm
      | cons i p =>
        obtain ⟨hi, u, hu, hrest⟩ := walk_cons hp
        refine .inr ⟨i, hi, ?_⟩
        rw [hu]
        exact ih.mpr ⟨p, Nat.lt_of_succ_lt_succ hlen, hrest⟩

theorem tables_subset_footprint (c : Links F) (n : ℕ) (t : F) :
    tables width c n t ⊆ footprint width c n t := by
  intro x hx
  obtain ⟨p, -, hp⟩ := mem_tables_iff.mp hx
  exact walk_mem_footprint hp

theorem Distinct.walk_injective {q : List ℕ} (hd : Distinct width c n t)
    (hp : walk width c n t p = some f) (hq : walk width c n t q = some f) : p = q := by
  induction n generalizing t p q with
  | zero =>
    cases p with
    | nil => cases q with
      | nil => rfl
      | cons j q => simp [walk] at hq
    | cons i p => simp [walk] at hp
  | succ n ih =>
    obtain ⟨hself, hchild, hdisj⟩ := hd
    -- a step through slot `i` ends inside branch `i`, and the branches and `t` are apart
    have hin : ∀ {i p}, walk width c (n + 1) t (i :: p) = some f →
        i < width (n + 1) ∧ f ∈ branch width c n t i ∧
          ∃ u, c n t i = some u ∧ walk width c n u p = some f := by
      intro i p h
      obtain ⟨hi, hw⟩ := walk_cons h
      exact ⟨hi, (mem_branch_iff hi).mpr ⟨p, h⟩, hw⟩
    cases p with
    | nil =>
      cases q with
      | nil => rfl
      | cons j q =>
        obtain ⟨hj, hmem, -⟩ := hin hq
        cases hp
        exact (hself j hj hmem).elim
    | cons i p =>
      obtain ⟨hi, hmi, u, hu, hwp⟩ := hin hp
      cases q with
      | nil =>
        cases hq
        exact (hself i hi hmi).elim
      | cons j q =>
        obtain ⟨hj, hmj, v, hv, hwq⟩ := hin hq
        by_cases hij : i = j
        · subst hij
          rw [hu, Option.some.injEq] at hv
          subst hv
          rw [ih (hchild i hi u hu) hwp hwq]
        · exact (disjoint_left.mp (hdisj i hi j hj hij) hmi hmj).elim

omit [DecidableEq F] in
theorem walk_congr (h : Agree width c c' n t) : walk width c' n t p = walk width c n t p := by
  induction n generalizing t p with
  | zero => cases p <;> rfl
  | succ n ih =>
    cases p with
    | nil => rfl
    | cons i p =>
      simp only [walk]
      split_ifs with hi
      · rw [h.link hi]
        cases hc : c n t i with
        | none => rfl
        | some f => exact ih (h.child hi hc)
      · rfl

theorem Distinct.walk_not_mem_tables (hd : Distinct width c n t) (h : walk width c n t p = some f)
    (hp : p.length = n) : f ∉ tables width c n t := by
  intro hf
  obtain ⟨q, hq, hwalk⟩ := mem_tables_iff.mp hf
  rw [hd.walk_injective hwalk h] at hq
  exact hq.ne hp

theorem distinct_of_walk
    (h : ∀ p q x, walk width c n t p = some x → walk width c n t q = some x → p = q) :
    Distinct width c n t := by
  induction n generalizing t with
  | zero => trivial
  | succ n ih =>
    refine ⟨fun i hi hmem => ?_, fun i hi f hf => ih fun p q x hp hq => ?_, fun i hi j hj hij => ?_⟩
    · obtain ⟨p, hp⟩ := (mem_branch_iff hi).mp hmem
      cases h _ [] t hp (by rw [walk])
    · exact (List.cons.inj
        (h _ _ x ((walk_step hi hf p).trans hp) ((walk_step hi hf q).trans hq))).2
    · rw [disjoint_left]
      intro x hx hx'
      obtain ⟨p, hp⟩ := (mem_branch_iff hi).mp hx
      obtain ⟨q, hq⟩ := (mem_branch_iff hj).mp hx'
      exact hij (List.cons.inj (h _ _ x hp hq)).1

/-- A tree whose new walks lead to new nodes, different walks to different ones. -/
theorem Distinct.extend {new : List ℕ → F → Prop} (hd : Distinct width c n t)
    (hwalk : ∀ p x, walk width c' n t p = some x → walk width c n t p = some x ∨ new p x)
    (hfresh : ∀ p x, new p x → x ∉ footprint width c n t)
    (hinj : ∀ p q x, new p x → new q x → p = q) : Distinct width c' n t := by
  apply distinct_of_walk
  intro p q x hp hq
  obtain hp | hp := hwalk p x hp
  · obtain hq | hq := hwalk q x hq
    · exact hd.walk_injective hp hq
    · exact absurd (walk_mem_footprint hp) (hfresh q x hq)
  · obtain hq | hq := hwalk q x hq
    · exact absurd (walk_mem_footprint hq) (hfresh p x hp)
    · exact hinj p q x hp hq

theorem footprint_congr (h : Agree width c c' n t) :
    footprint width c' n t = footprint width c n t := by
  ext x
  simp only [mem_footprint_iff, walk_congr h]

theorem tables_congr (h : Agree width c c' n t) : tables width c' n t = tables width c n t := by
  ext x
  simp only [mem_tables_iff, walk_congr h]

/-- Slot `i` of `t` holds the same child in `c` and `c'`, and the tree below it is the same. -/
structure AgreeSlot (width : ℕ → ℕ) (c c' : Links F) (n : ℕ) (t : F) (i : ℕ) : Prop where
  link : c' n t i = c n t i
  child : ∀ f, c n t i = some f → Agree width c c' n f

omit [DecidableEq F] in
theorem Agree.slot (h : Agree width c c' (n + 1) t) (hi : i < width (n + 1)) :
    AgreeSlot width c c' n t i := ⟨h.link hi, fun _ hf => h.child hi hf⟩

theorem branch_congr (h : AgreeSlot width c c' n t i) :
    branch width c' n t i = branch width c n t i := by
  unfold branch
  rw [h.link]
  cases hc : c n t i with
  | none => rfl
  | some f => exact footprint_congr (h.child f hc)

theorem branches_congr (h : ∀ i ∈ S, AgreeSlot width c c' n t i) :
    branches width c' n t S = branches width c n t S :=
  biUnion_congr rfl fun i hi => branch_congr (h i hi)

theorem below_congr (h : Agree width c c' n t) : below width c' n t = below width c n t := by
  cases n with
  | zero => rfl
  | succ n => exact branches_congr fun i hi => h.slot (mem_range.mp hi)

theorem Distinct.congr (hd : Distinct width c n t) (h : Agree width c c' n t) :
    Distinct width c' n t := by
  apply distinct_of_walk
  intro p q x hp hq
  rw [walk_congr h] at hp hq
  exact hd.walk_injective hp hq

theorem DistinctOn.congr (hd : DistinctOn width c n t S) (h : ∀ i ∈ S, AgreeSlot width c c' n t i) :
    DistinctOn width c' n t S := by
  refine ⟨fun i hi => ?_, fun i hi f hf => ?_, fun i hi j hj hij => ?_⟩
  · rw [branch_congr (h i hi)]
    exact hd.self i hi
  · rw [(h i hi).link] at hf
    exact (hd.child i hi f hf).congr ((h i hi).child f hf)
  · rw [branch_congr (h i hi), branch_congr (h j hj)]
    exact hd.apart i hi j hj hij

omit [DecidableEq F] in
theorem linkCount_congr (h : Agree width c c' n t) :
    linkCount width c' n t = linkCount width c n t := by
  induction n generalizing t with
  | zero => rfl
  | succ n ih =>
    apply sum_congr rfl
    intro i hi
    rw [mem_range] at hi
    rw [h.link hi]
    cases hc : c n t i with
    | none => rfl
    | some f => simp only [Option.elim_some, ih (h.child hi hc)]

def Prunes (c' c : Links F) : Prop := ∀ n t i f, c' n t i = some f → c n t i = some f

omit [DecidableEq F] in
theorem Prunes.walk (h : Prunes c' c) (hw : walk width c' n t p = some f) :
    walk width c n t p = some f := by
  induction n generalizing t p with
  | zero => cases p <;> exact hw
  | succ n ih =>
    cases p with
    | nil => exact hw
    | cons i p =>
      obtain ⟨hi, u, hu, hrest⟩ := walk_cons hw
      rw [walk_step hi (h n t i u hu), ih hrest]

theorem Prunes.footprint_subset (h : Prunes c' c) (n : ℕ) (t : F) :
    footprint width c' n t ⊆ footprint width c n t := by
  intro x hx
  obtain ⟨p, hp⟩ := mem_footprint_iff.mp hx
  exact walk_mem_footprint (h.walk hp)

theorem Prunes.distinct (h : Prunes c' c) (hd : Distinct width c n t) : Distinct width c' n t :=
  distinct_of_walk fun _ _ _ hp hq => hd.walk_injective (h.walk hp) (h.walk hq)

/-- The slots along a path exist. -/
def Fits (width : ℕ → ℕ) : ℕ → List ℕ → Prop
  | _, [] => True
  | 0, _ :: _ => False
  | n + 1, i :: p => i < width (n + 1) ∧ Fits width n p

theorem Fits.init {q : List ℕ} (h : Fits width n (p ++ q)) : Fits width n p := by
  induction p generalizing n with
  | nil => rw [Fits]; trivial
  | cons i p ih =>
    cases n with
    | zero => exact h
    | succ n => exact ⟨h.1, ih h.2⟩

theorem Fits.length_le (h : Fits width n p) : p.length ≤ n := by
  induction p generalizing n with
  | nil => exact Nat.zero_le n
  | cons i p ih =>
    cases n with
    | zero => exact h.elim
    | succ n => exact Nat.succ_le_succ (ih h.2)

omit [DecidableEq F] in
theorem fits_of_walk (h : walk width c n t p = some f) : Fits width n p := by
  induction n generalizing t p with
  | zero =>
    cases p with
    | nil => trivial
    | cons i p => simp [walk] at h
  | succ n ih =>
    cases p with
    | nil => trivial
    | cons i p =>
      obtain ⟨hi, u, -, hrest⟩ := walk_cons h
      exact ⟨hi, ih hrest⟩

/-- The links that leave `t` through its first `i` slots, with all links below them. -/
def linksUpTo (width : ℕ → ℕ) (c : Links F) (n : ℕ) (t : F) (i : ℕ) : ℕ :=
  ∑ j ∈ range i, (c n t j).elim 0 fun f => linkCount width c n f + 1

omit [DecidableEq F] in
theorem linksUpTo_succ_of_none (h : c n t i = none) :
    linksUpTo width c n t (i + 1) = linksUpTo width c n t i := by
  simp [linksUpTo, sum_range_succ, h]

omit [DecidableEq F] in
theorem linksUpTo_succ_of_some (h : c n t i = some f) :
    linksUpTo width c n t (i + 1) = linksUpTo width c n t i + (linkCount width c n f + 1) := by
  simp [linksUpTo, sum_range_succ, h]

omit [DecidableEq F] in
theorem linksUpTo_le (hi : i ≤ width (n + 1)) :
    linksUpTo width c n t i ≤ linkCount width c (n + 1) t :=
  sum_le_sum_of_subset (range_subset_range.mpr hi)

theorem Distinct.not_mem_below (hd : Distinct width c n t) : t ∉ below width c n t := by
  cases n with
  | zero => simp [below]
  | succ n =>
    intro hm
    obtain ⟨j, hj, hm⟩ := mem_below_succ.mp hm
    exact hd.1 j hj hm

theorem Distinct.card_below (hd : Distinct width c n t) :
    (below width c n t).card = linkCount width c n t := by
  induction n generalizing t with
  | zero => rfl
  | succ n ih =>
    obtain ⟨hself, hchild, hdisj⟩ := hd
    rw [below, card_biUnion]
    · apply sum_congr rfl
      intro i hi
      rw [mem_range] at hi
      cases hc : c n t i with
      | none => rw [branch_of_none hc]; rfl
      | some f =>
        have hf := hchild i hi f hc
        rw [branch_of_some hc, footprint_eq, card_insert_of_notMem hf.not_mem_below, ih hf]
        rfl
    · intro i hi j hj hij
      exact hdisj i (mem_range.mp hi) j (mem_range.mp hj) hij

theorem distinct_of_below_empty (h : below width c (n + 1) t = ∅) : Distinct width c (n + 1) t := by
  have hbranch : ∀ i < width (n + 1), branch width c n t i = ∅ :=
    fun i hi => subset_empty.mp (h ▸ branch_subset_below hi)
  refine ⟨fun i hi => by simp [hbranch i hi], fun i hi f hf => ?_, fun i hi j _ _ => ?_⟩
  · have hself : f ∈ footprint width c n f := self_mem_footprint c n f
    rw [← branch_of_some hf, hbranch i hi] at hself
    exact absurd hself (notMem_empty f)
  · simp [hbranch i hi]

theorem below_zero : below width c 0 t = ∅ := rfl

theorem footprint_zero : footprint width c 0 t = {t} := rfl

omit [DecidableEq F] in
theorem linkCount_zero : linkCount width c 0 t = 0 := rfl

omit [DecidableEq F] in
theorem linksUpTo_zero : linksUpTo width c n t 0 = 0 := rfl

omit [DecidableEq F] in
theorem linksUpTo_width : linksUpTo width c n t (width (n + 1)) = linkCount width c (n + 1) t := rfl

theorem branches_empty : branches width c n t ∅ = ∅ := rfl

theorem distinct_zero : Distinct width c 0 t := trivial

-- at a numeral level these would otherwise be evaluated by unification, width and all
attribute [irreducible] footprint branch branches below tables linkCount linksUpTo Distinct

end RadixTree
