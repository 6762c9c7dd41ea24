import GarnOS.Dal.BcacheList

/-! Coherence of the buffer cache: no two buffers hold the same block, and a buffer that is held
stays with its block. -/
namespace GarnOS
open Outcome Chain Relation List

section Coherent
variable {δ : Type} {zero : δ} {drives : ℕ → Drive δ} {c c' : BCache δ} {i : BufId}
    {drive block : ℕ}
  {r : Option BufId}

/-- What every call relies on: the list, that buffers in use are valid, and that a block is in one
buffer at most. -/
structure BCache.Coherent (c : BCache δ) : Prop where
  listed : ∃ l, c.Listed l
  valid : ∀ i, (c.buf i).refCount ≠ 0 → (c.buf i).valid
  unique : ∀ i j, (c.buf i).valid → (c.buf j).valid → (c.buf i).drive = (c.buf j).drive →
    (c.buf i).block = (c.buf j).block → i = j

theorem init_coherent (zero : δ) (drives : ℕ → Drive δ) : (bcacheInit zero drives).Coherent where
  listed := ⟨_, init_listed zero drives⟩
  valid := fun _ h => absurd rfl h
  unique := nofun

theorem isBlock_iff {b : Buf δ} :
    isBlock drive block b = true ↔ b.drive = some drive ∧ b.block = block ∧ b.valid := by
  simp [isBlock, and_assoc]

theorem BCache.Coherent.get_hit (h : c.Coherent) (hvalid : (c.buf i).valid)
    (hdrive : (c.buf i).drive = some drive) (hblock : (c.buf i).block = block) :
    bcacheGet c drive block =
      .ok (some i, c.setBuf i { c.buf i with refCount := (c.buf i).refCount + 1 }) := by
  obtain ⟨l, hl⟩ := h.listed
  obtain ⟨j, hfind⟩ : ∃ j, l.find? (fun j => isBlock drive block (c.buf j)) = some j := by
    rw [← Option.isSome_iff_exists, find?_isSome]
    exact ⟨i, hl.all i, isBlock_iff.mpr ⟨hdrive, hblock, hvalid⟩⟩
  have hfound := find?_some hfind
  obtain ⟨hd, hb, hv⟩ := isBlock_iff.mp hfound
  obtain rfl : j = i := h.unique j i hv hvalid (hd.trans hdrive.symm) (hb.trans hblock.symm)
  unfold bcacheGet
  rw [bcacheSearch_eq _ hl.linked.forward hl.length_le, hfind]
  rfl

theorem BCache.Coherent.setBuf (h : c.Coherent) (b : Buf δ) (hvalid : b.refCount ≠ 0 → b.valid)
    (hunique : b.valid → ∀ j, j ≠ i → (c.buf j).valid →
      ¬((c.buf j).drive = b.drive ∧ (c.buf j).block = b.block))
    (hnext : b.next = (c.buf i).next) (hprev : b.prev = (c.buf i).prev) :
    (c.setBuf i b).Coherent where
  listed := by
    obtain ⟨l, hl⟩ := h.listed
    exact ⟨l, hl.setBuf hnext hprev⟩
  valid := by
    intro j hj
    by_cases hji : j = i
    · subst hji
      rw [setBuf_self] at hj ⊢
      exact hvalid hj
    · rw [setBuf_of_ne hji] at hj ⊢
      exact h.valid j hj
  unique := by
    intro j k hj hk hd hb
    by_cases hji : j = i <;> by_cases hki : k = i
    · rw [hji, hki]
    · subst hji
      rw [setBuf_self] at hj hd hb
      rw [setBuf_of_ne hki] at hk hd hb
      exact absurd ⟨hd.symm, hb.symm⟩ (hunique hj k hki hk)
    · subst hki
      rw [setBuf_self] at hk hd hb
      rw [setBuf_of_ne hji] at hj hd hb
      exact absurd ⟨hd, hb⟩ (hunique hk j hji hj)
    · rw [setBuf_of_ne hji] at hj hd hb
      rw [setBuf_of_ne hki] at hk hd hb
      exact h.unique j k hj hk hd hb

theorem BCache.Coherent.get (h : c.Coherent) (hget : bcacheGet c drive block = .ok (r, c')) :
    c'.Coherent := by
  obtain ⟨l, hl⟩ := h.listed
  have hnew : (∀ j ∈ l, ¬isBlock drive block (c.buf j)) → ∀ j, (c.buf j).valid →
      ¬((c.buf j).drive = some drive ∧ (c.buf j).block = block) := by
    rintro hmiss j hj ⟨hd, hb⟩
    exact hmiss j (hl.all j) (isBlock_iff.mpr ⟨hd, hb, hj⟩)
  cases bcacheGet_ok hl.linked.forward hl.length_le hget with
  | hit i hfind =>
    have hfound := find?_some hfind
    have hvalid := (isBlock_iff.mp hfound).2.2
    refine h.setBuf _ (fun _ => hvalid) (fun _ j hji hj hsame => ?_) rfl rfl
    exact hji (h.unique j i hj hvalid hsame.1 hsame.2)
  | loaded i read hmiss => exact h.setBuf _ (fun _ => rfl) (fun _ j _ => hnew hmiss j) rfl rfl
  | failed i hmiss => exact h.setBuf _ (fun h0 => absurd rfl h0) nofun rfl rfl

theorem BCache.Coherent.release (h : c.Coherent) (hsafe : i = c.tail → (c.buf i).refCount ≠ 1) :
    (bcacheRelease c i).Coherent := by
  by_cases h0 : (c.buf i).refCount = 0
  · rwa [release_free h0]
  obtain ⟨l, hl⟩ := h.listed
  have hkept : ∀ j, ((bcacheRelease c i).buf j).valid → (c.buf j).valid ∧
      ((bcacheRelease c i).buf j).drive = (c.buf j).drive ∧
      ((bcacheRelease c i).buf j).block = (c.buf j).block := by
    intro j hj
    obtain ⟨next, prev, hbuf⟩ := hl.release_buf h0 hsafe j
    rw [hbuf] at hj ⊢
    split at hj
    · cases hj
    · exact ⟨hj, rfl, rfl⟩
  refine ⟨hl.release hsafe, fun j hj => ?_, fun j k hj hk hd hb => ?_⟩
  · obtain ⟨next, prev, hbuf⟩ := hl.release_buf h0 hsafe j
    rw [hbuf] at hj ⊢
    by_cases hji : j = i
    · subst hji
      rw [if_pos rfl] at hj
      have h1 : (c.buf j).refCount ≠ 1 := fun h1 => hj (by rw [h1]; rfl)
      rw [if_neg fun h => h1 h.2]
      exact h.valid j h0
    · rw [if_neg hji] at hj
      rw [if_neg fun h => hji h.1]
      exact h.valid j hj
  · obtain ⟨hvj, hdj, hbj⟩ := hkept j hj
    obtain ⟨hvk, hdk, hbk⟩ := hkept k hk
    rw [hdj, hdk] at hd
    rw [hbj, hbk] at hb
    exact h.unique j k hvj hvk hd hb

def BCache.held (c : BCache δ) : ℕ := (Finset.univ.filter fun i => (c.buf i).refCount ≠ 0).card

/-- A step to a state in which some buffer is not in use. -/
structure BoundedStep (c c' : BCache δ) : Prop where
  step : BcacheStep c c'
  bound : c'.held ≤ 29

/-- While some buffer is not in use, the last one on the list is not. -/
structure BCache.TailFree (c : BCache δ) : Prop extends c.Coherent where
  bound : c.held ≤ 29
  tail_free : (c.buf c.tail).refCount = 0
  tail_invalid : (c.buf c.tail).valid = false

theorem init_tailFree (zero : δ) (drives : ℕ → Drive δ) : (bcacheInit zero drives).TailFree where
  toCoherent := init_coherent zero drives
  bound := by simp [BCache.held, bcacheInit]
  tail_free := rfl
  tail_invalid := rfl

theorem BCache.TailFree.setBuf {b : Buf δ} (h : c.TailFree) (hcoh : (c.setBuf i b).Coherent)
    (hbound : (c.setBuf i b).held ≤ 29) (hi : c.tail ≠ i) : (c.setBuf i b).TailFree := by
  refine ⟨hcoh, hbound, ?_, ?_⟩
  · rw [setBuf_tail, setBuf_of_ne hi]
    exact h.tail_free
  · rw [setBuf_tail, setBuf_of_ne hi]
    exact h.tail_invalid

theorem held_all (h : ∀ i, (c.buf i).refCount ≠ 0) : c.held = 30 := by
  rw [BCache.held, Finset.filter_true_of_mem fun i _ => h i, Finset.card_univ, Fintype.card_fin]

theorem BCache.Listed.find?_tail {l : List BufId} {p : BufId → Bool} (hl : c.Listed l)
    (hfind : l.find? p = some c.tail) {j : BufId} (hj : j ≠ c.tail) : p j = false := by
  obtain ⟨-, as, bs, rfl, has⟩ := find?_eq_some_iff_append.mp hfind
  have hend : bs = [] := by
    by_contra hbs
    have hlast : some c.tail = bs.getLast? := by
      rw [hl.linked.tail_eq, getLast?_append_of_ne_nil _ (cons_ne_nil _ _),
        getLast?_cons_of_ne_nil hbs]
    have hnodup := (nodup_append.mp hl.linked.nodup).2.1
    exact (nodup_cons.mp hnodup).1 (mem_of_getLast? hlast.symm)
  have hmem := hl.all j
  rw [hend, mem_append, mem_singleton] at hmem
  simpa using has j (hmem.resolve_right hj)

theorem BCache.TailFree.get (h : c.TailFree) (hget : bcacheGet c drive block = .ok (r, c'))
    (hbound : c'.held ≤ 29) : c'.TailFree := by
  obtain ⟨l, hl⟩ := h.listed
  have hcoh := h.toCoherent.get hget
  cases bcacheGet_ok hl.linked.forward hl.length_le hget with
  | hit i hfind =>
    have hfound := find?_some hfind
    have hvalid := (isBlock_iff.mp hfound).2.2
    have hi : c.tail ≠ i := by
      rintro rfl
      rw [h.tail_invalid] at hvalid
      cases hvalid
    exact h.setBuf hcoh hbound hi
  | loaded i read hmiss hfree =>
    have hi : c.tail ≠ i := by
      rintro rfl
      -- all others are in use, so now all are
      have hall : ∀ j, ((c.setBuf c.tail { claimBuf drive block (c.buf c.tail) with
          data := (read (c.drives drive).content block (c.buf c.tail).data).2 }).buf j).refCount ≠ 0 := by
        intro j
        by_cases hj : j = c.tail
        · subst hj
          rw [setBuf_self]
          simp only [claimBuf, h.tail_free]
          decide
        · rw [setBuf_of_ne hj]
          simpa [isFreeBuf] using hl.find?_tail hfree hj
      rw [held_all hall] at hbound
      omega
    exact h.setBuf hcoh hbound hi
  | failed i hmiss =>
    by_cases hi : c.tail = i
    · subst hi
      refine ⟨hcoh, hbound, ?_, ?_⟩
      all_goals rw [setBuf_tail, setBuf_self]
    · exact h.setBuf hcoh hbound hi

theorem BCache.TailFree.release (h : c.TailFree) (i : BufId)
    (hbound : (bcacheRelease c i).held ≤ 29) : (bcacheRelease c i).TailFree := by
  by_cases h0 : (c.buf i).refCount = 0
  · rwa [release_free h0]
  have hi : c.tail ≠ i := by
    rintro rfl
    exact h0 h.tail_free
  have hsafe : i = c.tail → (c.buf i).refCount ≠ 1 := fun heq => absurd heq.symm hi
  have hcoh := h.toCoherent.release hsafe
  obtain ⟨l, hl⟩ := h.listed
  by_cases h1 : (c.buf i).refCount = 1
  · have htail : (bcacheRelease c i).tail = i := by rw [release_last h1, relink_tail]
    obtain ⟨next, prev, hbuf⟩ := hl.release_buf h0 hsafe i
    refine ⟨hcoh, hbound, ?_, ?_⟩
    all_goals
      rw [htail, hbuf]
      simp [h1]
  · rw [release_held h0 h1] at *
    exact h.setBuf hcoh hbound hi

theorem BoundedStep.tailFree (hstep : BoundedStep c c') (h : c.TailFree) : c'.TailFree := by
  obtain ⟨hstep, hbound⟩ := hstep
  cases hstep with
  | get drive block hget => exact h.get hget hbound
  | release i => exact h.release i hbound

theorem BCache.TailFree.keeps (h : c.TailFree) (hstep : BcacheStep c c')
    (hi : (c.buf i).refCount ≠ 0) (hi' : (c'.buf i).refCount ≠ 0) :
    (c'.buf i).drive = (c.buf i).drive ∧ (c'.buf i).block = (c.buf i).block ∧
      (c'.buf i).valid = (c.buf i).valid := by
  obtain ⟨l, hl⟩ := h.listed
  cases hstep with
  | get drive block hget =>
    have hused : ∀ j, l.find? (fun j => isFreeBuf (c.buf j)) = some j → i ≠ j := by
      rintro j hfree rfl
      have hfound := find?_some hfree
      exact hi (by simpa [isFreeBuf] using hfound)
    cases bcacheGet_ok hl.linked.forward hl.length_le hget with
    | hit j hfind =>
      by_cases hij : i = j
      · subst hij
        rw [setBuf_self]
        exact ⟨rfl, rfl, rfl⟩
      · rw [setBuf_of_ne hij]
        exact ⟨rfl, rfl, rfl⟩
    | loaded j read hmiss hfree | failed j hmiss hfree =>
      rw [setBuf_of_ne (hused j hfree)]
      exact ⟨rfl, rfl, rfl⟩
  | release j =>
    by_cases h0 : (c.buf j).refCount = 0
    · rw [release_free h0]
      exact ⟨rfl, rfl, rfl⟩
    have hsafe : j = c.tail → (c.buf j).refCount ≠ 1 := by
      rintro rfl
      exact absurd h.tail_free h0
    obtain ⟨next, prev, hbuf⟩ := hl.release_buf h0 hsafe i
    rw [hbuf] at hi' ⊢
    refine ⟨rfl, rfl, if_neg ?_⟩
    rintro ⟨rfl, h1⟩
    simp [h1] at hi'

/-- In every run in which some buffer is free at any time: `bcache_get` returns, no block is in two
buffers in use, a block in use is found in its buffer, and a buffer keeps its block while it is in
use. -/
theorem bcache_coherent (hrun : ReflTransGen BoundedStep (bcacheInit zero drives) c) :
    (∀ drive block, ∃ r c', bcacheGet c drive block = .ok (r, c')) ∧
    (∀ i j, (c.buf i).refCount ≠ 0 → (c.buf j).refCount ≠ 0 →
      (c.buf i).drive = (c.buf j).drive → (c.buf i).block = (c.buf j).block → i = j) ∧
    (∀ i drive block, (c.buf i).refCount ≠ 0 → (c.buf i).drive = some drive →
      (c.buf i).block = block → bcacheGet c drive block =
        .ok (some i, c.setBuf i { c.buf i with refCount := (c.buf i).refCount + 1 })) ∧
    (∀ i c', (c.buf i).refCount ≠ 0 →
      ReflTransGen (fun a b => BoundedStep a b ∧ (b.buf i).refCount ≠ 0) c c' →
      (c'.buf i).drive = (c.buf i).drive ∧ (c'.buf i).block = (c.buf i).block ∧
        (c'.buf i).valid = (c.buf i).valid) := by
  have h : c.TailFree :=
    Runs.invariant (fun _ _ h hstep => hstep.tailFree h) (init_tailFree zero drives) hrun
  refine ⟨fun drive block => ?_, fun i j hi hj => ?_, fun i drive block hi => ?_,
    fun i c' hi hrest => ?_⟩
  · obtain ⟨l, hl⟩ := h.listed
    obtain ⟨r, c', hget, -⟩ | ⟨-, hbusy⟩ := bcacheGet_eq drive block hl.linked.forward hl.length_le
    · exact ⟨r, c', hget⟩
    · exact absurd h.tail_free (hbusy c.tail (hl.all _))
  · exact h.unique i j (h.valid i hi) (h.valid j hj)
  · exact h.get_hit (h.valid i hi)
  · have hall : c'.TailFree ∧ (c'.buf i).refCount ≠ 0 ∧ (c'.buf i).drive = (c.buf i).drive ∧
        (c'.buf i).block = (c.buf i).block ∧ (c'.buf i).valid = (c.buf i).valid := by
      induction hrest with
      | refl => exact ⟨h, hi, rfl, rfl, rfl⟩
      | tail _ hstep ih =>
        obtain ⟨ht, hheld, hd, hb, hv⟩ := ih
        obtain ⟨hd', hb', hv'⟩ := ht.keeps hstep.1.step hheld hstep.2
        exact ⟨hstep.1.tailFree ht, hstep.2, hd'.trans hd, hb'.trans hb, hv'.trans hv⟩
    exact hall.2.2

theorem bcache_coherent_two_gets : ∃ c : BCache ℕ,
    bcacheGet (bcacheInit 0 fun _ => ramDrive id) 0 5 = .ok (some 0, c) ∧ (c.buf 0).data = 5 ∧
      bcacheGet c 0 5 = .ok (some 0, c.setBuf 0 { c.buf 0 with refCount := 2 }) := by
  have hget : bcacheGet (bcacheInit 0 fun _ => ramDrive id) 0 5 = .ok (some 0, _) := rfl
  have hstep : BoundedStep _ _ := ⟨.get 0 5 hget, by decide⟩
  have hrun := ReflTransGen.single hstep
  exact ⟨_, hget, rfl, (bcache_coherent hrun).2.2.1 0 0 5 (by decide) rfl rfl⟩

end Coherent

end GarnOS
