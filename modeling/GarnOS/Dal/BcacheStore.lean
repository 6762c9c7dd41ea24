import GarnOS.Dal.BcacheCoherence

/-! The buffer cache as a block store: which data a `bcache_get` returns. The abstract store is a
function from drives and blocks to data, changed by the holders of buffers alone. -/
namespace GarnOS
open Outcome Chain Relation Function

section Represents
variable {δ : Type} {zero : δ} {drives : ℕ → Drive δ} {c c' : BCache δ} {i : BufId}
    {drive block : ℕ}
  {r : Option BufId} {store : ℕ → ℕ → δ}

/-- Reads deliver what is stored and writes store it. The read function may be missing. -/
structure Drive.Reliable (d : Drive δ) : Prop where
  reads : ∀ read, d.read = some read → ∀ content block old,
    read content block old = (0, content block)
  writes : ∃ write, d.write = some write ∧ ∀ content block data,
    write content block data = (0, update content block data)

/-- The block store after a holder has changed a block. -/
def storeBlock (store : ℕ → ℕ → δ) (drive block : ℕ) (data : δ) : ℕ → ℕ → δ :=
  update store drive (update (store drive) block data)

/-- The buffer has data of its block that counts: it can be found, or it is still to be written. -/
def Buf.Live (b : Buf δ) : Prop := b.valid = true ∨ b.dirty = true

def Buf.At (b : Buf δ) (drive block : ℕ) : Prop := b.drive = some drive ∧ b.block = block

/-- The cache and the drives hold the block store: the data is in the one buffer that has the
block, and on the drive unless that buffer is dirty. -/
structure Represents (c : BCache δ) (store : ℕ → ℕ → δ) : Prop extends c.Coherent where
  reliable : ∀ d, (c.drives d).Reliable
  once : ∀ i j, (c.buf i).Live → (c.buf j).Live → (c.buf i).drive = (c.buf j).drive →
    (c.buf i).block = (c.buf j).block → i = j
  cached : ∀ i, (c.buf i).Live →
    ∃ d, (c.buf i).drive = some d ∧ (c.buf i).data = store d (c.buf i).block
  stored : ∀ d b, (∀ i, (c.buf i).dirty → ¬(c.buf i).At d b) → (c.drives d).content b = store d b

theorem init_represents (zero : δ) (hdrives : ∀ d, (drives d).Reliable) :
    Represents (bcacheInit zero drives) fun d b => (drives d).content b where
  toCoherent := init_coherent zero drives
  reliable := hdrives
  once := by rintro i j (h | h) <;> cases h
  cached := by rintro i (h | h) <;> cases h
  stored := fun _ _ _ => rfl

theorem Represents.of_same (h : Represents c store) (hcoh : c'.Coherent)
    (hdrives : c'.drives = c.drives)
    (hsame : ∀ j, (c'.buf j).dirty = (c.buf j).dirty ∧ (c'.buf j).data = (c.buf j).data ∧
      (c'.buf j).block = (c.buf j).block ∧ (c'.buf j).drive = (c.buf j).drive ∧
      ((c'.buf j).valid → (c.buf j).valid)) : Represents c' store := by
  have hlive : ∀ j, (c'.buf j).Live → (c.buf j).Live := by
    rintro j (hv | hd)
    · exact .inl ((hsame j).2.2.2.2 hv)
    · exact .inr ((hsame j).1 ▸ hd)
  refine ⟨hcoh, fun d => hdrives ▸ h.reliable d, fun i j hi hj hd hb => ?_, fun i hi => ?_,
    fun d b hnone => ?_⟩
  · rw [(hsame i).2.2.2.1, (hsame j).2.2.2.1] at hd
    rw [(hsame i).2.2.1, (hsame j).2.2.1] at hb
    exact h.once i j (hlive i hi) (hlive j hj) hd hb
  · rw [(hsame i).2.2.2.1, (hsame i).2.2.1, (hsame i).2.1]
    exact h.cached i (hlive i hi)
  · rw [hdrives]
    refine h.stored d b fun i hi hat => hnone i ?_ ?_
    · rw [(hsame i).1]
      exact hi
    · exact ⟨(hsame i).2.2.2.1.trans hat.1, (hsame i).2.2.1.trans hat.2⟩

theorem Represents.release (h : Represents c store)
    (hsafe : i = c.tail → (c.buf i).refCount ≠ 1) : Represents (bcacheRelease c i) store := by
  by_cases h0 : (c.buf i).refCount = 0
  · rwa [release_free h0]
  obtain ⟨l, hl⟩ := h.listed
  refine h.of_same (h.toCoherent.release hsafe) release_drives fun j => ?_
  obtain ⟨next, prev, hbuf⟩ := hl.release_buf h0 hsafe j
  rw [hbuf]
  refine ⟨rfl, rfl, rfl, rfl, ?_⟩
  split
  · nofun
  · exact id

def BCache.Settled (c : BCache δ) : Prop := ∀ i, (c.buf i).refCount = 0 → (c.buf i).dirty = false

instance : Decidable c.Settled := inferInstanceAs (Decidable (∀ _, _))

theorem BCache.Settled.valid (hsettled : c.Settled) (h : c.Coherent) {j : BufId}
    (hj : (c.buf j).dirty) : (c.buf j).valid := by
  refine h.valid j fun h0 => ?_
  rw [hsettled j h0] at hj
  cases hj

theorem BCache.Settled.valid_get (hsettled : c.Settled) (h : c.Coherent)
    (hget : bcacheGet c drive block = .ok (r, c')) {j : BufId} (hj : (c'.buf j).dirty) :
    (c'.buf j).valid := by
  obtain ⟨l, hl⟩ := h.listed
  have hset {i : BufId} {b : Buf δ} (hb : b.dirty → b.valid) (hj : ((c.setBuf i b).buf j).dirty) :
      ((c.setBuf i b).buf j).valid := by
    by_cases hji : j = i
    · subst hji
      rw [setBuf_self] at hj ⊢
      exact hb hj
    · rw [setBuf_of_ne hji] at hj ⊢
      exact hsettled.valid h hj
  cases bcacheGet_ok hl.linked.forward hl.length_le hget with
  | hit i hfind => exact hset (b := { c.buf i with refCount := _ }) (hsettled.valid h) hj
  | loaded i => exact hset (fun _ => rfl) hj
  | failed i => exact hset nofun hj

theorem Represents.absent {l : List BufId} (h : Represents c store) (hsettled : c.Settled)
    (hl : c.Listed l) (hmiss : ∀ j ∈ l, ¬isBlock drive block (c.buf j)) (j : BufId)
    (hj : (c.buf j).Live) : ¬(c.buf j).At drive block := by
  rintro ⟨hd, hb⟩
  have hvalid : (c.buf j).valid := hj.elim id fun hdirty => hsettled.valid h.toCoherent hdirty
  exact hmiss j (hl.all j) (isBlock_iff.mpr ⟨hd, hb, hvalid⟩)

theorem Represents.change {store' : ℕ → ℕ → δ} (h : Represents c store) (hcoh : c'.Coherent)
    (hreliable : ∀ d, (c'.drives d).Reliable) (hkeep : ∀ j, j ≠ i → c'.buf j = c.buf j)
    (hnew : (c'.buf i).Live → ∃ d, (c'.buf i).drive = some d ∧
      (c'.buf i).data = store' d (c'.buf i).block ∧
      ∀ j, j ≠ i → (c.buf j).Live → ¬(c.buf j).At d (c'.buf i).block)
    (hold : ∀ j, j ≠ i → (c.buf j).Live → ∀ d, (c.buf j).drive = some d →
      store' d (c.buf j).block = store d (c.buf j).block)
    (hstored : ∀ d b, (∀ j, (c'.buf j).dirty → ¬(c'.buf j).At d b) →
      (c'.drives d).content b = store' d b) : Represents c' store' := by
  refine ⟨hcoh, hreliable, fun j k hj hk hd hb => ?_, fun j hj => ?_, hstored⟩
  · by_cases hji : j = i <;> by_cases hki : k = i
    · rw [hji, hki]
    · subst hji
      rw [hkeep k hki] at hk hd hb
      obtain ⟨d, hdrive, -, hother⟩ := hnew hj
      exact absurd ⟨hd.symm.trans hdrive, hb.symm⟩ (hother k hki hk)
    · subst hki
      rw [hkeep j hji] at hj hd hb
      obtain ⟨d, hdrive, -, hother⟩ := hnew hk
      exact absurd ⟨hd.trans hdrive, hb⟩ (hother j hji hj)
    · rw [hkeep j hji] at hj hd hb
      rw [hkeep k hki] at hk hd hb
      exact h.once j k hj hk hd hb
  · by_cases hji : j = i
    · subst hji
      obtain ⟨d, hdrive, hdata, -⟩ := hnew hj
      exact ⟨d, hdrive, hdata⟩
    · rw [hkeep j hji] at hj ⊢
      obtain ⟨d, hdrive, hdata⟩ := h.cached j hj
      exact ⟨d, hdrive, hdata.trans (hold j hji hj d hdrive).symm⟩

theorem Represents.claim (h : Represents c store) {b : Buf δ} (hcoh : (c.setBuf i b).Coherent)
    (hclean : (c.buf i).dirty = false)
    (hlive : b.Live → ∃ d, b.drive = some d ∧ b.data = store d b.block ∧
      ∀ j, (c.buf j).Live → ¬(c.buf j).At d b.block) : Represents (c.setBuf i b) store := by
  refine h.change hcoh h.reliable (fun j hji => setBuf_of_ne hji) ?_ (fun _ _ _ _ _ => rfl) ?_
  · rw [setBuf_self]
    intro hb
    obtain ⟨d, hdrive, hdata, hother⟩ := hlive hb
    exact ⟨d, hdrive, hdata, fun j _ => hother j⟩
  · intro d blk hnone
    refine h.stored d blk fun j hj hat => ?_
    have hji : j ≠ i := by
      rintro rfl
      rw [hclean] at hj
      cases hj
    refine hnone j ?_ ?_
    all_goals rwa [setBuf_of_ne hji]

/-- A `bcache_get` returns the data of the block store, if no free buffer is dirty. -/
theorem Represents.get (h : Represents c store) (hsettled : c.Settled)
    (hget : bcacheGet c drive block = .ok (r, c')) :
    Represents c' store ∧ ∀ i, r = some i → (c'.buf i).data = store drive block := by
  have hcoh := h.toCoherent.get hget
  obtain ⟨l, hl⟩ := h.listed
  have hfirst : ∀ i, l.find? (fun j => isFreeBuf (c.buf j)) = some i → (c.buf i).dirty = false := by
    intro i hfree
    have hfound := List.find?_some hfree
    exact hsettled i (by simpa [isFreeBuf] using hfound)
  cases bcacheGet_ok hl.linked.forward hl.length_le hget with
  | hit i hfind =>
    have hfound := List.find?_some hfind
    obtain ⟨hdrive, hblock, hvalid⟩ := isBlock_iff.mp hfound
    constructor
    · refine h.of_same hcoh rfl fun j => ?_
      by_cases hji : j = i
      · simp [hji]
      · simp [setBuf_of_ne hji]
    · rintro _ ⟨⟩
      obtain ⟨d, hd, hdata⟩ := h.cached i (.inl hvalid)
      cases hd.symm.trans hdrive
      rw [setBuf_self, ← hblock]
      exact hdata
  | loaded i read hmiss hfree hread =>
    have habsent := h.absent hsettled hl hmiss
    have hdata : (read (c.drives drive).content block (c.buf i).data).2 = store drive block := by
      rw [(h.reliable drive).reads read hread]
      exact h.stored drive block fun j hj => habsent j (.inr hj)
    refine ⟨h.claim hcoh (hfirst i hfree) fun _ => ⟨drive, rfl, hdata, habsent⟩, ?_⟩
    rintro _ ⟨⟩
    rw [setBuf_self]
    exact hdata
  | failed i hmiss hfree hread =>
    refine ⟨h.claim hcoh (hfirst i hfree) ?_, ?_⟩
    · rintro (hv | hd)
      · cases hv
      · cases hd
    · intro j hj
      cases hj

theorem Represents.modify (h : Represents c store) (hheld : (c.buf i).refCount ≠ 0)
    (hdrive : (c.buf i).drive = some drive) (data : δ) :
    Represents (c.setBuf i { c.buf i with data := data, dirty := true })
      (storeBlock store drive (c.buf i).block data) := by
  have hvalid := h.valid i hheld
  have hcoh : (c.setBuf i { c.buf i with data := data, dirty := true }).Coherent :=
    h.toCoherent.setBuf _ (fun _ => hvalid)
      (fun _ j hji hj hsame => hji (h.unique j i hj hvalid hsame.1 hsame.2)) rfl rfl
  have hother : ∀ j, j ≠ i → (c.buf j).Live → ¬(c.buf j).At drive (c.buf i).block :=
    fun j hji hj hat => hji (h.once j i hj (.inl hvalid) (hat.1.trans hdrive.symm) hat.2)
  refine h.change hcoh h.reliable (fun j hji => setBuf_of_ne hji) ?_ ?_ ?_
  · rw [setBuf_self]
    intro _
    refine ⟨drive, hdrive, ?_, hother⟩
    simp [storeBlock]
  · intro j hji hj d hd
    by_cases hdd : d = drive
    · subst hdd
      have hne : (c.buf j).block ≠ (c.buf i).block := fun hb => hother j hji hj ⟨hd, hb⟩
      simp [storeBlock, hne]
    · simp [storeBlock, hdd]
  · intro d blk hnone
    have hblk : d = drive → blk ≠ (c.buf i).block := by
      rintro rfl rfl
      refine hnone i ?_ ?_
      · rw [setBuf_self]
      · rw [setBuf_self]
        exact ⟨hdrive, rfl⟩
    have hstore : storeBlock store drive (c.buf i).block data d blk = store d blk := by
      by_cases hdd : d = drive
      · subst hdd
        simp [storeBlock, hblk rfl]
      · simp [storeBlock, hdd]
    rw [hstore]
    refine h.stored d blk fun j hj hat => ?_
    by_cases hji : j = i
    · subst hji
      exact hblk (Option.some.inj (hat.1.symm.trans hdrive)) hat.2.symm
    · refine hnone j ?_ ?_
      all_goals rwa [setBuf_of_ne hji]

def BCache.putBlock (c : BCache δ) (drive block : ℕ) (data : δ) : BCache δ :=
  { c with drives := update c.drives drive { c.drives drive with
      content := update (c.drives drive).content block data } }

theorem driveWrite_eq (hdrive : (c.drives drive).Reliable) (block : ℕ) (data : δ) :
    driveWrite c drive block data = .ok (c.putBlock drive block data) := by
  obtain ⟨write, hsome, hwrite⟩ := hdrive.writes
  simp [driveWrite, hsome, hwrite, BCache.putBlock]

theorem putBlock_reliable (h : ∀ d, (c.drives d).Reliable) (drive block : ℕ) (data : δ) (d : ℕ) :
    ((c.putBlock drive block data).drives d).Reliable := by
  by_cases hd : d = drive
  · subst hd
    simp only [BCache.putBlock, update_self]
    exact ⟨(h d).reads, (h d).writes⟩
  · simp only [BCache.putBlock, update_of_ne hd]
    exact h d

@[simp] theorem putBlock_putBlock (data : δ) :
    (c.putBlock drive block data).putBlock drive block data = c.putBlock drive block data := by
  simp [BCache.putBlock]

theorem bcacheWrite_dirty (hreliable : ∀ d, (c.drives d).Reliable) (hdirty : (c.buf i).dirty)
    (hdrive : (c.buf i).drive = some drive) :
    bcacheWrite c i = .ok (0, (c.putBlock drive (c.buf i).block (c.buf i).data).setBuf i
      { c.buf i with dirty := false }) := by
  have hagain := putBlock_reliable hreliable drive (c.buf i).block (c.buf i).data drive
  obtain ⟨write, hsome, -⟩ := hagain.writes
  have hsecond := driveWrite_eq hagain (c.buf i).block (c.buf i).data
  rw [putBlock_putBlock] at hsecond
  simp only [bcacheWrite, hdirty, if_true, hdrive, driveWrite_eq (hreliable drive), ok_bind, hsome,
    Option.isSome_some]
  rw [show (c.putBlock drive (c.buf i).block (c.buf i).data).buf = c.buf from rfl, hsecond,
    ← hdrive]
  rfl

theorem putBlock_content {d b : ℕ} (data : δ) :
    ((c.putBlock drive block data).drives d).content b =
      if d = drive ∧ b = block then data else (c.drives d).content b := by
  by_cases hd : d = drive
  · subst hd
    by_cases hb : b = block
    all_goals simp [BCache.putBlock, hb]
  · simp [BCache.putBlock, hd]

theorem BCache.Coherent.putBlock (h : c.Coherent) (drive block : ℕ) (data : δ) :
    (c.putBlock drive block data).Coherent := by
  obtain ⟨l, hl⟩ := h.listed
  exact ⟨⟨l, hl.linked, hl.all⟩, h.valid, h.unique⟩

theorem Represents.write {status : ℤ} (h : Represents c store)
    (hwrite : bcacheWrite c i = .ok (status, c')) : Represents c' store := by
  cases hdirty : (c.buf i).dirty with
  | false =>
    simp only [bcacheWrite, hdirty] at hwrite
    cases hwrite
    exact h
  | true =>
    obtain ⟨d, hdrive, hdata⟩ := h.cached i (.inr hdirty)
    rw [bcacheWrite_dirty h.reliable hdirty hdrive] at hwrite
    cases hwrite
    have hcoh := (h.toCoherent.putBlock d (c.buf i).block (c.buf i).data).setBuf (i := i)
      { c.buf i with dirty := false } (h.valid i)
      (fun hv j hji hj hsame => hji (h.unique j i hj hv hsame.1 hsame.2)) rfl rfl
    have hother : ∀ j, j ≠ i → (c.buf j).Live → ¬(c.buf j).At d (c.buf i).block :=
      fun j hji hj hat => hji (h.once j i hj (.inr hdirty) (hat.1.trans hdrive.symm) hat.2)
    refine h.change hcoh (putBlock_reliable h.reliable _ _ _) (fun j hji => setBuf_of_ne hji) ?_
      (fun _ _ _ _ _ => rfl) ?_
    · rw [setBuf_self]
      intro _
      exact ⟨d, hdrive, hdata, hother⟩
    · intro d' b hnone
      rw [setBuf_drives, putBlock_content]
      split
      next hsame =>
        obtain ⟨rfl, rfl⟩ := hsame
        exact hdata
      next hne =>
        refine h.stored d' b fun j hj hat => ?_
        by_cases hji : j = i
        · subst hji
          exact hne ⟨Option.some.inj (hat.1.symm.trans hdrive), hat.2.symm⟩
        · refine hnone j ?_ ?_
          all_goals rwa [setBuf_of_ne hji]

theorem Represents.syncFrom {fuel : ℕ} {start : Option BufId} (h : Represents c store)
    (hsync : sysSyncFrom fuel start c = .ok c') : Represents c' store := by
  induction fuel generalizing start c with
  | zero =>
    cases start with
    | none => exact Except.ok.inj hsync ▸ h
    | some i => cases hsync
  | succ fuel ih =>
    cases start with
    | none => exact Except.ok.inj hsync ▸ h
    | some i =>
      rw [sysSyncFrom] at hsync
      split at hsync
      · cases hwrite : bcacheWrite c i with
        | error e =>
          rw [hwrite] at hsync
          cases hsync
        | ok result =>
          rw [hwrite] at hsync
          exact ih (h.write hwrite) hsync
      · exact ih h hsync

end Represents

section Runs
variable {δ : Type} {zero : δ} {drives : ℕ → Drive δ} {drive block : ℕ} {i : BufId}

structure StoreState (δ : Type) where
  cache : BCache δ
  store : ℕ → ℕ → δ

/-- After `bcache_init`, with what the drives hold. -/
def storeInit (zero : δ) (drives : ℕ → Drive δ) : StoreState δ :=
  ⟨bcacheInit zero drives, fun d b => (drives d).content b⟩

/-- The calls, and a holder that changes its buffer and marks it dirty. -/
inductive StoreStep : StoreState δ → StoreState δ → Prop
  | get {c c' : BCache δ} {store : ℕ → ℕ → δ} {r : Option BufId} (drive block : ℕ)
      (hget : bcacheGet c drive block = .ok (r, c')) : StoreStep ⟨c, store⟩ ⟨c', store⟩
  | modify {c : BCache δ} {store : ℕ → ℕ → δ} (i : BufId) (drive : ℕ) (data : δ)
      (hheld : (c.buf i).refCount ≠ 0) (hdrive : (c.buf i).drive = some drive) :
      StoreStep ⟨c, store⟩ ⟨c.setBuf i { c.buf i with data := data, dirty := true },
        storeBlock store drive (c.buf i).block data⟩
  | release {c : BCache δ} {store : ℕ → ℕ → δ} (i : BufId) :
      StoreStep ⟨c, store⟩ ⟨bcacheRelease c i, store⟩
  | write {c c' : BCache δ} {store : ℕ → ℕ → δ} {status : ℤ} (i : BufId)
      (hwrite : bcacheWrite c i = .ok (status, c')) : StoreStep ⟨c, store⟩ ⟨c', store⟩
  | sync {c c' : BCache δ} {store : ℕ → ℕ → δ} (hsync : sysSync c = .ok c') :
      StoreStep ⟨c, store⟩ ⟨c', store⟩

/-- The same calls, with every dirty buffer written before the next `bcache_get` once it is not in
use any more, and no last release of the last buffer on the list. -/
inductive SettledStep : StoreState δ → StoreState δ → Prop
  | get {c c' : BCache δ} {store : ℕ → ℕ → δ} {r : Option BufId} (drive block : ℕ)
      (hsettled : c.Settled) (hget : bcacheGet c drive block = .ok (r, c')) :
      SettledStep ⟨c, store⟩ ⟨c', store⟩
  | modify {c : BCache δ} {store : ℕ → ℕ → δ} (i : BufId) (drive : ℕ) (data : δ)
      (hheld : (c.buf i).refCount ≠ 0) (hdrive : (c.buf i).drive = some drive) :
      SettledStep ⟨c, store⟩ ⟨c.setBuf i { c.buf i with data := data, dirty := true },
        storeBlock store drive (c.buf i).block data⟩
  | release {c : BCache δ} {store : ℕ → ℕ → δ} (i : BufId)
      (hsafe : i = c.tail → (c.buf i).refCount ≠ 1) :
      SettledStep ⟨c, store⟩ ⟨bcacheRelease c i, store⟩
  | write {c c' : BCache δ} {store : ℕ → ℕ → δ} {status : ℤ} (i : BufId)
      (hwrite : bcacheWrite c i = .ok (status, c')) : SettledStep ⟨c, store⟩ ⟨c', store⟩
  | sync {c c' : BCache δ} {store : ℕ → ℕ → δ} (hsync : sysSync c = .ok c') :
      SettledStep ⟨c, store⟩ ⟨c', store⟩

theorem SettledStep.represents {s t : StoreState δ} (hstep : SettledStep s t)
    (h : Represents s.cache s.store) : Represents t.cache t.store := by
  cases hstep with
  | get drive block hsettled hget => exact (h.get hsettled hget).1
  | modify i drive data hheld hdrive => exact h.modify hheld hdrive data
  | release i hsafe => exact h.release hsafe
  | write i hwrite => exact h.write hwrite
  | sync hsync => exact h.syncFrom hsync

/-- In every run in which no free buffer is dirty at a `bcache_get`, and the last reference to a
buffer is not given up while it is last on the list, a `bcache_get` returns the data last stored in
the block, and a block that is in no valid buffer then has been written. -/
theorem bcache_no_lost_block (hdrives : ∀ d, (drives d).Reliable) {s : StoreState δ}
    (hrun : ReflTransGen SettledStep (storeInit zero drives) s) (hsettled : s.cache.Settled)
    {c' : BCache δ} {r : Option BufId} (hget : bcacheGet s.cache drive block = .ok (r, c')) :
    (∀ i, r = some i → (c'.buf i).data = s.store drive block) ∧
      ∀ d b, (∀ j, (c'.buf j).valid → ¬(c'.buf j).At d b) →
        (c'.drives d).content b = s.store d b := by
  have h : Represents s.cache s.store :=
    @Runs.invariant _ _ (fun s => Represents s.cache s.store) _ _
      (fun _ _ h hstep => hstep.represents h) (init_represents zero hdrives) hrun
  obtain ⟨h', hdata⟩ := h.get hsettled hget
  exact ⟨hdata, fun d b hnone => h'.stored d b fun j hj =>
    hnone j (hsettled.valid_get h.toCoherent hget hj)⟩

theorem ramDrive_reliable (content : ℕ → δ) : (ramDrive content).Reliable := by
  refine ⟨?_, _, rfl, fun _ _ _ => rfl⟩
  rintro _ ⟨⟩ content block old
  rfl

/-- A block that is changed, written and released is read back. -/
theorem bcache_no_lost_block_written : ∃ (s : StoreState ℕ) (c' : BCache ℕ),
    ReflTransGen SettledStep (storeInit 0 fun _ => ramDrive id) s ∧ s.store 0 5 = 7 ∧
      bcacheGet s.cache 0 5 = .ok (some 1, c') ∧ (c'.buf 1).data = s.store 0 5 := by
  have hinit : (bcacheInit 0 fun _ => ramDrive (id : ℕ → ℕ)).Settled := fun _ _ => rfl
  have hget : bcacheGet (bcacheInit 0 fun _ => ramDrive id) 0 5 = .ok (some 0, _) := rfl
  have hfirst : SettledStep (storeInit 0 fun _ => ramDrive id) ⟨_, _⟩ := .get 0 5 hinit hget
  have hrun := (((ReflTransGen.single hfirst).tail (.modify 0 0 7 (by decide) rfl)).tail
    (.write 0 rfl)).tail (.release 0 nofun)
  refine ⟨_, _, hrun, rfl, rfl, ?_⟩
  exact (bcache_no_lost_block (r := some 1)
    (fun _ => ramDrive_reliable id) hrun (by decide) rfl).1 1 rfl

/-- A block that is changed and released is not: the next `bcache_get` reads the old data. -/
theorem bcache_lost_block : ∃ (s : StoreState ℕ) (c' : BCache ℕ),
    ReflTransGen StoreStep (storeInit 0 fun _ => ramDrive id) s ∧ s.store 0 5 = 7 ∧
      bcacheGet s.cache 0 5 = .ok (some 1, c') ∧ (c'.buf 1).data = 5 := by
  have hget : bcacheGet (bcacheInit 0 fun _ => ramDrive id) 0 5 = .ok (some 0, _) := rfl
  refine ⟨_, _, ((ReflTransGen.single (.get 0 5 hget)).tail (.modify 0 0 7 (by decide) rfl)).tail
    (.release 0), rfl, rfl, rfl⟩

end Runs

end GarnOS
