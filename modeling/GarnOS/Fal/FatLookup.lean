import GarnOS.Fal.FatReaddir

/-! The names that `fat_readdir` lists against those that `fat_lookup` finds. -/
namespace GarnOS
open Outcome Pages List Nat Option Lfn DirEntry Backfill

/-- The first character that is read of a long name is the NUL behind its last. -/
def DirEntry.nulFirst (e : DirEntry) : Bool :=
  (e.chars.find? (· ≠ (0xFF, 0xFF))).map Prod.fst = some 0

def DirEntry.sfnSet (e : DirEntry) : Bool :=
  e.isDirectory ||
    (e 0 ≠ 0x20 ∧ e 8 ≠ 0x20 ∧ (e.base.takeWhile (· ≠ 0x20)).getLast? ≠ some 0x2E)

/-- What both functions read in the same way: no entry is deleted, a short entry has none of the
attributes of a long name, a long name ends with a NUL within the buffer, and an entry without a
long name has a short one that is set. The second argument counts the characters of the long
name. -/
def lookupSafe : LfnPhase → ℕ → List DirEntry → Bool
  | _, _, [] => true
  | p, n, e :: es =>
    if e 0 = 0 then lookupSafe p n es
    else if e.attrib = FAT_ATTR_LFN then
      e 0 ≠ 0xE5 && (p = .inside || e.nulFirst) && n + e.charCount ≤ 256 &&
        lookupSafe (if e.endsLfn then .behind else .inside)
          (if e.endsLfn then 0 else n + e.charCount) es
    else
      e 0 ≠ 0xE5 && e.attrib &&& FAT_ATTR_LFN = 0 && (p = .behind || e.sfnSet) &&
        lookupSafe .between 0 es

/-- Behind an empty entry there are only empty ones. -/
def emptyTail : List DirEntry → Bool
  | [] => true
  | e :: es => if e 0 = 0 then es.all (· 0 = 0) else emptyTail es

/-- The type of the vnode of an entry that `getdents` shows with this type. -/
def DirentType.vnodeType : DirentType → VnodeType
  | .dir => .dir
  | .reg => .reg

/-- `fat_lookup` as if an empty entry did not end the sector. -/
def lookupEntries (block : DirEntry → SfnBlock) (lookFor : List UInt8) :
    Search → List DirEntry → Search × Option DirEntry
  | s, [] => (s, none)
  | s, e :: es =>
    match fatLookupEntry block lookFor s e with
    | .next s | .leave => lookupEntries block lookFor s es
    | .found s => (s, some e)

section Scanning
variable {vol : FatVolume} {block : DirEntry → SfnBlock} {lookFor : List UInt8} {s : Search}
  {e : DirEntry} {es : List DirEntry}

theorem fatLookupEntry_leave (h : e 0 = 0) : fatLookupEntry block lookFor s e = .leave := by
  rw [fatLookupEntry, if_neg (by rw [h]; decide), if_pos h]

theorem eq_zero_of_leave (h : fatLookupEntry block lookFor s e = .leave) : e 0 = 0 := by
  by_contra hempty
  unfold fatLookupEntry at h
  rw [if_neg hempty] at h
  repeat' split at h
  all_goals cases h

theorem lookupEntries_empty (h : es.all (· 0 = 0) = true) :
    lookupEntries block lookFor s es = (s, none) := by
  induction es with
  | nil => rfl
  | cons e es ih =>
    rw [all_cons, Bool.and_eq_true, decide_eq_true_eq] at h
    rw [lookupEntries, fatLookupEntry_leave h.1]
    exact ih h.2

theorem fatLookupSector_eq (h : emptyTail es = true) :
    fatLookupSector block lookFor s es = lookupEntries block lookFor s es := by
  induction es generalizing s with
  | nil => rfl
  | cons e es ih =>
    rw [emptyTail] at h
    rw [fatLookupSector, lookupEntries]
    cases hstep : fatLookupEntry block lookFor s e with
    | next t =>
      have hempty : ¬e 0 = 0 := by
        intro hempty
        rw [fatLookupEntry_leave hempty] at hstep
        cases hstep
      rw [if_neg hempty] at h
      exact ih h
    | leave =>
      rw [if_pos (eq_zero_of_leave hstep)] at h
      exact (lookupEntries_empty h).symm
    | found t => rfl

theorem lookupEntries_append {fs : List DirEntry} : lookupEntries block lookFor s (es ++ fs) =
      match lookupEntries block lookFor s es with
      | (t, some e) => (t, some e)
      | (t, none) => lookupEntries block lookFor t fs := by
  induction es generalizing s with
  | nil => rfl
  | cons e es ih =>
    rw [cons_append, lookupEntries, lookupEntries]
    cases fatLookupEntry block lookFor s e with
    | next t | leave => exact ih
    | found t => rfl

theorem fatLookupSectors_eq {sectors : List ℕ}
    (h : ∀ sector ∈ sectors, emptyTail (vol.directories sector) = true) :
    fatLookupSectors vol block lookFor s sectors =
      lookupEntries block lookFor s (sectors.flatMap vol.directories) := by
  induction sectors generalizing s with
  | nil => rfl
  | cons sector sectors ih =>
    rw [fatLookupSectors, flatMap_cons, lookupEntries_append,
      fatLookupSector_eq (h sector mem_cons_self)]
    cases lookupEntries block lookFor s (vol.directories sector) with
    | mk t found =>
      cases found with
      | none => exact ih fun sector hs => h sector (mem_cons_of_mem _ hs)
      | some e => rfl

/-- No sector of the clusters has an entry behind an empty one. -/
def FatVolume.EmptyTails (vol : FatVolume) (l : List ℕ) : Prop :=
  ∀ c ∈ l, ∀ sector ∈ vol.sectors c, emptyTail (vol.directories sector) = true

theorem scan_entries (l : List ℕ) :
    (vol.scan l).map Prod.snd = l.flatMap fun c => (vol.sectors c).flatMap vol.directories := by
  simp [FatVolume.scan, FatVolume.entries, map_flatMap, Function.comp_def]

theorem fatLookupFrom_eq {l : List ℕ} {first fuel : ℕ} (hl : vol.Clusters first l) (hne : l ≠ [])
    (hfuel : l.length ≤ fuel) (htails : vol.EmptyTails l) :
    fatLookupFrom vol block lookFor fuel first s =
      .ok (lookupEntries block lookFor s ((vol.scan l).map Prod.snd)) := by
  rw [scan_entries]
  induction l generalizing first fuel s with
  | nil => cases hne rfl
  | cons c l ih =>
    obtain ⟨-, rfl, hrest⟩ := clusters_cons hl
    obtain ⟨fuel, rfl⟩ : ∃ n, fuel = n + 1 :=
      exists_eq_succ_of_ne_zero (by simp only [length_cons] at hfuel; omega)
    rw [fatLookupFrom, flatMap_cons, lookupEntries_append,
      fatLookupSectors_eq (htails c mem_cons_self)]
    generalize lookupEntries block lookFor s ((vol.sectors c).flatMap vol.directories) = r
    obtain ⟨t, found⟩ := r
    cases found with
    | some e => rfl
    | none =>
      dsimp only
      by_cases hend : vol.nextCluster c = 0
      · have hnil : l = [] := by simpa [hend, clusterAt, eq_comm] using hrest.head
        rw [if_pos hend, hnil]
        rfl
      · have hcons : l ≠ [] := fun hnil => hend (clusters_nil (hnil ▸ hrest))
        rw [if_neg hend]
        exact ih hrest hcons (by simpa using hfuel) fun c hc => htails c (mem_cons_of_mem _ hc)

end Scanning

section Decoding
variable {s : Lfn} {n : ℕ} {e : DirEntry} {p : LfnPhase}

/-- Between two names, or behind `n` characters of one, of which the last is the NUL. -/
def Lfn.Reads (s : Lfn) (n : ℕ) (p : LfnPhase) : Prop :=
  ∃ l, s.Filled l ∧ l.length = n ∧ l.head? = if p = .inside then some 0 else none

theorem Lfn.reads_fresh (h : s.newEntry = true) (hp : p ≠ .inside) : s.Reads 0 p :=
  ⟨[], filled_nil h, rfl, (if_neg hp).symm⟩

theorem Lfn.Reads.between (h : s.Reads n p) (hp : p ≠ .inside) : s.Reads 0 .between := by
  obtain ⟨l, hl, -, hhead⟩ := h
  rw [if_neg hp, head?_eq_none_iff] at hhead
  exact ⟨[], hhead ▸ hl, rfl, rfl⟩

theorem Lfn.Reads.parse (h : s.Reads n p) (hnul : p = .inside ∨ e.nulFirst = true)
    (hbound : n + e.charCount ≤ 256) :
    (e.endsLfn = true → ∃ name, (fatParseLfn s e).1 = some name) ∧
      (fatParseLfn s e).2.Reads (if e.endsLfn then 0 else n + e.charCount)
        (if e.endsLfn then .behind else .inside) := by
  obtain ⟨l, hl, rfl, hhead⟩ := h
  have hlen := length_append_stored l e
  have hfirst : (l ++ e.stored).head? = some 0 := by
    rw [head?_append, hhead]
    split
    · rfl
    next hp =>
      rw [none_or, stored, head?_map, head?_filter]
      simpa [nulFirst] using hnul.resolve_left hp
  cases hends : e.endsLfn with
  | false => exact ⟨(absurd · Bool.false_ne_true), l ++ e.stored, hl.inside hends, hlen, hfirst⟩
  | true =>
    refine ⟨fun _ => ?_, [], s.filled_behind hends, rfl, rfl⟩
    have hne : l ++ e.stored ≠ [] := by
      intro hnil
      rw [hnil] at hfirst
      cases hfirst
    rw [hl.last hends hne, recent_eq_self (by omega), storedName, headD_eq_head?_getD, hfirst]
    exact ⟨_, rfl⟩

theorem fatParseSfn_congr (h : e.sfnSet = true) (b b' : SfnBlock) :
    fatParseSfn b e = fatParseSfn b' e := by
  unfold sfnSet at h
  cases hdir : e.isDirectory with
  | true => simp [fatParseSfn, hdir]
  | false =>
    rw [hdir, Bool.false_or, decide_eq_true_eq] at h
    obtain ⟨hbase, hext, hdot⟩ := h
    have hdots : ∀ b : SfnBlock, sfnDot b e (e.base.takeWhile (· ≠ 0x20)) = 0x2E := by
      intro b
      have hne : e.base.takeWhile (· ≠ 0x20) ≠ [] := by
        simp [base, hbase]
      obtain ⟨init, last, heq⟩ :=
        eq_nil_or_concat' (e.base.takeWhile (· ≠ 0x20)) |>.resolve_left hne
      rw [heq, getLast?_concat] at hdot
      rw [heq, sfnDot, getLast?_concat, getD_some]
      exact if_pos ⟨fun hl => hdot (congrArg some hl), hext⟩
    simp only [fatParseSfn, hdots]

theorem charCount_pos (h : e.nulFirst = true) : 0 < e.charCount := by
  rw [charCount, countP_pos_iff]
  rw [nulFirst, decide_eq_true_eq, map_eq_some_iff] at h
  obtain ⟨c, hc, -⟩ := h
  refine ⟨c, mem_of_find?_eq_some hc, ?_⟩
  simpa using find?_some hc

theorem lfnWritten_of_safe {es : List DirEntry} (hsafe : lookupSafe p n es = true)
    (hn : p = .inside → 0 < n) : lfnWritten n es = true := by
  induction es generalizing p n with
  | nil => rfl
  | cons e es ih =>
    rw [lookupSafe] at hsafe
    rw [lfnWritten]
    by_cases hempty : e 0 = 0
    · rw [if_pos hempty] at hsafe ⊢
      exact ih hsafe hn
    rw [if_neg hempty] at hsafe ⊢
    by_cases hlfn : e.attrib = FAT_ATTR_LFN
    · simp only [if_pos hlfn, Bool.and_eq_true, Bool.or_eq_true, decide_eq_true_eq] at hsafe ⊢
      have hpos : 0 < n + e.charCount := by
        obtain hp | hnul := hsafe.1.1.2
        · exact Nat.add_pos_left (hn hp) _
        · exact Nat.add_pos_right _ (charCount_pos hnul)
      have hrest := ih hsafe.2
      cases hends : e.endsLfn with
      | false =>
        rw [hends] at hrest
        exact hrest fun _ => hpos
      | true =>
        rw [hends] at hrest
        simpa [hpos] using hrest (by simp)
    · simp only [if_neg hlfn, Bool.and_eq_true] at hsafe ⊢
      exact ih hsafe.2 (by simp)

end Decoding

section Agreement
variable {vol : FatVolume} {block block' : DirEntry → SfnBlock} {lookFor : List UInt8} {s : Search}
  {n : ℕ} {p : LfnPhase} {pending : Option (List UInt8)}

/-- The state of the search between two entries, if the next short entry has the long name
`pending`. -/
structure Search.At (lookFor : List UInt8) (n : ℕ) (p : LfnPhase) (pending : Option (List UInt8))
    (s : Search) : Prop where
  reads : s.lfn.Reads n p
  isLFN : s.isLFN = decide (p ≠ .between)
  found : s.foundByLFN = decide (pending = some lookFor)
  pending : pending.isSome = decide (p = .behind)

theorem Search.At.parse {e : DirEntry} (h : s.At lookFor n p pending) (hp : p ≠ .behind)
    (hempty : ¬e 0 = 0) (hdeleted : e 0 ≠ 0xE5) (hlfn : e.attrib = FAT_ATTR_LFN)
    (hnul : p = .inside ∨ e.nulFirst = true) (hbound : n + e.charCount ≤ 256) :
    ∃ t, fatLookupEntry block lookFor s e = .next t ∧ t.lfn = (fatParseLfn s.lfn e).2 ∧
      t.At lookFor (if e.endsLfn then 0 else n + e.charCount)
        (if e.endsLfn then .behind else .inside) (fatParseLfn s.lfn e).1 := by
  obtain ⟨hsome, hreads⟩ := h.reads.parse hnul hbound
  have hnone : pending = none := by simpa [hp] using h.pending
  have hfound : s.foundByLFN = false := by simp [h.found, hnone]
  refine ⟨⟨(fatParseLfn s.lfn e).2, true, decide ((fatParseLfn s.lfn e).1 = some lookFor)⟩, ?_, rfl,
    hreads, ?_, rfl, ?_⟩
  · rw [fatLookupEntry, if_neg hdeleted, if_neg hempty, if_pos (by rw [hlfn]; decide), hfound]
    rfl
  · cases e.endsLfn <;> rfl
  · cases hends : e.endsLfn with
    | false => rw [(fatParseLfn_cases s.lfn e).2.1 hends]; rfl
    | true =>
      obtain ⟨name, hname⟩ := hsome hends
      rw [hname]
      rfl

/-- The search ends at a short entry if its name is the one that is looked for. -/
theorem Search.At.short {e : DirEntry} (h : s.At lookFor n p pending) (hp : p ≠ .inside)
    (hempty : ¬e 0 = 0) (hdeleted : e 0 ≠ 0xE5) (hattrib : e.attrib &&& FAT_ATTR_LFN = 0)
    (hset : p = .behind ∨ e.sfnSet = true) :
    fatLookupEntry block lookFor s e =
      if pending.getD (fatParseSfn (block' e) e) = lookFor then .found ⟨s.lfn, false, false⟩
      else .next ⟨s.lfn, false, false⟩ := by
  obtain ⟨lfn, isLFN, foundByLFN⟩ := s
  obtain ⟨-, rfl, rfl, hpending⟩ := h
  rw [fatLookupEntry, if_neg hdeleted, if_neg hempty, if_neg (by simp [hattrib])]
  cases p with
  | inside => cases hp rfl
  | behind =>
    obtain ⟨name, rfl⟩ := isSome_iff_exists.mp (hpending.trans (by decide))
    by_cases hname : name = lookFor
    all_goals simp [hname]
  | between =>
    obtain rfl : pending = none := by simpa using hpending
    simp [fatParseSfn_congr (hset.resolve_left (by decide)) (block e) (block' e)]

theorem lookupEntries_eq_find (es : List (ℕ × DirEntry)) (hat : s.At lookFor n p pending)
    (hcomplete : lfnComplete p (es.map Prod.snd) = true)
    (hsafe : lookupSafe p n (es.map Prod.snd) = true) :
    (lookupEntries block lookFor s (es.map Prod.snd)).2.map type =
      ((listing block' s.lfn pending es).find? (·.name = lookFor)).map DirRecord.type := by
  induction es generalizing s n p pending with
  | nil => rfl
  | cons x es ih =>
    obtain ⟨cluster, e⟩ := x
    rw [map_cons, lfnComplete] at hcomplete
    rw [map_cons, lookupSafe] at hsafe
    rw [map_cons, lookupEntries, listing]
    by_cases hempty : e 0 = 0
    · rw [if_pos hempty] at hcomplete hsafe
      rw [if_pos hempty, fatLookupEntry_leave hempty]
      exact ih hat hcomplete hsafe
    rw [if_neg hempty] at hcomplete hsafe
    rw [if_neg hempty]
    by_cases hlfn : e.attrib = FAT_ATTR_LFN
    · simp only [if_pos hlfn, Bool.and_eq_true, Bool.or_eq_true,
        decide_eq_true_eq] at hcomplete hsafe
      obtain ⟨⟨⟨hdeleted, hnul⟩, hbound⟩, hsafe⟩ := hsafe
      obtain ⟨t, hstep, ht, hnext⟩ := @Search.At.parse block lookFor s n p pending e hat hcomplete.1
        hempty hdeleted hlfn hnul hbound
      rw [if_pos hlfn, hstep, ← ht]
      exact ih hnext hcomplete.2 hsafe
    · simp only [if_neg hlfn, Bool.and_eq_true, Bool.or_eq_true,
        decide_eq_true_eq] at hcomplete hsafe
      obtain ⟨⟨⟨hdeleted, hattrib⟩, hset⟩, hsafe⟩ := hsafe
      rw [if_neg hlfn, @Search.At.short block block' lookFor s n p pending e hat hcomplete.1 hempty
        hdeleted hattrib hset]
      by_cases hname : pending.getD (fatParseSfn (block' e) e) = lookFor
      · rw [if_pos hname, find?_cons_of_pos (by simpa using hname)]
        rfl
      · rw [if_neg hname, find?_cons_of_neg (by simpa using hname)]
        exact ih (s := ⟨s.lfn, false, false⟩) ⟨hat.reads.between hcomplete.1, rfl, rfl, rfl⟩
          hcomplete.2 hsafe

/-- What `fat_lookup` needs of the names: they fit into its buffers, no slash ends one, and those of
one name have one type. -/
structure LookupNames (filename : List UInt8) (records : List DirRecord) : Prop where
  nonempty : ∀ r ∈ records, r.name ≠ []
  noSlash : ∀ r ∈ records, r.name.getLast? ≠ some 0x2F
  fits : ∀ r ∈ records, (filename ++ r.name).length < 256
  types : ∀ r ∈ records, ∀ r' ∈ records, r.name = r'.name → r.type = r'.type

section
variable {l : List ℕ} {fuel count : ℕ} {self : FatVnode} {lfn : Lfn} (hdir : self.type = .dir)
  (hl : vol.Clusters self.firstCluster l) (hne : self.firstCluster ≠ 0) (hfuel : l.length ≤ fuel)
  (htails : vol.EmptyTails l) (hcomplete : lfnComplete .between ((vol.scan l).map Prod.snd) = true)
  (hsafe : lookupSafe .between 0 ((vol.scan l).map Prod.snd) = true) (hnew : lfn.newEntry = true)
include hdir hl hne hfuel htails hcomplete hsafe hnew

theorem fatLookup_eq {name : List UInt8} (hname : name ≠ [])
    (hlen : (self.filename ++ name).length < 256) :
    ∃ ret lfn', fatLookup vol block fuel self lfn name = .ok (ret, lfn') ∧
      (ret.toOption.map FatVnode.type =
        ((listing block' lfn none (vol.scan l)).find? (·.name = stripSlash name)).map
          fun r => r.type.vnodeType) := by
  have hcons : l ≠ [] := fun hnil => hne (clusters_nil (hnil ▸ hl))
  have hat : (⟨lfn, false, false⟩ : Search).At (stripSlash name) 0 .between none :=
    ⟨reads_fresh hnew (by decide), rfl, rfl, rfl⟩
  have hfind := @lookupEntries_eq_find block block' _ _ _ _ _ (vol.scan l) hat hcomplete hsafe
  rw [fatLookup, if_neg (by simp [hdir]), if_neg (by omega), if_neg hname,
    fatLookupFrom_eq hl hcons hfuel htails, ok_bind]
  generalize lookupEntries block (stripSlash name) ⟨lfn, false, false⟩
    ((vol.scan l).map Prod.snd) = r at hfind ⊢
  obtain ⟨t, found⟩ := r
  cases found with
  | none =>
    refine ⟨_, _, rfl, ?_⟩
    rw [map_none, eq_comm, map_eq_none_iff] at hfind
    rw [hfind]
    rfl
  | some e =>
    refine ⟨_, _, rfl, ?_⟩
    obtain ⟨r, hr, htype⟩ := map_eq_some_iff.mp hfind.symm
    rw [hr, map_some, htype]
    unfold type
    cases e.isDirectory <;> rfl

/-- The names that the calls of `getdents` give for a directory are those that `fat_lookup` finds in
it, with the same types. -/
theorem readdir_lookup_agree
    (hcount : ∀ r ∈ listing block lfn none (vol.scan l), r.reclen ≤ count)
    (hnames : LookupNames self.filename (listing block lfn none (vol.scan l))) :
    ∀ calls > (listing block lfn none (vol.scan l)).length,
      ∃ pages, getdentsAll vol block fuel self count calls lfn 0 = .ok pages ∧
        ∀ (block' : DirEntry → SfnBlock) (lfn' : Lfn), lfn'.newEntry = true →
          (∀ d ∈ pages.flatten, ∃ v lfn'', fatLookup vol block' fuel self lfn' d.name =
            .ok (.ok v, lfn'') ∧ v.type = d.type.vnodeType) ∧
          ∀ name v lfn'', fatLookup vol block' fuel self lfn' name = .ok (.ok v, lfn'') →
            ∃ d ∈ pages.flatten, d.name = stripSlash name := by
  intro calls hcalls
  have hfixed : FixedNames block (vol.scan l) :=
    fixedNames_of_written (lfnWritten_of_safe hsafe (by simp))
  obtain ⟨pages, hpages, -, hflat⟩ := getdentsAll_pages hdir hl hfuel hcomplete
    (fun lfn' hnew' => hfixed lfn' lfn hnew' hnew) hcount hnew (nil_append _).symm hcalls
  refine ⟨pages, hpages, fun block' lfn' hnew' => ⟨fun d hd => ?_, fun name v lfn'' hv => ?_⟩⟩
  · have hmem : d.record ∈ listing block lfn none (vol.scan l) :=
      hflat ▸ mem_map_of_mem hd
    obtain ⟨ret, lfn'', hret, htype⟩ := @fatLookup_eq vol block' block l fuel self lfn' hdir hl
      hne hfuel htails hcomplete hsafe hnew' d.name (hnames.nonempty _ hmem) (hnames.fits _ hmem)
    have hstrip : stripSlash d.name = d.name := if_neg (hnames.noSlash _ hmem)
    rw [hfixed lfn' lfn hnew' hnew, hstrip] at htype
    obtain ⟨r, hr⟩ : ∃ r, (listing block lfn none (vol.scan l)).find? (·.name = d.name) = some r :=
      isSome_iff_exists.mp (find?_isSome.mpr ⟨d.record, hmem, by simp [Dirent.record]⟩)
    have hrname : r.name = d.name := by simpa using find?_some hr
    rw [hr, map_some,
      hnames.types r (mem_of_find?_eq_some hr) d.record hmem hrname] at htype
    cases ret with
    | error err => cases htype
    | ok v => exact ⟨v, lfn'', hret, some.inj htype⟩
  · have hname : name ≠ [] ∧ (self.filename ++ name).length < 256 := by
      rw [fatLookup, if_neg (by simp [hdir])] at hv
      split at hv
      · cases hv
      split at hv
      · cases hv
      exact ⟨‹_›, by omega⟩
    obtain ⟨ret, lfn₂, hret, htype⟩ := @fatLookup_eq vol block' block l fuel self lfn' hdir hl
      hne hfuel htails hcomplete hsafe hnew' name hname.1 hname.2
    cases hret.symm.trans hv
    rw [hfixed lfn' lfn hnew' hnew] at htype
    obtain ⟨r, hr, -⟩ := map_eq_some_iff.mp htype.symm
    have hrname : r.name = stripSlash name := by simpa using find?_some hr
    have hmem := mem_of_find?_eq_some hr
    rw [← hflat] at hmem
    obtain ⟨d, hd, rfl⟩ := mem_map.mp hmem
    exact ⟨d, hd, hrname⟩

end

/-- Both files of the sample directory. -/
theorem readdir_lookup_agree_two : ∃ pages,
    getdentsAll sampleVolume (fun _ => ⟨0, fun _ => 0⟩) 1 ⟨[0x2F], .dir, 0, 2⟩ 23 3
      ⟨0, true, fun _ => 0⟩ 0 = .ok pages ∧
    (∀ d ∈ pages.flatten, ∃ v lfn', fatLookup sampleVolume (fun _ => ⟨1, fun _ => 1⟩) 1
      ⟨[0x2F], .dir, 0, 2⟩ ⟨7, true, fun _ => 1⟩ d.name = .ok (.ok v, lfn') ∧
        v.type = d.type.vnodeType) ∧
    ∀ name v lfn', fatLookup sampleVolume (fun _ => ⟨1, fun _ => 1⟩) 1 ⟨[0x2F], .dir, 0, 2⟩
      ⟨7, true, fun _ => 1⟩ name = .ok (.ok v, lfn') → ∃ d ∈ pages.flatten, d.name = stripSlash name := by
  have hnames : LookupNames [0x2F]
      [⟨2, .reg, 23, [0x61, 0x2E, 0x74]⟩, ⟨2, .reg, 23, [0x42, 0x2E, 0x43]⟩] :=
    ⟨by decide, by decide, by decide, by decide⟩
  have htails : sampleVolume.EmptyTails [2] := by
    unfold FatVolume.EmptyTails
    decide
  obtain ⟨pages, hpages, hagree⟩ := @readdir_lookup_agree sampleVolume _ [2] 1 23
    ⟨[0x2F], .dir, 0, 2⟩ ⟨0, true, fun _ => 0⟩ rfl ⟨rfl, rfl⟩ (by decide) le_rfl htails (by decide)
    (by decide) rfl (by rw [listing_sample]; decide) (by rw [listing_sample]; exact hnames) 3
    (by rw [listing_sample]; decide)
  exact ⟨pages, hpages, hagree _ _ rfl⟩

def readOnlyVolume : FatVolume where
  sectorsPerCluster := 1
  firstDataSector := 0
  directories := fun sector => if sector = 0 then
    [fun i => [0x42, 0x20, 0x20, 0x20, 0x20, 0x20, 0x20, 0x20, 0x43, 0x20, 0x20, 0x21].getD i.val 0,
      fun _ => 0] else []
  fat := fun _ => 0x0FFFFFF8

/-- The file is in the listing, but `fat_lookup` takes its entry for one of a long name. -/
theorem readdir_lookup_disagree :
    lfnComplete .between ((readOnlyVolume.scan [2]).map Prod.snd) = true ∧
    (∃ d, getdentsAll readOnlyVolume (fun _ => ⟨0, fun _ => 0⟩) 1 ⟨[0x2F], .dir, 0, 2⟩ 64 2
        ⟨0, true, fun _ => 0⟩ 0 = .ok [[d]] ∧ d.name = [0x42, 0x2E, 0x43]) ∧
      ∃ lfn', fatLookup readOnlyVolume (fun _ => ⟨0, fun _ => 0⟩) 1 ⟨[0x2F], .dir, 0, 2⟩
        ⟨0, true, fun _ => 0⟩ [0x42, 0x2E, 0x43] = .ok (.error ENOENT, lfn') :=
  ⟨by decide, ⟨_, rfl, rfl⟩, _, rfl⟩

end Agreement

end GarnOS
