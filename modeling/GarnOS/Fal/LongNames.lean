import GarnOS.Fal.FatReaddir

/-! Long names: what `fat_parse_lfn` makes of the entries in which VFAT stores a name, and what else
its result depends on. -/
namespace GarnOS
open Backfill List DirEntry Lfn

/-- The results of `fat_parse_lfn` for one entry after the other. -/
def fatParseLfns : Lfn → List DirEntry → List (Option (List UInt8)) × Lfn
  | s, [] => ([], s)
  | s, e :: es =>
    let r := fatParseLfn s e
    let rest := fatParseLfns r.2 es
    (r.1 :: rest.1, rest.2)

/-- The ordinal of the `n`th entry of a name, counted from its end: the first one read is marked. -/
def lfnOrd (total n : ℕ) : UInt8 := UInt8.ofNat n + if n = total then 0x40 else 0

def lfnEntry (ord checksum : UInt8) (u : ℕ → UInt8 × UInt8) : DirEntry :=
  ![ord, (u 0).1, (u 0).2, (u 1).1, (u 1).2, (u 2).1, (u 2).2, (u 3).1, (u 3).2, (u 4).1, (u 4).2,
    FAT_ATTR_LFN, 0, checksum, (u 5).1, (u 5).2, (u 6).1, (u 6).2, (u 7).1, (u 7).2, (u 8).1, (u 8).2,
    (u 9).1, (u 9).2, (u 10).1, (u 10).2, 0, 0, (u 11).1, (u 11).2, (u 12).1, (u 12).2]

/-- The entries of the first `n` of `total` fragments of some units, the last fragment first. Behind
the units it is filled up with 0xFFFF. -/
def lfnFragments (checksum : UInt8) (units : List (UInt8 × UInt8)) (total : ℕ) : ℕ → List DirEntry
  | 0 => []
  | n + 1 =>
    lfnEntry (lfnOrd total (n + 1)) checksum (fun i => units.getD (13 * n + i) (0xFF, 0xFF)) ::
      lfnFragments checksum units total n

/-- A name with its NUL. Where the fragments end with the name, the NUL has no place in them. -/
def lfnEncode (checksum : UInt8) (name : List UInt8) : List DirEntry :=
  lfnFragments checksum ((name ++ [0]).map (·, 0)) ((name.length + 12) / 13) ((name.length + 12) / 13)

/-- The entries of a whole name: the first is marked, and the ordinals go down to 1. -/
structure CompleteRun (run : List DirEntry) : Prop where
  pos : run ≠ []
  short : run.length < 0x40
  attrib : ∀ e ∈ run, e.attrib = FAT_ATTR_LFN
  ord : ∀ i (h : i < run.length), run[i].ord = lfnOrd run.length (run.length - i)

def lfnName (s : Lfn) (run : List DirEntry) : Option (List UInt8) :=
  bufferName (s.start.buffer.fill (run.flatMap stored))

theorem fatParseLfns_eq (es : List DirEntry) (s : Lfn) {last : DirEntry}
    (hes : ∀ e ∈ es, e.endsLfn = false) (hlast : last.endsLfn = true) :
    (fatParseLfns s (es ++ [last])).1 =
      List.replicate es.length none ++ [lfnName s (es ++ [last])] := by
  induction es generalizing s with
  | nil =>
    show [(fatParseLfn s last).1] = [lfnName s [last]]
    rw [fatParseLfn_last hlast, lfnName, flatMap_singleton]
  | cons e es ih =>
    obtain ⟨hnone, hbuffer⟩ := fatParseLfn_inside (s := s) (hes e mem_cons_self)
    have hrest := ih (fatParseLfn s e).2 fun e' he' => hes e' (mem_cons_of_mem _ he')
    rw [cons_append, fatParseLfns, hnone, hrest, length_cons, replicate_succ,
      cons_append, lfnName, lfnName, flatMap_cons, fill_append, hbuffer]

section Encoding
variable {checksum : UInt8} {units : List (UInt8 × UInt8)} {l : List UInt8} {total n : ℕ}

theorem lfnEntry_chars (ord checksum : UInt8) (u : ℕ → UInt8 × UInt8) :
    (lfnEntry ord checksum u).chars = ((List.range 13).map u).reverse := rfl

theorem lfnFragments_length (n : ℕ) : (lfnFragments checksum units total n).length = n := by
  induction n with
  | zero => rfl
  | succ n ih => rw [lfnFragments, length_cons, ih]

theorem lfnFragments_ord (n : ℕ) {i : ℕ} (h : i < (lfnFragments checksum units total n).length) :
    (lfnFragments checksum units total n)[i].ord = lfnOrd total (n - i) := by
  induction n generalizing i with
  | zero => cases h
  | succ n ih =>
    cases i with
    | zero => rfl
    | succ i =>
      rw [Nat.add_sub_add_right]
      exact ih (Nat.lt_of_succ_lt_succ h)

theorem lfnFragments_attrib (n : ℕ) :
    ∀ e ∈ lfnFragments checksum units total n, e.attrib = FAT_ATTR_LFN := by
  induction n with
  | zero => exact fun e he => absurd he not_mem_nil
  | succ n ih =>
    intro e he
    rcases mem_cons.mp he with rfl | he
    · rfl
    · exact ih e he

theorem lfnFragments_complete (hpos : total ≠ 0) (hshort : total < 0x40) :
    CompleteRun (lfnFragments checksum units total total) where
  pos := by
    rw [← length_pos_iff_ne_nil, lfnFragments_length]
    omega
  short := by rwa [lfnFragments_length]
  attrib := lfnFragments_attrib total
  ord := fun i h => by rw [lfnFragments_length, lfnFragments_ord]

theorem lfnFragments_stored (n : ℕ) :
    (lfnFragments checksum units total n).flatMap stored =
      ((((List.range (13 * n)).map fun i => units.getD i (0xFF, 0xFF)).filter
        (· ≠ (0xFF, 0xFF))).map Prod.fst).reverse := by
  induction n with
  | zero => rfl
  | succ n ih =>
    rw [lfnFragments, flatMap_cons, ih, stored, lfnEntry_chars, Nat.mul_succ,
      range_add, map_append, filter_append, map_append, reverse_append,
      filter_reverse, map_reverse, map_map]
    rfl

theorem map_getD_range {α : Type*} (l : List α) (d : α) (n : ℕ) :
    (List.range n).map (fun i => l.getD i d) = l.take n ++ List.replicate (n - l.length) d := by
  apply ext_getElem
  · rw [length_map, length_range, length_append, length_take, length_replicate]
    omega
  · intro i hi _
    rw [getElem_map, getElem_range, getElem_append, getD_eq_getElem?_getD]
    split
    · rw [getElem_take, getElem?_eq_getElem, Option.getD_some]
    · rename_i hge
      rw [length_map, length_range] at hi
      rw [length_take] at hge
      rw [getElem_replicate, getElem?_eq_none (by omega), Option.getD_none]

/-- Bytes, as units, are stored as far as there are fragments for them, the last one first. -/
theorem lfnFragments_bytes (l : List UInt8) (n : ℕ) :
    (lfnFragments checksum (l.map (·, 0)) total n).flatMap stored =
      (l.take (13 * n)).reverse := by
  have hbytes : ∀ l : List UInt8, (l.map fun c => (c, (0 : UInt8))).filter (· ≠ (0xFF, 0xFF)) =
      l.map fun c => (c, 0) := by
    intro l
    refine filter_eq_self.mpr fun c hc => ?_
    obtain ⟨b, -, rfl⟩ := mem_map.mp hc
    simp
  have hfill : ∀ k, (replicate k ((0xFF, 0xFF) : UInt8 × UInt8)).filter (· ≠ (0xFF, 0xFF)) = [] :=
    fun k => filter_eq_nil_iff.mpr fun c hc => by simp [eq_of_mem_replicate hc]
  rw [lfnFragments_stored, map_getD_range, filter_append, ← map_take, hbytes, hfill,
    append_nil, map_map]
  simp [Function.comp_def]

end Encoding

section RoundTrip
variable {run : List DirEntry} {name : List UInt8}

theorem CompleteRun.split (h : CompleteRun run) : ∃ es last, run = es ++ [last] ∧
    (∀ e ∈ es, e.endsLfn = false) ∧ last.endsLfn = true := by
  have hpos : 0 < run.length := length_pos_of_ne_nil h.pos
  have hshort := h.short
  refine ⟨run.dropLast, run.getLast h.pos, (dropLast_append_getLast h.pos).symm, ?_, ?_⟩
  · intro e he
    obtain ⟨i, hi, rfl⟩ := getElem_of_mem he
    rw [length_dropLast] at hi
    have hord := h.ord i (by omega)
    have hrange : ∀ n : Fin 0x40, 2 ≤ n.val → ∀ b : Bool,
        UInt8.ofNat n.val + (if b then 0x40 else 0) ≠ 0x1 ∧
          UInt8.ofNat n.val + (if b then 0x40 else 0) ≠ 0x41 := by decide
    have hne := hrange ⟨run.length - i, by omega⟩ (show 2 ≤ run.length - i by omega)
      (decide (run.length - i = run.length))
    rw [getElem_dropLast, endsLfn, hord, lfnOrd]
    simpa using hne
  · have hord := h.ord (run.length - 1) (by omega)
    have hone : run.length - (run.length - 1) = 1 := by omega
    rw [hone, lfnOrd] at hord
    rw [getLast_eq_getElem, endsLfn, hord]
    by_cases htotal : 1 = run.length
    · rw [if_pos htotal]
      decide
    · rw [if_neg htotal]
      decide

theorem CompleteRun.results (h : CompleteRun run) (s : Lfn) :
    (fatParseLfns s run).1 = List.replicate (run.length - 1) none ++ [lfnName s run] := by
  obtain ⟨es, last, rfl, hes, hlast⟩ := h.split
  rw [fatParseLfns_eq es s hes hlast, length_append, length_singleton,
    Nat.add_sub_cancel]

/-- A name of VFAT, without characters that need more than a byte. -/
structure LongName where
  chars : List UInt8
  clean : 0 ∉ chars
  pos : chars ≠ []
  short : chars.length ≤ 255

theorem cString_cons_of_ne {c : UInt8} (hc : c ≠ 0) (l : List UInt8) :
    cString (c :: l) = c :: cString l := List.takeWhile_cons_of_pos (by simpa using hc)

theorem cString_append (l l' : List UInt8) :
    cString (l ++ l') = if 0 ∈ l then cString l else l ++ cString l' := by
  induction l with
  | nil => rfl
  | cons c l ih =>
    by_cases hc : c = 0
    · simp [cString, hc]
    · have hmem : 0 ∈ c :: l ↔ 0 ∈ l := by
        rw [mem_cons, or_iff_right (Ne.symm hc)]
      simp only [cons_append, cString_cons_of_ne hc, ih, hmem]
      split <;> rfl

theorem cString_of_clean (h : 0 ∉ name) : cString name = name := by
  have happend := cString_append name []
  rwa [if_neg h, append_nil, show cString [] = [] from rfl, append_nil] at happend

theorem cString_concat_nul (name rest : List UInt8) : cString (name ++ 0 :: rest) = cString name := by
  rw [cString_append]
  split
  next h => rfl
  next h =>
    rw [cString_of_clean h]
    exact append_nil name

theorem LongName.stored (n : LongName) (checksum : UInt8) :
    (lfnEncode checksum n.chars).flatMap stored =
      if n.chars.length % 13 = 0 then n.chars.reverse else 0 :: n.chars.reverse := by
  rw [lfnEncode, lfnFragments_bytes]
  split
  next h =>
    have hlength : 13 * ((n.chars.length + 12) / 13) = n.chars.length := by omega
    rw [hlength, take_left]
  next h =>
    rw [take_of_length_le (by rw [length_append, length_singleton]; omega),
      reverse_append]
    rfl

/-- A long name is decoded from a fresh state exactly if its length is not a multiple of 13. -/
theorem lfn_roundtrip_iff (n : LongName) (checksum charIndex : UInt8) (workBuffer : UInt8 → UInt8) :
    (fatParseLfns ⟨charIndex, true, workBuffer⟩ (lfnEncode checksum n.chars)).1 =
        List.replicate ((lfnEncode checksum n.chars).length - 1) none ++ [some n.chars] ↔
      n.chars.length % 13 ≠ 0 := by
  have hpos : 0 < n.chars.length := length_pos_of_ne_nil n.pos
  have hshort := n.short
  have hcomplete : CompleteRun (lfnEncode checksum n.chars) :=
    lfnFragments_complete (by omega) (by omega)
  rw [hcomplete.results, append_cancel_left_eq, singleton_inj, lfnName, n.stored]
  split
  next h =>
    have hrev : n.chars.reverse ≠ [] := by simpa using n.pos
    have hlast : n.chars.reverse.headD 0 ≠ 0 := by
      rw [headD_eq_head?_getD, head?_eq_some_head hrev, Option.getD_some]
      intro hzero
      exact n.clean (mem_reverse.mp (hzero ▸ head_mem hrev))
    rw [bufferName_fill (start_buffer_index rfl) hrev, recent_eq_self (by simpa using by omega),
      storedName, if_pos hlast]
    simp [h]
  next h =>
    rw [bufferName_fill (start_buffer_index rfl) (cons_ne_nil _ _), recent_eq_self
      (by rw [length_cons, length_reverse]; omega), storedName, if_neg (by simp),
      reverse_cons, reverse_reverse, cString_concat_nul, cString_of_clean n.clean]
    simp [h]

/-- A name of 13 characters fills its only entry, and is taken for a corrupt one. -/
theorem lfn_roundtrip_thirteen :
    (fatParseLfns ⟨0, true, fun _ => 0⟩ (lfnEncode 0 (List.replicate 13 0x61))).1 = [none] := by
  decide

end RoundTrip

inductive Lfn.Reachable : Lfn → Prop
  | boot : Reachable ⟨0, true, fun _ => 0⟩
  | lookup {vol : FatVolume} {block : DirEntry → SfnBlock} {fuel : ℕ} {self : FatVnode} {lfn : Lfn}
      {name : List UInt8} {r : Except ℤ FatVnode × Lfn} : Reachable lfn →
      fatLookup vol block fuel self lfn name = .ok r → Reachable r.2
  | readdir {vol : FatVolume} {block : DirEntry → SfnBlock} {fuel : ℕ} {self : FatVnode} {lfn : Lfn}
      {count offset : ℕ} {r : ℤ × List Dirent × Lfn} : Reachable lfn →
      fatReaddir vol block fuel self lfn count offset = .ok r → Reachable r.2.2

section TwoRuns
variable {s s' : Lfn} {run : List DirEntry} {o o' l : List UInt8}

/-- The bytes of an unfinished name that the next one goes on from. -/
def Lfn.leftOver (s : Lfn) : List UInt8 := s.start.buffer.above

theorem Lfn.leftOver_length (s : Lfn) : s.leftOver.length = 255 - s.start.charIndex.toNat :=
  above_length _

theorem lfnName_eq (s : Lfn) (hne : s.leftOver ++ run.flatMap stored ≠ []) :
    lfnName s run = storedName (recent (s.leftOver ++ run.flatMap stored)) := by
  rw [lfnName, ← fill_above s.start.buffer, ← fill_append]
  exact bufferName_fill rfl hne

theorem bufferName_leftOver (hne : s.leftOver ≠ []) :
    bufferName s.start.buffer = storedName s.leftOver := by
  have hlength := s.leftOver_length
  rw [← fill_above s.start.buffer]
  exact (bufferName_fill rfl hne).trans (congrArg storedName (recent_eq_self (by omega)))

theorem storedName_append (hne : o ≠ []) : storedName (o ++ l) = (storedName o).map fun name =>
    if 0 ∈ l then cString l.reverse else l.reverse ++ name := by
  obtain ⟨c, o, rfl⟩ := exists_cons_of_ne_nil hne
  rw [storedName, storedName, cons_append, headD_cons, headD_cons]
  by_cases hc : c ≠ 0
  · rw [if_pos hc, if_pos hc, Option.map_none]
  · rw [if_neg hc, if_neg hc, Option.map_some, ← cons_append, reverse_append,
      cString_append]
    simp

theorem recent_append_of_lt (ho : o.length ≤ 256) (hlt : 256 < (o ++ l).length) :
    recent (o ++ l) = l.drop (256 * ((o.length + l.length - 1) / 256) - o.length) := by
  rw [length_append] at hlt
  rw [recent, length_append, drop_append,
    drop_eq_nil_of_le (by omega), nil_append]

theorem storedName_recent_congr (hlength : o.length = o'.length) (ho : o.length ≤ 255)
    (hne : o ≠ []) (hname : storedName o = storedName o') :
    storedName (recent (o ++ l)) = storedName (recent (o' ++ l)) := by
  have hne' : o' ≠ [] := by
    rw [← length_pos_iff_ne_nil, ← hlength]
    exact length_pos_of_ne_nil hne
  rcases Nat.lt_or_ge 256 (o ++ l).length with hlt | hge
  · rw [recent_append_of_lt (by omega) hlt, recent_append_of_lt (by omega)
      (by rwa [length_append, ← hlength, ← length_append]), hlength]
  · rw [recent_eq_self hge, recent_eq_self
      (by rwa [length_append, ← hlength, ← length_append]), storedName_append hne,
      storedName_append hne', hname]

/-- Different lengths are told apart: by the bytes up to the end of the buffer and one more, which
is at the end of the buffer in one case only. -/
theorem length_le_of_names (ho' : o'.length ≤ 255)
    (h : ∀ l, l ≠ [] → l.length ≤ 256 → storedName (recent (o ++ l)) = storedName (recent (o' ++ l))) :
    o'.length ≤ o.length := by
  by_contra hlt
  have hprobe : ∀ x : UInt8, storedName (o ++ (replicate (256 - o'.length) 1 ++ [x])) =
      storedName [x] := by
    intro x
    have heq := h (replicate (256 - o'.length) 1 ++ [x]) (by simp)
      (by rw [length_append, length_replicate, length_singleton]; omega)
    have htotal : (o' ++ (replicate (256 - o'.length) 1 ++ [x])).length = 257 := by
      simp only [length_append, length_replicate, length_singleton]
      omega
    have hlast : recent (o' ++ (replicate (256 - o'.length) 1 ++ [x])) = [x] := by
      rw [recent, htotal, ← append_assoc]
      refine drop_left' ?_
      rw [length_append, length_replicate]
      omega
    rwa [hlast, recent_eq_self (by
      simp only [length_append, length_replicate, length_singleton]
      omega)] at heq
  obtain ⟨k, hk⟩ : ∃ k, 256 - o'.length = k + 1 := ⟨255 - o'.length, by omega⟩
  -- The first byte decides whether there is a name in the one case, and `x` in the other.
  have hhead : ∀ x : UInt8, (o ++ (replicate (256 - o'.length) 1 ++ [x])).headD 0 =
      (o ++ [1]).headD 0 := by
    intro x
    rw [hk, replicate_succ]
    cases o <;> rfl
  by_cases hfirst : (o ++ [1]).headD 0 ≠ 0
  · have heq := hprobe 0
    rw [storedName, hhead, if_pos hfirst] at heq
    exact absurd heq (by decide)
  · have heq := hprobe 1
    rw [storedName, hhead, if_neg hfirst] at heq
    exact absurd heq.symm (by simp [storedName])

theorem exists_run (hl : l.length ≤ 256) :
    ∃ run, CompleteRun run ∧ run.flatMap stored = l := by
  refine ⟨lfnFragments 0 (l.reverse.map (·, 0)) 20 20,
    lfnFragments_complete (by decide) (by decide), ?_⟩
  rw [lfnFragments_bytes, take_of_length_le (by rw [length_reverse]; omega),
    reverse_reverse]

def Lfn.SameIndex (s s' : Lfn) : Prop := s.start.charIndex = s'.start.charIndex

def Lfn.SameName (s s' : Lfn) : Prop := bufferName s.start.buffer = bufferName s'.start.buffer

theorem Lfn.sameIndex_iff : s.SameIndex s' ↔ s.leftOver.length = s'.leftOver.length := by
  have hlt := s.start.charIndex.toNat_lt
  have hlt' := s'.start.charIndex.toNat_lt
  rw [Lfn.SameIndex, ← UInt8.toNat_inj, s.leftOver_length, s'.leftOver_length]
  omega

theorem Lfn.leftOver_ne_nil (h : s.start.charIndex ≠ 255) : s.leftOver ≠ [] := by
  have hlt := s.start.charIndex.toNat_lt
  have hne : s.start.charIndex.toNat ≠ 255 := fun heq => h (UInt8.toNat_inj.mp heq)
  rw [← length_pos_iff_ne_nil, s.leftOver_length]
  omega

theorem Lfn.leftOver_eq_nil (h : s.start.charIndex = 255) : s.leftOver = [] := by
  rw [← length_eq_zero_iff, s.leftOver_length, h]
  rfl

theorem lfnName_congr (hindex : s.SameIndex s')
    (hname : s.start.charIndex = 255 ∨ s.SameName s') (hne : run.flatMap stored ≠ []) :
    lfnName s run = lfnName s' run := by
  rw [lfnName_eq s (append_ne_nil_of_right_ne_nil _ hne),
    lfnName_eq s' (append_ne_nil_of_right_ne_nil _ hne)]
  by_cases hend : s.start.charIndex = 255
  · rw [leftOver_eq_nil hend, leftOver_eq_nil (hindex.symm.trans hend)]
  · have hleft := leftOver_ne_nil hend
    have hleft' := leftOver_ne_nil fun h => hend (hindex.trans h)
    have hsame := hname.resolve_left hend
    rw [Lfn.SameName, bufferName_leftOver hleft, bufferName_leftOver hleft'] at hsame
    have hlength := s.leftOver_length
    exact storedName_recent_congr (sameIndex_iff.mp hindex) (by omega) hleft hsame

theorem same_of_names (h : ∀ run, CompleteRun run → run.flatMap stored ≠ [] →
      lfnName s run = lfnName s' run) :
    s.SameIndex s' ∧ (s.start.charIndex = 255 ∨ s.SameName s') := by
  have hnames : ∀ l, l ≠ [] → l.length ≤ 256 →
      storedName (recent (s.leftOver ++ l)) = storedName (recent (s'.leftOver ++ l)) := by
    intro l hne hl
    obtain ⟨run, hrun, rfl⟩ := exists_run hl
    rw [← lfnName_eq s (append_ne_nil_of_right_ne_nil _ hne),
      ← lfnName_eq s' (append_ne_nil_of_right_ne_nil _ hne)]
    exact h run hrun hne
  have hlength := s.leftOver_length
  have hlength' := s'.leftOver_length
  have hindex : s.leftOver.length = s'.leftOver.length :=
    le_antisymm (length_le_of_names (by omega) fun l hne hl => (hnames l hne hl).symm)
      (length_le_of_names (by omega) hnames)
  refine ⟨sameIndex_iff.mpr hindex, or_iff_not_imp_left.mpr fun hend => ?_⟩
  have hleft := leftOver_ne_nil hend
  have hleft' : s'.leftOver ≠ [] := by
    rw [← length_pos_iff_ne_nil, ← hindex]
    exact length_pos_of_ne_nil hleft
  have hone := hnames [1] (by simp) (by decide)
  rw [recent_eq_self (by rw [length_append, length_singleton]; omega), recent_eq_self
    (by rw [length_append, length_singleton]; omega), storedName_append hleft,
    storedName_append hleft'] at hone
  rw [Lfn.SameName, bufferName_leftOver hleft, bufferName_leftOver hleft']
  refine Option.map_injective (fun name name' heq => ?_) hone
  simpa using heq

def StoresByte (run : List DirEntry) : Prop := run.flatMap stored ≠ []

theorem CompleteRun.results_eq_iff (h : CompleteRun run) :
    (fatParseLfns s run).1 = (fatParseLfns s' run).1 ↔ lfnName s run = lfnName s' run := by
  rw [h.results, h.results, append_cancel_left_eq, singleton_inj]

/-- From two states, all complete runs give the same results exactly if the next name goes on at the
same place and what is in the buffer reads the same. For runs that store a byte, the buffer does not
matter if the next name starts at its end. -/
theorem lfn_own_entries_iff (s s' : Lfn) :
    ((∀ run, CompleteRun run → (fatParseLfns s run).1 = (fatParseLfns s' run).1) ↔
        s.SameIndex s' ∧ s.SameName s') ∧
      ((∀ run, CompleteRun run → StoresByte run →
          (fatParseLfns s run).1 = (fatParseLfns s' run).1) ↔
        s.SameIndex s' ∧ (s.start.charIndex = 255 ∨ s.SameName s')) := by
  refine ⟨⟨fun h => ?_, ?_⟩, fun h => same_of_names fun run hrun hne =>
    hrun.results_eq_iff.mp (h run hrun hne), fun h run hrun hne =>
      hrun.results_eq_iff.mpr (lfnName_congr h.1 h.2 hne)⟩
  · refine ⟨(same_of_names fun run hrun _ => hrun.results_eq_iff.mp (h run hrun)).1, ?_⟩
    obtain ⟨run, hrun, hstored⟩ := exists_run (l := []) (by decide)
    have hname := hrun.results_eq_iff.mp (h run hrun)
    rwa [lfnName, lfnName, hstored] at hname
  · rintro ⟨hindex, hname⟩ run hrun
    rw [hrun.results_eq_iff]
    by_cases hne : run.flatMap stored = []
    · rw [lfnName, lfnName, hne]
      exact hname
    · exact lfnName_congr hindex (.inr hname) hne

end TwoRuns

/-- A directory with an entry of a long name of which the rest is missing. -/
def orphanVolume : FatVolume where
  sectorsPerCluster := 1
  firstDataSector := 0
  directories := fun _ => [lfnEntry 0x42 0 fun i => [(0x62, 0)].getD i (0xFF, 0xFF)]
  fat := fun _ => 0x0FFFFFF8

def orphanLfn : Lfn := (fatParseLfn ⟨0, true, fun _ => 0⟩
  (lfnEntry 0x42 0 fun i => [(0x62, 0)].getD i (0xFF, 0xFF))).2

/-- After it was listed, the name `a` cannot be retrieved any more. -/
theorem lfn_own_entries_orphan : Lfn.Reachable ⟨0, true, fun _ => 0⟩ ∧ Lfn.Reachable orphanLfn ∧
    CompleteRun (lfnEncode 0 [0x61]) ∧
    (fatParseLfns ⟨0, true, fun _ => 0⟩ (lfnEncode 0 [0x61])).1 = [some [0x61]] ∧
    (fatParseLfns orphanLfn (lfnEncode 0 [0x61])).1 = [none] := by
  have hscan : fatReaddir orphanVolume (fun _ => ⟨0, fun _ => 0⟩) 1 ⟨[], .dir, 0, 2⟩
      ⟨0, true, fun _ => 0⟩ 0 0 = .ok (0, [], orphanLfn) := rfl
  refine ⟨.boot, .readdir .boot hscan, lfnFragments_complete (by decide) (by decide), ?_, ?_⟩
  · decide
  · decide

end GarnOS
