import GarnOS.Fal.LongNames

/-! Short names: what `fat_parse_sfn` leaves in the 13 bytes that it allocates. -/
namespace GarnOS
open Outcome List Function DirEntry

def sfnPut (buf : ℕ → UInt8) (i : ℕ) (c : UInt8) : Except Fault (ℕ → UInt8) :=
  if i < 13 then .ok (Function.update buf i c) else .error (.overrun i)

/-- The loops over the base and the extension, with `strptr`. -/
def sfnCopy : List UInt8 → (ℕ → UInt8) → ℕ → Except Fault ((ℕ → UInt8) × ℕ)
  | [], buf, strptr => .ok (buf, strptr)
  | c :: cs, buf, strptr =>
    if c = 0x20 then .ok (buf, strptr)
    else do sfnCopy cs (← sfnPut buf strptr c) (strptr + 1)

def fatParseSfnBlock (b : SfnBlock) (e : DirEntry) : Except Fault (ℕ → UInt8) := do
  let (buf, strptr) ← sfnCopy e.base b.fresh 0
  let last := if strptr = 0 then b.before else buf (strptr - 1)
  let buf ← if last ≠ 0x2E ∧ e 8 ≠ 0x20 then sfnPut buf strptr 0x2E else pure buf
  let (buf, strptr) ← sfnCopy e.ext buf (if e.isDirectory then strptr else strptr + 1)
  sfnPut buf strptr 0

def DirEntry.baseName (e : DirEntry) : List UInt8 := e.base.takeWhile (· ≠ 0x20)

def DirEntry.extension (e : DirEntry) : List UInt8 := e.ext.takeWhile (· ≠ 0x20)

/-- The name of an entry as it is meant: with a dot exactly if there is an extension. -/
def DirEntry.shortName (e : DirEntry) : List UInt8 :=
  if e.extension = [] then e.baseName else e.baseName ++ 0x2E :: e.extension

def HoldsName (buf : ℕ → UInt8) (name : List UInt8) : Prop :=
  name.length < 13 ∧ (List.range (name.length + 1)).map buf = name ++ [0]

instance decidableHoldsName (buf : ℕ → UInt8) (name : List UInt8) : Decidable (HoldsName buf name) :=
  inferInstanceAs (Decidable (_ ∧ _))

section Blocks
variable {b : SfnBlock} {e : DirEntry} {l cs : List UInt8} {buf : ℕ → UInt8} {i : ℕ}

def written (l : List UInt8) (buf : ℕ → UInt8) (i : ℕ) : UInt8 := l.getD i (buf i)

theorem update_written (l : List UInt8) (buf : ℕ → UInt8) (c : UInt8) :
    Function.update (written l buf) l.length c = written (l ++ [c]) buf := by
  funext i
  rcases Nat.lt_trichotomy i l.length with hlt | rfl | hgt
  · rw [update_of_ne (by omega), written, written, getD_eq_getElem?_getD,
      getD_eq_getElem?_getD, getElem?_append_left hlt]
  · rw [update_self, written, getD_eq_getElem?_getD, getElem?_concat_length]
    rfl
  · rw [update_of_ne (by omega), written, written, getD_eq_getElem?_getD,
      getD_eq_getElem?_getD, getElem?_eq_none (by omega),
      getElem?_eq_none (by rw [length_append, length_singleton]; omega)]

theorem written_concat_self (l : List UInt8) (buf : ℕ → UInt8) :
    written (l ++ [buf l.length]) buf = written l buf := by
  rw [← update_written]
  refine update_eq_self_iff.mpr ?_
  rw [written, getD_eq_getElem?_getD, getElem?_eq_none le_rfl, Option.getD_none]

theorem sfnPut_written (c : UInt8) (h : l.length < 13) :
    sfnPut (written l buf) l.length c = .ok (written (l ++ [c]) buf) := by
  rw [sfnPut, if_pos h, update_written]

theorem sfnCopy_written (cs : List UInt8) (h : l.length + cs.length ≤ 13) :
    sfnCopy cs (written l buf) l.length =
      .ok (written (l ++ cs.takeWhile (· ≠ 0x20)) buf, (l ++ cs.takeWhile (· ≠ 0x20)).length) := by
  induction cs generalizing l with
  | nil => rw [sfnCopy, takeWhile_nil, append_nil]
  | cons c cs ih =>
    rw [length_cons] at h
    by_cases hc : c = 0x20
    · rw [sfnCopy, if_pos hc, takeWhile_cons_of_neg (by simp [hc]), append_nil]
    · have hlength : (l ++ [c]).length = l.length + 1 := by
        rw [length_append, length_singleton]
      rw [sfnCopy, if_neg hc, sfnPut_written c (by omega), ok_bind, ← hlength, ih (by omega),
        takeWhile_cons_of_pos (by simp [hc]), append_assoc, singleton_append]

variable {d : UInt8} {base : List UInt8}

theorem sfnCopy_update {c : UInt8} (hc : c ≠ 0x20) (buf : ℕ → UInt8) (i : ℕ) :
    sfnCopy (c :: cs) (Function.update buf i d) i = sfnCopy (c :: cs) buf i := by
  rw [sfnCopy, sfnCopy, if_neg hc, if_neg hc, sfnPut, sfnPut, update_idem]

theorem baseName_length_le (e : DirEntry) : e.baseName.length ≤ 8 :=
  ( takeWhile_prefix _).length_le

theorem extension_length_le (e : DirEntry) : e.extension.length ≤ 3 :=
  ( takeWhile_prefix _).length_le

theorem extension_eq_nil_iff (e : DirEntry) : e.extension = [] ↔ e 8 = 0x20 := by
  rw [extension, ext]
  by_cases h : e 8 = 0x20
  · rw [takeWhile_cons_of_neg (by simp [h])]
    exact iff_of_true rfl h
  · rw [takeWhile_cons_of_pos (by simp [h])]
    exact iff_of_false (cons_ne_nil _ _) h

/-- What `fat_parse_sfn` writes behind the base: for a directory only the extension. -/
def DirEntry.behindBase (b : SfnBlock) (e : DirEntry) : List UInt8 :=
  if e.isDirectory then e.extension else sfnDot b e e.baseName :: e.extension

theorem written_last (l : List UInt8) (b : SfnBlock) :
    (if l.length = 0 then b.before else written l b.fresh (l.length - 1)) =
      l.getLast?.getD b.before := by
  rcases eq_nil_or_concat' l with rfl | ⟨l, c, rfl⟩
  · rfl
  · rw [if_neg (by simp), getLast?_concat, Option.getD_some, written,
      getD_eq_getElem?_getD]
    simp

theorem sfnCopy_ext (e : DirEntry) (h : l.length ≤ 9) :
    (sfnCopy e.ext (written l buf) l.length >>= fun r => sfnPut r.1 r.2 0) =
      .ok (written (l ++ e.extension ++ [0]) buf) := by
  have hext : e.ext.length = 3 := rfl
  have hextension := extension_length_le e
  rw [sfnCopy_written e.ext (by omega), ok_bind, ← extension]
  exact sfnPut_written 0 (by rw [length_append]; omega)

theorem sfnCopy_file (e : DirEntry) (c : UInt8) (buf : ℕ → UInt8) :
    (sfnCopy e.ext (written (e.baseName ++ [c]) buf) (e.baseName.length + 1) >>= fun r =>
        sfnPut r.1 r.2 0) =
      .ok (written (e.baseName ++ c :: e.extension ++ [0]) buf) := by
  have hlength : (e.baseName ++ [c]).length = e.baseName.length + 1 := by
    rw [length_append, length_singleton]
  have hbase := baseName_length_le e
  rw [← hlength, sfnCopy_ext e (by omega), append_assoc e.baseName, singleton_append]

theorem fatParseSfnBlock_eq (b : SfnBlock) (e : DirEntry) : fatParseSfnBlock b e =
    .ok (written (e.baseName ++ e.behindBase b ++ [0]) b.fresh) := by
  have hlength := baseName_length_le e
  have hbase : sfnCopy e.base b.fresh 0 = .ok (written e.baseName b.fresh, e.baseName.length) :=
    sfnCopy_written (l := []) e.base (by simp [base])
  rw [fatParseSfnBlock, hbase]
  dsimp only [ok_bind]
  rw [written_last]
  by_cases hdot : e.baseName.getLast?.getD b.before ≠ 0x2E ∧ e 8 ≠ 0x20
  · rw [if_pos hdot, sfnPut_written 0x2E (by omega)]
    dsimp only [ok_bind]
    cases hdir : e.isDirectory with
    | true =>
      have hover : sfnCopy e.ext (written (e.baseName ++ [0x2E]) b.fresh) e.baseName.length =
          sfnCopy e.ext (written e.baseName b.fresh) e.baseName.length := by
        rw [← update_written]
        exact sfnCopy_update hdot.2 _ _
      rw [if_pos rfl, hover, behindBase, hdir, if_pos rfl]
      exact sfnCopy_ext e (by omega)
    | false =>
      rw [if_neg Bool.false_ne_true, behindBase, hdir, if_neg Bool.false_ne_true, sfnDot,
        if_pos hdot]
      exact sfnCopy_file e 0x2E b.fresh
  · rw [if_neg hdot, pure_bind]
    cases hdir : e.isDirectory with
    | true =>
      rw [if_pos rfl, behindBase, hdir, if_pos rfl]
      exact sfnCopy_ext e (by omega)
    | false =>
      rw [if_neg Bool.false_ne_true, behindBase, hdir, if_neg Bool.false_ne_true, sfnDot,
        if_neg hdot, ← written_concat_self e.baseName b.fresh]
      exact sfnCopy_file e _ b.fresh

theorem map_written_range (l : List UInt8) (buf : ℕ → UInt8) (n : ℕ) (h : n ≤ l.length) :
    (List.range n).map (written l buf) = l.take n := by
  apply ext_getElem
  · rw [length_map, length_range, length_take, Nat.min_eq_left h]
  · intro i hi _
    rw [length_map, length_range] at hi
    rw [getElem_map, getElem_range, getElem_take, written,
      getD_eq_getElem?_getD, getElem?_eq_getElem (by omega), Option.getD_some]

theorem fatParseSfnBlock_cString (b : SfnBlock) (e : DirEntry) :
    (fatParseSfnBlock b e).map (fun buf => cString ((List.range 13).map buf)) =
      .ok (fatParseSfn b e) := by
  have hbase := baseName_length_le e
  have hext := extension_length_le e
  have hbehind : (e.behindBase b).length ≤ 4 := by
    unfold behindBase
    split
    · omega
    · rw [length_cons]
      omega
  obtain ⟨k, hk⟩ : ∃ k, 13 = (e.baseName ++ e.behindBase b ++ [0]).length + k :=
    Nat.exists_eq_add_of_le (by
      rw [length_append, length_append, length_singleton]
      omega)
  rw [fatParseSfnBlock_eq]
  show Except.ok (cString ((range 13).map (written _ b.fresh))) = _
  rw [hk, range_add, map_append, map_written_range _ _ _ le_rfl, take_length,
    append_assoc, singleton_append, cString_concat_nul]
  rfl

theorem holdsName_written {name : List UInt8} (h : name.length < l.length)
    (hshort : name.length < 13) :
    HoldsName (written l buf) name ↔ l.take (name.length + 1) = name ++ [0] := by
  rw [HoldsName, and_iff_right hshort, map_written_range _ _ _ h]

theorem append_nul_ne_dot (l : List UInt8) : l ++ [0] ≠ 0x2E :: l := by
  intro heq
  have hcount := congrArg (count (0 : UInt8)) heq
  simp at hcount

theorem not_holdsName_dot (base ext : List UInt8) :
    ¬HoldsName (written (base ++ ext ++ [0]) buf) (base ++ 0x2E :: ext) := by
  intro hholds
  have hlength : (base ++ ext ++ [0]).length = (base ++ 0x2E :: ext).length := by
    rw [length_append, length_append, length_append, length_singleton,
      length_cons, Nat.add_assoc]
  have htake := congrArg (take (base ++ ext ++ [0]).length) hholds.2
  rw [← map_take, take_range, Nat.min_eq_left (by omega), map_written_range _ _ _ le_rfl,
    take_length, hlength, take_left, append_assoc, append_cancel_left_eq] at htake
  exact append_nul_ne_dot ext htake

theorem holdsName_base_iff (h : base.length < 13) :
    HoldsName (written (base ++ [d] ++ [0]) buf) base ↔ d = 0 := by
  have htake : (base ++ [d] ++ [0]).take (base.length + 1) = base ++ [d] :=
    take_left' (by rw [length_append, length_singleton])
  rw [holdsName_written (by simp only [length_append, length_singleton]; omega) h, htake,
    append_cancel_left_eq, singleton_inj]

theorem holdsName_dot_iff {ext : List UInt8} (h : (base ++ 0x2E :: ext).length < 13) :
    HoldsName (written (base ++ d :: ext ++ [0]) buf) (base ++ 0x2E :: ext) ↔ d = 0x2E := by
  have hlength : (base ++ d :: ext ++ [0]).length = (base ++ 0x2E :: ext).length + 1 := by
    rw [length_append, length_append, length_append, length_singleton,
      length_cons, length_cons]
  rw [holdsName_written (by omega) h, ← hlength, take_length, append_cancel_right_eq,
    append_cancel_left_eq, cons.injEq, and_iff_left rfl]

theorem baseName_last (h : e 0 ≠ 0x20) (c : UInt8) :
    e.baseName.getLast?.getD b.before ≠ c ↔ e.baseName.getLast? ≠ some c := by
  have hne : e.baseName ≠ [] := by
    rw [baseName, base, takeWhile_cons_of_pos (by simp [h])]
    exact cons_ne_nil _ _
  rw [getLast?_eq_some_getLast hne, Option.getD_some, Ne, Ne, Option.some.injEq]

end Blocks

/-- A short name is decoded exactly if it is that of a directory without an extension, or of a file
whose byte behind the base is right: set to a dot, unless the base ends with one, or as it was in
the new block. -/
theorem sfn_decodes_iff (b : SfnBlock) {e : DirEntry} (h : e 0 ≠ 0x20) :
    (∃ buf, fatParseSfnBlock b e = .ok buf ∧ HoldsName buf e.shortName) ↔
      if e.isDirectory then e.extension = []
      else if e.extension = [] then b.fresh e.baseName.length = 0
      else e.baseName.getLast? ≠ some 0x2E ∨ b.fresh e.baseName.length = 0x2E := by
  have hbase := baseName_length_le e
  have hext := extension_length_le e
  have hexists : (∃ buf, fatParseSfnBlock b e = .ok buf ∧ HoldsName buf e.shortName) ↔
      HoldsName (written (e.baseName ++ e.behindBase b ++ [0]) b.fresh) e.shortName := by
    rw [fatParseSfnBlock_eq]
    refine ⟨?_, fun hholds => ⟨_, rfl, hholds⟩⟩
    rintro ⟨buf, hbuf, hholds⟩
    rwa [Except.ok.inj hbuf]
  rw [hexists, shortName, behindBase]
  cases hdir : e.isDirectory with
  | true =>
    rw [if_pos rfl, if_pos rfl]
    by_cases hblank : e.extension = []
    · rw [if_pos hblank, hblank, append_nil, holdsName_written
        (by rw [length_append, length_singleton]; omega) (by omega)]
      refine iff_of_true (take_of_length_le ?_) rfl
      rw [length_append, length_singleton]
    · rw [if_neg hblank]
      exact iff_of_false (not_holdsName_dot _ _) hblank
  | false =>
    rw [if_neg Bool.false_ne_true, if_neg Bool.false_ne_true]
    by_cases hblank : e.extension = []
    · have hspace : ¬(e.baseName.getLast?.getD b.before ≠ 0x2E ∧ e 8 ≠ 0x20) := fun hdot =>
        hdot.2 ((extension_eq_nil_iff e).mp hblank)
      rw [if_pos hblank, if_pos hblank, hblank, holdsName_base_iff (by omega), sfnDot, if_neg hspace]
    · have hspace : e 8 ≠ 0x20 := fun heq => hblank ((extension_eq_nil_iff e).mpr heq)
      rw [if_neg hblank, if_neg hblank, holdsName_dot_iff
        (by rw [length_append, length_cons]; omega), sfnDot]
      by_cases hlast : e.baseName.getLast? ≠ some 0x2E
      · rw [if_pos ⟨(baseName_last h _).mpr hlast, hspace⟩]
        exact iff_of_true rfl (.inl hlast)
      · rw [if_neg fun hdot => hlast ((baseName_last h _).mp hdot.1), or_iff_right hlast]

def dottedFile : DirEntry := fun i =>
  [0x42, 0x20, 0x20, 0x20, 0x20, 0x20, 0x20, 0x20, 0x43, 0x20, 0x20, 0x20].getD i.val 0

theorem sfn_decodes_file : ∃ buf, fatParseSfnBlock ⟨0, fun _ => 0xFF⟩ dottedFile = .ok buf ∧
    HoldsName buf [0x42, 0x2E, 0x43] :=
  (sfn_decodes_iff ⟨0, fun _ => 0xFF⟩ (e := dottedFile) (by decide)).mpr (by decide)

def dottedDir : DirEntry := fun i =>
  [0x42, 0x20, 0x20, 0x20, 0x20, 0x20, 0x20, 0x20, 0x43, 0x20, 0x20, 0x10].getD i.val 0

/-- Its name has no dot. -/
theorem sfn_decodes_dir : dottedDir.shortName = [0x42, 0x2E, 0x43] ∧
    ∃ buf, fatParseSfnBlock ⟨0, fun _ => 0xFF⟩ dottedDir = .ok buf ∧ HoldsName buf [0x42, 0x43] ∧
      ¬HoldsName buf dottedDir.shortName := by
  refine ⟨by decide, _, fatParseSfnBlock_eq _ _, ?_, ?_⟩
  · decide
  · decide

end GarnOS
