import GarnOS.Fal.Vnode

/-! The initial ramdisk: a ustar archive in memory, the walk over its headers, and reading a member.
Addresses are 64-bit; the caller's buffer is an object of its own. -/
namespace GarnOS
open ByteMemory Outcome Nat
open List hiding Vector

/-- The vnode that `initrd_lookup` makes; `fsData` is the address of the content, `none` for the
root directory. -/
structure InitrdVnode where
  filename : List (BitVec 8)
  type : VnodeType
  size : ℕ
  fsData : Option ℕ
  deriving DecidableEq, Repr

def strcmpAt (m : Mem) : List (BitVec 8) → ℕ → ℤ
  | [], a => 0 - (byteAt m a).toInt
  | c :: cs, a =>
    if c ≠ 0 ∧ byteAt m a ≠ 0 ∧ c = byteAt m a then strcmpAt m cs (a + 1)
    else c.toInt - (byteAt m a).toInt

/-- `initrd_tar_conv_number`, with `n` what was read so far. -/
def tarConvFrom (m : Mem) (n : ℕ) : ℕ → ℕ → ℕ
  | _, 0 => n
  | a, size + 1 =>
    tarConvFrom m ((n * 8 % 2 ^ 64 + u64 ((byteAt m a).toInt - 48)) % 2 ^ 64) (a + 1) size

def initrdTarConvNumber (m : Mem) (str size : ℕ) : ℕ := tarConvFrom m 0 str size

/-- The offsets of `initrd_tar_header_t`, and its size. -/
def tarSize : ℕ := 124
def tarTypeFlag : ℕ := 156
def sizeofTarHeader : ℕ := 157

def tarType (typeFlag : BitVec 8) : VnodeType :=
  if typeFlag = 0 ∨ typeFlag = 0x30 then .reg
  else if typeFlag = 0x35 then .dir
  else .bad

/-- The loop of `initrd_lookup` from the header at `haddr` on; the inner error is the `kerrno` of a
`NULL` result. -/
def initrdWalk (m : Mem) (fullname : List (BitVec 8)) :
    ℕ → ℕ → Except Fault (Except ℤ InitrdVnode)
  | 0, _ => .error .diverges
  | fuel + 1, haddr =>
    if byteAt m haddr = 0 then .ok (.error ENOENT)
    else if strcmpAt m fullname haddr = 0 then
      .ok (.ok
        { filename := fullname
          type := tarType (byteAt m (haddr + tarTypeFlag))
          size := initrdTarConvNumber m (haddr + tarSize) 11
          fsData := some ((haddr + ALIGN_UP sizeofTarHeader 512) % 2 ^ 64) })
    else
      let size := initrdTarConvNumber m (haddr + tarSize) 11
      let next := (haddr + (size / 512 + 1) * 512) % 2 ^ 64
      initrdWalk m fullname fuel (if size % 512 ≠ 0 then (next + 512) % 2 ^ 64 else next)

/-- `initrd` is the address of the archive, `opened` the open vnodes of the file system, in the
order of the vnode list. The full name goes into a buffer of 256 bytes. -/
def initrdLookup (m : Mem) (initrd fuel : ℕ) (opened : List InitrdVnode) (self : InitrdVnode)
    (name : List (BitVec 8)) : Except Fault (Except ℤ InitrdVnode) :=
  if self.type ≠ .dir then .ok (.error ENOTDIR)
  else
    let fullname := self.filename ++ name
    if 256 ≤ fullname.length then .error (.overrun 256)
    else
      match opened.find? fun v => v.filename = fullname with
      | some listEntry => .ok (.ok listEntry)
      | none => initrdWalk m fullname fuel initrd

/-- The loop of `initrd_read`, with `n` passes left at index `i`. -/
def initrdReadFrom (m : Mem) (self : InitrdVnode) :
    ℕ → ℕ → ℕ → (ℕ → BitVec 8) → Except Fault (ℕ × (ℕ → BitVec 8))
  | 0, i, _, buf => .ok (i, buf)
  | n + 1, i, offset, buf =>
    if self.size ≤ offset then .ok (i, buf)
    else
      match self.fsData with
      | none => .error (.pageFault 0)
      | some startOffset =>
        initrdReadFrom m self n (i + 1) (offset + 1)
          (Function.update buf i (byteAt m (startOffset + offset)))

def initrdRead (m : Mem) (self : InitrdVnode) (size : ℕ) (buf : ℕ → BitVec 8) (offset : ℕ) :
    Except Fault (ℕ × (ℕ → BitVec 8)) :=
  initrdReadFrom m self size 0 offset buf

def initrdRoot : InitrdVnode := ⟨[], .dir, 0, none⟩

/-- A member of an archive, with the header fields that the reader does not look at: mode and
owners, the byte after the size, time and checksum, and what follows the type flag. -/
structure UstarMember where
  name : List (BitVec 8)
  typeFlag : BitVec 8
  content : List (BitVec 8)
  owner : Vector (BitVec 8) 24
  sizeEnd : BitVec 8
  stamp : Vector (BitVec 8) 20
  tail : Vector (BitVec 8) 355
  name_pos : 0 < name.length
  name_lt : name.length < 100
  name_nul : 0 ∉ name
  content_lt : content.length < 8 ^ 11

def octalDigits : ℕ → ℕ → List (BitVec 8)
  | 0, _ => []
  | width + 1, n => octalDigits width (n / 8) ++ [BitVec.ofNat 8 (48 + n % 8)]

namespace UstarMember

def header (f : UstarMember) : List (BitVec 8) :=
  f.name ++ replicate (100 - f.name.length) 0 ++ f.owner.toList ++
    octalDigits 11 f.content.length ++ [f.sizeEnd] ++ f.stamp.toList ++ [f.typeFlag] ++ f.tail.toList

def body (f : UstarMember) : List (BitVec 8) :=
  f.content ++ replicate ((512 - f.content.length % 512) % 512) 0

def encode (f : UstarMember) : List (BitVec 8) := f.header ++ f.body

end UstarMember

open UstarMember

/-- The members, and the zero block that ends the archive. -/
def ustarArchive (fs : List UstarMember) : List (BitVec 8) :=
  fs.flatMap encode ++ replicate 512 0

section Fields
variable {m : Mem} {a : ℕ}

@[simp] theorem octalDigits_length (width n : ℕ) : (octalDigits width n).length = width := by
  induction width generalizing n with
  | zero => rfl
  | succ width ih => simp [octalDigits, ih]

theorem tarConvFrom_append (m : Mem) (n a k l : ℕ) :
    tarConvFrom m n a (k + l) = tarConvFrom m (tarConvFrom m n a k) (a + k) l := by
  induction k generalizing n a with
  | zero => simp [tarConvFrom]
  | succ k ih =>
    rw [show k + 1 + l = k + l + 1 by omega, tarConvFrom, ih, tarConvFrom,
      show a + 1 + k = a + (k + 1) by omega]

theorem digit_value {d : ℕ} (hd : d < 8) : u64 ((BitVec.ofNat 8 (48 + d)).toInt - 48) = d := by
  interval_cases d <;> decide

theorem tarConv_octalDigits {width n : ℕ} (hwidth : 8 ^ width ≤ 2 ^ 64) (hn : n < 8 ^ width)
    (h : Stored m a (octalDigits width n)) : initrdTarConvNumber m a width = n := by
  induction width generalizing n with
  | zero =>
    obtain rfl : n = 0 := by simpa using hn
    rfl
  | succ width ih =>
    rw [octalDigits, stored_append, octalDigits_length, stored_cons] at h
    have hfirst : tarConvFrom m 0 a width = n / 8 := ih (by omega) (by omega) h.1
    rw [initrdTarConvNumber, tarConvFrom_append, hfirst, tarConvFrom, tarConvFrom, h.2.1,
      digit_value (mod_lt n (by omega))]
    omega

theorem strcmpAt_eq_zero {s name zs : List (BitVec 8)} (hs : 0 ∉ s) (hname : 0 ∉ name)
    (h : Stored m a (name ++ 0 :: zs)) : strcmpAt m s a = 0 ↔ s = name := by
  induction s generalizing name a with
  | nil =>
    cases name with
    | nil =>
      rw [nil_append, stored_cons] at h
      simp [strcmpAt, h.1]
    | cons d name =>
      rw [cons_append, stored_cons] at h
      have hd : d ≠ 0 := fun heq => hname (by simp [heq])
      simp only [strcmpAt, h.1, reduceCtorEq, iff_false]
      intro hz
      exact hd (BitVec.eq_of_toInt_eq (by simpa using hz))
  | cons c s ih =>
    have hc : c ≠ 0 := fun heq => hs (by simp [heq])
    cases name with
    | nil =>
      rw [nil_append, stored_cons] at h
      simp only [strcmpAt, h.1, ne_eq, not_true, false_and, and_false, if_false, reduceCtorEq,
        iff_false]
      intro hz
      exact hc (BitVec.eq_of_toInt_eq (by simpa using hz))
    | cons d name =>
      rw [cons_append, stored_cons] at h
      have hd : d ≠ 0 := fun heq => hname (by simp [heq])
      have hrest := ih (fun hin => hs (mem_cons_of_mem _ hin))
        (fun hin => hname (mem_cons_of_mem _ hin)) h.2
      rw [strcmpAt, h.1]
      split
      next heq => rw [hrest, heq.2.2, cons.injEq, eq_self_iff_true, true_and]
      next hne =>
        have hcd : c ≠ d := fun heq => hne ⟨hc, hd, heq⟩
        constructor
        · intro hz
          exact absurd (BitVec.eq_of_toInt_eq (by omega)) hcd
        · intro heq
          exact absurd (cons.inj heq).1 hcd

end Fields

section Headers
variable {m : Mem} {a : ℕ} {f : UstarMember} {s : List (BitVec 8)}

theorem UstarMember.name_ne_nul (f : UstarMember) : ∃ c cs, f.name = c :: cs ∧ c ≠ 0 := by
  cases hname : f.name with
  | nil => simpa [hname] using f.name_pos
  | cons c cs => exact ⟨c, cs, rfl, fun heq => f.name_nul (by simp [hname, heq])⟩

@[simp] theorem UstarMember.header_length (f : UstarMember) : f.header.length = 512 := by
  have hname := f.name_lt
  simp only [header, length_append, length_replicate, Vector.length_toList,
    octalDigits_length, length_singleton]
  omega

theorem UstarMember.encode_length (f : UstarMember) : f.encode.length =
    (f.content.length / 512 + 1) * 512 + if f.content.length % 512 ≠ 0 then 512 else 0 := by
  simp only [encode, body, length_append, header_length, length_replicate]
  split <;> omega

section
variable (h : Stored m a f.header)
include h

theorem UstarMember.stored_name : ∃ zs, Stored m a (f.name ++ 0 :: zs) := by
  have hname := f.name_lt
  refine ⟨replicate (99 - f.name.length) 0, ?_⟩
  have hpad : (0 : BitVec 8) :: replicate (99 - f.name.length) 0 =
      replicate (100 - f.name.length) 0 := by
    rw [← replicate_succ]
    congr 1
    omega
  rw [hpad]
  simp only [header, stored_append] at h ⊢
  exact h.1.1.1.1.1.1

theorem UstarMember.stored_size : initrdTarConvNumber m (a + tarSize) 11 = f.content.length := by
  have hname := f.name_lt
  simp only [header, stored_append, length_append, length_replicate,
    Vector.length_toList] at h
  have hdigits := h.1.1.1.1.2
  rw [show a + (f.name.length + (100 - f.name.length) + 24) = a + tarSize by
    unfold tarSize; omega] at hdigits
  exact tarConv_octalDigits (by norm_num) f.content_lt hdigits

theorem UstarMember.stored_typeFlag : byteAt m (a + tarTypeFlag) = f.typeFlag := by
  have hname := f.name_lt
  simp only [header, stored_append, length_append, length_replicate,
    Vector.length_toList, octalDigits_length, length_singleton] at h
  have hflag := (stored_cons.mp h.1.2).1
  rwa [show a + (f.name.length + (100 - f.name.length) + 24 + 11 + 1 + 20) = a + tarTypeFlag by
    unfold tarTypeFlag; omega] at hflag

theorem UstarMember.first_byte : byteAt m a ≠ 0 := by
  obtain ⟨zs, hzs⟩ := f.stored_name h
  obtain ⟨c, cs, hname, hc⟩ := f.name_ne_nul
  rw [hname, cons_append, stored_cons] at hzs
  rwa [hzs.1]

end

variable {fuel : ℕ}

theorem initrdWalk_member (hs : 0 ∉ s) (h : Stored m a f.encode) : initrdWalk m s (fuel + 1) a =
      if s = f.name then .ok (.ok ⟨s, tarType f.typeFlag, f.content.length,
        some ((a + 512) % 2 ^ 64)⟩)
      else initrdWalk m s fuel ((a + f.encode.length) % 2 ^ 64) := by
  have hheader := (stored_append.mp h).1
  obtain ⟨zs, hzs⟩ := f.stored_name hheader
  rw [initrdWalk, if_neg (f.first_byte hheader), f.stored_size hheader,
    f.stored_typeFlag hheader]
  simp only [strcmpAt_eq_zero hs f.name_nul hzs]
  split
  · rfl
  · rw [f.encode_length]
    congr 1
    split <;> omega

theorem initrdWalk_archive {fs : List UstarMember} (hs : 0 ∉ s) (h : Stored m a (ustarArchive fs))
    (hfuel : fs.length < fuel) : match fs.find? fun f => f.name = s with
    | none => initrdWalk m s fuel a = .ok (.error ENOENT)
    | some f => ∃ start, Stored m start f.content ∧ initrdWalk m s fuel a =
        .ok (.ok ⟨s, tarType f.typeFlag, f.content.length, some start⟩) := by
  obtain ⟨fuel, rfl⟩ := exists_eq_succ_of_ne_zero (ne_zero_of_lt hfuel)
  induction fs generalizing a fuel with
  | nil =>
    have hzero : byteAt m a = 0 := (stored_cons.mp h).1
    simp [initrdWalk, hzero]
  | cons f fs ih =>
    rw [ustarArchive, flatMap_cons, append_assoc, stored_append] at h
    rw [initrdWalk_member hs h.1]
    by_cases hname : s = f.name
    · have hcontent := (stored_append.mp (stored_append.mp h.1).2).1
      rw [f.header_length] at hcontent
      rw [if_pos hname]
      simp only [find?_cons, hname, decide_true]
      exact ⟨_, stored_mod.mpr hcontent, rfl⟩
    · rw [if_neg hname]
      simp only [find?_cons, decide_eq_false (Ne.symm hname)]
      obtain ⟨fuel, rfl⟩ := exists_eq_succ_of_ne_zero (show fuel ≠ 0 by
        rw [length_cons] at hfuel
        omega)
      exact ih (stored_mod.mpr h.2) fuel (by simpa using hfuel)

end Headers

section Reading
variable {m : Mem} {f : UstarMember}

theorem initrdReadFrom_eq {v : InitrdVnode} {start : ℕ} (hstart : v.fsData = some start)
    {content : List (BitVec 8)} (hsize : v.size = content.length)
    (hcontent : Stored m start content) (n i offset : ℕ) (buf : ℕ → BitVec 8) :
    ∃ buf', initrdReadFrom m v n i offset buf = .ok (i + min n (content.length - offset), buf') ∧
      (∀ j < min n (content.length - offset), content[offset + j]? = some (buf' (i + j))) ∧
      ∀ j, j < i ∨ i + min n (content.length - offset) ≤ j → buf' j = buf j := by
  induction n generalizing i offset buf with
  | zero => exact ⟨buf, by simp [initrdReadFrom], by simp, fun _ _ => rfl⟩
  | succ n ih =>
    by_cases hend : content.length ≤ offset
    · refine ⟨buf, ?_, ?_, fun _ _ => rfl⟩
      · rw [initrdReadFrom, hsize, if_pos hend, Nat.sub_eq_zero_of_le hend, Nat.min_zero]
        rfl
      · intro j hj
        omega
    · obtain ⟨buf', hcall, hin, hout⟩ := ih (i + 1) (offset + 1)
        (Function.update buf i (byteAt m (start + offset)))
      refine ⟨buf', ?_, ?_, ?_⟩
      · rw [initrdReadFrom, hsize, if_neg hend, hstart]
        dsimp only
        rw [hcall]
        congr 2
        omega
      · intro j hj
        cases j with
        | zero =>
          have hbyte : byteAt m (start + offset) = content.get ⟨offset, by omega⟩ :=
            hcontent offset _ (getElem?_eq_getElem (by omega))
          rw [add_zero, add_zero, hout i (by omega), Function.update_self, hbyte]
          exact getElem?_eq_getElem (by omega)
        | succ j =>
          have hrest := hin j (by omega)
          rwa [show offset + 1 + j = offset + (j + 1) by omega,
            show i + 1 + j = i + (j + 1) by omega] at hrest
      · intro j hj
        rw [hout j (by omega), Function.update_of_ne (by omega)]

end Reading

section Archive
variable {m : Mem} {initrd fuel : ℕ} {fs : List UstarMember} {n : List (BitVec 8)}

/-- What tar encodes is what the reader finds, for every archive and every name. -/
theorem initrd_decodes (h : Stored m initrd (ustarArchive fs)) (hn : 0 ∉ n) (hlen : n.length < 256)
    (hfuel : fs.length < fuel) :
    match fs.find? fun f => f.name = n with
    | none => initrdLookup m initrd fuel [] initrdRoot n = .ok (.error ENOENT)
    | some f => ∃ v, initrdLookup m initrd fuel [] initrdRoot n = .ok (.ok v) ∧ v.filename = n ∧
        v.size = f.content.length ∧
        v.type = (if f.typeFlag = 0 ∨ f.typeFlag = 0x30 then .reg
          else if f.typeFlag = 0x35 then .dir else .bad) ∧
        ∀ size buf offset, ∃ buf', initrdRead m v size buf offset =
            .ok (min size (f.content.length - offset), buf') ∧
          (∀ j < min size (f.content.length - offset), f.content[offset + j]? = some (buf' j)) ∧
          ∀ j, min size (f.content.length - offset) ≤ j → buf' j = buf j := by
  have hlookup : initrdLookup m initrd fuel [] initrdRoot n = initrdWalk m n fuel initrd := by
    exact if_neg (not_le.mpr hlen)
  rw [hlookup]
  have hwalk := initrdWalk_archive hn h hfuel
  split
  next hnone =>
    rw [hnone] at hwalk
    exact hwalk
  next f hsome =>
    rw [hsome] at hwalk
    obtain ⟨start, hcontent, hwalk⟩ := hwalk
    refine ⟨_, hwalk, rfl, rfl, rfl, fun size buf offset => ?_⟩
    obtain ⟨buf', hcall, hin, hout⟩ := initrdReadFrom_eq
      (v := ⟨n, tarType f.typeFlag, f.content.length, some start⟩) rfl rfl hcontent size 0 offset buf
    refine ⟨buf', by rwa [zero_add] at hcall, fun j hj => ?_, fun j hj => ?_⟩
    · have hbyte := hin j hj
      rwa [zero_add] at hbyte
    · exact hout j (.inr (by omega))

def toChars (s : List (BitVec 8)) : List Char := s.map fun b => Char.ofNat b.toNat

theorem toChars_injective : Function.Injective toChars := by
  have hchar (b : BitVec 8) : (Char.ofNat b.toNat).toNat = b.toNat := by
    rw [Char.ofNat, dif_pos (.inl (by omega))]
    rfl
  refine map_injective_iff.mpr fun b c h => BitVec.eq_of_toNat_eq ?_
  rw [← hchar b, ← hchar c, h]

/-- The member as the search of the vnode layer sees it. -/
def UstarMember.toTar (f : UstarMember) : TarMember :=
  ⟨toChars f.name, tarType f.typeFlag, f.content.length⟩

theorem initrdFind_eq_walk (h : Stored m initrd (ustarArchive fs)) (hn : 0 ∉ n)
    (hfuel : fs.length < fuel) {dir name : List Char} (hname : dir ++ name = toChars n) :
    initrdFind (fs.map toTar) dir name =
      match initrdWalk m n fuel initrd with
      | .ok (.ok v) => .found ⟨dir ++ name, v.type, v.size, initrdVnodeOps⟩
      | _ => .missing (some ENOENT) := by
  have hfind : (fs.map toTar).find? (fun f => f.filename = dir ++ name) =
      (fs.find? fun f => f.name = n).map toTar := by
    rw [find?_map]
    congr 2
    funext f
    simp [toTar, hname, toChars_injective.eq_iff]
  have hwalk := initrdWalk_archive hn h hfuel
  rw [initrdFind, hfind]
  cases hf : fs.find? (fun f => f.name = n) with
  | none =>
    rw [hf] at hwalk
    rw [show initrdWalk m n fuel initrd = _ from hwalk]
    rfl
  | some f =>
    rw [hf] at hwalk
    obtain ⟨start, -, hwalk⟩ := hwalk
    rw [hwalk]
    rfl

end Archive

def sampleFile : UstarMember where
  name := [0x61]
  typeFlag := 0x30
  content := [7]
  owner := Vector.replicate 24 0x30
  sizeEnd := 0x20
  stamp := Vector.replicate 20 0x30
  tail := Vector.replicate 355 0
  name_pos := by decide
  name_lt := by decide
  name_nul := by decide
  content_lt := by decide

def sampleArchive : List UstarMember :=
  [{ sampleFile with
      name := [0x64, 0x2f], typeFlag := 0x35, content := []
      name_pos := by decide, name_lt := by decide, name_nul := by decide, content_lt := by decide },
    sampleFile]

def memoryOf (bs : List (BitVec 8)) : Mem := fun a => bs.getD a 0

theorem stored_memoryOf {bs : List (BitVec 8)} (h : bs.length ≤ 2 ^ 64) :
    Stored (memoryOf bs) 0 bs := by
  intro i b hi
  have hlt : i < bs.length := (List.getElem?_eq_some_iff.mp hi).1
  rw [byteAt, zero_add, mod_eq_of_lt (by omega), memoryOf, getD_eq_getElem?_getD, hi,
    Option.getD_some]

/-- The file behind the directory is found and read. -/
theorem initrd_decodes_sample : ∃ v buf,
    initrdLookup (memoryOf (ustarArchive sampleArchive)) 0 3 [] initrdRoot [0x61] = .ok (.ok v) ∧
    v.size = 1 ∧ v.type = .reg ∧
    initrdRead (memoryOf (ustarArchive sampleArchive)) v 5 (fun _ => 0) 0 = .ok (1, buf) ∧
    buf 0 = 7 := by
  have hstored : Stored (memoryOf (ustarArchive sampleArchive)) 0 (ustarArchive sampleArchive) := by
    refine stored_memoryOf ?_
    simp only [ustarArchive, sampleArchive, flatMap_cons, flatMap_nil, append_nil,
      length_append, encode_length, length_replicate]
    norm_num [sampleFile]
  obtain ⟨v, hlookup, -, hsize, htype, hread⟩ :=
    initrd_decodes (n := [0x61]) hstored (by decide) (by decide)
      (show sampleArchive.length < 3 by decide)
  obtain ⟨buf, hcall, hin, -⟩ := hread 5 (fun _ => 0) 0
  exact ⟨v, buf, hlookup, hsize, htype, hcall, (Option.some.inj (hin 0 (by decide))).symm⟩

end GarnOS
