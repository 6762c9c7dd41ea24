import GarnOS.Mem.CharBuf

/-! `kvprintf` and the numerals it builds backwards in its work buffer. -/
namespace GarnOS.Kvprintf
open Function Outcome List Nat

def decimalDigit (r : ℕ) : Char := Char.ofNat (r + 48)

def hexDigit (r : ℕ) : Char :=
  if r < 0xA then Char.ofNat (48 + r) else Char.ofNat (65 + (r - 0xA))

/-- The loops that store the last digits of a number, the last one at `offset + n - 1`. -/
def storeDigits (base offset : ℕ) (digit : ℕ → Char) :
    ℕ → ℕ → CharBuf 256 → Except Fault (CharBuf 256)
  | 0, _, b => .ok b
  | n + 1, num, b => do
    storeDigits base offset digit n (num / base) (← b.write (offset + n) (digit (num % base)))

/-- The `do` loop over `unumCopy`. -/
def usize (num : ℕ) : ℕ := if num / 10 = 0 then 1 else usize (num / 10) + 1
decreasing_by omega

def xsize (num : ℕ) : ℕ :=
  if num > 0xFFFFFFFFFFFFFF then 8 * 2 - 1
  else if num > 0xFFFFFFFFFFFF then 7 * 2 - 1
  else if num > 0xFFFFFFFFFF then 6 * 2 - 1
  else if num > 0xFFFFFFFF then 5 * 2 - 1
  else if num > 0xFFFFFF then 4 * 2 - 1
  else if num > 0xFFFF then 3 * 2 - 1
  else if num > 0xFF then 2 * 2 - 1
  else 1 * 2 - 1

/-- `term_print` and `term_print_dbg` of the work buffer. -/
def printed (b : CharBuf 256) : Except Fault (List Char × CharBuf 256) := do
  return ((List.range (← b.strlen 0)).map b.data, b)

def signedDecimal (arg : BitVec 64) (b : CharBuf 256) : Except Fault (List Char × CharBuf 256) := do
  let dnum := arg.setWidth 32
  let disNegative := dnum.toInt < 0
  -- The negated int is not below zero, but for the least one, which is its own negation.
  let num := if disNegative then -dnum else dnum
  let b ← if disNegative then b.write 0 '-' else pure b
  let offset := if disNegative then 1 else 0
  let dsize := usize num.toInt.natAbs % 256
  let b ← if num.toInt < 0 then
      storeDigits 10 offset (fun r => Char.ofNat (48 - r)) dsize num.toInt.natAbs b
    else storeDigits 10 offset decimalDigit dsize num.toNat b
  printed (← b.write (offset + dsize) NUL)

def unsignedDecimal (arg : BitVec 64) (b : CharBuf 256) :
    Except Fault (List Char × CharBuf 256) := do
  let size := usize arg.toNat % 256
  let b ← storeDigits 10 0 decimalDigit size arg.toNat b
  printed (← b.write size NUL)

def hexNumber (arg : BitVec 64) (b : CharBuf 256) : Except Fault (List Char × CharBuf 256) := do
  let size := xsize arg.toNat
  let b ← storeDigits 16 0 hexDigit (size + 1) arg.toNat b
  printed (← b.write (size + 1) NUL)

/-- The text of one conversion, and how many arguments it takes. -/
def conversion (string : BitVec 64 → List Char) (arg : BitVec 64) (b : CharBuf 256) :
    Char → Except Fault ((List Char × CharBuf 256) × ℕ)
  | '%' => return ((['%'], b), 0)
  | 'd' => return (← signedDecimal arg b, 1)
  | 'u' => return (← unsignedDecimal arg b, 1)
  | 'c' => return (([Char.ofNat (arg.toNat % 256)], b), 1)
  | 's' => return ((string arg, b), 1)
  | 'x' | 'p' => return (← hexNumber arg b, 1)
  | _ => return (([], b), 0)

/-- The text that is printed, and the work buffer after it. `string` gives the characters behind a
pointer. -/
def kvprintf (string : BitVec 64 → List Char) :
    List Char → (ℕ → BitVec 64) → CharBuf 256 → Except Fault (List Char × CharBuf 256)
  | [], _, b | '%' :: [], _, b => .ok ([], b)
  | '%' :: c :: fmt, args, b => do
    let ((text, b), used) ← conversion string (args 0) b c
    let (rest, b) ← kvprintf string fmt (fun n => args (n + used)) b
    return (text ++ rest, b)
  | c :: fmt, args, b => do
    let (rest, b) ← kvprintf string fmt args b
    return (c :: rest, b)

def DIGITS : List Char := "0123456789ABCDEF".toList

/-- The value of a numeral. -/
def parse (base : ℕ) (text : List Char) : ℕ :=
  text.foldl (fun value c => value * base + DIGITS.idxOf c) 0

/-- The last `n` digits of a number. -/
def numeral (base : ℕ) (digit : ℕ → Char) : ℕ → ℕ → List Char
  | 0, _ => []
  | n + 1, num => numeral base digit n (num / base) ++ [digit (num % base)]

section Numerals
variable {base n num : ℕ} {digit : ℕ → Char}

/-- The digits of the base are printed as themselves. -/
def Prints (base : ℕ) (digit : ℕ → Char) : Prop :=
  ∀ r < base, digit r ∈ DIGITS.take base ∧ DIGITS.idxOf (digit r) = r

theorem prints_decimal : Prints 10 decimalDigit := by
  unfold Prints
  decide

theorem prints_hex : Prints 16 hexDigit := by
  unfold Prints
  decide

theorem length_numeral : (numeral base digit n num).length = n := by
  induction n generalizing num with
  | zero => rfl
  | succ n ih => simp [numeral, ih]

theorem mem_numeral (hbase : 0 < base) (hp : Prints base digit) :
    ∀ c ∈ numeral base digit n num, c ∈ DIGITS.take base := by
  induction n generalizing num with
  | zero => simp [numeral]
  | succ n ih =>
    intro c hc
    rcases mem_append.mp hc with hc | hc
    · exact ih c hc
    · rw [mem_singleton.mp hc]
      exact (hp _ (mod_lt _ hbase)).1

theorem parse_numeral (hbase : 0 < base) (hp : Prints base digit) (hnum : num < base ^ n) :
    parse base (numeral base digit n num) = num := by
  induction n generalizing num with
  | zero => simp_all [parse, numeral]
  | succ n ih =>
    have hdiv : num / base < base ^ n := Nat.div_lt_of_lt_mul (by rwa [pow_succ'] at hnum)
    rw [parse, numeral, foldl_append, ← parse, ih hdiv, foldl_cons, foldl_nil,
      (hp _ (mod_lt _ hbase)).2, div_add_mod']

theorem head_numeral : (numeral base digit (n + 1) num).head? =
    some (digit (num / base ^ n % base)) := by
  induction n generalizing num with
  | zero => simp [numeral]
  | succ n ih => rw [numeral, head?_append, ih, Nat.div_div_eq_div_mul, ← pow_succ']; rfl

theorem storeDigits_eq {offset : ℕ} (hn : offset + n ≤ 256) (b : CharBuf 256) :
    storeDigits base offset digit n num b = .ok ⟨fun x => if offset ≤ x ∧ x < offset + n then
      (numeral base digit n num).getD (x - offset) NUL else b.data x⟩ := by
  induction n generalizing num b with
  | zero =>
    have hnone : ∀ x, ¬(offset ≤ x ∧ x < offset + 0) := by omega
    simp only [hnone, if_false]
    rfl
  | succ n ih =>
    rw [storeDigits, CharBuf.write_eq (by omega), ok_bind, ih (by omega)]
    refine congrArg (fun data => Except.ok (CharBuf.mk data)) (funext fun x => ?_)
    dsimp only
    by_cases hin : offset ≤ x ∧ x < offset + n
    · rw [if_pos hin, if_pos (by omega), numeral, getD_append _ _ _ _ (by rw [length_numeral]; omega)]
    · rw [if_neg hin]
      by_cases hx : x = offset + n
      · simp [hx, numeral, length_numeral]
      · rw [update_of_ne hx, if_neg (by omega)]

theorem printed_numeral (hbase : 0 < base) (hp : Prints base digit) (num : ℕ) (hn : n < 256)
    (b : CharBuf 256) : ∃ b', (do printed (← (← storeDigits base 0 digit n num b).write n NUL)) =
      .ok (numeral base digit n num, b') := by
  rw [storeDigits_eq (by omega), ok_bind, CharBuf.write_eq hn, ok_bind]
  set w : CharBuf 256 := ⟨_⟩ with hw
  have hclean : NUL ∉ numeral base digit n num := by
    intro hmem
    have hdigit := mem_of_mem_take (mem_numeral hbase hp _ hmem)
    revert hdigit
    decide
  have hholds : w.Holds (numeral base digit n num) := by
    refine ⟨by rwa [length_numeral], hclean, fun i hi => ?_⟩
    rw [length_numeral] at hi
    rcases hi.lt_or_eq with hlt | rfl
    · simp [hw, update_of_ne hlt.ne, hlt]
    · simp [hw, length_numeral]
  have hlen := hholds.strlen (by decide) (zero_le _)
  rw [printed, hlen]
  exact ⟨w, congrArg (fun t => Except.ok (t, w)) (Terminated.Holds.map_range hholds)⟩

end Numerals

section Numbers

/-- By strong induction along the loop: the count is that of the digits. -/
theorem usize_spec (num : ℕ) :
    ∃ n, usize num = n + 1 ∧ num < 10 ^ (n + 1) ∧ (n = 0 ∨ 10 ^ n ≤ num) := by
  fun_induction usize num with
  | case1 num hlast => exact ⟨0, rfl, by omega, .inl rfl⟩
  | case2 num hmore ih =>
    obtain ⟨n, hn, hlt, hle⟩ := ih
    refine ⟨n + 1, by rw [hn], by rw [pow_succ]; omega, .inr ?_⟩
    rcases hle with rfl | hle
    · omega
    · rw [pow_succ]
      omega

/-- Two digits a byte, and no byte too many. -/
theorem xsize_spec (v : BitVec 64) : ∃ k ≤ 7, xsize v.toNat + 1 = 2 * (k + 1) ∧
    v.toNat < 16 ^ (2 * (k + 1)) ∧ (k = 0 ∨ 256 ^ k ≤ v.toNat) := by
  unfold xsize
  split_ifs
  · exact ⟨7, by decide, rfl, by omega, .inr (by omega)⟩
  · exact ⟨6, by decide, rfl, by omega, .inr (by omega)⟩
  · exact ⟨5, by decide, rfl, by omega, .inr (by omega)⟩
  · exact ⟨4, by decide, rfl, by omega, .inr (by omega)⟩
  · exact ⟨3, by decide, rfl, by omega, .inr (by omega)⟩
  · exact ⟨2, by decide, rfl, by omega, .inr (by omega)⟩
  · exact ⟨1, by decide, rfl, by omega, .inr (by omega)⟩
  · exact ⟨0, by decide, rfl, by omega, .inl rfl⟩

end Numbers

section Returns
variable {string : BitVec 64 → List Char} {n : ℕ}

theorem printed_returns {i : ℕ} (hi : i < 256) (b : CharBuf 256) :
    Post (do printed (← b.write i NUL)) (fun _ => True) (fun _ => False) := by
  rw [CharBuf.write_eq hi, ok_bind]
  obtain ⟨s, hs⟩ := Terminated.exists_holds hi (update_self i NUL b.data)
  have hlen := CharBuf.Holds.strlen (b := ⟨update b.data i NUL⟩) hs (by decide) (zero_le _)
  rw [printed, hlen]
  exact post_ok.mpr trivial

theorem signedDecimal_returns (arg : BitVec 64) (b : CharBuf 256) :
    Post (signedDecimal arg b) (fun _ => True) (fun _ => False) := by
  unfold signedDecimal
  generalize arg.setWidth 32 = dnum
  dsimp only
  generalize (if dnum.toInt < 0 then -dnum else dnum) = num
  have hsmall : usize num.toInt.natAbs % 256 + 1 < 256 := by
    obtain ⟨n, hn, -, hle⟩ := usize_spec num.toInt.natAbs
    have hlt := num.toInt_lt
    have hge := num.le_toInt
    have hshort : n < 11 := by
      by_contra hlong
      have hpow : 10 ^ 11 ≤ 10 ^ n := Nat.pow_le_pow_right (by decide) (by omega)
      omega
    omega
  have hdigits : ∀ offset ≤ 1, ∀ digit m b, Post (do
      let b ← storeDigits 10 offset digit (usize num.toInt.natAbs % 256) m b
      printed (← b.write (offset + usize num.toInt.natAbs % 256) NUL)) (fun _ => True)
      (fun _ => False) := by
    intro offset hoffset digit m b
    rw [storeDigits_eq (by omega), ok_bind]
    exact printed_returns (by omega) _
  split
  · rw [CharBuf.write_eq (by decide), ok_bind]
    split <;> exact hdigits 1 le_rfl ..
  · rw [pure_bind]
    split <;> exact hdigits 0 (zero_le 1) ..

end Returns

section Calls
variable (string : BitVec 64 → List Char) (v : BitVec 64) {c : Char} {n : ℕ} {pre : List Char}

/-- The number of arguments that a conversion takes. -/
def takes (c : Char) : ℕ := if c ∈ ['d', 'u', 'c', 's', 'x', 'p'] then 1 else 0

/-- A part of a format that ends between two conversions, and the number of its arguments. -/
inductive Before : List Char → ℕ → Prop
  | nil : Before [] 0
  | char {pre : List Char} {n : ℕ} (c : Char) (hc : c ≠ '%') (h : Before pre n) : Before (c :: pre) n
  | conversion {pre : List Char} {n : ℕ} (c : Char) (h : Before pre n) :
      Before ('%' :: c :: pre) (n + takes c)

/-- For a conversion `c` of `v` the text is printed, wherever it stands in the format: after what the
part in front of it prints, and before what the rest prints. -/
def Emits (c : Char) (text : List Char) : Prop :=
  ∀ pre n post args b, Before pre n → args n = v → ∃ t b₁ b₂ r b₃,
    kvprintf string pre args b = .ok (t, b₁) ∧
    kvprintf string post (fun i => args (i + n + 1)) b₂ = .ok (r, b₃) ∧
    kvprintf string (pre ++ '%' :: c :: post) args b = .ok (t ++ text ++ r, b₃)

/-- The text is a numeral of `v`. -/
def Reads (base : ℕ) (text : List Char) : Prop :=
  (∀ c ∈ text, c ∈ DIGITS.take base) ∧ parse base text = v.toNat

theorem unsignedDecimal_ok : ∃ text, (∀ b, ∃ b', unsignedDecimal v b = .ok (text, b')) ∧
    Reads v 10 text ∧ text ≠ [] ∧ (text.head? = some '0' → text = ['0']) := by
  obtain ⟨n, hn, hlt, hle⟩ := usize_spec v.toNat
  have hsmall : n < 20 := by
    by_contra hlong
    have hpow : 10 ^ 20 ≤ 10 ^ n := Nat.pow_le_pow_right (by decide) (by omega)
    have := v.isLt
    omega
  have hmod : usize v.toNat % 256 = n + 1 := by omega
  refine ⟨_, fun b => ?_, ⟨mem_numeral (by decide) prints_decimal,
    parse_numeral (by decide) prints_decimal hlt⟩, by simp [numeral], fun hzero => ?_⟩
  · rw [unsignedDecimal, hmod]
    exact printed_numeral (by decide) prints_decimal v.toNat (by omega) b
  · rw [head_numeral, Option.some_inj] at hzero
    have hfirst := (prints_decimal _ (mod_lt (v.toNat / 10 ^ n) (by decide))).2
    rw [hzero, show DIGITS.idxOf '0' = 0 from rfl] at hfirst
    have hdigit : v.toNat / 10 ^ n < 10 := Nat.div_lt_of_lt_mul (by rwa [pow_succ] at hlt)
    rcases hle with rfl | hle
    · simpa [numeral] using hzero
    · have := div_pos hle (by positivity)
      omega

theorem hexNumber_ok : ∃ text, (∀ b, ∃ b', hexNumber v b = .ok (text, b')) ∧
    Reads v 16 text ∧ ∃ k, text.length = 2 * (k + 1) ∧ (k = 0 ∨ 256 ^ k ≤ v.toNat) := by
  obtain ⟨k, hk, hsize, hlt, hle⟩ := xsize_spec v
  refine ⟨_, fun b => ?_, ⟨mem_numeral (by decide) prints_hex,
    parse_numeral (by decide) prints_hex hlt⟩, k, length_numeral, hle⟩
  rw [hexNumber, hsize]
  exact printed_numeral (by decide) prints_hex v.toNat (by omega) b

theorem conversion_returns (c : Char) (b : CharBuf 256) :
    ∃ text b', conversion string v b c = .ok ((text, b'), takes c) := by
  have hhex : ∃ text b', (do return (← hexNumber v b, 1)) = Except.ok ((text, b'), 1) := by
    obtain ⟨text, hok, -⟩ := hexNumber_ok v
    obtain ⟨b', hb⟩ := hok b
    exact ⟨_, _, by rw [hb]; rfl⟩
  unfold conversion
  split
  next => exact ⟨_, b, rfl⟩
  next =>
    obtain ⟨r, hr, -⟩ := (signedDecimal_returns v b).returns
    exact ⟨_, _, by rw [hr]; rfl⟩
  next =>
    obtain ⟨text, hok, -⟩ := unsignedDecimal_ok v
    obtain ⟨b', hb⟩ := hok b
    exact ⟨_, _, by rw [hb]; rfl⟩
  next => exact ⟨_, b, rfl⟩
  next => exact ⟨_, b, rfl⟩
  next => exact hhex
  next => exact hhex
  next =>
    refine ⟨[], b, ?_⟩
    rw [takes, if_neg (by simp_all)]
    rfl

/-- The formats up to a lone percent sign at the end are those in front of something. -/
theorem exists_before :
    ∀ fmt : List Char, ∃ pre n, Before pre n ∧ (fmt = pre ∨ fmt = pre ++ ['%'])
  | [] => ⟨[], 0, .nil, .inl rfl⟩
  | c :: d :: fmt => by
    by_cases hc : c = '%'
    · obtain ⟨pre, n, hpre, hfmt⟩ := exists_before fmt
      exact ⟨_, _, .conversion d hpre, by simpa [hc] using hfmt⟩
    · obtain ⟨pre, n, hpre, hfmt⟩ := exists_before (d :: fmt)
      exact ⟨_, _, .char c hc hpre, by simpa using hfmt⟩
  | [c] => by
    by_cases hc : c = '%'
    · exact ⟨[], 0, .nil, .inr (by rw [hc]; rfl)⟩
    · exact ⟨[c], 0, .char c hc .nil, .inl rfl⟩

theorem kvprintf_append (h : Before pre n) (args : ℕ → BitVec 64) (b : CharBuf 256) :
    ∃ t b₁, kvprintf string pre args b = .ok (t, b₁) ∧
      ∀ fmt, kvprintf string (pre ++ fmt) args b = (do
        let (r, b) ← kvprintf string fmt (fun i => args (i + n)) b₁
        return (t ++ r, b)) := by
  suffices hall : ∃ t b₁, ∀ fmt, kvprintf string (pre ++ fmt) args b = (do
      let (r, b) ← kvprintf string fmt (fun i => args (i + n)) b₁
      return (t ++ r, b)) by
    obtain ⟨t, b₁, ht⟩ := hall
    have hpre := ht []
    rw [append_nil, kvprintf, ok_bind] at hpre
    dsimp only at hpre
    rw [append_nil] at hpre
    exact ⟨t, b₁, hpre, ht⟩
  induction h generalizing args b with
  | nil => exact ⟨[], b, fun fmt => (bind_pure _).symm⟩
  | char c hc _ ih =>
    obtain ⟨t, b₁, ht⟩ := ih args b
    refine ⟨c :: t, b₁, fun fmt => ?_⟩
    simp [kvprintf, hc, ht]
  | conversion c _ ih =>
    obtain ⟨text, b', htext⟩ := conversion_returns string (args 0) c b
    obtain ⟨t, b₁, ht⟩ := ih (fun i => args (i + takes c)) b'
    refine ⟨text ++ t, b₁, fun fmt => ?_⟩
    simp [kvprintf, htext, ht, Nat.add_assoc]

theorem kvprintf_returns (fmt : List Char) (args : ℕ → BitVec 64) (b : CharBuf 256) :
    ∃ text b', kvprintf string fmt args b = .ok (text, b') := by
  obtain ⟨pre, n, hpre, rfl | rfl⟩ := exists_before fmt
  all_goals obtain ⟨t, b₁, ht, hrest⟩ := kvprintf_append string hpre args b
  · exact ⟨t, b₁, ht⟩
  · exact ⟨_, _, hrest ['%']⟩

variable {string} {v} {text : List Char}

theorem emits_of_conversion
    (hconv : ∀ b, ∃ b', conversion string v b c = .ok ((text, b'), 1)) : Emits string v c text := by
  intro pre n post args b hpre hv
  obtain ⟨t, b₁, ht, hwhole⟩ := kvprintf_append string hpre args b
  obtain ⟨b₂, hb₂⟩ := hconv b₁
  obtain ⟨r, b₃, hr⟩ := kvprintf_returns string post (fun i => args (i + n + 1)) b₂
  refine ⟨t, b₁, b₂, r, b₃, ht, hr, ?_⟩
  have hrest : (fun i => args (i + 1 + n)) = fun i => args (i + n + 1) := by
    funext i
    rw [Nat.add_right_comm]
  rw [hwhole, kvprintf, zero_add, hv, hb₂, ok_bind]
  dsimp only
  rw [hrest, hr]
  simp

theorem Emits.conversion (h : Emits string v c text) (b : CharBuf 256) :
    ∃ b' used, conversion string v b c = .ok ((text, b'), used) := by
  obtain ⟨t, b₁, b₂, r, b₃, ht, hr, hcall⟩ := h [] 0 [] (fun _ => v) b .nil rfl
  cases ht
  cases hr
  obtain ⟨⟨⟨text', b'⟩, used⟩, hconv, hret⟩ := bind_eq_ok.mp hcall
  obtain ⟨hret, -⟩ := Prod.mk.inj (Except.ok.inj hret)
  have htext : text' = text := by simpa using hret
  exact ⟨b', used, htext ▸ hconv⟩

theorem emits_decimal (v : BitVec 64) : ∃ text, Emits string v 'u' text ∧ Reads v 10 text ∧
    text ≠ [] ∧ (text.head? = some '0' → text = ['0']) := by
  obtain ⟨text, hok, hreads⟩ := unsignedDecimal_ok v
  refine ⟨text, emits_of_conversion fun b => ?_, hreads⟩
  obtain ⟨b', hb⟩ := hok b
  exact ⟨b', by rw [Kvprintf.conversion, hb]; rfl⟩

theorem emits_hex (v : BitVec 64) (hc : c = 'x' ∨ c = 'p') : ∃ text, Emits string v c text ∧
    Reads v 16 text ∧ ∃ k, text.length = 2 * (k + 1) ∧ (k = 0 ∨ 256 ^ k ≤ v.toNat) := by
  obtain ⟨text, hok, hreads⟩ := hexNumber_ok v
  refine ⟨text, emits_of_conversion fun b => ?_, hreads⟩
  obtain ⟨b', hb⟩ := hok b
  rcases hc with rfl | rfl <;> exact ⟨b', by rw [Kvprintf.conversion, hb]; rfl⟩

/-- `%u` prints the canonical decimal numeral, `%x` and `%p` print two digits for each byte that
the value needs, all within the work buffer, and the text determines the value. -/
theorem kvprintf_lossless (string : BitVec 64 → List Char) (v : BitVec 64) :
    (∃ text, Emits string v 'u' text ∧ Reads v 10 text ∧ text ≠ [] ∧
      (text.head? = some '0' → text = ['0'])) ∧
    (∀ c, c = 'x' ∨ c = 'p' → ∃ text, Emits string v c text ∧ Reads v 16 text ∧
      ∃ k, text.length = 2 * (k + 1) ∧ (k = 0 ∨ 256 ^ k ≤ v.toNat)) ∧
    ∀ c, c = 'u' ∨ c = 'x' ∨ c = 'p' → ∀ v' text, Emits string v c text →
      Emits string v' c text → v = v' := by
  refine ⟨emits_decimal v, fun c hc => emits_hex v hc, fun c hc => ?_⟩
  obtain ⟨base, hread⟩ : ∃ base, ∀ v, ∃ text, Emits string v c text ∧ Reads v base text := by
    rcases hc with rfl | hc
    · refine ⟨10, fun v => ?_⟩
      obtain ⟨text, hemits, hreads, -⟩ := emits_decimal v
      exact ⟨text, hemits, hreads⟩
    · refine ⟨16, fun v => ?_⟩
      obtain ⟨text, hemits, hreads, -⟩ := emits_hex v hc
      exact ⟨text, hemits, hreads⟩
  have hvalue : ∀ v text, Emits string v c text → parse base text = v.toNat := by
    intro v text h
    obtain ⟨text', h', hreads⟩ := hread v
    obtain ⟨b₁, n₁, h₁⟩ := h.conversion ⟨fun _ => NUL⟩
    obtain ⟨b₂, n₂, h₂⟩ := h'.conversion ⟨fun _ => NUL⟩
    cases h₁.symm.trans h₂
    exact hreads.2
  intro v' text h h'
  exact BitVec.eq_of_toNat_eq ((hvalue v text h).symm.trans (hvalue v' text h'))

end Calls
end GarnOS.Kvprintf
