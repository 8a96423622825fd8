/- RxdOs/Libk/Itoa
   source: lib/printf.c (chr_class_table, atoi, __itoa)
   digest: The numeral of an int in a buffer, and an int read back from its decimal numeral. -/

import Mathlib.Data.Nat.Digits.Lemmas
import RxdOs.Base.Assert
import RxdOs.Base.Int32
import RxdOs.Libk.Str

set_option autoImplicit false
set_option relaxedAutoImplicit false

namespace RxdOs.Libk.Itoa

open RxdOs.Base.Assert RxdOs.Base.Int32 RxdOs.Lib.BlockCopy RxdOs.Libk.Str

/-! ## Character classes -/

def clsSpace : Nat := 4
def clsLower : Nat := 16
def clsDigit : Nat := 64

/-- Entries 0 to 127 of chr_class_table; all later ones are zero. -/
def chrClassTable : List Nat :=
  [0x1, 0x1, 0x1, 0x1, 0x1, 0x1, 0x1, 0x1, 0x1, 0x7, 0x5, 0x5, 0x5, 0x5, 0x1, 0x1] ++
  List.replicate 16 0x1 ++
  0x806 :: List.replicate 15 0xe00 ++
  List.replicate 10 0xdc0 ++ List.replicate 7 0xe00 ++
  List.replicate 6 0xda8 ++ List.replicate 20 0xd28 ++ List.replicate 6 0xe00 ++
  List.replicate 6 0xdb0 ++ List.replicate 20 0xd30 ++ List.replicate 4 0xe00 ++ [0x1]

/-- DEF_ISXXX -/
def isClass (cls : Nat) (c : UInt8) : Bool := chrClassTable.getD c.toNat 0 &&& cls ≠ 0

def isspace : UInt8 → Bool := isClass clsSpace
def islower : UInt8 → Bool := isClass clsLower
def isdigit : UInt8 → Bool := isClass clsDigit

def toupper (c : UInt8) : UInt8 := if islower c then c - 97 + 65 else c

/-! ## atoi -/

def plus : UInt8 := 43
def minus : UInt8 := 45
def zero : UInt8 := 48

/-- `do { value *= 10; value += (*p - '0'); ++p; } while (isdigit(*p));` -/
def atoiLoop (value : Int) : List UInt8 → Int
  | [] => value
  | c :: p =>
    if isdigit c then atoiLoop (wrap (wrap (value * 10) + (c.toNat - 48))) p else value

/-- From the sign on. -/
def atoiSign (p : List UInt8) : Int :=
  let negative := p.head? = some minus
  let p := if p.head? = some plus ∨ p.head? = some minus then p.tail else p
  let value := atoiLoop 0 p
  if negative ∧ value ≠ -2 ^ 31 then wrap (-value) else value

/-- atoi; the list is the string without its NUL. -/
def atoi (str : List UInt8) : Int := atoiSign (str.dropWhile isspace)

/-! ## __itoa -/

/-- `*p = (*p < 10) ? (*p + '0') : (*p - 10 + 'a');` -/
def digitChar (d : Nat) : UInt8 := UInt8.ofNat (if d < 10 then d + 48 else d - 10 + 97)

/-- `while (uvalue)`; uvalue is below 2^32, so 32 rounds are enough. -/
def digitLoop (base : Nat) : Nat → Nat → Memory → Nat → Memory × Nat
  | 0, _, mem, p => (mem, p)
  | rounds + 1, uvalue, mem, p =>
    if uvalue ≠ 0 then
      digitLoop base rounds (uvalue / base) (Function.update mem p (digitChar (uvalue % base)))
        (p + 1)
    else (mem, p)

/-- `while (p > tmp)`, swapping the two ends. -/
def reverseLoop : Nat → Memory → Nat → Nat → Memory
  | 0, mem, _, _ => mem
  | rounds + 1, mem, tmp, p =>
    if p > tmp then
      reverseLoop rounds (Function.update (Function.update mem p (mem tmp)) tmp (mem p))
        (tmp + 1) (p - 1)
    else mem

/-- From `convert` on: digits at `p`, a NUL, and the digits reversed behind the sign. -/
def convert (uvalue base : Nat) (mem : Memory) (str p : Nat) : Memory :=
  let (mem, p) :=
    if uvalue = 0 then (Function.update mem p zero, p + 1) else digitLoop base 32 uvalue mem p
  let mem := Function.update mem p 0
  let p := p - 1
  let tmp := if mem str = minus then str + 1 else str
  reverseLoop (p - tmp) mem tmp p

/-- `"-2147483648"` -/
def strIntMin : Text :=
  ⟨[45, 50, 49, 52, 55, 52, 56, 51, 54, 52, 56], List.forall_iff_forall_mem.mp (by decide)⟩

/-- __itoa; it returns `str`. -/
def itoa (value : Int32) (mem : Memory) (str base : Nat) : Kernel Memory :=
  if value.toInt < 0 ∧ base = 10 then
    if value.toInt = -2 ^ 31 then strcpy mem str strIntMin
    else
      pure (convert (toU32 (-value.toInt)).toNat base (Function.update mem str minus) str (str + 1))
  else pure (convert (toU32 value.toInt).toNat base mem str str)

/-! ## Numerals -/

/-- The digits of a number, most significant first, without leading zeros. -/
def digitsOf (base n : Nat) : List Nat := if n = 0 then [0] else (Nat.digits base n).reverse

/-- The canonical numeral: signed in base 10, of the unsigned value in other bases. -/
def numeral (value : Int32) (base : Nat) : List UInt8 :=
  if value.toInt < 0 ∧ base = 10 then
    minus :: (digitsOf base (-value.toInt).toNat).map digitChar
  else (digitsOf base (toU32 value.toInt).toNat).map digitChar

/-! ## Digits -/

section Digits

variable {base n d : Nat} {mem : Memory} {p : Nat}

theorem digitChar_toNat (hd : d < 16) :
    (digitChar d).toNat = if d < 10 then d + 48 else d + 87 := by
  rw [digitChar, UInt8.toNat_ofNat']
  split_ifs <;> omega

theorem digitChar_inj {d' : Nat} (hd : d < 16) (hd' : d' < 16) (h : digitChar d = digitChar d') :
    d = d' := by
  have hnat := congrArg UInt8.toNat h
  rw [digitChar_toNat hd, digitChar_toNat hd'] at hnat
  split_ifs at hnat <;> omega

theorem map_digitChar_inj {l l' : List Nat} (hl : ∀ d ∈ l, d < 16) (hl' : ∀ d ∈ l', d < 16)
    (h : l.map digitChar = l'.map digitChar) : l = l' := by
  induction l generalizing l' with
  | nil => exact (List.map_eq_nil_iff.mp h.symm).symm
  | cons d l ih =>
    cases l' with
    | nil => cases h
    | cons d' l' =>
      obtain ⟨hd, hrest⟩ := List.cons.inj h
      obtain ⟨hlt, hl⟩ := List.forall_mem_cons.mp hl
      obtain ⟨hlt', hl'⟩ := List.forall_mem_cons.mp hl'
      rw [digitChar_inj hlt hlt' hd, ih hl hl' hrest]

theorem digitChar_ne (hd : d < 16) : digitChar d ≠ 0 ∧ digitChar d ≠ minus ∧ digitChar d ≠ plus := by
  have hnat := digitChar_toNat hd
  have hne : ∀ c : UInt8, c.toNat < 48 → digitChar d ≠ c := by
    intro c hc heq
    rw [heq] at hnat
    split_ifs at hnat <;> omega
  exact ⟨hne 0 (by decide), hne minus (by decide), hne plus (by decide)⟩

theorem digitChar_class : ∀ d < 10, isdigit (digitChar d) = true ∧ isspace (digitChar d) = false := by
  decide

theorem digitsOf_ne_nil (base n : Nat) : digitsOf base n ≠ [] := by
  unfold digitsOf
  split_ifs with hn
  · exact List.cons_ne_nil _ _
  · rw [ne_eq, List.reverse_eq_nil_iff]
    exact Nat.digits_ne_nil_iff_ne_zero.mpr hn

theorem digitsOf_lt (hbase : 1 < base) : ∀ d ∈ digitsOf base n, d < base := by
  unfold digitsOf
  split_ifs with hn
  · intro d hd
    rw [List.mem_singleton.mp hd]
    omega
  · intro d hd
    exact Nat.digits_lt_base hbase (List.mem_reverse.mp hd)

theorem ofDigits_digitsOf (base n : Nat) : Nat.ofDigits base (digitsOf base n).reverse = n := by
  unfold digitsOf
  split_ifs with hn
  · rw [hn]
    rfl
  · rw [List.reverse_reverse, Nat.ofDigits_digits]

/-- Only zero begins with a zero. -/
theorem digitsOf_head (h : (digitsOf base n).head? = some 0) : digitsOf base n = [0] := by
  unfold digitsOf at h ⊢
  split_ifs at h ⊢ with hn
  · rfl
  · have hne : Nat.digits base n ≠ [] := Nat.digits_ne_nil_iff_ne_zero.mpr hn
    rw [List.head?_reverse, List.getLast?_eq_some_getLast hne, Option.some.injEq] at h
    exact absurd h (Nat.getLast_digit_ne_zero base hn)

/-- The digits of a number, least significant first, appear at `p`. -/
theorem digitLoop_eq (hbase : 1 < base) {rounds : Nat} (hn : n < base ^ rounds) :
    digitLoop base rounds n mem p =
      (stored mem p ((Nat.digits base n).map digitChar), p + (Nat.digits base n).length) := by
  induction rounds generalizing n mem p with
  | zero =>
    obtain rfl : n = 0 := by simpa using hn
    rw [digitLoop, Nat.digits_zero, List.map_nil, stored_nil]
    rfl
  | succ rounds ih =>
    rw [digitLoop]
    by_cases hzero : n = 0
    · rw [if_neg (not_not.mpr hzero), hzero, Nat.digits_zero, List.map_nil, stored_nil]
      rfl
    · have hquot : n / base < base ^ rounds := by
        rw [Nat.div_lt_iff_lt_mul (by omega), ← pow_succ]
        exact hn
      rw [if_pos hzero, ih hquot, stored_first, Nat.digits_def' hbase (Nat.pos_of_ne_zero hzero),
        List.map_cons, List.length_cons]
      congr 1
      omega

/-- The loop turns the cells from `tmp` to `p` around. -/
theorem reverseLoop_apply {rounds tmp q : Nat} (hrounds : p - tmp ≤ rounds) :
    reverseLoop rounds mem tmp p q = if tmp ≤ q ∧ q ≤ p then mem (tmp + p - q) else mem q := by
  induction rounds generalizing mem tmp p with
  | zero =>
    rw [reverseLoop]
    split_ifs with hq
    · rw [show tmp + p - q = q by omega]
    · rfl
  | succ rounds ih =>
    rw [reverseLoop]
    by_cases hgo : p > tmp
    · rw [if_pos hgo, ih (by omega)]
      by_cases hlow : q = tmp
      · rw [hlow, if_neg (by omega), if_pos (by omega), Function.update_self,
          Nat.add_sub_cancel_left]
      · by_cases hhigh : q = p
        · rw [hhigh, if_neg (by omega), if_pos (by omega), Function.update_of_ne (by omega),
            Function.update_self, Nat.add_sub_cancel]
        · by_cases hin : tmp ≤ q ∧ q ≤ p
          · have hsum : tmp + 1 + (p - 1) - q = tmp + p - q := by omega
            rw [if_pos (by omega), if_pos hin, hsum, Function.update_of_ne (by omega),
              Function.update_of_ne (by omega)]
          · rw [if_neg (by omega), if_neg hin, Function.update_of_ne hlow,
              Function.update_of_ne hhigh]
    · rw [if_neg hgo]
      split_ifs with hq
      · rw [show tmp + p - q = q by omega]
      · rfl

/-- A stored list is turned around in its place. -/
theorem reverseLoop_stored {l : List UInt8} (hl : l ≠ []) (rest : List UInt8) :
    reverseLoop (p + l.length - 1 - p) (stored mem p (l ++ rest)) p (p + l.length - 1) =
      stored mem p (l.reverse ++ rest) := by
  have hpos : 0 < l.length := List.length_pos_of_ne_nil hl
  ext q
  rw [reverseLoop_apply le_rfl]
  by_cases hlow : q < p
  · rw [if_neg (by omega), stored_outside (.inl hlow), stored_outside (.inl hlow)]
  · obtain ⟨i, rfl⟩ := Nat.exists_eq_add_of_le (not_lt.mp hlow)
    by_cases hi : i < l.length
    · have hmirror : p + (p + l.length - 1) - (p + i) = p + (l.length - 1 - i) := by omega
      rw [if_pos (by omega), hmirror, stored_inside (by rw [List.length_append]; omega),
        stored_inside (by rw [List.length_append, List.length_reverse]; omega),
        List.getElem_append_left (by omega), List.getElem_append_left (by simpa using hi),
        List.getElem_reverse]
    · rw [if_neg (by omega)]
      by_cases hrest : i < (l ++ rest).length
      · rw [stored_inside hrest, stored_inside (by simpa using hrest),
          List.getElem_append_right (by omega),
          List.getElem_append_right (by rw [List.length_reverse]; omega)]
        simp only [List.length_reverse]
      · rw [stored_outside (.inr (by omega)), stored_outside (.inr (by simp at hrest ⊢; omega))]

end Digits

/-! ## What __itoa writes -/

section Writes

variable {base n : Nat} {mem : Memory} {str p : Nat}

/-- The digits before they are turned around. -/
theorem convert_digits (hbase : 1 < base) (hn : n < 2 ^ 32) :
    (if n = 0 then (Function.update mem p zero, p + 1) else digitLoop base 32 n mem p) =
      (stored mem p ((digitsOf base n).map digitChar).reverse, p + (digitsOf base n).length) := by
  unfold digitsOf
  split_ifs with hzero
  · rw [show ([0] : List Nat).map digitChar = [zero] from rfl, List.reverse_singleton,
      stored_single]
    rfl
  · have hpow : n < base ^ 32 := hn.trans_le (Nat.pow_le_pow_left hbase 32)
    rw [digitLoop_eq hbase hpow, ← List.map_reverse, List.reverse_reverse, List.length_reverse]

/-- Behind the sign, if there is one, the digits and a NUL. -/
theorem convert_eq (hbase : 1 < base ∧ base ≤ 16) (hn : n < 2 ^ 32)
    (hp : p = str ∨ p = str + 1 ∧ mem str = minus) :
    convert n base mem str p = stored mem p ((digitsOf base n).map digitChar ++ [0]) := by
  have hne : ((digitsOf base n).map digitChar).reverse ≠ [] := by
    simpa using digitsOf_ne_nil base n
  have hlen : ((digitsOf base n).map digitChar).reverse.length = (digitsOf base n).length := by
    simp
  have hpos : 0 < ((digitsOf base n).map digitChar).reverse.length := List.length_pos_of_ne_nil hne
  rw [convert, convert_digits hbase.1 hn]
  generalize hl : ((digitsOf base n).map digitChar).reverse = l at hne hlen hpos
  have hfirst : (if Function.update (stored mem p l) (p + l.length) 0 str = minus
      then str + 1 else str) = p := by
    rcases hp with rfl | ⟨rfl, hminus⟩
    · have hchar : l[0] ≠ minus := by
        have hmem : l[0] ∈ ((digitsOf base n).map digitChar).reverse := hl ▸ List.getElem_mem hpos
        obtain ⟨d, hd, heq⟩ := List.mem_map.mp (List.mem_reverse.mp hmem)
        have hlt := digitsOf_lt hbase.1 d hd
        rw [← heq]
        exact (digitChar_ne (by omega)).2.1
      have hcell : stored mem p l p = l[0] := stored_inside (i := 0) hpos
      rw [Function.update_of_ne (by omega), hcell, if_neg hchar]
    · rw [Function.update_of_ne (by omega), stored_outside (.inl (Nat.lt_succ_self str)),
        if_pos hminus]
  have hend : Function.update (stored mem p l) (p + l.length) 0 = stored mem p (l ++ [0]) := by
    rw [← stored_single, stored_append]
  rw [hend] at hfirst
  simp only [← hlen, hend, hfirst]
  rw [reverseLoop_stored hne, ← hl, List.reverse_reverse]

theorem toU32_toNat_lt (x : Int) : (toU32 x).toNat < 2 ^ 32 := by
  rw [toU32]
  omega

/-- __itoa leaves the numeral and its NUL, and nothing else. -/
theorem itoa_eq (value : Int32) (mem : Memory) (hstr : str ≠ 0) (hbase : 1 < base ∧ base ≤ 16) :
    itoa value mem str base = .ok (stored mem str (numeral value base ++ [0])) := by
  have hlo := value.le_toInt
  have hhi := value.toInt_lt
  unfold itoa numeral
  split_ifs with hneg hmin
  · rw [strcpy_eq mem hstr, hneg.2, hmin]
    rfl
  · have habs : toU32 (-value.toInt) = -value.toInt := toU32_of_range (by omega) (by omega)
    rw [convert_eq hbase (toU32_toNat_lt _) (.inr ⟨rfl, Function.update_self ..⟩), habs,
      stored_first, List.cons_append, pure_eq_ok]
  · rw [convert_eq hbase (toU32_toNat_lt _) (.inl rfl), pure_eq_ok]

theorem numeral_noNul (value : Int32) (hbase : 1 < base ∧ base ≤ 16) :
    ∀ c ∈ numeral value base, c ≠ 0 := by
  have hdigits : ∀ n, ∀ c ∈ (digitsOf base n).map digitChar, c ≠ 0 := by
    intro n c hc
    obtain ⟨d, hd, rfl⟩ := List.mem_map.mp hc
    have hlt := digitsOf_lt hbase.1 d hd
    exact (digitChar_ne (by omega)).1
  unfold numeral
  split_ifs
  · exact List.forall_mem_cons.mpr ⟨by decide, hdigits _⟩
  · exact hdigits _

end Writes

/-! ## What atoi reads -/

section Reads

theorem wrap_step (v d : Int) : wrap (wrap (wrap v * 10) + d) = wrap (v * 10 + d) := by
  simp only [wrap]
  omega

/-- The loop adds up the digits, wrapping around as it goes. -/
theorem atoiLoop_digits {l : List Nat} (hl : ∀ d ∈ l, d < 10) (v : Int) :
    atoiLoop (wrap v) (l.map digitChar) = wrap (l.foldl (fun (a : Int) (d : Nat) => a * 10 + d) v) := by
  induction l generalizing v with
  | nil => rfl
  | cons d l ih =>
    have hd : d < 10 := hl d (List.mem_cons_self ..)
    have hchar : ((digitChar d).toNat : Int) - 48 = d := by
      rw [digitChar_toNat (by omega), if_pos hd]
      omega
    rw [List.map_cons, atoiLoop, if_pos (digitChar_class d hd).1, hchar, wrap_step, List.foldl_cons,
      ih fun d' hd' => hl d' (List.mem_cons_of_mem d hd')]

theorem foldl_digits (l : List Nat) :
    l.foldl (fun (a : Int) (d : Nat) => a * 10 + d) 0 = (Nat.ofDigits 10 l.reverse : Nat) := by
  induction l using List.reverseRecOn with
  | nil => rfl
  | append_singleton l d ih =>
    rw [List.foldl_append, List.foldl_cons, List.foldl_nil, ih, List.reverse_append,
      List.reverse_singleton, List.singleton_append, Nat.ofDigits_cons]
    push_cast
    ring

theorem atoiLoop_digitsOf (n : Nat) : atoiLoop 0 ((digitsOf 10 n).map digitChar) = wrap n := by
  have hloop := atoiLoop_digits (fun d hd => digitsOf_lt (by decide) d hd) 0 (l := digitsOf 10 n)
  rw [foldl_digits, ofDigits_digitsOf] at hloop
  exact hloop

theorem digitsOf_cons (n : Nat) : ∃ d l, digitsOf 10 n = d :: l ∧ d < 10 := by
  obtain ⟨d, l, hl⟩ := List.exists_cons_of_ne_nil (digitsOf_ne_nil 10 n)
  exact ⟨d, l, hl, digitsOf_lt (by decide) d (hl ▸ List.mem_cons_self ..)⟩

/-- atoi of a numeral without a sign. -/
theorem atoi_digitsOf (n : Nat) : atoi ((digitsOf 10 n).map digitChar) = wrap n := by
  obtain ⟨d, l, hl, hd⟩ := digitsOf_cons n
  have hloop := atoiLoop_digitsOf n
  obtain ⟨-, hminus, hplus⟩ := digitChar_ne (show d < 16 by omega)
  rw [hl, List.map_cons] at hloop ⊢
  rw [atoi, List.dropWhile_cons, if_neg (by rw [(digitChar_class d hd).2]; decide), atoiSign]
  simp only [List.head?_cons, Option.some.injEq, hminus, hplus, or_self, if_false, false_and]
  exact hloop

/-- atoi of a numeral behind a minus sign. -/
theorem atoi_minus (n : Nat) : atoi (minus :: (digitsOf 10 n).map digitChar) =
    if wrap n ≠ -2 ^ 31 then wrap (-wrap n) else wrap n := by
  rw [atoi, List.dropWhile_cons, if_neg (by decide), atoiSign]
  simp only [List.head?_cons, or_true, if_true, List.tail_cons, atoiLoop_digitsOf, true_and]

/-- Reading the decimal numeral of an int gives the int. -/
theorem atoi_numeral (value : Int32) : atoi (numeral value 10) = value.toInt := by
  have hlo := value.le_toInt
  have hhi := value.toInt_lt
  unfold numeral
  split_ifs with hneg
  · have habs : ((-value.toInt).toNat : Int) = -value.toInt := Int.toNat_of_nonneg (by omega)
    rw [atoi_minus, habs]
    by_cases hmin : value.toInt = -2 ^ 31
    · rw [hmin]
      decide
    · rw [wrap_of_range (by omega) (by omega), if_pos (by omega), neg_neg,
        wrap_of_range (by omega) (by omega)]
  · have hpos : 0 ≤ value.toInt := not_lt.mp fun h => hneg ⟨h, rfl⟩
    have hnat : ((toU32 value.toInt).toNat : Int) = value.toInt := by
      rw [toU32_of_range hpos (by omega)]
      exact Int.toNat_of_nonneg hpos
    rw [atoi_digitsOf, hnat, wrap_of_range (by omega) hhi]

end Reads

/-! ## There and back -/

/-- The canonical numeral of a number: digits below the base with that value, most significant
first, and no leading zero. -/
def Canonical (base n : Nat) (chars : List UInt8) : Prop :=
  ∃ digits : List Nat, chars = digits.map digitChar ∧ digits ≠ [] ∧ (∀ d ∈ digits, d < base) ∧
    (digits.head? = some 0 → digits = [0]) ∧ Nat.ofDigits base digits.reverse = n

/-- The canonical decimal numeral of an int: that of its absolute value, behind a minus sign if it
is negative. -/
def Decimal (value : Int) (chars : List UInt8) : Prop :=
  (0 ≤ value ∧ Canonical 10 value.toNat chars) ∨
    ∃ rest, value < 0 ∧ chars = minus :: rest ∧ Canonical 10 (-value).toNat rest

section Inverse

variable {base : Nat}

theorem canonical_digitsOf (hbase : 1 < base) (n : Nat) :
    Canonical base n ((digitsOf base n).map digitChar) :=
  ⟨_, rfl, digitsOf_ne_nil base n, digitsOf_lt hbase, digitsOf_head, ofDigits_digitsOf base n⟩

theorem decimal_numeral (value : Int32) : Decimal value.toInt (numeral value 10) := by
  have hhi := value.toInt_lt
  unfold numeral
  split_ifs with hneg
  · exact .inr ⟨_, hneg.1, rfl, canonical_digitsOf (by decide) _⟩
  · have hpos : 0 ≤ value.toInt := not_lt.mp fun h => hneg ⟨h, rfl⟩
    refine .inl ⟨hpos, ?_⟩
    rw [toU32_of_range hpos (by omega)]
    exact canonical_digitsOf (by decide) _

theorem isString_itoa (value : Int32) {mem mem' : Memory} {str : Nat} (hstr : str ≠ 0)
    (hbase : 1 < base ∧ base ≤ 16) (h : itoa value mem str base = .ok mem') :
    IsString mem' str (numeral value base) := by
  rw [itoa_eq value mem hstr hbase] at h
  rw [← Except.ok.inj h]
  exact isString_stored mem str ⟨numeral value base, numeral_noNul value hbase⟩

/-- Equal unsigned numerals come from equal values. -/
theorem numeral_inj (hbase : 1 < base ∧ base ≤ 16) (hten : base ≠ 10) {value value' : Int32}
    (h : numeral value base = numeral value' base) : value = value' := by
  simp only [numeral, hten, and_false, if_false] at h
  have hdigits : digitsOf base (toU32 value.toInt).toNat =
      digitsOf base (toU32 value'.toInt).toNat := by
    refine map_digitChar_inj (fun d hd => ?_) (fun d hd => ?_) h
    · exact (digitsOf_lt hbase.1 d hd).trans_le hbase.2
    · exact (digitsOf_lt hbase.1 d hd).trans_le hbase.2
  have hnat := congrArg (fun l => Nat.ofDigits base l.reverse) hdigits
  simp only [ofDigits_digitsOf] at hnat
  apply Int32.toInt_inj.mp
  have hlo := value.le_toInt
  have hhi := value.toInt_lt
  have hlo' := value'.le_toInt
  have hhi' := value'.toInt_lt
  simp only [toU32] at hnat
  omega

end Inverse

/-- In base 10 __itoa leaves the canonical decimal numeral and atoi reads the int back from it; in
bases 8 and 16 it leaves the canonical numeral of the unsigned value; in each base different ints
leave different strings. -/
theorem itoa_atoi_inverse (mem : Memory) {str : Nat} (hstr : str ≠ 0) :
    (∀ value : Int32, ∃ mem' chars, itoa value mem str 10 = .ok mem' ∧ IsString mem' str chars ∧
      Decimal value.toInt chars ∧ atoi chars = value.toInt) ∧
    (∀ value : Int32, ∀ base ∈ [8, 16], ∃ mem' chars, itoa value mem str base = .ok mem' ∧
      IsString mem' str chars ∧ Canonical base (toU32 value.toInt).toNat chars) ∧
    ∀ value value' : Int32, ∀ base ∈ [8, 10, 16], ∀ mem₁ mem₂ chars,
      itoa value mem str base = .ok mem₁ → itoa value' mem str base = .ok mem₂ →
      IsString mem₁ str chars → IsString mem₂ str chars → value = value' := by
  refine ⟨fun value => ?_, fun value base hmem => ?_, ?_⟩
  · have hten : itoa value mem str 10 = .ok _ := itoa_eq value mem hstr (by decide)
    exact ⟨_, _, hten, isString_itoa value hstr (by decide) hten, decimal_numeral value,
      atoi_numeral value⟩
  · have hbase : (1 < base ∧ base ≤ 16) ∧ base ≠ 10 := by
      simp only [List.mem_cons, List.not_mem_nil, or_false] at hmem
      omega
    have hcall := itoa_eq value mem hstr hbase.1
    refine ⟨_, _, hcall, isString_itoa value hstr hbase.1 hcall, ?_⟩
    rw [numeral, if_neg fun h => hbase.2 h.2]
    exact canonical_digitsOf hbase.1.1 _
  · intro value value' base hmem mem₁ mem₂ chars hcall hcall' h h'
    have hbase : 1 < base ∧ base ≤ 16 := by
      simp only [List.mem_cons, List.not_mem_nil, or_false] at hmem
      omega
    have heq : numeral value base = numeral value' base :=
      ((isString_itoa value hstr hbase hcall).unique h).trans
        ((isString_itoa value' hstr hbase hcall').unique h').symm
    by_cases hten : base = 10
    · rw [hten] at heq
      apply Int32.toInt_inj.mp
      rw [← atoi_numeral value, heq, atoi_numeral value']
    · exact numeral_inj hbase hten heq

/-- INT_MIN in a buffer at 0x1000 of a memory full of letters, in base 16 as well. -/
theorem itoa_atoi_inverse_min :
    (∃ mem' chars, itoa Int32.minValue (fun _ => 65) 0x1000 10 = .ok mem' ∧
      IsString mem' 0x1000 chars ∧ Decimal Int32.minValue.toInt chars ∧
      atoi chars = Int32.minValue.toInt) ∧
    ∃ mem' chars, itoa Int32.minValue (fun _ => 65) 0x1000 16 = .ok mem' ∧
      IsString mem' 0x1000 chars ∧ Canonical 16 (toU32 Int32.minValue.toInt).toNat chars :=
  have hstr : 0x1000 ≠ 0 := by decide
  have h := itoa_atoi_inverse (fun _ => 65) hstr
  ⟨h.1 _, h.2.1 _ 16 (by decide)⟩

end RxdOs.Libk.Itoa
