/- RxdOs/Libk/Itoaf
   source: lib/printf.c (shift_pad, __itoaf)
   digest: A numeral laid out by flag, width and precision in a buffer that may hold anything
   before, and when it is left without a terminator. -/

import RxdOs.Base.Assert
import RxdOs.Libk.Itoa

set_option autoImplicit false
set_option relaxedAutoImplicit false

namespace RxdOs.Libk.Itoaf

open RxdOs.Base.Assert RxdOs.Base.Int32 RxdOs.Lib.BlockCopy RxdOs.Libk.Str RxdOs.Libk.Itoa

def leftJust : Nat := 1
def signPlus : Nat := 2
def signSpce : Nat := 4
def mark : Nat := 8
def zeroPad : Nat := 16

def space : UInt8 := 32

/-- `do { *(--end) = pad; } while (end != first);` with `n` cells to go. -/
def padDown (mem : Memory) (pend : Nat) (pad : UInt8) : Nat → Memory
  | 0 => mem
  | n + 1 => padDown (Function.update mem (pend - 1) pad) (pend - 1) pad n

/-- shift_pad; its callers shift upwards.  The first loop is
`do { --end; *(end + shift) = *end; } while (end != first);`. -/
def shiftPad (mem : Memory) (first pend shift : Nat) (pad : UInt8) : Kernel Memory := do
  assert (first < pend ∧ shift ≠ 0) "first < end && shift != 0"
  let mem := copyDown mem (pend + shift) pend (pend - first)
  pure (padDown mem (first + shift) pad shift)

/-- "deal with prefix" -/
def putPrefix (value : Int32) (mem : Memory) (str base flags : Nat) : Memory × Nat :=
  if base = 10 ∧ value.toInt > 0 then
    if flags &&& signPlus ≠ 0 then (Function.update mem str plus, str + 1)
    else if flags &&& signSpce ≠ 0 then (Function.update mem str space, str + 1)
    else (mem, str)
  else if base = 8 ∨ base = 16 then
    if flags &&& mark ≠ 0 then
      let mem := Function.update mem str zero
      if base = 16 then (Function.update mem (str + 1) 120, str + 1 + 1) else (mem, str + 1)
    else (mem, str)
  else (mem, str)

/-- `while ((str + width) > p) *(p++) = ' ';` -/
def spaceLoop (mem : Memory) (p : Nat) : Nat → Memory × Nat
  | 0 => (mem, p)
  | n + 1 => spaceLoop (Function.update mem p space) (p + 1) n

/-- "deal with number and precision": the memory, and where the digits begin and end. -/
def putNumber (value : Int32) (mem : Memory) (p base : Nat) (precision : Int) :
    Kernel (Memory × Nat × Nat) := do
  let mem ← itoa value mem p base
  let len ← strlen mem p
  let nend := p + len
  let nstart := if mem p = minus then p + 1 else p
  if nstart + precision > nend then
    let padcnt := (precision - (nend - nstart)).toNat
    let mem ← shiftPad mem nstart nend padcnt zero
    pure (mem, nstart, nend + padcnt)
  else pure (mem, nstart, nend)

/-- "deal with width and alignment" -/
def putWidth (mem : Memory) (str nstart p flags : Nat) (width precision : Int) : Kernel Memory :=
  if str + width > p then
    if flags &&& leftJust ≠ 0 then
      let (mem, p) := spaceLoop mem p (str + width - p).toNat
      pure (Function.update mem p 0)
    else do
      let padcnt := (width - (p - str)).toNat
      let mem ← if precision < 0 ∧ flags &&& zeroPad ≠ 0 then shiftPad mem nstart p padcnt zero
        else shiftPad mem str p padcnt space
      pure (Function.update mem (p + padcnt) 0)
  else pure mem

/-- __itoaf; it returns `str`. -/
def itoaf (value : Int32) (mem : Memory) (str base flags : Nat) (width precision : Int) :
    Kernel Memory := do
  assert (flags &&& (flags - 1) = 0) "(flags&(flags-1)) == 0"
  let (mem, p) := putPrefix value mem str base flags
  let (mem, nstart, p) ← putNumber value mem p base precision
  putWidth mem str nstart p flags width precision

/-! ## The layout -/

/-- The plus sign or space before a positive number, the base before an unsigned one. -/
def prefixChars (value : Int32) (base flags : Nat) : List UInt8 :=
  if base = 10 then
    if value.toInt > 0 then
      if flags &&& signPlus ≠ 0 then [plus] else if flags &&& signSpce ≠ 0 then [space] else []
    else []
  else if flags &&& mark ≠ 0 then (if base = 16 then [zero, 120] else [zero]) else []

def signChars (value : Int32) (base : Nat) : List UInt8 :=
  if value.toInt < 0 ∧ base = 10 then [minus] else []

/-- The number the digits denote: the absolute value in base 10, the unsigned value elsewhere. -/
def magnitude (value : Int32) (base : Nat) : Nat :=
  if value.toInt < 0 ∧ base = 10 then (-value.toInt).toNat else (toU32 value.toInt).toNat

def digitChars (value : Int32) (base : Nat) : List UInt8 :=
  (digitsOf base (magnitude value base)).map digitChar

/-- The sign and what comes before it. -/
def headChars (value : Int32) (base flags : Nat) : List UInt8 :=
  prefixChars value base flags ++ signChars value base

/-- Zeros that bring the digits up to the precision. -/
def zeroChars (value : Int32) (base : Nat) (precision : Int) : List UInt8 :=
  List.replicate (precision - (digitChars value base).length).toNat zero

/-- The text without regard to the width. -/
def bodyChars (value : Int32) (base flags : Nat) (precision : Int) : List UInt8 :=
  headChars value base flags ++ zeroChars value base precision ++ digitChars value base

/-- The text: spaces behind it under '-', zeros before the digits under '0' without a precision,
else spaces before it. -/
def layout (value : Int32) (base flags : Nat) (width precision : Int) : List UInt8 :=
  let fill := (width - (bodyChars value base flags precision).length).toNat
  if flags &&& leftJust ≠ 0 then
    bodyChars value base flags precision ++ List.replicate fill space
  else if precision < 0 ∧ flags &&& zeroPad ≠ 0 then
    headChars value base flags ++ List.replicate fill zero ++ digitChars value base
  else List.replicate fill space ++ bodyChars value base flags precision

/-! ## What the parts write -/

section Parts

variable {value : Int32} {mem : Memory} {str base flags dst k : Nat} {width precision : Int}

theorem padDown_eq (mem : Memory) (p : Nat) (pad : UInt8) (n : Nat) :
    padDown mem (p + n) pad n = filled mem p n pad := by
  induction n generalizing mem with
  | zero => rw [filled_zero, padDown]
  | succ n ih =>
    show padDown (Function.update mem (p + n) pad) (p + n) pad n = _
    rw [ih, filled_last]

/-- shift_pad on stored text: `b` moves up, and `c` behind it is overwritten. -/
theorem shiftPad_stored {a b c : List UInt8} {v : UInt8} (hb : b ≠ []) (hk : 0 < k)
    (hc : c.length ≤ k) :
    shiftPad (stored mem dst (a ++ b ++ c)) (dst + a.length) (dst + a.length + b.length) k v =
      .ok (stored mem dst (a ++ List.replicate k v ++ b)) := by
  have hpos := List.length_pos_of_ne_nil hb
  have hmove : copyDown (stored mem dst (a ++ b ++ c)) (dst + a.length + b.length + k)
      (dst + a.length + b.length) b.length =
        copied (stored mem dst (a ++ b ++ c)) (dst + a.length + k) (dst + a.length) b.length := by
    rw [← copyDown_eq (Nat.le_add_right ..)]
    congr 1
    omega
  rw [shiftPad, assert_pos (by omega), ok_bind, Nat.add_sub_cancel_left, hmove]
  dsimp only
  rw [padDown_eq, filled_copied_stored mem v hc, pure_eq_ok]

theorem spaceLoop_eq (mem : Memory) (p n : Nat) :
    spaceLoop mem p n = (stored mem p (List.replicate n space), p + n) := by
  induction n generalizing mem p with
  | zero => rw [spaceLoop, List.replicate_zero, stored_nil, Nat.add_zero]
  | succ n ih =>
    rw [spaceLoop, ih, stored_first, List.replicate_succ, Nat.add_right_comm, Nat.add_assoc]

theorem putPrefix_eq (hbase : base = 8 ∨ base = 10 ∨ base = 16) :
    putPrefix value mem str base flags = (stored mem str (prefixChars value base flags),
      str + (prefixChars value base flags).length) := by
  have hnone : (mem, str) = (stored mem str [], str + ([] : List UInt8).length) := by
    rw [stored_nil]
    rfl
  have hone : ∀ c : UInt8, (Function.update mem str c, str + 1) =
      (stored mem str [c], str + [c].length) := fun c => by
    rw [stored_single]
    rfl
  unfold putPrefix prefixChars
  by_cases hten : base = 10
  · have hpair : ¬(10 = 8 ∨ 10 = 16) := by decide
    simp only [hten, true_and, if_true, if_neg hpair]
    split_ifs
    · exact hone plus
    · exact hone space
    · exact hnone
    · exact hnone
  · have hpair : base = 8 ∨ base = 16 := by omega
    simp only [hten, false_and, if_false, if_pos hpair]
    split_ifs
    · rw [← stored_single, stored_first]
      rfl
    · exact hone zero
    · exact hnone

theorem numeral_eq (value : Int32) (base : Nat) :
    numeral value base = signChars value base ++ digitChars value base := by
  unfold numeral signChars digitChars magnitude
  split_ifs <;> rfl

theorem digitChars_ne_nil (value : Int32) (base : Nat) : digitChars value base ≠ [] := by
  simpa [digitChars] using digitsOf_ne_nil base (magnitude value base)

theorem digitChars_length (value : Int32) (hbase : 1 < base) :
    (digitChars value base).length ≤ 32 := by
  have hlo := value.le_toInt
  have hmag : magnitude value base < 2 ^ 32 := by
    unfold magnitude
    split_ifs
    · omega
    · exact toU32_toNat_lt _
  have hpow : magnitude value base < base ^ 32 := hmag.trans_le (Nat.pow_le_pow_left hbase 32)
  rw [digitChars, List.length_map, digitsOf]
  split_ifs with hzero
  · decide
  · rw [List.length_reverse]
    exact (Nat.digits_length_le_iff hbase _).mpr hpow

theorem signChars_length (value : Int32) (base : Nat) : (signChars value base).length ≤ 1 := by
  unfold signChars
  split_ifs <;> decide

theorem prefixChars_length (value : Int32) (base flags : Nat) :
    (prefixChars value base flags).length ≤ 2 := by
  unfold prefixChars
  split_ifs <;> decide

/-- Without a precision that asks for more digits the terminator of the numeral is still there. -/
def tailChars (value : Int32) (base : Nat) (precision : Int) : List UInt8 :=
  if precision > (digitChars value base).length then [] else [0]

theorem numeral_length (value : Int32) (hbase : 1 < base) : (numeral value base).length ≤ 33 := by
  have hsign := signChars_length value base
  have hdigits := digitChars_length value hbase
  rw [numeral_eq, List.length_append]
  omega

theorem numeral_strlen (hbase : 1 < base ∧ base ≤ 16) (mem : Memory) {p : Nat} (hp : p ≠ 0) :
    strlen (stored mem p (numeral value base ++ [0])) p =
      .ok ((signChars value base).length + (digitChars value base).length) := by
  have hshort : (numeral value base).length < 2 ^ 32 :=
    (numeral_length value hbase.1).trans_lt (by decide)
  have hterm := terminated_stored mem p ⟨numeral value base, numeral_noNul value hbase⟩
  rw [strlen_eq hp hterm hshort]
  show Except.ok (numeral value base).length = _
  rw [numeral_eq, List.length_append]

/-- The first digit is found behind the sign. -/
theorem numeral_first (hbase : 1 < base ∧ base ≤ 16) (mem : Memory) (p : Nat) :
    (if stored mem p (numeral value base ++ [0]) p = minus then p + 1 else p) =
      p + (signChars value base).length := by
  obtain ⟨c, l, hcons⟩ := List.exists_cons_of_ne_nil (digitChars_ne_nil value base)
  have hfirst : ∀ (c : UInt8) (l : List UInt8), stored mem p (c :: l) p = c := by
    intro c l
    rw [stored, if_pos le_rfl, Nat.sub_self]
    rfl
  rw [numeral_eq]
  unfold signChars
  split_ifs with hneg hcell hcell
  · rfl
  · exact absurd (hfirst minus _) hcell
  · have hmem : c ∈ digitChars value base := hcons ▸ List.mem_cons_self ..
    obtain ⟨d, hd, rfl⟩ := List.mem_map.mp hmem
    have hlt := digitsOf_lt hbase.1 d hd
    rw [List.nil_append, hcons, List.cons_append, hfirst] at hcell
    exact absurd hcell (digitChar_ne (by omega)).2.1
  · rfl

/-- "deal with number and precision" behind a prefix already stored. -/
theorem putNumber_eq (hstr : str ≠ 0) (hbase : 1 < base ∧ base ≤ 16) (a : List UInt8) :
    putNumber value (stored mem str a) (str + a.length) base precision =
      .ok (stored mem str (a ++ signChars value base ++ zeroChars value base precision ++
          digitChars value base ++ tailChars value base precision),
        str + a.length + (signChars value base).length,
        str + a.length + (signChars value base).length +
          (zeroChars value base precision ++ digitChars value base).length) := by
  have hp : str + a.length ≠ 0 := by omega
  have hitoa := itoa_eq value (stored mem str a) hp hbase
  have hlen := @numeral_strlen value base hbase (stored mem str a) _ hp
  have hfirst := @numeral_first value base hbase (stored mem str a) (str + a.length)
  have hjoin : stored (stored mem str a) (str + a.length) (numeral value base ++ [0]) =
      stored mem str (a ++ signChars value base ++ digitChars value base ++ [0]) := by
    rw [stored_append, numeral_eq, List.append_assoc, List.append_assoc, List.append_assoc]
  rw [hjoin] at hitoa hlen hfirst
  have hhead : str + (a ++ signChars value base).length =
      str + a.length + (signChars value base).length := by
    rw [List.length_append, Nat.add_assoc]
  rw [putNumber, hitoa, ok_bind, hlen, ok_bind]
  simp only [hfirst]
  by_cases hshort : precision > (digitChars value base).length
  · have hshift : shiftPad (stored mem str (a ++ signChars value base ++ digitChars value base ++
        [0])) _ _ (precision - (digitChars value base).length).toNat zero = .ok (stored mem str
          (a ++ signChars value base ++ zeroChars value base precision ++ digitChars value base)) :=
      shiftPad_stored (digitChars_ne_nil value base) (by omega)
        (by rw [List.length_singleton]; omega)
    rw [hhead] at hshift
    have hcount : (precision - ((str + a.length + ((signChars value base).length +
        (digitChars value base).length) : Nat) - (str + a.length +
          (signChars value base).length : Nat))).toNat =
        (precision - (digitChars value base).length).toNat := by omega
    rw [if_pos (by omega), hcount, ← Nat.add_assoc, hshift, ok_bind, pure_eq_ok, tailChars,
      if_pos hshort, List.append_nil, zeroChars, List.length_append, List.length_replicate]
    congr 3
    omega
  · have hzeros : zeroChars value base precision = [] := by
      rw [zeroChars, show (precision - (digitChars value base).length).toNat = 0 by omega,
        List.replicate_zero]
    rw [if_neg (by omega), pure_eq_ok, tailChars, if_neg hshort, hzeros, List.append_nil,
      List.nil_append, Nat.add_assoc (str + a.length)]

theorem tailChars_length (value : Int32) (base : Nat) (precision : Int) :
    (tailChars value base precision).length ≤ 1 := by
  unfold tailChars
  split_ifs <;> decide

theorem zeroChars_eq_nil (h : precision ≤ (digitChars value base).length) :
    zeroChars value base precision = [] := by
  rw [zeroChars, Int.toNat_of_nonpos (by omega), List.replicate_zero]

theorem stored_terminated (mem : Memory) (str : Nat) (l : List UInt8) :
    Function.update (stored mem str l) (str + l.length) 0 = stored mem str (l ++ [0]) := by
  rw [← stored_single, stored_append]

/-- "deal with width and alignment" with `k` cells to fill. -/
theorem putWidth_wide {n first : Nat} (hk : 0 < k) :
    putWidth mem str first (str + n) flags (n + k : Nat) precision =
      if flags &&& leftJust ≠ 0 then
        .ok (stored mem (str + n) (List.replicate k space ++ [0]))
      else (if precision < 0 ∧ flags &&& zeroPad ≠ 0 then shiftPad mem first (str + n) k zero
          else shiftPad mem str (str + n) k space) >>= fun mem =>
        .ok (Function.update mem (str + n + k) 0) := by
  have hgap : ((str : Int) + (n + k : Nat) - (str + n : Nat)).toNat = k := by omega
  have hgap' : (((n + k : Nat) : Int) - ((str + n : Nat) - (str : Int))).toNat = k := by omega
  rw [putWidth, if_pos (show (str : Int) + (n + k : Nat) > (str + n : Nat) by omega), hgap, hgap',
    spaceLoop_eq]
  dsimp only
  rw [← stored_terminated, List.length_replicate, pure_eq_ok]
  split_ifs <;> rfl

section Wide

variable {body head digits c : List UInt8} {first : Nat}

theorem putWidth_left (hk : 0 < k) (hc : c.length ≤ k) (hleft : flags &&& leftJust ≠ 0) :
    putWidth (stored mem str (body ++ c)) str first (str + body.length) flags
      (body.length + k : Nat) precision =
        .ok (stored mem str (body ++ List.replicate k space ++ [0])) := by
  have hover : c.length ≤ (List.replicate k space ++ [(0 : UInt8)]).length := by
    rw [List.length_append, List.length_replicate]
    omega
  rw [putWidth_wide hk, if_pos hleft, stored_over mem hover, List.append_assoc]

theorem putWidth_zeros (hk : 0 < k) (hc : c.length ≤ k) (hdigits : digits ≠ [])
    (hleft : ¬flags &&& leftJust ≠ 0) (hzero : precision < 0 ∧ flags &&& zeroPad ≠ 0) :
    putWidth (stored mem str (head ++ digits ++ c)) str (str + head.length)
      (str + (head ++ digits).length) flags ((head ++ digits).length + k : Nat) precision =
        .ok (stored mem str (head ++ List.replicate k zero ++ digits ++ [0])) := by
  have hend : str + (head ++ digits).length = str + head.length + digits.length := by
    rw [List.length_append, Nat.add_assoc]
  have hlast : str + (head ++ digits).length + k =
      str + (head ++ List.replicate k zero ++ digits).length := by
    simp only [List.length_append, List.length_replicate]
    omega
  rw [putWidth_wide hk, if_neg hleft, if_pos hzero, hlast, hend,
    shiftPad_stored hdigits hk hc, ok_bind, stored_terminated]

theorem putWidth_spaces (hk : 0 < k) (hc : c.length ≤ k) (hbody : body ≠ [])
    (hleft : ¬flags &&& leftJust ≠ 0) (hzero : ¬(precision < 0 ∧ flags &&& zeroPad ≠ 0)) :
    putWidth (stored mem str (body ++ c)) str first (str + body.length) flags
      (body.length + k : Nat) precision =
        .ok (stored mem str (List.replicate k space ++ body ++ [0])) := by
  have hshift : shiftPad (stored mem str ([] ++ body ++ c)) (str + 0) (str + 0 + body.length) k
      space = .ok (stored mem str ([] ++ List.replicate k space ++ body)) :=
    shiftPad_stored hbody hk hc
  rw [List.nil_append, List.nil_append, Nat.add_zero] at hshift
  have hlast : str + body.length + k = str + (List.replicate k space ++ body).length := by
    rw [List.length_append, List.length_replicate]
    omega
  rw [putWidth_wide hk, if_neg hleft, if_neg hzero, hshift, ok_bind, hlast, stored_terminated]

end Wide

/-- Behind the text without the width: padding brings the terminator with it. -/
theorem putWidth_eq :
    putWidth (stored mem str (bodyChars value base flags precision ++
        tailChars value base precision)) str (str + (headChars value base flags).length)
      (str + (bodyChars value base flags precision).length) flags width precision =
      .ok (stored mem str (layout value base flags width precision ++
        if width > (bodyChars value base flags precision).length then [0]
        else tailChars value base precision)) := by
  have htail := tailChars_length value base precision
  have hbody : precision < 0 → bodyChars value base flags precision =
      headChars value base flags ++ digitChars value base := fun hneg => by
    rw [bodyChars, zeroChars_eq_nil (by omega), List.append_nil]
  rw [layout]
  by_cases hwide : width > (bodyChars value base flags precision).length
  · obtain ⟨k, rfl⟩ : ∃ k : Nat,
        width = ((bodyChars value base flags precision).length + k : Nat) :=
      ⟨(width - (bodyChars value base flags precision).length).toNat, by omega⟩
    have hk : 0 < k := by omega
    have hfill : ((((bodyChars value base flags precision).length + k : Nat) : Int) -
      (bodyChars value base flags precision).length).toNat = k := by omega
    rw [if_pos hwide, hfill]
    by_cases hleft : flags &&& leftJust ≠ 0
    · rw [putWidth_left hk (by omega) hleft, if_pos hleft]
    by_cases hzero : precision < 0 ∧ flags &&& zeroPad ≠ 0
    · rw [hbody hzero.1, putWidth_zeros hk (by omega) (digitChars_ne_nil value base) hleft hzero,
        if_neg hleft, if_pos hzero]
    · have hne : bodyChars value base flags precision ≠ [] :=
        List.append_ne_nil_of_right_ne_nil _ (digitChars_ne_nil value base)
      rw [putWidth_spaces hk (by omega) hne hleft hzero, if_neg hleft, if_neg hzero]
  · rw [putWidth, if_neg (by omega), if_neg hwide, Int.toNat_of_nonpos (by omega), pure_eq_ok]
    split_ifs with hleft hzero
    · rw [List.replicate_zero, List.append_nil]
    · rw [hbody hzero.1, List.replicate_zero, List.append_nil]
    · rw [List.replicate_zero, List.nil_append]

/-- __itoaf writes the layout; the terminator is missing where the precision asked for more digits
and the width for nothing. -/
theorem itoaf_eq (hstr : str ≠ 0) (hbase : base = 8 ∨ base = 10 ∨ base = 16)
    (hflags : flags &&& (flags - 1) = 0) :
    itoaf value mem str base flags width precision =
      .ok (stored mem str (layout value base flags width precision ++
        if width > (bodyChars value base flags precision).length then [0]
        else tailChars value base precision)) := by
  have hstart : str + (prefixChars value base flags).length + (signChars value base).length =
      str + (headChars value base flags).length := by
    rw [headChars, List.length_append, Nat.add_assoc]
  have hend : str + (headChars value base flags).length +
      (zeroChars value base precision ++ digitChars value base).length =
        str + (bodyChars value base flags precision).length := by
    rw [bodyChars, List.append_assoc, Nat.add_assoc, ← List.length_append]
  rw [itoaf, assert_pos hflags, ok_bind, putPrefix_eq hbase]
  dsimp only
  rw [putNumber_eq hstr (by omega), ok_bind, hstart, hend]
  exact putWidth_eq

theorem bodyChars_length (value : Int32) (base flags : Nat) (precision : Int) :
    ((bodyChars value base flags precision).length : Int) = (headChars value base flags).length +
      max ((digitChars value base).length : Int) precision := by
  simp only [bodyChars, zeroChars, List.length_append, List.length_replicate]
  omega

theorem layout_length (value : Int32) (base flags : Nat) (width precision : Int) :
    ((layout value base flags width precision).length : Int) =
      max width (bodyChars value base flags precision).length := by
  rw [layout]
  split_ifs with hleft hzero
  · rw [List.length_append, List.length_replicate]
    omega
  · have hbody := bodyChars_length value base flags precision
    simp only [List.length_append, List.length_replicate]
    omega
  · rw [List.length_append, List.length_replicate]
    omega

theorem bodyChars_noNul (hbase : 1 < base ∧ base ≤ 16) :
    ∀ c ∈ bodyChars value base flags precision, c ≠ 0 := by
  have hprefix : ∀ c ∈ prefixChars value base flags, c ≠ 0 := by
    unfold prefixChars
    split_ifs <;> exact List.forall_iff_forall_mem.mp (by decide)
  have hnumeral := numeral_noNul value hbase
  rw [numeral_eq] at hnumeral
  simp only [bodyChars, headChars, zeroChars, List.mem_append, List.mem_replicate]
  rintro c (((hc | hc) | ⟨-, rfl⟩) | hc)
  · exact hprefix c hc
  · exact hnumeral c (List.mem_append_left _ hc)
  · decide
  · exact hnumeral c (List.mem_append_right _ hc)

theorem layout_noNul (hbase : 1 < base ∧ base ≤ 16) :
    ∀ c ∈ layout value base flags width precision, c ≠ 0 := by
  have hbody : ∀ c ∈ bodyChars value base flags precision, c ≠ 0 := bodyChars_noNul hbase
  have hpad : ∀ v : UInt8, v ≠ 0 → ∀ n, ∀ c ∈ List.replicate n v, c ≠ 0 := by
    intro v hv n c hc
    rw [List.eq_of_mem_replicate hc]
    exact hv
  rw [layout]
  split_ifs with hleft hzero <;> intro c hc
  · exact (List.mem_append.mp hc).elim (hbody c) (hpad space (by decide) _ c)
  · rw [List.mem_append, List.mem_append] at hc
    rcases hc with (hc | hc) | hc
    · exact hbody c (List.mem_append_left _ (List.mem_append_left _ hc))
    · exact hpad zero (by decide) _ c hc
    · exact hbody c (List.mem_append_right _ hc)
  · exact (List.mem_append.mp hc).elim (hpad space (by decide) _ c) (hbody c)

theorem value_magnitude (value : Int32) (base : Nat) :
    value.toInt = if signChars value base = [] then wrap (magnitude value base)
      else -(magnitude value base : Int) := by
  have hlo := value.le_toInt
  have hhi := value.toInt_lt
  unfold signChars magnitude
  by_cases hneg : value.toInt < 0 ∧ base = 10
  · simp only [if_pos hneg, List.cons_ne_nil, if_false]
    omega
  · simp only [if_neg hneg, if_true, toU32, wrap]
    omega

end Parts

/-- The text of a value: padded on the side and with the character its flag asks for, as long as
the width or as what it has to show, with digits that denote the value. -/
structure Formatted (value : Int32) (base flags : Nat) (width precision : Int)
    (chars : List UInt8) : Prop where
  text : chars = layout value base flags width precision
  length : (chars.length : Int) = max width ((prefixChars value base flags).length +
    (signChars value base).length + max ((digitChars value base).length : Int) precision)
  enough : precision ≤ (zeroChars value base precision ++ digitChars value base).length
  digits : Canonical base (magnitude value base) (digitChars value base)
  denotes : value.toInt = if signChars value base = [] then wrap (magnitude value base)
    else -(magnitude value base : Int)

/-- __itoaf leaves the formatted text as a string. -/
def LaysOut (mem : Memory) (value : Int32) (str base flags : Nat) (width precision : Int) : Prop :=
  ∃ mem' chars, itoaf value mem str base flags width precision = .ok mem' ∧
    IsString mem' str chars ∧ Formatted value base flags width precision chars

section Formats

variable {value : Int32} {mem : Memory} {str base flags : Nat} {width precision : Int}

theorem formatted_layout (hbase : 1 < base) : Formatted value base flags width precision
    (layout value base flags width precision) where
  text := rfl
  length := by
    rw [layout_length, bodyChars_length, headChars, List.length_append, Nat.cast_add]
  enough := by
    rw [List.length_append, zeroChars, List.length_replicate]
    omega
  digits := canonical_digitsOf hbase _
  denotes := value_magnitude value base

theorem isString_iff_end {l : List UInt8} (hl : ∀ c ∈ l, c ≠ 0) :
    IsString (stored mem str l) str l ↔ mem (str + l.length) = 0 := by
  have hend : stored mem str l (str + l.length) = mem (str + l.length) :=
    stored_outside (.inr le_rfl)
  rw [← hend]
  constructor
  · intro h
    exact h.1.2
  · intro h
    refine ⟨⟨fun i hi => ?_, h⟩, fun i hi => stored_inside hi⟩
    rw [stored_inside hi]
    exact hl _ (List.getElem_mem hi)

/-- The text is complete and only its terminator can be missing: it is there exactly when the
precision asks for no further digits, or the width goes beyond them, or the byte behind the text
was NUL already. -/
theorem itoaf_layout_iff (hstr : str ≠ 0) (hbase : base = 8 ∨ base = 10 ∨ base = 16)
    (hflags : flags &&& (flags - 1) = 0) : LaysOut mem value str base flags width precision ↔
      precision ≤ (digitChars value base).length ∨
      width > (headChars value base flags).length + precision ∨
      mem (str + (headChars value base flags).length + precision.toNat) = 0 := by
  have hrange : 1 < base ∧ base ≤ 16 := by omega
  have hnul : ∀ c ∈ layout value base flags width precision, c ≠ 0 := layout_noNul hrange
  have hlen := layout_length value base flags width precision
  have hbody := bodyChars_length value base flags precision
  have hlaid : itoaf value mem str base flags width precision = .ok _ :=
    itoaf_eq hstr hbase hflags
  by_cases hopen : precision > (digitChars value base).length ∧
      width ≤ (headChars value base flags).length + precision
  · rw [if_neg (by omega), tailChars, if_pos hopen.1, List.append_nil] at hlaid
    have hat : str + (headChars value base flags).length + precision.toNat =
        str + (layout value base flags width precision).length := by omega
    rw [hat]
    constructor
    · rintro ⟨mem', chars, hok, hstr, hform⟩
      rw [hlaid] at hok
      obtain rfl := Except.ok.inj hok
      rw [hform.text] at hstr
      exact .inr (.inr ((isString_iff_end hnul).mp hstr))
    · rintro (hle | hgt | hzero)
      · omega
      · omega
      · exact ⟨_, _, hlaid, (isString_iff_end hnul).mpr hzero, formatted_layout hrange.1⟩
  · have hclosed : (if width > (bodyChars value base flags precision).length then [(0 : UInt8)]
        else tailChars value base precision) = [0] := by
      rw [tailChars]
      split_ifs
      · rfl
      · omega
      · rfl
    rw [hclosed] at hlaid
    have hstring := isString_stored mem str ⟨_, hnul⟩
    refine iff_of_true ⟨_, _, hlaid, hstring, formatted_layout hrange.1⟩ ?_
    omega

/-- A negative number under '0', in a buffer full of letters. -/
theorem itoaf_layout_zeros : LaysOut (fun _ => 65) (-42) 0x1000 10 zeroPad 6 (-1) :=
  (itoaf_layout_iff (by decide) (by decide) (by decide)).mpr (.inl (by omega))

/-- One with a precision of five, in a buffer full of letters. -/
theorem itoaf_unterminated : ¬LaysOut (fun _ => 65) 1 0x1000 10 0 0 5 := by
  rintro ⟨mem', chars, hok, hstr, hform⟩
  have hdigits : (digitChars 1 10).length = 1 := by
    simp [digitChars, digitsOf, magnitude, toU32]
  have hlen := bodyChars_length 1 10 0 5
  have hlaid : itoaf 1 (fun _ => 65) 0x1000 10 0 0 5 = .ok _ :=
    itoaf_eq (by decide) (by decide) (by decide)
  rw [if_neg (by omega), tailChars, if_pos (by omega), List.append_nil] at hlaid
  obtain rfl := Except.ok.inj (hlaid.symm.trans hok)
  rw [hform.text] at hstr
  exact absurd ((isString_iff_end (layout_noNul (by decide))).mp hstr) (by decide)

end Formats

end RxdOs.Libk.Itoaf
