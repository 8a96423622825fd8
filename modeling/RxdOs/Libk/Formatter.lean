/- RxdOs/Libk/Formatter
   source: lib/printf.c (vsprintf)
   digest: The text a format string and its arguments spell, as a list, and vsprintf as what lays
   that text and one NUL into memory. -/

import RxdOs.Libk.FormatGrammar

set_option autoImplicit false
set_option relaxedAutoImplicit false

namespace RxdOs.Libk.Formatter

open RxdOs.Base.Assert RxdOs.Base.Int32 RxdOs.Lib.BlockCopy RxdOs.Libk.Str RxdOs.Libk.Itoa
  RxdOs.Libk.Itoaf RxdOs.Libk.Vsprintf

open RxdOs.Libk.FormatGrammar (enter enter_ready loop_bad vsprintf_eq)

/-! ## Strings in memory -/

/-- The characters from `p` on up to a NUL, at most `fuel` of them. -/
def stringAt (mem : Memory) (p : Nat) : Nat → List UInt8
  | 0 => []
  | fuel + 1 => if mem p ≠ 0 then mem p :: stringAt mem (p + 1) fuel else []

/-- The string that stands at `p` once some cells are written there. -/
def standing (mem : Memory) (p : Nat) (cells : List UInt8) : List UInt8 :=
  stringAt (stored mem p cells) p (2 ^ 32)

section Strings

variable {mem mem' : Memory} {p fuel : Nat} {l : List UInt8}

theorem stringAt_congr (h : ∀ a, p ≤ a → mem a = mem' a) :
    stringAt mem p fuel = stringAt mem' p fuel := by
  induction fuel generalizing p with
  | zero => rfl
  | succ fuel ih =>
    rw [stringAt, stringAt, h p le_rfl, ih fun a ha => h a (Nat.le_of_succ_le ha)]

theorem strlenLoop_eq_length : strlenLoop mem p fuel = (stringAt mem p fuel).length := by
  induction fuel generalizing p with
  | zero => rfl
  | succ fuel ih =>
    rw [strlenLoop, stringAt]
    split_ifs
    · rw [ih, List.length_cons]
    · rfl

theorem strlen_stringAt (hp : p ≠ 0) :
    strlen mem p = .ok (stringAt mem p (2 ^ 32)).length := by
  rw [strlen, assert_pos hp, ok_bind, strlenLoop_eq_length, pure_eq_ok]

theorem stored_stringAt : stored mem p (stringAt mem p fuel) = mem := by
  induction fuel generalizing p with
  | zero => exact stored_nil
  | succ fuel ih =>
    rw [stringAt]
    split_ifs
    · rw [← stored_first, Function.update_eq_self, ih]
    · exact stored_nil

theorem stringAt_noNul : ∀ c ∈ stringAt mem p fuel, c ≠ 0 := by
  induction fuel generalizing p with
  | zero => exact fun c hc => absurd hc List.not_mem_nil
  | succ fuel ih =>
    rw [stringAt]
    split_ifs with hp
    · exact List.forall_mem_cons.mpr ⟨hp, ih⟩
    · exact fun c hc => absurd hc List.not_mem_nil

theorem stringAt_le (mem : Memory) (p fuel : Nat) : (stringAt mem p fuel).length ≤ fuel := by
  induction fuel generalizing p with
  | zero => exact le_rfl
  | succ fuel ih =>
    rw [stringAt]
    split_ifs
    · exact Nat.succ_le_succ (ih _)
    · exact Nat.zero_le _

/-- Behind cells that hold no NUL the string goes on in what was there before. -/
theorem stringAt_stored (hl : ∀ c ∈ l, c ≠ 0) (hfuel : l.length ≤ fuel) :
    stringAt (stored mem p l) p fuel =
      l ++ stringAt mem (p + l.length) (fuel - l.length) := by
  induction l generalizing mem p fuel with
  | nil => rw [stored_nil, List.nil_append, List.length_nil, Nat.add_zero, Nat.sub_zero]
  | cons c l ih =>
    obtain ⟨hc, hl⟩ := List.forall_mem_cons.mp hl
    obtain ⟨fuel, rfl⟩ := Nat.exists_eq_add_of_le' (Nat.one_le_of_lt hfuel)
    have hfirst : stored (Function.update mem p c) (p + 1) l p = c := by
      rw [stored_outside (.inl (Nat.lt_succ_self p)), Function.update_self]
    have hrest : stringAt (Function.update mem p c) (p + 1 + l.length) (fuel - l.length) =
        stringAt mem (p + 1 + l.length) (fuel - l.length) :=
      stringAt_congr fun a ha => Function.update_of_ne (by omega) ..
    rw [← stored_first, stringAt, hfirst, if_pos hc, ih hl (Nat.le_of_succ_le_succ hfuel), hrest,
      List.cons_append, List.length_cons, Nat.add_sub_add_right, Nat.add_assoc, Nat.add_comm 1]

theorem stringAt_isString (h : IsString mem p l) (hfuel : l.length ≤ fuel) :
    stringAt mem p fuel = l := by
  have hcells : stored mem p l = mem := by
    funext a
    by_cases ha : p ≤ a ∧ a < p + l.length
    · obtain ⟨i, rfl⟩ := Nat.exists_eq_add_of_le ha.1
      have hi : i < l.length := by omega
      rw [stored_inside hi, h.2 i hi]
    · exact stored_outside ((not_and_or.mp ha).imp not_le.mp not_lt.mp)
  have hchars : ∀ c ∈ l, c ≠ 0 := by
    intro c hc
    obtain ⟨i, hi, rfl⟩ := List.getElem_of_mem hc
    rw [← h.2 i hi]
    exact h.1.1 i hi
  have hend : mem (p + l.length) = 0 := h.1.2
  have hnone : stringAt mem (p + l.length) (fuel - l.length) = [] := by
    cases fuel - l.length with
    | zero => rfl
    | succ k => rw [stringAt, if_neg (not_not.mpr hend)]
  rw [← hcells, stringAt_stored hchars hfuel, hnone, List.append_nil]

theorem upperLoop_eq : upperLoop fuel mem p =
    (stored mem p ((stringAt mem p fuel).map toupper), p + (stringAt mem p fuel).length) := by
  induction fuel generalizing mem p with
  | zero => rw [upperLoop, stringAt, List.map_nil, stored_nil, List.length_nil, Nat.add_zero]
  | succ fuel ih =>
    have hraise : (if islower (mem p) then Function.update mem p (toupper (mem p)) else mem) =
        Function.update mem p (toupper (mem p)) := by
      split_ifs with hlower
      · rfl
      · rw [toupper, if_neg hlower, Function.update_eq_self]
    have hrest : stringAt (Function.update mem p (toupper (mem p))) (p + 1) fuel =
        stringAt mem (p + 1) fuel := stringAt_congr fun a ha => Function.update_of_ne (by omega) ..
    rw [upperLoop, stringAt]
    by_cases hp : mem p ≠ 0
    · rw [if_pos hp, if_pos hp]
      dsimp only
      rw [hraise, ih, hrest, List.map_cons, stored_first, List.length_cons, Nat.add_right_comm,
        Nat.add_assoc]
    · rw [if_neg hp, if_neg hp, List.map_nil, stored_nil, List.length_nil, Nat.add_zero]

/-- The string in place of what was written: one cell at most is left over. -/
theorem standing_split {tail : List UInt8} (hl : ∀ c ∈ l, c ≠ 0) (hlen : l.length ≤ 2 ^ 32)
    (htail : tail = [0] ∨ tail = []) : ∃ junk : List UInt8, junk.length ≤ 1 ∧
      stored mem p (l ++ tail) = stored mem p (standing mem p (l ++ tail) ++ junk) := by
  rcases htail with rfl | rfl
  · refine ⟨[0], le_rfl, ?_⟩
    rw [standing, stringAt_isString (isString_stored mem p ⟨l, hl⟩) hlen]
  · refine ⟨[], Nat.zero_le 1, ?_⟩
    have hgap : stringAt mem (p + l.length) (2 ^ 32 - l.length) =
        stringAt (stored mem p l) (p + l.length) (2 ^ 32 - l.length) :=
      stringAt_congr fun a ha => (stored_outside (.inr ha)).symm
    rw [List.append_nil, List.append_nil, standing, stringAt_stored hl hlen, ← stored_append,
      hgap, stored_stringAt]

end Strings

/-! ## The text of a conversion -/

/-- What __itoaf writes. -/
def written (value : Int32) (base flags : Nat) (width precision : Int) : List UInt8 :=
  layout value base flags width precision ++
    if width > (bodyChars value base flags precision).length then [0]
    else tailChars value base precision

def spellInt (mem : Memory) (p : Nat) (args : List Arg) (base flags : Nat)
    (width precision : Int) : Kernel (List UInt8 × List Arg) := do
  let (value, args) ← vaInt args
  pure (standing mem p (written value base flags width precision), args)

/-- The text of a conversion at `p`, in a memory that may hold anything. -/
def spellArg (mem : Memory) (p : Nat) (args : List Arg) (specifier : UInt8) (flags : Nat)
    (width precision : Int) : Kernel (List UInt8 × List Arg) :=
  if specifier = chr 'c' then do
    let (value, args) ← vaInt args
    pure ([byteOf value.toInt 0], args)
  else if specifier = chr 's' then do
    let (text, args) ← vaStr args
    pure (text.chars, args)
  else if specifier = chr 'd' ∨ specifier = chr 'i' then
    spellInt mem p args 10 flags width precision
  else if specifier = chr 'p' then do
    let (text, args) ← spellInt mem (p + 1) args 16 flags width precision
    pure (chr 'b' :: text, args)
  else if specifier = chr 'x' then spellInt mem p args 16 flags width precision
  else if specifier = chr 'X' then do
    let (text, args) ← spellInt mem p args 16 flags width precision
    pure (text.map toupper, args)
  else if specifier = chr 'o' then spellInt mem p args 8 flags width precision
  else if specifier = chr 'n' then do
    let (_, args) ← vaPtr args
    pure ([], args)
  else if specifier = percent then pure ([percent], args)
  else if specifier ∈ floats then .error (.panic "Not implemented specifier.")
  else .error (.panic "Invalid specifier.")

/-- An argument that names no place to write to and is no string longer than the address space. -/
def Plain : Arg → Prop
  | .int _ => True
  | .str text => text.chars.length ≤ 2 ^ 32
  | .ptr _ => False

/-- A call on memory that holds `text` agrees with the list: it moves `out` by what is spelled. -/
def Lays (mem : Memory) (str : Nat) (text : List UInt8) (r : Kernel (Memory × Nat × List Arg))
    (r' : Kernel (List UInt8 × List Arg)) : Prop :=
  (∃ e, r = .error e ∧ r' = .error e) ∨ ∃ l junk args, junk.length ≤ 1 ∧
    r = .ok (stored mem str (text ++ l ++ junk), str + (text ++ l).length, args) ∧
    r' = .ok (l, args)

theorem Lays.ok {mem : Memory} {str : Nat} {text : List UInt8}
    {r : Kernel (Memory × Nat × List Arg)} {r' : Kernel (List UInt8 × List Arg)}
    (l junk : List UInt8) (args : List Arg) (hjunk : junk.length ≤ 1)
    (hr : r = .ok (stored mem str (text ++ l ++ junk), str + (text ++ l).length, args))
    (hr' : r' = .ok (l, args)) : Lays mem str text r r' :=
  .inr ⟨l, junk, args, hjunk, hr, hr'⟩

theorem Lays.error {mem : Memory} {str : Nat} {text : List UInt8}
    {r : Kernel (Memory × Nat × List Arg)} {r' : Kernel (List UInt8 × List Arg)} (e : Halt)
    (hr : r = .error e) (hr' : r' = .error e) : Lays mem str text r r' := .inl ⟨e, hr, hr'⟩

section Conversions

variable {mem : Memory} {str base flags : Nat} {text junk : List UInt8} {args : List Arg}
  {value : Int32} {width precision : Int} {c : UInt8}

theorem layout_short (hbase : 1 < base) (hwidth : width < 2 ^ 31)
    (hprecision : precision < 2 ^ 31) :
    (layout value base flags width precision).length < 2 ^ 32 := by
  have hlen := layout_length value base flags width precision
  have hbody := bodyChars_length value base flags precision
  have hdigits := digitChars_length value hbase
  have hhead : (headChars value base flags).length ≤ 3 := by
    have hprefix := prefixChars_length value base flags
    have hsign := signChars_length value base
    rw [headChars, List.length_append]
    omega
  omega

/-- Cells written behind a text. -/
theorem stored_behind {l cells tail : List UInt8} (hl : ∀ c ∈ l, c ≠ 0) (hlen : l.length ≤ 2 ^ 32)
    (htail : tail = [0] ∨ tail = []) (hcells : cells = l ++ tail)
    (hjunk : junk.length ≤ cells.length) :
    ∃ junk' : List UInt8, junk'.length ≤ 1 ∧
      stored (stored mem str (text ++ junk)) (str + text.length) cells =
        stored mem str (text ++ standing mem (str + text.length) cells ++ junk') ∧
      stringAt (stored (stored mem str (text ++ junk)) (str + text.length) cells)
        (str + text.length) (2 ^ 32) = standing mem (str + text.length) cells := by
  have hstanding : standing (stored mem str text) (str + text.length) cells =
      standing mem (str + text.length) cells := by
    refine stringAt_congr fun a ha => ?_
    by_cases hin : a < str + text.length + cells.length
    · obtain ⟨i, rfl⟩ := Nat.exists_eq_add_of_le ha
      have hi : i < cells.length := by omega
      rw [stored_inside hi, stored_inside hi]
    · rw [stored_outside (.inr (not_lt.mp hin)), stored_outside (.inr ha),
        stored_outside (.inr (not_lt.mp hin))]
  obtain ⟨junk', hjunk', hsplit⟩ : ∃ junk' : List UInt8, junk'.length ≤ 1 ∧
      stored (stored mem str text) (str + text.length) (l ++ tail) = _ :=
    standing_split hl hlen htail
  rw [← hcells, hstanding] at hsplit
  refine ⟨junk', hjunk', ?_, ?_⟩
  · rw [stored_over mem hjunk, ← stored_append, hsplit, stored_append, List.append_assoc]
  · rw [stored_over mem hjunk, ← stored_append]
    exact hstanding

theorem itoaf_lays (hplaced : str + text.length ≠ 0) (hbase : base = 8 ∨ base = 10 ∨ base = 16)
    (hflags : flags &&& (flags - 1) = 0) (hwidth : width < 2 ^ 31) (hprecision : precision < 2 ^ 31)
    (hjunk : junk.length ≤ 1) :
    ∃ mem' junk', junk'.length ≤ 1 ∧
      itoaf value (stored mem str (text ++ junk)) (str + text.length) base flags width precision =
        .ok mem' ∧
      mem' = stored mem str (text ++ standing mem (str + text.length)
        (written value base flags width precision) ++ junk') ∧
      stringAt mem' (str + text.length) (2 ^ 32) =
        standing mem (str + text.length) (written value base flags width precision) := by
  have hrange : 1 < base ∧ base ≤ 16 := by omega
  have htail : (if width > (bodyChars value base flags precision).length then [0]
      else tailChars value base precision) = [(0 : UInt8)] ∨
      (if width > (bodyChars value base flags precision).length then [0]
      else tailChars value base precision) = [] := by
    unfold tailChars
    split_ifs
    · exact .inl rfl
    · exact .inr rfl
    · exact .inl rfl
  have hpos : 1 ≤ (written value base flags width precision).length := by
    have hlen := layout_length value base flags width precision
    have hbody := bodyChars_length value base flags precision
    have hdigits := List.length_pos_of_ne_nil (digitChars_ne_nil value base)
    rw [written, List.length_append]
    omega
  obtain ⟨junk', hjunk', hmem, hstring⟩ : ∃ junk' : List UInt8, junk'.length ≤ 1 ∧
      stored (stored mem str (text ++ junk)) (str + text.length)
        (written value base flags width precision) = _ ∧ _ :=
    stored_behind (layout_noNul hrange) (layout_short hrange.1 hwidth hprecision).le htail rfl
      (hjunk.trans hpos)
  exact ⟨_, junk', hjunk', itoaf_eq hplaced hbase hflags, hmem, hstring⟩

theorem end_append (str : Nat) (text l : List UInt8) :
    str + text.length + l.length = str + (text ++ l).length := by
  rw [List.length_append, Nat.add_assoc]

theorem printInt_lays (hplaced : str + text.length ≠ 0)
    (hbase : base = 8 ∨ base = 10 ∨ base = 16) (hflags : flags &&& (flags - 1) = 0)
    (hwidth : width < 2 ^ 31) (hprecision : precision < 2 ^ 31) (hjunk : junk.length ≤ 1) :
    Lays mem str text
      (printInt (stored mem str (text ++ junk)) (str + text.length) args base flags width precision)
      (spellInt mem (str + text.length) args base flags width precision) := by
  rcases vaInt_cases args with ⟨value, rest, hva, -⟩ | ⟨hva, -⟩
  · obtain ⟨mem', junk', hjunk', hcall, hmem, hstring⟩ : ∃ mem' junk', _ ∧
        itoaf value (stored mem str (text ++ junk)) (str + text.length) base flags width precision =
          .ok mem' ∧ _ := itoaf_lays hplaced hbase hflags hwidth hprecision hjunk
    refine .ok (standing mem (str + text.length) (written value base flags width precision)) junk'
      rest hjunk' ?_ ?_
    · rw [printInt, hva, ok_bind]
      dsimp only
      rw [hcall, ok_bind, strlen_stringAt hplaced, ok_bind, hstring, hmem, end_append, pure_eq_ok]
    · rw [spellInt, hva, ok_bind]
      rfl
  · refine .error (.fault "va_arg(args, int)") ?_ ?_
    · rw [printInt, hva, error_bind]
    · rw [spellInt, hva, error_bind]

/-- case 'X' -/
theorem upper_lays (hplaced : str + text.length ≠ 0) (hflags : flags &&& (flags - 1) = 0)
    (hwidth : width < 2 ^ 31) (hprecision : precision < 2 ^ 31) (hjunk : junk.length ≤ 1) :
    Lays mem str text
      (do
        let (value, args) ← vaInt args
        let mem ← itoaf value (stored mem str (text ++ junk)) (str + text.length) 16 flags width
          precision
        let (mem, out) := upper mem (str + text.length)
        pure (mem, out, args))
      (do
        let (l, args) ← spellInt mem (str + text.length) args 16 flags width precision
        pure (l.map toupper, args)) := by
  rcases vaInt_cases args with ⟨value, rest, hva, -⟩ | ⟨hva, -⟩
  · obtain ⟨mem', junk', hjunk', hcall, hmem, hstring⟩ : ∃ mem' junk', _ ∧
        itoaf value (stored mem str (text ++ junk)) (str + text.length) 16 flags width precision =
          .ok mem' ∧ _ :=
      itoaf_lays hplaced (.inr (.inr rfl)) hflags hwidth hprecision hjunk
    refine .ok ((standing mem (str + text.length)
      (written value 16 flags width precision)).map toupper) junk' rest hjunk' ?_ ?_
    · rw [hva, ok_bind]
      dsimp only
      rw [hcall, ok_bind, upper, upperLoop_eq, hstring, hmem]
      dsimp only
      rw [stored_replace mem (List.length_map _), ← end_append, List.length_map, pure_eq_ok]
    · rw [spellInt, hva, ok_bind]
      rfl
  · refine .error (.fault "va_arg(args, int)") ?_ ?_
    · rw [hva, error_bind]
    · rw [spellInt, hva, error_bind, error_bind]

/-- The forms of the arguments that are no pointers. -/
theorem plain_cases (hargs : ∀ a ∈ args, Plain a) : args = [] ∨
    (∃ value rest, args = .int value :: rest) ∨
    ∃ t rest, args = .str t :: rest ∧ t.chars.length ≤ 2 ^ 32 := by
  rcases args with _ | ⟨a, rest⟩
  · exact .inl rfl
  · have ha : Plain a := hargs a (List.mem_cons_self ..)
    cases a with
    | int value => exact .inr (.inl ⟨value, rest, rfl⟩)
    | str t => exact .inr (.inr ⟨t, rest, rfl, ha⟩)
    | ptr addr => exact ha.elim

/-- One character in place of the NUL that was left. -/
theorem stored_put (mem : Memory) (str : Nat) (text : List UInt8) (c v : UInt8) :
    Function.update (stored mem str (text ++ [c])) (str + text.length) v =
      stored mem str (text ++ [v]) := by
  rw [← stored_single, stored_over mem (show [c].length ≤ [v].length from le_rfl)]

/-- case 'c' -/
theorem char_lays (args : List Arg) (c : UInt8) : Lays mem str text
    (do
      let (value, args) ← vaInt args
      pure (Function.update (stored mem str (text ++ [c])) (str + text.length)
        (byteOf value.toInt 0), str + text.length + 1, args))
    (do
      let (value, args) ← vaInt args
      pure ([byteOf value.toInt 0], args)) := by
  rcases vaInt_cases args with ⟨value, rest, hva, -⟩ | ⟨hva, -⟩
  · rw [hva, ok_bind, ok_bind]
    dsimp only
    rw [stored_put]
    refine .ok [byteOf value.toInt 0] [] rest (Nat.zero_le 1) ?_ rfl
    rw [List.append_nil, ← end_append]
    rfl
  · rw [hva]
    exact .error _ rfl rfl

/-- case 's' -/
theorem string_lays (hplaced : str + text.length ≠ 0) (hargs : ∀ a ∈ args, Plain a)
    (hjunk : junk.length ≤ 1) : Lays mem str text
      (do
        let (t, args) ← vaStr args
        let mem ← strcpy (stored mem str (text ++ junk)) (str + text.length) t
        let len ← strlen mem (str + text.length)
        pure (mem, str + text.length + len, args))
      (do
        let (t, args) ← vaStr args
        pure (t.chars, args)) := by
  rcases plain_cases hargs with rfl | ⟨value, rest, rfl⟩ | ⟨t, rest, rfl, ht⟩
  · exact .error _ rfl rfl
  · exact .error _ rfl rfl
  · have hstanding : standing mem (str + text.length) (t.chars ++ [0]) = t.chars :=
      stringAt_isString (isString_stored mem _ t) ht
    have hpos : 1 ≤ (t.chars ++ [0]).length := by simp
    obtain ⟨junk', hjunk', hmem, hstring⟩ : ∃ junk' : List UInt8, junk'.length ≤ 1 ∧
        stored (stored mem str (text ++ junk)) (str + text.length) (t.chars ++ [0]) = _ ∧ _ :=
      stored_behind t.noNul ht (.inl rfl) rfl (hjunk.trans hpos)
    rw [hstanding] at hmem hstring
    refine .ok t.chars junk' rest hjunk' ?_ rfl
    have hva : vaStr (.str t :: rest) = .ok (t, rest) := rfl
    rw [hva, ok_bind]
    dsimp only
    rw [strcpy_eq _ hplaced, ok_bind, strlen_stringAt hplaced, ok_bind, hstring, hmem, end_append,
      pure_eq_ok]

/-- case 'p': the number stands behind a 'b'. -/
theorem pointer_lays (args : List Arg) (hflags : flags &&& (flags - 1) = 0)
    (hwidth : width < 2 ^ 31) (hprecision : precision < 2 ^ 31) (c : UInt8) : Lays mem str text
      (printInt (Function.update (stored mem str (text ++ [c])) (str + text.length) (chr 'b'))
        (str + text.length + 1) args 16 flags width precision)
      (do
        let (l, args) ← spellInt mem (str + text.length + 1) args 16 flags width precision
        pure (chr 'b' :: l, args)) := by
  have hone : str + text.length + 1 = str + (text ++ [chr 'b']).length :=
    end_append str text [chr 'b']
  have hbehind : Lays mem str (text ++ [chr 'b'])
      (printInt (stored mem str (text ++ [chr 'b'] ++ [])) (str + (text ++ [chr 'b']).length) args
        16 flags width precision) _ :=
    printInt_lays (hone ▸ Nat.succ_ne_zero _) (.inr (.inr rfl)) hflags hwidth hprecision
      (Nat.zero_le 1)
  rw [List.append_nil] at hbehind
  rw [stored_put, hone]
  rcases hbehind with ⟨e, he, he'⟩ | ⟨l, junk', rest, hjunk', hok, hok'⟩
  · refine .error e he ?_
    rw [he', error_bind]
  · have hsplit : text ++ chr 'b' :: l = text ++ [chr 'b'] ++ l := List.append_cons ..
    refine .ok (chr 'b' :: l) junk' rest hjunk' ?_ ?_
    · rw [hok, hsplit]
    · rw [hok', ok_bind]
      rfl

theorem printArg_lays (hplaced : str + text.length ≠ 0) (hflags : flags &&& (flags - 1) = 0)
    (hwidth : width < 2 ^ 31) (hprecision : precision < 2 ^ 31) (hargs : ∀ a ∈ args, Plain a)
    (c : UInt8) : Lays mem str text
      (printArg str (stored mem str (text ++ [c])) (str + text.length) args c flags width precision)
      (spellArg mem (str + text.length) args c flags width precision) := by
  have hint : ∀ base, base = 8 ∨ base = 10 ∨ base = 16 → Lays mem str text
      (printInt (stored mem str (text ++ [c])) (str + text.length) args base flags width precision)
      (spellInt mem (str + text.length) args base flags width precision) := fun base hbase =>
    printInt_lays hplaced hbase hflags hwidth hprecision le_rfl
  unfold printArg spellArg
  by_cases hc : c = chr 'c'
  · rw [if_pos hc, if_pos hc]
    exact char_lays args c
  rw [if_neg hc, if_neg hc]
  by_cases hs : c = chr 's'
  · rw [if_pos hs, if_pos hs]
    exact string_lays hplaced hargs le_rfl
  rw [if_neg hs, if_neg hs]
  by_cases hd : c = chr 'd' ∨ c = chr 'i'
  · rw [if_pos hd, if_pos hd]
    exact hint 10 (by decide)
  rw [if_neg hd, if_neg hd]
  by_cases hp : c = chr 'p'
  · rw [if_pos hp, if_pos hp]
    exact pointer_lays args hflags hwidth hprecision c
  rw [if_neg hp, if_neg hp]
  by_cases hx : c = chr 'x'
  · rw [if_pos hx, if_pos hx]
    exact hint 16 (by decide)
  rw [if_neg hx, if_neg hx]
  by_cases hX : c = chr 'X'
  · rw [if_pos hX, if_pos hX]
    exact upper_lays hplaced hflags hwidth hprecision le_rfl
  rw [if_neg hX, if_neg hX]
  by_cases ho : c = chr 'o'
  · rw [if_pos ho, if_pos ho]
    exact hint 8 (by decide)
  rw [if_neg ho, if_neg ho]
  by_cases hn : c = chr 'n'
  · rw [if_pos hn, if_pos hn]
    rcases plain_cases hargs with rfl | ⟨value, rest, rfl⟩ | ⟨t, rest, rfl, -⟩
    · exact .error _ rfl rfl
    · exact .error _ rfl rfl
    · exact .error _ rfl rfl
  rw [if_neg hn, if_neg hn]
  by_cases hpercent : c = percent
  · rw [if_pos hpercent, if_pos hpercent, hpercent]
    refine .ok [percent] [] args (Nat.zero_le 1) ?_ rfl
    rw [List.append_nil, ← end_append]
    rfl
  rw [if_neg hpercent, if_neg hpercent]
  by_cases hfloat : c ∈ floats
  · rw [if_pos hfloat, if_pos hfloat]
    exact .error _ rfl rfl
  · rw [if_neg hfloat, if_neg hfloat]
    exact .error _ rfl rfl

end Conversions

/-! ## The formatter -/

/-- A text that is being spelled, and the conversion it is in. -/
structure Draft where
  text : List UInt8
  args : List Arg
  escape : Nat := 0
  flags : Nat := 0
  width : Int := 0
  precision : Int := -1
  toPrecision : Bool := false
  bad : Bool := false

def Draft.setNumber (d : Draft) (value : Int) : Draft :=
  if d.toPrecision then { d with precision := value } else { d with width := value }

/-- One part of the format string, in the state `e` it leads to. -/
def spellPart (mem : Memory) (str : Nat) (d : Draft) (c : UInt8) (input : List UInt8) (e : Nat) :
    Kernel Draft :=
  if d.escape = 0 then
    pure (if c = percent then { d with escape := e } else { d with text := d.text ++ [c] })
  else if fmtClass c = fmtSpecifier then do
    let (l, args) ←
      spellArg mem (str + d.text.length) d.args c d.flags d.width d.precision
    pure { text := d.text ++ l, args := args }
  else if c = asterisk then do
    let (value, args) ← vaInt d.args
    pure (({ d with args := args, escape := e }).setNumber value.toInt)
  else if e = 2 then pure { d with escape := e, flags := d.flags ||| flagOf c }
  else if isdigit c then pure (({ d with escape := e }).setNumber (atoi (c :: input)))
  else if fmtClass c = fmtPrecision then pure { d with escape := e, toPrecision := true }
  else pure { d with escape := e }

/-- A character that cannot be there ends the text. -/
def spellStep (mem : Memory) (str : Nat) (d : Draft) (c : UInt8) (input : List UInt8) :
    Kernel (Draft × List UInt8) :=
  match next d.escape c input with
  | none => pure ({ d with bad := true }, input)
  | some (e, input') => do
    let d ← spellPart mem str d c input e
    pure (d, input')

def spellLoop (mem : Memory) (str : Nat) : Nat → Draft → List UInt8 → Kernel Draft
  | 0, d, _ => pure d
  | _ + 1, d, [] => pure d
  | rounds + 1, d, c :: input =>
    if d.bad then pure d
    else do
      let (d, input) ← spellStep mem str d c input
      spellLoop mem str rounds d input

/-- The text of a format string at `str`. -/
def spell (mem : Memory) (str : Nat) (fmt : Text) (args : List Arg) : Kernel Draft :=
  spellLoop mem str fmt.chars.length { text := [], args := args } fmt.chars

/-- The locals of vsprintf that stand for a draft. -/
def Draft.vars (d : Draft) (mem : Memory) (str : Nat) (junk : List UInt8) : Vars where
  mem := stored mem str (d.text ++ junk)
  out := str + d.text.length
  args := d.args
  escape := d.escape
  flags := d.flags
  width := d.width
  precision := d.precision
  toPrecision := d.toPrecision
  bad := d.bad

/-- Numbers are ints, and arguments are plain. -/
structure Draft.Sized (d : Draft) : Prop where
  width : d.width < 2 ^ 31
  precision : d.precision < 2 ^ 31
  args : ∀ a ∈ d.args, Plain a

/-- A round on memory agrees with one on the text. -/
def Agrees (mem : Memory) (str : Nat) (r : Kernel (Vars × List UInt8))
    (r' : Kernel (Draft × List UInt8)) : Prop :=
  (∃ e, r = .error e ∧ r' = .error e) ∨
  (∃ (d : Draft) (junk input : List UInt8), junk.length ≤ 1 ∧
    r = .ok (d.vars mem str junk, input) ∧ r' = .ok (d, input) ∧ d.Sized ∧ d.bad = false) ∨
  ∃ (d : Draft) (junk input : List UInt8) (escape : Nat), junk.length ≤ 1 ∧
    r = .ok ({ d.vars mem str junk with escape := escape, bad := true }, input) ∧
    r' = .ok ({ d with bad := true }, input)

theorem Agrees.ok {mem : Memory} {str : Nat} {r : Kernel (Vars × List UInt8)}
    {r' : Kernel (Draft × List UInt8)} (d : Draft) (junk input : List UInt8)
    (hjunk : junk.length ≤ 1) (hr : r = .ok (d.vars mem str junk, input))
    (hr' : r' = .ok (d, input)) (hd : d.Sized) (hgood : d.bad = false) : Agrees mem str r r' :=
  .inr (.inl ⟨d, junk, input, hjunk, hr, hr', hd, hgood⟩)

theorem Agrees.bad {mem : Memory} {str : Nat} {r : Kernel (Vars × List UInt8)}
    {r' : Kernel (Draft × List UInt8)} (d : Draft) (junk input : List UInt8) (escape : Nat)
    (hjunk : junk.length ≤ 1)
    (hr : r = .ok ({ d.vars mem str junk with escape := escape, bad := true }, input))
    (hr' : r' = .ok ({ d with bad := true }, input)) : Agrees mem str r r' :=
  .inr (.inr ⟨d, junk, input, escape, hjunk, hr, hr'⟩)

section Rounds

variable {mem : Memory} {str : Nat} {d : Draft} {c : UInt8} {input : List UInt8}

theorem wrap_lt (x : Int) : wrap x < 2 ^ 31 := by
  simp only [wrap]
  omega

theorem atoi_lt (l : List UInt8) : atoi l < 2 ^ 31 := by
  have hloop : ∀ (p : List UInt8) (v : Int), v < 2 ^ 31 → atoiLoop v p < 2 ^ 31 := by
    intro p
    induction p with
    | nil => exact fun v hv => hv
    | cons c p ih =>
      intro v hv
      rw [atoiLoop]
      split_ifs
      · exact ih _ (wrap_lt _)
      · exact hv
  rw [atoi, atoiSign]
  by_cases hnegative : (l.dropWhile isspace).head? = some minus ∧
      atoiLoop 0 (if (l.dropWhile isspace).head? = some plus ∨
        (l.dropWhile isspace).head? = some minus then (l.dropWhile isspace).tail
        else l.dropWhile isspace) ≠ -2 ^ 31
  · rw [if_pos hnegative]
    exact wrap_lt _
  · rw [if_neg hnegative]
    exact hloop _ 0 (by decide)

theorem setNumber_vars (d : Draft) (v : Int) (junk : List UInt8) :
    (d.vars mem str junk).setNumber v = (d.setNumber v).vars mem str junk := by
  unfold Vars.setNumber Draft.setNumber
  by_cases h : d.toPrecision = true
  · have hvars : (d.vars mem str junk).toPrecision = true := h
    rw [if_pos h, if_pos hvars]
    rfl
  · have hvars : ¬(d.vars mem str junk).toPrecision = true := h
    rw [if_neg h, if_neg hvars]
    rfl

theorem Draft.Sized.setNumber (h : d.Sized) {v : Int} (hv : v < 2 ^ 31) :
    (d.setNumber v).Sized := by
  unfold Draft.setNumber
  split_ifs
  · exact ⟨h.width, hv, h.args⟩
  · exact ⟨hv, h.precision, h.args⟩

/-- Between two conversions. -/
theorem sized_fresh {text : List UInt8} {args : List Arg} (hargs : ∀ a ∈ args, Plain a) :
    Draft.Sized { text := text, args := args } where
  width := show (0 : Int) < 2 ^ 31 by decide
  precision := show (-1 : Int) < 2 ^ 31 by decide
  args := hargs

theorem takes_plain {kinds : List Kind} {args rest : List Arg} (h : Takes kinds args rest)
    (hargs : ∀ a ∈ args, Plain a) : ∀ a ∈ rest, Plain a := by
  obtain ⟨used, rfl, -⟩ := h
  exact fun a ha => hargs a (List.mem_append_right used ha)

theorem spellStep_none (h : next d.escape c input = none) :
    spellStep mem str d c input = .ok ({ d with bad := true }, input) := by
  rw [spellStep, h]
  rfl

theorem spellStep_some {e : Nat} {input' : List UInt8}
    (h : next d.escape c input = some (e, input')) : spellStep mem str d c input =
      spellPart mem str d c input e >>= fun d => .ok (d, input') := by
  rw [spellStep, h]
  rfl

theorem setNumber_bad (d : Draft) (v : Int) : (d.setNumber v).bad = d.bad := by
  unfold Draft.setNumber
  split_ifs
  · rfl
  · rfl

theorem stepNumber_agrees (hd : d.Sized) (hgood : d.bad = false) (hpos : d.escape ≠ 0)
    (hc : c = asterisk ∨ isdigit c = true)
    (hflag : ¬(d.escape = 1 ∧ fmtClass c = fmtFlags)) :
    Agrees mem str (stepNumber (d.vars mem str [c]) c input) (spellStep mem str d c input) := by
  obtain ⟨hpoint, hlength, hspec⟩ := fmtClass_low_ne hc
  by_cases hlow : d.escape ≤ 3
  · have hgo : max (d.vars mem str [c]).escape 2 = 2 ∨ max (d.vars mem str [c]).escape 2 = 3 := by
      show max d.escape 2 = 2 ∨ max d.escape 2 = 3
      omega
    have hlate : max d.escape 2 + 1 ≠ 2 := by omega
    rw [stepNumber, if_pos hgo]
    dsimp only
    by_cases hstar : c = asterisk
    · have hnext : next d.escape c input = some (max d.escape 2 + 1, input) := by
        rw [next, if_neg hpos, if_neg hflag, if_pos ⟨hlow, hstar⟩]
      rw [spellStep_some hnext, spellPart, if_neg hpos, if_neg hspec, if_pos hstar, if_pos hstar]
      have hargs : (d.vars mem str [c]).args = d.args := rfl
      rw [hargs]
      rcases vaInt_cases d.args with ⟨value, rest, hva, htakes⟩ | ⟨hva, -⟩
      · rw [hva]
        refine .ok (({ d with args := rest, escape := max d.escape 2 + 1 }).setNumber value.toInt)
          [c] input le_rfl ?_ rfl ?_ ?_
        · rw [← setNumber_vars]
          rfl
        · have hsized : Draft.Sized { d with args := rest, escape := max d.escape 2 + 1 } :=
            ⟨hd.width, hd.precision, takes_plain htakes hd.args⟩
          exact hsized.setNumber value.toInt_lt
        · rw [setNumber_bad, hgood]
      · rw [hva]
        exact .inl ⟨_, rfl, rfl⟩
    · have hdigit := hc.resolve_left hstar
      have hnext : next d.escape c input =
          some (max d.escape 2 + 1, input.dropWhile isdigit) := by
        rw [next, if_neg hpos, if_neg hflag, if_neg (fun h => hstar h.2), if_pos ⟨hlow, hdigit⟩]
      rw [spellStep_some hnext, spellPart, if_neg hpos, if_neg hspec, if_neg hstar, if_neg hstar,
        if_neg hlate, if_pos hdigit]
      refine .ok (({ d with escape := max d.escape 2 + 1 }).setNumber (atoi (c :: input))) [c]
        (input.dropWhile isdigit) le_rfl ?_ rfl ?_ ?_
      · rw [← setNumber_vars]
        rfl
      · have hsized : Draft.Sized { d with escape := max d.escape 2 + 1 } :=
          ⟨hd.width, hd.precision, hd.args⟩
        exact hsized.setNumber (atoi_lt _)
      · rw [setNumber_bad, hgood]
  · have hstop : ¬(max (d.vars mem str [c]).escape 2 = 2 ∨
        max (d.vars mem str [c]).escape 2 = 3) := by
      show ¬(max d.escape 2 = 2 ∨ max d.escape 2 = 3)
      omega
    rw [stepNumber, if_neg hstop]
    refine .bad d [c] input (max d.escape 2) le_rfl rfl (spellStep_none ?_)
    rw [next, if_neg hpos, if_neg hflag, if_neg (fun h => hlow h.1), if_neg (fun h => hlow h.1),
      if_neg (fun h => hlow h.1), if_neg (fun h => hlength h.2), if_neg hspec]

/-- A round that does not fail, against the automaton. -/
theorem interpret_next {s s' : Vars} {input' : List UInt8} (h : Ready s)
    (hok : interpret str s c input = .ok (s', input')) : next s.escape c input =
      if s'.bad = true then none else some (s'.escape, input') := by
  rcases interpret_cases h with ⟨t, input'', ht, hadv⟩ | ⟨t, ht, hbad, hnone⟩ | ⟨e, he, -⟩
  · obtain ⟨rfl, rfl⟩ := Prod.mk.inj (Except.ok.inj (ht.symm.trans hok))
    rw [hadv.ready.good, if_neg Bool.false_ne_true, hadv.next]
  · obtain ⟨rfl, rfl⟩ := Prod.mk.inj (Except.ok.inj (ht.symm.trans hok))
    rw [if_pos hbad, hnone]
  · exact absurd (he.symm.trans hok) (by simp)

theorem interpret_agrees_bad (h : Ready (d.vars mem str [c])) (escape : Nat)
    (hok : interpret str (d.vars mem str [c]) c input =
      .ok ({ d.vars mem str [c] with escape := escape, bad := true }, input)) :
    Agrees mem str (interpret str (d.vars mem str [c]) c input) (spellStep mem str d c input) := by
  have hnext : next d.escape c input = none := interpret_next h hok
  exact .bad d [c] input escape le_rfl hok (spellStep_none hnext)

theorem interpret_agrees_ok (h : Ready (d.vars mem str [c])) (d' : Draft) (junk input' : List UInt8)
    (hjunk : junk.length ≤ 1)
    (hok : interpret str (d.vars mem str [c]) c input = .ok (d'.vars mem str junk, input'))
    (hpart : spellPart mem str d c input d'.escape = .ok d') (hd : d'.Sized)
    (hgood : d'.bad = false) :
    Agrees mem str (interpret str (d.vars mem str [c]) c input) (spellStep mem str d c input) := by
  have hnext : next d.escape c input = some (d'.escape, input') := by
    have hread : next d.escape c input =
        if d'.bad = true then none else some (d'.escape, input') := interpret_next h hok
    rw [hread, hgood, if_neg Bool.false_ne_true]
  refine .ok d' junk input' hjunk hok ?_ hd hgood
  rw [spellStep_some hnext, hpart, ok_bind]

theorem interpret_agrees_text (h : Ready (d.vars mem str [c])) (hd : d.Sized)
    (hgood : d.bad = false) (hzero : d.escape = 0) :
    Agrees mem str (interpret str (d.vars mem str [c]) c input) (spellStep mem str d c input) := by
  have hzero' : (d.vars mem str [c]).escape = 0 := hzero
  by_cases hc : c = percent
  · refine interpret_agrees_ok h { d with escape := 1 } [c] input le_rfl ?_ ?_
      ⟨hd.width, hd.precision, hd.args⟩ hgood
    · rw [interpret, if_pos hzero', if_pos hc]
      rfl
    · rw [spellPart, if_pos hzero, if_pos hc]
      rfl
  · refine interpret_agrees_ok h { d with text := d.text ++ [c] } [] input (Nat.zero_le 1) ?_ ?_
      ⟨hd.width, hd.precision, hd.args⟩ hgood
    · rw [interpret, if_pos hzero', if_neg hc, Draft.vars, Draft.vars, List.append_nil,
        ← end_append]
      rfl
    · rw [spellPart, if_pos hzero, if_neg hc]
      rfl

theorem interpret_agrees_flags (h : Ready (d.vars mem str [c])) (hd : d.Sized)
    (hgood : d.bad = false) (hpos : d.escape ≠ 0) (hc : fmtClass c = fmtFlags) :
    Agrees mem str (interpret str (d.vars mem str [c]) c input) (spellStep mem str d c input) := by
  obtain ⟨hstar, hdigit⟩ := flagChars_cases c (fmtClass_flags hc)
  have hpos' : (d.vars mem str [c]).escape ≠ 0 := hpos
  by_cases hone : d.escape = 1
  · have hone' : (d.vars mem str [c]).escape = 1 := hone
    refine interpret_agrees_ok h { d with escape := 2, flags := d.flags ||| flagOf c } [c] input
      le_rfl ?_ ?_ ⟨hd.width, hd.precision, hd.args⟩ hgood
    · rw [interpret_flags_eq hpos' hc, if_pos hone']
      rfl
    · rw [spellPart, if_neg hpos, hc, if_neg (by decide), if_neg hstar, if_pos rfl]
      rfl
  have hone' : (d.vars mem str [c]).escape ≠ 1 := hone
  by_cases hzero : ((d.vars mem str [c]).escape = 2 ∨ (d.vars mem str [c]).escape = 3) ∧ c = zero
  · rw [interpret_flags_eq hpos' hc, if_neg hone', if_pos hzero]
    exact stepNumber_agrees hd hgood hpos (.inr (hdigit.mpr hzero.2)) fun hand => hone hand.1
  · refine interpret_agrees_bad h d.escape ?_
    rw [interpret_flags_eq hpos' hc, if_neg hone', if_neg hzero]
    rfl

theorem interpret_agrees_precision (h : Ready (d.vars mem str [c])) (hd : d.Sized)
    (hgood : d.bad = false) (hpos : d.escape ≠ 0) (hc : fmtClass c = fmtPrecision) :
    Agrees mem str (interpret str (d.vars mem str [c]) c input) (spellStep mem str d c input) := by
  obtain ⟨hstar, hdigit⟩ := fmtClass_high (c := c) (by rw [hc]; decide)
  have hpos' : (d.vars mem str [c]).escape ≠ 0 := hpos
  by_cases hlow : max (d.vars mem str [c]).escape 3 = 3
  · have hlate : max d.escape 3 ≠ 2 := by omega
    refine interpret_agrees_ok h { d with escape := max d.escape 3, toPrecision := true } [c] input
      le_rfl ?_ ?_ ⟨hd.width, hd.precision, hd.args⟩ hgood
    · rw [interpret_precision_eq hpos' hc, if_pos hlow]
      rfl
    · rw [spellPart, if_neg hpos, hc, if_neg (by decide), if_neg hstar, if_neg hlate, hdigit,
        if_neg Bool.false_ne_true, if_pos rfl]
      rfl
  · refine interpret_agrees_bad h (max d.escape 3) ?_
    rw [interpret_precision_eq hpos' hc, if_neg hlow]
    rfl

theorem interpret_agrees_length (h : Ready (d.vars mem str [c])) (hd : d.Sized)
    (hgood : d.bad = false) (hpos : d.escape ≠ 0) (hc : fmtClass c = fmtLength) :
    Agrees mem str (interpret str (d.vars mem str [c]) c input) (spellStep mem str d c input) := by
  obtain ⟨hstar, hdigit⟩ := fmtClass_high (c := c) (by rw [hc]; decide)
  have hpos' : (d.vars mem str [c]).escape ≠ 0 := hpos
  by_cases hlow : max (d.vars mem str [c]).escape 4 = 4
  · have hlate : 5 ≠ 2 := by decide
    refine interpret_agrees_ok h { d with escape := 5 } [c]
      (input.dropWhile fun c => fmtClass c = fmtLength) le_rfl ?_ ?_
      ⟨hd.width, hd.precision, hd.args⟩ hgood
    · rw [interpret_letter_eq hpos' hc, if_pos hlow]
      rfl
    · rw [spellPart, if_neg hpos, hc, if_neg (by decide), if_neg hstar, if_neg hlate, hdigit,
        if_neg Bool.false_ne_true, if_neg (by decide)]
      rfl
  · refine interpret_agrees_bad h (max d.escape 4) ?_
    rw [interpret_letter_eq hpos' hc, if_neg hlow]
    rfl

theorem interpret_agrees_specifier (h : Ready (d.vars mem str [c])) (hd : d.Sized)
    (hpos : d.escape ≠ 0) (hc : fmtClass c = fmtSpecifier) :
    Agrees mem str (interpret str (d.vars mem str [c]) c input) (spellStep mem str d c input) := by
  obtain ⟨hstar, hdigit⟩ := fmtClass_high (c := c) (by rw [hc]; decide)
  have hpos' : (d.vars mem str [c]).escape ≠ 0 := hpos
  have hflags : d.flags &&& (d.flags - 1) = 0 := h.oneFlag
  have hplaced : str + d.text.length ≠ 0 := h.placed
  have hcall : interpret str (d.vars mem str [c]) c input =
      printArg str (stored mem str (d.text ++ [c])) (str + d.text.length) d.args c d.flags d.width
        d.precision >>= fun r => .ok ({ mem := r.1, out := r.2.1, args := r.2.2 }, input) :=
    interpret_specifier_eq hpos' h.bound hc
  have hpart : spellPart mem str d c input 0 =
      spellArg mem (str + d.text.length) d.args c d.flags d.width d.precision >>= fun r =>
        .ok { text := d.text ++ r.1, args := r.2 } := by
    rw [spellPart, if_neg hpos, if_pos hc]
    rfl
  have hlays : Lays mem str d.text _ _ := printArg_lays hplaced hflags hd.width hd.precision hd.args c
  rcases hlays with ⟨e, he, he'⟩ | ⟨l, junk, rest, hjunk, hok, hok'⟩
  · refine .inl ⟨e, ?_, ?_⟩
    · rw [hcall, he, error_bind]
    · rw [spellStep_some (next_specifier hpos hc), hpart, he', error_bind, error_bind]
  · have hplain : ∀ a ∈ rest, Plain a := by
      rcases printArg_cases hplaced hstar hflags with ⟨mem', out', rest', hcases, -, -, htakes⟩ | ⟨e, he, -⟩
      · rw [hok] at hcases
        obtain ⟨-, hrest⟩ := Prod.mk.inj (Prod.mk.inj (Except.ok.inj hcases)).2
        exact takes_plain (hrest ▸ htakes) hd.args
      · rw [hok] at he
        cases he
    refine interpret_agrees_ok h { text := d.text ++ l, args := rest } junk input hjunk ?_ ?_
      (sized_fresh hplain) rfl
    · rw [hcall, hok, ok_bind]
      rfl
    · rw [hpart, hok', ok_bind]

theorem interpret_agrees (h : Ready (d.vars mem str [c])) (hd : d.Sized) (hgood : d.bad = false) :
    Agrees mem str (interpret str (d.vars mem str [c]) c input) (spellStep mem str d c input) := by
  by_cases hzero : d.escape = 0
  · exact interpret_agrees_text h hd hgood hzero
  have hzero' : (d.vars mem str [c]).escape ≠ 0 := hzero
  by_cases hflags : fmtClass c = fmtFlags
  · exact interpret_agrees_flags h hd hgood hzero hflags
  by_cases hnumber : fmtClass c = fmtNumber
  · rw [interpret_number_eq hzero' hnumber]
    exact stepNumber_agrees hd hgood hzero (fmtClass_number hnumber) fun hand => hflags hand.2
  by_cases hprecision : fmtClass c = fmtPrecision
  · exact interpret_agrees_precision h hd hgood hzero hprecision
  by_cases hlength : fmtClass c = fmtLength
  · exact interpret_agrees_length h hd hgood hzero hlength
  by_cases hspecifier : fmtClass c = fmtSpecifier
  · exact interpret_agrees_specifier h hd hzero hspecifier
  · refine interpret_agrees_bad h d.escape ?_
    rw [interpret_other_eq hzero' hflags hnumber hprecision hlength hspecifier]
    rfl

/-- `*out = *(in++);` takes the place of what was left behind the text. -/
theorem vars_put {junk : List UInt8} (hjunk : junk.length ≤ 1) (c : UInt8) :
    { d.vars mem str junk with
      mem := Function.update (d.vars mem str junk).mem (d.vars mem str junk).out c } =
      d.vars mem str [c] := by
  have hcell : Function.update (d.vars mem str junk).mem (d.vars mem str junk).out c =
      stored mem str (d.text ++ [c]) := by
    rw [← stored_single]
    exact stored_over mem hjunk
  rw [hcell]
  rfl

end Rounds

/-! ## The whole text -/

/-- Memory holds the text of a draft, up to what the last round left behind it. -/
def Accords (mem : Memory) (str : Nat) (r : Kernel Vars) (r' : Kernel Draft) : Prop :=
  (∃ e, r = .error e ∧ r' = .error e) ∨
  ∃ (d : Draft) (junk : List UInt8) (escape : Nat), junk.length ≤ 1 ∧
    r = .ok { d.vars mem str junk with escape := escape } ∧ r' = .ok d

section Run

variable {mem : Memory} {str n : Nat} {d : Draft} {junk input : List UInt8}

theorem spellLoop_bad (h : d.bad = true) : spellLoop mem str n d input = .ok d := by
  cases n with
  | zero => rfl
  | succ n =>
    cases input with
    | nil => rfl
    | cons c input => exact if_pos h

/-- By induction on the rounds; a round that goes well is ready for the next one. -/
theorem loop_accords (hs : Ready (d.vars mem str junk)) (hd : d.Sized) (hjunk : junk.length ≤ 1) :
    Accords mem str (loop str n (d.vars mem str junk) input) (spellLoop mem str n d input) := by
  induction n generalizing d junk input with
  | zero => exact .inr ⟨d, junk, d.escape, hjunk, rfl, rfl⟩
  | succ n ih =>
    cases input with
    | nil => exact .inr ⟨d, junk, d.escape, hjunk, rfl, rfl⟩
    | cons c input =>
      have hgood : d.bad = false := hs.good
      have hready : Ready (d.vars mem str [c]) := ⟨hs.good, hs.bound, hs.oneFlag, hs.fresh, hs.placed⟩
      have hloop : loop str (n + 1) (d.vars mem str junk) (c :: input) =
          interpret str (d.vars mem str [c]) c input >>= fun r => loop str n r.1 r.2 := by
        rw [loop, hs.good, if_neg Bool.false_ne_true, step, vars_put hjunk]
      have hspell : spellLoop mem str (n + 1) d (c :: input) =
          spellStep mem str d c input >>= fun r => spellLoop mem str n r.1 r.2 := by
        rw [spellLoop, hgood, if_neg Bool.false_ne_true]
      rw [hloop, hspell]
      rcases interpret_agrees hready hd hgood with ⟨e, he, he'⟩ |
        ⟨d', junk', input', hjunk', hok, hok', hd', hgood'⟩ |
        ⟨d', junk', input', escape, hjunk', hok, hok'⟩
      · exact .inl ⟨e, by rw [he, error_bind], by rw [he', error_bind]⟩
      · have hready' : Ready (d'.vars mem str junk') := by
          rcases interpret_cases hready with ⟨s', input'', hs', hadv⟩ | ⟨s', hs', hbad, -⟩ |
            ⟨e, he, -⟩
          · rw [hok] at hs'
            obtain ⟨rfl, -⟩ := Prod.mk.inj (Except.ok.inj hs')
            exact hadv.ready
          · rw [hok] at hs'
            obtain ⟨rfl, -⟩ := Prod.mk.inj (Except.ok.inj hs')
            exact absurd (hgood'.symm.trans hbad) Bool.false_ne_true
          · rw [hok] at he
            cases he
        rw [hok, hok', ok_bind, ok_bind]
        exact ih hready' hd' hjunk'
      · rw [hok, hok', ok_bind, ok_bind, loop_bad rfl, spellLoop_bad rfl]
        exact .inr ⟨{ d' with bad := true }, junk', escape, hjunk', rfl, rfl⟩

/-- The loop of vsprintf, and the text. -/
theorem loop_lays {fmt : Text} {args : List Arg} (hstr : str ≠ 0) (hargs : ∀ a ∈ args, Plain a) :
    Accords mem str (loop str fmt.chars.length (enter mem str args) fmt.chars)
      (spell mem str fmt args) := by
  have hstart : enter mem str args = ({ text := [], args := args } : Draft).vars mem str [] := by
    rw [enter, Draft.vars]
    exact congrArg (fun m => ({ mem := m, out := str, args := args } : Vars)) stored_nil.symm
  have hready := enter_ready mem hstr args
  rw [hstart] at hready ⊢
  exact loop_accords hready (sized_fresh hargs) (Nat.zero_le 1)

/-- vsprintf lays the text and a NUL, and fails where the text cannot be spelled. -/
theorem vsprintf_lays {fmt : Text} {args : List Arg} (hstr : str ≠ 0)
    (hargs : ∀ a ∈ args, Plain a) :
    vsprintf mem str fmt args = spell mem str fmt args >>= fun d =>
      .ok (stored mem str (d.text ++ [0]), if d.bad then -1 else (d.text.length : Int),
        d.args) := by
  have hloop : Accords mem str (loop str fmt.chars.length (enter mem str args) fmt.chars)
      (spell mem str fmt args) := loop_lays hstr hargs
  rw [vsprintf_eq hstr]
  rcases hloop with ⟨e, he, he'⟩ | ⟨d, junk, escape, hjunk, hok, hok'⟩
  · rw [he, he', error_bind, error_bind]
  · have hnul : Function.update (stored mem str (d.text ++ junk)) (str + d.text.length) 0 =
        stored mem str (d.text ++ [0]) := by
      rw [← stored_single]
      exact stored_over mem hjunk
    have hlen : ((str + d.text.length : Nat) : Int) - str = d.text.length := by omega
    rw [hok, hok', ok_bind, ok_bind]
    show Except.ok (Function.update (stored mem str (d.text ++ junk)) (str + d.text.length) 0,
      if d.bad then -1 else ((str + d.text.length : Nat) : Int) - str, d.args) = _
    rw [hnul, hlen]

end Run

/-! ## What the text depends on -/

section Frame

variable {mem mem' : Memory} {str p hi base flags e n : Nat} {args rest : List Arg} {c : UInt8}
  {l cells input input' : List UInt8} {d d' : Draft} {width precision : Int}

/-- Two memories hold the same from `p` up to `hi`. -/
def SameUpTo (mem mem' : Memory) (p hi : Nat) : Prop := ∀ a, p ≤ a → a < hi → mem' a = mem a

theorem SameUpTo.later {q : Nat} (h : SameUpTo mem mem' p hi) (hq : p ≤ q) :
    SameUpTo mem mem' q hi := fun a ha => h a (hq.trans ha)

/-- A string that ends before `hi` is the same in both. -/
theorem stringAt_frame {fuel : Nat} (h : SameUpTo mem mem' p hi)
    (hend : p + (stringAt mem p fuel).length < hi) :
    stringAt mem' p fuel = stringAt mem p fuel := by
  induction fuel generalizing p with
  | zero => rfl
  | succ fuel ih =>
    have hcell : mem' p = mem p := h p le_rfl (by omega)
    rw [stringAt] at hend
    rw [stringAt, stringAt, hcell]
    split_ifs at hend ⊢ with hp
    · rw [List.length_cons] at hend
      rw [ih (h.later (Nat.le_add_right p 1)) (by omega)]
    · rfl

theorem standing_frame (h : SameUpTo mem mem' p hi) (hend : p + (standing mem p cells).length < hi) :
    standing mem' p cells = standing mem p cells :=
  stringAt_frame (fun a ha ha' => stored_congr (h a ha ha')) hend

theorem spellInt_frame (h : SameUpTo mem mem' p hi)
    (hok : spellInt mem p args base flags width precision = .ok (l, rest))
    (hend : p + l.length < hi) : spellInt mem' p args base flags width precision = .ok (l, rest) := by
  rw [spellInt, bind_eq_ok] at hok
  obtain ⟨⟨value, rest'⟩, hva, hok⟩ := hok
  obtain ⟨rfl, rfl⟩ := Prod.mk.inj (Except.ok.inj hok)
  rw [spellInt, hva, ok_bind]
  dsimp only
  rw [standing_frame h hend, pure_eq_ok]

/-- A conversion that ends before `hi` does not depend on what stands from there on. -/
theorem spellArg_frame (h : SameUpTo mem mem' p hi)
    (hok : spellArg mem p args c flags width precision = .ok (l, rest))
    (hend : p + l.length < hi) :
    spellArg mem' p args c flags width precision = .ok (l, rest) := by
  unfold spellArg at hok ⊢
  by_cases hc : c = chr 'c'
  · rw [if_pos hc] at hok ⊢
    exact hok
  rw [if_neg hc] at hok ⊢
  by_cases hs : c = chr 's'
  · rw [if_pos hs] at hok ⊢
    exact hok
  rw [if_neg hs] at hok ⊢
  by_cases hd : c = chr 'd' ∨ c = chr 'i'
  · rw [if_pos hd] at hok ⊢
    exact spellInt_frame h hok hend
  rw [if_neg hd] at hok ⊢
  by_cases hp : c = chr 'p'
  · rw [if_pos hp, bind_eq_ok] at hok
    obtain ⟨⟨text, rest'⟩, hint, hok⟩ := hok
    obtain ⟨rfl, rfl⟩ := Prod.mk.inj (Except.ok.inj hok)
    rw [List.length_cons] at hend
    rw [if_pos hp, spellInt_frame (h.later (Nat.le_add_right p 1)) hint (by omega)]
    rfl
  rw [if_neg hp] at hok ⊢
  by_cases hx : c = chr 'x'
  · rw [if_pos hx] at hok ⊢
    exact spellInt_frame h hok hend
  rw [if_neg hx] at hok ⊢
  by_cases hX : c = chr 'X'
  · rw [if_pos hX, bind_eq_ok] at hok
    obtain ⟨⟨text, rest'⟩, hint, hok⟩ := hok
    obtain ⟨rfl, rfl⟩ := Prod.mk.inj (Except.ok.inj hok)
    rw [List.length_map] at hend
    rw [if_pos hX, spellInt_frame h hint hend]
    rfl
  rw [if_neg hX] at hok ⊢
  by_cases ho : c = chr 'o'
  · rw [if_pos ho] at hok ⊢
    exact spellInt_frame h hok hend
  · rw [if_neg ho] at hok ⊢
    exact hok

theorem setNumber_text (d : Draft) (value : Int) : (d.setNumber value).text = d.text := by
  rw [Draft.setNumber]
  split_ifs <;> rfl

/-- A part of the format string adds to the text. -/
theorem spellPart_grows (hok : spellPart mem str d c input e = .ok d') :
    d.text.length ≤ d'.text.length := by
  unfold spellPart at hok
  split_ifs at hok with hzero hpercent hspec hstar
  · obtain rfl := Except.ok.inj hok
    exact le_rfl
  · obtain rfl := Except.ok.inj hok
    exact List.length_append ▸ Nat.le_add_right ..
  · obtain ⟨⟨l, rest⟩, -, hok⟩ := bind_eq_ok.mp hok
    obtain rfl := Except.ok.inj hok
    exact List.length_append ▸ Nat.le_add_right ..
  · obtain ⟨⟨value, rest⟩, -, hok⟩ := bind_eq_ok.mp hok
    obtain rfl := Except.ok.inj hok
    rw [setNumber_text]
  · obtain rfl := Except.ok.inj hok
    exact le_rfl
  · obtain rfl := Except.ok.inj hok
    rw [setNumber_text]
  · obtain rfl := Except.ok.inj hok
    exact le_rfl
  · obtain rfl := Except.ok.inj hok
    exact le_rfl

theorem spellPart_frame (h : SameUpTo mem mem' str hi)
    (hok : spellPart mem str d c input e = .ok d') (hend : str + d'.text.length < hi) :
    spellPart mem' str d c input e = .ok d' := by
  unfold spellPart at hok ⊢
  by_cases hzero : d.escape = 0
  · rw [if_pos hzero] at hok ⊢
    exact hok
  rw [if_neg hzero] at hok ⊢
  by_cases hspec : fmtClass c = fmtSpecifier
  · rw [if_pos hspec, bind_eq_ok] at hok
    obtain ⟨⟨l, rest⟩, harg, hok⟩ := hok
    obtain rfl := Except.ok.inj hok
    rw [List.length_append] at hend
    rw [if_pos hspec, spellArg_frame (h.later (Nat.le_add_right ..)) harg (by omega)]
    rfl
  · rw [if_neg hspec] at hok ⊢
    exact hok

theorem spellStep_grows (hok : spellStep mem str d c input = .ok (d', input')) :
    d.text.length ≤ d'.text.length := by
  cases hnext : next d.escape c input with
  | none =>
    rw [spellStep_none hnext] at hok
    obtain ⟨rfl, -⟩ := Prod.mk.inj (Except.ok.inj hok)
    exact le_rfl
  | some r =>
    rw [spellStep_some hnext, bind_eq_ok] at hok
    obtain ⟨d'', hpart, hok⟩ := hok
    obtain ⟨rfl, -⟩ := Prod.mk.inj (Except.ok.inj hok)
    exact spellPart_grows hpart

theorem spellStep_frame (h : SameUpTo mem mem' str hi)
    (hok : spellStep mem str d c input = .ok (d', input')) (hend : str + d'.text.length < hi) :
    spellStep mem' str d c input = .ok (d', input') := by
  cases hnext : next d.escape c input with
  | none =>
    rw [spellStep_none hnext] at hok ⊢
    exact hok
  | some r =>
    rw [spellStep_some hnext, bind_eq_ok] at hok
    obtain ⟨d'', hpart, hok⟩ := hok
    obtain ⟨rfl, rfl⟩ := Prod.mk.inj (Except.ok.inj hok)
    rw [spellStep_some hnext, spellPart_frame h hpart hend, ok_bind]

theorem spellLoop_grows (hok : spellLoop mem str n d input = .ok d') :
    d.text.length ≤ d'.text.length := by
  induction n generalizing d input with
  | zero => exact Except.ok.inj hok ▸ le_rfl
  | succ n ih =>
    cases input with
    | nil => exact Except.ok.inj hok ▸ le_rfl
    | cons c input =>
      rw [spellLoop] at hok
      split_ifs at hok with hbad
      · exact Except.ok.inj hok ▸ le_rfl
      · obtain ⟨⟨d'', input'⟩, hstep, hok⟩ := bind_eq_ok.mp hok
        exact (spellStep_grows hstep).trans (ih hok)

/-- The text so far is the beginning of the whole, so each round ends before `hi` if the whole
does. -/
theorem spellLoop_frame (h : SameUpTo mem mem' str hi)
    (hok : spellLoop mem str n d input = .ok d') (hend : str + d'.text.length < hi) :
    spellLoop mem' str n d input = .ok d' := by
  induction n generalizing d input with
  | zero => exact hok
  | succ n ih =>
    cases input with
    | nil => exact hok
    | cons c input =>
      rw [spellLoop] at hok ⊢
      split_ifs at hok ⊢ with hbad
      · exact hok
      · obtain ⟨⟨d'', input'⟩, hstep, hok⟩ := bind_eq_ok.mp hok
        have hgrows := spellLoop_grows hok
        rw [spellStep_frame h hstep (by omega), ok_bind]
        exact ih hok

/-- A text that ends before `hi` does not depend on what stands from there on. -/
theorem spell_frame {fmt : Text} (h : SameUpTo mem mem' str hi)
    (hok : spell mem str fmt args = .ok d') (hend : str + d'.text.length < hi) :
    spell mem' str fmt args = .ok d' := spellLoop_frame h hok hend

end Frame

end RxdOs.Libk.Formatter
