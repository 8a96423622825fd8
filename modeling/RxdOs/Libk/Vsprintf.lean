/- RxdOs/Libk/Vsprintf
   source: lib/printf.c (format_table, __print_arg, vsprintf)
   digest: The format interpreter: its states, the arguments it takes and what one round does. -/

import RxdOs.Libk.Itoaf

set_option autoImplicit false
set_option relaxedAutoImplicit false

namespace RxdOs.Libk.Vsprintf

open RxdOs.Base.Assert RxdOs.Base.Int32 RxdOs.Lib.BlockCopy RxdOs.Libk.Str RxdOs.Libk.Itoa
  RxdOs.Libk.Itoaf

def chr (c : Char) : UInt8 := UInt8.ofNat c.toNat

/-- FMT_ESCAPE -/
def percent : UInt8 := chr '%'
def asterisk : UInt8 := chr '*'
def point : UInt8 := chr '.'

def fmtFlags : Nat := 1
def fmtNumber : Nat := 2
def fmtPrecision : Nat := 3
def fmtLength : Nat := 4
def fmtSpecifier : Nat := 5

/-- Rows 2 to 7 of format_table; all others are zero. -/
def formatTable : List Nat :=
  List.replicate 32 0 ++
  [1, 0, 0, 1, 0, 5, 0, 0, 0, 0, 2, 1, 0, 1, 3, 0,
   1, 2, 2, 2, 2, 2, 2, 2, 2, 2, 0, 0, 0, 0, 0, 0,
   0, 5, 0, 0, 0, 5, 5, 5, 0, 0, 0, 0, 4, 0, 0, 0,
   0, 0, 0, 0, 0, 0, 0, 0, 5, 0, 0, 0, 0, 0, 0, 0,
   0, 5, 0, 5, 5, 5, 5, 5, 4, 5, 4, 0, 4, 0, 5, 5,
   5, 0, 0, 5, 4, 5, 0, 0, 5, 0, 4, 0, 0, 0, 0, 0] ++
  List.replicate 128 0

def fmtClass (c : UInt8) : Nat := formatTable.getD c.toNat 0

/-! ## Arguments -/

/-- An argument: an int, a string, or a pointer to an int. -/
inductive Arg
  | int (value : Int32)
  | str (text : Text)
  | ptr (addr : Nat)

inductive Kind
  | int
  | str
  | ptr
  deriving DecidableEq

def Arg.kind : Arg → Kind
  | .int _ => .int
  | .str _ => .str
  | .ptr _ => .ptr

/-- `va_arg(args, int)` -/
def vaInt : List Arg → Kernel (Int32 × List Arg)
  | .int value :: args => pure (value, args)
  | _ => .error (.fault "va_arg(args, int)")

/-- `va_arg(args, char *)` -/
def vaStr : List Arg → Kernel (Text × List Arg)
  | .str text :: args => pure (text, args)
  | _ => .error (.fault "va_arg(args, char *)")

/-- `va_arg(args, int *)` -/
def vaPtr : List Arg → Kernel (Nat × List Arg)
  | .ptr addr :: args => pure (addr, args)
  | _ => .error (.fault "va_arg(args, int *)")

/-! ## __print_arg -/

/-- `out += strlen(__itoaf(va_arg(args, int), out, base, flags, width, precision));` -/
def printInt (mem : Memory) (out : Nat) (args : List Arg) (base flags : Nat)
    (width precision : Int) : Kernel (Memory × Nat × List Arg) := do
  let (value, args) ← vaInt args
  let mem ← itoaf value mem out base flags width precision
  let len ← strlen mem out
  pure (mem, out + len, args)

/-- `while (*out != '\0')`, every lower-case letter made upper case; no string is longer than the
address space. -/
def upperLoop : Nat → Memory → Nat → Memory × Nat
  | 0, mem, out => (mem, out)
  | fuel + 1, mem, out =>
    if mem out ≠ 0 then
      let mem := if islower (mem out) then Function.update mem out (toupper (mem out)) else mem
      upperLoop fuel mem (out + 1)
    else (mem, out)

def upper (mem : Memory) (out : Nat) : Memory × Nat := upperLoop (2 ^ 32) mem out

def floats : List UInt8 :=
  [chr 'f', chr 'F', chr 'e', chr 'E', chr 'g', chr 'G', chr 'a', chr 'A']

/-- __print_arg; the memory, `out` and the arguments behind it. -/
def printArg (start : Nat) (mem : Memory) (out : Nat) (args : List Arg) (specifier : UInt8)
    (flags : Nat) (width precision : Int) : Kernel (Memory × Nat × List Arg) :=
  if specifier = chr 'c' then do
    let (value, args) ← vaInt args
    pure (Function.update mem out (byteOf value.toInt 0), out + 1, args)
  else if specifier = chr 's' then do
    let (text, args) ← vaStr args
    let mem ← strcpy mem out text
    let len ← strlen mem out
    pure (mem, out + len, args)
  else if specifier = chr 'd' ∨ specifier = chr 'i' then
    printInt mem out args 10 flags width precision
  else if specifier = chr 'p' then
    printInt (Function.update mem out (chr 'b')) (out + 1) args 16 flags width precision
  else if specifier = chr 'x' then printInt mem out args 16 flags width precision
  else if specifier = chr 'X' then do
    let (value, args) ← vaInt args
    let mem ← itoaf value mem out 16 flags width precision
    let (mem, out) := upper mem out
    pure (mem, out, args)
  else if specifier = chr 'o' then printInt mem out args 8 flags width precision
  else if specifier = chr 'n' then do
    let (addr, args) ← vaPtr args
    pure (stored mem addr ((List.range 4).map (byteOf ((out : Int) - start))), out, args)
  else if specifier = percent then pure (mem, out + 1, args)
  else if specifier ∈ floats then
    .error (.panic "Not implemented specifier.")
  else .error (.panic "Invalid specifier.")

/-! ## vsprintf -/

/-- The locals of vsprintf, and the memory; `toPrecision` is
`width_or_precision == &precision`. -/
structure Vars where
  mem : Memory
  out : Nat
  args : List Arg
  escape : Nat := 0
  flags : Nat := 0
  width : Int := 0
  precision : Int := -1
  toPrecision : Bool := false
  bad : Bool := false

/-- `*width_or_precision = value;` -/
def Vars.setNumber (s : Vars) (value : Int) : Vars :=
  if s.toPrecision then { s with precision := value } else { s with width := value }

/-- The flag of a character. -/
def flagOf (c : UInt8) : Nat :=
  if c = minus then leftJust
  else if c = plus then signPlus
  else if c = space then signSpce
  else if c = chr '#' then mark
  else if c = zero then zeroPad
  else 0

/-- case FMT_NUMBER; `input` begins behind `c`. -/
def stepNumber (s : Vars) (c : UInt8) (input : List UInt8) : Kernel (Vars × List UInt8) :=
  let s := { s with escape := max s.escape 2 }
  if s.escape = 2 ∨ s.escape = 3 then
    let s := { s with escape := s.escape + 1 }
    if c = asterisk then do
      let (value, args) ← vaInt s.args
      pure (({ s with args := args }).setNumber value.toInt, input)
    else pure (s.setNumber (atoi (c :: input)), input.dropWhile isdigit)
  else pure ({ s with bad := true }, input)

/-- One round of the loop behind `*out = *(in++);`, with the input it leaves. -/
def interpret (start : Nat) (s : Vars) (c : UInt8) (input : List UInt8) :
    Kernel (Vars × List UInt8) :=
  if s.escape = 0 then
    if c = percent then pure ({ s with escape := 1 }, input)
    else pure ({ s with out := s.out + 1 }, input)
  else if fmtClass c = fmtFlags then
    if s.escape = 1 then pure ({ s with escape := 2, flags := s.flags ||| flagOf c }, input)
    -- '0' goes on as a number
    else if (s.escape = 2 ∨ s.escape = 3) ∧ c = zero then stepNumber s c input
    else pure ({ s with bad := true }, input)
  else if fmtClass c = fmtNumber then stepNumber s c input
  else if fmtClass c = fmtPrecision then
    let s := { s with escape := max s.escape 3 }
    if s.escape = 3 then pure ({ s with toPrecision := true }, input)
    else pure ({ s with bad := true }, input)
  else if fmtClass c = fmtLength then
    let s := { s with escape := max s.escape 4 }
    if s.escape = 4 then
      pure ({ s with escape := 5 }, input.dropWhile fun c => fmtClass c = fmtLength)
    else pure ({ s with bad := true }, input)
  else if fmtClass c = fmtSpecifier then
    let s := { s with escape := max s.escape 5 }
    if s.escape = 5 then do
      let (mem, out, args) ←
        printArg start s.mem s.out s.args c s.flags s.width s.precision
      pure ({ mem := mem, out := out, args := args }, input)
    else pure ({ s with bad := true }, input)
  else pure ({ s with bad := true }, input)

/-- `*out = *(in++);` and what follows it. -/
def step (start : Nat) (s : Vars) (c : UInt8) (input : List UInt8) : Kernel (Vars × List UInt8) :=
  interpret start { s with mem := Function.update s.mem s.out c } c input

/-- `while (*in != '\0' && !bad)`; every round takes a character. -/
def loop (start : Nat) : Nat → Vars → List UInt8 → Kernel Vars
  | 0, s, _ => pure s
  | _ + 1, s, [] => pure s
  | rounds + 1, s, c :: input =>
    if s.bad then pure s
    else do
      let (s, input) ← step start s c input
      loop start rounds s input

/-- vsprintf, with the memory and the arguments that are left. -/
def vsprintf (mem : Memory) (str : Nat) (fmt : Text) (args : List Arg) :
    Kernel (Memory × Int × List Arg) := do
  assert (str ≠ 0) "str != NULL"
  let s ← loop str fmt.chars.length { mem := mem, out := str, args := args } fmt.chars
  let mem := Function.update s.mem s.out 0
  pure (mem, if s.bad then -1 else (s.out : Int) - str, s.args)

/-! ## What a conversion asks for -/

/-- "-+ #0" -/
def flagChars : List UInt8 := [minus, plus, space, chr '#', zero]

def lengthChars : List UInt8 := [chr 'L', chr 'h', chr 'j', chr 'l', chr 't', chr 'z']

def specifierChars : List UInt8 :=
  [percent, chr 'A', chr 'E', chr 'F', chr 'G', chr 'X', chr 'a', chr 'c', chr 'd', chr 'e',
    chr 'f', chr 'g', chr 'i', chr 'n', chr 'o', chr 'p', chr 's', chr 'u', chr 'x']

/-- The specifiers with a case of their own that does not panic. -/
def printed : List UInt8 :=
  [chr 'c', chr 's', chr 'd', chr 'i', chr 'p', chr 'x', chr 'X', chr 'o', chr 'n', percent]

def Answered (c : UInt8) : Prop := c = asterisk ∨ c ∈ printed

/-- The argument a '*' or a specifier takes. -/
def wants (c : UInt8) : List Kind :=
  if c = chr 's' then [.str]
  else if c = chr 'n' then [.ptr]
  else if c = asterisk ∨ c ∈ [chr 'c', chr 'd', chr 'i', chr 'p', chr 'x', chr 'X', chr 'o'] then
    [.int]
  else []

/-- An error that is no failed assertion: an argument that is missing or of another type, or a
specifier that is not printed. -/
def Stops (c : UInt8) (args : List Arg) (e : Halt) : Prop :=
  (∃ what, e = .fault what ∧ ¬wants c <+: args.map Arg.kind) ∨ ∃ msg, e = .panic msg ∧ ¬Answered c

/-- A call took exactly the arguments that were wanted. -/
def Takes (kinds : List Kind) (args rest : List Arg) : Prop :=
  ∃ used, args = used ++ rest ∧ used.map Arg.kind = kinds

section Takes

variable {kinds kinds' : List Kind} {args args' rest : List Arg}

theorem takes_nil : Takes [] args args := ⟨[], rfl, rfl⟩

theorem Takes.append (h : Takes kinds args args') (h' : Takes kinds' args' rest) :
    Takes (kinds ++ kinds') args rest := by
  obtain ⟨used, rfl, hused⟩ := h
  obtain ⟨used', rfl, hused'⟩ := h'
  exact ⟨used ++ used', by rw [List.append_assoc], by rw [List.map_append, hused, hused']⟩

/-- What is wanted later is still there. -/
theorem Takes.later (h : Takes kinds args rest) (hall : kinds ++ kinds' <+: args.map Arg.kind) :
    kinds' <+: rest.map Arg.kind := by
  obtain ⟨used, rfl, rfl⟩ := h
  rw [List.map_append] at hall
  exact (List.prefix_append_right_inj _).mp hall

theorem vaInt_cases (args : List Arg) :
    (∃ value rest, vaInt args = .ok (value, rest) ∧ Takes [.int] args rest) ∨
      vaInt args = .error (.fault "va_arg(args, int)") ∧ ¬[Kind.int] <+: args.map Arg.kind := by
  rcases args with _ | ⟨arg, rest⟩
  · exact .inr ⟨rfl, by simp⟩
  · cases arg with
    | int value => exact .inl ⟨value, rest, rfl, [.int value], rfl, rfl⟩
    | str text => exact .inr ⟨rfl, by simp [Arg.kind]⟩
    | ptr addr => exact .inr ⟨rfl, by simp [Arg.kind]⟩

theorem vaStr_cases (args : List Arg) :
    (∃ text rest, vaStr args = .ok (text, rest) ∧ Takes [.str] args rest) ∨
      vaStr args = .error (.fault "va_arg(args, char *)") ∧ ¬[Kind.str] <+: args.map Arg.kind := by
  rcases args with _ | ⟨arg, rest⟩
  · exact .inr ⟨rfl, by simp⟩
  · cases arg with
    | str text => exact .inl ⟨text, rest, rfl, [.str text], rfl, rfl⟩
    | int value => exact .inr ⟨rfl, by simp [Arg.kind]⟩
    | ptr addr => exact .inr ⟨rfl, by simp [Arg.kind]⟩

theorem vaPtr_cases (args : List Arg) :
    (∃ addr rest, vaPtr args = .ok (addr, rest) ∧ Takes [.ptr] args rest) ∨
      vaPtr args = .error (.fault "va_arg(args, int *)") ∧ ¬[Kind.ptr] <+: args.map Arg.kind := by
  rcases args with _ | ⟨arg, rest⟩
  · exact .inr ⟨rfl, by simp⟩
  · cases arg with
    | ptr addr => exact .inl ⟨addr, rest, rfl, [.ptr addr], rfl, rfl⟩
    | int value => exact .inr ⟨rfl, by simp [Arg.kind]⟩
    | str text => exact .inr ⟨rfl, by simp [Arg.kind]⟩

end Takes

/-- __print_arg took what it wanted and moved on. -/
def Prints (c : UInt8) (out : Nat) (args : List Arg)
    (r : Kernel (Memory × Nat × List Arg)) : Prop :=
  ∃ mem' out' rest, r = .ok (mem', out', rest) ∧ Answered c ∧ out ≤ out' ∧
    Takes (wants c) args rest

section PrintArg

variable {mem : Memory} {start out flags base : Nat} {args : List Arg} {c : UInt8}
  {width precision : Int}

theorem upperLoop_le (fuel : Nat) (mem : Memory) (out : Nat) :
    out ≤ (upperLoop fuel mem out).2 := by
  induction fuel generalizing mem out with
  | zero => exact le_rfl
  | succ fuel ih =>
    rw [upperLoop]
    split_ifs
    · exact (Nat.le_succ out).trans (ih ..)
    · exact (Nat.le_succ out).trans (ih ..)
    · exact le_rfl

/-- With at most one flag the number is always laid out. -/
theorem printInt_cases (hout : out ≠ 0) (hbase : base = 8 ∨ base = 10 ∨ base = 16)
    (hflags : flags &&& (flags - 1) = 0) :
    (∃ mem' out' rest, printInt mem out args base flags width precision = .ok (mem', out', rest) ∧
      out ≤ out' ∧ Takes [.int] args rest) ∨
    ∃ what, printInt mem out args base flags width precision = .error (.fault what) ∧
      ¬[Kind.int] <+: args.map Arg.kind := by
  rcases vaInt_cases args with ⟨value, rest, hva, htakes⟩ | ⟨hva, hno⟩
  · obtain ⟨mem', hmem'⟩ : ∃ mem', itoaf value mem out base flags width precision = .ok mem' :=
      ⟨_, itoaf_eq hout hbase hflags⟩
    have hcall : printInt mem out args base flags width precision =
        .ok (mem', out + strlenLoop mem' out (2 ^ 32), rest) := by
      rw [printInt, hva, ok_bind]
      dsimp only
      rw [hmem', ok_bind, strlen, assert_pos hout]
      rfl
    exact .inl ⟨mem', _, rest, hcall, Nat.le_add_right .., htakes⟩
  · refine .inr ⟨"va_arg(args, int)", ?_, hno⟩
    rw [printInt, hva]
    rfl

/-- What one conversion can do. -/
theorem printArg_cases (hplaced : out ≠ 0) (hstar : c ≠ asterisk)
    (hflags : flags &&& (flags - 1) = 0) :
    Prints c out args (printArg start mem out args c flags width precision) ∨
      ∃ e, printArg start mem out args c flags width precision = .error e ∧ Stops c args e := by
  have hint : ∀ (mem : Memory) (out' base : Nat), base = 8 ∨ base = 10 ∨ base = 16 → out ≤ out' →
      Answered c → wants c = [.int] →
      Prints c out args (printInt mem out' args base flags width precision) ∨
        ∃ e, printInt mem out' args base flags width precision = .error e ∧ Stops c args e := by
    intro mem out' base hbase hout hc hwants
    have hcases : (∃ mem' out'' rest, printInt mem out' args base flags width precision =
        .ok (mem', out'', rest) ∧ out' ≤ out'' ∧ Takes [.int] args rest) ∨ _ :=
      printInt_cases (by omega) hbase hflags
    rcases hcases with ⟨mem', out'', rest, hok, hle, htakes⟩ | ⟨what, he, hno⟩
    · exact .inl ⟨mem', out'', rest, hok, hc, hout.trans hle, hwants ▸ htakes⟩
    · exact .inr ⟨_, he, .inl ⟨what, rfl, hwants ▸ hno⟩⟩
  unfold printArg
  by_cases hchar : c = chr 'c'
  · rw [if_pos hchar, hchar]
    rcases vaInt_cases args with ⟨value, rest, hva, htakes⟩ | ⟨hva, hno⟩
    · exact .inl ⟨_, _, rest, by rw [hva]; rfl, .inr (by decide), Nat.le_succ out, htakes⟩
    · exact .inr ⟨_, by rw [hva]; rfl, .inl ⟨_, rfl, hno⟩⟩
  rw [if_neg hchar]
  by_cases hstr : c = chr 's'
  · rw [if_pos hstr, hstr]
    rcases vaStr_cases args with ⟨text, rest, hva, htakes⟩ | ⟨hva, hno⟩
    · refine .inl ⟨stored mem out (text.chars ++ [0]),
        out + strlenLoop (stored mem out (text.chars ++ [0])) out (2 ^ 32), rest, ?_,
        .inr (by decide), Nat.le_add_right .., htakes⟩
      rw [hva, ok_bind]
      dsimp only
      rw [strcpy_eq mem hplaced, ok_bind, strlen, assert_pos hplaced]
      rfl
    · exact .inr ⟨_, by rw [hva]; rfl, .inl ⟨_, rfl, hno⟩⟩
  rw [if_neg hstr]
  by_cases hdec : c = chr 'd' ∨ c = chr 'i'
  · rw [if_pos hdec]
    refine hint mem out 10 (by decide) le_rfl ?_ ?_
    · rcases hdec with rfl | rfl <;> exact .inr (by decide)
    · rcases hdec with rfl | rfl <;> decide
  rw [if_neg hdec]
  by_cases hptr : c = chr 'p'
  · rw [if_pos hptr]
    exact hint _ _ 16 (by decide) (Nat.le_succ out) (.inr (hptr ▸ by decide)) (hptr ▸ by decide)
  rw [if_neg hptr]
  by_cases hhex : c = chr 'x'
  · rw [if_pos hhex]
    exact hint mem out 16 (by decide) le_rfl (.inr (hhex ▸ by decide)) (hhex ▸ by decide)
  rw [if_neg hhex]
  by_cases hupper : c = chr 'X'
  · rw [if_pos hupper, hupper]
    rcases vaInt_cases args with ⟨value, rest, hva, htakes⟩ | ⟨hva, hno⟩
    · obtain ⟨mem', hmem'⟩ : ∃ mem', itoaf value mem out 16 flags width precision = .ok mem' :=
        ⟨_, itoaf_eq hplaced (by decide) hflags⟩
      exact .inl ⟨_, _, rest, by rw [hva, ok_bind]; dsimp only; rw [hmem']; rfl, .inr (by decide),
        upperLoop_le .., htakes⟩
    · exact .inr ⟨_, by rw [hva]; rfl, .inl ⟨_, rfl, hno⟩⟩
  rw [if_neg hupper]
  by_cases hoct : c = chr 'o'
  · rw [if_pos hoct]
    exact hint mem out 8 (by decide) le_rfl (.inr (hoct ▸ by decide)) (hoct ▸ by decide)
  rw [if_neg hoct]
  by_cases hcount : c = chr 'n'
  · rw [if_pos hcount, hcount]
    rcases vaPtr_cases args with ⟨addr, rest, hva, htakes⟩ | ⟨hva, hno⟩
    · exact .inl ⟨_, _, rest, by rw [hva]; rfl, .inr (by decide), le_rfl, htakes⟩
    · exact .inr ⟨_, by rw [hva]; rfl, .inl ⟨_, rfl, hno⟩⟩
  rw [if_neg hcount]
  by_cases hpercent : c = percent
  · rw [if_pos hpercent, hpercent]
    exact .inl ⟨_, _, args, rfl, .inr (by decide), Nat.le_succ out, takes_nil⟩
  rw [if_neg hpercent]
  have hnone : ¬Answered c := by
    simp only [Answered, printed, List.mem_cons, List.not_mem_nil, or_false]
    tauto
  by_cases hfloat : c ∈ floats
  · rw [if_pos hfloat]
    exact .inr ⟨_, rfl, .inr ⟨_, rfl, hnone⟩⟩
  · rw [if_neg hfloat]
    exact .inr ⟨_, rfl, .inr ⟨_, rfl, hnone⟩⟩

end PrintArg

/-! ## One round -/

/-- The state of the automaton after a character that is not bad, and the input it goes on with. -/
def next (escape : Nat) (c : UInt8) (input : List UInt8) : Option (Nat × List UInt8) :=
  if escape = 0 then some (if c = percent then 1 else 0, input)
  else if escape = 1 ∧ fmtClass c = fmtFlags then some (2, input)
  else if escape ≤ 3 ∧ c = asterisk then some (max escape 2 + 1, input)
  else if escape ≤ 3 ∧ isdigit c then some (max escape 2 + 1, input.dropWhile isdigit)
  else if escape ≤ 3 ∧ fmtClass c = fmtPrecision then some (3, input)
  else if escape ≤ 4 ∧ fmtClass c = fmtLength then
    some (5, input.dropWhile fun c => fmtClass c = fmtLength)
  else if fmtClass c = fmtSpecifier then some (0, input)
  else none

/-- The '*' or specifier a round has read. -/
def marks (escape : Nat) (c : UInt8) : List UInt8 :=
  if escape ≠ 0 ∧ (c = asterisk ∨ fmtClass c = fmtSpecifier) then [c] else []

/-- The locals before a round: at most one flag is set, and none before the flag is read. -/
structure Ready (s : Vars) : Prop where
  good : s.bad = false
  bound : s.escape ≤ 5
  oneFlag : s.flags &&& (s.flags - 1) = 0
  fresh : s.escape ≤ 1 → s.flags = 0
  placed : s.out ≠ 0

/-- A round that went well, from the values of three locals. -/
structure Advances (escape out : Nat) (args : List Arg) (c : UInt8) (input : List UInt8) (s' : Vars)
    (input' : List UInt8) : Prop where
  next : next escape c input = some (s'.escape, input')
  ready : Ready s'
  out_le : out ≤ s'.out
  answered : ∀ m ∈ marks escape c, Answered m
  takes : Takes ((marks escape c).flatMap wants) args s'.args

/-- A round goes well, or finds a bad character, or stops at a '*' or a specifier. -/
def Outcome (escape out : Nat) (args : List Arg) (c : UInt8) (input : List UInt8)
    (r : Kernel (Vars × List UInt8)) : Prop :=
  (∃ s' input', r = .ok (s', input') ∧ Advances escape out args c input s' input') ∨
  (∃ s', r = .ok (s', input) ∧ s'.bad = true ∧ next escape c input = none) ∨
  ∃ e, r = .error e ∧ marks escape c = [c] ∧ Stops c args e

section Round

variable {c : UInt8} {input : List UInt8} {s : Vars} {start : Nat}

/-- The class of a character, from the characters of each class. -/
def classOf (c : UInt8) : Nat :=
  if c ∈ flagChars then fmtFlags
  else if c = asterisk ∨ isdigit c = true then fmtNumber
  else if c = point then fmtPrecision
  else if c ∈ lengthChars then fmtLength
  else if c ∈ specifierChars then fmtSpecifier
  else 0

theorem formatTable_eq : formatTable = (List.range 256).map fun n => classOf (UInt8.ofNat n) := by
  decide +kernel

theorem fmtClass_eq (c : UInt8) : fmtClass c = classOf c := by
  rw [fmtClass, formatTable_eq, List.getD_eq_getElem?_getD, List.getElem?_map,
    List.getElem?_range c.toNat_lt, Option.map_some, Option.getD_some, UInt8.ofNat_toNat]

theorem fmtClass_flags (hc : fmtClass c = fmtFlags) : c ∈ flagChars := by
  by_contra hno
  rw [fmtClass_eq, classOf, if_neg hno] at hc
  split_ifs at hc <;> exact absurd hc (by decide)

theorem fmtClass_number (hc : fmtClass c = fmtNumber) : c = asterisk ∨ isdigit c = true := by
  by_contra hno
  rw [fmtClass_eq, classOf, if_neg hno] at hc
  split_ifs at hc <;> exact absurd hc (by decide)

/-- A digit or '*' is a flag or a number. -/
theorem fmtClass_low (hc : c = asterisk ∨ isdigit c = true) :
    fmtClass c = fmtFlags ∨ fmtClass c = fmtNumber := by
  rw [fmtClass_eq, classOf, if_pos hc]
  split_ifs
  · exact .inl rfl
  · exact .inr rfl

theorem fmtClass_other (hflags : fmtClass c ≠ fmtFlags) (hnumber : fmtClass c ≠ fmtNumber) :
    c ≠ asterisk ∧ isdigit c = false := by
  rw [← Bool.not_eq_true, ← not_or]
  exact fun hc => (fmtClass_low hc).elim hflags hnumber

theorem fmtClass_low_ne (hc : c = asterisk ∨ isdigit c = true) :
    fmtClass c ≠ fmtPrecision ∧ fmtClass c ≠ fmtLength ∧ fmtClass c ≠ fmtSpecifier := by
  rcases fmtClass_low hc with hclass | hclass <;> rw [hclass] <;> decide

/-- A point, a length letter or a specifier is neither '*' nor a digit. -/
theorem fmtClass_high (hc : fmtNumber < fmtClass c) : c ≠ asterisk ∧ isdigit c = false := by
  refine fmtClass_other (fun hflags => ?_) hc.ne'
  rw [hflags] at hc
  exact absurd hc (by decide)

theorem flagChars_cases : ∀ c ∈ flagChars, c ≠ asterisk ∧ (isdigit c = true ↔ c = zero) :=
  List.forall_iff_forall_mem.mp (by decide)

theorem flagOf_oneFlag (c : UInt8) : flagOf c &&& (flagOf c - 1) = 0 := by
  unfold flagOf
  split_ifs <;> decide

theorem marks_none (h : c ≠ asterisk ∧ fmtClass c ≠ fmtSpecifier) (escape : Nat) :
    marks escape c = [] := if_neg fun hmark => hmark.2.elim h.1 h.2

theorem marks_star {escape : Nat} (h : escape ≠ 0) : marks escape asterisk = [asterisk] :=
  if_pos ⟨h, .inl rfl⟩

/-- A character that is neither a flag nor '*' nor a digit. -/
theorem next_other {escape : Nat} (hpos : escape ≠ 0) (hflags : fmtClass c ≠ fmtFlags)
    (hnumber : fmtClass c ≠ fmtNumber) : next escape c input =
      if escape ≤ 3 ∧ fmtClass c = fmtPrecision then some (3, input)
      else if escape ≤ 4 ∧ fmtClass c = fmtLength then
        some (5, input.dropWhile fun c => fmtClass c = fmtLength)
      else if fmtClass c = fmtSpecifier then some (0, input)
      else none := by
  obtain ⟨hstar, hdigit⟩ := fmtClass_other hflags hnumber
  rw [next, if_neg hpos, if_neg (fun hand => hflags hand.2), if_neg (fun hand => hstar hand.2),
    if_neg (fun hand => Bool.false_ne_true (hdigit ▸ hand.2))]

theorem next_precision {escape : Nat} (hpos : escape ≠ 0) (hc : fmtClass c = fmtPrecision) :
    next escape c input = if escape ≤ 3 then some (3, input) else none := by
  rw [next_other hpos (by rw [hc]; decide) (by rw [hc]; decide), hc]
  simp [fmtPrecision, fmtLength, fmtSpecifier]

theorem next_letter {escape : Nat} (hpos : escape ≠ 0) (hc : fmtClass c = fmtLength) :
    next escape c input = if escape ≤ 4 then
      some (5, input.dropWhile fun c => fmtClass c = fmtLength) else none := by
  rw [next_other hpos (by rw [hc]; decide) (by rw [hc]; decide), hc]
  simp [fmtPrecision, fmtLength, fmtSpecifier]

theorem next_specifier {escape : Nat} (hpos : escape ≠ 0) (hc : fmtClass c = fmtSpecifier) :
    next escape c input = some (0, input) := by
  rw [next_other hpos (by rw [hc]; decide) (by rw [hc]; decide), hc]
  simp [fmtPrecision, fmtLength, fmtSpecifier]

/-! The cases of the switch, one class at a time. -/

theorem interpret_flags_eq (hpos : s.escape ≠ 0) (hc : fmtClass c = fmtFlags) :
    interpret start s c input =
      if s.escape = 1 then .ok ({ s with escape := 2, flags := s.flags ||| flagOf c }, input)
      else if (s.escape = 2 ∨ s.escape = 3) ∧ c = zero then stepNumber s c input
      else .ok ({ s with bad := true }, input) := by
  rw [interpret, if_neg hpos, if_pos hc]
  rfl

theorem interpret_number_eq (hpos : s.escape ≠ 0) (hc : fmtClass c = fmtNumber) :
    interpret start s c input = stepNumber s c input := by
  rw [interpret, if_neg hpos, hc, if_neg (by decide), if_pos rfl]

theorem interpret_precision_eq (hpos : s.escape ≠ 0) (hc : fmtClass c = fmtPrecision) :
    interpret start s c input =
      if max s.escape 3 = 3 then
        .ok ({ s with escape := max s.escape 3, toPrecision := true }, input)
      else .ok ({ s with escape := max s.escape 3, bad := true }, input) := by
  rw [interpret, if_neg hpos, hc]
  rfl

theorem interpret_letter_eq (hpos : s.escape ≠ 0) (hc : fmtClass c = fmtLength) :
    interpret start s c input =
      if max s.escape 4 = 4 then
        .ok ({ s with escape := 5 }, input.dropWhile fun c => fmtClass c = fmtLength)
      else .ok ({ s with escape := max s.escape 4, bad := true }, input) := by
  rw [interpret, if_neg hpos, hc]
  rfl

theorem interpret_specifier_eq (hpos : s.escape ≠ 0) (hbound : s.escape ≤ 5)
    (hc : fmtClass c = fmtSpecifier) : interpret start s c input =
      printArg start s.mem s.out s.args c s.flags s.width s.precision >>= fun r =>
        .ok ({ mem := r.1, out := r.2.1, args := r.2.2 }, input) := by
  rw [interpret, if_neg hpos, hc]
  exact if_pos (show max s.escape 5 = 5 from Nat.max_eq_right hbound)

theorem interpret_other_eq (hpos : s.escape ≠ 0) (hflags : fmtClass c ≠ fmtFlags)
    (hnumber : fmtClass c ≠ fmtNumber) (hprecision : fmtClass c ≠ fmtPrecision)
    (hlength : fmtClass c ≠ fmtLength) (hspecifier : fmtClass c ≠ fmtSpecifier) :
    interpret start s c input = .ok ({ s with bad := true }, input) := by
  rw [interpret, if_neg hpos, if_neg hflags, if_neg hnumber, if_neg hprecision, if_neg hlength,
    if_neg hspecifier]
  rfl

theorem setNumber_ready {s : Vars} (h : Ready s) (v : Int) : Ready (s.setNumber v) := by
  unfold Vars.setNumber
  split_ifs
  · exact ⟨h.good, h.bound, h.oneFlag, h.fresh, h.placed⟩
  · exact ⟨h.good, h.bound, h.oneFlag, h.fresh, h.placed⟩

theorem setNumber_rest (s : Vars) (v : Int) : (s.setNumber v).escape = s.escape ∧
    (s.setNumber v).out = s.out ∧ (s.setNumber v).args = s.args := by
  unfold Vars.setNumber
  split_ifs
  · exact ⟨rfl, rfl, rfl⟩
  · exact ⟨rfl, rfl, rfl⟩

/-- A '*' or the first of some digits, not taken for a flag. -/
theorem stepNumber_cases (h : Ready s) (hpos : s.escape ≠ 0) (hc : c = asterisk ∨ isdigit c = true)
    (hflag : ¬(s.escape = 1 ∧ fmtClass c = fmtFlags)) :
    Outcome s.escape s.out s.args c input (stepNumber s c input) := by
  obtain ⟨-, hlength, hspec⟩ := fmtClass_low_ne hc
  by_cases hlow : s.escape ≤ 3
  · have hgo : max s.escape 2 = 2 ∨ max s.escape 2 = 3 := by omega
    have hready : ∀ args, Ready { s with escape := max s.escape 2 + 1, args := args } := fun args =>
      ⟨h.good, show max s.escape 2 + 1 ≤ 5 by omega, h.oneFlag,
        fun hle => absurd (show max s.escape 2 + 1 ≤ 1 from hle) (by omega), h.placed⟩
    by_cases hstar : c = asterisk
    · rw [hstar] at hflag hspec ⊢
      rcases vaInt_cases s.args with ⟨value, rest, hva, htakes⟩ | ⟨hva, hno⟩
      · refine .inl ⟨_, input, ?_, ?_, setNumber_ready (hready rest) value.toInt, ?_, ?_, ?_⟩
        · rw [stepNumber, if_pos hgo]
          dsimp only
          rw [if_pos rfl, hva]
          rfl
        · rw [next, if_neg hpos, if_neg hflag, if_pos ⟨hlow, rfl⟩, (setNumber_rest ..).1]
        · rw [(setNumber_rest ..).2.1]
        · rw [marks_star hpos]
          exact fun m hm => .inl (List.mem_singleton.mp hm)
        · rw [marks_star hpos, (setNumber_rest ..).2.2]
          exact htakes
      · refine .inr (.inr ⟨.fault "va_arg(args, int)", ?_, marks_star hpos, .inl ⟨_, rfl, hno⟩⟩)
        rw [stepNumber, if_pos hgo]
        dsimp only
        rw [if_pos rfl, hva]
        rfl
    · have hdigit := hc.resolve_left hstar
      have hnone := marks_none ⟨hstar, hspec⟩ s.escape
      refine .inl ⟨_, input.dropWhile isdigit, ?_, ?_, setNumber_ready (hready s.args)
        (atoi (c :: input)), ?_, ?_, ?_⟩
      · rw [stepNumber, if_pos hgo]
        dsimp only
        rw [if_neg hstar]
        rfl
      · rw [next, if_neg hpos, if_neg hflag, if_neg (fun hand => hstar hand.2),
          if_pos ⟨hlow, hdigit⟩, (setNumber_rest ..).1]
      · rw [(setNumber_rest ..).2.1]
      · rw [hnone]
        exact fun m hm => absurd hm (List.not_mem_nil)
      · rw [hnone, (setNumber_rest ..).2.2]
        exact takes_nil
  · refine .inr (.inl ⟨{ s with escape := max s.escape 2, bad := true }, ?_, rfl, ?_⟩)
    · rw [stepNumber, if_neg (show ¬(max s.escape 2 = 2 ∨ max s.escape 2 = 3) by omega)]
      rfl
    · rw [next, if_neg hpos, if_neg hflag, if_neg (fun hand => hlow hand.1),
        if_neg (fun hand => hlow hand.1), if_neg (fun hand => hlow hand.1),
        if_neg (fun hand => hlength hand.2), if_neg hspec]

theorem interpret_flags (h : Ready s) (hpos : s.escape ≠ 0) (hc : fmtClass c = fmtFlags) :
    Outcome s.escape s.out s.args c input (interpret start s c input) := by
  obtain ⟨hstar, hdigit⟩ := flagChars_cases c (fmtClass_flags hc)
  have hnone := marks_none ⟨hstar, by rw [hc]; decide⟩ s.escape
  rw [interpret_flags_eq hpos hc]
  by_cases hone : s.escape = 1
  · rw [if_pos hone]
    have hlate : ¬2 ≤ 1 := by decide
    refine .inl ⟨_, input, rfl, ?_, ⟨h.good, Nat.le_add_left 2 3, ?_, fun hle => absurd hle hlate,
      h.placed⟩, le_rfl, ?_, ?_⟩
    · rw [next, if_neg hpos, if_pos ⟨hone, hc⟩]
    · show (s.flags ||| flagOf c) &&& (s.flags ||| flagOf c) - 1 = 0
      rw [h.fresh hone.le, Nat.zero_or]
      exact flagOf_oneFlag c
    · rw [hnone]
      exact fun m hm => absurd hm List.not_mem_nil
    · rw [hnone]
      exact takes_nil
  rw [if_neg hone]
  by_cases hzero : (s.escape = 2 ∨ s.escape = 3) ∧ c = zero
  · rw [if_pos hzero]
    exact stepNumber_cases h hpos (.inr (hdigit.mpr hzero.2)) fun hand => hone hand.1
  · have hnodigit : ¬(s.escape ≤ 3 ∧ isdigit c = true) := by
      rintro ⟨hle, hd⟩
      exact hzero ⟨by omega, hdigit.mp hd⟩
    rw [if_neg hzero]
    refine .inr (.inl ⟨_, rfl, rfl, ?_⟩)
    rw [next, if_neg hpos, if_neg (fun hand => hone hand.1), if_neg (fun hand => hstar hand.2),
      if_neg hnodigit, hc]
    simp [fmtFlags, fmtPrecision, fmtLength, fmtSpecifier]

theorem interpret_text (h : Ready s) (hzero : s.escape = 0) :
    Outcome s.escape s.out s.args c input (interpret start s c input) := by
  have hfresh := h.fresh (hzero ▸ Nat.zero_le 1)
  have hnone : marks s.escape c = [] := if_neg fun hmark => hmark.1 hzero
  have hnext : next s.escape c input = some (if c = percent then 1 else 0, input) := if_pos hzero
  have hanswered : ∀ m ∈ marks s.escape c, Answered m := by
    rw [hnone]
    exact fun m hm => absurd hm List.not_mem_nil
  have htakes : Takes ((marks s.escape c).flatMap wants) s.args s.args := by
    rw [hnone]
    exact takes_nil
  rw [interpret, if_pos hzero]
  by_cases hc : c = percent
  · rw [if_pos hc] at hnext ⊢
    exact .inl ⟨_, input, rfl, hnext, ⟨h.good, Nat.le_add_left 1 4, h.oneFlag, fun _ => hfresh,
      h.placed⟩, le_rfl, hanswered, htakes⟩
  · rw [if_neg hc] at hnext ⊢
    refine .inl ⟨_, input, rfl, ?_, ⟨h.good, h.bound, h.oneFlag, h.fresh, Nat.succ_ne_zero s.out⟩,
      Nat.le_succ s.out, hanswered, htakes⟩
    rw [hnext, hzero]

theorem interpret_precision (h : Ready s) (hpos : s.escape ≠ 0) (hc : fmtClass c = fmtPrecision) :
    Outcome s.escape s.out s.args c input (interpret start s c input) := by
  obtain ⟨hstar, -⟩ := fmtClass_high (c := c) (by rw [hc]; decide)
  have hnone := marks_none ⟨hstar, by rw [hc]; decide⟩ s.escape
  rw [interpret_precision_eq hpos hc]
  by_cases hlow : s.escape ≤ 3
  · have hmax : max s.escape 3 = 3 := by omega
    have hlate : ¬max s.escape 3 ≤ 1 := by omega
    rw [if_pos hmax]
    refine .inl ⟨_, input, rfl, ?_, ⟨h.good, ?_, h.oneFlag, fun hle => absurd hle hlate, h.placed⟩,
      le_rfl, ?_, ?_⟩
    · rw [next_precision hpos hc, if_pos hlow, hmax]
    · show max s.escape 3 ≤ 5
      omega
    · rw [hnone]
      exact fun m hm => absurd hm List.not_mem_nil
    · rw [hnone]
      exact takes_nil
  · rw [if_neg (show ¬max s.escape 3 = 3 by omega)]
    refine .inr (.inl ⟨_, rfl, rfl, ?_⟩)
    rw [next_precision hpos hc, if_neg hlow]

theorem interpret_length (h : Ready s) (hpos : s.escape ≠ 0) (hc : fmtClass c = fmtLength) :
    Outcome s.escape s.out s.args c input (interpret start s c input) := by
  obtain ⟨hstar, -⟩ := fmtClass_high (c := c) (by rw [hc]; decide)
  have hnone := marks_none ⟨hstar, by rw [hc]; decide⟩ s.escape
  rw [interpret_letter_eq hpos hc]
  by_cases hlow : s.escape ≤ 4
  · have hlate : ¬5 ≤ 1 := by decide
    rw [if_pos (show max s.escape 4 = 4 by omega)]
    refine .inl ⟨_, _, rfl, ?_, ⟨h.good, le_refl 5, h.oneFlag, fun hle => absurd hle hlate,
      h.placed⟩, le_rfl, ?_, ?_⟩
    · rw [next_letter hpos hc, if_pos hlow]
    · rw [hnone]
      exact fun m hm => absurd hm List.not_mem_nil
    · rw [hnone]
      exact takes_nil
  · rw [if_neg (show ¬max s.escape 4 = 4 by omega)]
    refine .inr (.inl ⟨_, rfl, rfl, ?_⟩)
    rw [next_letter hpos hc, if_neg hlow]

theorem interpret_specifier (h : Ready s) (hpos : s.escape ≠ 0) (hc : fmtClass c = fmtSpecifier) :
    Outcome s.escape s.out s.args c input (interpret start s c input) := by
  obtain ⟨hstar, -⟩ := fmtClass_high (c := c) (by rw [hc]; decide)
  have hmark : marks s.escape c = [c] := if_pos ⟨hpos, .inr hc⟩
  rw [interpret_specifier_eq hpos h.bound hc]
  rcases printArg_cases h.placed hstar h.oneFlag with
    ⟨mem', out', rest, hok, hc', hle, htakes⟩ | ⟨e, he, hstops⟩
  · rw [hok, ok_bind]
    refine .inl ⟨{ mem := mem', out := out', args := rest }, input, rfl, next_specifier hpos hc,
      ⟨rfl, Nat.zero_le 5, Nat.zero_and _, fun _ => rfl, ?_⟩, hle, ?_, ?_⟩
    · exact (Nat.lt_of_lt_of_le (Nat.pos_of_ne_zero h.placed) hle).ne'
    · rw [hmark]
      exact fun m hm => List.mem_singleton.mp hm ▸ hc'
    · rw [hmark, List.flatMap_singleton]
      exact htakes
  · rw [he, error_bind]
    exact .inr (.inr ⟨e, rfl, hmark, hstops⟩)

theorem interpret_cases (h : Ready s) :
    Outcome s.escape s.out s.args c input (interpret start s c input) := by
  by_cases hzero : s.escape = 0
  · exact interpret_text h hzero
  by_cases hflags : fmtClass c = fmtFlags
  · exact interpret_flags h hzero hflags
  by_cases hnumber : fmtClass c = fmtNumber
  · rw [interpret_number_eq hzero hnumber]
    exact stepNumber_cases h hzero (fmtClass_number hnumber) fun hand => hflags hand.2
  by_cases hprecision : fmtClass c = fmtPrecision
  · exact interpret_precision h hzero hprecision
  by_cases hlength : fmtClass c = fmtLength
  · exact interpret_length h hzero hlength
  by_cases hspecifier : fmtClass c = fmtSpecifier
  · exact interpret_specifier h hzero hspecifier
  · rw [interpret_other_eq hzero hflags hnumber hprecision hlength hspecifier]
    refine .inr (.inl ⟨_, rfl, rfl, ?_⟩)
    rw [next_other hzero hflags hnumber, if_neg (fun hand => hprecision hand.2),
      if_neg (fun hand => hlength hand.2), if_neg hspecifier]

/-- What one round can do. -/
theorem step_cases (h : Ready s) :
    Outcome s.escape s.out s.args c input (step start s c input) := by
  have hready : Ready { s with mem := Function.update s.mem s.out c } :=
    ⟨h.good, h.bound, h.oneFlag, h.fresh, h.placed⟩
  have hcases := @interpret_cases c input _ start hready
  exact hcases

end Round

end RxdOs.Libk.Vsprintf
