/- RxdOs/Libk/Vfprintf
   source: lib/printf.c (vfprintf, printf)
   digest: printf into the local buffer of vfprintf: the text of a format string without flags, and
   when a call that passes the check has stayed in the buffer. -/

import RxdOs.Libk.Formatter
import RxdOs.Libk.Printk

set_option autoImplicit false
set_option relaxedAutoImplicit false

namespace RxdOs.Libk.Vfprintf

open RxdOs.Base.Assert RxdOs.Base.Int32 RxdOs.Libk.Str RxdOs.Libk.Itoa RxdOs.Libk.Itoaf
  RxdOs.Libk.Vsprintf RxdOs.Libk.Formatter RxdOs.Libk.Printk

open RxdOs.Libk.FormatGrammar (enter)

open RxdOs.Lib.BlockCopy (stored stored_outside)

/-- BUFFER_SIZE -/
def bufferSize : Nat := 2048

/-- `((FILE *)1)` -/
def stdout : Nat := 1

/-- The string a pointer to `p` stands for. -/
def textAt (mem : Memory) (p : Nat) : Text := ⟨stringAt mem p (2 ^ 32), stringAt_noNul⟩

/-- vfprintf, with its local array at `buffer`. -/
def vfprintf (mem : Memory) (buffer stream : Nat) (fmt : Text) (args : List Arg)
    (scr : Screen) : Kernel (Memory × Int × Screen) :=
  if stream ≠ stdout then .error (.panic "IO: vfprinf only support stdout for now.")
  else do
    let (mem, ret, _) ← vsprintf mem buffer fmt args
    assert (ret ≤ bufferSize) "ret <= BUFFER_SIZE"
    if ret > 0 then do
      let scr ← printk (textAt mem buffer) scr
      pure (mem, ret, scr)
    else pure (mem, ret, scr)

def printf (mem : Memory) (buffer : Nat) (fmt : Text) (args : List Arg) (scr : Screen) :
    Kernel (Memory × Int × Screen) := vfprintf mem buffer stdout fmt args scr
/-! ## The check -/

/-- Nothing outside the buffer is written: the closing NUL, the highest byte of all, lies inside,
and whatever else stands around the buffer, it still stands there afterwards. -/
structure Stays (mem : Memory) (buffer : Nat) (fmt : Text) (args : List Arg) : Prop where
  closed : ∃ s, Vsprintf.loop buffer fmt.chars.length (enter mem buffer args) fmt.chars = .ok s ∧
    s.out < buffer + bufferSize
  untouched : ∀ around, SameUpTo mem around buffer (buffer + bufferSize) →
    ∃ mem' ret rest, vsprintf around buffer fmt args = .ok (mem', ret, rest) ∧
      ∀ a, a < buffer ∨ buffer + bufferSize ≤ a → mem' a = around a

/-- Where `ret <= BUFFER_SIZE` passes, vsprintf has stayed in the buffer. -/
def Checked (mem : Memory) (buffer : Nat) (fmt : Text) (args : List Arg) : Prop :=
  ∀ mem' ret rest, vsprintf mem buffer fmt args = .ok (mem', ret, rest) → ret ≤ bufferSize →
    Stays mem buffer fmt args

/-- The text leaves room for its NUL, or it is so long that the check fails. -/
def Fits (mem : Memory) (buffer : Nat) (fmt : Text) (args : List Arg) : Prop :=
  ∀ d, spell mem buffer fmt args = .ok d →
    d.text.length < bufferSize ∨ d.bad = false ∧ bufferSize < d.text.length

section Check

variable {mem : Memory} {buffer : Nat} {fmt : Text} {args : List Arg} {d : Draft}

theorem vsprintf_spell (hbuffer : buffer ≠ 0) (hargs : ∀ a ∈ args, Plain a)
    (h : spell mem buffer fmt args = .ok d) : vsprintf mem buffer fmt args =
      .ok (stored mem buffer (d.text ++ [0]), if d.bad then -1 else (d.text.length : Int),
        d.args) := by
  rw [vsprintf_lays hbuffer hargs, h, ok_bind]

/-- The closing NUL is put behind the text. -/
theorem loop_end (hbuffer : buffer ≠ 0) (hargs : ∀ a ∈ args, Plain a)
    (h : spell mem buffer fmt args = .ok d) :
    ∃ s, Vsprintf.loop buffer fmt.chars.length (enter mem buffer args) fmt.chars = .ok s ∧
      s.out = buffer + d.text.length := by
  have hlays : Accords mem buffer _ (spell mem buffer fmt args) := loop_lays hbuffer hargs
  rcases hlays with ⟨e, -, he⟩ | ⟨d', junk, escape, -, hok, hok'⟩
  · cases h.symm.trans he
  · obtain rfl := Except.ok.inj (h.symm.trans hok')
    exact ⟨_, hok, rfl⟩

/-- Room for the NUL is all it takes, and without it the NUL is written behind the buffer. -/
theorem stays_iff (hbuffer : buffer ≠ 0) (hargs : ∀ a ∈ args, Plain a)
    (h : spell mem buffer fmt args = .ok d) :
    Stays mem buffer fmt args ↔ d.text.length < bufferSize := by
  obtain ⟨s, hloop, hout⟩ := loop_end hbuffer hargs h
  constructor
  · rintro ⟨⟨s', hloop', hlt⟩, -⟩
    obtain rfl := Except.ok.inj (hloop.symm.trans hloop')
    omega
  · intro hshort
    refine ⟨⟨s, hloop, by omega⟩, fun around hsame => ?_⟩
    have hspell : spell around buffer fmt args = .ok d := spell_frame hsame h (by omega)
    refine ⟨_, _, _, vsprintf_spell hbuffer hargs hspell, fun a ha => stored_outside ?_⟩
    rw [List.length_append, List.length_singleton]
    omega

theorem checked_iff (hbuffer : buffer ≠ 0) (hargs : ∀ a ∈ args, Plain a) :
    Checked mem buffer fmt args ↔ Fits mem buffer fmt args := by
  constructor
  · intro h d hd
    by_cases hlong : d.bad = false ∧ bufferSize < d.text.length
    · exact .inr hlong
    have hpass : (if d.bad then -1 else (d.text.length : Int)) ≤ bufferSize := by
      split_ifs with hbad
      · decide
      · have hle := not_lt.mp fun hlt => hlong ⟨by simpa using hbad, hlt⟩
        exact Int.ofNat_le.mpr hle
    have hstays := h _ _ _ (vsprintf_spell hbuffer hargs hd) hpass
    exact .inl ((stays_iff hbuffer hargs hd).mp hstays)
  · intro h mem' ret rest hok hret
    rw [vsprintf_lays hbuffer hargs, bind_eq_ok] at hok
    obtain ⟨d, hd, heq⟩ := hok
    obtain ⟨-, hend⟩ := Prod.mk.inj (Except.ok.inj heq)
    obtain ⟨rfl, -⟩ := Prod.mk.inj hend
    rcases h d hd with hshort | ⟨hgood, hlong⟩
    · exact (stays_iff hbuffer hargs hd).mpr hshort
    · rw [hgood, if_neg Bool.false_ne_true, Int.ofNat_le] at hret
      exact absurd hlong (not_lt.mpr hret)

/-- vsprintf answers, and whatever memory holds it writes nothing outside the buffer. -/
def Bounded (fmt : Text) (args : List Arg) : Prop :=
  ∀ (mem : Memory) (buffer : Nat), buffer ≠ 0 → Stays mem buffer fmt args

/-- A text that is the same in every memory leaves the buffer if it leaves no room for its NUL. -/
theorem bounded_iff (hargs : ∀ a ∈ args, Plain a)
    (hspell : ∀ mem buffer, spell mem buffer fmt args = .ok d) :
    Bounded fmt args ↔ d.text.length < bufferSize := by
  constructor
  · intro h
    exact (stays_iff Nat.one_ne_zero hargs (hspell (fun _ => 0) 1)).mp (h _ 1 Nat.one_ne_zero)
  · intro hshort mem buffer hbuffer
    exact (stays_iff hbuffer hargs (hspell mem buffer)).mpr hshort

end Check

/-! ## Format strings spelled out -/

section Spelling

variable {mem : Memory} {buffer n : Nat} {text w input : List UInt8} {args : List Arg} {d : Draft}

/-- From the start of a conversion, the rest of a format string is spelled out as `d`. -/
def Spells (mem : Memory) (buffer : Nat) (text : List UInt8) (args : List Arg)
    (input : List UInt8) (d : Draft) : Prop :=
  ∀ n, input.length ≤ n → spellLoop mem buffer n { text := text, args := args } input = .ok d

theorem spells_nil : Spells mem buffer text args [] { text := text, args := args } := by
  intro n hn
  cases n with
  | zero => rfl
  | succ n => rfl

theorem spells_text (hw : ∀ c ∈ w, c ≠ percent) (h : Spells mem buffer (text ++ w) args input d) :
    Spells mem buffer text args (w ++ input) d := by
  induction w generalizing text with
  | nil => rwa [List.append_nil] at h
  | cons c w ih =>
    obtain ⟨hc, hw⟩ := List.forall_mem_cons.mp hw
    intro n hn
    cases n with
    | zero => exact absurd hn (Nat.not_succ_le_zero _)
    | succ n =>
      have hround : spellStep mem buffer { text := text, args := args } c (w ++ input) =
          .ok ({ text := text ++ [c], args := args }, w ++ input) := by
        have hnext : next 0 c (w ++ input) = some (0, w ++ input) := by
          rw [next, if_pos rfl, if_neg hc]
        rw [spellStep_some hnext, spellPart, if_pos rfl, if_neg hc]
        rfl
      have hsplit : text ++ [c] ++ w = text ++ c :: w := (List.append_cons ..).symm
      rw [List.cons_append, spellLoop, if_neg Bool.false_ne_true, hround, ok_bind]
      exact ih hw (hsplit ▸ h) n (Nat.le_of_succ_le_succ hn)

theorem spells_conversion {c : UInt8} {l : List UInt8} {rest : List Arg}
    (hc : fmtClass c = fmtSpecifier)
    (harg : spellArg mem (buffer + text.length) args c 0 0 (-1) = .ok (l, rest))
    (h : Spells mem buffer (text ++ l) rest input d) :
    Spells mem buffer text args (percent :: c :: input) d := by
  intro n hn
  obtain ⟨n, rfl⟩ := Nat.exists_eq_add_of_le' hn
  have hopen : spellStep mem buffer { text := text, args := args } percent (c :: input) =
      .ok ({ text := text, args := args, escape := 1 }, c :: input) := by
    have hnext : next 0 percent (c :: input) = some (1, c :: input) := rfl
    rw [spellStep_some hnext]
    rfl
  have hclose : spellStep mem buffer { text := text, args := args, escape := 1 } c input =
      .ok ({ text := text ++ l, args := rest }, input) := by
    have hnext : next 1 c input = some (0, input) := next_specifier Nat.one_ne_zero hc
    rw [spellStep_some hnext, spellPart, if_neg Nat.one_ne_zero, if_pos hc, harg, ok_bind]
    rfl
  have hlen : n + (percent :: c :: input).length = n + input.length + 1 + 1 := rfl
  rw [hlen, spellLoop, if_neg Bool.false_ne_true, hopen, ok_bind]
  dsimp only
  rw [spellLoop, if_neg Bool.false_ne_true, hclose, ok_bind]
  exact h _ (Nat.le_add_left ..)

theorem Spells.spell {fmt : Text} (h : Spells mem buffer [] args fmt.chars d) :
    spell mem buffer fmt args = .ok d := h _ le_rfl

theorem written_plain (value : Int32) : written value 10 0 0 (-1) = numeral value 10 ++ [0] := by
  have hzeros : zeroChars value 10 (-1) = [] := by
    rw [zeroChars, Int.toNat_of_nonpos (by omega), List.replicate_zero]
  have hprefix : prefixChars value 10 0 = [] := by
    simp [prefixChars]
  have hbody : bodyChars value 10 0 (-1) = numeral value 10 := by
    rw [bodyChars, hzeros, List.append_nil, headChars, hprefix, List.nil_append, numeral_eq]
  have hfill : ((0 : Int) - (numeral value 10).length).toNat = 0 :=
    Int.toNat_of_nonpos (by omega)
  have hlayout : layout value 10 0 0 (-1) = numeral value 10 := by
    rw [layout, hbody, hfill]
    rfl
  have htail : tailChars value 10 (-1) = [0] := if_neg (by omega)
  rw [written, hlayout, hbody, if_neg (by omega), htail]

theorem spellArg_int (p : Nat) (value : Int32) (args : List Arg) :
    spellArg mem p (.int value :: args) (chr 'd') 0 0 (-1) = .ok (numeral value 10, args) := by
  have hstanding : standing mem p (written value 10 0 0 (-1)) = numeral value 10 := by
    rw [written_plain]
    exact stringAt_isString (isString_stored mem p ⟨_, numeral_noNul value (by decide)⟩)
      ((numeral_length value (by decide)).trans (by decide))
  rw [spellArg, if_neg (by decide), if_neg (by decide), if_pos (.inl rfl), spellInt]
  show Except.ok (standing mem p (written value 10 0 0 (-1)), args) = _
  rw [hstanding]

theorem spellArg_str (p : Nat) (t : Text) (args : List Arg) :
    spellArg mem p (.str t :: args) (chr 's') 0 0 (-1) = .ok (t.chars, args) := by
  rw [spellArg, if_neg (by decide), if_pos rfl]
  rfl

end Spelling

end RxdOs.Libk.Vfprintf
